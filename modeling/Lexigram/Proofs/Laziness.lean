import Lexigram.Proofs.Exactness

/-! # Pulling on demand

A pull does no work beyond its item. The streams of rules are made at once but wait to be pulled, a merge
returns the item that it gets, and a complete chain is returned as soon as its rule's reducer was called.
So whenever an item of a non-terminal comes out, at whatever depth its chains are nested, the last call in
the log is the one that made it.
-/

namespace Lexigram

variable {V : Type} [OfToken V]

/-- Pulling the stream again and again gives these answers, one for each pull. Every pull goes on with the
log that the one before it left. -/
inductive Stream.Runs (g : Grammar V) (tokens : List Token) :
    Stream V → Array (Call V) → List (Option (Item V)) → Stream V → Array (Call V) → Prop
  | here (source : Stream V) (log : Array (Call V)) : Runs g tokens source log [] source log
  | pull {source next left : Stream V} {log mid log' : Array (Call V)} {item : Option (Item V)}
    {items : List (Option (Item V))} (fuel : Nat)
    (h : (source.pull g tokens fuel).run log = .ok ((item, next), mid))
    (h' : Runs g tokens next mid items left log') :
    Runs g tokens source log (item :: items) left log'

/-- The item is what the rule makes of a complete chain from `start` on, and the last call is that of the
reducer on the values of this chain. -/
def MadeLast (g : Grammar V) (tokens : List Token) (rule : Rule V) (start : Nat) (item : Item V)
    (calls : Array (Call V)) : Prop :=
  ∃ reducer chain, rule.reducer = some reducer ∧ Chained g tokens rule.symbols start chain ∧
    item = rule.itemOf reducer start chain ∧ calls.back? = some (rule.callOf reducer chain)

variable {g : Grammar V} {tokens : List Token}

theorem MadeLast.prepend {rule : Rule V} {start : Nat} {item : Item V} {calls : Array (Call V)}
    (h : MadeLast g tokens rule start item calls) (earlier : Array (Call V)) :
    MadeLast g tokens rule start item (earlier ++ calls) := by
  obtain ⟨reducer, chain, hReducer, hChain, hItem, hLast⟩ := h
  refine ⟨reducer, chain, hReducer, hChain, hItem, ?_⟩
  simp [Array.back?_append, hLast]

/-- The derivations of a non-terminal are made by one of its rules, errors by any rule of the grammar. -/
def AccountedFor (g : Grammar V) (tokens : List Token) (symbol : Symbol) (start : Nat)
    (calls : Array (Call V)) : Item V → Prop
  | .ok d => ∃ index nt, symbol = .nonTerminal index ∧ g.get? index = some nt ∧
    ∃ rule ∈ nt.rules, MadeLast g tokens rule start (.ok d) calls
  | .error e => ∃ nt ∈ g.nonTerminals, ∃ rule ∈ nt.rules, ∃ begins,
    MadeLast g tokens rule begins (.error e) calls

theorem AccountedFor.prepend {symbol : Symbol} {start : Nat} {item : Item V} {calls : Array (Call V)}
    (h : AccountedFor g tokens symbol start calls item) (earlier : Array (Call V)) :
    AccountedFor g tokens symbol start (earlier ++ calls) item := by
  cases item with
  | ok d =>
    obtain ⟨index, nt, hSymbol, hNt, rule, hRule, hMade⟩ := h
    exact ⟨index, nt, hSymbol, hNt, rule, hRule, hMade.prepend earlier⟩
  | error e =>
    obtain ⟨nt, hNt, rule, hRule, begins, hMade⟩ := h
    exact ⟨nt, hNt, rule, hRule, begins, hMade.prepend earlier⟩

/-- The stream merges chains of rules and nothing else. -/
inductive Stream.Composed : Stream V → Prop
  | inTurn {streams : List (Stream V)} (h : ∀ stream ∈ streams, stream.Composed) :
    Composed (.inTurn streams)
  | inOrder {streams : List (Stream V)} (h : ∀ stream ∈ streams, stream.Composed) :
    Composed (.inOrder streams)
  | chains {rule : Rule V} {start stop : Nat}
    {state : Enumeration.Chain Symbol (Stream V) (Derivation V)} :
    Composed (.chains rule start stop state)

omit [OfToken V] in
theorem Rule.composed_stream (rule : Rule V) (start stop : Nat) : (rule.stream start stop).Composed := by
  unfold Rule.stream
  split
  · split
    · exact .inOrder fun _ h => absurd h List.not_mem_nil
    · exact .chains
  · exact .inOrder fun _ h => absurd h List.not_mem_nil

omit [OfToken V] in
theorem NonTerminal.composed_stream (nt : NonTerminal V) (tokens : List Token) (start stop : Nat)
    (hint : Option Terminal) : (nt.stream tokens start stop hint).Composed := by
  unfold NonTerminal.stream
  split
  · have hRules : ∀ stream ∈ nt.rules.map (·.stream start (nt.bound tokens start stop hint)),
        stream.Composed := by
      intro stream hStream
      obtain ⟨rule, -, rfl⟩ := List.mem_map.mp hStream
      exact rule.composed_stream start _
    dsimp only
    split
    · exact .inTurn hRules
    · exact .inOrder hRules
  · exact .inOrder fun _ h => absurd h List.not_mem_nil

theorem Stream.Pulls.composed {source left : Stream V} {item : Option (Item V)}
    {calls : Array (Call V)} (h : source.Pulls g tokens item left calls) (hSource : source.Composed) :
    left.Composed := by
  induction h with
  | once => cases hSource
  | inTurnEnd => exact hSource
  | inOrderEnd => exact hSource
  | inTurnItem _ ih =>
    cases hSource with
    | inTurn hStreams =>
      obtain ⟨hFirst, hWaiting⟩ := List.forall_mem_cons.mp hStreams
      exact .inTurn (List.forall_mem_append.mpr ⟨hWaiting, List.forall_mem_singleton.mpr (ih hFirst)⟩)
  | inOrderItem _ ih =>
    cases hSource with
    | inOrder hStreams =>
      obtain ⟨hFirst, hWaiting⟩ := List.forall_mem_cons.mp hStreams
      exact .inOrder (List.forall_mem_cons.mpr ⟨ih hFirst, hWaiting⟩)
  | inTurnSkip _ _ _ ih =>
    cases hSource with
    | inTurn hStreams => exact ih (.inTurn (List.forall_mem_cons.mp hStreams).2)
  | inOrderSkip _ _ _ ih =>
    cases hSource with
    | inOrder hStreams => exact ih (.inOrder (List.forall_mem_cons.mp hStreams).2)
  | begin _ _ ih => exact ih .chains
  | finished => exact .chains
  | back _ _ _ ih => exact ih .chains
  | failed => exact .chains
  | forward _ _ _ _ ih => exact ih .chains
  | complete => exact .chains

theorem accountedFor_concluded {index place start : Nat} {nt : NonTerminal V} {rule : Rule V}
    {chain : List (Derivation V)} {item : Item V} {calls : Array (Call V)} (hNt : g.get? index = some nt) (hRule : nt.rules[place]? = some rule)
    (hChain : Chained g tokens rule.symbols start chain)
    (h : rule.concluded start (some (.ok chain)) = (some item, calls)) :
    AccountedFor g tokens (.nonTerminal index) start calls item := by
  have hMember : rule ∈ nt.rules := List.mem_of_getElem? hRule
  cases hReducer : rule.reducer with
  | none =>
    simp only [Rule.concluded, hReducer] at h
    cases h
  | some reducer =>
    rw [rule.concluded_of_reducer hReducer, Prod.mk.injEq, Option.some.injEq] at h
    obtain ⟨rfl, rfl⟩ := h
    have hMade : MadeLast g tokens rule start (rule.itemOf reducer start chain)
        #[rule.callOf reducer chain] := ⟨reducer, chain, hReducer, hChain, rfl, rfl⟩
    cases hItem : rule.itemOf reducer start chain with
    | ok d => exact ⟨index, nt, rfl, hNt, rule, hMember, hItem ▸ hMade⟩
    | error e => exact ⟨nt, List.mem_of_getElem? hNt, rule, hMember, start, hItem ▸ hMade⟩

/-- Wherever the source explores a range, the last of the calls accounts for the item. Derivations are
traced to chains only: a token is a derivation without any call. -/
def Stream.AccountsFor (g : Grammar V) (tokens : List Token) (source : Stream V) (item : Option (Item V))
    (calls : Array (Call V)) : Prop :=
  ∀ ⦃symbol start stop⦄, Explores g tokens symbol start stop source →
    ∀ i ∈ item, (∀ d, i = .ok d → source.Composed) → AccountedFor g tokens symbol start calls i

namespace Stream.AccountsFor

variable {source source' : Stream V} {waiting : List (Stream V)} {item : Option (Item V)}
  {rule : Rule V} {begins bound : Nat} {before : List (Enumeration.Level Symbol (Stream V))}
  {chosen : List (Derivation V)} {choice : Derivation V} {calls : Array (Call V)}

theorem once (d : Derivation V) : (Stream.once d).AccountsFor g tokens (some (.ok d)) #[] := by
  intro symbol start stop _ i hi hComposed
  cases hi
  cases hComposed d rfl

theorem nothing : source.AccountsFor g tokens none #[] :=
  fun _ _ _ _ _ hi => nomatch hi

theorem inTurnItem (h : source.AccountsFor g tokens item calls) :
    (inTurn (source :: waiting)).AccountsFor g tokens item calls := by
  intro symbol start stop hSource i hi hComposed
  cases hSource with
  | inTurn hStreams =>
    refine h (hStreams _ List.mem_cons_self) i hi fun d hd => ?_
    cases hComposed d hd with
    | inTurn hAll => exact hAll _ List.mem_cons_self

theorem inOrderItem (h : source.AccountsFor g tokens item calls) :
    (inOrder (source :: waiting)).AccountsFor g tokens item calls := by
  intro symbol start stop hSource i hi hComposed
  cases hSource with
  | inOrder hStreams =>
    refine h (hStreams _ List.mem_cons_self) i hi fun d hd => ?_
    cases hComposed d hd with
    | inOrder hAll => exact hAll _ List.mem_cons_self

-- The calls of a pull are those of its parts in turn, and the part that gives the item comes last. So calls
-- that were made before it change nothing.

theorem inTurnSkip (earlier : Array (Call V)) (h : (inTurn waiting).AccountsFor g tokens item calls) :
    (inTurn (source :: waiting)).AccountsFor g tokens item (earlier ++ calls) := by
  intro symbol start stop hSource i hi hComposed
  cases hSource with
  | inTurn hStreams =>
    refine (h (.inTurn (List.forall_mem_cons.mp hStreams).2) i hi fun d hd => ?_).prepend earlier
    cases hComposed d hd with
    | inTurn hAll => exact .inTurn (List.forall_mem_cons.mp hAll).2

theorem inOrderSkip (earlier : Array (Call V)) (h : (inOrder waiting).AccountsFor g tokens item calls) :
    (inOrder (source :: waiting)).AccountsFor g tokens item (earlier ++ calls) := by
  intro symbol start stop hSource i hi hComposed
  cases hSource with
  | inOrder hStreams =>
    refine (h (.inOrder (List.forall_mem_cons.mp hStreams).2) i hi fun d hd => ?_).prepend earlier
    cases hComposed d hd with
    | inOrder hAll => exact .inOrder (List.forall_mem_cons.mp hAll).2

theorem begin {first : Symbol} {behind : List Symbol}
    (hStream : rule.symbolStream g tokens begins bound first none = .ok source)
    (h : (chains rule begins bound (.moving [⟨source, behind⟩] [])).AccountsFor g tokens item calls) :
    (chains rule begins bound (.fresh first behind)).AccountsFor g tokens item calls :=
  fun _ _ _ hSource i hi _ => h (hSource.begin hStream) i hi fun _ _ => .chains

theorem back {level : Enumeration.Level Symbol (Stream V)} (earlier : Array (Call V))
    (h : (chains rule begins bound (.moving before chosen.tail)).AccountsFor g tokens item calls) :
    (chains rule begins bound (.moving (level :: before) chosen)).AccountsFor g tokens item
      (earlier ++ calls) :=
  fun _ _ _ hSource i hi _ => (h hSource.back i hi fun _ _ => .chains).prepend earlier

theorem failed {behind : List Symbol} {e : ReductionError}
    (h : source.AccountsFor g tokens (some (.error e)) calls) :
    (chains rule begins bound (.moving (⟨source, behind⟩ :: before) chosen)).AccountsFor g tokens
      (some (.error e)) calls := by
  intro symbol start stop hSource i hi _
  cases hi
  cases hSource.trail with
  | cons _ _ _ _ hLevel _ => exact h hLevel _ rfl fun _ hd => nomatch hd

theorem forward {next : Symbol} {behind : List Symbol} {opened : Stream V} (earlier : Array (Call V))
    (hKeeps : source.KeepsExploring g tokens (some (.ok choice)) source')
    (hNext : rule.symbolStream g tokens begins bound next (some choice) = .ok opened)
    (h : (chains rule begins bound (.moving
      (⟨opened, behind⟩ :: ⟨source', next :: behind⟩ :: before)
      (choice :: chosen))).AccountsFor g tokens item calls) :
    (chains rule begins bound (.moving (⟨source, next :: behind⟩ :: before) chosen)).AccountsFor
      g tokens item (earlier ++ calls) :=
  fun _ _ _ hSource i hi _ =>
    (h (hSource.forward hKeeps hNext) i hi fun _ _ => .chains).prepend earlier

theorem complete (earlier : Array (Call V))
    (hKeeps : source.KeepsExploring g tokens (some (.ok choice)) source')
    (hItem : rule.concluded begins (some (.ok (choice :: chosen).reverse)) = (item, calls)) :
    (chains rule begins bound (.moving (⟨source, []⟩ :: before) chosen)).AccountsFor g tokens item
      (earlier ++ calls) := by
  intro symbol start stop hSource i hi _
  cases hi
  obtain ⟨hChained, -⟩ := hSource.chained hKeeps
  cases hSource with
  | chains hNt hRule _ _ => exact (accountedFor_concluded hNt hRule hChained hItem).prepend earlier

end Stream.AccountsFor

theorem Stream.Pulls.accountsFor {source left : Stream V} {item : Option (Item V)}
    {calls : Array (Call V)} (h : source.Pulls g tokens item left calls) :
    source.AccountsFor g tokens item calls := by
  induction h with
  | once d => exact .once d
  | inTurnEnd => exact .nothing
  | inTurnItem _ ih => exact .inTurnItem ih
  | inTurnSkip _ _ _ ih => exact .inTurnSkip _ ih
  | inOrderEnd => exact .nothing
  | inOrderItem _ ih => exact .inOrderItem ih
  | inOrderSkip _ _ _ ih => exact .inOrderSkip _ ih
  | begin hStream _ ih => exact .begin hStream ih
  | finished => exact .nothing
  | back _ _ _ ih => exact .back _ ih
  | failed _ ih => exact .failed ih
  | forward h hNext _ _ ih => exact .forward _ h.explores hNext ih
  | complete h hItem => exact .complete _ h.explores hItem

section Runs

variable {source left : Stream V} {log log' : Array (Call V)} {items : List (Option (Item V))}

theorem Stream.Runs.reaches (h : source.Runs g tokens log items left log') :
    source.Reaches g tokens items left := by
  induction h with
  | here source log => exact .here source
  | pull fuel h _ ih => exact .pull ⟨fuel, _, _, h⟩ ih

theorem Stream.Reaches.composed (h : source.Reaches g tokens items left) (hSource : source.Composed) :
    left.Composed := by
  induction h with
  | here => exact hSource
  | pull hGives _ ih =>
    obtain ⟨calls, hPulls⟩ := gives_iff_exists_pulls.mp hGives
    exact ih (hPulls.composed hSource)

/-- Whatever was pulled from the stream of a non-terminal before, and whatever the log holds, the last call
accounts for the item that is pulled next. -/
theorem accountedFor_of_run {index start stop fuel : Nat} {hint : Option Terminal} {nt : NonTerminal V}
    (hNt : g.get? index = some nt)
    (hStream : g.stream tokens (.nonTerminal index) start stop hint = .ok source)
    (hReaches : source.Reaches g tokens items left) {item : Item V} {next : Stream V}
    (hPull : (left.pull g tokens fuel).run log = .ok ((some item, next), log')) :
    AccountedFor g tokens (.nonTerminal index) start log' item := by
  have hComposed : source.Composed := by
    rw [Grammar.stream, hNt] at hStream
    cases hStream
    exact nt.composed_stream tokens start stop hint
  obtain ⟨calls, rfl, hPulls⟩ := Stream.traces_pull fuel hPull
  have hLast := hPulls.accountsFor (hReaches.explores (explores_stream hStream)).2 item rfl
    fun _ _ => hReaches.composed hComposed
  exact hLast.prepend log

namespace Parser

variable {p : Parser V} {attempts : Nat} {pulled : List (Option (Item V))}
  {answer : Except ParseError (Parsed V)} {calls : Array (Call V)}

theorem Searches.runs (h : p.Searches tokens attempts source pulled answer calls)
    (log : Array (Call V)) :
    ∃ left, source.Runs p.grammar tokens log pulled left (log ++ calls) := by
  induction h generalizing log with
  | @exhausted _ _ left _ hPulls =>
    obtain ⟨least, hRun⟩ := hPulls.settles.run_pull
    exact ⟨left, .pull least (hRun least (Nat.le_refl least) log) (.here left _)⟩
  | @decided _ _ left _ _ _ hPulls =>
    obtain ⟨least, hRun⟩ := hPulls.settles.run_pull
    exact ⟨left, .pull least (hRun least (Nat.le_refl least) log) (.here left _)⟩
  | undecided hPulls _ _ ih =>
    obtain ⟨least, hRun⟩ := hPulls.settles.run_pull
    obtain ⟨left, hRest⟩ := ih _
    rw [Array.append_assoc] at hRest
    exact ⟨left, .pull least (hRun least (Nat.le_refl least) log) hRest⟩

/-- The answer tells how many items were taken, so many of them before these pulls, and with what they
ended. -/
def Reports (size before : Nat) (pulled : List (Option (Item V))) : Except ParseError (Parsed V) → Prop
  | .ok parsed => pulled.length + before = parsed.attempts ∧
    pulled.getLast? = some (some (.ok ⟨parsed.value, size⟩))
  | .error (.noDerivation attempts) => pulled.length + before = attempts + 1 ∧
    pulled.getLast? = some none
  | .error (.budgetExhausted attempts _) => pulled.length + before = attempts
  | .error (.reduction e) => pulled.getLast? = some (some (.error e))

omit [OfToken V] in
theorem reports_of_decide? {size : Nat} {item : Item V}
    (h : p.decide? size (attempts + 1) (some item) = some answer) :
    Reports size attempts [some item] answer := by
  cases item with
  | error e =>
    cases h
    rfl
  | ok d =>
    simp only [decide?] at h
    split at h
    · rename_i hNext
      cases h
      exact ⟨Nat.add_comm 1 attempts, by rw [← hNext]; rfl⟩
    · split at h
      · split at h
        · cases h
          exact Nat.add_comm 1 attempts
        · cases h
      · cases h

omit [OfToken V] in
theorem Reports.cons {size : Nat} (h : Reports size (attempts + 1) pulled answer)
    (item : Option (Item V)) : Reports size attempts (item :: pulled) answer := by
  have hLength : (item :: pulled).length + attempts = pulled.length + (attempts + 1) := by
    rw [List.length_cons]
    omega
  have hLast : ∀ {last}, pulled.getLast? = some last → (item :: pulled).getLast? = some last := by
    intro last hLast
    rw [List.getLast?_cons, hLast]
    rfl
  match answer with
  | .ok parsed => exact ⟨hLength.trans h.1, hLast h.2⟩
  | .error (.noDerivation _) => exact ⟨hLength.trans h.1, hLast h.2⟩
  | .error (.budgetExhausted _ _) => exact hLength.trans h
  | .error (.reduction e) => exact hLast h

theorem Searches.reports (h : p.Searches tokens attempts source pulled answer calls) :
    Reports tokens.length attempts pulled answer := by
  induction h with
  | @exhausted attempts => exact ⟨Nat.add_comm 1 attempts, rfl⟩
  | decided _ hDecide => exact reports_of_decide? hDecide
  | undecided _ _ _ ih => exact ih.cons _

theorem runs_of_parse {fuel : Nat} (h : (p.parse tokens fuel).run log = .ok (answer, log')) :
    ∃ source left pulled calls, p.stream tokens = .ok source ∧
      p.Searches tokens 0 source pulled answer calls ∧
      source.Runs p.grammar tokens log pulled left log' := by
  obtain ⟨source, pulled, calls, hSource, rfl, hSearches⟩ := exists_searches_of_run h
  obtain ⟨left, hRuns⟩ := hSearches.runs log
  exact ⟨source, left, pulled, calls, hSource, hSearches, hRuns⟩

end Parser

end Runs

/-- A stream is obtained without a call. Whenever a pull of a non-terminal's stream gives an item, the last
call in the log is that of the reducer which made it: for a derivation the reducer of a rule of this
non-terminal, for an error the reducer that failed. The log of a parse is what pulling its stream leaves.
It pulls as many items as its answer reports and stops at the one that decides. -/
theorem no_call_ahead {g : Grammar V} (hClosed : g.Closed) (tokens : List Token) :
    (∀ symbol, g.Holds symbol → ∀ start stop hint (log : Array (Call V)), ∃ source,
      (Traced.ofExcept (g.stream tokens symbol start stop hint)).run log = .ok (source, log)) ∧
    (∀ config (log : Array (Call V)), ∃ source,
      (Traced.ofExcept ((Parser.mk g config).stream tokens)).run log = .ok (source, log)) ∧
    (∀ index nt start stop hint source next left log mid log' items item fuel,
      g.get? index = some nt →
      g.stream tokens (.nonTerminal index) start stop hint = .ok source →
      source.Runs g tokens log items next mid →
      (next.pull g tokens fuel).run mid = .ok ((some item, left), log') →
      (∀ d, item = .ok d → ∃ rule ∈ nt.rules, MadeLast g tokens rule start (.ok d) log') ∧
      ∀ e, item = .error e → ∃ failing ∈ g.nonTerminals, ∃ rule ∈ failing.rules, ∃ begins,
        MadeLast g tokens rule begins (.error e) log') ∧
    ∀ config fuel log answer log', ((Parser.mk g config).parse tokens fuel).run log = .ok (answer, log') →
      ∃ source left pulled, (Parser.mk g config).stream tokens = .ok source ∧
        source.Runs g tokens log pulled left log' ∧
        Parser.Reports tokens.length 0 pulled answer := by
  have hOpens : ∀ symbol, g.Holds symbol → ∀ start stop hint (log : Array (Call V)), ∃ source,
      (Traced.ofExcept (g.stream tokens symbol start stop hint)).run log = .ok (source, log) := by
    intro symbol hSymbol start stop hint log
    obtain ⟨source, hSource⟩ := Grammar.exists_stream tokens hSymbol start stop hint
    exact ⟨source, Traced.run_ofExcept_eq_ok_iff.mpr ⟨hSource, rfl⟩⟩
  refine ⟨hOpens, fun config log => hOpens g.start (hClosed _ List.mem_cons_self) _ _ _ log, ?_, ?_⟩
  · intro index nt start stop hint source next left log mid log' items item fuel hNt hStream hRuns hPull
    have hLast := accountedFor_of_run hNt hStream hRuns.reaches hPull
    constructor
    · rintro d rfl
      obtain ⟨_, nt', hSymbol, hNt', hMade⟩ := hLast
      cases hSymbol
      cases hNt.symm.trans hNt'
      exact hMade
    · rintro e rfl
      exact hLast
  · intro config fuel log answer log' hParse
    obtain ⟨source, left, pulled, calls, hSource, hSearches, hRuns⟩ := Parser.runs_of_parse hParse
    exact ⟨source, left, pulled, hSource, hRuns, hSearches.reports⟩

open Sums in
theorem no_call_ahead_sums : (grammar joined).Closed ∧
    (∃ nt source next left mid log', (grammar joined).get? 0 = some nt ∧
      (grammar joined).stream input (.nonTerminal 0) 0 3 none = .ok source ∧
      source.Runs (grammar joined) input #[] [some (.ok ⟨"1", 1⟩)] next mid ∧
      (next.pull (grammar joined) input 9).run mid = .ok ((some (.ok ⟨"1p2", 3⟩), left), log') ∧
      ∃ rule ∈ nt.rules, MadeLast (grammar joined) input rule 0 (.ok ⟨"1p2", 3⟩) log') ∧
    ∃ log, (Parser.parse ⟨grammar joined, {}⟩ input 9).run #[] = .ok (.ok ⟨"1p2", 2⟩, log) ∧
      ∃ source left pulled, (Parser.mk (grammar joined) {}).stream input = .ok source ∧
        source.Runs (grammar joined) input #[] pulled left log ∧ pulled.length = 2 ∧
        pulled.getLast? = some (some (.ok ⟨"1p2", 3⟩)) := by
  obtain ⟨-, -, hPulls, hParses⟩ := no_call_ahead (closed joined) input
  refine ⟨closed joined, ?_, ?_⟩
  · obtain ⟨nt, source, next, left, mid, log', hNt, hStream, hRuns, hPull⟩ :
        ∃ nt source next left mid log', (grammar joined).get? 0 = some nt ∧
          (grammar joined).stream input (.nonTerminal 0) 0 3 none = .ok source ∧
          source.Runs (grammar joined) input #[] [some (.ok ⟨"1", 1⟩)] next mid ∧
          (next.pull (grammar joined) input 9).run mid = .ok ((some (.ok ⟨"1p2", 3⟩), left), log') :=
      ⟨_, _, _, _, _, _, rfl, rfl, .pull 9 rfl (.here _ _), rfl⟩
    exact ⟨nt, source, next, left, mid, log', hNt, hStream, hRuns, hPull,
      (hPulls 0 nt 0 3 none source next left _ mid log' _ _ 9 hNt hStream hRuns hPull).1 _ rfl⟩
  · obtain ⟨log, hParse⟩ : ∃ log,
        (Parser.parse ⟨grammar joined, {}⟩ input 9).run #[] = .ok (.ok ⟨"1p2", 2⟩, log) := ⟨_, rfl⟩
    obtain ⟨source, left, pulled, hSource, hRuns, hPulled, hLast⟩ := hParses {} 9 #[] _ log hParse
    exact ⟨log, hParse, source, left, pulled, hSource, hRuns, hPulled, hLast⟩

end Lexigram
