import Lexigram.Proofs.Laziness

/-! # After an error

A parse stops at the first error that it pulls. A stream need not: an error that comes from a symbol of a
rule ends the rule's chains, but one of the rule's own reducer leaves them where they are, and a merge
goes on with the other rules in either case.
-/

namespace Lexigram

variable {V : Type} [OfToken V] {g : Grammar V} {tokens : List Token}

/-- After its first error the stream gives nothing and makes no call, however often it is pulled. -/
def Stream.EndsAtErrors (g : Grammar V) (tokens : List Token) (source : Stream V) : Prop :=
  ∀ items next log mid fuel e left log', source.Runs g tokens log items next mid →
    (next.pull g tokens fuel).run mid = .ok ((some (.error e), left), log') →
    ∀ later last log'', left.Runs g tokens log' later last log'' →
      (∀ item ∈ later, item = none) ∧ log'' = log'

namespace Stream

theorem Pulls.chains_left {source left : Stream V} {item : Option (Item V)} {calls : Array (Call V)}
    (h : source.Pulls g tokens item left calls) {rule : Rule V} {start stop : Nat}
    {state : Enumeration.Chain Symbol (Stream V) (Derivation V)}
    (hSource : source = .chains rule start stop state) :
    ∃ state', left = .chains rule start stop state' ∧ ∀ e, item = some (.error e) →
      state' = .finished ∨
        ∃ reducer chain, rule.reducer = some reducer ∧ rule.itemOf reducer start chain = .error e := by
  induction h generalizing state with
  | once => cases hSource
  | inTurnEnd => cases hSource
  | inTurnItem => cases hSource
  | inTurnSkip => cases hSource
  | inOrderEnd => cases hSource
  | inOrderItem => cases hSource
  | inOrderSkip => cases hSource
  | begin _ _ ih =>
    cases hSource
    exact ih rfl
  | finished =>
    cases hSource
    exact ⟨.finished, rfl, fun e he => nomatch he⟩
  | back _ _ _ ih =>
    cases hSource
    exact ih rfl
  | failed =>
    cases hSource
    exact ⟨.finished, rfl, fun _ _ => .inl rfl⟩
  | forward _ _ _ _ ih =>
    cases hSource
    exact ih rfl
  | complete _ hConcluded =>
    cases hSource
    refine ⟨_, rfl, fun e he => .inr ?_⟩
    subst he
    cases hReducer : rule.reducer with
    | none =>
      simp only [Rule.concluded, hReducer] at hConcluded
      cases hConcluded
    | some reducer =>
      rw [rule.concluded_of_reducer hReducer, Prod.mk.injEq, Option.some.injEq] at hConcluded
      exact ⟨reducer, _, rfl, hConcluded.1⟩

theorem Runs.chains_left {source left : Stream V} {log log' : Array (Call V)}
    {items : List (Option (Item V))} (h : source.Runs g tokens log items left log') {rule : Rule V}
    {start stop : Nat} {state : Enumeration.Chain Symbol (Stream V) (Derivation V)}
    (hSource : source = .chains rule start stop state) :
    ∃ state', left = .chains rule start stop state' := by
  induction h generalizing state with
  | here => exact ⟨state, hSource⟩
  | pull fuel hPull _ ih =>
    obtain ⟨calls, -, hPulls⟩ := traces_pull fuel hPull
    obtain ⟨state', hNext, -⟩ := hPulls.chains_left hSource
    exact ih hNext

theorem Runs.of_still {source left : Stream V} {log log' : Array (Call V)}
    {items : List (Option (Item V))} (h : source.Runs g tokens log items left log')
    (hStill : ∀ item next calls, source.Pulls g tokens item next calls →
      item = none ∧ next = source ∧ calls = #[]) :
    (∀ item ∈ items, item = none) ∧ left = source ∧ log' = log := by
  induction h with
  | here => exact ⟨fun item hItem => absurd hItem List.not_mem_nil, rfl, rfl⟩
  | pull fuel hPull _ ih =>
    obtain ⟨calls, rfl, hPulls⟩ := traces_pull fuel hPull
    obtain ⟨rfl, rfl, rfl⟩ := hStill _ _ _ hPulls
    obtain ⟨hItems, hLeft, hLog⟩ := ih hStill
    refine ⟨?_, hLeft, by rw [hLog, Array.append_empty]⟩
    intro item hItem
    rcases List.mem_cons.mp hItem with hFirst | hRest
    · exact hFirst
    · exact hItems item hRest

theorem endsAtErrors_empty : (.empty : Stream V).EndsAtErrors g tokens := by
  intro items next log mid fuel e left log' hRuns hPull
  have hStill : ∀ item next calls, (.empty : Stream V).Pulls g tokens item next calls →
      item = none ∧ next = .empty ∧ calls = #[] := by
    intro item next calls hPulls
    cases hPulls
    exact ⟨rfl, rfl, rfl⟩
  obtain ⟨-, rfl, -⟩ := hRuns.of_still hStill
  obtain ⟨calls, -, hPulls⟩ := traces_pull fuel hPull
  cases (hStill _ _ _ hPulls).1

/-- The stream of a rule ends at its first error if the rule's own reducer accepts all arguments. -/
theorem endsAtErrors_rule {rule : Rule V}
    (hAccepts : ∀ reducer, rule.reducer = some reducer →
      ∀ values, ∃ value, reducer.apply values = .ok value) (start stop : Nat) :
    (rule.stream start stop).EndsAtErrors g tokens := by
  unfold Rule.stream
  split
  · split
    · exact endsAtErrors_empty
    · intro items next log mid fuel e left log' hRuns hPull later last log'' hLater
      obtain ⟨state, hNext⟩ := hRuns.chains_left rfl
      obtain ⟨calls, -, hPulls⟩ := traces_pull fuel hPull
      obtain ⟨state', rfl, hError⟩ := hPulls.chains_left hNext
      obtain rfl | ⟨reducer, chain, hReducer, hItem⟩ := hError e rfl
      · obtain ⟨hItems, -, hLog⟩ := hLater.of_still (by
          intro item next calls hPulls
          cases hPulls
          exact ⟨rfl, rfl, rfl⟩)
        exact ⟨hItems, hLog⟩
      · obtain ⟨value, hValue⟩ := hAccepts reducer hReducer (chain.map (·.value))
        rw [Rule.itemOf, hValue] at hItem
        cases hItem
  · exact endsAtErrors_empty

end Stream

theorem Parser.Searches.error_last {p : Parser V} {attempts : Nat} {source : Stream V}
    {pulled : List (Option (Item V))} {answer : Except ParseError (Parsed V)} {calls : Array (Call V)}
    (h : p.Searches tokens attempts source pulled answer calls) {e : ReductionError}
    (he : some (.error e) ∈ pulled) :
    answer = .error (.reduction e) ∧ pulled.getLast? = some (some (.error e)) := by
  induction h with
  | exhausted => simp at he
  | decided _ hDecide =>
    cases List.mem_singleton.mp he
    cases hDecide
    exact ⟨rfl, rfl⟩
  | undecided _ hDecide _ ih =>
    obtain ⟨⟨d, rfl, -⟩, -⟩ := decide?_eq_none_iff.mp hDecide
    obtain hFirst | hRest := List.mem_cons.mp he
    · cases hFirst
    · obtain ⟨hAnswer, hLast⟩ := ih hRest
      refine ⟨hAnswer, ?_⟩
      rw [List.getLast?_cons, hLast]
      rfl

/-- An error ends the stream of a rule whose own reducer accepts all arguments, and it ends every parse: a
parse that pulls an error answers with it, and its log is what the pulls up to the error leave. -/
theorem errors_end_parses (g : Grammar V) (tokens : List Token) :
    (∀ rule : Rule V, (∀ reducer, rule.reducer = some reducer →
        ∀ values, ∃ value, reducer.apply values = .ok value) →
      ∀ start stop, (rule.stream start stop).EndsAtErrors g tokens) ∧
    ∀ config fuel log answer log', ((Parser.mk g config).parse tokens fuel).run log = .ok (answer, log') →
      ∃ source left pulled, (Parser.mk g config).stream tokens = .ok source ∧
        source.Runs g tokens log pulled left log' ∧
        ∀ e, some (.error e) ∈ pulled →
          answer = .error (.reduction e) ∧ pulled.getLast? = some (some (.error e)) := by
  constructor
  · intro rule hAccepts start stop
    exact Stream.endsAtErrors_rule hAccepts start stop
  · intro config fuel log answer log' hParse
    obtain ⟨source, left, pulled, calls, hSource, hSearches, hRuns⟩ := Parser.runs_of_parse hParse
    exact ⟨source, left, pulled, hSource, hRuns, fun e he => hSearches.error_last he⟩

namespace Refusals

def item : Terminal :=
  ⟨0, "item", ⟨"x", .char 'x', none⟩⟩

def refused : ReductionError :=
  ⟨"outer", "inner", ⟨"refused"⟩⟩

/-- Refuses what the first rule of the inner non-terminal gives. -/
def refusing : Rule String where
  symbols := [.nonTerminal 1]
  reducer := some ⟨fun values => if values = ["first"] then .error ⟨"refused"⟩ else .ok "taken", none⟩
  owner := "outer"
  label := "inner"

def always (symbol : Symbol) (text : String) : Rule String where
  symbols := [symbol]
  reducer := some ⟨fun _ => .ok text, none⟩

theorem always_accepts (symbol : Symbol) (text : String) (reducer : Reducer String)
    (h : (always symbol text).reducer = some reducer) (values : List String) :
    ∃ value, reducer.apply values = .ok value := by
  cases h
  exact ⟨text, rfl⟩

def grammar : Grammar String where
  nonTerminals := [
    ⟨"outer", [refusing, always (.terminal item) "item"], true, .roundRobin⟩,
    ⟨"inner", [always (.terminal item) "first", always (.terminal item) "second"], true, .roundRobin⟩]
  start := .nonTerminal 0

def input : List Token :=
  [⟨item, "x", 0, 1, 1, 1⟩]

theorem closed : grammar.Closed := by
  intro symbol hSymbol
  simp only [Grammar.symbols, grammar, refusing, always, List.flatMap_cons, List.flatMap_nil,
    List.append_nil, List.cons_append, List.nil_append, List.mem_cons, List.not_mem_nil,
    or_false] at hSymbol
  rcases hSymbol with rfl | rfl | rfl | rfl | rfl
  · exact Nat.zero_lt_two
  · exact Nat.one_lt_two
  · trivial
  · trivial
  · trivial

end Refusals

open Refusals in
theorem errors_end_parses_refusals :
    ((always (.nonTerminal 0) "passed").stream 0 1).EndsAtErrors grammar input ∧
    (∃ left log, ((always (.nonTerminal 0) "passed").stream 0 1).Runs grammar input #[]
      [some (.error refused), none] left log) ∧
    ∃ log source left pulled,
      (Parser.parse ⟨grammar, {}⟩ input 9).run #[] = .ok (.error (.reduction refused), log) ∧
      (Parser.mk grammar {}).stream input = .ok source ∧
      source.Runs grammar input #[] pulled left log ∧
      ∀ e, some (.error e) ∈ pulled → e = refused ∧ pulled.getLast? = some (some (.error e)) := by
  obtain ⟨hRules, hParses⟩ := errors_end_parses grammar input
  refine ⟨hRules _ (always_accepts (.nonTerminal 0) "passed") 0 1,
    ⟨_, _, .pull 9 rfl (.pull 9 rfl (.here _ _))⟩, ?_⟩
  obtain ⟨log, hParse⟩ : ∃ log, (Parser.parse ⟨grammar, {}⟩ input 9).run #[] =
      .ok (.error (.reduction refused), log) := ⟨_, rfl⟩
  obtain ⟨source, left, pulled, hSource, hRuns, hErrors⟩ := hParses {} 9 #[] _ log hParse
  refine ⟨log, source, left, pulled, hParse, hSource, hRuns, fun e he => ?_⟩
  obtain ⟨hAnswer, hLast⟩ := hErrors e he
  cases hAnswer
  exact ⟨rfl, hLast⟩

open Refusals in
/-- After the refusal the other rule of the outer non-terminal is pulled, and the refusing rule goes on to
the next chain. -/
theorem streams_outlast_errors : grammar.Closed ∧
    (∃ source, (Parser.mk grammar {}).stream input = .ok source ∧
      ¬ source.EndsAtErrors grammar input) ∧
    ¬ (refusing.stream 0 1).EndsAtErrors grammar input := by
  refine ⟨closed, ⟨_, rfl, fun h => ?_⟩, fun h => ?_⟩
  · have hAfter := h [] _ #[] #[] 9 refused _ _ (.here _ _) rfl [some (.ok ⟨"item", 1⟩)] _ _
      (.pull 9 rfl (.here _ _))
    exact absurd (hAfter.1 _ List.mem_cons_self) (Option.some_ne_none _)
  · have hAfter := h [] _ #[] #[] 9 refused _ _ (.here _ _) rfl [some (.ok ⟨"taken", 1⟩)] _ _
      (.pull 9 rfl (.here _ _))
    exact absurd (hAfter.1 _ List.mem_cons_self) (Option.some_ne_none _)

end Lexigram
