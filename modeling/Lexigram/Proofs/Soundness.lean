import Lexigram.Proofs.Hint
import Lexigram.Proofs.Pulls
import Lexigram.Proofs.Tree

/-! # Soundness of enumerations

Whatever is pulled from the stream of a symbol is a derivation of that symbol in its range, or the error
of a reducer that rejected a complete chain in its range. The invariant says which symbol and range each
nested stream enumerates, so it holds of endless enumerations too.
-/

namespace Lexigram

variable {V : Type}

section Chains

variable {start : Nat} {chain : List (Derivation V)} {d : Derivation V}

@[simp] theorem chainEnd_nil : chainEnd start ([] : List (Derivation V)) = start :=
  rfl

@[simp] theorem chainEnd_cons : chainEnd start (d :: chain) = chainEnd d.next chain := by
  cases chain with
  | nil => rfl
  | cons d' chain =>
    rw [chainEnd, chainEnd, List.getLast?_cons_cons,
      List.getLast?_eq_some_getLast (List.cons_ne_nil d' chain)]
    rfl

@[simp] theorem chainEnd_concat : chainEnd start (chain ++ [d]) = d.next := by
  simp [chainEnd]

end Chains

variable [OfToken V]

/-- The derivation is what some tree of the symbol that begins at `start` reduces to. -/
def Derived (g : Grammar V) (tokens : List Token) (symbol : Symbol) (start : Nat) (d : Derivation V) :
    Prop :=
  ∃ tree : Tree, tree.Derives g tokens symbol start d.next ∧ tree.value? g tokens = some d.value

inductive Chained (g : Grammar V) (tokens : List Token) :
    List Symbol → Nat → List (Derivation V) → Prop
  | nil {start : Nat} : Chained g tokens [] start []
  | cons {symbol : Symbol} {symbols : List Symbol} {start : Nat} {d : Derivation V}
    {chain : List (Derivation V)} (h : Derived g tokens symbol start d)
    (h' : Chained g tokens symbols d.next chain) :
    Chained g tokens (symbol :: symbols) start (d :: chain)

variable {g : Grammar V} {tokens : List Token}

theorem Chained.concat {symbols : List Symbol} {symbol : Symbol} {start : Nat}
    {chain : List (Derivation V)} {d : Derivation V} (h : Chained g tokens symbols start chain)
    (hLast : Derived g tokens symbol (chainEnd start chain) d) :
    Chained g tokens (symbols ++ [symbol]) start (chain ++ [d]) := by
  induction h with
  | nil => exact .cons hLast .nil
  | cons hFirst _ ih =>
    rw [chainEnd_cons] at hLast
    exact .cons hFirst (ih hLast)

theorem Chained.exists_trees {symbols : List Symbol} {start : Nat} {chain : List (Derivation V)}
    (h : Chained g tokens symbols start chain) :
    ∃ trees, Tree.DeriveAll g tokens symbols start (chainEnd start chain) trees ∧
      Tree.values? g tokens trees = some (chain.map (·.value)) := by
  induction h with
  | nil => exact ⟨[], .nil, by rw [Tree.values?]; rfl⟩
  | cons hFirst _ ih =>
    obtain ⟨tree, hTree, hValue⟩ := hFirst
    obtain ⟨trees, hTrees, hValues⟩ := ih
    refine ⟨tree :: trees, chainEnd_cons ▸ .cons hTree hTrees, ?_⟩
    rw [Tree.values?, hValue, hValues]
    rfl

theorem Chained.start_le_chainEnd {symbols : List Symbol} {start : Nat} {chain : List (Derivation V)}
    (h : Chained g tokens symbols start chain) : start ≤ chainEnd start chain := by
  obtain ⟨trees, hTrees, _⟩ := h.exists_trees
  exact hTrees.start_le_stop

theorem Chained.derived {index place start : Nat} {nt : NonTerminal V} {rule : Rule V}
    {reducer : Reducer V} {chain : List (Derivation V)} {value : V}
    (h : Chained g tokens rule.symbols start chain) (hNt : g.get? index = some nt)
    (hRule : nt.rules[place]? = some rule) (hReducer : rule.reducer = some reducer)
    (hSymbols : rule.symbols ≠ []) (hValue : reducer.apply (chain.map (·.value)) = .ok value) :
    Derived g tokens (.nonTerminal index) start ⟨value, chainEnd start chain⟩ := by
  obtain ⟨trees, hTrees, hValues⟩ := h.exists_trees
  refine ⟨.node index place trees, .node hNt hRule hSymbols hTrees, ?_⟩
  simp only [Tree.value?, hNt, hRule, hReducer, hValues, Option.bind_eq_bind, Option.bind_some]
  rw [hValue]
  rfl

/-- The error is that of a reducer of the grammar which rejected a complete chain of its rule within
`[start, stop)`. -/
def Rejected (g : Grammar V) (tokens : List Token) (start stop : Nat) (e : ReductionError) : Prop :=
  ∃ nt ∈ g.nonTerminals, ∃ rule ∈ nt.rules, ∃ reducer begins chain,
    rule.reducer = some reducer ∧ e.nonTerminal = rule.owner ∧ e.rule = rule.label ∧
    reducer.apply (chain.map (·.value)) = .error e.cause ∧
    Chained g tokens rule.symbols begins chain ∧ start ≤ begins ∧ chainEnd begins chain ≤ stop

theorem Rejected.mono {start stop start' stop' : Nat} {e : ReductionError}
    (h : Rejected g tokens start' stop' e) (hStart : start ≤ start') (hStop : stop' ≤ stop) :
    Rejected g tokens start stop e := by
  obtain ⟨nt, hNt, rule, hRule, reducer, begins, chain, hReducer, hOwner, hLabel, hCause, hChain,
    hBegins, hEnd⟩ := h
  exact ⟨nt, hNt, rule, hRule, reducer, begins, chain, hReducer, hOwner, hLabel, hCause, hChain,
    Nat.le_trans hStart hBegins, Nat.le_trans hEnd hStop⟩

def SoundItem (g : Grammar V) (tokens : List Token) (symbol : Symbol) (start stop : Nat) :
    Item V → Prop
  | .ok d => Derived g tokens symbol start d ∧ d.next ≤ stop
  | .error e => Rejected g tokens start stop e

mutual

/-- What is left of the stream gives derivations of the symbol over `[start, stop)`. -/
inductive Explores (g : Grammar V) (tokens : List Token) : Symbol → Nat → Nat → Stream V → Prop
  | once {symbol : Symbol} {start stop : Nat} {d : Derivation V}
    (h : Derived g tokens symbol start d) (hStop : d.next ≤ stop) :
    Explores g tokens symbol start stop (.once d)
  | inTurn {symbol : Symbol} {start stop : Nat} {streams : List (Stream V)}
    (h : ∀ stream ∈ streams, Explores g tokens symbol start stop stream) :
    Explores g tokens symbol start stop (.inTurn streams)
  | inOrder {symbol : Symbol} {start stop : Nat} {streams : List (Stream V)}
    (h : ∀ stream ∈ streams, Explores g tokens symbol start stop stream) :
    Explores g tokens symbol start stop (.inOrder streams)
  | chains {index place start stop stop' : Nat} {nt : NonTerminal V} {rule : Rule V}
    {state : Enumeration.Chain Symbol (Stream V) (Derivation V)} (hNt : g.get? index = some nt)
    (hRule : nt.rules[place]? = some rule) (hStop : stop' ≤ stop)
    (h : Follows g tokens rule start stop' state) :
    Explores g tokens (.nonTerminal index) start stop (.chains rule start stop' state)

inductive Follows (g : Grammar V) (tokens : List Token) :
    Rule V → Nat → Nat → Enumeration.Chain Symbol (Stream V) (Derivation V) → Prop
  | fresh {rule : Rule V} {start stop : Nat} {first : Symbol} {behind : List Symbol}
    (hSymbols : rule.symbols = first :: behind) :
    Follows g tokens rule start stop (.fresh first behind)
  | moving {rule : Rule V} {start stop : Nat} {levels : List (Enumeration.Level Symbol (Stream V))}
    {chosen : List (Derivation V)} (h : Trail g tokens rule start stop levels chosen) :
    Follows g tokens rule start stop (.moving levels chosen)

/-- The choices made so far are derivations of the first symbols of the rule, and each level gives
derivations of the symbol that comes next, from where the choices before it end. -/
inductive Trail (g : Grammar V) (tokens : List Token) :
    Rule V → Nat → Nat → List (Enumeration.Level Symbol (Stream V)) → List (Derivation V) → Prop
  | nil {rule : Rule V} {start stop : Nat} {chosen : List (Derivation V)} :
    Trail g tokens rule start stop [] chosen
  | cons {rule : Rule V} {start stop : Nat} (read : List Symbol) {behind : List Symbol}
    (symbol : Symbol) {source : Stream V} {before : List (Enumeration.Level Symbol (Stream V))}
    {chosen : List (Derivation V)} (hSymbols : rule.symbols = read ++ symbol :: behind)
    (hChosen : Chained g tokens read start chosen.reverse)
    (hSource : Explores g tokens symbol (chainEnd start chosen.reverse) stop source)
    (hBefore : Trail g tokens rule start stop before chosen.tail) :
    Trail g tokens rule start stop (⟨source, behind⟩ :: before) chosen

end

theorem explores_empty {symbol : Symbol} {start stop : Nat} :
    Explores g tokens symbol start stop (.empty : Stream V) :=
  .inOrder fun _ h => absurd h List.not_mem_nil

theorem explores_terminal (terminal : Terminal) (start stop : Nat) :
    Explores g tokens (.terminal terminal) start stop (terminal.stream tokens start stop) := by
  unfold Terminal.stream
  split
  · rename_i token hToken
    split
    · rename_i h
      rw [Bool.and_eq_true, decide_eq_true_eq] at h
      have hValue : (Tree.leaf start).value? g tokens = some (OfToken.ofToken token) := by
        rw [Tree.value?, hToken]
        rfl
      exact .once ⟨.leaf start, .leaf hToken h.2, hValue⟩ h.1
    · exact explores_empty
  · exact explores_empty

theorem explores_rule {index place start stop stop' : Nat} {nt : NonTerminal V} {rule : Rule V}
    (hNt : g.get? index = some nt) (hRule : nt.rules[place]? = some rule) (hStop : stop' ≤ stop) :
    Explores g tokens (.nonTerminal index) start stop (rule.stream start stop') := by
  unfold Rule.stream
  split
  · split
    · exact explores_empty
    · rename_i first behind hSymbols
      exact .chains hNt hRule hStop (.fresh hSymbols)
  · exact explores_empty

theorem explores_nonTerminal {index start stop : Nat} {nt : NonTerminal V} {hint : Option Terminal}
    (hNt : g.get? index = some nt) :
    Explores g tokens (.nonTerminal index) start stop (nt.stream tokens start stop hint) := by
  unfold NonTerminal.stream
  split
  · rename_i hStart
    have hRules : ∀ stream ∈ nt.rules.map (·.stream start (nt.bound tokens start stop hint)),
        Explores g tokens (.nonTerminal index) start stop stream := by
      intro stream hStream
      obtain ⟨rule, hRule, rfl⟩ := List.mem_map.mp hStream
      obtain ⟨place, hPlace⟩ := List.mem_iff_getElem?.mp hRule
      exact explores_rule hNt hPlace (nt.bound_le hStart hint)
    dsimp only
    split
    · exact .inTurn hRules
    · exact .inOrder hRules
  · exact explores_empty

theorem explores_stream {symbol : Symbol} {start stop : Nat} {hint : Option Terminal}
    {source : Stream V} (h : g.stream tokens symbol start stop hint = .ok source) :
    Explores g tokens symbol start stop source := by
  unfold Grammar.stream at h
  split at h
  · rename_i terminal
    cases h
    exact explores_terminal terminal start stop
  · split at h
    · rename_i nt hNt
      cases h
      exact explores_nonTerminal hNt
    · cases h

theorem Trail.forward {rule : Rule V} {start stop : Nat} {read behind : List Symbol}
    {taken symbol : Symbol} {levels : List (Enumeration.Level Symbol (Stream V))}
    {chosen : List (Derivation V)} {choice : Derivation V} {source : Stream V}
    (h : Trail g tokens rule start stop levels chosen)
    (hSymbols : rule.symbols = read ++ taken :: symbol :: behind)
    (hChosen : Chained g tokens read start chosen.reverse)
    (hChoice : Derived g tokens taken (chainEnd start chosen.reverse) choice)
    (hSource : Explores g tokens symbol choice.next stop source) :
    Trail g tokens rule start stop (⟨source, behind⟩ :: levels) (choice :: chosen) := by
  refine .cons (read ++ [taken]) symbol ?_ ?_ ?_ h
  · rw [hSymbols, List.append_assoc]
    rfl
  · rw [List.reverse_cons]
    exact hChosen.concat hChoice
  · rwa [List.reverse_cons, chainEnd_concat]

theorem soundItem_concluded {index place start stop : Nat} {nt : NonTerminal V} {rule : Rule V}
    {chain : List (Derivation V)} (hNt : g.get? index = some nt)
    (hRule : nt.rules[place]? = some rule) (hChain : Chained g tokens rule.symbols start chain)
    (hSymbols : rule.symbols ≠ []) (hStop : chainEnd start chain ≤ stop) :
    ∀ i ∈ (rule.concluded start (some (.ok chain))).1,
      SoundItem g tokens (.nonTerminal index) start stop i := by
  intro i hi
  unfold Rule.concluded at hi
  cases hReducer : rule.reducer with
  | none =>
    simp only [hReducer] at hi
    cases hi
  | some reducer =>
    simp only [hReducer] at hi
    cases hi
    unfold Rule.itemOf
    cases hValue : reducer.apply (chain.map (·.value)) with
    | ok value => exact ⟨hChain.derived hNt hRule hReducer hSymbols hValue, hStop⟩
    | error cause =>
      exact ⟨nt, List.mem_of_getElem? hNt, rule, List.mem_of_getElem? hRule, reducer, start, chain,
        hReducer, rfl, rfl, hValue, hChain, Nat.le_refl start, hStop⟩

section Explores

variable {symbol : Symbol} {start stop begins bound : Nat} {rule : Rule V} {source source' left : Stream V}
  {before levels : List (Enumeration.Level Symbol (Stream V))} {chosen : List (Derivation V)}
  {choice : Derivation V}

theorem Explores.trail
    (h : Explores g tokens symbol start stop (.chains rule begins bound (.moving levels chosen))) :
    Trail g tokens rule begins bound levels chosen := by
  cases h with
  | chains _ _ _ hState =>
    cases hState with
    | moving hTrail => exact hTrail

theorem Explores.follow {state : Enumeration.Chain Symbol (Stream V) (Derivation V)}
    (h : Explores g tokens symbol start stop (.chains rule begins bound state))
    (hTrail : Trail g tokens rule begins bound levels chosen) :
    Explores g tokens symbol start stop (.chains rule begins bound (.moving levels chosen)) := by
  cases h with
  | chains hNt hRule hStop _ => exact .chains hNt hRule hStop (.moving hTrail)

theorem Explores.begin {first : Symbol} {behind : List Symbol}
    (h : Explores g tokens symbol start stop (.chains rule begins bound (.fresh first behind)))
    (hStream : rule.symbolStream g tokens begins bound first none = .ok source) :
    Explores g tokens symbol start stop
      (.chains rule begins bound (.moving [⟨source, behind⟩] [])) := by
  cases h with
  | chains hNt hRule hStop hState =>
    cases hState with
    | fresh hSymbols =>
      exact .chains hNt hRule hStop (.moving (.cons [] first hSymbols .nil (explores_stream hStream) .nil))

theorem Explores.back {level : Enumeration.Level Symbol (Stream V)}
    (h : Explores g tokens symbol start stop
      (.chains rule begins bound (.moving (level :: before) chosen))) :
    Explores g tokens symbol start stop (.chains rule begins bound (.moving before chosen.tail)) := by
  refine h.follow ?_
  cases h.trail with
  | cons _ _ _ _ _ hBefore => exact hBefore

/-- Wherever the source explores a range, the item is sound there and what is left goes on exploring it. -/
def Stream.KeepsExploring (g : Grammar V) (tokens : List Token) (source : Stream V)
    (item : Option (Item V)) (left : Stream V) : Prop :=
  ∀ ⦃symbol start stop⦄, Explores g tokens symbol start stop source →
    (∀ i ∈ item, SoundItem g tokens symbol start stop i) ∧ Explores g tokens symbol start stop left

theorem Explores.forward {next : Symbol} {behind : List Symbol} {opened : Stream V}
    (h : Explores g tokens symbol start stop
      (.chains rule begins bound (.moving (⟨source, next :: behind⟩ :: before) chosen)))
    (hKeeps : source.KeepsExploring g tokens (some (.ok choice)) source')
    (hNext : rule.symbolStream g tokens begins bound next (some choice) = .ok opened) :
    Explores g tokens symbol start stop (.chains rule begins bound
      (.moving (⟨opened, behind⟩ :: ⟨source', next :: behind⟩ :: before) (choice :: chosen))) := by
  refine h.follow ?_
  cases h.trail with
  | cons read taken hSymbols hChosen hLevel hBefore =>
    obtain ⟨hChoice, hLeft⟩ := hKeeps hLevel
    obtain ⟨hDerived, -⟩ := hChoice _ rfl
    have hRest := Trail.cons read taken hSymbols hChosen hLeft hBefore
    exact hRest.forward hSymbols hChosen hDerived (explores_stream hNext)

theorem Explores.chained
    (h : Explores g tokens symbol start stop
      (.chains rule begins bound (.moving (⟨source, []⟩ :: before) chosen)))
    (hKeeps : source.KeepsExploring g tokens (some (.ok choice)) source') :
    Chained g tokens rule.symbols begins (choice :: chosen).reverse ∧ choice.next ≤ bound := by
  cases h.trail with
  | cons read taken hSymbols hChosen hLevel _ =>
    obtain ⟨hDerived, hEnd⟩ := (hKeeps hLevel).1 _ rfl
    rw [hSymbols, List.reverse_cons]
    exact ⟨hChosen.concat hDerived, hEnd⟩

end Explores

namespace Stream.KeepsExploring

variable {source source' left : Stream V} {waiting : List (Stream V)} {item : Option (Item V)}
  {rule : Rule V} {begins bound : Nat} {behind : List Symbol}
  {before : List (Enumeration.Level Symbol (Stream V))} {chosen : List (Derivation V)}
  {choice : Derivation V}

theorem once (d : Derivation V) : (Stream.once d).KeepsExploring g tokens (some (.ok d)) .empty := by
  intro symbol start stop hSource
  refine ⟨fun i hi => ?_, explores_empty⟩
  cases hi
  cases hSource with
  | once hDerived hStop => exact ⟨hDerived, hStop⟩

theorem nothing : source.KeepsExploring g tokens none source :=
  fun _ _ _ hSource => ⟨fun _ hi => (nomatch hi), hSource⟩

theorem inTurnItem (h : source.KeepsExploring g tokens item source') :
    (inTurn (source :: waiting)).KeepsExploring g tokens item (inTurn (waiting ++ [source'])) := by
  intro symbol start stop hSource
  cases hSource with
  | inTurn hStreams =>
    obtain ⟨hFirst, hWaiting⟩ := List.forall_mem_cons.mp hStreams
    obtain ⟨hItem, hLeft⟩ := h hFirst
    exact ⟨hItem, .inTurn (List.forall_mem_append.mpr ⟨hWaiting, List.forall_mem_singleton.mpr hLeft⟩)⟩

theorem inOrderItem (h : source.KeepsExploring g tokens item source') :
    (inOrder (source :: waiting)).KeepsExploring g tokens item (inOrder (source' :: waiting)) := by
  intro symbol start stop hSource
  cases hSource with
  | inOrder hStreams =>
    obtain ⟨hFirst, hWaiting⟩ := List.forall_mem_cons.mp hStreams
    obtain ⟨hItem, hLeft⟩ := h hFirst
    exact ⟨hItem, .inOrder (List.forall_mem_cons.mpr ⟨hLeft, hWaiting⟩)⟩

theorem inTurnSkip (h : (inTurn waiting).KeepsExploring g tokens item left) :
    (inTurn (source :: waiting)).KeepsExploring g tokens item left := by
  intro symbol start stop hSource
  cases hSource with
  | inTurn hStreams => exact h (.inTurn (List.forall_mem_cons.mp hStreams).2)

theorem inOrderSkip (h : (inOrder waiting).KeepsExploring g tokens item left) :
    (inOrder (source :: waiting)).KeepsExploring g tokens item left := by
  intro symbol start stop hSource
  cases hSource with
  | inOrder hStreams => exact h (.inOrder (List.forall_mem_cons.mp hStreams).2)

theorem finished : (chains rule begins bound (.moving [] chosen)).KeepsExploring g tokens none
    (chains rule begins bound .finished) :=
  fun _ _ _ hSource => ⟨fun _ hi => (nomatch hi), hSource.follow .nil⟩

theorem failed {e : ReductionError} (h : source.KeepsExploring g tokens (some (.error e)) source') :
    (chains rule begins bound (.moving (⟨source, behind⟩ :: before) chosen)).KeepsExploring g tokens
      (some (.error e)) (chains rule begins bound .finished) := by
  intro symbol start stop hSource
  refine ⟨fun i hi => ?_, hSource.follow .nil⟩
  cases hi
  cases hSource with
  | chains _ _ hStop hState =>
    cases hState with
    | moving hTrail =>
      cases hTrail with
      | cons _ _ _ hChosen hLevel _ =>
        exact Rejected.mono ((h hLevel).1 _ rfl) hChosen.start_le_chainEnd hStop

theorem complete {calls : Array (Call V)}
    (h : source.KeepsExploring g tokens (some (.ok choice)) source')
    (hItem : rule.concluded begins (some (.ok (choice :: chosen).reverse)) = (item, calls)) :
    (chains rule begins bound (.moving (⟨source, []⟩ :: before) chosen)).KeepsExploring g tokens item
      (chains rule begins bound (.moving (⟨source', []⟩ :: before) chosen)) := by
  intro symbol start stop hSource
  obtain ⟨hChained, hEnd⟩ := hSource.chained h
  cases hSource.trail with
  | cons read taken hSymbols hChosen hLevel hBefore =>
    refine ⟨?_, hSource.follow (.cons read taken hSymbols hChosen (h hLevel).2 hBefore)⟩
    have hLast : chainEnd begins (choice :: chosen).reverse = choice.next := by
      rw [List.reverse_cons, chainEnd_concat]
    cases hSource with
    | chains hNt hRule hStop _ =>
      have hSound := soundItem_concluded hNt hRule hChained (by simp [hSymbols])
        (hLast ▸ Nat.le_trans hEnd hStop)
      rwa [hItem] at hSound

end Stream.KeepsExploring

theorem Stream.Pulls.explores {source left : Stream V} {item : Option (Item V)} {calls : Array (Call V)}
    (h : source.Pulls g tokens item left calls) : source.KeepsExploring g tokens item left := by
  induction h with
  | once d => exact .once d
  | inTurnEnd => exact .nothing
  | inTurnItem _ ih => exact .inTurnItem ih
  | inTurnSkip _ _ _ ih => exact .inTurnSkip ih
  | inOrderEnd => exact .nothing
  | inOrderItem _ ih => exact .inOrderItem ih
  | inOrderSkip _ _ _ ih => exact .inOrderSkip ih
  | begin hStream _ ih => exact fun _ _ _ hSource => ih (hSource.begin hStream)
  | finished => exact .finished
  | back _ _ _ ih => exact fun _ _ _ hSource => ih hSource.back
  | failed _ ih => exact .failed ih
  | forward _ hNext _ ih ih' => exact fun _ _ _ hSource => ih' (hSource.forward ih hNext)
  | complete _ hItem ih => exact .complete ih hItem

theorem Stream.Reaches.explores {source left : Stream V} {items : List (Option (Item V))}
    (h : source.Reaches g tokens items left) {symbol : Symbol} {start stop : Nat}
    (hSource : Explores g tokens symbol start stop source) :
    (∀ i, some i ∈ items → SoundItem g tokens symbol start stop i) ∧
      Explores g tokens symbol start stop left := by
  induction h with
  | here => exact ⟨fun i hi => absurd hi List.not_mem_nil, hSource⟩
  | pull hGives _ ih =>
    obtain ⟨calls, hPulls⟩ := gives_iff_exists_pulls.mp hGives
    obtain ⟨hItem, hNext⟩ := hPulls.explores hSource
    obtain ⟨hItems, hLeft⟩ := ih hNext
    refine ⟨fun i hi => ?_, hLeft⟩
    rcases List.mem_cons.mp hi with hi | hi
    · exact hItem i hi.symm
    · exact hItems i hi

/-- Every item that can ever be pulled from the stream of a symbol is sound: a derivation reaches from
`start` at least one token on and not past the range, and is what a tree over exactly these tokens
reduces to; an error is that of a reducer of the grammar on a complete chain of its rule. -/
theorem sound_of_reaches {symbol : Symbol} {start stop : Nat} {source left : Stream V}
    {items : List (Option (Item V))} (hStream : g.stream tokens symbol start stop none = .ok source)
    (hReaches : source.Reaches g tokens items left) :
    (∀ d, some (.ok d) ∈ items → start < d.next ∧ d.next ≤ min stop tokens.length ∧
      ∃ tree : Tree, tree.Derives g tokens symbol start d.next ∧
        tree.leaves = List.range' start (d.next - start) ∧ tree.value? g tokens = some d.value) ∧
    (∀ e, some (.error e) ∈ items → Rejected g tokens start stop e) := by
  have hSound := (hReaches.explores (explores_stream hStream)).1
  constructor
  · intro d hd
    obtain ⟨⟨tree, hTree, hValue⟩, hStop⟩ := hSound _ hd
    exact ⟨hTree.start_lt_stop, Nat.le_min.mpr ⟨hStop, hTree.stop_le_length⟩,
      tree, hTree, hTree.leaves_eq, hValue⟩
  · intro e he
    exact hSound _ he

namespace Sums

def number : Terminal :=
  ⟨0, "number", ⟨"n", .char 'n', none⟩⟩

def plus : Terminal :=
  ⟨1, "plus", ⟨"p", .char 'p', none⟩⟩

def grammar (reducer : Reducer String) : Grammar String where
  nonTerminals := [{
    name := "sum"
    rules := [
      ⟨[.terminal number], reducer, "sum", "number"⟩,
      ⟨[.nonTerminal 0, .terminal plus, .terminal number], reducer, "sum", "sum plus number"⟩]
    hintPruning := true
    alternation := .roundRobin }]
  start := .nonTerminal 0

def input : List Token :=
  [⟨number, "1", 0, 1, 1, 1⟩, ⟨plus, "p", 2, 3, 1, 3⟩, ⟨number, "2", 4, 5, 1, 5⟩]

def single : Reducer String where
  apply
    | [value] => .ok value
    | _ => .error ⟨"more than one value"⟩

end Sums

theorem sound_of_reaches_sums : ∃ source left,
    (Sums.grammar Sums.single).stream Sums.input (.nonTerminal 0) 0 3 none = .ok source ∧
    source.Reaches (Sums.grammar Sums.single) Sums.input
      [some (.ok ⟨"1", 1⟩), some (.error ⟨"sum", "sum plus number", ⟨"more than one value"⟩⟩)] left ∧
    (∃ tree : Tree, tree.Derives (Sums.grammar Sums.single) Sums.input (.nonTerminal 0) 0 1) ∧
    Rejected (Sums.grammar Sums.single) Sums.input 0 3
      ⟨"sum", "sum plus number", ⟨"more than one value"⟩⟩ := by
  obtain ⟨source, hStream⟩ : ∃ source, (Sums.grammar Sums.single).stream Sums.input
    (.nonTerminal 0) 0 3 none = .ok source := ⟨_, rfl⟩
  obtain ⟨left, hReaches⟩ : ∃ left, source.Reaches (Sums.grammar Sums.single) Sums.input
      [some (.ok ⟨"1", 1⟩), some (.error ⟨"sum", "sum plus number", ⟨"more than one value"⟩⟩)] left := by
    cases hStream
    exact ⟨_, .pull ⟨9, #[], _, rfl⟩ (.pull ⟨9, #[], _, rfl⟩ (.here _))⟩
  have hSound := sound_of_reaches hStream hReaches
  obtain ⟨-, -, tree, hTree, -⟩ := hSound.1 ⟨"1", 1⟩ List.mem_cons_self
  exact ⟨source, left, hStream, hReaches, ⟨tree, hTree⟩,
    hSound.2 _ (List.mem_cons_of_mem _ List.mem_cons_self)⟩

end Lexigram
