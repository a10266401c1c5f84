import Lexigram.Proofs.Draining
import Lexigram.Proofs.Relabelling

/-! # Narrower searches in order

When the rules of every non-terminal are merged one after another, the list for a narrower range is the list
for the wider one less the derivations that end behind it, in the same order. So where more pruning narrows
the search for a leading non-terminal, what is cut off begins no chain that the rule completes, and the
enumeration as a whole stays as it is.
-/

namespace Lexigram

variable {V : Type}

def upTo (place : Nat) (derivations : List (Derivation V)) : List (Derivation V) :=
  derivations.filter (·.next ≤ place)

theorem upTo_cons_of_le {place : Nat} {d : Derivation V} (h : d.next ≤ place)
    (derivations : List (Derivation V)) : upTo place (d :: derivations) = d :: upTo place derivations :=
  List.filter_cons_of_pos (decide_eq_true h)

theorem upTo_cons_of_lt {place : Nat} {d : Derivation V} (h : place < d.next)
    (derivations : List (Derivation V)) : upTo place (d :: derivations) = upTo place derivations :=
  List.filter_cons_of_neg fun hNext => Nat.not_le_of_lt h (of_decide_eq_true hNext)

theorem upTo_append (place : Nat) (derivations derivations' : List (Derivation V)) :
    upTo place (derivations ++ derivations') = upTo place derivations ++ upTo place derivations' :=
  List.filter_append derivations derivations'

theorem upTo_eq_self {place : Nat} {derivations : List (Derivation V)}
    (h : ∀ d ∈ derivations, d.next ≤ place) : upTo place derivations = derivations :=
  List.filter_eq_self.mpr fun d hd => decide_eq_true (h d hd)

theorem upTo_eq_nil {place : Nat} {derivations : List (Derivation V)}
    (h : ∀ d ∈ derivations, place < d.next) : upTo place derivations = [] :=
  List.filter_eq_nil_iff.mpr fun d hd hNext => Nat.not_le_of_lt (h d hd) (of_decide_eq_true hNext)

section Collect

variable {follow follow' : Derivation V → Option (List (Item V) × Option ReductionError)}

theorem exists_ok_of_collect {items found : List (Item V)} (h : collect follow items = some (found, none)) :
    ∃ choices : List (Derivation V), items = choices.map .ok := by
  induction items generalizing found with
  | nil => exact ⟨[], rfl⟩
  | cons item rest ih =>
    cases item with
    | error e => cases h
    | ok d =>
      rcases collect_ok_cons_eq_some h with ⟨e, -, hNone⟩ | ⟨_, later, -, hRest, -⟩
      · cases hNone
      · obtain ⟨choices, rfl⟩ := ih hRest
        exact ⟨d :: choices, rfl⟩

theorem exists_follow_of_mem_collect {items found : List (Item V)} {failure : Option ReductionError}
    (h : collect follow items = some (found, failure)) {item : Item V} (hItem : item ∈ found) :
    ∃ d, .ok d ∈ items ∧ ∃ own failed, follow d = some (own, failed) ∧ item ∈ own := by
  induction items generalizing found failure with
  | nil =>
    cases h
    cases hItem
  | cons first rest ih =>
    cases first with
    | error e =>
      cases h
      cases hItem
    | ok d =>
      rcases collect_ok_cons_eq_some h with ⟨e, hFollow, -⟩ | ⟨own, later, hFollow, hRest, rfl⟩
      · exact ⟨d, List.mem_cons_self, found, some e, hFollow, hItem⟩
      · rcases List.mem_append.mp hItem with hItem | hItem
        · exact ⟨d, List.mem_cons_self, own, none, hFollow, hItem⟩
        · obtain ⟨d', hd', hOwn⟩ := ih hRest hItem
          exact ⟨d', List.mem_cons_of_mem _ hd', hOwn⟩

/-- Only choices within the reach are followed, and what follows the others ends behind `stop`. -/
theorem collect_upTo {choices derivations : List (Derivation V)} {reach stop : Nat}
    (h : collect follow (choices.map .ok) = some (derivations.map .ok, none))
    (hKept : ∀ d ∈ choices, d.next ≤ reach → ∀ own : List (Derivation V),
      follow d = some (own.map .ok, none) → follow' d = some ((upTo stop own).map .ok, none))
    (hCut : ∀ d ∈ choices, reach < d.next → ∀ own : List (Derivation V),
      follow d = some (own.map .ok, none) → ∀ d' ∈ own, stop < d'.next) :
    collect follow' ((upTo reach choices).map .ok) = some ((upTo stop derivations).map .ok, none) := by
  induction choices generalizing derivations with
  | nil =>
    obtain ⟨hEq, -⟩ := Prod.mk.inj (Option.some.inj h)
    rw [List.map_eq_nil_iff.mp hEq.symm]
    rfl
  | cons d choices ih =>
    rcases collect_ok_cons_eq_some h with ⟨e, -, hNone⟩ | ⟨_, _, hFollow, hRest, hItems⟩
    · cases hNone
    · obtain ⟨own, later, rfl, rfl, rfl⟩ := List.map_eq_append_iff.mp hItems
      have hLater := ih hRest (fun d' hd' => hKept d' (List.mem_cons_of_mem _ hd'))
        fun d' hd' => hCut d' (List.mem_cons_of_mem _ hd')
      rw [upTo_append]
      rcases Nat.lt_or_ge reach d.next with hNext | hNext
      · have hOwn := upTo_eq_nil (hCut d List.mem_cons_self hNext own hFollow)
        rw [upTo_cons_of_lt hNext, hLater, hOwn, List.nil_append]
      · have hOwn := hKept d List.mem_cons_self hNext own hFollow
        rw [upTo_cons_of_le hNext, List.map_cons]
        simp only [collect, hOwn, hLater, Option.bind_eq_bind, Option.bind_some, List.map_append]

end Collect

variable [OfToken V] {g g' : Grammar V} {tokens : List Token} {depth : Nat}

theorem Reduced.mono {symbol : Symbol} {start stop stop' : Nat} {p : Tree × Derivation V}
    (h : Reduced g tokens symbol start stop p) (hNext : p.2.next ≤ stop') :
    Reduced g tokens symbol start stop' p :=
  ⟨h.1, h.2.1, hNext⟩

theorem ReducedAll.mono {symbols : List Symbol} {start stop stop' : Nat}
    {chain : List (Tree × Derivation V)} (h : ReducedAll g tokens stop symbols start chain)
    (hStop : stop ≤ stop') : ReducedAll g tokens stop' symbols start chain := by
  induction h with
  | nil => exact .nil
  | cons hFirst _ ih => exact .cons (hFirst.mono (Nat.le_trans hFirst.2.2 hStop)) ih

theorem Grammar.exists_reduced_of_mem_items? {symbol : Symbol} {start stop : Nat}
    {hint : Option Terminal} {items : List (Item V)} {d : Derivation V}
    (h : g.items? tokens depth symbol start stop hint = some items) (hd : .ok d ∈ items) :
    ∃ tree, Reduced g tokens symbol start stop (tree, d) := by
  obtain ⟨⟨tree, hTree, hValue⟩, hStop⟩ := soundItem_of_mem_items? h hd
  exact ⟨tree, hTree, hValue, hStop⟩

omit [OfToken V] in
theorem Rule.next_of_itemOf {rule : Rule V} {reducer : Reducer V} {start : Nat}
    {chain : List (Derivation V)} {d : Derivation V} (h : rule.itemOf reducer start chain = .ok d) :
    d.next = chainEnd start chain := by
  unfold itemOf at h
  split at h
  · cases h
    rfl
  · cases h

theorem Rule.exists_reducedAll_of_mem_follow {rule : Rule V} {reducer : Reducer V} {start stop : Nat}
    {behind : List Symbol} {chosen : List (Derivation V)} {d d' : Derivation V} {own : List (Item V)}
    {failure : Option ReductionError}
    (h : rule.follow (g.items? tokens depth · · stop none) reducer start behind chosen d =
      some (own, failure)) (hd' : .ok d' ∈ own) :
    d.next ≤ d'.next ∧ ∃ rest, ReducedAll g tokens d'.next behind d.next rest := by
  induction behind generalizing chosen d own failure with
  | nil =>
    cases h
    have hNext := rule.next_of_itemOf (List.mem_singleton.mp hd').symm
    rw [List.reverse_cons, chainEnd_concat] at hNext
    exact ⟨Nat.le_of_eq hNext.symm, [], .nil⟩
  | cons symbol behind ih =>
    obtain ⟨items, hItems, hCollect⟩ := Option.bind_eq_some_iff.mp h
    obtain ⟨next, hNext, own', failed, hFollow, hOwn⟩ := exists_follow_of_mem_collect hCollect hd'
    obtain ⟨tree, hTree⟩ := Grammar.exists_reduced_of_mem_items? hItems hNext
    obtain ⟨hLe, rest, hRest⟩ := ih hFollow hOwn
    have hStart := hTree.1.start_lt_stop
    exact ⟨Nat.le_trans (Nat.le_of_lt hStart) hLe, _, .cons (hTree.mono hLe) hRest⟩

/-- At this depth the lists of `g'` over narrower ranges are those of `g`, less what ends behind the place
that `g'` searches up to. -/
def Narrows (g g' : Grammar V) (tokens : List Token) (depth : Nat) : Prop :=
  ∀ {symbol start stop stop' hint} {derivations : List (Derivation V)}, stop' ≤ stop →
    g.items? tokens depth symbol start stop hint = some (derivations.map .ok) →
    g'.items? tokens depth symbol start stop' hint =
      some ((upTo (g'.reach tokens symbol start stop' hint) derivations).map .ok)

namespace Narrows

variable {rule : Rule V} {reducer : Reducer V} {start stop stop' : Nat}

theorem follow_upTo (hNarrows : Narrows g g' tokens depth) (hStop : stop' ≤ stop) {behind : List Symbol}
    {chosen own : List (Derivation V)} {d : Derivation V} (hNext : d.next ≤ stop')
    (h : rule.follow (g.items? tokens depth · · stop none) reducer start behind chosen d =
      some (own.map .ok, none)) :
    rule.follow (g'.items? tokens depth · · stop' none) reducer start behind chosen d =
      some ((upTo stop' own).map .ok, none) := by
  induction behind generalizing chosen own d with
  | nil =>
    have hOwn : upTo stop' own = own := by
      refine upTo_eq_self fun d' hd' => ?_
      have hItem : .ok d' ∈ [rule.itemOf reducer start (d :: chosen).reverse] :=
        (Prod.mk.inj (Option.some.inj h)).1 ▸ List.mem_map_of_mem hd'
      have hEnd := rule.next_of_itemOf (List.mem_singleton.mp hItem).symm
      rw [List.reverse_cons, chainEnd_concat] at hEnd
      rwa [hEnd]
    rw [hOwn, ← h]
    rfl
  | cons symbol behind ih =>
    obtain ⟨items, hItems, hCollect⟩ := Option.bind_eq_some_iff.mp h
    obtain ⟨choices, rfl⟩ := exists_ok_of_collect hCollect
    rw [Rule.follow, hNarrows hStop hItems, g'.reach_none]
    exact collect_upTo hCollect (fun d' _ hKept own' hFollow => ih hKept hFollow)
      fun d' _ hCut own' hFollow d'' hd'' => by
        have hLe := (Rule.exists_reducedAll_of_mem_follow hFollow (List.mem_map_of_mem hd'')).1
        exact Nat.lt_of_lt_of_le hCut hLe

/-- What a narrower leading search cuts off begins no chain within the narrower range. -/
theorem lt_next_of_follow {first : Symbol} {behind : List Symbol} (hSymbols : rule.symbols = first :: behind)
    {here own : List (Item V)} {d d' : Derivation V} {failure : Option ReductionError}
    (hHere : g.items? tokens depth first start stop rule.hint = some here) (hd : .ok d ∈ here)
    (hCut : g'.reach tokens first start stop' rule.hint < d.next)
    (h : rule.follow (g.items? tokens depth · · stop none) reducer start behind [] d = some (own, failure))
    (hd' : .ok d' ∈ own) : stop' < d'.next := by
  apply Nat.lt_of_not_le
  intro hWithin
  -- Then all of the chain lies within the narrower range, and no search cuts off what begins such a chain.
  obtain ⟨tree, hTree⟩ := Grammar.exists_reduced_of_mem_items? hHere hd
  obtain ⟨hLe, rest, hRest⟩ := Rule.exists_reducedAll_of_mem_follow h hd'
  have hFirst : Reduced g tokens first start stop' (tree, d) := hTree.mono (Nat.le_trans hLe hWithin)
  exact Nat.not_le_of_lt hCut ((hRest.mono hWithin).next_le_reach g' hSymbols hFirst)

theorem rule_upTo (hNarrows : Narrows g g' tokens depth) (hStop : stop' ≤ stop)
    {derivations : List (Derivation V)} (hStart : ∀ d ∈ derivations, start < d.next)
    (h : rule.items? (g.items? tokens depth) start stop = some (derivations.map .ok)) :
    rule.items? (g'.items? tokens depth) start stop' = some ((upTo stop' derivations).map .ok) := by
  unfold Rule.items? at h ⊢
  split at h
  · rename_i reducer first behind hReducer hSymbols
    by_cases hShort : start < stop'
    · rw [if_pos (Nat.lt_of_lt_of_le hShort hStop)] at h
      obtain ⟨here, hHere, h⟩ := Option.bind_eq_some_iff.mp h
      obtain ⟨⟨items, failure⟩, hCollect, h⟩ := Option.bind_eq_some_iff.mp h
      cases failure with
      | some e =>
        have hError : (.error e : Item V) ∈ derivations.map .ok :=
          Option.some.inj h ▸ List.mem_append_right items List.mem_cons_self
        obtain ⟨d, -, hEq⟩ := List.mem_map.mp hError
        cases hEq
      | none =>
        obtain rfl : items = derivations.map .ok := (List.append_nil items).symm.trans (Option.some.inj h)
        obtain ⟨choices, rfl⟩ := exists_ok_of_collect hCollect
        have hReach := g'.reach_le_max tokens first start stop' rule.hint
        have hNarrow : collect (rule.follow (g'.items? tokens depth · · stop' none) reducer start behind [])
            ((upTo (g'.reach tokens first start stop' rule.hint) choices).map .ok) =
              some ((upTo stop' derivations).map .ok, none) := by
          refine collect_upTo hCollect (fun d _ hKept own hFollow => ?_) fun d hd hCut own hFollow d' hd' => ?_
          · exact hNarrows.follow_upTo hStop (by omega) hFollow
          · exact lt_next_of_follow hSymbols hHere (List.mem_map_of_mem hd) hCut hFollow
              (List.mem_map_of_mem hd')
        rw [if_pos hShort, hNarrows hStop hHere]
        simp only [Option.bind_eq_bind, Option.bind_some, hNarrow, closing, List.append_nil]
    · rw [if_neg hShort, upTo_eq_nil fun d hd => Nat.lt_of_le_of_lt (Nat.le_of_not_lt hShort) (hStart d hd)]
      rfl
  · rw [List.map_eq_nil_iff.mp (Option.some.inj h).symm]
    rfl

omit [OfToken V] in
theorem mapM_upTo {wide narrow : Rule V → Option (List (Item V))} {rules : List (Rule V)}
    {derivations : List (Derivation V)} {lists : List (List (Item V))}
    (hRules : ∀ rule ∈ rules, ∀ own ⊆ derivations,
      wide rule = some (own.map .ok) → narrow rule = some ((upTo stop' own).map .ok))
    (h : rules.mapM wide = some lists) (hLists : lists.flatten = derivations.map .ok) :
    ∃ lists', rules.mapM narrow = some lists' ∧
      lists'.flatten = (upTo stop' derivations).map .ok := by
  induction rules generalizing derivations lists with
  | nil =>
    cases h
    rw [List.map_eq_nil_iff.mp hLists.symm]
    exact ⟨[], rfl, rfl⟩
  | cons rule rules ih =>
    rw [List.mapM_cons] at h
    obtain ⟨list, hList, h⟩ := Option.bind_eq_some_iff.mp h
    obtain ⟨rest, hRest, h⟩ := Option.bind_eq_some_iff.mp h
    cases h
    obtain ⟨own, later, rfl, rfl, hLater⟩ := List.map_eq_append_iff.mp hLists.symm
    obtain ⟨rest', hRest', hFlatten⟩ := ih (fun rule' hRule own' hOwn =>
      hRules rule' (List.mem_cons_of_mem _ hRule) own' (List.subset_append_of_subset_right own hOwn))
      hRest hLater.symm
    have hOwn := hRules rule List.mem_cons_self own (List.subset_append_left own later) hList
    refine ⟨(upTo stop' own).map .ok :: rest', ?_, ?_⟩
    · simp only [List.mapM_cons, hOwn, hRest', Option.bind_eq_bind, Option.bind_some, Option.pure_def]
    · rw [List.flatten_cons, hFlatten, upTo_append, List.map_append]

theorem nonTerminal_upTo (hNarrows : Narrows g g' tokens depth) {index : Nat} {nt nt' : NonTerminal V}
    (hNt : g.get? index = some nt) (hNt' : g'.get? index = some nt') (hRules : nt'.rules = nt.rules)
    (hSequential : nt.alternation = .sequential) (hSequential' : nt'.alternation = .sequential)
    (hPruning : nt.hintPruning = true → nt'.hintPruning = true) {hint : Option Terminal}
    (hStop : stop' ≤ stop) {derivations : List (Derivation V)}
    (h : g.items? tokens (depth + 1) (.nonTerminal index) start stop hint = some (derivations.map .ok)) :
    g'.items? tokens (depth + 1) (.nonTerminal index) start stop' hint =
      some ((upTo (nt'.bound tokens start stop' hint) derivations).map .ok) := by
  have hStart : ∀ d ∈ derivations, start < d.next := by
    intro d hd
    exact (Grammar.next_of_mem_items? h (List.mem_map_of_mem hd)).1
  simp only [Grammar.items?, hNt, hNt', Option.bind_eq_bind, Option.bind_some] at h ⊢
  by_cases hShort : start < stop'
  · rw [if_pos (Nat.lt_of_lt_of_le hShort hStop)] at h
    obtain ⟨lists, hLists, h⟩ := Option.bind_eq_some_iff.mp h
    rw [hSequential] at h
    have hBound := NonTerminal.bound_mono hPruning tokens hShort hStop hint
    obtain ⟨lists', hLists', hFlatten⟩ := mapM_upTo (fun rule _ own hOwn hRule =>
      hNarrows.rule_upTo hBound (fun d hd => hStart d (hOwn hd)) hRule) hLists (Option.some.inj h)
    rw [if_pos hShort, hRules, hLists', hSequential', ← hFlatten]
    rfl
  · -- The narrower range is empty, and every derivation takes a token.
    have hBound := nt'.bound_le_max tokens start stop' hint
    have hNone : upTo (nt'.bound tokens start stop' hint) derivations = [] := by
      apply upTo_eq_nil
      intro d hd
      have hNext := hStart d hd
      omega
    rw [if_neg hShort, hNone]
    rfl

end Narrows

theorem Terminal.items_upTo {t : Terminal} {start stop stop' : Nat} (hStop : stop' ≤ stop)
    {derivations : List (Derivation V)} (h : t.items tokens start stop = derivations.map .ok) :
    t.items tokens start stop' = (upTo stop' derivations).map .ok := by
  unfold Terminal.items at h ⊢
  cases hToken : tokens[start]? with
  | none =>
    simp only [hToken] at h
    rw [List.map_eq_nil_iff.mp h.symm]
    rfl
  | some token =>
    simp only [hToken, Bool.and_eq_true, decide_eq_true_eq] at h ⊢
    by_cases hShort : start < stop' ∧ token.isOf t = true
    · rw [if_pos ⟨Nat.lt_of_lt_of_le hShort.1 hStop, hShort.2⟩] at h
      rw [if_pos hShort, upTo_eq_self fun d hd => ?_, ← h]
      have hItem := List.mem_singleton.mp (h ▸ List.mem_map_of_mem hd)
      cases hItem
      exact hShort.1
    · rw [if_neg hShort, upTo_eq_nil fun d hd => ?_]
      · rfl
      · split at h
        · rename_i hLong
          have hItem := List.mem_singleton.mp (h ▸ List.mem_map_of_mem hd)
          cases hItem
          exact Nat.lt_succ_of_le (Nat.le_of_not_lt fun hStart => hShort ⟨hStart, hLong.2⟩)
        · rw [List.map_eq_nil_iff.mp h.symm] at hd
          cases hd

theorem narrows_withPruning (hSequential : ∀ nt ∈ g.nonTerminals, nt.alternation = .sequential)
    {flags : Nat → Bool}
    (hFlags : ∀ index nt, g.get? index = some nt → nt.hintPruning = true → flags index = true)
    (depth : Nat) : Narrows g (g.withPruning flags) tokens depth := by
  induction depth with
  | zero =>
    intro symbol start stop stop' hint derivations _ h
    cases h
  | succ depth ih =>
    intro symbol start stop stop' hint derivations hStop h
    cases symbol with
    | terminal t => exact congrArg some (Terminal.items_upTo hStop (Option.some.inj h))
    | nonTerminal index =>
      obtain ⟨nt, hNt, -⟩ := Option.bind_eq_some_iff.mp h
      have hNt' : (g.withPruning flags).get? index = some { nt with hintPruning := flags index } := by
        rw [Grammar.get?_withPruning, hNt]
        rfl
      have hOrder := hSequential nt (List.mem_of_getElem? hNt)
      rw [ih.nonTerminal_upTo hNt hNt' rfl hOrder hOrder (hFlags index nt hNt) hStop h]
      simp only [Grammar.reach, hNt']

theorem Stream.Enumerates.exists_withPruning
    (hSequential : ∀ nt ∈ g.nonTerminals, nt.alternation = .sequential) {flags : Nat → Bool}
    (hFlags : ∀ index nt, g.get? index = some nt → nt.hintPruning = true → flags index = true)
    {symbol : Symbol} {start stop : Nat} {source : Stream V} {derivations : List (Derivation V)}
    (hSource : g.stream tokens symbol start stop none = .ok source)
    (h : source.Enumerates g tokens (derivations.map .ok)) :
    ∃ source', (g.withPruning flags).stream tokens symbol start stop none = .ok source' ∧
      source'.Enumerates (g.withPruning flags) tokens (derivations.map .ok) := by
  obtain ⟨depth, hItems⟩ := h.exists_items? hSource
  have hNarrow := narrows_withPruning hSequential hFlags depth (Nat.le_refl stop) hItems
  -- Without a hint the range stays the same, so nothing drops out.
  have hWhole : upTo stop derivations = derivations := by
    apply upTo_eq_self
    intro d hd
    exact (Grammar.next_of_mem_items? hItems (List.mem_map_of_mem hd)).2
  rw [Grammar.reach_none, hWhole] at hNarrow
  exact (g.withPruning flags).lists_items? depth hNarrow

omit [OfToken V] in
theorem Parser.outcome_congr {p q : Parser V} (h : p.config = q.config) (size attempts : Nat)
    (items : List (Item V)) : p.outcome size attempts items = q.outcome size attempts items := by
  induction items generalizing attempts with
  | nil => rfl
  | cons item items ih =>
    have hDecide : p.decide? size (attempts + 1) (some item) = q.decide? size (attempts + 1) (some item) := by
      unfold decide?
      rw [h]
    rw [outcome, outcome, hDecide, ih]

/-- When the rules of every non-terminal are merged one after another, more pruning is not to be seen: what
a stream enumerates without an error it enumerates in the same order when hints bound the search for more
non-terminals, and a parse returns the same answer, whatever its limit. -/
theorem pruning_invisible (hSequential : ∀ nt ∈ g.nonTerminals, nt.alternation = .sequential)
    {flags : Nat → Bool}
    (hFlags : ∀ index nt, g.get? index = some nt → nt.hintPruning = true → flags index = true)
    (tokens : List Token) :
    (∀ symbol start stop source (derivations : List (Derivation V)),
      g.stream tokens symbol start stop none = .ok source →
      source.Enumerates g tokens (derivations.map .ok) →
      ∃ source', (g.withPruning flags).stream tokens symbol start stop none = .ok source' ∧
        source'.Enumerates (g.withPruning flags) tokens (derivations.map .ok)) ∧
    ∀ source (derivations : List (Derivation V)),
      g.stream tokens g.start 0 tokens.length none = .ok source →
      source.Enumerates g tokens (derivations.map .ok) → ∀ config, ∃ answer,
        (Parser.mk g config).Returns tokens answer ∧
        (Parser.mk (g.withPruning flags) config).Returns tokens answer := by
  refine ⟨fun symbol start stop source derivations hSource hItems =>
    hItems.exists_withPruning hSequential hFlags hSource, fun source derivations hSource hItems config => ?_⟩
  obtain ⟨source', hSource', hItems'⟩ := hItems.exists_withPruning hSequential hFlags hSource
  have hReturns := Parser.returns_outcome (p := ⟨g.withPruning flags, config⟩) hSource' hItems'
  rw [Parser.outcome_congr (p := ⟨g.withPruning flags, config⟩) (q := ⟨g, config⟩) rfl] at hReturns
  exact ⟨_, Parser.returns_outcome (p := ⟨g, config⟩) hSource hItems, hReturns⟩

namespace Routes

def step : Terminal :=
  ⟨0, "step", ⟨"x", .char 'x', none⟩⟩

def stop : Terminal :=
  ⟨1, "stop", ⟨"t", .char 't', none⟩⟩

def first : Reducer String where
  apply values := .ok (values.headD "")

def named (text : String) : Reducer String where
  apply _ := .ok text

/-- A route is a leg and a stop. A leg is a path or a step, and a path a step with or without a stop. -/
def grammar (alternation : Alternation) : Grammar String where
  nonTerminals := [
    { name := "route"
      rules := [⟨[.nonTerminal 1, .terminal stop], some first, "route", "leg stop"⟩]
      hintPruning := false
      alternation },
    { name := "leg"
      rules := [
        ⟨[.nonTerminal 2], some first, "leg", "path"⟩,
        ⟨[.terminal step], some (named "direct"), "leg", "step"⟩]
      hintPruning := false
      alternation },
    { name := "path"
      rules := [
        ⟨[.terminal step, .terminal stop], some (named "long"), "path", "step stop"⟩,
        ⟨[.terminal step], some (named "via"), "path", "step"⟩]
      hintPruning := false
      alternation }]
  start := .nonTerminal 0

abbrev pruned (alternation : Alternation) : Grammar String :=
  (grammar alternation).withPruning fun _ => true

def input : List Token :=
  [⟨step, "x", 0, 1, 1, 1⟩, ⟨stop, "t", 2, 3, 1, 3⟩]

theorem alternation_eq (alternation : Alternation) :
    ∀ nt ∈ (grammar alternation).nonTerminals, nt.alternation = alternation := by
  simp [grammar]

theorem enumerates_sequential : ∃ source,
    (grammar .sequential).stream input (.nonTerminal 0) 0 2 none = .ok source ∧
    source.Enumerates (grammar .sequential) input [.ok ⟨"via", 2⟩, .ok ⟨"direct", 2⟩] :=
  ⟨_, rfl, .item ⟨20, #[], _, rfl⟩ (.item ⟨20, #[], _, rfl⟩ (.ends ⟨20, #[], _, rfl⟩ ⟨20, #[], _, rfl⟩))⟩

end Routes

open Routes in
theorem pruning_invisible_routes :
    (∀ nt ∈ (grammar .sequential).nonTerminals, nt.alternation = .sequential) ∧
    (∃ source, (pruned .sequential).stream input (.nonTerminal 0) 0 2 none = .ok source ∧
      source.Enumerates (pruned .sequential) input [.ok ⟨"via", 2⟩, .ok ⟨"direct", 2⟩]) ∧
    ∃ answer, (Parser.mk (grammar .sequential) ⟨some 1⟩).Returns input answer ∧
      (Parser.mk (pruned .sequential) ⟨some 1⟩).Returns input answer := by
  have hSequential := alternation_eq .sequential
  have hFlags : ∀ index nt, (grammar .sequential).get? index = some nt → nt.hintPruning = true →
      (fun _ => true : Nat → Bool) index = true := fun _ _ _ _ => rfl
  obtain ⟨source, hSource, hItems⟩ := enumerates_sequential
  obtain ⟨hStreams, hParses⟩ := pruning_invisible hSequential hFlags input
  exact ⟨hSequential, hStreams _ 0 2 source [⟨"via", 2⟩, ⟨"direct", 2⟩] hSource hItems,
    hParses source [⟨"via", 2⟩, ⟨"direct", 2⟩] hSource hItems ⟨some 1⟩⟩

end Lexigram
