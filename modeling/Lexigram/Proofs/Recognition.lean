import Lexigram.Proofs.Draining
import Lexigram.Proofs.Relabelling

/-! # The language that is recognised

When no reducer rejects its arguments, a parse without a limit succeeds exactly when a tree covers the
tokens, and otherwise it counts the trees of all beginnings of the input. So neither the order of the rules
nor how they are merged and bounded has a part in what is accepted, as long as the enumeration ends.
-/

namespace Lexigram

variable {V : Type} [OfToken V] {g g' : Grammar V} {tokens : List Token}

theorem Grammar.Total.not_rejected (hTotal : g.Total) {start stop : Nat} {e : ReductionError} :
    ¬ Rejected g tokens start stop e := by
  rintro ⟨nt, hNt, rule, hRule, reducer, begins, chain, hReducer, -, -, hCause, -⟩
  obtain ⟨reducer', hReducer', apply, hApply⟩ := hTotal nt hNt rule hRule
  rw [hReducer] at hReducer'
  cases hReducer'
  rw [hApply] at hCause
  cases hCause

theorem Stream.Enumerates.exists_exhausts (hTotal : g.Total) {symbol : Symbol} {start stop : Nat}
    {source : Stream V} {items : List (Item V)}
    (hSource : g.stream tokens symbol start stop none = .ok source)
    (h : source.Enumerates g tokens items) :
    ∃ listed, Exhausts (Reduced g tokens symbol start stop) listed ∧
      items = (listed.map Prod.snd).map .ok := by
  obtain ⟨left, hReaches⟩ := h.reaches
  have hSound := (hReaches.explores (explores_stream hSource)).1
  have hRange : items ∈ Set.range (List.map (.ok : Derivation V → Item V)) := by
    rw [Set.range_list_map]
    intro item hItem
    cases item with
    | ok d => exact ⟨d, rfl⟩
    | error e => exact absurd (hSound _ (List.mem_map_of_mem hItem)) hTotal.not_rejected
  obtain ⟨derivations, rfl⟩ := hRange
  obtain ⟨depth, hItems⟩ := h.exists_items? hSource
  obtain ⟨listed, hListed, hEq⟩ := ListsTrees.unhinted (listsTrees_items? hTotal depth) hItems
  exact ⟨listed, hListed, by rw [hEq, List.map_map]; rfl⟩

theorem Exhausts.exists_trees (hTotal : g.Total) {symbol : Symbol} {start stop : Nat}
    {listed : List (Tree × Derivation V)} (h : Exhausts (Reduced g tokens symbol start stop) listed) :
    ∃ trees : Finset Tree,
      (∀ tree, tree ∈ trees ↔ ∃ next ≤ stop, tree.Derives g tokens symbol start next) ∧
      trees.card = listed.length := by
  have hNodup : (listed.map Prod.fst).Nodup := by
    refine h.nodup.map_on fun p hp q hq hEq => ?_
    exact ((h.mem_iff p).mp hp).eq_of_tree ((h.mem_iff q).mp hq) hEq
  refine ⟨⟨listed.map Prod.fst, Multiset.coe_nodup.mpr hNodup⟩, fun tree => ?_, List.length_map _⟩
  rw [Finset.mem_mk, Multiset.mem_coe, List.mem_map]
  constructor
  · rintro ⟨p, hp, rfl⟩
    obtain ⟨hTree, -, hStop⟩ := (h.mem_iff p).mp hp
    exact ⟨p.2.next, hStop, hTree⟩
  · rintro ⟨next, hStop, hTree⟩
    obtain ⟨value, hValue⟩ := hTree.exists_value hTotal
    exact ⟨(tree, ⟨value, next⟩), (h.mem_iff _).mpr ⟨hTree, hValue, hStop⟩, rfl⟩

namespace Parser

/-- The answer of a parse without a limit, told from the derivations of its stream in any order. -/
structure Judges (p : Parser V) (tokens : List Token) (derivations : List (Derivation V)) : Prop where
  complete : (∃ d ∈ derivations, d.next = tokens.length) → ∃ parsed, p.Returns tokens (.ok parsed)
  incomplete : (∀ d ∈ derivations, d.next ≠ tokens.length) →
    p.Returns tokens (.error (.noDerivation derivations.length))
  value : ∀ {parsed}, p.Returns tokens (.ok parsed) →
    ∃ d ∈ derivations, d.next = tokens.length ∧ d.value = parsed.value

omit [OfToken V] in
theorem outcome_of_unlimited {p : Parser V} (hLimit : p.config.maxAttempts = none) (size attempts : Nat)
    (derivations : List (Derivation V)) :
    (∃ d ∈ derivations, d.next = size ∧
      ∃ total, p.outcome size attempts (derivations.map .ok) = .ok ⟨d.value, total⟩) ∨
    ((∀ d ∈ derivations, d.next ≠ size) ∧ p.outcome size attempts (derivations.map .ok) =
      .error (.noDerivation (attempts + derivations.length))) := by
  induction derivations generalizing attempts with
  | nil => exact .inr ⟨fun d hd => absurd hd List.not_mem_nil, rfl⟩
  | cons d derivations ih =>
    rw [List.map_cons, outcome]
    by_cases hNext : d.next = size
    · refine .inl ⟨d, List.mem_cons_self, hNext, attempts + 1, ?_⟩
      simp only [decide?, hNext, if_true, Option.getD_some]
    · have hDecide : p.decide? size (attempts + 1) (some (.ok d)) = none := by
        simp [decide?, hNext, hLimit]
      rw [hDecide, Option.getD_none]
      rcases ih (attempts + 1) with ⟨d', hd', hComplete⟩ | ⟨hIncomplete, hOutcome⟩
      · exact .inl ⟨d', List.mem_cons_of_mem _ hd', hComplete⟩
      · refine .inr ⟨List.forall_mem_cons.mpr ⟨hNext, hIncomplete⟩, ?_⟩
        rw [hOutcome, List.length_cons, Nat.add_assoc, Nat.add_comm 1]

theorem judges_of_enumerates {p : Parser V} (hLimit : p.config.maxAttempts = none) {source : Stream V}
    {derivations : List (Derivation V)} (hSource : p.stream tokens = .ok source)
    (h : source.Enumerates p.grammar tokens (derivations.map .ok)) : p.Judges tokens derivations := by
  have hReturns := returns_outcome hSource h
  rcases outcome_of_unlimited hLimit tokens.length 0 derivations with
    ⟨d, hd, hNext, total, hOutcome⟩ | ⟨hIncomplete, hOutcome⟩
  · rw [hOutcome] at hReturns
    refine ⟨fun _ => ⟨_, hReturns⟩, fun hIncomplete => absurd hNext (hIncomplete d hd), fun hParsed => ?_⟩
    cases hReturns.unique hParsed
    exact ⟨d, hd, hNext, rfl⟩
  · rw [hOutcome, Nat.zero_add] at hReturns
    refine ⟨fun ⟨d, hd, hNext⟩ => absurd hNext (hIncomplete d hd), fun _ => hReturns, fun hParsed => ?_⟩
    cases hReturns.unique hParsed

namespace Judges

variable {p q : Parser V} {derivations derivations' : List (Derivation V)}

theorem perm (h : p.Judges tokens derivations) (hPerm : derivations.Perm derivations') :
    p.Judges tokens derivations' where
  complete := fun ⟨d, hd, hNext⟩ => h.complete ⟨d, hPerm.mem_iff.mpr hd, hNext⟩
  incomplete := fun hIncomplete =>
    hPerm.length_eq ▸ h.incomplete fun d hd => hIncomplete d (hPerm.mem_iff.mp hd)
  value := fun hParsed => by
    obtain ⟨d, hd, hNext⟩ := h.value hParsed
    exact ⟨d, hPerm.mem_iff.mp hd, hNext⟩

theorem returns_ok_iff (h : p.Judges tokens derivations) :
    (∃ parsed, p.Returns tokens (.ok parsed)) ↔ ∃ d ∈ derivations, d.next = tokens.length := by
  refine ⟨fun ⟨parsed, hParsed⟩ => ?_, h.complete⟩
  obtain ⟨d, hd, hNext, -⟩ := h.value hParsed
  exact ⟨d, hd, hNext⟩

theorem returns_noDerivation_iff (h : p.Judges tokens derivations) {attempts : Nat} :
    p.Returns tokens (.error (.noDerivation attempts)) ↔
      (∀ d ∈ derivations, d.next ≠ tokens.length) ∧ attempts = derivations.length := by
  constructor
  · intro hReturns
    have hIncomplete : ∀ d ∈ derivations, d.next ≠ tokens.length := by
      intro d hd hNext
      obtain ⟨parsed, hParsed⟩ := h.complete ⟨d, hd, hNext⟩
      cases hParsed.unique hReturns
    refine ⟨hIncomplete, ?_⟩
    cases hReturns.unique (h.incomplete hIncomplete)
    rfl
  · rintro ⟨hIncomplete, rfl⟩
    exact h.incomplete hIncomplete

theorem returns_value (h : p.Judges tokens derivations) (h' : q.Judges tokens derivations)
    (hValue : ∀ d ∈ derivations, ∀ d' ∈ derivations, d.next = tokens.length → d'.next = tokens.length →
      d.value = d'.value) {value : V} (hReturns : ∃ attempts, p.Returns tokens (.ok ⟨value, attempts⟩)) :
    ∃ attempts, q.Returns tokens (.ok ⟨value, attempts⟩) := by
  obtain ⟨attempts, hReturns⟩ := hReturns
  obtain ⟨d, hd, hNext, rfl⟩ := h.value hReturns
  obtain ⟨⟨value, attempts'⟩, hParsed⟩ := h'.complete ⟨d, hd, hNext⟩
  obtain ⟨d', hd', hNext', rfl⟩ := h'.value hParsed
  exact ⟨attempts', hValue d hd d' hd' hNext hNext' ▸ hParsed⟩

end Judges

end Parser

section Trees

variable {symbol : Symbol} {start stop : Nat} {listed : List (Tree × Derivation V)}

theorem Exhausts.exists_complete_iff (hTotal : g.Total)
    (h : Exhausts (Reduced g tokens symbol start stop) listed) :
    (∃ d ∈ listed.map Prod.snd, d.next = stop) ↔ ∃ tree : Tree, tree.Derives g tokens symbol start stop := by
  constructor
  · rintro ⟨d, hd, rfl⟩
    obtain ⟨p, hp, rfl⟩ := List.mem_map.mp hd
    exact ⟨p.1, ((h.mem_iff p).mp hp).1⟩
  · rintro ⟨tree, hTree⟩
    obtain ⟨value, hValue⟩ := hTree.exists_value hTotal
    have hMem := (h.mem_iff (tree, ⟨value, stop⟩)).mpr ⟨hTree, hValue, Nat.le_refl stop⟩
    exact ⟨_, List.mem_map_of_mem hMem, rfl⟩

theorem Exhausts.value_eq (h : Exhausts (Reduced g tokens symbol start stop) listed)
    (hTrees : ∀ tree tree' : Tree, tree.Derives g tokens symbol start stop →
      tree'.Derives g tokens symbol start stop → tree.value? g tokens = tree'.value? g tokens) :
    ∀ d ∈ listed.map Prod.snd, ∀ d' ∈ listed.map Prod.snd, d.next = stop → d'.next = stop →
      d.value = d'.value := by
  intro d hd d' hd' hNext hNext'
  obtain ⟨p, hp, rfl⟩ := List.mem_map.mp hd
  obtain ⟨p', hp', rfl⟩ := List.mem_map.mp hd'
  obtain ⟨hTree, hValue, -⟩ := (h.mem_iff p).mp hp
  obtain ⟨hTree', hValue', -⟩ := (h.mem_iff p').mp hp'
  have hEq := hTrees _ _ (hNext ▸ hTree) (hNext' ▸ hTree')
  rw [hValue, hValue'] at hEq
  exact Option.some.inj hEq

end Trees

theorem Grammar.Retunes.judges (h : g.Retunes g') (hTotal : g.Total) {source source' : Stream V}
    {items items' : List (Item V)}
    (hSource : g.stream tokens g.start 0 tokens.length none = .ok source)
    (hSource' : g'.stream tokens g.start 0 tokens.length none = .ok source')
    (hItems : source.Enumerates g tokens items) (hItems' : source'.Enumerates g' tokens items') :
    ∃ listed, Exhausts (Reduced g tokens g.start 0 tokens.length) listed ∧
      (Parser.mk g {}).Judges tokens (listed.map Prod.snd) ∧
      (Parser.mk g' {}).Judges tokens (listed.map Prod.snd) := by
  obtain ⟨listed, hListed, rfl⟩ := hItems.exists_exhausts hTotal hSource
  obtain ⟨listed', hListed', rfl⟩ := hItems'.exists_exhausts (h.total hTotal) hSource'
  obtain ⟨σ, hσ⟩ := h.exists_relabels
  have hJudges : (Parser.mk g' {}).Judges tokens (listed'.map Prod.snd) :=
    Parser.judges_of_enumerates rfl (by rw [Parser.stream, h.start, hSource']) hItems'
  exact ⟨listed, hListed, Parser.judges_of_enumerates rfl hSource hItems,
    hJudges.perm (hσ.perm hListed hListed').symm⟩

/-- In a closed and grounded grammar whose reducers accept everything, a parse succeeds exactly when some
tree covers the tokens, and otherwise reports the number of trees over all beginnings of the input. Another
order of rules, another way to merge them and other bounds, as long as the grammar stays grounded, change
neither success nor the number reported, nor the value when only one tree covers the tokens. -/
theorem parse_recognises {builder : GrammarBuilder V} (hBuilt : builder.build = .ok g)
    (hClosed : g.Closed) (hGrounded : g.Grounded) (hAccepting : g.Accepting) (tokens : List Token) :
    ((∃ parsed, (Parser.mk g {}).Returns tokens (.ok parsed)) ↔
      ∃ tree : Tree, tree.Derives g tokens g.start 0 tokens.length) ∧
    (∃ trees : Finset Tree,
      (∀ tree, tree ∈ trees ↔ ∃ next ≤ tokens.length, tree.Derives g tokens g.start 0 next) ∧
      ((¬ ∃ tree : Tree, tree.Derives g tokens g.start 0 tokens.length) →
        (Parser.mk g {}).Returns tokens (.error (.noDerivation trees.card)))) ∧
    ∀ g', g.Retunes g' → g'.Grounded →
      ((∃ parsed, (Parser.mk g {}).Returns tokens (.ok parsed)) ↔
        ∃ parsed, (Parser.mk g' {}).Returns tokens (.ok parsed)) ∧
      (∀ attempts, (Parser.mk g {}).Returns tokens (.error (.noDerivation attempts)) ↔
        (Parser.mk g' {}).Returns tokens (.error (.noDerivation attempts))) ∧
      ((∃! tree : Tree, tree.Derives g tokens g.start 0 tokens.length) → ∀ value,
        (∃ attempts, (Parser.mk g {}).Returns tokens (.ok ⟨value, attempts⟩)) ↔
          ∃ attempts, (Parser.mk g' {}).Returns tokens (.ok ⟨value, attempts⟩)) := by
  have hTotal := hAccepting.total hBuilt
  obtain ⟨-, items, source, -, hSource, hItems⟩ :=
    exists_enumerates hClosed hGrounded tokens (hClosed g.start List.mem_cons_self) 0 tokens.length
  obtain ⟨listed, hListed, rfl⟩ := hItems.exists_exhausts hTotal hSource
  have hJudges : (Parser.mk g {}).Judges tokens (listed.map Prod.snd) :=
    Parser.judges_of_enumerates rfl hSource hItems
  have hComplete := hListed.exists_complete_iff hTotal
  refine ⟨hJudges.returns_ok_iff.trans hComplete, ?_, fun g' hRetunes hGrounded' => ?_⟩
  · obtain ⟨trees, hTrees, hCard⟩ := hListed.exists_trees hTotal
    refine ⟨trees, hTrees, fun hNone => hJudges.returns_noDerivation_iff.mpr ⟨fun d hd hNext => ?_, ?_⟩⟩
    · exact hNone (hComplete.mp ⟨d, hd, hNext⟩)
    · rw [hCard, List.length_map]
  · have hClosed' := hRetunes.closed hClosed
    obtain ⟨-, items', source', -, hSource', hItems'⟩ := exists_enumerates hClosed' hGrounded' tokens
      (hClosed' g'.start List.mem_cons_self) 0 tokens.length
    rw [hRetunes.start] at hSource'
    obtain ⟨listed, hListed, hJudges, hJudges'⟩ :=
      hRetunes.judges hTotal hSource hSource' hItems hItems'
    refine ⟨hJudges.returns_ok_iff.trans hJudges'.returns_ok_iff.symm, fun attempts =>
      hJudges.returns_noDerivation_iff.trans hJudges'.returns_noDerivation_iff.symm, ?_⟩
    rintro ⟨whole, -, hWhole⟩ value
    have hValue := hListed.value_eq fun tree tree' hTree hTree' => by
      rw [hWhole tree hTree, hWhole tree' hTree']
    exact ⟨hJudges.returns_value hJudges' hValue, hJudges'.returns_value hJudges hValue⟩

namespace Sums

variable {reducer : Reducer String} {tokens : List Token} {start stop : Nat} {tree tree' : Tree}

def reordered (reducer : Reducer String) : Grammar String where
  nonTerminals := [{
    name := "sum"
    rules := [
      ⟨[.nonTerminal 0, .terminal plus, .terminal number], reducer, "sum", "sum plus number"⟩,
      ⟨[.terminal number], reducer, "sum", "number"⟩]
    hintPruning := true
    alternation := .sequential }]
  start := .nonTerminal 0

theorem retunes_reordered (reducer : Reducer String) : (grammar reducer).Retunes (reordered reducer) :=
  ⟨rfl, .cons (.swap _ _ []) .nil⟩

theorem leadsUnguarded_of_reordered {a b : Nat} (h : (reordered reducer).LeadsUnguarded a b) :
    (grammar reducer).LeadsUnguarded a b := by
  obtain ⟨nt, hNt, rule, hRule, hHead, hUnguarded⟩ := h
  obtain ⟨ha, rfl⟩ := List.getElem?_eq_some_iff.mp hNt
  have hZero : a = 0 := Nat.lt_one_iff.mp ha
  subst hZero
  refine ⟨_, rfl, rule, List.mem_pair.mpr (List.mem_pair.mp hRule).symm, hHead, ?_⟩
  rintro ⟨hTerminal, led, hLed, hPruning⟩
  obtain ⟨hb, rfl⟩ := List.getElem?_eq_some_iff.mp hLed
  have hZero : b = 0 := Nat.lt_one_iff.mp hb
  subst hZero
  exact hUnguarded ⟨hTerminal, _, rfl, rfl⟩

theorem grounded_reordered (reducer : Reducer String) : (reordered reducer).Grounded :=
  fun a hCycle => grounded reducer a (hCycle.lift id fun _ _ => leadsUnguarded_of_reordered)

theorem derives_cases (h : tree.Derives (grammar reducer) tokens (.nonTerminal 0) start stop) :
    (stop = start + 1 ∧ tree = .node 0 0 [.leaf start]) ∨
    ∃ mid first, first.Derives (grammar reducer) tokens (.nonTerminal 0) start mid ∧
      stop = mid + 2 ∧ tree = .node 0 1 [first, .leaf mid, .leaf (mid + 1)] := by
  cases h with
  | @node _ _ _ place nt rule children hNt hRule _ hChildren =>
    cases hNt
    rcases place with _ | _ | place
    · cases hRule
      rcases hChildren with _ | ⟨_ | _, _ | _⟩
      exact .inl ⟨rfl, rfl⟩
    · cases hRule
      rcases hChildren with _ | ⟨hFirst, _ | ⟨_ | _, _ | ⟨_ | _, _ | _⟩⟩⟩
      exact .inr ⟨_, _, hFirst, rfl, rfl⟩
    · cases hRule

theorem derives_unique (h : tree.Derives (grammar reducer) tokens (.nonTerminal 0) start stop)
    (h' : tree'.Derives (grammar reducer) tokens (.nonTerminal 0) start stop) : tree = tree' := by
  induction stop using Nat.strong_induction_on generalizing tree tree' with
  | _ stop ih =>
    rcases derives_cases h with ⟨hStop, rfl⟩ | ⟨mid, first, hFirst, hStop, rfl⟩ <;>
      rcases derives_cases h' with ⟨hStop', rfl⟩ | ⟨mid', first', hFirst', hStop', rfl⟩
    · rfl
    · have := hFirst'.start_lt_stop
      omega
    · have := hFirst.start_lt_stop
      omega
    · have hMid : mid' = mid := by omega
      subst hMid
      rw [ih mid' (by omega) hFirst hFirst']

end Sums

open Sums in
theorem parse_recognises_sums :
    builder.build = .ok (grammar joined) ∧ (grammar joined).Closed ∧ (grammar joined).Grounded ∧
    (grammar joined).Accepting ∧ (grammar joined).Retunes (reordered joined) ∧
    (reordered joined).Grounded ∧ (∃! tree : Tree, tree.Derives (grammar joined) input (.nonTerminal 0) 0 3) ∧
    (¬ ∃ tree : Tree, tree.Derives (grammar joined) (input.take 2) (.nonTerminal 0) 0 2) ∧
    (∃ attempts, (Parser.mk (reordered joined) {}).Returns input (.ok ⟨"1p2", attempts⟩)) ∧
    ∃ attempts, (Parser.mk (reordered joined) {}).Returns (input.take 2) (.error (.noDerivation attempts)) := by
  have hBuilt : builder.build = .ok (grammar joined) := rfl
  have hWhole : ∃! tree : Tree, tree.Derives (grammar joined) input (.nonTerminal 0) 0 3 :=
    ⟨whole, whole_derives, fun tree hTree => derives_unique hTree whole_derives⟩
  have hNone : ¬ ∃ tree : Tree, tree.Derives (grammar joined) (input.take 2) (.nonTerminal 0) 0 2 := by
    rintro ⟨tree, hTree⟩
    rcases derives_cases hTree with ⟨hStop, -⟩ | ⟨mid, first, hFirst, hStop, -⟩
    · cases hStop
    · have := hFirst.start_lt_stop
      omega
  refine ⟨hBuilt, closed _, grounded _, accepting, retunes_reordered _, grounded_reordered _, hWhole, hNone, ?_, ?_⟩
  · obtain ⟨-, -, hTuned⟩ := parse_recognises hBuilt (closed _) (grounded _) accepting input
    obtain ⟨-, -, hValue⟩ := hTuned _ (retunes_reordered _) (grounded_reordered _)
    obtain ⟨source, mid, left, hSource, hFirst, hSecond⟩ : ∃ source mid left,
        (grammar joined).stream input (.nonTerminal 0) 0 3 none = .ok source ∧
        source.Gives (grammar joined) input (some (.ok ⟨"1", 1⟩)) mid ∧
        mid.Gives (grammar joined) input (some (.ok ⟨"1p2", 3⟩)) left :=
      ⟨_, _, _, rfl, ⟨9, #[], _, rfl⟩, ⟨9, #[], _, rfl⟩⟩
    obtain ⟨calls, hFirst⟩ := Stream.gives_iff_exists_pulls.mp hFirst
    obtain ⟨calls', hSecond⟩ := Stream.gives_iff_exists_pulls.mp hSecond
    have hSearches : (Parser.mk (grammar joined) {}).Searches input 0 source _ (.ok ⟨"1p2", 2⟩) _ :=
      .undecided hFirst rfl (.decided hSecond rfl)
    exact (hValue hWhole _).mp ⟨2, (hSearches.concludes hSource).returns⟩
  · obtain ⟨-, ⟨trees, -, hFails⟩, hTuned⟩ :=
      parse_recognises hBuilt (closed _) (grounded _) accepting (input.take 2)
    obtain ⟨-, hCount, -⟩ := hTuned _ (retunes_reordered _) (grounded_reordered _)
    exact ⟨trees.card, (hCount _).mp (hFails hNone)⟩

end Lexigram
