import Mathlib.Data.List.Forall2
import Mathlib.GroupTheory.Perm.ViaEmbedding
import Lexigram.Proofs.Reduced
import Lexigram.Proofs.Exactness

/-! # Grammars with the same rules

How rules are ordered, merged and bounded has no part in what a grammar derives. When the rules of each
non-terminal are put in another order, the trees of one grammar become those of the other by relabelling
their nodes, with the same leaves and the same values.
-/

namespace Lexigram

theorem exists_places_of_perm {α : Type} {list list' : List α} (h : list.Perm list') :
    ∃ σ : Equiv.Perm Nat, ∀ place, list'[σ place]? = list[place]? := by
  induction h with
  | nil => exact ⟨.refl Nat, fun _ => rfl⟩
  | cons a _ ih =>
    obtain ⟨σ, hσ⟩ := ih
    -- The first place stays, and those behind it move as they do in the rest of the lists.
    let behind : Nat ↪ Nat := ⟨Nat.succ, Nat.succ_injective⟩
    refine ⟨σ.viaEmbedding behind, fun place => ?_⟩
    cases place with
    | zero =>
      have hZero : 0 ∉ Set.range behind := fun ⟨n, hn⟩ => Nat.succ_ne_zero n hn
      rw [σ.viaEmbedding_apply_of_notMem behind 0 hZero]
      rfl
    | succ place =>
      have hSucc : σ.viaEmbedding behind (place + 1) = σ place + 1 := σ.viaEmbedding_apply behind place
      rw [hSucc]
      exact hσ place
  | swap a b list =>
    refine ⟨Equiv.swap 0 1, fun place => ?_⟩
    rcases place with _ | _ | place
    · rfl
    · rfl
    · rw [Equiv.swap_apply_of_ne_of_ne (by omega) (by omega)]
      rfl
  | trans _ _ ih ih' =>
    obtain ⟨σ, hσ⟩ := ih
    obtain ⟨σ', hσ'⟩ := ih'
    exact ⟨σ.trans σ', fun place => (hσ' (σ place)).trans (hσ place)⟩

variable {V : Type}

namespace Grammar

/-- The grammars have the same start and the same rules, those of each non-terminal in any order. How
rules are merged and bounded may differ. -/
structure Retunes (g g' : Grammar V) : Prop where
  start : g'.start = g.start
  rules : List.Forall₂ (fun nt nt' : NonTerminal V => nt.rules.Perm nt'.rules) g.nonTerminals g'.nonTerminals

/-- The rule at a place of a non-terminal of `g` is in `g'` at the place that `σ` tells. -/
def Relabels (σ : Nat → Equiv.Perm Nat) (g g' : Grammar V) : Prop :=
  ∀ index, Option.Rel (fun nt nt' : NonTerminal V =>
    ∀ place, nt'.rules[σ index place]? = nt.rules[place]?) (g.get? index) (g'.get? index)

variable {g g' g'' : Grammar V}

theorem Retunes.exists_relabels (h : g.Retunes g') : ∃ σ, Relabels σ g g' := by
  have hEach (index : Nat) : ∃ σ : Equiv.Perm Nat, Option.Rel (fun nt nt' : NonTerminal V =>
      ∀ place, nt'.rules[σ place]? = nt.rules[place]?) (g.get? index) (g'.get? index) := by
    unfold get?
    have hRules := h.rules
    generalize g.nonTerminals = nonTerminals, g'.nonTerminals = nonTerminals' at hRules
    induction hRules generalizing index with
    | nil => exact ⟨.refl Nat, .none⟩
    | cons hFirst _ ih =>
      cases index with
      | zero =>
        obtain ⟨σ, hσ⟩ := exists_places_of_perm hFirst
        exact ⟨σ, .some hσ⟩
      | succ index => exact ih index
  choose σ hσ using hEach
  exact ⟨σ, hσ⟩

theorem Retunes.exists_perm (h : g.Retunes g') {nt' : NonTerminal V} (hNt' : nt' ∈ g'.nonTerminals) :
    ∃ nt ∈ g.nonTerminals, nt.rules.Perm nt'.rules := by
  have hRules := h.rules
  generalize g.nonTerminals = nonTerminals, g'.nonTerminals = nonTerminals' at hRules hNt'
  induction hRules with
  | nil => cases hNt'
  | cons hFirst _ ih =>
    rcases List.mem_cons.mp hNt' with rfl | hNt'
    · exact ⟨_, List.mem_cons_self, hFirst⟩
    · obtain ⟨nt, hNt, hPerm⟩ := ih hNt'
      exact ⟨nt, List.mem_cons_of_mem _ hNt, hPerm⟩

theorem Retunes.total (h : g.Retunes g') (hTotal : g.Total) : g'.Total := by
  intro nt' hNt' rule hRule
  obtain ⟨nt, hNt, hPerm⟩ := h.exists_perm hNt'
  exact hTotal nt hNt rule (hPerm.mem_iff.mpr hRule)

theorem Retunes.closed (h : g.Retunes g') (hClosed : g.Closed) : g'.Closed := by
  have hHolds (symbol : Symbol) (hSymbol : symbol ∈ g.symbols) : g'.Holds symbol := by
    have hIn := hClosed symbol hSymbol
    cases symbol with
    | terminal t => trivial
    | nonTerminal index => exact Nat.lt_of_lt_of_eq hIn h.rules.length_eq
  intro symbol hSymbol
  rcases List.mem_cons.mp hSymbol with rfl | hSymbol
  · exact hHolds _ (h.start ▸ List.mem_cons_self)
  · obtain ⟨nt', hNt', hSymbol⟩ := List.mem_flatMap.mp hSymbol
    obtain ⟨rule, hRule, hSymbol⟩ := List.mem_flatMap.mp hSymbol
    obtain ⟨nt, hNt, hPerm⟩ := h.exists_perm hNt'
    refine hHolds symbol (List.mem_cons_of_mem _ (List.mem_flatMap.mpr ⟨nt, hNt, ?_⟩))
    exact List.mem_flatMap.mpr ⟨rule, hPerm.mem_iff.mpr hRule, hSymbol⟩

def withPruning (flags : Nat → Bool) (g : Grammar V) : Grammar V :=
  { g with nonTerminals := g.nonTerminals.mapIdx fun index nt => { nt with hintPruning := flags index } }

theorem get?_withPruning (flags : Nat → Bool) (g : Grammar V) (index : Nat) :
    (g.withPruning flags).get? index =
      (g.get? index).map fun nt => { nt with hintPruning := flags index } :=
  List.getElem?_mapIdx

theorem retunes_withPruning (flags : Nat → Bool) (g : Grammar V) : g.Retunes (g.withPruning flags) := by
  refine ⟨rfl, List.forall₂_iff_get.mpr ⟨List.length_mapIdx.symm, fun index _ _ => ?_⟩⟩
  simp only [withPruning, List.get_eq_getElem, List.getElem_mapIdx]
  exact .refl _

variable {σ : Nat → Equiv.Perm Nat}

theorem Relabels.symm (h : Relabels σ g g') : Relabels (fun index => (σ index).symm) g' g := by
  intro index
  have hIndex := h index
  generalize g.get? index = nt?, g'.get? index = nt'? at hIndex
  cases hIndex with
  | none => exact .none
  | some hRules =>
    refine .some fun place => ?_
    rw [← hRules, Equiv.apply_symm_apply]

theorem Relabels.exists_rule (h : Relabels σ g g') {index place : Nat} {nt : NonTerminal V}
    {rule : Rule V} (hNt : g.get? index = some nt) (hRule : nt.rules[place]? = some rule) :
    ∃ nt', g'.get? index = some nt' ∧ nt'.rules[σ index place]? = some rule := by
  have hIndex := h index
  rw [hNt] at hIndex
  cases hNt' : g'.get? index with
  | none =>
    rw [hNt'] at hIndex
    cases hIndex
  | some nt' =>
    rw [hNt'] at hIndex
    cases hIndex with
    | some hRules => exact ⟨nt', rfl, (hRules place).trans hRule⟩

end Grammar

namespace Tree

mutual

def relabel (σ : Nat → Equiv.Perm Nat) : Tree → Tree
  | .leaf place => .leaf place
  | .node index rule children => .node index (σ index rule) (relabelAll σ children)

def relabelAll (σ : Nat → Equiv.Perm Nat) : List Tree → List Tree
  | [] => []
  | tree :: trees => relabel σ tree :: relabelAll σ trees

end

mutual

theorem relabel_symm (σ : Nat → Equiv.Perm Nat) (tree : Tree) :
    (tree.relabel σ).relabel (fun index => (σ index).symm) = tree := by
  cases tree with
  | leaf place => rw [relabel, relabel]
  | node index rule children =>
    rw [relabel, relabel, Equiv.symm_apply_apply, relabelAll_symm]

theorem relabelAll_symm (σ : Nat → Equiv.Perm Nat) (trees : List Tree) :
    relabelAll (fun index => (σ index).symm) (relabelAll σ trees) = trees := by
  cases trees with
  | nil => rw [relabelAll, relabelAll]
  | cons tree trees => rw [relabelAll, relabelAll, relabel_symm, relabelAll_symm]

end

theorem relabel_injective (σ : Nat → Equiv.Perm Nat) : Function.Injective (relabel σ) :=
  Function.LeftInverse.injective (relabel_symm σ)

variable {g g' : Grammar V} {tokens : List Token} {σ : Nat → Equiv.Perm Nat}

mutual

theorem Derives.relabel (h : g.Relabels σ g') {symbol : Symbol} {start stop : Nat} {tree : Tree}
    (hTree : tree.Derives g tokens symbol start stop) :
    (tree.relabel σ).Derives g' tokens symbol start stop := by
  cases hTree with
  | leaf hToken hOf =>
    rw [Tree.relabel]
    exact .leaf hToken hOf
  | node hNt hRule hSymbols hChildren =>
    obtain ⟨nt', hNt', hRule'⟩ := h.exists_rule hNt hRule
    rw [Tree.relabel]
    exact .node hNt' hRule' hSymbols (hChildren.relabelAll h)

theorem DeriveAll.relabelAll (h : g.Relabels σ g') {symbols : List Symbol} {start stop : Nat}
    {trees : List Tree} (hTrees : DeriveAll g tokens symbols start stop trees) :
    DeriveAll g' tokens symbols start stop (relabelAll σ trees) := by
  cases hTrees with
  | nil =>
    rw [Tree.relabelAll]
    exact .nil
  | cons hTree hTrees =>
    rw [Tree.relabelAll]
    exact .cons (hTree.relabel h) (hTrees.relabelAll h)

end

mutual

theorem Derives.value?_relabel [OfToken V] (h : g.Relabels σ g') {symbol : Symbol} {start stop : Nat}
    {tree : Tree} (hTree : tree.Derives g tokens symbol start stop) :
    (tree.relabel σ).value? g' tokens = tree.value? g tokens := by
  cases hTree with
  | leaf => rw [Tree.relabel, value?, value?]
  | node hNt hRule _ hChildren =>
    obtain ⟨nt', hNt', hRule'⟩ := h.exists_rule hNt hRule
    simp only [Tree.relabel, value?, hNt, hNt', hRule, hRule', hChildren.values?_relabelAll h,
      Option.bind_eq_bind, Option.bind_some]

theorem DeriveAll.values?_relabelAll [OfToken V] (h : g.Relabels σ g') {symbols : List Symbol}
    {start stop : Nat} {trees : List Tree} (hTrees : DeriveAll g tokens symbols start stop trees) :
    values? g' tokens (Tree.relabelAll σ trees) = values? g tokens trees := by
  cases hTrees with
  | nil => rw [Tree.relabelAll, values?, values?]
  | cons hTree hTrees =>
    rw [Tree.relabelAll, values?, values?, hTree.value?_relabel h, hTrees.values?_relabelAll h]

end

end Tree

variable [OfToken V] {g g' : Grammar V} {tokens : List Token} {σ : Nat → Equiv.Perm Nat}

theorem Reduced.relabel (h : g.Relabels σ g') {symbol : Symbol} {start stop : Nat}
    {p : Tree × Derivation V} (hp : Reduced g tokens symbol start stop p) :
    Reduced g' tokens symbol start stop (p.1.relabel σ, p.2) :=
  ⟨hp.1.relabel h, (hp.1.value?_relabel h).trans hp.2.1, hp.2.2⟩

/-- Exhaustive lists of the trees of two grammars that differ in the order of their rules have the same
derivations. -/
theorem Grammar.Relabels.perm (h : g.Relabels σ g') {symbol : Symbol} {start stop : Nat}
    {listed listed' : List (Tree × Derivation V)}
    (hListed : Exhausts (Reduced g tokens symbol start stop) listed)
    (hListed' : Exhausts (Reduced g' tokens symbol start stop) listed') :
    (listed.map Prod.snd).Perm (listed'.map Prod.snd) := by
  have hRelabelled := hListed.map (f := fun p => (p.1.relabel σ, p.2)) fun p _ q _ hEq => by
    obtain ⟨hTree, hDerivation⟩ := Prod.mk.inj hEq
    exact Prod.ext (Tree.relabel_injective σ hTree) hDerivation
  have hSame := (hRelabelled.congr fun p => ?_).perm_of_exhausts hListed'
  · have hDerivations := hSame.map Prod.snd
    rw [List.map_map] at hDerivations
    exact hDerivations
  · constructor
    · rintro ⟨q, hq, rfl⟩
      exact hq.relabel h
    · intro hp
      refine ⟨_, hp.relabel h.symm, ?_⟩
      have hBack := Tree.relabel_symm (fun index => (σ index).symm) p.1
      simp only [Equiv.symm_symm] at hBack
      rw [hBack]

end Lexigram
