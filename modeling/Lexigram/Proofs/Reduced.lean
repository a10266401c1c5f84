import Lexigram.Proofs.Soundness

/-! # Trees and what they reduce to

A tree of a range is paired with its derivation, and a chain of such pairs gives the children of a node.
The pair is determined by its tree. A hint cuts off no tree that can be the first of a complete chain.
-/

namespace Lexigram

variable {V : Type} [OfToken V]

/-- A tree of the symbol over `[start, stop)`, with what it reduces to. -/
def Reduced (g : Grammar V) (tokens : List Token) (symbol : Symbol) (start stop : Nat)
    (p : Tree × Derivation V) : Prop :=
  p.1.Derives g tokens symbol start p.2.next ∧ p.1.value? g tokens = some p.2.value ∧ p.2.next ≤ stop

inductive ReducedAll (g : Grammar V) (tokens : List Token) (stop : Nat) :
    List Symbol → Nat → List (Tree × Derivation V) → Prop
  | nil {start : Nat} : ReducedAll g tokens stop [] start []
  | cons {symbol : Symbol} {symbols : List Symbol} {start : Nat} {p : Tree × Derivation V}
    {chain : List (Tree × Derivation V)} (h : Reduced g tokens symbol start stop p)
    (h' : ReducedAll g tokens stop symbols p.2.next chain) :
    ReducedAll g tokens stop (symbol :: symbols) start (p :: chain)

variable {g : Grammar V} {tokens : List Token} {stop : Nat}

theorem Reduced.start_lt_stop {symbol : Symbol} {start : Nat} {p : Tree × Derivation V}
    (h : Reduced g tokens symbol start stop p) : start < stop :=
  Nat.lt_of_lt_of_le h.1.start_lt_stop h.2.2

theorem Reduced.eq_of_tree {symbol : Symbol} {start : Nat} {p q : Tree × Derivation V}
    (hp : Reduced g tokens symbol start stop p) (hq : Reduced g tokens symbol start stop q)
    (h : p.1 = q.1) : p = q := by
  obtain ⟨tree, value, next⟩ := p
  obtain ⟨tree', value', next'⟩ := q
  cases h
  obtain ⟨hTree, hValue, -⟩ := hp
  obtain ⟨hTree', hValue', -⟩ := hq
  rw [hValue] at hValue'
  cases hValue'
  cases hTree.stop_unique hTree'
  rfl

theorem reducedAll_cons_iff {symbol : Symbol} {symbols : List Symbol} {start : Nat}
    {chain : List (Tree × Derivation V)} :
    ReducedAll g tokens stop (symbol :: symbols) start chain ↔
      ∃ p rest, Reduced g tokens symbol start stop p ∧
        ReducedAll g tokens stop symbols p.2.next rest ∧ chain = p :: rest := by
  constructor
  · rintro (_ | ⟨h, h'⟩)
    exact ⟨_, _, h, h', rfl⟩
  · rintro ⟨p, rest, h, h', rfl⟩
    exact .cons h h'

theorem ReducedAll.eq_of_trees {symbols : List Symbol} {start : Nat}
    {chain chain' : List (Tree × Derivation V)} (h : ReducedAll g tokens stop symbols start chain)
    (h' : ReducedAll g tokens stop symbols start chain')
    (hTrees : chain.map Prod.fst = chain'.map Prod.fst) : chain = chain' := by
  induction h generalizing chain' with
  | nil =>
    cases h'
    rfl
  | cons hFirst _ ih =>
    cases h' with
    | cons hFirst' hRest' =>
      obtain ⟨hTree, hBehind⟩ := List.cons.inj hTrees
      cases hFirst.eq_of_tree hFirst' hTree
      rw [ih hRest' hBehind]

theorem ReducedAll.deriveAll {symbols : List Symbol} {start : Nat}
    {chain : List (Tree × Derivation V)} (h : ReducedAll g tokens stop symbols start chain) :
    Tree.DeriveAll g tokens symbols start (chainEnd start (chain.map Prod.snd))
        (chain.map Prod.fst) ∧
      Tree.values? g tokens (chain.map Prod.fst) = some (chain.map (·.2.value)) := by
  induction h with
  | nil => exact ⟨.nil, by rw [List.map_nil, Tree.values?]; rfl⟩
  | cons hFirst _ ih =>
    obtain ⟨hTree, hValue, -⟩ := hFirst
    obtain ⟨hTrees, hValues⟩ := ih
    refine ⟨?_, ?_⟩
    · rw [List.map_cons, List.map_cons, chainEnd_cons]
      exact .cons hTree hTrees
    · rw [List.map_cons, Tree.values?, hValue, hValues]
      rfl

theorem ReducedAll.chainEnd_le {symbols : List Symbol} {start : Nat}
    {chain : List (Tree × Derivation V)} (h : ReducedAll g tokens stop symbols start chain)
    (hStart : start ≤ stop) : chainEnd start (chain.map Prod.snd) ≤ stop := by
  induction h with
  | nil => exact hStart
  | cons hFirst _ ih =>
    rw [List.map_cons, chainEnd_cons]
    exact ih hFirst.2.2

theorem ReducedAll.start_le {symbols : List Symbol} {start : Nat}
    {chain : List (Tree × Derivation V)} (h : ReducedAll g tokens stop symbols start chain)
    (hSymbols : symbols ≠ []) : start ≤ stop := by
  cases h with
  | nil => exact absurd rfl hSymbols
  | cons hFirst _ => exact Nat.le_of_lt hFirst.start_lt_stop

theorem Tree.DeriveAll.exists_reducedAll {symbols : List Symbol} {start next : Nat} {trees : List Tree}
    {values : List V} (h : DeriveAll g tokens symbols start next trees)
    (hValues : values? g tokens trees = some values) (hStop : next ≤ stop) :
    ∃ chain, ReducedAll g tokens stop symbols start chain ∧ chain.map Prod.fst = trees ∧
      chain.map (·.2.value) = values ∧ chainEnd start (chain.map Prod.snd) = next := by
  induction trees generalizing symbols start values with
  | nil =>
    cases h
    rw [values?] at hValues
    cases hValues
    exact ⟨[], .nil, rfl, rfl, rfl⟩
  | cons tree trees ih =>
    cases h with
    | @cons _ _ _ mid _ _ _ hTree hTrees =>
      rw [values?] at hValues
      obtain ⟨value, hValue, hValues⟩ := Option.bind_eq_some_iff.mp hValues
      obtain ⟨rest, hRest, hValues⟩ := Option.bind_eq_some_iff.mp hValues
      cases hValues
      obtain ⟨chain, hChain, rfl, rfl, rfl⟩ := ih hTrees hRest
      have hMid : mid ≤ stop := Nat.le_trans hTrees.start_le_stop hStop
      refine ⟨(tree, ⟨value, mid⟩) :: chain, .cons ⟨hTree, hValue, hMid⟩ hChain, rfl, rfl, ?_⟩
      rw [List.map_cons, chainEnd_cons]

theorem reduced_terminal_iff {t : Terminal} {start : Nat} {p : Tree × Derivation V} :
    Reduced g tokens (.terminal t) start stop p ↔ ∃ token, tokens[start]? = some token ∧
      start < stop ∧ token.isOf t = true ∧ p = (.leaf start, ⟨OfToken.ofToken token, start + 1⟩) := by
  constructor
  · intro h
    have hStop := h.start_lt_stop
    obtain ⟨tree, value, next⟩ := p
    obtain ⟨hTree, hValue, -⟩ := h
    cases hTree with
    | leaf hToken hOf =>
      rw [Tree.value?, hToken] at hValue
      cases hValue
      exact ⟨_, hToken, hStop, hOf, rfl⟩
  · rintro ⟨token, hToken, hStop, hOf, rfl⟩
    exact ⟨.leaf hToken hOf, by rw [Tree.value?, hToken]; rfl, hStop⟩

theorem reduced_node_iff {index place start : Nat} {nt : NonTerminal V} {rule : Rule V}
    {reducer : Reducer V} (hNt : g.get? index = some nt) (hRule : nt.rules[place]? = some rule)
    (hReducer : rule.reducer = some reducer) (hSymbols : rule.symbols ≠ [])
    {children : List Tree} {d : Derivation V} :
    Reduced g tokens (.nonTerminal index) start stop (.node index place children, d) ↔
      ∃ chain, ReducedAll g tokens stop rule.symbols start chain ∧ chain.map Prod.fst = children ∧
        reducer.apply (chain.map (·.2.value)) = .ok d.value ∧
        chainEnd start (chain.map Prod.snd) = d.next := by
  have hValue : Tree.value? g tokens (.node index place children) =
      (Tree.values? g tokens children).bind fun values => (reducer.apply values).toOption := by
    simp only [Tree.value?, hNt, hRule, hReducer, Option.bind_eq_bind, Option.bind_some]
  constructor
  · rintro ⟨hTree, hTreeValue, hStop⟩
    rw [hValue] at hTreeValue
    obtain ⟨values, hValues, hApply⟩ := Option.bind_eq_some_iff.mp hTreeValue
    have hChildren := ((Tree.derives_node_iff hNt hRule).mp hTree).2
    obtain ⟨chain, hChain, hTrees, rfl, hNext⟩ := hChildren.exists_reducedAll hValues hStop
    refine ⟨chain, hChain, hTrees, ?_, hNext⟩
    cases hOutcome : reducer.apply (chain.map (·.2.value)) with
    | error cause =>
      rw [hOutcome] at hApply
      cases hApply
    | ok value =>
      rw [hOutcome] at hApply
      cases hApply
      rfl
  · rintro ⟨chain, hChain, rfl, hApply, hNext⟩
    obtain ⟨hTrees, hValues⟩ := hChain.deriveAll
    rw [hNext] at hTrees
    refine ⟨.node hNt hRule hSymbols hTrees, ?_, hNext ▸ hChain.chainEnd_le (hChain.start_le hSymbols)⟩
    rw [hValue, hValues, Option.bind_some, hApply]
    rfl

namespace Grammar

def reach (g : Grammar V) (tokens : List Token) (symbol : Symbol) (start stop : Nat)
    (hint : Option Terminal) : Nat :=
  match symbol with
  | .terminal _ => stop
  | .nonTerminal index =>
    match g.get? index with
    | some nt => nt.bound tokens start stop hint
    | none => stop

omit [OfToken V] in
theorem reach_none (g : Grammar V) (tokens : List Token) (symbol : Symbol) (start stop : Nat) :
    g.reach tokens symbol start stop none = stop := by
  unfold reach
  split
  · rfl
  · split
    · rfl
    · rfl

omit [OfToken V] in
theorem reach_le_max (g : Grammar V) (tokens : List Token) (symbol : Symbol) (start stop : Nat)
    (hint : Option Terminal) : g.reach tokens symbol start stop hint ≤ max start stop := by
  unfold reach
  split
  · exact Nat.le_max_right start stop
  · split
    · rename_i nt _
      exact nt.bound_le_max tokens start stop hint
    · exact Nat.le_max_right start stop

end Grammar

omit [OfToken V] in
theorem Tree.DeriveAll.exists_token {symbols : List Symbol} {start stop : Nat} {trees : List Tree}
    (h : DeriveAll g tokens symbols start stop trees) {terminal : Terminal}
    (hTerminal : .terminal terminal ∈ symbols) :
    ∃ place token, start ≤ place ∧ place < stop ∧ tokens[place]? = some token ∧
      token.isOf terminal = true := by
  induction trees generalizing symbols start with
  | nil =>
    cases h
    cases hTerminal
  | cons tree trees ih =>
    cases h with
    | cons hTree hTrees =>
      have hFirst := hTree.start_lt_stop
      have hRest := hTrees.start_le_stop
      rcases List.mem_cons.mp hTerminal with rfl | hTerminal
      · cases hTree with
        | leaf hToken hOf => exact ⟨start, _, Nat.le_refl start, by omega, hToken, hOf⟩
      · obtain ⟨place, token, hStart, hStop, hToken⟩ := ih hTrees hTerminal
        exact ⟨place, token, by omega, hStop, hToken⟩

/-- A hint loses no chain, whatever it bounds: the terminal stands behind the first tree and still in the
range. -/
theorem ReducedAll.next_le_reach (g' : Grammar V) {rule : Rule V} {first : Symbol}
    {behind : List Symbol} {start : Nat} {p : Tree × Derivation V} {rest : List (Tree × Derivation V)}
    (hSymbols : rule.symbols = first :: behind) (hFirst : Reduced g tokens first start stop p)
    (hRest : ReducedAll g tokens stop behind p.2.next rest) :
    p.2.next ≤ g'.reach tokens first start stop rule.hint := by
  have hStop := hFirst.2.2
  unfold Grammar.reach
  split
  · exact hStop
  · rename_i index
    split
    · rename_i nt hNt
      apply nt.le_bound hStop
      intro terminal hHint
      have hBehind : .terminal terminal ∈ behind := by
        simpa [hSymbols] using Rule.terminal_mem_of_hint hHint
      obtain ⟨place, token, hStart, hPlace, hToken, hOf⟩ := hRest.deriveAll.1.exists_token hBehind
      have hEnd := hRest.chainEnd_le hStop
      have hNext := hFirst.1.start_lt_stop
      have hLast : place ≤ lastOccurrence tokens start stop terminal :=
        le_lastOccurrence (by omega) (by omega) hToken hOf
      omega
    · exact hStop

end Lexigram
