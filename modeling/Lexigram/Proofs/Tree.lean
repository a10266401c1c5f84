import Lexigram.Grammar.Stream

/-! # Derivation trees

A tree records which tokens were read and which rules were used, so different derivations of one value
are different trees. Its value is found from its leaves upwards.
-/

namespace Lexigram

/-- A leaf is a token, given by its place. A node uses a rule, given by its place among the rules of a
non-terminal, and has one child for each symbol of the rule. -/
inductive Tree where
  | leaf (place : Nat)
  | node (index rule : Nat) (children : List Tree)

namespace Tree

variable {V : Type}

mutual

/-- The tree is a derivation of the symbol that begins at `start` and ends before `stop`. -/
inductive Derives (g : Grammar V) (tokens : List Token) : Symbol → Nat → Nat → Tree → Prop
  | leaf {terminal : Terminal} {start : Nat} {token : Token} (hToken : tokens[start]? = some token)
    (hOf : token.isOf terminal = true) :
    Derives g tokens (.terminal terminal) start (start + 1) (.leaf start)
  | node {index start stop place : Nat} {nt : NonTerminal V} {rule : Rule V} {children : List Tree}
    (hNt : g.get? index = some nt) (hRule : nt.rules[place]? = some rule)
    (hSymbols : rule.symbols ≠ []) (hChildren : DeriveAll g tokens rule.symbols start stop children) :
    Derives g tokens (.nonTerminal index) start stop (.node index place children)

inductive DeriveAll (g : Grammar V) (tokens : List Token) :
    List Symbol → Nat → Nat → List Tree → Prop
  | nil {start : Nat} : DeriveAll g tokens [] start start []
  | cons {symbol : Symbol} {symbols : List Symbol} {start mid stop : Nat} {tree : Tree}
    {trees : List Tree} (hTree : Derives g tokens symbol start mid tree)
    (hTrees : DeriveAll g tokens symbols mid stop trees) :
    DeriveAll g tokens (symbol :: symbols) start stop (tree :: trees)

end

mutual

def leaves : Tree → List Nat
  | .leaf place => [place]
  | .node _ _ children => leavesAll children

def leavesAll : List Tree → List Nat
  | [] => []
  | tree :: trees => leaves tree ++ leavesAll trees

end

mutual

def value? [OfToken V] (g : Grammar V) (tokens : List Token) : Tree → Option V
  | .leaf place => tokens[place]?.map OfToken.ofToken
  | .node index place children => do
    let nt ← g.get? index
    let rule ← nt.rules[place]?
    let reducer ← rule.reducer
    (reducer.apply (← values? g tokens children)).toOption

def values? [OfToken V] (g : Grammar V) (tokens : List Token) : List Tree → Option (List V)
  | [] => some []
  | tree :: trees => do
    let value ← value? g tokens tree
    let values ← values? g tokens trees
    some (value :: values)

end

def derivation? [OfToken V] (g : Grammar V) (tokens : List Token) (tree : Tree) :
    Option (Derivation V) := do
  let value ← tree.value? g tokens
  let last ← tree.leaves.getLast?
  some ⟨value, last + 1⟩

variable {g : Grammar V} {tokens : List Token}

theorem derives_node_iff {index place start stop : Nat} {nt : NonTerminal V} {rule : Rule V}
    {children : List Tree} (hNt : g.get? index = some nt) (hRule : nt.rules[place]? = some rule) :
    Derives g tokens (.nonTerminal index) start stop (.node index place children) ↔
      rule.symbols ≠ [] ∧ DeriveAll g tokens rule.symbols start stop children := by
  constructor
  · intro h
    cases h with
    | node hNt' hRule' hSymbols hChildren =>
      rw [hNt] at hNt'
      cases hNt'
      rw [hRule] at hRule'
      cases hRule'
      exact ⟨hSymbols, hChildren⟩
  · rintro ⟨hSymbols, hChildren⟩
    exact .node hNt hRule hSymbols hChildren

mutual

theorem Derives.start_lt_stop {symbol : Symbol} {start stop : Nat} {tree : Tree}
    (h : tree.Derives g tokens symbol start stop) : start < stop := by
  cases h with
  | leaf => exact Nat.lt_succ_self start
  | node _ _ hSymbols hChildren => exact hChildren.start_lt_stop hSymbols

theorem DeriveAll.start_le_stop {symbols : List Symbol} {start stop : Nat} {trees : List Tree}
    (h : DeriveAll g tokens symbols start stop trees) : start ≤ stop := by
  cases h with
  | nil => exact Nat.le_refl start
  | cons hTree hTrees =>
    have hFirst := hTree.start_lt_stop
    have hRest := hTrees.start_le_stop
    omega

theorem DeriveAll.start_lt_stop {symbols : List Symbol} {start stop : Nat} {trees : List Tree}
    (h : DeriveAll g tokens symbols start stop trees) (hSymbols : symbols ≠ []) : start < stop := by
  cases h with
  | nil => exact absurd rfl hSymbols
  | cons hTree hTrees =>
    have hFirst := hTree.start_lt_stop
    have hRest := hTrees.start_le_stop
    omega

end

mutual

theorem Derives.stop_le_length {symbol : Symbol} {start stop : Nat} {tree : Tree}
    (h : tree.Derives g tokens symbol start stop) : stop ≤ tokens.length := by
  cases h with
  | leaf hToken => exact (List.getElem?_eq_some_iff.mp hToken).1
  | node _ _ hSymbols hChildren =>
    have hStop := hChildren.stop_le_max
    have hStart := hChildren.start_lt_stop hSymbols
    omega

theorem DeriveAll.stop_le_max {symbols : List Symbol} {start stop : Nat} {trees : List Tree}
    (h : DeriveAll g tokens symbols start stop trees) : stop ≤ max start tokens.length := by
  cases h with
  | nil => exact Nat.le_max_left start tokens.length
  | cons hTree hTrees =>
    have hFirst := hTree.stop_le_length
    have hRest := hTrees.stop_le_max
    omega

end

mutual

/-- The leaves of a derivation are the tokens between its ends, each once and in order. -/
theorem Derives.leaves_eq {symbol : Symbol} {start stop : Nat} {tree : Tree}
    (h : tree.Derives g tokens symbol start stop) :
    tree.leaves = List.range' start (stop - start) := by
  cases h with
  | leaf =>
    rw [leaves, Nat.add_sub_cancel_left]
    rfl
  | node _ _ _ hChildren =>
    rw [leaves]
    exact hChildren.leavesAll_eq

theorem DeriveAll.leavesAll_eq {symbols : List Symbol} {start stop : Nat} {trees : List Tree}
    (h : DeriveAll g tokens symbols start stop trees) :
    leavesAll trees = List.range' start (stop - start) := by
  cases h with
  | nil =>
    rw [leavesAll, Nat.sub_self]
    rfl
  | @cons _ _ _ mid _ _ _ hTree hTrees =>
    have hFirst := hTree.start_lt_stop
    have hRest := hTrees.start_le_stop
    rw [leavesAll, hTree.leaves_eq, hTrees.leavesAll_eq]
    have hMid : mid = start + (mid - start) := by omega
    have hStop : stop - start = (mid - start) + (stop - mid) := by omega
    rw [hStop, ← List.range'_append_1, ← hMid]

end

theorem Derives.stop_unique {symbol : Symbol} {start stop stop' : Nat} {tree : Tree}
    (h : tree.Derives g tokens symbol start stop) (h' : tree.Derives g tokens symbol start stop') :
    stop = stop' := by
  have hLength := congrArg List.length (h.leaves_eq.symm.trans h'.leaves_eq)
  have hStart := h.start_lt_stop
  have hStart' := h'.start_lt_stop
  simp only [List.length_range'] at hLength
  omega

theorem Derives.derivation?_eq [OfToken V] {symbol : Symbol} {start stop : Nat} {tree : Tree}
    (h : tree.Derives g tokens symbol start stop) :
    tree.derivation? g tokens = (tree.value? g tokens).map fun value => ⟨value, stop⟩ := by
  have hStart := h.start_lt_stop
  have hLast : tree.leaves.getLast? = some (stop - 1) := by
    rw [h.leaves_eq, List.getLast?_range', if_neg (by omega)]
    exact congrArg some (by omega)
  have hStop : stop - 1 + 1 = stop := by omega
  rw [derivation?, hLast]
  cases tree.value? g tokens with
  | none => rfl
  | some value =>
    change some (⟨value, stop - 1 + 1⟩ : Derivation V) = some ⟨value, stop⟩
    rw [hStop]

end Tree

end Lexigram
