import Mathlib.Order.Lattice.Nat
import Lexigram.Proofs.Building
import Lexigram.Proofs.Hint
import Lexigram.Proofs.Listing
import Lexigram.Proofs.Search

/-! # Left-nested operations

Operands joined by an operator, by a rule that begins with the non-terminal that it belongs to. The search
for what the rule begins with is bounded by the last operator, wherever in the input that stands. What is
enumerated does not depend on it: the operations over one operand, over two and so on, nested to the left,
as far as the input begins with operands that are joined.
-/

namespace Lexigram

section Lists

variable {V : Type}

theorem collect_ok {follow : Derivation V → Option (List (Item V) × Option ReductionError)}
    {later : Derivation V → List (Item V)} {choices : List (Derivation V)}
    (h : ∀ d ∈ choices, follow d = some (later d, none)) :
    collect follow (choices.map .ok) = some (choices.flatMap later, none) := by
  induction choices with
  | nil => rfl
  | cons d choices ih =>
    rw [List.forall_mem_cons] at h
    rw [List.map_cons, collect, h.1, ih h.2]
    rfl

theorem Rule.follow_cons_ok {list : Symbol → Nat → Option (List (Item V))} {rule : Rule V}
    {reducer : Reducer V} {start : Nat} {symbol : Symbol} {behind : List Symbol}
    {chosen choices : List (Derivation V)} {d : Derivation V} {later : Derivation V → List (Item V)}
    (hList : list symbol d.next = some (choices.map .ok))
    (h : ∀ c ∈ choices, rule.follow list reducer start behind (d :: chosen) c = some (later c, none)) :
    rule.follow list reducer start (symbol :: behind) chosen d =
      some (choices.flatMap later, none) := by
  rw [follow, hList]
  exact collect_ok h

theorem Rule.items?_ok {list : Symbol → Nat → Nat → Option Terminal → Option (List (Item V))}
    {rule : Rule V} {reducer : Reducer V} {start stop : Nat} {first : Symbol} {behind : List Symbol}
    {choices : List (Derivation V)} {later : Derivation V → List (Item V)}
    (hReducer : rule.reducer = some reducer) (hSymbols : rule.symbols = first :: behind)
    (hStart : start < stop) (hList : list first start stop rule.hint = some (choices.map .ok))
    (h : ∀ d ∈ choices,
      rule.follow (list · · stop none) reducer start behind [] d = some (later d, none)) :
    rule.items? list start stop = some (choices.flatMap later) := by
  unfold items?
  simp only [hReducer, hSymbols, hStart, if_true, hList, Option.bind_eq_bind, Option.bind_some,
    collect_ok h, closing, List.append_nil]

namespace Enumeration

variable {α : Type}

theorem takeTurns_nil_cons (lists : List (List α)) : takeTurns ([] :: lists) = takeTurns lists := by
  rw [takeTurns]

theorem takeTurns_singleton (list : List α) : takeTurns [list] = list := by
  induction list with
  | nil => rw [takeTurns_nil_cons, takeTurns]
  | cons a list ih => rw [takeTurns, List.nil_append, ih]

theorem takeTurns_pair_nil (list : List α) : takeTurns [list, []] = list := by
  cases list with
  | nil => rw [takeTurns_nil_cons, takeTurns_singleton]
  | cons a list =>
    rw [takeTurns, List.singleton_append, takeTurns_nil_cons, takeTurns_singleton]

end Enumeration

theorem Alternation.merge_pair {α : Type} (alternation : Alternation) (first second : List α)
    (h : first.length ≤ 1) : alternation.merge [first, second] = first ++ second := by
  cases alternation with
  | sequential =>
    change [first, second].flatten = _
    rw [List.flatten_cons, List.flatten_singleton]
  | roundRobin =>
    change Enumeration.takeTurns [first, second] = _
    match first with
    | [] => exact (Enumeration.takeTurns_nil_cons _).trans (Enumeration.takeTurns_singleton second)
    | [a] => rw [Enumeration.takeTurns, List.singleton_append, Enumeration.takeTurns_pair_nil,
        List.singleton_append]

variable [OfToken V]

def Terminal.taken (t : Terminal) (tokens : List Token) (start stop : Nat) : List (Derivation V) :=
  match tokens[start]? with
  | some token => if start < stop && token.isOf t then [⟨OfToken.ofToken token, start + 1⟩] else []
  | none => []

theorem Terminal.items_eq_map_taken (t : Terminal) (tokens : List Token) (start stop : Nat) :
    (t.items tokens start stop : List (Item V)) = (t.taken tokens start stop).map .ok := by
  unfold items taken
  cases tokens[start]? with
  | none => rfl
  | some token => cases hTaken : decide (start < stop) && token.isOf t <;> simp [hTaken]

theorem Terminal.taken_eq_singleton {t : Terminal} {tokens : List Token} {start stop : Nat}
    {token : Token} (hStop : start < stop) (hToken : tokens[start]? = some token)
    (hOf : token.isOf t = true) :
    (t.taken tokens start stop : List (Derivation V)) = [⟨OfToken.ofToken token, start + 1⟩] := by
  simp only [taken, hToken, hStop, hOf, decide_true, Bool.and_true, if_true]

theorem Terminal.mem_taken {t : Terminal} {tokens : List Token} {start stop : Nat} {d : Derivation V}
    (h : d ∈ t.taken tokens start stop) :
    start < stop ∧ d.next = start + 1 ∧ ∃ token, tokens[start]? = some token ∧ token.isOf t = true := by
  unfold taken at h
  split at h
  · rename_i token hToken
    split at h
    · rename_i hTaken
      rw [Bool.and_eq_true, decide_eq_true_eq] at hTaken
      rw [List.mem_singleton] at h
      subst h
      exact ⟨hTaken.1, rfl, token, hToken, hTaken.2⟩
    · cases h
  · cases h

end Lists

/-- A binary operation: what its operands and operators are, and how they are reduced. -/
structure Operation (V : Type) where
  name : String
  operand : Terminal
  operator : Terminal
  single : List V → V
  join : List V → V
  singleTag : Option String := none
  joinTag : Option String := none
  alternation : Alternation := .roundRobin

namespace Operation

section Begins

variable {V : Type} {op : Operation V} {tokens : List Token} {count less stop : Nat}

/-- The tokens begin with so many operands, each joined to the next one by an operator. -/
def Begins (op : Operation V) (tokens : List Token) (count : Nat) : Prop :=
  ∀ i < 2 * count - 1, ∃ t, tokens[i]? = some t ∧
    t.isOf (if i % 2 = 0 then op.operand else op.operator) = true

theorem Begins.mono (h : op.Begins tokens count) (hLess : less ≤ count) : op.Begins tokens less :=
  fun i hi => h i (by omega)

theorem begins_zero : op.Begins tokens 0 :=
  fun i hi => absurd hi (Nat.not_lt_zero i)

theorem begins_one_iff : op.Begins tokens 1 ↔
    ∃ t, tokens[0]? = some t ∧ t.isOf op.operand = true := by
  constructor
  · exact fun h => h 0 Nat.zero_lt_one
  · intro h i hi
    obtain rfl : i = 0 := by omega
    exact h

theorem begins_succ_iff : op.Begins tokens (count + 2) ↔ op.Begins tokens (count + 1) ∧
    (∃ t, tokens[2 * count + 1]? = some t ∧ t.isOf op.operator = true) ∧
    ∃ t, tokens[2 * count + 2]? = some t ∧ t.isOf op.operand = true := by
  constructor
  · intro h
    refine ⟨h.mono (Nat.le_succ _), ?_, ?_⟩
    · have hAt := h (2 * count + 1) (by omega)
      rwa [if_neg (by omega)] at hAt
    · have hAt := h (2 * count + 2) (by omega)
      rwa [if_pos (by omega)] at hAt
  · rintro ⟨hLess, hOperator, hOperand⟩ i hi
    rcases (by omega : i < 2 * (count + 1) - 1 ∨ i = 2 * count + 1 ∨ i = 2 * count + 2) with hi | rfl | rfl
    · exact hLess i hi
    · rwa [if_neg (by omega)]
    · rwa [if_pos (by omega)]

theorem Begins.le_length (h : op.Begins tokens count) : 2 * count - 1 ≤ tokens.length := by
  cases hCount : 2 * count - 1 with
  | zero => exact Nat.zero_le _
  | succ last =>
    obtain ⟨t, ht, -⟩ := h last (by omega)
    exact (List.getElem?_eq_some_iff.mp ht).1

/-- The numbers of operands that the tokens before `stop` begin with. -/
def counts (op : Operation V) (tokens : List Token) (stop : Nat) : Set Nat :=
  {count | 2 * count - 1 ≤ stop ∧ op.Begins tokens count}

theorem exists_isGreatest (op : Operation V) (tokens : List Token) (stop : Nat) :
    ∃ count, IsGreatest (op.counts tokens stop) count := by
  have hNonempty : (op.counts tokens stop).Nonempty := ⟨0, Nat.zero_le _, begins_zero⟩
  have hBounded : BddAbove (op.counts tokens stop) := by
    refine ⟨stop + 1, fun count hCount => ?_⟩
    have := hCount.1
    omega
  exact ⟨_, Nat.sSup_mem hNonempty hBounded, fun _ h => le_csSup hBounded h⟩

/-- Cutting the range at its last operator costs one operand at most. -/
theorem counts_lastOccurrence (hStop : 0 < stop) (hCount : IsGreatest (op.counts tokens stop) count)
    (hLess : IsGreatest (op.counts tokens (lastOccurrence tokens 0 stop op.operator)) less) :
    less ≤ count ∧ count ≤ less + 1 := by
  constructor
  · have hBound : lastOccurrence tokens 0 stop op.operator < stop := lastOccurrence_lt op.operator hStop
    have := hLess.1.1
    exact hCount.2 ⟨by omega, hLess.1.2⟩
  · obtain ⟨hWithin, hBegins⟩ := hCount.1
    rcases Nat.lt_or_ge count 2 with hFew | hMany
    · omega
    · obtain ⟨fewer, rfl⟩ := Nat.exists_eq_add_of_le' hMany
      obtain ⟨hBefore, ⟨t, ht, hOf⟩, -⟩ := begins_succ_iff.mp hBegins
      have hOperator : 2 * fewer + 1 ≤ lastOccurrence tokens 0 stop op.operator :=
        le_lastOccurrence (Nat.zero_le _) (by omega) ht hOf
      have := hLess.2 ⟨by omega, hBefore⟩
      omega

end Begins

variable {V : Type}

def operandRule (op : Operation V) : Rule V where
  symbols := [.terminal op.operand]
  reducer := some ⟨fun values => .ok (op.single values), op.singleTag⟩
  owner := op.name
  label := op.operand.name

def joinRule (op : Operation V) : Rule V where
  symbols := [.nonTerminal 0, .terminal op.operator, .terminal op.operand]
  reducer := some ⟨fun values => .ok (op.join values), op.joinTag⟩
  owner := op.name
  label := " ".intercalate [op.name, op.operator.name, op.operand.name]

/-- An operation is an operand, or an operation, an operator and an operand. -/
def nonTerminal (op : Operation V) : NonTerminal V where
  name := op.name
  rules := [op.operandRule, op.joinRule]
  hintPruning := true
  alternation := op.alternation

def grammar (op : Operation V) : Grammar V :=
  ⟨[op.nonTerminal], .nonTerminal 0⟩

def calls (op : Operation V) : List (BuilderCall V) :=
  [.define op.name,
    .addRule 0 { symbols := op.operandRule.symbols, reducer := op.operandRule.reducer },
    .addRule 0 { symbols := op.joinRule.symbols, reducer := op.joinRule.reducer },
    .setHintPruning 0 true, .setAlternation 0 op.alternation, .setStart (.nonTerminal 0)]

theorem build_calls (op : Operation V) (config : GrammarConfig) : ∃ builder,
    ({ config } : GrammarBuilder V).performAll op.calls = .ok builder ∧
      builder.build = .ok op.grammar :=
  ⟨_, rfl, rfl⟩

variable [OfToken V]

/-- The value of the first operand and `more` others, nested to the left. -/
def nested (op : Operation V) (tokens : List Token) : Nat → Option V
  | 0 => tokens[0]?.map fun operand => op.single [OfToken.ofToken operand]
  | more + 1 => do
    let left ← op.nested tokens more
    let operator ← tokens[2 * more + 1]?
    let operand ← tokens[2 * more + 2]?
    some (op.join [left, OfToken.ofToken operator, OfToken.ofToken operand])

variable {op : Operation V} {tokens : List Token} {count less more stop : Nat}

theorem exists_nested (h : 2 * more < tokens.length) :
    ∃ value, op.nested tokens more = some value := by
  induction more with
  | zero =>
    rw [nested, List.getElem?_eq_getElem h]
    exact ⟨_, rfl⟩
  | succ more ih =>
    obtain ⟨left, hLeft⟩ := ih (by omega)
    have hOperator : 2 * more + 1 < tokens.length := by omega
    have hOperand : 2 * more + 2 < tokens.length := by omega
    rw [nested, hLeft, List.getElem?_eq_getElem hOperator, List.getElem?_eq_getElem hOperand]
    exact ⟨_, rfl⟩

section Rules

/-- The operations over one operand more that begin with the given one. -/
def extend (op : Operation V) (tokens : List Token) (stop : Nat) (d : Derivation V) :
    List (Derivation V) :=
  (op.operator.taken tokens d.next stop).flatMap fun o =>
    (op.operand.taken tokens o.next stop).map fun a => ⟨op.join [d.value, o.value, a.value], a.next⟩

theorem operandRule_items (op : Operation V) (g : Grammar V) (depth : Nat) (hStop : 0 < stop) :
    op.operandRule.items? (g.items? tokens (depth + 1)) 0 stop =
      some (((op.operand.taken tokens 0 stop).map fun a => ⟨op.single [a.value], a.next⟩).map .ok) := by
  rw [List.map_map, List.map_eq_flatMap]
  refine Rule.items?_ok rfl rfl hStop ?_ fun _ _ => rfl
  exact congrArg some (op.operand.items_eq_map_taken tokens 0 stop)

theorem joinRule_items {g : Grammar V} {depth : Nat} (hStop : 0 < stop)
    {derivations : List (Derivation V)} (h : g.items? tokens (depth + 1) (.nonTerminal 0) 0 stop
      (some op.operator) = some (derivations.map .ok)) :
    op.joinRule.items? (g.items? tokens (depth + 1)) 0 stop =
      some ((derivations.flatMap (op.extend tokens stop)).map .ok) := by
  have hTaken (t : Terminal) (d : Derivation V) :
      g.items? tokens (depth + 1) (.terminal t) d.next stop none =
        some ((t.taken tokens d.next stop).map .ok) :=
    congrArg some (t.items_eq_map_taken tokens d.next stop)
  rw [List.map_flatMap]
  refine Rule.items?_ok rfl rfl hStop h fun d _ => ?_
  unfold extend
  rw [List.map_flatMap]
  refine Rule.follow_cons_ok (hTaken op.operator d) fun o _ => ?_
  rw [List.map_map, List.map_eq_flatMap]
  exact Rule.follow_cons_ok (hTaken op.operand o) fun a _ => rfl

end Rules

section Rungs

def rung (op : Operation V) (tokens : List Token) (more : Nat) : Derivation V :=
  ⟨(op.nested tokens more).getD (OfToken.ofToken ⟨op.operand, "", 0, 0, 1, 1⟩), 2 * more + 1⟩

theorem rung_zero {token : Token} (hToken : tokens[0]? = some token) :
    op.rung tokens 0 = ⟨op.single [OfToken.ofToken token], 1⟩ := by
  rw [rung, nested, hToken]
  rfl

theorem rung_succ {o a : Token} (hOperator : tokens[2 * more + 1]? = some o)
    (hOperand : tokens[2 * more + 2]? = some a) : op.rung tokens (more + 1) =
      ⟨op.join [(op.rung tokens more).value, OfToken.ofToken o, OfToken.ofToken a], 2 * more + 3⟩ := by
  have hLength := (List.getElem?_eq_some_iff.mp hOperator).1
  obtain ⟨left, hLeft⟩ : ∃ left, op.nested tokens more = some left := exists_nested (by omega)
  simp only [rung, nested, hLeft, hOperator, hOperand, Option.bind_eq_bind, Option.bind_some,
    Option.getD_some]
  rfl

theorem rungs_next_ne {size : Nat} (hSize : size + 1 ≠ 2 * count) (hLess : 2 * count ≤ size + 1) :
    ∀ d ∈ (List.range count).map (op.rung tokens), d.next ≠ size := by
  intro d hd
  obtain ⟨more, hMore, rfl⟩ := List.mem_map.mp hd
  have := List.mem_range.mp hMore
  change 2 * more + 1 ≠ size
  omega

theorem map_taken_eq (hCount : IsGreatest (op.counts tokens stop) count) :
    ((op.operand.taken tokens 0 stop).map fun a => (⟨op.single [a.value], a.next⟩ : Derivation V)) =
      if 0 < count then [op.rung tokens 0] else [] := by
  split
  · rename_i hSome
    obtain ⟨hWithin, hBegins⟩ := hCount.1
    obtain ⟨token, hToken, hOf⟩ := begins_one_iff.mp (hBegins.mono hSome)
    rw [Terminal.taken_eq_singleton (by omega) hToken hOf, rung_zero hToken]
    rfl
  · rename_i hNone
    rw [List.map_eq_nil_iff, List.eq_nil_iff_forall_not_mem]
    intro d hd
    obtain ⟨hStop, -, hToken⟩ := Terminal.mem_taken hd
    exact hNone (hCount.2 ⟨hStop, begins_one_iff.mpr hToken⟩)

theorem extend_rung (hCount : IsGreatest (op.counts tokens stop) count) (hMore : more < count) :
    op.extend tokens stop (op.rung tokens more) =
      if more + 1 < count then [op.rung tokens (more + 1)] else [] := by
  obtain ⟨hWithin, hBegins⟩ := hCount.1
  split
  · rename_i hFurther
    obtain ⟨-, ⟨o, hOperator, ho⟩, a, hOperand, ha⟩ := begins_succ_iff.mp (hBegins.mono hFurther)
    have hFirst : (op.operator.taken tokens (2 * more + 1) stop : List (Derivation V)) = _ :=
      Terminal.taken_eq_singleton (by omega) hOperator ho
    have hSecond : (op.operand.taken tokens (2 * more + 2) stop : List (Derivation V)) = _ :=
      Terminal.taken_eq_singleton (by omega) hOperand ha
    rw [extend, rung_succ hOperator hOperand, rung, hFirst, List.flatMap_singleton, hSecond]
    rfl
  · rename_i hLast
    rw [List.eq_nil_iff_forall_not_mem]
    intro d hd
    obtain ⟨o, ho, hd⟩ := List.mem_flatMap.mp hd
    obtain ⟨a, ha, -⟩ := List.mem_map.mp hd
    obtain ⟨-, hNext, hOperator⟩ := Terminal.mem_taken ho
    obtain ⟨hStop, -, hOperand⟩ := Terminal.mem_taken ha
    rw [hNext] at hStop hOperand
    have hLonger : op.Begins tokens (more + 2) :=
      begins_succ_iff.mpr ⟨hBegins.mono hMore, hOperator, hOperand⟩
    exact hLast (hCount.2 ⟨by change 2 * more + 1 + 1 < stop at hStop; omega, hLonger⟩)

theorem rungs_eq (hCount : IsGreatest (op.counts tokens stop) count) (hLess : less ≤ count)
    (hMost : count ≤ less + 1) :
    (if 0 < count then [op.rung tokens 0] else []) ++
      ((List.range less).map (op.rung tokens)).flatMap (op.extend tokens stop) =
        (List.range count).map (op.rung tokens) := by
  have hExtended (fewer : Nat) (hFewer : fewer + 1 ≤ count) :
      (List.range fewer).flatMap (fun more => op.extend tokens stop (op.rung tokens more)) =
        (List.range fewer).map (op.rung tokens ∘ Nat.succ) := by
    rw [List.map_eq_flatMap]
    refine List.flatMap_congr fun more hMore => ?_
    have := List.mem_range.mp hMore
    rw [extend_rung hCount (by omega), if_pos (by omega)]
    rfl
  rw [List.flatMap_map]
  cases count with
  | zero =>
    obtain rfl := Nat.le_zero.mp hLess
    rfl
  | succ fewer =>
    rw [if_pos (Nat.succ_pos fewer), List.singleton_append, List.range_succ_eq_map, List.map_cons,
      List.map_map, ← hExtended fewer (Nat.le_refl _)]
    rcases (by omega : less = fewer ∨ less = fewer + 1) with rfl | rfl
    · rfl
    · rw [List.range_succ, List.flatMap_append, List.flatMap_singleton, extend_rung hCount hLess,
        if_neg (Nat.lt_irrefl _), List.append_nil]

end Rungs

section Enumeration

theorem items?_of_merged {depth : Nat} (hStop : 0 < stop) (hint : Option Terminal)
    {first later : List (Derivation V)}
    (hFirst : op.operandRule.items? (op.grammar.items? tokens depth) 0
      (op.nonTerminal.bound tokens 0 stop hint) = some (first.map .ok))
    (hLater : op.joinRule.items? (op.grammar.items? tokens depth) 0
      (op.nonTerminal.bound tokens 0 stop hint) = some (later.map .ok)) :
    op.grammar.items? tokens (depth + 1) (.nonTerminal 0) 0 stop hint =
      some ((op.alternation.merge [first, later]).map .ok) := by
  have hRules : op.nonTerminal.rules.mapM
      (·.items? (op.grammar.items? tokens depth) 0 (op.nonTerminal.bound tokens 0 stop hint)) =
        some [first.map .ok, later.map .ok] := by
    simp only [nonTerminal, List.mapM_cons, List.mapM_nil] at hFirst hLater ⊢
    rw [hFirst, hLater]
    rfl
  rw [Grammar.items?]
  change (if 0 < stop then op.nonTerminal.rules.mapM _ >>= _ else _) = _
  rw [if_pos hStop, hRules, ← op.alternation.merge_map]
  rfl

/-- The two rules over a range, merged, give the operations that the range begins with. The induction is
on the range, since the second rule looks for operations before the last operator of the range. -/
theorem exists_merged_items (hCount : IsGreatest (op.counts tokens stop) count) {depth : Nat}
    (hDepth : stop < depth) : ∃ first later : List (Derivation V),
      op.operandRule.items? (op.grammar.items? tokens depth) 0 stop = some (first.map .ok) ∧
      op.joinRule.items? (op.grammar.items? tokens depth) 0 stop = some (later.map .ok) ∧
      op.alternation.merge [first, later] = (List.range count).map (op.rung tokens) := by
  induction stop using Nat.strong_induction_on generalizing count depth with
  | _ stop ih =>
    rcases Nat.eq_zero_or_pos stop with rfl | hStop
    · have hNone : count = 0 := by
        have := hCount.1.1
        omega
      subst hNone
      exact ⟨[], [], rfl, rfl, op.alternation.merge_pair [] [] (Nat.zero_le 1)⟩
    · obtain ⟨depth, rfl⟩ := Nat.exists_eq_add_of_le' (Nat.lt_of_le_of_lt (Nat.zero_le stop) hDepth)
      obtain ⟨less, hLess⟩ := op.exists_isGreatest tokens (lastOccurrence tokens 0 stop op.operator)
      obtain ⟨hFewer, hMost⟩ := counts_lastOccurrence hStop hCount hLess
      have hShorter : lastOccurrence tokens 0 stop op.operator < stop :=
        lastOccurrence_lt op.operator hStop
      have hDeeper : lastOccurrence tokens 0 stop op.operator < depth := by omega
      obtain ⟨first, later, hFirst, hLater, hMerged⟩ := ih _ hShorter hLess hDeeper
      have hOperations : op.grammar.items? tokens (depth + 1) (.nonTerminal 0) 0 stop
          (some op.operator) = some (((List.range less).map (op.rung tokens)).map .ok) :=
        hMerged ▸ items?_of_merged hStop (some op.operator) hFirst hLater
      refine ⟨_, _, operandRule_items op _ depth hStop, joinRule_items hStop hOperations, ?_⟩
      rw [op.alternation.merge_pair, map_taken_eq hCount, rungs_eq hCount hFewer hMost]
      rw [map_taken_eq hCount]
      split <;> simp

theorem items?_rungs (hCount : IsGreatest (op.counts tokens stop) count) :
    op.grammar.items? tokens (stop + 2) (.nonTerminal 0) 0 stop none =
      some (((List.range count).map (op.rung tokens)).map .ok) := by
  obtain ⟨first, later, hFirst, hLater, hMerged⟩ := exists_merged_items hCount (Nat.lt_succ_self stop)
  rcases Nat.eq_zero_or_pos stop with rfl | hStop
  · have hNone : count = 0 := by
      have := hCount.1.1
      omega
    subst hNone
    rfl
  · rw [items?_of_merged hStop none hFirst hLater, hMerged]

end Enumeration

end Operation

namespace Parser

variable {V : Type}

theorem outcome_append_incomplete {p : Parser V} (hLimit : p.config.maxAttempts = none) {size : Nat}
    {incomplete : List (Derivation V)} (h : ∀ d ∈ incomplete, d.next ≠ size) (attempts : Nat)
    (items : List (Item V)) : p.outcome size attempts (incomplete.map .ok ++ items) =
      p.outcome size (attempts + incomplete.length) items := by
  induction incomplete generalizing attempts with
  | nil => rfl
  | cons d incomplete ih =>
    rw [List.forall_mem_cons] at h
    have hDecide : p.decide? size (attempts + 1) (some (.ok d)) = none :=
      decide?_eq_none_iff.mpr ⟨⟨d, rfl, h.1⟩, fun limit hSome => by rw [hLimit] at hSome; cases hSome⟩
    rw [List.map_cons, List.cons_append, outcome, hDecide, Option.getD_none, ih h.2, List.length_cons]
    congr 1
    omega

end Parser

namespace Operation

variable {V : Type} [OfToken V]

/-- Whatever the tokens, the derivations that are enumerated are the operations over one, two, and all of
the operands that the tokens begin with, nested to the left. A parse without a limit succeeds with the last
one when nothing stands behind it. -/
theorem nests_left (op : Operation V) (tokens : List Token) :
    (∀ config, ∃ builder, ({ config } : GrammarBuilder V).performAll op.calls = .ok builder ∧
      builder.build = .ok op.grammar) ∧
    ∃ count, IsGreatest {n | op.Begins tokens n} count ∧
    (∃ source items, (∀ limits, (Parser.mk op.grammar limits).stream tokens = .ok source) ∧
      source.Enumerates op.grammar tokens items ∧ items.length = count ∧
      ∀ k < count, ∃ value, op.nested tokens k = some value ∧
        items[k]? = some (.ok ⟨value, 2 * k + 1⟩)) ∧
    (tokens.length + 1 = 2 * count → ∃ value, op.nested tokens (count - 1) = some value ∧
      (Parser.mk op.grammar {}).Returns tokens (.ok ⟨value, count⟩)) ∧
    (tokens.length + 1 ≠ 2 * count →
      (Parser.mk op.grammar {}).Returns tokens (.error (.noDerivation count))) := by
  refine ⟨op.build_calls, ?_⟩
  obtain ⟨count, hCount⟩ := op.exists_isGreatest tokens tokens.length
  have hWithin := hCount.1.1
  have hNested (k : Nat) (hk : k < count) : ∃ value, op.nested tokens k = some value ∧
      op.rung tokens k = ⟨value, 2 * k + 1⟩ := by
    obtain ⟨value, hValue⟩ : ∃ value, op.nested tokens k = some value := exists_nested (by omega)
    exact ⟨value, hValue, by rw [rung, hValue, Option.getD_some]⟩
  obtain ⟨source, hSource, hItems⟩ := op.grammar.lists_items? _ (items?_rungs hCount)
  have hReturns := Parser.returns_outcome (p := ⟨op.grammar, {}⟩) hSource hItems
  refine ⟨count, ⟨hCount.1.2, fun n hn => hCount.2 ⟨hn.le_length, hn⟩⟩,
    ⟨source, _, fun _ => hSource, hItems, ?_, fun k hk => ?_⟩, fun hWhole => ?_, fun hMore => ?_⟩
  · rw [List.length_map, List.length_map, List.length_range]
  · obtain ⟨value, hValue, hRung⟩ := hNested k hk
    refine ⟨value, hValue, ?_⟩
    rw [List.getElem?_map, List.getElem?_map, List.getElem?_range hk, Option.map_some, Option.map_some,
      hRung]
  · obtain ⟨fewer, rfl⟩ := Nat.exists_eq_add_of_le' (by omega : 1 ≤ count)
    obtain ⟨value, hValue, hRung⟩ := hNested fewer (Nat.lt_succ_self fewer)
    refine ⟨value, hValue, ?_⟩
    rw [List.range_succ, List.map_append, List.map_append, Parser.outcome_append_incomplete rfl
      (rungs_next_ne (by omega) (by omega))] at hReturns
    have hNext : 2 * fewer + 1 = tokens.length := by omega
    simpa [Parser.outcome, Parser.decide?, hRung, hNext] using hReturns
  · rw [← List.append_nil (List.map _ _), Parser.outcome_append_incomplete rfl
      (rungs_next_ne hMore (by omega))] at hReturns
    simpa [Parser.outcome] using hReturns

end Operation

end Lexigram
