import Lexigram.Grammar.Stream

/-! # Bounds from hints

The last occurrence of a terminal in a range of tokens lies in the range, and no occurrence in the range
lies behind it.
-/

namespace Lexigram

theorem lastOccurrence_lt {tokens : List Token} {start stop : Nat} (terminal : Terminal)
    (h : start < stop) : lastOccurrence tokens start stop terminal < stop := by
  unfold lastOccurrence
  dsimp only
  split
  · rename_i back hBack
    have hBound := (List.findIdx?_eq_some_iff_getElem.mp hBack).1
    simp only [List.length_reverse, List.length_drop, List.length_take] at hBound ⊢
    omega
  · exact h

theorem le_lastOccurrence {tokens : List Token} {start stop place : Nat} {terminal : Terminal}
    {token : Token} (hStart : start ≤ place) (hStop : place < stop) (hToken : tokens[place]? = some token)
    (hOf : token.isOf terminal = true) : place ≤ lastOccurrence tokens start stop terminal := by
  have hLength := (List.getElem?_eq_some_iff.mp hToken).1
  have hWindow : ((tokens.take stop).drop start).length = min stop tokens.length - start := by
    rw [List.length_drop, List.length_take]
  have hAt : ((tokens.take stop).drop start).reverse[min stop tokens.length - 1 - place]? =
      some token := by
    rw [List.getElem?_reverse (by omega), List.getElem?_drop, List.getElem?_take_of_lt (by omega),
      ← hToken]
    congr 1
    omega
  unfold lastOccurrence
  dsimp only
  split
  · rename_i back hBack
    obtain ⟨hBound, -, hFirst⟩ := List.findIdx?_eq_some_iff_getElem.mp hBack
    have hLe : back ≤ min stop tokens.length - 1 - place := by
      apply Nat.not_lt.mp
      intro hLt
      have hNot := hFirst (min stop tokens.length - 1 - place) (by omega)
      obtain ⟨_, hGet⟩ := List.getElem?_eq_some_iff.mp hAt
      rw [hGet, hOf] at hNot
      exact hNot rfl
    rw [List.length_reverse, hWindow] at hBound
    omega
  · rename_i hNone
    have hNot := List.findIdx?_eq_none_iff.mp hNone token (List.mem_of_getElem? hAt)
    rw [hOf] at hNot
    cases hNot

theorem lastOccurrence_eq_or (tokens : List Token) (start stop : Nat) (terminal : Terminal) :
    lastOccurrence tokens start stop terminal = start ∨
      start ≤ lastOccurrence tokens start stop terminal ∧
      lastOccurrence tokens start stop terminal < stop ∧
      ∃ token, tokens[lastOccurrence tokens start stop terminal]? = some token ∧
        token.isOf terminal = true := by
  unfold lastOccurrence
  dsimp only
  split
  · rename_i back hBack
    obtain ⟨hBound, hOf, -⟩ := List.findIdx?_eq_some_iff_getElem.mp hBack
    have hPlace := hBound
    rw [List.length_reverse, List.length_drop, List.length_take] at hPlace
    rw [List.getElem_reverse, List.getElem_drop, List.getElem_take] at hOf
    exact .inr ⟨Nat.le_add_right start _, by rw [List.length_drop, List.length_take]; omega, _,
      List.getElem?_eq_getElem _, hOf⟩
  · exact .inl rfl

theorem lastOccurrence_le_max {tokens : List Token} {start stop : Nat} (terminal : Terminal) :
    lastOccurrence tokens start stop terminal ≤ max start stop := by
  rcases lastOccurrence_eq_or tokens start stop terminal with hStart | ⟨-, hStop, -⟩
  · omega
  · omega

theorem lastOccurrence_mono {tokens : List Token} {start stop stop' : Nat} (terminal : Terminal)
    (h : stop ≤ stop') :
    lastOccurrence tokens start stop terminal ≤ lastOccurrence tokens start stop' terminal := by
  rcases lastOccurrence_eq_or tokens start stop terminal with hEq | ⟨hStart, hStop, token, hToken, hOf⟩
  · rcases lastOccurrence_eq_or tokens start stop' terminal with hEq' | ⟨hStart, -⟩
    · omega
    · omega
  · exact le_lastOccurrence hStart (Nat.lt_of_lt_of_le hStop h) hToken hOf

namespace NonTerminal

variable {V : Type}

theorem bound_le (nt : NonTerminal V) {tokens : List Token} {start stop : Nat} (h : start < stop)
    (hint : Option Terminal) : nt.bound tokens start stop hint ≤ stop := by
  unfold bound
  split
  · rename_i terminal
    split
    · exact Nat.le_of_lt (lastOccurrence_lt terminal h)
    · exact Nat.le_refl stop
  · exact Nat.le_refl stop

theorem le_bound (nt : NonTerminal V) {tokens : List Token} {start stop place : Nat}
    {hint : Option Terminal} (hStop : place ≤ stop)
    (h : ∀ t, hint = some t → place ≤ lastOccurrence tokens start stop t) :
    place ≤ nt.bound tokens start stop hint := by
  unfold bound
  split
  · rename_i terminal
    split
    · exact h terminal rfl
    · exact hStop
  · exact hStop

theorem bound_le_max (nt : NonTerminal V) (tokens : List Token) (start stop : Nat)
    (hint : Option Terminal) : nt.bound tokens start stop hint ≤ max start stop := by
  unfold bound
  split
  · rename_i terminal
    split
    · exact lastOccurrence_le_max terminal
    · exact Nat.le_max_right start stop
  · exact Nat.le_max_right start stop

theorem bound_mono {nt nt' : NonTerminal V} (hPruning : nt.hintPruning = true → nt'.hintPruning = true)
    (tokens : List Token) {start stop stop' : Nat} (hStart : start < stop') (hStop : stop' ≤ stop)
    (hint : Option Terminal) : nt'.bound tokens start stop' hint ≤ nt.bound tokens start stop hint := by
  cases hint with
  | none => exact hStop
  | some terminal =>
    by_cases hNarrow : nt.hintPruning = true
    · simp only [bound, hNarrow, hPruning hNarrow, if_true]
      exact lastOccurrence_mono terminal hStop
    · refine Nat.le_trans (nt'.bound_le hStart (some terminal)) ?_
      simpa only [bound, hNarrow, Bool.false_eq_true, if_false] using hStop

end NonTerminal

namespace Rule

variable {V : Type} {rule : Rule V} {t : Terminal}

theorem terminal_mem_of_hint (h : rule.hint = some t) : .terminal t ∈ rule.symbols := by
  obtain ⟨symbol, hSymbol, hSome⟩ := List.exists_of_findSome?_eq_some h
  cases symbol with
  | terminal t' =>
    cases hSome
    exact hSymbol
  | nonTerminal index => cases hSome

theorem exists_hint (h : .terminal t ∈ rule.symbols) : ∃ hint, rule.hint = some hint := by
  apply Option.isSome_iff_exists.mp
  rw [hint, List.findSome?_isSome_iff]
  exact ⟨_, h, rfl⟩

end Rule

end Lexigram
