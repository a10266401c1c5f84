import Mathlib.Algebra.Order.Field.Power
import Mathlib.Algebra.Order.Ring.Rat
import Mathlib.Tactic.FieldSimp
import Mathlib.Tactic.Linarith
import Mathlib.Tactic.NormNum
import Mathlib.Tactic.Positivity
import Mathlib.Tactic.Ring
import Lexigram.Decimal.Float64

/-! # Rounding

A decimal rounds to at most one number of double precision. The shortest decimal of such a number
rounds to that number, so no two numbers have the same one.
-/

namespace Lexigram

def Decimal.value (d : Decimal) : ℚ :=
  d.coefficient * 10 ^ d.exponent

theorem Decimal.value_strip (fuel : Nat) (d : Decimal) : (strip fuel d).value = d.value := by
  induction fuel generalizing d with
  | zero => rfl
  | succ fuel ih =>
    rw [strip]
    split
    · rename_i h
      have hTen : d.coefficient = d.coefficient / 10 * 10 := by
        simp only [Bool.and_eq_true, decide_eq_true_eq] at h
        omega
      have hCast : (d.coefficient : ℚ) = (d.coefficient / 10 : ℕ) * 10 := by exact_mod_cast hTen
      rw [ih, value, value, zpow_add_one₀ (by norm_num), hCast]
      ring
    · rfl

namespace Binary

variable {b b' : Binary} {d : Decimal}

def value (b : Binary) : ℚ :=
  b.significand * 2 ^ b.exponent

/-- A quarter of the distance between neighbours with this exponent. -/
def quarter (b : Binary) : ℚ :=
  2 ^ (b.exponent - 2)

def low (b : Binary) : ℚ :=
  b.lowQuarters * b.quarter

def high (b : Binary) : ℚ :=
  b.highQuarters * b.quarter

theorem quarter_pos (b : Binary) : 0 < b.quarter :=
  zpow_pos (by norm_num) _

theorem value_eq (b : Binary) : b.value = 4 * b.significand * b.quarter := by
  rw [value, quarter, zpow_sub₀ (by norm_num)]
  norm_num
  ring

theorem high_eq (b : Binary) : b.high = b.value + 2 * b.quarter := by
  rw [high, value_eq, highQuarters]
  push_cast
  ring

theorem low_eq (h : 0 < b.significand) :
    b.low = b.value - (if b.closeBelow then 1 else 2) * b.quarter := by
  rw [low, value_eq, lowQuarters]
  split
  · rw [Nat.cast_sub (by omega)]
    push_cast
    ring
  · rw [Nat.cast_sub (by omega)]
    push_cast
    ring

section Scaling

theorem zpow_mul_pow_toNat {x : ℚ} (hx : x ≠ 0) (e : Int) : x ^ e * x ^ (-e).toNat = x ^ e.toNat := by
  rw [← zpow_natCast, ← zpow_natCast, ← zpow_add₀ hx]
  congr 1
  omega

theorem compareScaled_eq (a : Nat) (e : Int) (b : Nat) (f : Int) :
    compareScaled a e b f = compare ((a : ℚ) * 10 ^ e) ((b : ℚ) * 2 ^ f) := by
  have hTen := zpow_mul_pow_toNat (x := 10) (by norm_num) e
  have hTwo := zpow_mul_pow_toNat (x := 2) (by norm_num) f
  have hScale : (0 : ℚ) < 10 ^ (-e).toNat * 2 ^ (-f).toNat := by positivity
  have hLeft : ((a * 10 ^ e.toNat * 2 ^ (-f).toNat : ℕ) : ℚ) =
      a * 10 ^ e * (10 ^ (-e).toNat * 2 ^ (-f).toNat) := by
    push_cast
    rw [← hTen]
    ring
  have hRight : ((b * 2 ^ f.toNat * 10 ^ (-e).toNat : ℕ) : ℚ) =
      b * 2 ^ f * (10 ^ (-e).toNat * 2 ^ (-f).toNat) := by
    push_cast
    rw [← hTwo]
    ring
  rw [compareScaled, Nat.pow_eq, Nat.pow_eq, Nat.pow_eq, Nat.pow_eq, ← cmp_eq_compare, ← cmp_eq_compare,
    ← Nat.strictMono_cast.cmp_map_eq (β := ℚ), hLeft, hRight, cmp_mul_pos_right hScale]

end Scaling

theorem covers_iff : b.covers d = true ↔
    if b.significand % 2 = 0 then b.low ≤ d.value ∧ d.value ≤ b.high
    else b.low < d.value ∧ d.value < b.high := by
  rw [covers, compareScaled_eq, compareScaled_eq]
  change (if _ then _ else _) = true ↔ _
  split
  · simp only [Bool.and_eq_true, bne_iff_ne, ne_eq, compare_lt_iff_lt, compare_gt_iff_gt, not_lt]
    rfl
  · simp only [Bool.and_eq_true, beq_iff_eq, compare_lt_iff_lt, compare_gt_iff_gt]
    rfl

theorem covers_of_between (hLow : b.low < d.value) (hHigh : d.value < b.high) : b.covers d = true := by
  rw [covers_iff]
  split
  · exact ⟨hLow.le, hHigh.le⟩
  · exact ⟨hLow, hHigh⟩

theorem covers_congr {d' : Decimal} (h : d.value = d'.value) : b.covers d = b.covers d' := by
  rw [Bool.eq_iff_iff, covers_iff, covers_iff, h]

theorem units_bounds (b : Binary) (e : Int) :
    b.units e * (10 : ℚ) ^ e ≤ b.value ∧ b.value < (b.units e + 1) * (10 : ℚ) ^ e := by
  have hTen := zpow_mul_pow_toNat (x := 10) (by norm_num) e
  have hTwo := zpow_mul_pow_toNat (x := 2) (by norm_num) b.exponent
  have hScale : (0 : ℚ) < 2 ^ (-b.exponent).toNat * 10 ^ (-e).toNat := by positivity
  have hPositive : 0 < 2 ^ (-b.exponent).toNat * 10 ^ e.toNat := by positivity
  have hUnits : b.units e = b.significand * 2 ^ b.exponent.toNat * 10 ^ (-e).toNat /
      (2 ^ (-b.exponent).toNat * 10 ^ e.toNat) := rfl
  generalize b.units e = n at hUnits
  have hLow : n * (2 ^ (-b.exponent).toNat * 10 ^ e.toNat) ≤
      b.significand * 2 ^ b.exponent.toNat * 10 ^ (-e).toNat := by
    rw [hUnits]
    exact Nat.div_mul_le_self _ _
  have hHigh : b.significand * 2 ^ b.exponent.toNat * 10 ^ (-e).toNat <
      (n + 1) * (2 ^ (-b.exponent).toNat * 10 ^ e.toNat) := by
    rw [hUnits, mul_comm (_ + 1)]
    exact Nat.lt_mul_div_succ _ hPositive
  have hLow : (n : ℚ) * (2 ^ (-b.exponent).toNat * 10 ^ e.toNat) ≤
      b.significand * 2 ^ b.exponent.toNat * 10 ^ (-e).toNat := by exact_mod_cast hLow
  have hHigh : (b.significand : ℚ) * 2 ^ b.exponent.toNat * 10 ^ (-e).toNat <
      (n + 1) * (2 ^ (-b.exponent).toNat * 10 ^ e.toNat) := by exact_mod_cast hHigh
  rw [← hTen, ← hTwo] at hLow hHigh
  constructor
  · refine le_of_mul_le_mul_right ?_ hScale
    calc n * (10 : ℚ) ^ e * (2 ^ (-b.exponent).toNat * 10 ^ (-e).toNat)
      _ = n * (2 ^ (-b.exponent).toNat * (10 ^ e * 10 ^ (-e).toNat)) := by ring
      _ ≤ _ := hLow
      _ = b.value * (2 ^ (-b.exponent).toNat * 10 ^ (-e).toNat) := by
        rw [value]
        ring
  · refine lt_of_mul_lt_mul_right ?_ hScale.le
    calc b.value * (2 ^ (-b.exponent).toNat * 10 ^ (-e).toNat)
      _ = b.significand * (2 ^ b.exponent * 2 ^ (-b.exponent).toNat) * 10 ^ (-e).toNat := by
        rw [value]
        ring
      _ < _ := hHigh
      _ = (n + 1) * (10 : ℚ) ^ e * (2 ^ (-b.exponent).toNat * 10 ^ (-e).toNat) := by ring

section Search

variable {tie : Tie} {e : Int}

theorem covers_of_onGrid? (h : b.onGrid? tie e = some d) : b.covers d = true := by
  rw [onGrid?] at h
  split at h
  · rename_i hBelow hAbove
    cases h
    split
    · exact hAbove
    · exact hBelow
  · rename_i hBelow _
    cases h
    exact hBelow
  · rename_i _ hAbove
    cases h
    exact hAbove
  · cases h

theorem onGrid?_isSome (h : b.covers ⟨b.units e, e⟩ = true ∨ b.covers ⟨b.units e + 1, e⟩ = true) :
    (b.onGrid? tie e).isSome = true := by
  rw [onGrid?]
  split
  · rfl
  · rfl
  · rfl
  · rename_i hBelow hAbove
    rw [hBelow, hAbove] at h
    cases h <;> contradiction

theorem covers_search {fuel i : Nat} (hFuel : i < fuel) (h : (b.onGrid? tie (e - i)).isSome = true) :
    b.covers (b.search tie fuel e) = true := by
  induction fuel generalizing e i with
  | zero => exact absurd hFuel (Nat.not_lt_zero i)
  | succ fuel ih =>
    rw [search]
    split
    · rename_i hHit
      exact covers_of_onGrid? hHit
    · rename_i hMiss
      cases i with
      | zero =>
        rw [Nat.cast_zero, Int.sub_zero, hMiss] at h
        cases h
      | succ i =>
        refine ih (Nat.lt_of_succ_lt_succ hFuel) ?_
        rwa [show e - 1 - (i : Int) = e - ((i + 1 : Nat) : Int) by push_cast; ring]

theorem units_leadingExponent {fuel : Nat} {e' : Int} (h : b.units e' ≠ 0) (hLe : e' ≤ e)
    (hFuel : e < e' + fuel) : b.units (b.leadingExponent fuel e) ≠ 0 := by
  induction fuel generalizing e with
  | zero =>
    rw [Nat.cast_zero] at hFuel
    omega
  | succ fuel ih =>
    rw [leadingExponent]
    split
    · rename_i hZero
      have hOther : e' ≠ e := by
        rintro rfl
        exact h hZero
      exact ih (by omega) (by omega)
    · assumption

end Search

/-- The numbers of double precision: 53 bits, of which the first is set unless the exponent is the least
one. Where the exponent changes, the number below is close. -/
structure IsDouble (b : Binary) : Prop where
  positive : 0 < b.significand
  bounded : b.significand < 2 ^ 53
  least : -1074 ≤ b.exponent
  normal : -1074 < b.exponent → 2 ^ 52 ≤ b.significand
  close : b.closeBelow = true ↔ b.significand = 2 ^ 52 ∧ -1074 < b.exponent

namespace IsDouble

theorem ten_zpow_le_two_zpow : (10 : ℚ) ^ (-324 : Int) ≤ 2 ^ (-1074 : Int) := by
  have hPowers : ((2 : ℚ) ^ 179) ^ 6 ≤ (10 ^ 54) ^ 6 :=
    pow_le_pow_left₀ (by positivity) (by norm_num) 6
  rw [← pow_mul, ← pow_mul] at hPowers
  rw [zpow_neg, zpow_neg]
  exact inv_anti₀ (by positivity) hPowers

theorem least_le_value (h : b.IsDouble) : (10 : ℚ) ^ (-324 : Int) ≤ b.value := by
  have hSignificand : (1 : ℚ) ≤ b.significand := by exact_mod_cast h.positive
  calc (10 : ℚ) ^ (-324 : Int)
    _ ≤ 2 ^ (-1074 : Int) := ten_zpow_le_two_zpow
    _ ≤ 2 ^ b.exponent := zpow_le_zpow_right₀ (by norm_num) h.least
    _ ≤ b.value := le_mul_of_one_le_left (zpow_pos (by norm_num) _).le hSignificand

theorem leading_le_value (h : b.IsDouble) : (10 : ℚ) ^ b.leadingExponent 633 308 ≤ b.value := by
  have hLeast : b.units (-324) ≠ 0 := by
    intro hZero
    have hBound := (units_bounds b (-324)).2
    rw [hZero, Nat.cast_zero, zero_add, one_mul] at hBound
    exact absurd h.least_le_value (not_le.mpr hBound)
  have hUnits : b.units (b.leadingExponent 633 308) ≠ 0 :=
    units_leadingExponent hLeast (by norm_num) (by norm_num)
  have hOne : (1 : ℚ) ≤ b.units (b.leadingExponent 633 308) := by
    exact_mod_cast Nat.one_le_iff_ne_zero.mpr hUnits
  exact (le_mul_of_one_le_left (zpow_pos (by norm_num) _).le hOne).trans (units_bounds b _).1

/-- On a grid that is finer than the gaps between the numbers, one of the neighbours is a hit. -/
theorem onGrid?_isSome (h : b.IsDouble) {tie : Tie} {e : Int}
    (hFine : (10 : ℚ) ^ e < (if b.closeBelow then 2 else 4) * b.quarter) :
    (b.onGrid? tie e).isSome = true := by
  obtain ⟨hBelow, hAbove⟩ := units_bounds b e
  have hQuarter := b.quarter_pos
  have hLow := low_eq h.positive
  have hHigh := b.high_eq
  apply Binary.onGrid?_isSome
  by_cases hNear : (b.units e + 1) * (10 : ℚ) ^ e < b.high
  · refine .inr (covers_of_between ?_ ?_)
    · rw [Decimal.value]
      push_cast
      split at hLow <;> linarith
    · rw [Decimal.value]
      exact_mod_cast hNear
  · -- The upper neighbour is too far away, so the lower one is near, and the gap below is a whole one.
    rw [add_mul, one_mul] at hNear hAbove
    cases hClose : b.closeBelow with
    | true =>
      rw [hClose, if_pos rfl] at hFine
      linarith
    | false =>
      rw [hClose, if_neg Bool.false_ne_true] at hFine hLow
      refine .inl (covers_of_between ?_ ?_)
      · rw [Decimal.value]
        linarith
      · rw [Decimal.value]
        linarith

theorem fine (h : b.IsDouble) : (10 : ℚ) ^ (b.leadingExponent 633 308 - 16) <
    (if b.closeBelow then 2 else 4) * b.quarter := by
  have hLeading := h.leading_le_value
  have hQuarter := b.quarter_pos
  have hBounded : (b.significand : ℚ) < 2 ^ 53 := by exact_mod_cast h.bounded
  rw [value_eq] at hLeading
  rw [zpow_sub₀ (by norm_num), div_lt_iff₀ (by norm_num)]
  split
  · rename_i hClose
    have hLeast : (b.significand : ℚ) = 2 ^ 52 := by exact_mod_cast (h.close.mp hClose).1
    rw [hLeast] at hLeading
    norm_num at hLeading ⊢
    linarith
  · have hProduct := mul_lt_mul_of_pos_right hBounded hQuarter
    norm_num at hProduct ⊢
    linarith

/-- Seventeen digits are enough. -/
theorem covers_shortest (h : b.IsDouble) (tie : Tie) : b.covers (b.shortest tie) = true := by
  rw [shortest, covers_congr (Decimal.value_strip _ _)]
  exact covers_search (i := 16) (by norm_num) (h.onGrid?_isSome h.fine)

theorem bounds_of_covers (h : b.covers d = true) : b.low ≤ d.value ∧ d.value ≤ b.high ∧
    (b.significand % 2 = 1 → b.low < d.value ∧ d.value < b.high) := by
  rw [covers_iff] at h
  split at h
  · exact ⟨h.1, h.2, fun hOdd => by omega⟩
  · exact ⟨h.1.le, h.2.le, fun _ => h⟩

theorem value_pos_of_covers (h : b.IsDouble) (hCovers : b.covers d = true) : 0 < d.value := by
  have hSignificand : (1 : ℚ) ≤ b.significand := by exact_mod_cast h.positive
  have hQuarter := b.quarter_pos
  refine lt_of_lt_of_le ?_ (bounds_of_covers hCovers).1
  rw [low_eq h.positive, value_eq]
  split <;> nlinarith

theorem coefficient_pos_of_covers (h : b.IsDouble) (hCovers : b.covers d = true) : 0 < d.coefficient := by
  have hValue := h.value_pos_of_covers hCovers
  rw [Decimal.value] at hValue
  rw [Nat.pos_iff_ne_zero]
  intro hZero
  rw [hZero, Nat.cast_zero, zero_mul] at hValue
  exact lt_irrefl _ hValue

theorem not_covers_of_lt_significand (h' : b'.IsDouble) (hExponent : b.exponent = b'.exponent)
    (hLt : b.significand < b'.significand) (hCovers : b.covers d = true) : b'.covers d = false := by
  rw [← Bool.not_eq_true]
  intro hCovers'
  obtain ⟨-, hHigh, hOdd⟩ := bounds_of_covers hCovers
  obtain ⟨hLow, -, hOdd'⟩ := bounds_of_covers hCovers'
  have hQuarter := b.quarter_pos
  have hQuarters : b'.quarter = b.quarter := by rw [quarter, quarter, hExponent]
  have hLowEq : b'.value - 2 * b.quarter ≤ b'.low := by
    rw [low_eq h'.positive, hQuarters]
    split <;> linarith
  have hHighEq := b.high_eq
  rw [value_eq] at hLowEq hHighEq
  rw [hQuarters] at hLowEq
  have hStep {k : Nat} (hk : b.significand + k ≤ b'.significand) :
      (b.significand : ℚ) * b.quarter + k * b.quarter ≤ b'.significand * b.quarter := by
    rw [← add_mul]
    exact mul_le_mul_of_nonneg_right (by exact_mod_cast hk) hQuarter.le
  have hOne := hStep (k := 1) hLt
  rw [Nat.cast_one, one_mul] at hOne
  rcases Nat.mod_two_eq_zero_or_one b.significand with hEven | hOddHere
  · rcases Nat.mod_two_eq_zero_or_one b'.significand with hEven' | hOddThere
    · have hTwo := hStep (k := 2) (by omega)
      push_cast at hTwo
      linarith
    · linarith [(hOdd' hOddThere).1]
  · linarith [(hOdd hOddHere).2]

theorem not_covers_of_lt_exponent (h : b.IsDouble) (h' : b'.IsDouble) (hLt : b.exponent < b'.exponent)
    (hCovers : b.covers d = true) : b'.covers d = false := by
  rw [← Bool.not_eq_true]
  intro hCovers'
  obtain ⟨-, hHigh, hOdd⟩ := bounds_of_covers hCovers
  obtain ⟨hLow, -, -⟩ := bounds_of_covers hCovers'
  have hQuarter := b.quarter_pos
  have hQuarters : 2 * b.quarter ≤ b'.quarter := by
    calc 2 * b.quarter
      _ = 2 ^ (b.exponent - 2 + 1) := by rw [quarter, zpow_add_one₀ (by norm_num), mul_comm]
      _ ≤ b'.quarter := zpow_le_zpow_right₀ (by norm_num) (by omega)
  have hBelow : d.value < (2 ^ 55 - 2) * b.quarter := by
    have hHighEq := b.high_eq
    rw [value_eq] at hHighEq
    rcases Nat.mod_two_eq_zero_or_one b.significand with hEven | hOddHere
    · have hBounded : b.significand + 2 ≤ 2 ^ 53 := by have := h.bounded; omega
      have hBounded : (b.significand : ℚ) + 2 ≤ 2 ^ 53 := by exact_mod_cast hBounded
      nlinarith
    · have hBounded : (b.significand : ℚ) + 1 ≤ 2 ^ 53 := by exact_mod_cast h.bounded
      nlinarith [(hOdd hOddHere).2]
  have hNormal : -1074 < b'.exponent := by
    have := h.least
    omega
  have hAbove : (2 ^ 54 - 1) * b'.quarter ≤ b'.low := by
    rw [low_eq h'.positive, value_eq]
    split
    · rename_i hClose
      have hLeast : (b'.significand : ℚ) = 2 ^ 52 := by exact_mod_cast (h'.close.mp hClose).1
      rw [hLeast]
      linarith
    · rename_i hNotClose
      have hOther : b'.significand ≠ 2 ^ 52 := fun hLeast => hNotClose (h'.close.mpr ⟨hLeast, hNormal⟩)
      have hMore : 2 ^ 52 + 1 ≤ b'.significand := by have := h'.normal hNormal; omega
      have hMore : (2 : ℚ) ^ 52 + 1 ≤ b'.significand := by exact_mod_cast hMore
      nlinarith
  linarith

theorem eq_of_covers (h : b.IsDouble) (h' : b'.IsDouble) (hCovers : b.covers d = true)
    (hCovers' : b'.covers d = true) : b = b' := by
  have hExponent : b.exponent = b'.exponent := by
    rcases lt_trichotomy b.exponent b'.exponent with hLt | hEq | hLt
    · rw [not_covers_of_lt_exponent h h' hLt hCovers] at hCovers'
      cases hCovers'
    · exact hEq
    · rw [not_covers_of_lt_exponent h' h hLt hCovers'] at hCovers
      cases hCovers
  have hSignificand : b.significand = b'.significand := by
    rcases lt_trichotomy b.significand b'.significand with hLt | hEq | hLt
    · rw [not_covers_of_lt_significand h' hExponent hLt hCovers] at hCovers'
      cases hCovers'
    · exact hEq
    · rw [not_covers_of_lt_significand h hExponent.symm hLt hCovers'] at hCovers
      cases hCovers
  have hClose : b.closeBelow = b'.closeBelow := by
    rw [Bool.eq_iff_iff, h.close, h'.close, hExponent, hSignificand]
  cases b
  cases b'
  cases hExponent
  cases hSignificand
  cases hClose
  rfl

end IsDouble

end Binary

namespace Float64

theorem isDouble_of_ofBits {bits : Nat} {negative : Bool} {b : Binary}
    (h : ofBits bits = .finite negative b) : b.IsDouble := by
  have hFraction : bits % fractions < 2 ^ 52 := Nat.mod_lt _ (by decide)
  have hExponent : bits / fractions % 2048 < 2048 := Nat.mod_lt _ (by decide)
  rw [ofBits] at h
  generalize bits % fractions = fraction at h hFraction
  generalize bits / fractions % 2048 = exponent at h hExponent
  split at h
  · split at h <;> cases h
  · split at h
    · split at h
      · cases h
      · cases h
        exact ⟨by dsimp only; omega, by dsimp only; omega, le_refl _, fun h => absurd h (lt_irrefl _),
          by simp⟩
    · cases h
      refine ⟨?_, ?_, ?_, ?_, ?_⟩
      all_goals simp only [fractions]
      · omega
      · omega
      · omega
      · omega
      · simp
        omega

def bits : Float64 → Nat
  | .finite negative b =>
    if b.significand < fractions then negative.toNat * 2048 * fractions + b.significand
    else (negative.toNat * 2048 + (b.exponent + 1075).toNat) * fractions + (b.significand - fractions)
  | .zero negative => negative.toNat * 2048 * fractions
  | .infinite _ | .nan => 0

theorem bits_ofBits {n : Nat} (hBits : n < 2 ^ 64) (hFinite : n / fractions % 2048 ≠ 2047) :
    bits (ofBits n) = n := by
  have hParts : n = (n / fractions / 2048 % 2 * 2048 + n / fractions % 2048) * fractions + n % fractions := by
    simp only [fractions]
    omega
  have hFraction : n % fractions < fractions := Nat.mod_lt _ (by decide)
  have hSign : (n / fractions / 2048 % 2 == 1).toNat = n / fractions / 2048 % 2 := by
    rcases Nat.mod_two_eq_zero_or_one (n / fractions / 2048) with h | h <;> rw [h] <;> rfl
  rw [ofBits, if_neg hFinite]
  generalize n % fractions = fraction at hParts hFraction
  generalize n / fractions % 2048 = exponent at hParts
  generalize n / fractions / 2048 % 2 = sign at hParts hSign
  split
  · rename_i hLeast
    split
    · rename_i hZero
      rw [bits, hSign, hParts, hLeast, hZero, Nat.add_zero, Nat.add_zero]
    · rw [bits, if_pos hFraction, hSign, hParts, hLeast, Nat.add_zero]
  · have hExponent : ((exponent : Int) - 1075 + 1075).toNat = exponent := by omega
    rw [bits, if_neg (Nat.not_lt.mpr (Nat.le_add_right _ _)), hSign, hExponent, Nat.add_sub_cancel_left,
      ← hParts]

theorem ofBits_injOn : Set.InjOn ofBits {n | n < 2 ^ 64 ∧ n / fractions % 2048 ≠ 2047} := by
  intro n hn n' hn' h
  rw [← bits_ofBits hn.1 hn.2, h, bits_ofBits hn'.1 hn'.2]

open Float.Model in
theorem exponent_ne_of_isFinite {x : Float} (h : x.isFinite = true) :
    x.toBits.toNat / fractions % 2048 ≠ 2047 := by
  intro hAll
  have hExponent : @UnpackedFloat.unpackExponent Format.binary64 x.toBits.toBitVec = -1#11 := by
    apply BitVec.eq_of_toNat_eq
    simpa [UnpackedFloat.unpackExponent, BitVec.extractLsb, Nat.shiftRight_eq_div_pow, fractions] using hAll
  change (UnpackedFloat.unpack Format.binary64 x.toBits.toBitVec).isFinite = true at h
  unfold UnpackedFloat.unpack at h
  dsimp only at h
  rw [hExponent, if_pos rfl] at h
  split at h <;> cases h

theorem ofFloat_injOn : Set.InjOn ofFloat {x | x.isFinite = true} := by
  intro x hx y hy h
  have hBits : x.toBits = y.toBits := UInt64.toNat_inj.mp (ofBits_injOn
    ⟨x.toBits.toNat_lt, exponent_ne_of_isFinite hx⟩ ⟨y.toBits.toNat_lt, exponent_ne_of_isFinite hy⟩ h)
  obtain ⟨⟨bits, _⟩⟩ := x
  obtain ⟨⟨bits', _⟩⟩ := y
  obtain rfl : bits = bits' := hBits
  rfl

end Float64

end Lexigram
