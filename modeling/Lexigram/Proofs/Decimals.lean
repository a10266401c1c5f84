import Lexigram.Decimal.Float64
import Lexigram.Proofs.Quoting
import Lexigram.Proofs.Rounding

/-! # Written decimals

However the point and the exponent are placed, the text of a decimal is a number of JSON, and tells which
number the decimal is. So it tells the number of double precision that it was written for.
-/

namespace Lexigram

open Json (Digits Whole Fraction Exponent Numeral)

theorem digitsValue_append (ds ds' : List Char) :
    digitsValue (ds ++ ds') = digitsValue ds * 10 ^ ds'.length + digitsValue ds' := by
  rw [digitsValue_eq, digitsValue_eq, digitsValue_eq, Nat.ofDigitChars_append,
    Nat.ofDigitChars_eq_ofDigitChars_zero, mul_comm]

theorem digits_zeros (n : Nat) : Digits (FloatFormat.zeros n) := by
  intro c hc
  rw [List.eq_of_mem_replicate hc]
  rfl

theorem digitsValue_zeros (n : Nat) : digitsValue (FloatFormat.zeros n) = 0 := by
  rw [digitsValue_eq, FloatFormat.zeros, Nat.ofDigitChars_replicate_zero, mul_zero]

/-! ## Spelling -/

def pointed (fraction : List Char) : List Char :=
  if fraction = [] then [] else '.' :: fraction

theorem pointed_of_ne {fraction : List Char} (h : fraction ≠ []) : pointed fraction = '.' :: fraction :=
  if_neg h

theorem pointed_injective : Function.Injective pointed := by
  intro fraction fraction' h
  unfold pointed at h
  split at h <;> split at h
  · simp_all
  · cases h
  · cases h
  · exact (List.cons.inj h).2

theorem fraction_pointed {fraction : List Char} (h : Digits fraction) : Fraction (pointed fraction) := by
  unfold pointed
  split
  · exact .absent
  · rename_i hNonempty
    exact .present hNonempty h

inductive Tail : Int → List Char → Prop
  | absent : Tail 0 []
  | present (e : Int) : Tail e ('e' :: (if e < 0 then '-' else '+') :: Nat.toDigits 10 e.natAbs)

theorem Tail.exponent {e : Int} {tail : List Char} (h : Tail e tail) : Exponent tail := by
  cases h with
  | absent => exact .absent
  | present =>
    have hDigits := Json.digits_toDigits e.natAbs
    split
    · exact @Exponent.present 'e' ['-'] _ (.inl rfl) (.inr (.inr rfl)) Nat.toDigits_ne_nil hDigits
    · exact @Exponent.present 'e' ['+'] _ (.inl rfl) (.inr (.inl rfl)) Nat.toDigits_ne_nil hDigits

theorem Tail.head {e : Int} {tail : List Char} (h : Tail e tail) :
    ∀ c ∈ tail.head?, c.isDigit = false ∧ c ≠ '.' := by
  intro c hc
  cases h with
  | absent => cases hc
  | present =>
    cases hc
    decide

theorem Tail.unique {e e' : Int} {tail : List Char} (h : Tail e tail) (h' : Tail e' tail) : e = e' := by
  generalize hTail : tail = tail' at h'
  cases h with
  | absent =>
    cases h' with
    | absent => rfl
    | present => cases hTail
  | present =>
    cases h' with
    | absent => cases hTail
    | present =>
      obtain ⟨hSign, hDigits⟩ := List.cons.inj (List.cons.inj hTail).2
      have hSize := toDigits_injective hDigits
      split at hSign <;> split at hSign
      · omega
      · cases hSign
      · cases hSign
      · omega

/-- The text spells the decimal: its digits, a point among them and an exponent. -/
inductive Spelled : Decimal → List Char → Prop
  | mk {whole fraction tail : List Char} {e : Int} (hWhole : Whole whole) (hFraction : Digits fraction)
    (hTail : Tail e tail) :
    Spelled ⟨digitsValue (whole ++ fraction), e - fraction.length⟩ (whole ++ (pointed fraction ++ tail))

namespace Spelled

variable {d d' : Decimal} {text : List Char}

theorem of_pointed {whole fraction : List Char} (hWhole : Whole whole) (hFraction : Digits fraction) :
    Spelled ⟨digitsValue (whole ++ fraction), -fraction.length⟩ (whole ++ pointed fraction) := by
  have h := Spelled.mk hWhole hFraction .absent
  rwa [List.append_nil, zero_sub] at h

theorem head_isDigit (h : Spelled d text) : ∀ c ∈ text.head?, c.isDigit = true := by
  obtain ⟨hWhole, -, -⟩ := h
  exact hWhole.head_isDigit

theorem numeral (h : Spelled d text) (negative : Bool) : Numeral (FloatFormat.sign negative ++ text) := by
  obtain ⟨hWhole, hFraction, hTail⟩ := h
  refine .mk ?_ hWhole (fraction_pointed hFraction) hTail.exponent
  cases negative with
  | false => exact .inl rfl
  | true => exact .inr rfl

theorem unique (h : Spelled d text) (h' : Spelled d' text) : d = d' := by
  obtain @⟨whole, fraction, tail, e, hWhole, hFraction, hTail⟩ := h
  generalize hText : whole ++ (pointed fraction ++ tail) = text at h'
  obtain @⟨whole', fraction', tail', e', hWhole', hFraction', hTail'⟩ := h'
  have hBehind {fraction tail : List Char} {e : Int} (hFraction : Digits fraction) (hTail : Tail e tail) :
      ∀ c ∈ (pointed fraction ++ tail).head?, c.isDigit = false :=
    (fraction_pointed hFraction).head_append fun c hc => (hTail.head c hc).1
  have hWholes := hWhole.readWhole_append (hBehind hFraction hTail)
  rw [hText, hWhole'.readWhole_append (hBehind hFraction' hTail')] at hWholes
  obtain ⟨rfl, hRest⟩ := Prod.mk.inj (Option.some.inj hWholes)
  have hFractions := (fraction_pointed hFraction).readFraction_append hTail.head
  rw [← hRest, (fraction_pointed hFraction').readFraction_append hTail'.head] at hFractions
  obtain ⟨hPointed, rfl⟩ := Prod.mk.inj (Option.some.inj hFractions)
  obtain rfl := pointed_injective hPointed
  rw [hTail.unique hTail']

end Spelled

namespace FloatFormat

section Notations

variable {c : Nat} {e : Int}

theorem whole_append (hc : 0 < c) {ds : List Char} (hDigits : Digits ds) :
    Whole (Nat.toDigits 10 c ++ ds) := by
  obtain ⟨first, rest, hEq, hFirst⟩ := Json.exists_toDigits_eq_cons hc
  have hAll := Json.digits_toDigits c
  rw [hEq] at hAll ⊢
  obtain ⟨hDigit, hRest⟩ := List.forall_mem_cons.mp hAll
  exact .digits hDigit hFirst (List.forall_mem_append.mpr ⟨hRest, hDigits⟩)

theorem whole_take (hc : 0 < c) {n : Nat} (hn : n ≠ 0) : Whole ((Nat.toDigits 10 c).take n) := by
  obtain ⟨first, rest, hEq, hFirst⟩ := Json.exists_toDigits_eq_cons hc
  obtain ⟨n, rfl⟩ := Nat.exists_eq_succ_of_ne_zero hn
  have hAll := Json.digits_toDigits c
  rw [hEq] at hAll ⊢
  obtain ⟨hDigit, hRest⟩ := List.forall_mem_cons.mp hAll
  exact .digits hDigit hFirst fun d hd => hRest d (List.mem_of_mem_take hd)

theorem digits_drop (c n : Nat) : Digits ((Nat.toDigits 10 c).drop n) :=
  fun d hd => Json.digits_toDigits c d (List.mem_of_mem_drop hd)

theorem exists_spelled_whole (hc : 0 < c) (n k : Nat) :
    ∃ d, Spelled d (Nat.toDigits 10 c ++ zeros n ++ pointed (zeros k)) ∧
      d.value = Decimal.value ⟨c, n⟩ := by
  refine ⟨_, .of_pointed (whole_append hc (digits_zeros n)) (digits_zeros k), ?_⟩
  rw [digitsValue_append, digitsValue_append, digitsValue_toDigits, digitsValue_zeros, digitsValue_zeros,
    zeros, zeros, List.length_replicate, List.length_replicate, Decimal.value, Decimal.value, zpow_neg,
    zpow_natCast, zpow_natCast]
  push_cast
  field_simp
  ring

theorem spelled_point (hc : 0 < c) {n : Nat} (hn : n ≠ 0) (hLength : n < (Nat.toDigits 10 c).length) :
    Spelled ⟨c, n - (Nat.toDigits 10 c).length⟩
      ((Nat.toDigits 10 c).take n ++ '.' :: (Nat.toDigits 10 c).drop n) := by
  have h := Spelled.of_pointed (whole_take hc hn) (digits_drop c n)
  rwa [List.take_append_drop, digitsValue_toDigits, List.length_drop, Nat.cast_sub hLength.le, neg_sub,
    pointed_of_ne (List.drop_eq_nil_iff.not.mpr (Nat.not_le.mpr hLength))] at h

theorem spelled_zeros (c n : Nat) :
    Spelled ⟨c, -(n + (Nat.toDigits 10 c).length)⟩ ('0' :: '.' :: zeros n ++ Nat.toDigits 10 c) := by
  have hDigits : Digits (zeros n ++ Nat.toDigits 10 c) :=
    List.forall_mem_append.mpr ⟨digits_zeros n, Json.digits_toDigits c⟩
  have hNonempty : zeros n ++ Nat.toDigits 10 c ≠ [] :=
    List.append_ne_nil_of_right_ne_nil _ Nat.toDigits_ne_nil
  have hZero : digitsValue ['0'] = 0 := rfl
  have h := Spelled.of_pointed .zero hDigits
  rwa [digitsValue_append, digitsValue_append, digitsValue_zeros, digitsValue_toDigits, hZero, zero_mul,
    zero_mul, zero_add, zero_add, pointed_of_ne hNonempty, List.length_append, zeros,
    List.length_replicate, Nat.cast_add] at h

theorem exists_spelled_plain (format : FloatFormat) (hc : 0 < c) (e : Int) :
    ∃ d, Spelled d (format.plain (Nat.toDigits 10 c) e) ∧ d.value = Decimal.value ⟨c, e⟩ := by
  rw [plain]
  split
  · rename_i hWhole
    obtain ⟨n, rfl⟩ := Int.eq_ofNat_of_zero_le hWhole
    cases format.wholePoint with
    | true => exact exists_spelled_whole hc n 1
    | false => exact exists_spelled_whole hc n 0
  · split
    · rename_i hFraction hPoint
      refine ⟨⟨c, e⟩, ?_, rfl⟩
      obtain ⟨n, hn⟩ := Int.eq_ofNat_of_zero_le hPoint.le
      obtain rfl : e = n - (Nat.toDigits 10 c).length := by omega
      rw [hn, Int.toNat_natCast]
      exact spelled_point hc (by omega) (by omega)
    · rename_i hFraction hPoint
      refine ⟨⟨c, e⟩, ?_, rfl⟩
      obtain ⟨n, hn⟩ := Int.eq_ofNat_of_zero_le (neg_nonneg.mpr (not_lt.mp hPoint))
      obtain rfl : e = -(n + (Nat.toDigits 10 c).length) := by omega
      rw [hn, Int.toNat_natCast]
      exact spelled_zeros c n

theorem spelled_scientific (hc : 0 < c) (e : Int) :
    Spelled ⟨c, e - ((Nat.toDigits 10 c).length - 1 : Nat)⟩ (scientific (Nat.toDigits 10 c) e) := by
  have h := Spelled.mk (whole_take hc one_ne_zero) (digits_drop c 1) (.present e)
  rw [List.take_append_drop, digitsValue_toDigits, List.length_drop] at h
  have hPointed : pointed ((Nat.toDigits 10 c).drop 1) =
      if (Nat.toDigits 10 c).length = 1 then [] else '.' :: (Nat.toDigits 10 c).drop 1 := by
    have hLength := @Nat.length_toDigits_pos 10 c
    refine if_congr ?_ rfl rfl
    rw [List.drop_eq_nil_iff]
    omega
  rwa [scientific, ← hPointed, List.append_assoc]

theorem exists_spelled (format : FloatFormat) {d : Decimal} (hd : 0 < d.coefficient) :
    ∃ d', Spelled d' (format.decimal d) ∧ d'.value = d.value := by
  rw [decimal]
  split
  · exact exists_spelled_plain format hd d.exponent
  · refine ⟨d, ?_, rfl⟩
    have hLength := @Nat.length_toDigits_pos 10 d.coefficient
    have h := spelled_scientific hd ((Nat.toDigits 10 d.coefficient).length + d.exponent - 1)
    rwa [show ((Nat.toDigits 10 d.coefficient).length : Int) + d.exponent - 1 -
      ((Nat.toDigits 10 d.coefficient).length - 1 : Nat) = d.exponent by omega] at h

end Notations

theorem mem_decimal {format : FloatFormat} (h : format.wholePoint = true) (d : Decimal) :
    '.' ∈ format.decimal d ∨ 'e' ∈ format.decimal d := by
  rw [decimal]
  split
  · left
    rw [plain, h]
    split
    · simp
    · split <;> simp
  · right
    simp [scientific]

end FloatFormat

/-! ## Numbers of double precision -/

namespace Float64

/-- A zero, or a number of double precision. -/
inductive IsFinite : Float64 → Prop
  | zero (negative : Bool) : IsFinite (.zero negative)
  | finite (negative : Bool) {b : Binary} (h : b.IsDouble) : IsFinite (.finite negative b)

theorem isFinite_ofFloat {x : Float} (h : x.isFinite = true) : (ofFloat x).IsFinite := by
  have hExponent := exponent_ne_of_isFinite h
  cases hParts : ofFloat x with
  | zero negative => exact .zero negative
  | finite negative b => exact .finite negative (isDouble_of_ofBits hParts)
  | nan | infinite =>
    rw [ofFloat, ofBits, if_neg hExponent] at hParts
    split at hParts
    · split at hParts <;> cases hParts
    · cases hParts

inductive Rounds (negative : Bool) (d : Decimal) : Float64 → Prop
  | zero (h : d.value = 0) : Rounds negative d (.zero negative)
  | finite {b : Binary} (h : b.IsDouble) (hCovers : b.covers d = true) :
    Rounds negative d (.finite negative b)

theorem Rounds.unique {negative : Bool} {d : Decimal} {x y : Float64} (hx : Rounds negative d x)
    (hy : Rounds negative d y) : x = y := by
  cases hx with
  | zero hZero =>
    cases hy with
    | zero => rfl
    | finite h hCovers => exact absurd hZero (h.value_pos_of_covers hCovers).ne'
  | finite h hCovers =>
    cases hy with
    | zero hZero => exact absurd hZero (h.value_pos_of_covers hCovers).ne'
    | finite h' hCovers' => rw [h.eq_of_covers h' hCovers hCovers']

end Float64

namespace FloatFormat

theorem exists_spelled_zero (format : FloatFormat) :
    ∃ d, Spelled d (format.decimal ⟨0, 0⟩) ∧ d.value = 0 := by
  have hZero (k : Nat) (e : Int) : Decimal.value ⟨digitsValue (['0'] ++ zeros k), e⟩ = 0 := by
    rw [digitsValue_append, digitsValue_zeros, show digitsValue ['0'] = 0 from rfl, zero_mul, zero_add,
      Decimal.value, Nat.cast_zero, zero_mul]
  rw [decimal]
  split
  · rw [plain]
    cases format.wholePoint with
    | true => exact ⟨_, .of_pointed .zero (digits_zeros 1), hZero 1 _⟩
    | false => exact ⟨_, .of_pointed .zero (digits_zeros 0), hZero 0 _⟩
  · exact ⟨_, .mk .zero (digits_zeros 0) (.present 0), hZero 0 _⟩

theorem exists_spelled_write (format : FloatFormat) {x : Float64} (h : x.IsFinite) :
    ∃ negative d text, format.write x = sign negative ++ text ∧ Spelled d text ∧ x.Rounds negative d := by
  cases h with
  | zero negative =>
    obtain ⟨d, hSpelled, hZero⟩ := format.exists_spelled_zero
    exact ⟨negative, d, _, rfl, hSpelled, .zero hZero⟩
  | @finite negative b h =>
    have hCovers := h.covers_shortest format.tie
    obtain ⟨d, hSpelled, hValue⟩ := format.exists_spelled (h.coefficient_pos_of_covers hCovers)
    refine ⟨negative, d, _, rfl, hSpelled, .finite h ?_⟩
    rw [Binary.covers_congr hValue]
    exact hCovers

theorem numeral_write (format : FloatFormat) {x : Float64} (h : x.IsFinite) : Numeral (format.write x) := by
  obtain ⟨negative, d, text, hText, hSpelled, -⟩ := format.exists_spelled_write h
  rw [hText]
  exact hSpelled.numeral negative

theorem mem_write {format : FloatFormat} (hMarked : format.wholePoint = true) {x : Float64}
    (h : x.IsFinite) : '.' ∈ format.write x ∨ 'e' ∈ format.write x := by
  cases h with
  | zero | finite =>
    rw [write, List.mem_append, List.mem_append]
    exact (mem_decimal hMarked _).imp .inr .inr

theorem sign_append_inj {negative negative' : Bool} {d d' : Decimal} {text text' : List Char}
    (h : Spelled d text) (h' : Spelled d' text')
    (hText : sign negative ++ text = sign negative' ++ text') : negative = negative' ∧ text = text' := by
  cases negative with
  | false =>
    cases negative' with
    | false => exact ⟨rfl, hText⟩
    | true =>
      have hDigit := h.head_isDigit '-' (by rw [show text = '-' :: text' from hText]; rfl)
      cases hDigit
  | true =>
    cases negative' with
    | true => exact ⟨rfl, (List.cons.inj hText).2⟩
    | false =>
      have hDigit := h'.head_isDigit '-' (by rw [← show '-' :: text = text' from hText]; rfl)
      cases hDigit

/-- Finite numbers that are written in the same way are the same. -/
theorem write_injOn (format : FloatFormat) : Set.InjOn format.write {x | x.IsFinite} := by
  intro x hx y hy hText
  obtain ⟨negative, d, text, hx, hSpelled, hRounds⟩ := format.exists_spelled_write hx
  obtain ⟨negative', d', text', hy, hSpelled', hRounds'⟩ := format.exists_spelled_write hy
  rw [hx, hy] at hText
  obtain ⟨rfl, rfl⟩ := sign_append_inj hSpelled hSpelled' hText
  obtain rfl := hSpelled.unique hSpelled'
  exact hRounds.unique hRounds'

end FloatFormat

end Lexigram
