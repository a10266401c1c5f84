import Lexigram.Json.Text
import Lexigram.Proofs.Written

/-! # Written strings and whole numbers

What is written for a text and for a whole number is JSON, and stands for just that text and that number.
-/

namespace Lexigram

theorem digitsValue_eq (digits : List Char) : digitsValue digits = Nat.ofDigitChars 10 digits 0 := by
  rw [Nat.ofDigitChars_eq_foldl, digitsValue]
  congr
  funext value c
  rw [Nat.mul_comm]
  rfl

@[simp] theorem digitsValue_toDigits (n : Nat) : digitsValue (Nat.toDigits 10 n) = n := by
  rw [digitsValue_eq, Nat.ofDigitChars_ten_toDigits]

theorem toDigits_injective : Function.Injective (Nat.toDigits 10) :=
  Function.LeftInverse.injective digitsValue_toDigits

namespace Json

theorem digits_toDigits (n : Nat) : Digits (Nat.toDigits 10 n) :=
  fun _ hc => Nat.isDigit_of_mem_toDigits (by decide) (by decide) hc

theorem exists_toDigits_eq_cons {n : Nat} (h : 0 < n) :
    ∃ first rest, Nat.toDigits 10 n = first :: rest ∧ first ≠ '0' := by
  induction n using Nat.strongRecOn with
  | _ n ih =>
    by_cases hSmall : n < 10
    · refine ⟨_, [], Nat.toDigits_of_lt_base hSmall, ?_⟩
      have key : ∀ n < 10, 0 < n → Nat.digitChar n ≠ '0' := by decide
      exact key n hSmall h
    · obtain ⟨first, rest, hDigits, hFirst⟩ := ih (n / 10) (by omega) (by omega)
      refine ⟨first, rest ++ [Nat.digitChar (n % 10)], ?_, hFirst⟩
      rw [Nat.toDigits_of_base_le (by decide) (by omega), hDigits]
      rfl

theorem whole_toDigits (n : Nat) : Whole (Nat.toDigits 10 n) := by
  rcases Nat.eq_zero_or_pos n with rfl | h
  · rw [Nat.toDigits_zero]
    exact .zero
  · obtain ⟨first, rest, hDigits, hFirst⟩ := exists_toDigits_eq_cons h
    have hAll := digits_toDigits n
    rw [hDigits] at hAll ⊢
    exact .digits (hAll first List.mem_cons_self) hFirst fun c hc => hAll c (List.mem_cons_of_mem _ hc)

theorem numeral_toDigits {sign : List Char} (hSign : sign = [] ∨ sign = ['-']) (n : Nat) :
    Numeral (sign ++ Nat.toDigits 10 n) := by
  have h := Numeral.mk hSign (whole_toDigits n) .absent .absent
  rwa [List.append_nil, List.append_nil] at h

theorem body_escape {codes : List Nat} {text : List Char} (c : Char) (h : Body codes text) :
    Body (c.toNat :: codes) (escape c ++ text) := by
  unfold escape
  split
  · exact .escaped rfl h
  · exact .escaped rfl h
  · exact .escaped rfl h
  · exact .escaped rfl h
  · exact .escaped rfl h
  · exact .escaped rfl h
  · exact .escaped rfl h
  · rename_i hQuote hBackslash _ _ _ _ _
    split
    · rename_i hControl
      have hCode : c.toNat < 32 := hControl
      refine .unit ?_ h
      have hZero : hexValue? '0' = some 0 := rfl
      simp only [codeUnit?, hZero, hexValue?_hexChar (show c.toNat / 16 < 16 by omega),
        hexValue?_hexChar (show c.toNat % 16 < 16 by omega), Option.bind_eq_bind, Option.bind_some]
      exact congrArg some (by omega)
    · rename_i hPrinted
      exact .bare (Char.not_lt.mp hPrinted) hQuote hBackslash h

theorem body_flatMap_escape (text : List Char) : Body (text.map Char.toNat) (text.flatMap escape) := by
  induction text with
  | nil => exact .nil
  | cons c text ih => exact body_escape c ih

theorem isHigh_toNat (c : Char) : isHigh c.toNat = false := by
  have hValid : c.toNat < 0xD800 ∨ 0xDFFF < c.toNat ∧ c.toNat < 0x110000 := c.valid
  simp only [isHigh, Bool.and_eq_false_iff, decide_eq_false_iff_not]
  omega

theorem isLow_toNat (c : Char) : isLow c.toNat = false := by
  have hValid : c.toNat < 0xD800 ∨ 0xDFFF < c.toNat ∧ c.toNat < 0x110000 := c.valid
  simp only [isLow, Bool.and_eq_false_iff, decide_eq_false_iff_not]
  omega

theorem joinPairs_map_toNat (text : List Char) : joinPairs (text.map Char.toNat) = some text := by
  induction text with
  | nil => rfl
  | cons c text ih =>
    cases text with
    | nil => simp [joinPairs, isHigh_toNat, isLow_toNat, Char.ofNat_toNat]
    | cons d text =>
      rw [List.map_cons, List.map_cons, joinPairs, isHigh_toNat c, isLow_toNat d, isLow_toNat c,
        ← List.map_cons, ih, Char.ofNat_toNat]
      rfl

theorem writes_quote (text : List Char) : Writes (.string (some text)) (quote text) := by
  rw [← joinPairs_map_toNat text]
  exact .string (body_flatMap_escape text)

section Compact

variable {name text rest : List Char} {value : Json} {items : List Json}
  {members : List (Option (List Char) × Json)}

theorem writesItems_one (hItem : Writes value text) : WritesItems [value] text := by
  have h := WritesItems.one .nil hItem .nil
  rwa [List.nil_append, List.append_nil] at h

theorem writesItems_more (hItem : Writes value text) (hItems : WritesItems items rest) :
    WritesItems (value :: items) (text ++ ',' :: rest) := by
  have h := WritesItems.more .nil hItem .nil hItems
  rwa [List.nil_append, List.nil_append] at h

theorem writesMembers_one (hValue : Writes value text) :
    WritesMembers [(some name, value)] (quote name ++ ':' :: text) := by
  have h := WritesMembers.one .nil (body_flatMap_escape name) .nil .nil hValue .nil
  rw [joinPairs_map_toNat] at h
  simpa [quote] using h

theorem writesMembers_more (hValue : Writes value text) (hMembers : WritesMembers members rest) :
    WritesMembers ((some name, value) :: members) (quote name ++ ':' :: (text ++ ',' :: rest)) := by
  have h := WritesMembers.more .nil (body_flatMap_escape name) .nil .nil hValue .nil hMembers
  rw [joinPairs_map_toNat] at h
  simpa [quote] using h

end Compact

end Json

end Lexigram
