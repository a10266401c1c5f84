import Mathlib.Data.Option.Basic
import Lexigram.Json.Text

/-! # The grammar of JSON

A value may be written in many ways: with white space between its parts, with characters escaped or not.
The grammar tells which texts write which value. The reader accepts them all and gives the value, so
no text writes two values.
-/

namespace Lexigram.Json

def Blank (text : List Char) : Prop :=
  ∀ c ∈ text, c = ' ' ∨ c = '\t' ∨ c = '\n' ∨ c = '\r'

def Digits (text : List Char) : Prop :=
  ∀ c ∈ text, c.isDigit = true

inductive Whole : List Char → Prop
  | zero : Whole ['0']
  | digits {first : Char} {rest : List Char} (hFirst : first.isDigit = true) (hZero : first ≠ '0')
    (hRest : Digits rest) : Whole (first :: rest)

inductive Fraction : List Char → Prop
  | absent : Fraction []
  | present {digits : List Char} (hNonempty : digits ≠ []) (hDigits : Digits digits) :
    Fraction ('.' :: digits)

inductive Exponent : List Char → Prop
  | absent : Exponent []
  | present {e : Char} {sign digits : List Char} (hLetter : e = 'e' ∨ e = 'E')
    (hSign : sign = [] ∨ sign = ['+'] ∨ sign = ['-']) (hNonempty : digits ≠ [])
    (hDigits : Digits digits) : Exponent (e :: (sign ++ digits))

inductive Numeral : List Char → Prop
  | mk {sign whole fraction exponent : List Char} (hSign : sign = [] ∨ sign = ['-'])
    (hWhole : Whole whole) (hFraction : Fraction fraction) (hExponent : Exponent exponent) :
    Numeral (sign ++ (whole ++ (fraction ++ exponent)))

/-- The text between quotes stands for these code points and surrogates. -/
inductive Body : List Nat → List Char → Prop
  | nil : Body [] []
  | bare {c : Char} {codes : List Nat} {text : List Char} (hPrinted : ' ' ≤ c) (hQuote : c ≠ '"')
    (hBackslash : c ≠ '\\') (h : Body codes text) : Body (c.toNat :: codes) (c :: text)
  | escaped {letter c : Char} {codes : List Nat} {text : List Char} (hLetter : unescape? letter = some c)
    (h : Body codes text) : Body (c.toNat :: codes) ('\\' :: letter :: text)
  | unit {a b c d : Char} {code : Nat} {codes : List Nat} {text : List Char}
    (hUnit : codeUnit? a b c d = some code) (h : Body codes text) :
    Body (code :: codes) ('\\' :: 'u' :: a :: b :: c :: d :: text)

mutual

/-- The text writes the value, without white space around it. -/
inductive Writes : Json → List Char → Prop
  | null : Writes .null ['n', 'u', 'l', 'l']
  | yes : Writes (.bool true) ['t', 'r', 'u', 'e']
  | no : Writes (.bool false) ['f', 'a', 'l', 's', 'e']
  | number {literal : List Char} (h : Numeral literal) : Writes (.number literal) literal
  | string {codes : List Nat} {body : List Char} (h : Body codes body) :
    Writes (.string (joinPairs codes)) ('"' :: (body ++ ['"']))
  | emptyArray {blank : List Char} (h : Blank blank) : Writes (.array []) ('[' :: (blank ++ [']']))
  | array {items : List Json} {text : List Char} (h : WritesItems items text) :
    Writes (.array items) ('[' :: (text ++ [']']))
  | emptyObject {blank : List Char} (h : Blank blank) :
    Writes (.object []) ('\x7b' :: (blank ++ ['\x7d']))
  | object {members : List (Option (List Char) × Json)} {text : List Char}
    (h : WritesMembers members text) : Writes (.object members) ('\x7b' :: (text ++ ['\x7d']))

inductive WritesItems : List Json → List Char → Prop
  | one {item : Json} {before text behind : List Char} (hBefore : Blank before) (hItem : Writes item text)
    (hBehind : Blank behind) : WritesItems [item] (before ++ (text ++ behind))
  | more {item : Json} {items : List Json} {before text behind rest : List Char}
    (hBefore : Blank before) (hItem : Writes item text) (hBehind : Blank behind)
    (hItems : WritesItems items rest) :
    WritesItems (item :: items) (before ++ (text ++ (behind ++ ',' :: rest)))

inductive WritesMembers : List (Option (List Char) × Json) → List Char → Prop
  | one {codes : List Nat} {value : Json} {before name colon between text behind : List Char}
    (hBefore : Blank before) (hName : Body codes name) (hColon : Blank colon) (hBetween : Blank between)
    (hValue : Writes value text) (hBehind : Blank behind) :
    WritesMembers [(joinPairs codes, value)]
      (before ++ '"' :: (name ++ '"' :: (colon ++ ':' :: (between ++ (text ++ behind)))))
  | more {codes : List Nat} {value : Json} {members : List (Option (List Char) × Json)}
    {before name colon between text behind rest : List Char}
    (hBefore : Blank before) (hName : Body codes name) (hColon : Blank colon) (hBetween : Blank between)
    (hValue : Writes value text) (hBehind : Blank behind) (hMembers : WritesMembers members rest) :
    WritesMembers ((joinPairs codes, value) :: members)
      (before ++ '"' :: (name ++ '"' :: (colon ++ ':' :: (between ++ (text ++ (behind ++ ',' :: rest))))))

end

def EndsNumber (text : List Char) : Prop :=
  ∀ c ∈ text.head?, c.isDigit = false ∧ c ≠ '.' ∧ c ≠ 'e' ∧ c ≠ 'E'

section Space

variable {blank text : List Char}

theorem Blank.nil : Blank [] :=
  nofun

theorem skipSpace_append (hBlank : Blank blank) (text : List Char) :
    skipSpace (blank ++ text) = skipSpace text := by
  unfold skipSpace
  refine List.dropWhile_append_of_pos fun c hc => ?_
  rcases hBlank c hc with rfl | rfl | rfl | rfl <;> rfl

theorem skipSpace_eq (h : ∀ c ∈ text.head?, isSpace c = false) : skipSpace text = text := by
  cases text with
  | nil => rfl
  | cons c text =>
    exact List.dropWhile_cons_of_neg (by rw [h c rfl]; exact Bool.false_ne_true)

theorem skipSpace_skipSpace (text : List Char) : skipSpace (skipSpace text) = skipSpace text := by
  refine skipSpace_eq fun c hc => ?_
  have hNot := List.head?_dropWhile_not isSpace text
  rw [← skipSpace, hc] at hNot
  exact hNot

theorem Blank.endsNumber_append (hBlank : Blank blank) (h : EndsNumber text) :
    EndsNumber (blank ++ text) := by
  cases blank with
  | nil => exact h
  | cons c blank =>
    intro c' hc'
    cases hc'
    rcases hBlank c List.mem_cons_self with rfl | rfl | rfl | rfl <;> decide

end Space

section Numbers

variable {digits text literal : List Char}

theorem readDigits_append (hNonempty : digits ≠ []) (hDigits : Digits digits)
    (hText : ∀ c ∈ text.head?, c.isDigit = false) : readDigits (digits ++ text) = some (digits, text) := by
  have hTake : (digits ++ text).takeWhile (·.isDigit) = digits := by
    rw [List.takeWhile_append_of_pos hDigits]
    cases text with
    | nil => rw [List.takeWhile_nil, List.append_nil]
    | cons c text => rw [List.takeWhile_cons_of_neg (by simp [hText c rfl]), List.append_nil]
  have hDrop : (digits ++ text).dropWhile (·.isDigit) = text := by
    rw [List.dropWhile_append_of_pos hDigits]
    cases text with
    | nil => rfl
    | cons c text => exact List.dropWhile_cons_of_neg (by simp [hText c rfl])
  unfold readDigits
  rw [hTake, hDrop]
  split
  · contradiction
  · rfl

theorem Whole.readWhole_append (h : Whole literal) (hText : ∀ c ∈ text.head?, c.isDigit = false) :
    readWhole (literal ++ text) = some (literal, text) := by
  unfold readWhole
  cases h with
  | zero =>
    have hDigits : Digits ['0'] := fun c hc => by
      rw [List.mem_singleton.mp hc]
      rfl
    rw [readDigits_append (List.cons_ne_nil _ _) hDigits hText]
    rfl
  | digits hFirst hZero hRest =>
    rw [readDigits_append (List.cons_ne_nil _ _) (List.forall_mem_cons.mpr ⟨hFirst, hRest⟩) hText]
    simp [hZero]

theorem Fraction.readFraction_append (h : Fraction literal)
    (hText : ∀ c ∈ text.head?, c.isDigit = false ∧ c ≠ '.') :
    readFraction (literal ++ text) = some (literal, text) := by
  cases h with
  | absent =>
    rw [List.nil_append]
    unfold readFraction
    split
    · exact absurd rfl (hText '.' rfl).2
    · rfl
  | present hNonempty hDigits =>
    rw [List.cons_append, readFraction,
      readDigits_append hNonempty hDigits fun c hc => (hText c hc).1]
    rfl

theorem Exponent.readExponent_append (h : Exponent literal) (hText : EndsNumber text) :
    readExponent (literal ++ text) = some (literal, text) := by
  cases h with
  | absent =>
    rw [List.nil_append]
    unfold readExponent
    split
    · rfl
    · rename_i e rest
      obtain ⟨-, -, hSmall, hCapital⟩ := hText e rfl
      simp [hSmall, hCapital]
  | @present e sign digits hLetter hSign hNonempty hDigits =>
    have hEnd (c : Char) (hc : c ∈ text.head?) : c.isDigit = false := (hText c hc).1
    have hLetter : (decide (e = 'e') || decide (e = 'E')) = true := by simpa using hLetter
    rcases hSign with rfl | rfl | rfl
    · obtain ⟨d, digits, rfl⟩ := List.exists_cons_of_ne_nil hNonempty
      have hDigit : d.isDigit = true := hDigits d List.mem_cons_self
      rw [List.nil_append, List.cons_append, List.cons_append, readExponent, if_pos hLetter,
        ← List.cons_append, readDigits_append hNonempty hDigits hEnd]
      · rfl
      -- The first digit is no sign.
      · rintro rest hSign
        cases hSign
        cases hDigit
      · rintro rest hSign
        cases hSign
        cases hDigit
    · rw [List.cons_append, List.append_assoc, List.singleton_append, readExponent, if_pos hLetter,
        readDigits_append hNonempty hDigits hEnd]
      rfl
    · rw [List.cons_append, List.append_assoc, List.singleton_append, readExponent, if_pos hLetter,
        readDigits_append hNonempty hDigits hEnd]
      rfl

theorem Whole.head_isDigit (h : Whole literal) : ∀ c ∈ (literal ++ text).head?, c.isDigit = true := by
  intro c hc
  cases h with
  | zero =>
    cases hc
    rfl
  | digits hFirst =>
    cases hc
    exact hFirst

theorem Exponent.head_append (h : Exponent literal) (hText : EndsNumber text) :
    ∀ c ∈ (literal ++ text).head?, c.isDigit = false ∧ c ≠ '.' := by
  intro c hc
  cases h with
  | absent => exact ⟨(hText c hc).1, (hText c hc).2.1⟩
  | present hLetter =>
    cases hc
    rcases hLetter with rfl | rfl <;> decide

theorem Fraction.head_append (h : Fraction literal) (hText : ∀ c ∈ text.head?, c.isDigit = false) :
    ∀ c ∈ (literal ++ text).head?, c.isDigit = false := by
  intro c hc
  cases h with
  | absent => exact hText c hc
  | present =>
    cases hc
    rfl

theorem readMagnitude_append {whole fraction exponent : List Char} (hWhole : Whole whole)
    (hFraction : Fraction fraction) (hExponent : Exponent exponent) (hText : EndsNumber text) :
    readMagnitude (whole ++ (fraction ++ (exponent ++ text))) =
      some (whole ++ (fraction ++ exponent), text) := by
  have hBehindFraction := hExponent.head_append hText
  have hBehindWhole := hFraction.head_append fun c hc => (hBehindFraction c hc).1
  rw [readMagnitude, hWhole.readWhole_append hBehindWhole]
  dsimp only [Option.bind_eq_bind, Option.bind_some]
  rw [hFraction.readFraction_append hBehindFraction]
  dsimp only [Option.bind_some]
  rw [hExponent.readExponent_append hText]
  dsimp only [Option.bind_some]
  rw [List.append_assoc]

theorem Numeral.readNumber_append (h : Numeral literal) (hText : EndsNumber text) :
    readNumber (literal ++ text) = some (literal, text) := by
  obtain ⟨hSign, hWhole, hFraction, hExponent⟩ := h
  rename_i sign whole fraction exponent
  have hMagnitude := readMagnitude_append hWhole hFraction hExponent hText
  simp only [List.append_assoc]
  rcases hSign with rfl | rfl
  · rw [List.nil_append, List.nil_append, readNumber, hMagnitude]
    intro rest hMinus
    have hDigit := hWhole.head_isDigit '-' (by rw [hMinus]; rfl)
    cases hDigit
  · rw [List.singleton_append, readNumber, hMagnitude]
    rfl

theorem Numeral.head_append (h : Numeral literal) :
    ∃ c rest, literal = c :: rest ∧ (c.isDigit = true ∨ c = '-') := by
  obtain ⟨hSign, hWhole, hFraction, hExponent⟩ := h
  rcases hSign with rfl | rfl
  · cases hWhole with
    | zero => exact ⟨'0', _, rfl, .inl rfl⟩
    | digits hFirst => exact ⟨_, _, rfl, .inl hFirst⟩
  · exact ⟨'-', _, rfl, .inr rfl⟩

end Numbers

section Strings

variable {codes : List Nat} {body text : List Char}

theorem Body.readCodes_append (h : Body codes body) (text : List Char) :
    readCodes (body ++ '"' :: text) = some (codes, text) := by
  induction h with
  | nil => rfl
  | @bare c codes body hPrinted hQuote hBackslash _ ih =>
    have hPlain : ¬ (decide (c < ' ') || decide (c = '\\')) = true := by
      simpa [hBackslash] using hPrinted
    rw [List.cons_append, readCodes, if_neg hPlain, ih]
    · rfl
    · exact hQuote
    · rintro a b c' d rest rfl
      exact absurd rfl hBackslash
    · rintro letter rest rfl
      exact absurd rfl hBackslash
  | @escaped letter c codes body hLetter _ ih =>
    rw [List.cons_append, List.cons_append, readCodes, hLetter]
    · dsimp only [Option.bind_eq_bind, Option.bind_some]
      rw [ih]
      rfl
    · rintro a b c' d rest rfl
      cases hLetter
  | unit hUnit _ ih =>
    simp only [List.cons_append, readCodes, hUnit, ih, Option.bind_eq_bind, Option.bind_some]

theorem Body.readString_append (h : Body codes body) (text : List Char) :
    readString (body ++ '"' :: text) = some (joinPairs codes, text) := by
  rw [readString, h.readCodes_append]
  rfl

end Strings

section Values

variable {fuel : Nat} {blank text : List Char}

theorem readValue_skipSpace (fuel : Nat) (text : List Char) :
    readValue fuel (skipSpace text) = readValue fuel text := by
  cases fuel with
  | zero => rw [readValue, readValue]
  | succ fuel => rw [readValue, readValue, skipSpace_skipSpace]

theorem readValue_append (fuel : Nat) (hBlank : Blank blank) (text : List Char) :
    readValue fuel (blank ++ text) = readValue fuel text := by
  rw [← readValue_skipSpace, skipSpace_append hBlank, readValue_skipSpace]

theorem readItems_skipSpace (fuel : Nat) (text : List Char) :
    readItems fuel (skipSpace text) = readItems fuel text := by
  cases fuel with
  | zero => rw [readItems, readItems]
  | succ fuel => rw [readItems, readItems, readValue_skipSpace]

theorem readMembers_skipSpace (fuel : Nat) (text : List Char) :
    readMembers fuel (skipSpace text) = readMembers fuel text := by
  cases fuel with
  | zero => rw [readMembers, readMembers]
  | succ fuel => rw [readMembers, readMembers, skipSpace_skipSpace]

theorem readValue_string (fuel : Nat) (text : List Char) : readValue (fuel + 1) ('"' :: text) =
    (readString text).map fun (text, rest) => (.string text, rest) := by
  rw [readValue]
  rfl

theorem isSpace_of_numeral {c : Char} (h : c.isDigit = true ∨ c = '-') : isSpace c = false := by
  rcases h with h | rfl
  · unfold isSpace
    simp only [Bool.or_eq_false_iff, beq_eq_false_iff_ne]
    refine ⟨⟨⟨?_, ?_⟩, ?_⟩, ?_⟩ <;>
    · rintro rfl
      cases h
  · rfl

theorem readValue_number {literal : List Char} (h : Numeral literal) (hText : EndsNumber text)
    (fuel : Nat) : readValue (fuel + 1) (literal ++ text) = some (.number literal, text) := by
  obtain ⟨c, rest, rfl, hFirst⟩ := h.head_append
  have hOther (c' : Char) (hc' : ¬ (c'.isDigit = true ∨ c' = '-')) (text' : List Char) :
      c :: rest ++ text ≠ c' :: text' := by
    intro hEq
    exact hc' ((List.cons.inj hEq).1 ▸ hFirst)
  have hSpace : skipSpace (c :: rest ++ text) = c :: rest ++ text := by
    refine skipSpace_eq fun c' hc' => ?_
    cases hc'
    exact isSpace_of_numeral hFirst
  rw [readValue, hSpace]
  split
  · exact absurd ‹_› (hOther _ (by decide) _)
  · exact absurd ‹_› (hOther _ (by decide) _)
  · exact absurd ‹_› (hOther _ (by decide) _)
  · exact absurd ‹_› (hOther _ (by decide) _)
  · exact absurd ‹_› (hOther _ (by decide) _)
  · exact absurd ‹_› (hOther _ (by decide) _)
  · rw [h.readNumber_append hText]
    rfl

theorem readValue_bracket (fuel : Nat) (text : List Char) : readValue (fuel + 1) ('[' :: text) =
    match skipSpace text with
    | ']' :: rest => some (.array [], rest)
    | rest => (readItems fuel rest).map fun (items, rest) => (.array items, rest) := by
  rw [readValue]
  rfl

theorem readValue_brace (fuel : Nat) (text : List Char) : readValue (fuel + 1) ('\x7b' :: text) =
    match skipSpace text with
    | '\x7d' :: rest => some (.object [], rest)
    | rest => (readMembers fuel rest).map fun (members, rest) => (.object members, rest) := by
  rw [readValue]
  rfl

theorem readValue_emptyArray (hBlank : Blank blank) (text : List Char) (fuel : Nat) :
    readValue (fuel + 1) ('[' :: (blank ++ ']' :: text)) = some (.array [], text) := by
  rw [readValue_bracket, skipSpace_append hBlank]
  rfl

theorem readValue_emptyObject (hBlank : Blank blank) (text : List Char) (fuel : Nat) :
    readValue (fuel + 1) ('\x7b' :: (blank ++ '\x7d' :: text)) = some (.object [], text) := by
  rw [readValue_brace, skipSpace_append hBlank]
  rfl

theorem readValue_array (h : ∀ c ∈ (skipSpace text).head?, c ≠ ']') (fuel : Nat) :
    readValue (fuel + 1) ('[' :: text) =
      (readItems fuel text).map fun (items, rest) => (.array items, rest) := by
  rw [readValue_bracket]
  split
  · rename_i hClosed
    exact absurd rfl (h ']' (by rw [hClosed]; rfl))
  · rw [readItems_skipSpace]

theorem readValue_object (h : ∀ c ∈ (skipSpace text).head?, c ≠ '\x7d') (fuel : Nat) :
    readValue (fuel + 1) ('\x7b' :: text) =
      (readMembers fuel text).map fun (members, rest) => (.object members, rest) := by
  rw [readValue_brace]
  split
  · rename_i hClosed
    exact absurd rfl (h '\x7d' (by rw [hClosed]; rfl))
  · rw [readMembers_skipSpace]

theorem Writes.head {value : Json} (h : Writes value text) :
    ∃ c rest, text = c :: rest ∧ isSpace c = false ∧ c ≠ ']' := by
  cases h with
  | number h =>
    obtain ⟨c, rest, rfl, hFirst⟩ := h.head_append
    refine ⟨c, rest, rfl, isSpace_of_numeral hFirst, ?_⟩
    rintro rfl
    exact absurd hFirst (by decide)
  | null | yes | no | string | emptyArray | array | emptyObject | object =>
    exact ⟨_, _, rfl, rfl, by decide⟩

theorem WritesItems.head {items : List Json} (h : WritesItems items text) (behind : List Char) :
    ∀ c ∈ (skipSpace (text ++ behind)).head?, c ≠ ']' := by
  have hFirst {before value rest : List Char} {item : Json} (hBefore : Blank before)
      (hItem : Writes item value) : ∀ c ∈ (skipSpace (before ++ (value ++ rest))).head?, c ≠ ']' := by
    obtain ⟨c, rest, rfl, hSpace, hClosed⟩ := hItem.head
    rw [skipSpace_append hBefore, skipSpace_eq fun c' hc' => by cases hc'; exact hSpace]
    intro c' hc'
    cases hc'
    exact hClosed
  cases h with
  | one hBefore hItem =>
    simp only [List.append_assoc]
    exact hFirst hBefore hItem
  | more hBefore hItem =>
    simp only [List.append_assoc]
    exact hFirst hBefore hItem

theorem WritesMembers.head {members : List (Option (List Char) × Json)} (h : WritesMembers members text)
    (behind : List Char) : ∀ c ∈ (skipSpace (text ++ behind)).head?, c ≠ '\x7d' := by
  intro c hc
  cases h with
  | one hBefore | more hBefore =>
    rw [List.append_assoc, skipSpace_append hBefore] at hc
    cases hc
    decide

end Values

theorem readMembers_member {codes : List Nat} {before name colon : List Char} (hBefore : Blank before)
    (hName : Body codes name) (hColon : Blank colon) (text : List Char) (fuel : Nat) :
    readMembers (fuel + 1) (before ++ '"' :: (name ++ '"' :: (colon ++ ':' :: text))) =
      (readValue fuel text).bind fun (value, rest) =>
        match skipSpace rest with
        | '\x7d' :: rest => some ([(joinPairs codes, value)], rest)
        | ',' :: rest => (readMembers fuel rest).bind fun (members, rest) =>
          some ((joinPairs codes, value) :: members, rest)
        | _ => none := by
  have hQuoted (text : List Char) : skipSpace ('"' :: text) = '"' :: text := rfl
  have hSeparated : skipSpace (':' :: text) = ':' :: text := rfl
  rw [readMembers, skipSpace_append hBefore, hQuoted]
  simp only [hName.readString_append, Option.bind_eq_bind, Option.bind_some]
  rewrite [skipSpace_append hColon, hSeparated]
  rfl

theorem endsNumber_cons {c : Char} (h : c = ',' ∨ c = ']' ∨ c = '\x7d') (text : List Char) :
    EndsNumber (c :: text) := by
  intro c' hc'
  cases hc'
  rcases h with rfl | rfl | rfl <;> decide

mutual

/-- A value is read with fuel for each of its characters. -/
theorem Writes.readValue_append {value : Json} {text : List Char} (h : Writes value text) {fuel : Nat}
    (hFuel : text.length ≤ fuel) {rest : List Char} (hRest : EndsNumber rest) :
    readValue fuel (text ++ rest) = some (value, rest) := by
  obtain ⟨fuel, rfl⟩ : ∃ n, fuel = n + 1 := by
    obtain ⟨c, rest, rfl, -⟩ := h.head
    exact ⟨fuel - 1, by rw [List.length_cons] at hFuel; omega⟩
  cases h with
  | null | yes | no =>
    rw [readValue]
    rfl
  | number h => exact readValue_number h hRest fuel
  | string h =>
    rw [List.cons_append, List.append_assoc, readValue_string, List.singleton_append, h.readString_append]
    rfl
  | emptyArray h =>
    rw [List.cons_append, List.append_assoc]
    exact readValue_emptyArray h rest fuel
  | emptyObject h =>
    rw [List.cons_append, List.append_assoc]
    exact readValue_emptyObject h rest fuel
  | array h =>
    rw [List.length_cons, List.length_append, List.length_singleton] at hFuel
    rw [List.cons_append, List.append_assoc, readValue_array (h.head _), List.singleton_append,
      h.readItems_append (by omega)]
    rfl
  | object h =>
    rw [List.length_cons, List.length_append, List.length_singleton] at hFuel
    rw [List.cons_append, List.append_assoc, readValue_object (h.head _), List.singleton_append,
      h.readMembers_append (by omega)]
    rfl

theorem WritesItems.readItems_append {items : List Json} {text : List Char} (h : WritesItems items text)
    {fuel : Nat} (hFuel : text.length < fuel) (rest : List Char) :
    readItems fuel (text ++ ']' :: rest) = some (items, rest) := by
  obtain ⟨fuel, rfl⟩ : ∃ n, fuel = n + 1 := ⟨fuel - 1, by omega⟩
  cases h with
  | one hBefore hItem hBehind =>
    simp only [List.length_append] at hFuel
    have hEnd := hBehind.endsNumber_append (endsNumber_cons (.inr (.inl rfl)) rest)
    rw [readItems]
    simp only [List.append_assoc]
    rw [readValue_append fuel hBefore, hItem.readValue_append (by omega) hEnd]
    simp only [Option.bind_eq_bind, Option.bind_some, skipSpace_append hBehind]
    rfl
  | @more item items before text behind more hBefore hItem hBehind hItems =>
    simp only [List.length_append, List.length_cons] at hFuel
    have hEnd := hBehind.endsNumber_append (endsNumber_cons (.inl rfl) (more ++ ']' :: rest))
    rw [readItems]
    simp only [List.append_assoc, List.cons_append]
    rw [readValue_append fuel hBefore, hItem.readValue_append (by omega) hEnd]
    simp only [Option.bind_eq_bind, Option.bind_some, skipSpace_append hBehind]
    calc (readItems fuel (more ++ ']' :: rest)).bind (fun p => some (item :: p.1, p.2))
      _ = some (item :: items, rest) := by
        rw [hItems.readItems_append (by omega)]
        rfl

theorem WritesMembers.readMembers_append {members : List (Option (List Char) × Json)} {text : List Char}
    (h : WritesMembers members text) {fuel : Nat} (hFuel : text.length < fuel) (rest : List Char) :
    readMembers fuel (text ++ '\x7d' :: rest) = some (members, rest) := by
  obtain ⟨fuel, rfl⟩ : ∃ n, fuel = n + 1 := ⟨fuel - 1, by omega⟩
  cases h with
  | one hBefore hName hColon hBetween hValue hBehind =>
    simp only [List.length_append, List.length_cons] at hFuel
    have hEnd := hBehind.endsNumber_append (endsNumber_cons (.inr (.inr rfl)) rest)
    simp only [List.append_assoc, List.cons_append]
    rw [readMembers_member hBefore hName hColon, readValue_append fuel hBetween,
      hValue.readValue_append (by omega) hEnd]
    dsimp only [Option.bind_some]
    rw [skipSpace_append hBehind]
    rfl
  | @more codes value members before name colon between text behind more hBefore hName hColon hBetween
      hValue hBehind hMembers =>
    simp only [List.length_append, List.length_cons] at hFuel
    have hEnd := hBehind.endsNumber_append (endsNumber_cons (.inl rfl) (more ++ '\x7d' :: rest))
    simp only [List.append_assoc, List.cons_append]
    rw [readMembers_member hBefore hName hColon, readValue_append fuel hBetween,
      hValue.readValue_append (by omega) hEnd]
    dsimp only [Option.bind_some]
    rw [skipSpace_append hBehind]
    calc (readMembers fuel (more ++ '\x7d' :: rest)).bind
          (fun p => some ((joinPairs codes, value) :: p.1, p.2))
      _ = some ((joinPairs codes, value) :: members, rest) := by
        rw [hMembers.readMembers_append (by omega)]
        rfl

end

/-- A text that writes a value, with white space around it, is read as that value. -/
theorem ofText_eq_of_writes {value : Json} {text before behind : List Char} (h : Writes value text)
    (hBefore : Blank before) (hBehind : Blank behind) :
    ofText (before ++ (text ++ behind)) = some value := by
  have hEnd : EndsNumber behind := by
    rw [← List.append_nil behind]
    exact hBehind.endsNumber_append nofun
  have hSpace : skipSpace behind = [] := by
    rw [← List.append_nil behind, skipSpace_append hBehind]
    rfl
  rw [ofText, readValue_append _ hBefore, h.readValue_append (by simp only [List.length_append]; omega) hEnd]
  simp only [Option.bind_eq_bind, Option.bind_some, hSpace]
  rfl

theorem Writes.unique {value value' : Json} {text : List Char} (h : Writes value text)
    (h' : Writes value' text) : value = value' := by
  have hRead := ofText_eq_of_writes h .nil .nil
  rw [ofText_eq_of_writes h' .nil .nil] at hRead
  exact (Option.some.inj hRead).symm

end Lexigram.Json
