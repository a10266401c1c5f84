import Mathlib.Tactic.ByContra
import Mathlib.Tactic.Tauto
import Lexigram.Proofs.Forms
import Lexigram.Proofs.Progress
import Lexigram.Proofs.Shadowing
import Lexigram.Vocabulary

/-! # The first match is the longest

A lexer takes the first terminal that finds something. With the terminals that most languages begin with, in
their order, this is what the terminal that finds most would take, too. The words come before the
identifiers and find nothing within a longer word, numbers with a fraction come before those without, and
operators of two characters before those of one. Any other two terminals find nothing at the same place.
-/

namespace Lexigram

namespace Form

open Regex

variable {text lexeme other : List Char} {form form' : Form}

/-- Lexemes that begin with characters of different kinds do not begin at the same place. -/
inductive Start where
  | letter
  | digit
  | quote
  | sign
  deriving DecidableEq, Repr

def startOf (c : Char) : Start :=
  if letters.has c then .letter else if digits.has c then .digit else if c = '"' then .quote else .sign

def start : Form → Start
  | .fixed first _ => startOf first
  | .keyword first _ => startOf first
  | .integer => .digit
  | .decimal => .digit
  | .quoted => .quote
  | .identifier => .letter

/-- A form for which it is enough to look at both to see that no lexeme of the second one goes further. -/
def outlasts : Form → Form → Bool
  | .fixed first behind, .fixed first' behind' =>
    !(first :: behind).isPrefixOf (first' :: behind') || behind'.length ≤ behind.length
  | .keyword first behind, .keyword first' behind' =>
    (first :: behind).all wordChars.has && (first' :: behind').all wordChars.has
  | .keyword first behind, .identifier => (first :: behind).all wordChars.has
  | .decimal, .integer => true
  | form, form' => form.start != form'.start

theorem has_range_iff {low high c : Char} : (CharSet.range low high).has c = true ↔
    low.toNat ≤ c.toNat ∧ c.toNat ≤ high.toNat := by
  simp only [CharSet.has, Bool.and_eq_true, decide_eq_true_eq]
  exact Iff.rfl

theorem digits_iff {c : Char} : digits.has c = true ↔ 48 ≤ c.toNat ∧ c.toNat ≤ 57 := by
  rw [digits, CharSet.has_union, Bool.or_eq_true, has_range_iff]
  exact or_iff_right Bool.false_ne_true

theorem letters_iff {c : Char} : letters.has c = true ↔
    97 ≤ c.toNat ∧ c.toNat ≤ 122 ∨ 65 ≤ c.toNat ∧ c.toNat ≤ 90 ∨ c = '_' := by
  simp only [letters, CharSet.has_union, Bool.or_eq_true, has_range_iff, CharSet.has_single_iff, or_assoc]
  exact or_iff_right Bool.false_ne_true

theorem wordChars_iff {c : Char} : wordChars.has c = true ↔ letters.has c = true ∨ digits.has c = true := by
  simp only [wordChars, letters, digits, CharSet.has_union, Bool.or_eq_true]
  tauto

theorem startOf_of_letters {c : Char} (h : letters.has c = true) : startOf c = .letter :=
  if_pos h

theorem startOf_of_digits {c : Char} (h : digits.has c = true) : startOf c = .digit := by
  have hLetter : ¬ letters.has c = true := by
    rw [letters_iff]
    rw [digits_iff] at h
    rintro (hLower | hUpper | rfl)
    · omega
    · omega
    · exact absurd h.2 (by decide)
  rw [startOf, if_neg hLetter, if_pos h]

theorem isWord_of_wordChars {c : Char} (h : wordChars.has c = true) : Unicode.isWord c = true := by
  have hAlphanum : c.isAlphanum = true ↔
      (65 ≤ c.toNat ∧ c.toNat ≤ 90 ∨ 97 ≤ c.toNat ∧ c.toNat ≤ 122) ∨ 48 ≤ c.toNat ∧ c.toNat ≤ 57 := by
    unfold Char.isAlphanum Char.isAlpha Char.isUpper Char.isLower Char.isDigit
    simp only [ge_iff_le, Bool.or_eq_true, Bool.and_eq_true, decide_eq_true_eq, UInt32.le_iff_toNat_le]
    exact Iff.rfl
  rw [wordChars_iff, letters_iff, digits_iff] at h
  rw [Unicode.isWord]
  rcases h with (hLower | hUpper | rfl) | hDigit
  · rw [if_pos (by omega), hAlphanum.mpr (.inl (.inr hLower)), Bool.true_or]
  · rw [if_pos (by omega), hAlphanum.mpr (.inl (.inl hUpper)), Bool.true_or]
  · rfl
  · rw [if_pos (by omega), hAlphanum.mpr (.inr hDigit), Bool.true_or]

theorem exists_start (h : form.lexeme? text = some lexeme) :
    ∃ c behind, text = c :: behind ∧ form.start = startOf c := by
  obtain ⟨hNonempty, hBeginning⟩ := lexeme_begins h
  obtain ⟨c, cs, rfl⟩ := List.exists_cons_of_ne_nil hNonempty
  obtain ⟨behind, rfl⟩ := hBeginning
  refine ⟨c, cs ++ behind, rfl, ?_⟩
  have hDigits (hWhole : run digits (c :: cs ++ behind) 0 ≠ []) : startOf c = .digit := by
    obtain ⟨d, hChar, hHas⟩ := exists_has_of_run hWhole
    cases hChar
    exact startOf_of_digits hHas
  cases form with
  | fixed first behind =>
    rw [lexeme?] at h
    split at h <;> cases h
    rfl
  | keyword first behind =>
    rw [lexeme?] at h
    split at h <;> cases h
    rfl
  | integer =>
    rw [lexeme?] at h
    split at h
    · rename_i hWhole
      exact (hDigits hWhole).symm
    · cases h
  | decimal =>
    rw [lexeme?] at h
    split at h
    · rename_i hParts
      exact (hDigits hParts.1).symm
    · cases h
  | quoted =>
    rw [lexeme?] at h
    split at h
    · rename_i hQuotes
      cases hQuotes.1
      rfl
    · cases h
  | identifier =>
    rw [lexeme?] at h
    split at h
    · rename_i d hFirst
      cases hFirst
      split at h
      · rename_i hHas
        exact (startOf_of_letters hHas).symm
      · cases h
    · cases h

theorem any_isWord_of_prefix (hOther : other <+: text) (hChars : ∀ c ∈ other, wordChars.has c = true)
    {i : Nat} (hi : i < other.length) : text.toArray[i]?.any Unicode.isWord = true := by
  obtain ⟨behind, rfl⟩ := hOther
  rw [List.getElem?_toArray, List.getElem?_append_left hi, List.getElem?_eq_getElem hi, Option.any_some]
  exact isWord_of_wordChars (hChars _ (List.getElem_mem hi))

theorem length_le_of_keyword {first : Char} {behind : List Char}
    (hWord : ∀ c ∈ first :: behind, wordChars.has c = true)
    (h : (keyword first behind).lexeme? text = some lexeme) (hOther : other <+: text)
    (hChars : ∀ c ∈ other, wordChars.has c = true) : other.length ≤ lexeme.length := by
  rw [lexeme?] at h
  split at h <;> cases h
  rename_i hKeyword
  obtain ⟨hText, hEdge⟩ := hKeyword
  by_contra hLonger
  rw [List.length_cons, Nat.not_le] at hLonger
  -- Both the last character of the keyword and the one behind it are word characters.
  have hBefore : Assertion.wordBefore text.toArray (behind.length + 1) = true :=
    any_isWord_of_prefix hText hWord (Nat.lt_succ_self _)
  have hAfter : Assertion.wordAfter text.toArray (behind.length + 1) = true :=
    any_isWord_of_prefix hOther hChars hLonger
  rw [Assertion.holds, hBefore, hAfter] at hEdge
  cases hEdge

theorem wordChars_of_identifier (h : identifier.lexeme? text = some lexeme) :
    ∀ c ∈ lexeme, wordChars.has c = true := by
  rw [lexeme?] at h
  split at h
  · split at h
    · rename_i hFirst
      cases h
      exact List.forall_mem_cons.mpr ⟨wordChars_iff.mpr (.inl hFirst), fun _ => has_of_mem_run⟩
    · cases h
  · cases h

def only? : Form → Option (List Char)
  | .fixed first behind => some (first :: behind)
  | .keyword first behind => some (first :: behind)
  | _ => none

theorem eq_of_only? {whole : List Char} (hOnly : form.only? = some whole)
    (h : form.lexeme? text = some lexeme) : lexeme = whole := by
  cases form with
  | fixed first behind | keyword first behind =>
    cases hOnly
    rw [lexeme?] at h
    split at h <;> cases h
    rfl
  | _ => cases hOnly

theorem prefix_of_outlasts (hOutlasts : form.outlasts form' = true)
    (h : form.lexeme? text = some lexeme) (h' : form'.lexeme? text = some other) : other <+: lexeme := by
  have hText := (lexeme_begins h).2
  have hText' := (lexeme_begins h').2
  have hLength (hLength : other.length ≤ lexeme.length) : other <+: lexeme :=
    List.prefix_of_prefix_length_le hText' hText hLength
  unfold outlasts at hOutlasts
  split at hOutlasts
  · obtain rfl := eq_of_only? rfl h
    obtain rfl := eq_of_only? rfl h'
    by_contra hNot
    have hLonger := mt hLength hNot
    simp only [List.length_cons, Nat.not_le] at hLonger
    have hPrefix := List.prefix_of_prefix_length_le hText hText' (Nat.le_of_lt hLonger)
    rw [List.isPrefixOf_iff_prefix.mpr hPrefix, Bool.not_true, Bool.false_or, decide_eq_true_eq] at hOutlasts
    omega
  · obtain rfl := eq_of_only? rfl h'
    rw [Bool.and_eq_true, List.all_eq_true, List.all_eq_true] at hOutlasts
    exact hLength (length_le_of_keyword hOutlasts.1 h hText' hOutlasts.2)
  · exact hLength (length_le_of_keyword (List.all_eq_true.mp hOutlasts) h hText' (wordChars_of_identifier h'))
  · rw [lexeme?] at h
    rw [lexeme?] at h'
    split at h <;> cases h
    split at h' <;> cases h'
    exact List.prefix_append _ _
  · -- The forms begin differently, so they are not found at the same place.
    obtain ⟨c, behind, rfl, hFirst⟩ := exists_start h
    obtain ⟨d, behind', hSame, hFirst'⟩ := exists_start h'
    cases hSame
    rw [hFirst, hFirst', bne_self_eq_false] at hOutlasts
    cases hOutlasts

end Form

def commonForms : List Form :=
  [.keyword 'i' ['f'], .keyword 'e' ['l', 's', 'e'], .keyword 'w' ['h', 'i', 'l', 'e'],
    .keyword 'f' ['o', 'r'], .keyword 'r' ['e', 't', 'u', 'r', 'n'],
    .keyword 'b' ['r', 'e', 'a', 'k'], .keyword 'c' ['o', 'n', 't', 'i', 'n', 'u', 'e'],
    .keyword 't' ['r', 'u', 'e'], .keyword 'f' ['a', 'l', 's', 'e'],
    .decimal, .integer, .quoted, .identifier,
    .fixed '-' ['>'], .fixed '<' ['='], .fixed '>' ['='], .fixed '=' ['='],
    .fixed '+' [], .fixed '-' [], .fixed '*' [], .fixed '/' [], .fixed '%' [], .fixed '^' [],
    .fixed '=' [], .fixed '<' [], .fixed '>' [], .fixed '?' [], .fixed '!' [], .fixed '&' [],
    .fixed '|' [], .fixed '~' [], .fixed '(' [], .fixed ')' [], .fixed '\x7b' [], .fixed '\x7d' [],
    .fixed '[' [], .fixed ']' [], .fixed ',' [], .fixed ':' [], .fixed ';' [], .fixed '.' []]

theorem commonForms_pairwise : commonForms.Pairwise fun form form' => form.outlasts form' = true := by
  decide

namespace Vocabulary

variable {firstId : Nat}

theorem common_names (firstId : Nat) :
    (common firstId).terminals.map (fun t => (t.name, t.pattern.source)) = commonSources := by
  rfl

theorem common_regexes (firstId : Nat) :
    (common firstId).terminals.map (·.pattern.regex) = commonForms.map (·.body.tied) := by
  rfl

theorem exists_form {index : Nat} {t : Terminal} (h : (common firstId).terminals[index]? = some t) :
    ∃ form, commonForms[index]? = some form ∧ ∀ text, t.pattern.find text = form.lexeme? text := by
  have hRegex : ((common firstId).terminals.map (·.pattern.regex))[index]? = some t.pattern.regex := by
    rw [List.getElem?_map, h]
    rfl
  rw [common_regexes, List.getElem?_map] at hRegex
  obtain ⟨form, hForm, hSame⟩ := Option.map_eq_some_iff.mp hRegex
  exact ⟨form, hForm, Form.find_eq hSame.symm⟩

theorem prefix_of_lt {i j : Nat} (hij : i < j) {t t' : Terminal}
    (ht : (common firstId).terminals[i]? = some t) (ht' : (common firstId).terminals[j]? = some t')
    {text lexeme other : List Char} (h : t.pattern.find text = some lexeme)
    (h' : t'.pattern.find text = some other) : other <+: lexeme := by
  obtain ⟨form, hForm, hFind⟩ := exists_form ht
  obtain ⟨form', hForm', hFind'⟩ := exists_form ht'
  obtain ⟨hi, rfl⟩ := List.getElem?_eq_some_iff.mp hForm
  obtain ⟨hj, rfl⟩ := List.getElem?_eq_some_iff.mp hForm'
  have hOutlasts := List.pairwise_iff_getElem.mp commonForms_pairwise i j hi hj hij
  exact Form.prefix_of_outlasts hOutlasts (hFind text ▸ h) (hFind' text ▸ h')

end Vocabulary

namespace Lexer

open Vocabulary

variable {firstId : Nat} {lexer : Lexer}

theorem FindsAt.longest {text lexeme other : List Char} {index place : Nat} {terminal t : Terminal}
    (h : FindsAt (common firstId).terminals text index terminal lexeme)
    (ht : (common firstId).terminals[place]? = some t) (hFind : t.pattern.find text = some other) :
    other <+: lexeme ∧ index ≤ place := by
  obtain ⟨hTerminal, hLexeme, hNone⟩ := h
  rcases Nat.lt_trichotomy place index with hEarlier | rfl | hLater
  · have hMem : t ∈ (common firstId).terminals.take index :=
      List.mem_of_getElem? ((List.getElem?_take_of_lt hEarlier).trans ht)
    rw [hNone t hMem] at hFind
    cases hFind
  · obtain rfl := Option.some.inj (hTerminal.symm.trans ht)
    obtain rfl := Option.some.inj (hLexeme.symm.trans hFind)
    exact ⟨List.prefix_rfl, Nat.le_refl _⟩
  · exact ⟨prefix_of_lt hLater hTerminal ht hLexeme hFind, Nat.le_of_lt hLater⟩

theorem common_anchored {t : Terminal} (h : t ∈ (common firstId).terminals) {text lexeme : List Char}
    (hFind : t.pattern.find text = some lexeme) : lexeme <+: text := by
  obtain ⟨index, hIndex⟩ := List.mem_iff_getElem?.mp h
  obtain ⟨form, -, hForm⟩ := exists_form hIndex
  exact (Form.lexeme_begins (hForm text ▸ hFind)).2

/-- What is left where a token was made begins with it, and none of the terminals finds more there. -/
def Uncut (firstId : Nat) (text : List Char) (t : Token) : Prop :=
  ∃ before behind, text = before ++ (t.text.toList ++ behind) ∧ t.start = byteLength before ∧
    t.terminal.pattern.find (t.text.toList ++ behind) = some t.text.toList ∧
    ∀ other ∈ (common firstId).terminals, ∀ lexeme,
      other.pattern.find (t.text.toList ++ behind) = some lexeme → lexeme <+: t.text.toList

theorem uncut_of_finds {here : Cursor} {text lexeme : List Char} {terminal : Terminal}
    (hHere : here.CountsIn text) (hFinds : Finds (common firstId).terminals here.rest terminal lexeme)
    (stop : Position) : Uncut firstId text (tokenAt terminal lexeme here.place stop) := by
  obtain ⟨before, hText, hOffset⟩ := hHere
  obtain ⟨behind, hBehind⟩ := common_anchored hFinds.mem hFinds.find_eq
  obtain ⟨index, hIndex⟩ := firstMatch_eq_some_iff_findsAt.mp hFinds.firstMatch_eq
  have hLexeme : (tokenAt terminal lexeme here.place stop).text.toList = lexeme :=
    String.toList_ofList
  refine ⟨before, behind, ?_, hOffset, ?_, fun other hOther found hFound => ?_⟩
  · rw [hLexeme, hBehind, hText]
  · rw [hLexeme, hBehind]
    exact hFinds.find_eq
  · rw [hLexeme, hBehind] at hFound
    rw [hLexeme]
    obtain ⟨place, hPlace⟩ := List.mem_iff_getElem?.mp hOther
    exact (hIndex.longest hPlace hFound).1

theorem Reads.uncut {cursor last : Cursor} {ts : List Token} (h : lexer.Reads cursor ts last)
    (hTable : lexer.significant = (common firstId).terminals) {text : List Char}
    (hCursor : cursor.CountsIn text) : ∀ t ∈ ts, Uncut firstId text t := by
  induction h with
  | here => exact fun t ht => absurd ht List.not_mem_nil
  | token hStep _ ih =>
    have hActs := hStep ▸ lexer.acts_step _
    cases hActs with
    | token hFinds hNext =>
      refine List.forall_mem_cons.mpr ⟨?_, ih (hCursor.skipBlanks.advance hNext)⟩
      exact uncut_of_finds hCursor.skipBlanks (hTable ▸ hFinds) _
  | dropped hStep _ ih =>
    have hActs := hStep ▸ lexer.acts_step _
    cases hActs with
    | dropped _ _ hNext => exact ih (hCursor.skipBlanks.advance hNext)

theorem step_of_finds {place : Position} {c : Char} {behind lexeme rest : List Char} {terminal : Terminal}
    (hc : ' ' < c) (hFinds : Finds lexer.significant (c :: behind) terminal lexeme)
    (hText : c :: behind = lexeme ++ rest) : lexer.step ⟨place, c :: behind⟩ =
      .token (tokenAt terminal lexeme place (place.after lexeme)) ⟨place.after lexeme, rest⟩ := by
  have hNext : ∀ d ∈ (c :: behind).head?, ' ' < d := by
    rintro d ⟨⟩
    exact hc
  have hSkip : (⟨place, c :: behind⟩ : Cursor).skipBlanks = ⟨place, c :: behind⟩ :=
    @skipBlanks_append [] (c :: behind) nofun hNext place
  have hAdvance := advance_append place lexeme rest
  rw [← hText] at hAdvance
  simp only [step, hSkip, hFinds.firstMatch_eq, hAdvance]
  rfl

/-- With the common terminals, whatever is dropped beside them, the first match is the longest, and the
earliest of those that are as long. So no token is cut short. -/
theorem first_is_longest (hTable : lexer.significant = (common firstId).terminals) :
    lexer.significant.map (fun t => (t.name, t.pattern.source)) = commonSources ∧
    (∀ place c behind, ' ' < c → (∃ t ∈ lexer.significant, t.pattern.find (c :: behind) ≠ none) →
      ∃ (index : Nat) (terminal : Terminal) (lexeme rest : List Char),
        lexer.significant[index]? = some terminal ∧
        terminal.pattern.find (c :: behind) = some lexeme ∧ c :: behind = lexeme ++ rest ∧
        lexer.step ⟨place, c :: behind⟩ =
          .token (tokenAt terminal lexeme place (place.after lexeme)) ⟨place.after lexeme, rest⟩ ∧
        ∀ (other : Nat) (t : Terminal) (found : List Char), lexer.significant[other]? = some t →
          t.pattern.find (c :: behind) = some found → found <+: lexeme ∧ index ≤ other) ∧
    ∀ text : String, (∀ ts last, lexer.Reads ⟨{}, text.toList⟩ ts last →
      ∀ t ∈ ts, Uncut firstId text.toList t) ∧
      ∀ ts, lexer.tokens text = .ok ts → ∀ t ∈ ts, Uncut firstId text.toList t := by
  refine ⟨hTable ▸ common_names firstId, fun place c behind hc hSome => ?_, fun text => ?_⟩
  · cases hFirst : firstMatch lexer.significant (c :: behind) with
    | none =>
      obtain ⟨t, ht, hFind⟩ := hSome
      exact absurd (firstMatch_eq_none_iff.mp hFirst t ht) hFind
    | some found =>
      obtain ⟨terminal, lexeme⟩ := found
      have hFinds : Finds lexer.significant (c :: behind) terminal lexeme :=
        firstMatch_eq_some_iff.mp hFirst
      obtain ⟨index, hIndex⟩ := firstMatch_eq_some_iff_findsAt.mp hFirst
      have hMem : terminal ∈ (common firstId).terminals := hTable ▸ hFinds.mem
      obtain ⟨rest, hRest⟩ := common_anchored hMem hFinds.find_eq
      refine ⟨index, terminal, lexeme, rest, hIndex.1, hIndex.2.1, hRest.symm,
        step_of_finds hc hFinds hRest.symm, fun other t found ht hFound => ?_⟩
      rw [hTable] at hIndex ht
      exact hIndex.longest ht hFound
  · have hReads (ts : List Token) (last : Cursor) (h : lexer.Reads ⟨{}, text.toList⟩ ts last) :
        ∀ t ∈ ts, Uncut firstId text.toList t := h.uncut hTable (.start text.toList)
    refine ⟨hReads, fun ts hTokens => ?_⟩
    obtain ⟨made, last, hMade, ⟨-, hOk⟩ | ⟨e, -, hError⟩⟩ := lexer.exists_reads ⟨{}, text.toList⟩
    · obtain rfl := Except.ok.inj (hOk.symm.trans hTokens)
      exact hReads made last hMade
    · cases hError.symm.trans hTokens

theorem significant_foldl_register (terminals : List Terminal) (lexer : Lexer) :
    (terminals.foldl register lexer).significant = lexer.significant ++ terminals := by
  induction terminals generalizing lexer with
  | nil => exact (List.append_nil _).symm
  | cons t terminals ih =>
    rw [List.foldl_cons, ih, significant_register, List.append_assoc, List.singleton_append]

def commonLexer : Lexer :=
  (common 0).terminals.foldl register {}

theorem first_is_longest_words : commonLexer.significant = (common 0).terminals ∧
    ∃ terminal next, commonLexer.step ⟨{}, "iffy".toList⟩ =
      .token (tokenAt terminal "iffy".toList {} (({} : Position).after "iffy".toList)) next := by
  have hTable : commonLexer.significant = (common 0).terminals := significant_foldl_register _ {}
  obtain ⟨t, ht⟩ : ∃ t, (common 0).terminals[12]? = some t := ⟨_, rfl⟩
  obtain ⟨form, hForm, hFind⟩ := exists_form ht
  cases hForm
  have hWord : t.pattern.find "iffy".toList = some "iffy".toList := hFind "iffy".toList
  rw [← hTable] at ht
  obtain ⟨-, hFirst, -⟩ := first_is_longest hTable
  obtain ⟨index, terminal, lexeme, rest, -, -, hText, hStep, hLongest⟩ :=
    hFirst {} 'i' ['f', 'f', 'y'] (by decide) ⟨t, List.mem_of_getElem? ht, hWord ▸ nofun⟩
  have hWhole : "iffy".toList <+: lexeme := (hLongest 12 t _ ht hWord).1
  obtain rfl : lexeme = "iffy".toList :=
    (List.IsPrefix.eq_of_length_le ⟨rest, hText.symm⟩ hWhole.length_le)
  exact ⟨hTable, terminal, _, hStep⟩

end Lexer

end Lexigram
