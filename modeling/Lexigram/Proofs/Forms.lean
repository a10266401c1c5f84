import Lexigram.Proofs.Plain

/-! # Forms of lexemes

The expressions that lexemes of programming languages are commonly told by: fixed texts, words that end
where a word ends, numbers, quoted texts and identifiers. They are sequences in which a repetition takes all
the characters that it can, and what follows it begins with none of them. So the search never has to give
anything back, and what it finds can be said without it.
-/

namespace Lexigram

namespace Regex

section Runs

variable {set : CharSet} {text : List Char} {p : Nat}

def run (set : CharSet) (text : List Char) (p : Nat) : List Char :=
  (text.drop p).takeWhile set.has

theorem drop_of_getElem? {c : Char} (h : text[p]? = some c) : text.drop p = c :: text.drop (p + 1) := by
  obtain ⟨hp, rfl⟩ := List.getElem?_eq_some_iff.mp h
  exact List.drop_eq_getElem_cons hp

theorem run_of_has {c : Char} (hChar : text[p]? = some c) (hHas : set.has c = true) :
    run set text p = c :: run set text (p + 1) := by
  rw [run, drop_of_getElem? hChar, List.takeWhile_cons, hHas, if_pos rfl, run]

theorem run_eq_nil_iff : run set text p = [] ↔ ∀ c, text[p]? = some c → set.has c = false := by
  rw [run, ← List.head?_drop]
  cases text.drop p with
  | nil => simp
  | cons c rest => cases hHas : set.has c <;> simp [hHas]

theorem has_of_mem_run {c : Char} (h : c ∈ run set text p) : set.has c = true :=
  List.all_eq_true.mp List.all_takeWhile c h

theorem run_begins (set : CharSet) (text : List Char) (p : Nat) : run set text p <+: text.drop p :=
  List.takeWhile_prefix _

theorem drop_eq_run_append (set : CharSet) (text : List Char) (p : Nat) :
    text.drop p = run set text p ++ text.drop (p + (run set text p).length) := by
  rw [← List.drop_drop]
  exact (List.prefix_iff_eq_append.mp (run_begins set text p)).symm

theorem exists_has_of_run (h : run set text p ≠ []) : ∃ c, text[p]? = some c ∧ set.has c = true := by
  cases hChar : text[p]? with
  | none => exact absurd (run_eq_nil_iff.mpr (by simp [hChar])) h
  | some c =>
    refine ⟨c, rfl, ?_⟩
    cases hHas : set.has c with
    | true => rfl
    | false =>
      exact absurd (run_eq_nil_iff.mpr fun d hd => Option.some.inj (hChar.symm.trans hd) ▸ hHas) h

theorem ends_set (set : CharSet) (text : List Char) (p : Nat) : ends text.toArray (.chars set) p =
    if run set text p = [] then [] else [p + 1] := by
  rw [ends, List.getElem?_toArray]
  cases hChar : text[p]? with
  | none => rw [if_pos (run_eq_nil_iff.mpr (by simp [hChar]))]
  | some c =>
    cases hHas : set.has c with
    | false =>
      have hNone : run set text p = [] :=
        run_eq_nil_iff.mpr fun d hd => Option.some.inj (hChar.symm.trans hd) ▸ hHas
      simp [hNone, hHas]
    | true => simp [run_of_has hChar hHas, hHas]

theorem advances_set (set : CharSet) (text : List Char) :
    Advances text.length (ends text.toArray (.chars set)) :=
  advances_ends text.toArray (.chars set)

/-- Further copies end behind the run first, and then at the places within it. -/
theorem furtherFrom_set (set : CharSet) (text : List Char) (hp : p ≤ text.length) : ∃ others,
    furtherFrom (ends text.toArray (.chars set)) true text.length p =
      (p + (run set text p).length) :: others ∧
    ∀ q ∈ others, ∃ c, text[q]? = some c ∧ set.has c = true := by
  have hStep := advances_set set text
  obtain ⟨n, hn⟩ : ∃ n, n = (run set text p).length := ⟨_, rfl⟩
  induction n generalizing p with
  | zero =>
    have hNone := List.length_eq_zero_iff.mp hn.symm
    refine ⟨[], ?_, nofun⟩
    rw [furtherFrom_eq hStep hp, ends_set, if_pos hNone, ← hn]
    rfl
  | succ n ih =>
    have hSome : run set text p ≠ [] := List.ne_nil_of_length_eq_add_one hn.symm
    obtain ⟨c, hChar, hHas⟩ := exists_has_of_run hSome
    have hRun := run_of_has hChar hHas
    have hLength := (List.getElem?_eq_some_iff.mp hChar).1
    rw [hRun, List.length_cons, Nat.succ_inj] at hn
    obtain ⟨others, hFurther, hOthers⟩ := ih hLength hn
    refine ⟨others ++ [p].filter (!((p + 1 + n) :: others).contains ·), ?_, ?_⟩
    · rw [furtherFrom_eq hStep hp, ends_set, hRun, if_neg (List.cons_ne_nil _ _), mergeMap_singleton,
        if_neg (Nat.not_succ_le_self p), hFurther, List.length_cons, ← hn]
      have hPlace : p + (n + 1) = p + 1 + n := by omega
      rw [hPlace]
      rfl
    · intro q hq
      rcases List.mem_append.mp hq with hq | hq
      · exact hOthers q hq
      · rw [List.mem_singleton.mp (List.mem_filter.mp hq).1]
        exact ⟨c, hChar, hHas⟩

theorem oneOrMore_set (hp : p ≤ text.length) :
    oneOrMore (ends text.toArray (.chars set)) true text.length p = if run set text p = [] then []
      else furtherFrom (ends text.toArray (.chars set)) true text.length (p + 1) := by
  rw [oneOrMore_eq (advances_set set text) hp, ends_set]
  split
  · rfl
  · rw [mergeMap_singleton, if_neg (Nat.not_succ_le_self p)]

theorem ends_some (set : CharSet) (text : List Char) (hp : p ≤ text.length) : ∃ others,
    ends text.toArray (.rep (.chars set) 1 none true) p =
      (if run set text p = [] then [] else (p + (run set text p).length) :: others) ∧
    ∀ q ∈ others, ∃ c, text[q]? = some c ∧ set.has c = true := by
  have hEnds : ends text.toArray (.rep (.chars set) 1 none true) p =
      oneOrMore (ends text.toArray (.chars set)) true text.length p := mergeMap_singleton _ p
  rw [hEnds, oneOrMore_set hp]
  by_cases hRun : run set text p = []
  · exact ⟨[], by rw [if_pos hRun, if_pos hRun], nofun⟩
  · obtain ⟨c, hChar, hHas⟩ := exists_has_of_run hRun
    have hLength := (List.getElem?_eq_some_iff.mp hChar).1
    obtain ⟨others, hFurther, hOthers⟩ := furtherFrom_set set text hLength
    have hPlace : p + (run set text p).length = p + 1 + (run set text (p + 1)).length := by
      rw [run_of_has hChar hHas, List.length_cons]
      omega
    exact ⟨others, by rw [if_neg hRun, if_neg hRun, hFurther, hPlace], hOthers⟩

theorem ends_any (set : CharSet) (text : List Char) (hp : p ≤ text.length) : ∃ others,
    ends text.toArray (.rep (.chars set) 0 none true) p = (p + (run set text p).length) :: others ∧
    ∀ q ∈ others, ∃ c, text[q]? = some c ∧ set.has c = true := by
  obtain ⟨others, hFurther, hOthers⟩ := furtherFrom_set set text hp
  refine ⟨others, ?_, hOthers⟩
  have hEnds : ends text.toArray (.rep (.chars set) 0 none true) p =
      goOrStop true p (oneOrMore (ends text.toArray (.chars set)) true text.length p) := rfl
  rw [← hFurther, furtherFrom_eq (advances_set set text) hp, hEnds, oneOrMore_set hp,
    ends_set]
  split
  · rfl
  · rw [mergeMap_singleton, if_neg (Nat.not_succ_le_self p)]

/-- No character that the repetition could have taken comes next, so it gives nothing back. -/
theorem mergeMap_char {q : Nat} {others : List Nat} {c : Char} (hc : set.has c = false)
    (hOthers : ∀ q ∈ others, ∃ c, text[q]? = some c ∧ set.has c = true) :
    mergeMap (ends text.toArray (.char c)) (q :: others) = ends text.toArray (.char c) q := by
  have hNone : mergeMap (ends text.toArray (.char c)) others = [] := by
    refine mergeMap_eq_nil fun r hr => ?_
    obtain ⟨d, hChar, hHas⟩ := hOthers r hr
    rw [ends_char, List.getElem?_toArray, hChar, if_neg]
    rintro ⟨⟩
    rw [hHas] at hc
    cases hc
  rw [mergeMap, hNone]
  exact List.append_nil _

end Runs

end Regex

inductive Form where
  | fixed (first : Char) (behind : List Char)
  | keyword (first : Char) (behind : List Char)
  | integer
  | decimal
  | quoted
  | identifier
  deriving DecidableEq, Repr

namespace Form

open Regex

def digits : CharSet :=
  .union .empty (.range '0' '9')

def letters : CharSet :=
  .union (.union (.union .empty (.range 'a' 'z')) (.range 'A' 'Z')) (.single '_')

def wordChars : CharSet :=
  .union (.union (.union (.union .empty (.range 'a' 'z')) (.range 'A' 'Z')) (.range '0' '9')) (.single '_')

def unquoted : CharSet :=
  .compl (.union .empty (.single '"'))

def items : Form → List Regex
  | .fixed first behind => (first :: behind).map .char
  | .keyword first behind => (first :: behind).map .char ++ [.assert .wordBoundary]
  | .integer => [.rep (.chars digits) 1 none true]
  | .decimal => [.rep (.chars digits) 1 none true, .char '.', .rep (.chars digits) 1 none true]
  | .quoted => [.char '"', .rep (.chars unquoted) 0 none true, .char '"']
  | .identifier => [.chars letters, .rep (.chars wordChars) 0 none true]

def body (form : Form) : Regex :=
  form.items.foldl .seq .empty

def lexeme? (text : List Char) : Form → Option (List Char)
  | .fixed first behind => if first :: behind <+: text then some (first :: behind) else none
  | .keyword first behind =>
    if first :: behind <+: text ∧
        Assertion.wordBoundary.holds text.toArray (behind.length + 1) = true then
      some (first :: behind)
    else none
  | .integer =>
    let whole := run digits text 0
    if whole ≠ [] then some whole else none
  | .decimal =>
    let whole := run digits text 0
    let fraction := run digits text (whole.length + 1)
    if whole ≠ [] ∧ text[whole.length]? = some '.' ∧ fraction ≠ [] then some (whole ++ '.' :: fraction)
    else none
  | .quoted =>
    let inner := run unquoted text 1
    if text[0]? = some '"' ∧ text[1 + inner.length]? = some '"' then some ('"' :: (inner ++ ['"']))
    else none
  | .identifier =>
    match text[0]? with
    | some c => if letters.has c then some (c :: run wordChars text 1) else none
    | none => none

variable {text lexeme : List Char} {form : Form}

theorem lexeme_begins (h : form.lexeme? text = some lexeme) : lexeme ≠ [] ∧ lexeme <+: text := by
  cases form with
  | fixed first behind =>
    rw [lexeme?] at h
    split at h <;> cases h
    rename_i hText
    exact ⟨List.cons_ne_nil _ _, hText⟩
  | keyword first behind =>
    rw [lexeme?] at h
    split at h <;> cases h
    rename_i hText
    exact ⟨List.cons_ne_nil _ _, hText.1⟩
  | integer =>
    rw [lexeme?] at h
    split at h <;> cases h
    rename_i hWhole
    exact ⟨hWhole, run_begins digits text 0⟩
  | decimal =>
    rw [lexeme?] at h
    split at h <;> cases h
    rename_i hParts
    obtain ⟨hWhole, hPoint, -⟩ := hParts
    refine ⟨List.append_ne_nil_of_left_ne_nil hWhole _, ?_⟩
    have hText := drop_eq_run_append digits text 0
    rw [Nat.zero_add, List.drop_zero, drop_of_getElem? hPoint, drop_eq_run_append digits text (_ + 1),
      ← List.cons_append, ← List.append_assoc] at hText
    exact ⟨_, hText.symm⟩
  | quoted =>
    rw [lexeme?] at h
    split at h <;> cases h
    rename_i hQuotes
    obtain ⟨hOpen, hClose⟩ := hQuotes
    refine ⟨List.cons_ne_nil _ _, ?_⟩
    have hText := drop_of_getElem? hOpen
    rw [List.drop_zero, drop_eq_run_append unquoted text (0 + 1), drop_of_getElem? hClose,
      List.append_cons, ← List.cons_append] at hText
    exact ⟨_, hText.symm⟩
  | identifier =>
    rw [lexeme?] at h
    split at h
    · rename_i c hFirst
      split at h <;> cases h
      refine ⟨List.cons_ne_nil _ _, ?_⟩
      have hText := drop_of_getElem? hFirst
      rw [List.drop_zero, drop_eq_run_append wordChars text (0 + 1), ← List.cons_append] at hText
      exact ⟨_, hText.symm⟩
    · cases h

theorem endAt?_eq_head? (form : Form) (text : List Char) : form.body.endAt? text.toArray 0 =
    (form.items.foldl (fun ends item => mergeMap (item.ends text.toArray) ends) [0]).head? := by
  rw [body, endAt?, ends_foldl_seq, ends]

theorem endAt?_keyword (first : Char) (behind text : List Char) :
    (keyword first behind).body.endAt? text.toArray 0 =
      ((keyword first behind).lexeme? text).map List.length := by
  rw [endAt?_eq_head?, items, List.foldl_append, foldl_ends_chars, lexeme?, List.drop_zero, Nat.zero_add]
  by_cases hText : first :: behind <+: text
  · rw [if_pos hText, List.foldl_cons, List.foldl_nil, mergeMap_singleton, ends, List.length_cons]
    cases Assertion.wordBoundary.holds text.toArray (behind.length + 1) <;> simp [hText]
  · rw [if_neg hText, foldl_ends_nil, if_neg fun h => hText h.1]
    rfl

theorem endAt?_decimal (text : List Char) :
    decimal.body.endAt? text.toArray 0 = (decimal.lexeme? text).map List.length := by
  obtain ⟨others, hWhole, hOthers⟩ := ends_some digits text (Nat.zero_le _)
  have hPoint : digits.has '.' = false := by decide
  rw [endAt?_eq_head?, items, List.foldl_cons, List.foldl_cons, List.foldl_cons, List.foldl_nil,
    mergeMap_singleton, hWhole, lexeme?]
  by_cases hNone : run digits text 0 = []
  · rw [if_pos hNone, if_neg fun h => h.1 hNone]
    rfl
  · rw [if_neg hNone, mergeMap_char hPoint hOthers, ends_char, List.getElem?_toArray, Nat.zero_add]
    by_cases hChar : text[(run digits text 0).length]? = some '.'
    · have hLength : (run digits text 0).length + 1 ≤ text.length :=
        (List.getElem?_eq_some_iff.mp hChar).1
      obtain ⟨others, hFraction, -⟩ := ends_some digits text hLength
      rw [if_pos hChar, mergeMap_singleton, hFraction]
      by_cases hEmpty : run digits text ((run digits text 0).length + 1) = []
      · rw [if_pos hEmpty, if_neg fun h => h.2.2 hEmpty]
        rfl
      · rw [if_neg hEmpty, if_pos ⟨hNone, hChar, hEmpty⟩, List.head?_cons, Option.map_some,
          List.length_append, List.length_cons, Nat.add_right_comm, Nat.add_assoc]
    · rw [if_neg hChar, if_neg fun h => hChar h.2.1]
      rfl

theorem endAt?_quoted (text : List Char) :
    quoted.body.endAt? text.toArray 0 = (quoted.lexeme? text).map List.length := by
  have hQuote : unquoted.has '"' = false := by decide
  rw [endAt?_eq_head?, items, List.foldl_cons, List.foldl_cons, List.foldl_cons, List.foldl_nil,
    mergeMap_singleton, ends_char, List.getElem?_toArray, lexeme?]
  by_cases hOpen : text[0]? = some '"'
  · have hLength := (List.getElem?_eq_some_iff.mp hOpen).1
    obtain ⟨others, hInner, hOthers⟩ := ends_any unquoted text hLength
    rw [if_pos hOpen, Nat.zero_add, mergeMap_singleton, hInner, mergeMap_char hQuote hOthers, ends_char,
      List.getElem?_toArray]
    by_cases hClose : text[1 + (run unquoted text 1).length]? = some '"'
    · rw [if_pos hClose, if_pos ⟨hOpen, hClose⟩, List.head?_cons, Option.map_some, List.length_cons,
        List.length_append, List.length_singleton, Nat.add_comm 1]
    · rw [if_neg hClose, if_neg fun h => hClose h.2]
      rfl
  · rw [if_neg hOpen, if_neg fun h => hOpen h.1]
    rfl

theorem endAt?_identifier (text : List Char) :
    identifier.body.endAt? text.toArray 0 = (identifier.lexeme? text).map List.length := by
  rw [endAt?_eq_head?, items, List.foldl_cons, List.foldl_cons, List.foldl_nil, mergeMap_singleton, ends,
    List.getElem?_toArray, lexeme?]
  cases hFirst : text[0]? with
  | none => rfl
  | some c =>
    have hLength := (List.getElem?_eq_some_iff.mp hFirst).1
    obtain ⟨others, hBehind, -⟩ := ends_any wordChars text hLength
    dsimp only
    cases letters.has c with
    | false => rfl
    | true =>
      rw [if_pos rfl, if_pos rfl, Nat.zero_add, mergeMap_singleton, hBehind, List.head?_cons,
        Option.map_some, List.length_cons, Nat.add_comm]

theorem endAt?_body (form : Form) (text : List Char) :
    form.body.endAt? text.toArray 0 = (form.lexeme? text).map List.length := by
  cases form with
  | fixed first behind =>
    rw [endAt?_eq_head?, items, foldl_ends_chars, lexeme?, List.drop_zero, Nat.zero_add]
    split <;> rfl
  | keyword first behind => exact endAt?_keyword first behind text
  | integer =>
    obtain ⟨others, hEnds, -⟩ := ends_some digits text (Nat.zero_le _)
    rw [endAt?_eq_head?, items, List.foldl_cons, List.foldl_nil, mergeMap_singleton, hEnds, lexeme?]
    by_cases hWhole : run digits text 0 = [] <;> simp [hWhole]
  | decimal => exact endAt?_decimal text
  | quoted => exact endAt?_quoted text
  | identifier => exact endAt?_identifier text

theorem find_eq {p : Pattern} (h : p.regex = form.body.tied) (text : List Char) :
    p.find text = form.lexeme? text := by
  rw [Pattern.find_of_endAt? h, endAt?_body]
  cases hLexeme : form.lexeme? text with
  | none => rfl
  | some lexeme =>
    obtain ⟨hNonempty, behind, rfl⟩ := lexeme_begins hLexeme
    rw [Option.map_some, Option.bind_some, if_neg (mt List.length_eq_zero_iff.mp hNonempty),
      List.take_left]

end Form

end Lexigram
