import Lexigram.Proofs.Tying

/-! # Plain sources

A source without special characters is read as its characters one after the other, and its literal form is
what they spell. Only the two angle brackets are read otherwise when they are escaped: each then stands
for an edge of a word, which is no text, while the literal form has the bracket in it.
-/

namespace Lexigram

namespace Pattern

/-- A plain source with the items that it is read as and the text that is its literal form. -/
inductive Spells : List Char → List Regex → List Char → Prop
  | nil : Spells [] [] []
  | bare {c : Char} {rest text : List Char} {items : List Regex} (hPlain : c ∉ specialChars)
    (hBare : c ≠ '\\') (h : Spells rest items text) : Spells (c :: rest) (.char c :: items) (c :: text)
  | escaped {c : Char} {rest text : List Char} {items : List Regex} (hStart : c ≠ '<') (hEnd : c ≠ '>')
    (h : Spells rest items text) : Spells ('\\' :: c :: rest) (.char c :: items) (c :: text)
  | wordStart {rest text : List Char} {items : List Regex} (h : Spells rest items text) :
    Spells ('\\' :: '<' :: rest) (.assert .wordStart :: items) ('<' :: text)
  | wordEnd {rest text : List Char} {items : List Regex} (h : Spells rest items text) :
    Spells ('\\' :: '>' :: rest) (.assert .wordEnd :: items) ('>' :: text)

/-- An escape of the source stands for the beginning or the end of a word. -/
def marksWordEdge : List Char → Bool
  | '\\' :: c :: rest => c == '<' || c == '>' || marksWordEdge rest
  | _ :: rest => marksWordEdge rest
  | [] => false

end Pattern

namespace Regex

theorem Escape.simple?_of_not_alphanum {c : Char} {escaped : Escaped} (hc : c.isAlphanum = false)
    (h : simple? c = some escaped) : c = '<' ∧ escaped = .assert .wordStart ∨
      c = '>' ∧ escaped = .assert .wordEnd ∨ c ≠ '<' ∧ c ≠ '>' ∧ escaped = .char c := by
  unfold simple? at h
  split at h
  case h_9 =>
    cases h
    exact .inl ⟨rfl, rfl⟩
  case h_10 =>
    cases h
    exact .inr (.inl ⟨rfl, rfl⟩)
  case h_19 hStart hEnd _ _ _ _ _ _ _ _ =>
    split at h
    · cases h
      exact .inr (.inr ⟨hStart, hEnd, rfl⟩)
    · cases h
  all_goals exact absurd hc (by decide)

theorem Escape.step_of_not_alphanum {c : Char} {read : Escape ⊕ Escaped} (hc : c.isAlphanum = false)
    (h : Escape.start.step c = .ok read) : c = '<' ∧ read = .inr (.assert .wordStart) ∨
      c = '>' ∧ read = .inr (.assert .wordEnd) ∨ c ≠ '<' ∧ c ≠ '>' ∧ read = .inr (.char c) := by
  unfold step at h
  dsimp only at h
  split at h
  case h_6 =>
    split at h
    · rename_i escaped hEscaped
      cases h
      rcases simple?_of_not_alphanum hc hEscaped with ⟨hc, rfl⟩ | ⟨hc, rfl⟩ | ⟨hStart, hEnd, rfl⟩
      · exact .inl ⟨hc, rfl⟩
      · exact .inr (.inl ⟨hc, rfl⟩)
      · exact .inr (.inr ⟨hStart, hEnd, rfl⟩)
    · cases h
  all_goals exact absurd hc (by decide)

namespace Reader

variable {properties : Properties} {r middle next last : Reader} {c : Char}

theorem literal_eq (hFlags : r.flags.caseless = false) : r.literal c = .char c := by
  rw [literal, hFlags]
  rfl

theorem step_plain (hPlace : r.place = .items) (hFlags : r.flags.caseless = false)
    (hPlain : c ∉ Pattern.specialChars) (hBare : c ≠ '\\') :
    r.step properties c = .ok (r.push (.char c)) := by
  unfold step
  rw [hPlace]
  dsimp only
  unfold beginItem
  split
  case h_4 => exact absurd rfl hBare
  case h_13 => rw [literal_eq hFlags]
  all_goals exact absurd (by decide) hPlain

theorem step_escaped (hPlace : r.place = .items) (hFlags : r.flags.caseless = false)
    (hc : c.isAlphanum = false) (hFirst : r.step properties '\\' = .ok middle)
    (hNext : middle.step properties c = .ok next) :
    ∃ item, next = r.push item ∧ (c = '<' ∧ item = .assert .wordStart ∨
      c = '>' ∧ item = .assert .wordEnd ∨ c ≠ '<' ∧ c ≠ '>' ∧ item = .char c) := by
  unfold step at hFirst
  rw [hPlace] at hFirst
  cases hFirst
  obtain ⟨read, hRead, hNext⟩ := bind_eq_ok_iff.mp hNext
  rcases Escape.step_of_not_alphanum hc hRead with ⟨hc, rfl⟩ | ⟨hc, rfl⟩ | ⟨hStart, hEnd, rfl⟩
  · cases hNext
    exact ⟨_, rfl, .inl ⟨hc, rfl⟩⟩
  · cases hNext
    exact ⟨_, rfl, .inr (.inl ⟨hc, rfl⟩)⟩
  · cases hNext
    exact ⟨_, rfl, .inr (.inr ⟨hStart, hEnd, literal_eq hFlags⟩)⟩

/-- A plain source adds its items to the current branch and does nothing else. -/
theorem foldlM_plain {source text : List Char} (h : source.foldlM (step properties) r = .ok last)
    (hPlain : Pattern.literalForm source = some text) (hPlace : r.place = .items)
    (hFlags : r.flags.caseless = false) :
    ∃ items, Pattern.Spells source items text ∧ last = items.foldl (fun r item => r.push item) r := by
  fun_induction Pattern.literalForm source generalizing text r with
  | case1 =>
    cases hPlain
    cases h
    exact ⟨[], .nil, rfl⟩
  | case2 => cases hPlain
  | case3 => cases hPlain
  | case4 c rest hc ih =>
    obtain ⟨text, hRest, rfl⟩ := Option.map_eq_some_iff.mp hPlain
    rw [List.foldlM_cons] at h
    obtain ⟨middle, hFirst, h⟩ := bind_eq_ok_iff.mp h
    rw [List.foldlM_cons] at h
    obtain ⟨next, hNext, h⟩ := bind_eq_ok_iff.mp h
    obtain ⟨item, rfl, hItem⟩ := step_escaped hPlace hFlags (Bool.eq_false_iff.mpr hc) hFirst hNext
    obtain ⟨items, hSpells, rfl⟩ := ih h hRest rfl hFlags
    refine ⟨item :: items, ?_, rfl⟩
    rcases hItem with ⟨rfl, rfl⟩ | ⟨rfl, rfl⟩ | ⟨hStart, hEnd, rfl⟩
    · exact .wordStart hSpells
    · exact .wordEnd hSpells
    · exact .escaped hStart hEnd hSpells
  | case5 => cases hPlain
  | case6 c rest hLast hPair hc ih =>
    obtain ⟨text, hRest, rfl⟩ := Option.map_eq_some_iff.mp hPlain
    have hBare : c ≠ '\\' := by
      cases rest with
      | nil => exact fun hc => hLast hc rfl
      | cons d rest => exact fun hc => hPair d rest hc rfl
    rw [List.contains_iff_mem] at hc
    rw [List.foldlM_cons, step_plain hPlace hFlags hc hBare] at h
    obtain ⟨items, hSpells, rfl⟩ := ih h hRest rfl hFlags
    exact ⟨.char c :: items, .bare hc hBare hSpells, rfl⟩

theorem foldl_push (items : List Regex) (hPlace : r.place = .items)
    (hFirst : r.current.finished = none) :
    (items.foldl (fun r item => r.push item) r).place = .items ∧
      (items.foldl (fun r item => r.push item) r).enclosing = r.enclosing ∧
      (items.foldl (fun r item => r.push item) r).current.result =
        items.foldl .seq r.current.branch := by
  induction items generalizing r with
  | nil =>
    refine ⟨hPlace, rfl, ?_⟩
    rw [List.foldl_nil, Branches.result, hFirst]
    rfl
  | cons item items ih => exact ih rfl hFirst

end Reader

section Ends

variable {text : Array Char}

theorem mergeMap_le {f : Nat → List Nat} {width n : Nat} (hWidth : ∀ p, ∀ q ∈ f p, q ≤ p + width)
    {ps : List Nat} (hPlaces : ∀ p ∈ ps, p ≤ n) : ∀ q ∈ mergeMap f ps, q ≤ n + width := by
  intro q hq
  obtain ⟨p, hp, hq⟩ := mem_mergeMap_iff.mp hq
  have hBound := hPlaces p hp
  have hReach := hWidth p q hq
  omega

theorem ends_foldl_seq (items : List Regex) (first : Regex) (p : Nat) :
    ends text (items.foldl .seq first) p =
      items.foldl (fun ps item => mergeMap (ends text item) ps) (ends text first p) := by
  induction items generalizing first with
  | nil => rfl
  | cons item items ih => exact ih (.seq first item)

theorem ends_char (c : Char) (p : Nat) :
    ends text (.char c) p = if text[p]? = some c then [p + 1] else [] := by
  rw [char, ends]
  cases hChar : text[p]? with
  | none => simp
  | some d => simp [CharSet.has_single_iff]

theorem le_of_mem_ends_char {c : Char} {p q : Nat} (h : q ∈ ends text (.char c) p) : q ≤ p + 1 := by
  rw [ends_char] at h
  split at h
  · exact Nat.le_of_eq (List.mem_singleton.mp h)
  · cases h

theorem le_of_mem_ends_assert {condition : Assertion} {p q : Nat}
    (h : q ∈ ends text (.assert condition) p) : q ≤ p + 0 := by
  rw [ends] at h
  split at h
  · exact Nat.le_of_eq (List.mem_singleton.mp h)
  · cases h

theorem foldl_ends_nil (items : List Regex) :
    items.foldl (fun ps item => mergeMap (ends text item) ps) [] = [] := by
  induction items with
  | nil => rfl
  | cons item items ih => exact ih

theorem foldl_ends_chars (chars : List Char) (p : Nat) :
    (chars.map Regex.char).foldl (fun ps item => mergeMap (ends text item) ps) [p] =
      if chars <+: text.toList.drop p then [p + chars.length] else [] := by
  induction chars generalizing p with
  | nil => simp
  | cons c chars ih =>
    rw [List.map_cons, List.foldl_cons, mergeMap_singleton, ends_char, ← Array.getElem?_toList]
    cases hRest : text.toList.drop p with
    | nil =>
      rw [List.drop_eq_nil_iff] at hRest
      rw [List.getElem?_eq_none hRest, if_neg nofun, foldl_ends_nil, if_neg (by simp)]
    | cons d rest =>
      obtain ⟨hChar, hTail⟩ : text.toList[p]? = some d ∧ text.toList.drop (p + 1) = rest := by
        constructor
        · rw [← List.head?_drop, hRest]
          rfl
        · rw [← List.tail_drop, hRest]
          rfl
      rw [hChar]
      by_cases hSame : d = c
      · rw [hSame, if_pos rfl, ih, hTail]
        simp only [List.cons_prefix_cons, true_and, List.length_cons]
        rw [Nat.add_right_comm, Nat.add_assoc]
      · have hNot : ¬ c :: chars <+: d :: rest := fun h => hSame (List.cons_prefix_cons.mp h).1.symm
        rw [if_neg (mt Option.some.inj hSame), foldl_ends_nil, if_neg hNot]

end Ends

end Regex

namespace Pattern

variable {properties : Properties} {p : Pattern} {source : String} {l : List Char}

theorem marksWordEdge_cons {c : Char} (hBare : c ≠ '\\') (rest : List Char) :
    marksWordEdge (c :: rest) = marksWordEdge rest := by
  rw [marksWordEdge]
  exact fun _ _ hc _ => hBare hc

theorem Spells.eq_chars {source l : List Char} {items : List Regex} (h : Spells source items l)
    (hUnmarked : marksWordEdge source = false) : items = l.map .char := by
  induction h with
  | nil => rfl
  | bare _ hBare _ ih =>
    rw [marksWordEdge_cons hBare] at hUnmarked
    rw [ih hUnmarked, List.map_cons]
  | escaped _ _ _ ih =>
    rw [marksWordEdge, Bool.or_eq_false_iff] at hUnmarked
    rw [ih hUnmarked.2, List.map_cons]
  | wordStart | wordEnd => cases hUnmarked

theorem Spells.mem_ends {text : Array Char} {source l : List Char} {items : List Regex}
    (h : Spells source items l) {ps : List Nat} {n q : Nat} (hPlaces : ∀ p ∈ ps, p ≤ n)
    (hq : q ∈ items.foldl (fun ps item => Regex.mergeMap (Regex.ends text item) ps) ps) :
    q ≤ n + l.length ∧ (marksWordEdge source = true → q < n + l.length) := by
  induction h generalizing ps n with
  | nil => exact ⟨hPlaces q hq, fun hMarked => by cases hMarked⟩
  | bare _ hBare _ ih =>
    obtain ⟨hLe, hLt⟩ := ih (Regex.mergeMap_le (fun _ _ => Regex.le_of_mem_ends_char) hPlaces) hq
    rw [marksWordEdge_cons hBare, List.length_cons]
    exact ⟨by omega, fun hMarked => by have := hLt hMarked; omega⟩
  | escaped hStart hEnd _ ih =>
    obtain ⟨hLe, hLt⟩ := ih (Regex.mergeMap_le (fun _ _ => Regex.le_of_mem_ends_char) hPlaces) hq
    rw [marksWordEdge, beq_eq_false_iff_ne.mpr hStart, beq_eq_false_iff_ne.mpr hEnd, List.length_cons]
    exact ⟨by omega, fun hMarked => by have := hLt hMarked; omega⟩
  | wordStart _ ih | wordEnd _ ih =>
    -- The literal form has a character here that no text needs to have.
    obtain ⟨hLe, -⟩ := ih (Regex.mergeMap_le (fun _ _ => Regex.le_of_mem_ends_assert) hPlaces) hq
    rw [List.length_cons]
    exact ⟨by omega, fun _ => by omega⟩

/-- The pattern of a plain source matches the items of the source, one after the other. -/
theorem exists_spells (hp : ofSource source properties = .ok p) (hLiteral : p.literal = some l) :
    ∃ items, Spells source.toList items l ∧ p.regex = (items.foldl Regex.seq Regex.empty).tied := by
  obtain ⟨regex, hRegex, hp⟩ := bind_eq_ok_iff.mp hp
  cases hp
  obtain ⟨depth, -, hRead⟩ := Regex.exists_read_of_ofChars hRegex
  obtain ⟨last, hRun, hFinish⟩ := Regex.Reader.read_eq_ok_iff.mp hRead
  rw [anchored, List.foldlM_append] at hRun
  obtain ⟨inner, hRun, hClose⟩ := bind_eq_ok_iff.mp hRun
  rw [List.foldlM_append] at hRun
  obtain ⟨opened, hOpen, hSource⟩ := bind_eq_ok_iff.mp hRun
  have hOpened : opened.place = .items ∧ opened.flags.caseless = false ∧
      opened.current.finished = none := by
    cases hOpen
    exact ⟨rfl, rfl, rfl⟩
  obtain ⟨items, hSpells, rfl⟩ :=
    Regex.Reader.foldlM_plain hSource hLiteral hOpened.1 hOpened.2.1
  obtain ⟨hPlace, hEnclosing, hBody⟩ := Regex.Reader.foldl_push items hOpened.1 hOpened.2.2
  rw [List.foldlM_cons, Regex.Reader.step_close (by rw [hPlace]; rfl)] at hClose
  obtain ⟨closed, hClose, hLast⟩ := bind_eq_ok_iff.mp hClose
  cases hLast
  cases hOpen
  rw [Regex.Reader.closeGroup, hEnclosing] at hClose
  cases hClose
  obtain ⟨-, -, hResult, -⟩ := Regex.Reader.finish_eq_ok_iff.mp hFinish
  exact ⟨items, hSpells, hResult.symm.trans (congrArg Regex.tied hBody)⟩

theorem find_of_unmarked (hp : ofSource source properties = .ok p) (hLiteral : p.literal = some l)
    (hUnmarked : marksWordEdge source.toList = false) (input : List Char) :
    p.find input = if l ≠ [] ∧ l <+: input then some l else none := by
  obtain ⟨items, hSpells, hRegex⟩ := exists_spells hp hLiteral
  have hEnd : (items.foldl Regex.seq Regex.empty).endAt? input.toArray 0 =
      if l <+: input then some l.length else none := by
    rw [Regex.endAt?, Regex.ends_foldl_seq, hSpells.eq_chars hUnmarked, Regex.ends,
      Regex.foldl_ends_chars, List.drop_zero, Nat.zero_add]
    split <;> rfl
  rw [find_of_endAt? hRegex, hEnd]
  by_cases hBeginning : l <+: input
  · obtain ⟨behind, rfl⟩ := hBeginning
    rw [if_pos (List.prefix_append l behind), Option.bind_some, List.take_left]
    by_cases hEmpty : l = []
    · rw [if_pos (List.length_eq_zero_iff.mpr hEmpty), if_neg fun h => h.1 hEmpty]
    · rw [if_neg (mt List.length_eq_zero_iff.mp hEmpty), if_pos ⟨hEmpty, List.prefix_append l behind⟩]
  · rw [if_neg hBeginning, if_neg fun h => hBeginning h.2]
    rfl

theorem length_lt_of_marked (hp : ofSource source properties = .ok p) (hLiteral : p.literal = some l)
    (hMarked : marksWordEdge source.toList = true) {input found : List Char}
    (h : p.find input = some found) : found.length < l.length := by
  obtain ⟨items, hSpells, hRegex⟩ := exists_spells hp hLiteral
  obtain ⟨-, -, hEnd⟩ := (find_eq_some_iff hRegex).mp h
  have hMem := List.mem_of_head? hEnd
  rw [Regex.ends_foldl_seq] at hMem
  obtain ⟨-, hLess⟩ := hSpells.mem_ends (n := 0) (fun p hp => Nat.le_of_eq (List.mem_singleton.mp hp)) hMem
  rw [Nat.zero_add] at hLess
  exact hLess hMarked

/-- The text is the one that the pattern matches: it is found wherever a text begins with it, and nothing
is found anywhere else. -/
def FindsOnly (p : Pattern) (l : List Char) : Prop :=
  (l ≠ [] → ∀ input, (l <+: input → p.find input = some l) ∧ (¬ l <+: input → p.find input = none)) ∧
    (l = [] → ∀ input, p.find input = none)

/-- The literal form of a pattern is the text that it matches just when no escape of its source marks the
edge of a word. Otherwise everything that the pattern finds is shorter. -/
theorem literal_exact_iff (hp : ofSource source properties = .ok p) (hLiteral : p.literal = some l) :
    (p.FindsOnly l ↔ marksWordEdge source.toList = false) ∧
      (marksWordEdge source.toList = true →
        ∀ input found, p.find input = some found → found.length < l.length) := by
  have hShorter (hMarked : marksWordEdge source.toList = true) (input found : List Char)
      (h : p.find input = some found) : found.length < l.length :=
    length_lt_of_marked hp hLiteral hMarked h
  refine ⟨⟨fun hOnly => ?_, fun hUnmarked => ⟨fun hText input => ⟨?_, ?_⟩, ?_⟩⟩, hShorter⟩
  · rw [← Bool.not_eq_true]
    intro hMarked
    have hText : l ≠ [] := by
      rintro rfl
      obtain ⟨items, hSpells, -⟩ := exists_spells hp hLiteral
      generalize source.toList = chars at hSpells hMarked
      cases hSpells
      cases hMarked
    have hFinds := (hOnly.1 hText l).1 List.prefix_rfl
    exact Nat.lt_irrefl _ (hShorter hMarked l l hFinds)
  · intro hBeginning
    rw [find_of_unmarked hp hLiteral hUnmarked, if_pos ⟨hText, hBeginning⟩]
  · intro hBeginning
    rw [find_of_unmarked hp hLiteral hUnmarked, if_neg fun h => hBeginning h.2]
  · intro hEmpty input
    rw [find_of_unmarked hp hLiteral hUnmarked, if_neg fun h => h.1 hEmpty]

theorem literal_exact_iff_operators :
    (∃ p, ofSource "\\+=" = .ok p ∧ p.literal = some ['+', '='] ∧ p.FindsOnly ['+', '=']) ∧
      ∃ p, ofSource "\\<if" = .ok p ∧ p.literal = some ['<', 'i', 'f'] ∧ ¬ p.FindsOnly ['<', 'i', 'f'] ∧
        p.find "if x".toList = some "if".toList ∧ "if".toList.length < ['<', 'i', 'f'].length := by
  have hPlus : ∃ p, ofSource "\\+=" = .ok p ∧ p.literal = some ['+', '='] := ⟨_, rfl, rfl⟩
  have hWord : ∃ p, ofSource "\\<if" = .ok p ∧ p.literal = some ['<', 'i', 'f'] ∧
    p.find "if x".toList = some "if".toList := ⟨_, rfl, rfl, rfl⟩
  obtain ⟨plus, hPlus, hPlusLiteral⟩ := hPlus
  obtain ⟨word, hWord, hWordLiteral, hFind⟩ := hWord
  refine ⟨⟨plus, hPlus, hPlusLiteral, (literal_exact_iff hPlus hPlusLiteral).1.mpr (by decide)⟩,
    word, hWord, hWordLiteral, fun hOnly => ?_, hFind,
    (literal_exact_iff hWord hWordLiteral).2 (by decide) _ _ hFind⟩
  exact absurd ((literal_exact_iff hWord hWordLiteral).1.mp hOnly) (by decide)

/-- An escaped angle bracket is plain but stands for the beginning of a word, and finds nothing. -/
theorem literal_not_exact : ¬ ∀ (source : String) (p : Pattern) (l : List Char),
    ofSource source = .ok p → p.literal = some l → p.FindsOnly l := by
  intro hAll
  obtain ⟨p, hp, hLiteral, hFind⟩ : ∃ p, ofSource "\\<" = .ok p ∧ p.literal = some ['<'] ∧
    p.find ['<'] = none := ⟨_, rfl, rfl, rfl⟩
  have hFinds := ((hAll _ p _ hp hLiteral).1 (List.cons_ne_nil _ _) ['<']).1 List.prefix_rfl
  rw [hFind] at hFinds
  cases hFinds

end Pattern

end Lexigram
