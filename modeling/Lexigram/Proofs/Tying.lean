import Lexigram.Proofs.Backtracking
import Lexigram.Proofs.Wrapping

/-! # What a tied pattern finds

A source that is an expression by itself makes a pattern, if it is not nested too deeply, and the pattern
finds what the expression prefers among its matches at the beginning of the text. No construct of the
source gets around being tied to the beginning.
-/

namespace Lexigram

namespace Regex

variable {properties : Properties} {body : Regex} {text : Array Char}

theorem ends_tied (p : Nat) : ends text body.tied p = if p = 0 then ends text body 0 else [] := by
  have hStart : ends text (.seq .empty (.assert .textStart)) p = if p = 0 then [p] else [] := by
    cases p <;> rfl
  rw [tied, ends, hStart]
  by_cases hp : p = 0
  · rw [if_pos hp, if_pos hp, hp]
    exact List.append_nil _
  · rw [if_neg hp, if_neg hp]
    rfl

theorem endAt?_tied (p : Nat) : body.tied.endAt? text p = if p = 0 then body.endAt? text 0 else none := by
  rw [endAt?, ends_tied]
  split <;> rfl

theorem search?_tied : body.tied.search? text = (body.endAt? text 0).map (0, ·) := by
  rw [search?, List.range_succ_eq_map, List.findSome?_cons, endAt?_tied, if_pos rfl]
  cases body.endAt? text 0 with
  | some q => rfl
  | none =>
    refine List.findSome?_eq_none_iff.mpr fun p hp => ?_
    obtain ⟨q, -, rfl⟩ := List.mem_map.mp hp
    rw [endAt?_tied, if_neg (Nat.succ_ne_zero q)]
    rfl

theorem ofChars_of_read {source : List Char} {depth : Nat}
    (h : read source properties = .ok (body, depth)) :
    ofChars source properties = if depth ≤ depthLimit then .ok body else .error .tooDeep := by
  rw [ofChars, h]
  rfl

theorem exists_read_of_ofChars {source : List Char} (h : ofChars source properties = .ok body) :
    ∃ depth ≤ depthLimit, read source properties = .ok (body, depth) := by
  obtain ⟨⟨regex, depth⟩, hRead, hDepth⟩ := bind_eq_ok_iff.mp h
  dsimp only at hDepth
  split at hDepth
  · rename_i hLimit
    cases hDepth
    exact ⟨depth, hLimit, hRead⟩
  · cases hDepth

end Regex

namespace Pattern

variable {properties : Properties} {p : Pattern} {body : Regex}

theorem ofSource_of_read {source : String} {depth : Nat}
    (h : Regex.read source.toList properties = .ok (body, depth)) : ofSource source properties =
      if depth + 2 ≤ Regex.depthLimit then .ok ⟨source, body.tied, literalForm source.toList⟩
      else .error .tooDeep := by
  rw [ofSource, Regex.ofChars_of_read (Regex.read_anchored h)]
  split <;> rfl

theorem regex_of_ofSource {source : String} (hAlone : Regex.ofChars source.toList properties = .ok body)
    (h : ofSource source properties = .ok p) : p.regex = body.tied := by
  obtain ⟨depth, -, hRead⟩ := Regex.exists_read_of_ofChars hAlone
  rw [ofSource_of_read hRead] at h
  split at h <;> cases h
  rfl

variable {input found : List Char}

theorem find_of_endAt? (hRegex : p.regex = body.tied) : p.find input =
    (body.endAt? input.toArray 0).bind fun q => if q = 0 then none else some (input.take q) := by
  unfold find
  rw [hRegex, Regex.search?_tied]
  cases hEnd : body.endAt? input.toArray 0 with
  | none => rfl
  | some q =>
    cases q with
    | zero => rfl
    | succ q =>
      have hSize := (Regex.matches_of_endAt? (Nat.zero_le _) hEnd).2.2
      cases input with
      | nil => simp at hSize
      | cons c input => rfl

theorem find_eq_some_iff (hRegex : p.regex = body.tied) : p.find input = some found ↔
    found ≠ [] ∧ found <+: input ∧ body.endAt? input.toArray 0 = some found.length := by
  rw [find_of_endAt? hRegex, Option.bind_eq_some_iff]
  constructor
  · rintro ⟨q, hEnd, hFound⟩
    have hSize := (Regex.matches_of_endAt? (Nat.zero_le _) hEnd).2.2
    rw [List.size_toArray] at hSize
    split at hFound <;> cases hFound
    have hLength : (input.take q).length = q := by rw [List.length_take, Nat.min_eq_left hSize]
    refine ⟨List.ne_nil_of_length_pos (by omega), List.take_prefix q input, ?_⟩
    rw [hEnd, hLength]
  · rintro ⟨hFound, ⟨behind, rfl⟩, hEnd⟩
    refine ⟨found.length, hEnd, ?_⟩
    rw [if_neg (mt List.length_eq_zero_iff.mp hFound), List.take_left]

theorem find_eq_none_iff (hRegex : p.regex = body.tied) : p.find input = none ↔
    body.endAt? input.toArray 0 = none ∨ body.endAt? input.toArray 0 = some 0 := by
  rw [find_of_endAt? hRegex]
  cases body.endAt? input.toArray 0 with
  | none => simp
  | some q => cases q <;> simp

/-- A source that is an expression by itself makes a pattern unless it is nested too deeply with what is
put around it, whatever the names of properties stand for. The pattern finds the match at the beginning of
the text that a search with backtracking gets to first, and finds nothing when there is none or that one is
empty. -/
theorem finds_preferred {source : String} (hAlone : Regex.ofChars source.toList properties = .ok body) :
    (∃ depth, Regex.read source.toList properties = .ok (body, depth) ∧
      ((∃ p, ofSource source properties = .ok p) ↔ depth + 2 ≤ Regex.depthLimit)) ∧
    ∀ p, ofSource source properties = .ok p → ∀ input,
      (∀ found, p.find input = some found ↔ found ≠ [] ∧ found <+: input ∧
        body.Matches input.toArray 0 found.length ∧
          body.backtrack input.toArray some 0 = some found.length) ∧
      (p.find input = none ↔ (∀ q, ¬ body.Matches input.toArray 0 q) ∨
        body.backtrack input.toArray some 0 = some 0) := by
  obtain ⟨depth, -, hRead⟩ := Regex.exists_read_of_ofChars hAlone
  refine ⟨⟨depth, hRead, ?_⟩, fun p hp input => ?_⟩
  · rw [ofSource_of_read hRead]
    split
    · rename_i hLimit
      exact ⟨fun _ => hLimit, fun _ => ⟨_, rfl⟩⟩
    · rename_i hLimit
      exact ⟨fun ⟨_, hp⟩ => (by cases hp), fun h => absurd h hLimit⟩
  · have hRegex := regex_of_ofSource hAlone hp
    have hStart : 0 ≤ input.toArray.size := Nat.zero_le _
    constructor
    · intro found
      rw [find_eq_some_iff hRegex, ← Regex.endAt?_eq_backtrack hStart]
      constructor
      · rintro ⟨hFound, hBeginning, hEnd⟩
        exact ⟨hFound, hBeginning, (Regex.matches_of_endAt? hStart hEnd).1, hEnd⟩
      · rintro ⟨hFound, hBeginning, -, hEnd⟩
        exact ⟨hFound, hBeginning, hEnd⟩
    · rw [find_eq_none_iff hRegex, Regex.endAt?_eq_none_iff hStart, Regex.endAt?_eq_backtrack hStart]

/-- The expression that `a|(?i)B+?c|` stands for. -/
def choices : Regex :=
  .alt (.alt (.seq .empty (.char 'a')) (.seq (.seq .empty
    (.rep (.chars (.caseless (.single 'B'))) 1 none false)) (.chars (.caseless (.single 'c'))))) .empty

theorem finds_preferred_choices : Regex.ofChars "a|(?i)B+?c|".toList = .ok choices ∧
    ∃ p, ofSource "a|(?i)B+?c|" = .ok p ∧ p.find "bBCd".toList = some "bBC".toList ∧
      choices.backtrack "bBCd".toList.toArray some 0 = some 3 ∧ p.find "xa".toList = none := by
  have hAlone : Regex.ofChars "a|(?i)B+?c|".toList = .ok choices := rfl
  obtain ⟨⟨depth, hRead, hMade⟩, hFinds⟩ := finds_preferred hAlone
  have hDepth : Regex.read "a|(?i)B+?c|".toList = .ok (choices, 3) := rfl
  obtain ⟨-, rfl⟩ := Prod.mk.inj (Except.ok.inj (hDepth.symm.trans hRead))
  obtain ⟨p, hp⟩ := hMade.mpr (by decide)
  have hSearch : choices.backtrack "bBCd".toList.toArray some 0 = some 3 := rfl
  refine ⟨hAlone, p, hp, ?_, hSearch, (hFinds p hp _).2.mpr (.inr rfl)⟩
  refine ((hFinds p hp _).1 _).mpr ⟨by decide, by decide, ?_, hSearch⟩
  exact (Regex.matches_of_endAt? (Nat.zero_le _)
    ((Regex.endAt?_eq_backtrack (Nat.zero_le _)).trans hSearch)).1

end Pattern

namespace Regex

def parenthesised : Nat → List Char
  | 0 => ['a']
  | n + 1 => '(' :: (parenthesised n ++ [')'])

theorem exists_read_parenthesised (n : Nat) : ∃ body, read (parenthesised n) = .ok (body, n) := by
  induction n with
  | zero => exact ⟨_, rfl⟩
  | succ n ih =>
    obtain ⟨body, h⟩ := ih
    cases n with
    | zero => exact ⟨_, read_group h (by decide)⟩
    | succ n => exact ⟨_, read_group h (by decide)⟩

end Regex

/-- There are expressions that cannot be nested any deeper, so no pattern can be made of them. -/
theorem Pattern.too_deep_to_tie :
    (∃ body, Regex.ofChars (String.ofList (Regex.parenthesised 250)).toList = .ok body) ∧
      ofSource (String.ofList (Regex.parenthesised 250)) = .error .tooDeep := by
  obtain ⟨body, hRead⟩ := Regex.exists_read_parenthesised 250
  rw [← String.toList_ofList (l := Regex.parenthesised 250)] at hRead
  exact ⟨⟨body, Regex.ofChars_of_read hRead⟩, Pattern.ofSource_of_read hRead⟩

end Lexigram
