import Lexigram.Pattern
import Lexigram.Proofs.Repetition

/-! # Matches

When an expression matches a part of a text, told without any order or preference. The matcher gives the
ends of exactly these matches.
-/

namespace Lexigram

namespace Regex

/-- The expression matches what stands between two places of the text. -/
def Matches (text : Array Char) : Regex → Nat → Nat → Prop
  | .empty, p, q => q = p
  | .chars set, p, q => ∃ c, text[p]? = some c ∧ set.has c = true ∧ q = p + 1
  | .assert condition, p, q => condition.holds text p = true ∧ q = p
  | .seq a b, p, q => ∃ r, Matches text a p r ∧ Matches text b r q
  | .alt a b, p, q => Matches text a p q ∨ Matches text b p q
  | .rep a least most _, p, q => ∃ n, least ≤ n ∧ (∀ m ∈ most, n ≤ max least m) ∧
      Copies (Matches text a) n p q

theorem Copies.imp {single single' : Nat → Nat → Prop} {size n p q : Nat}
    (hBounds : ∀ p ≤ size, ∀ q, single p q → q ≤ size)
    (hImp : ∀ p ≤ size, ∀ q, single p q → single' p q) (hp : p ≤ size) (h : Copies single n p q) :
    Copies single' n p q := by
  induction h with
  | none p => exact .none p
  | more hFirst _ ih => exact .more (hImp _ hp _ hFirst) (ih (hBounds _ hp _ hFirst))

variable {text : Array Char} {p q : Nat}

theorem lt_size_of_getElem? {c : Char} (h : text[p]? = some c) : p < text.size := by
  obtain ⟨hp, -⟩ := Array.getElem?_eq_some_iff.mp h
  exact hp

/-- The ends that the matcher gives are those of the matches, and lie between `p` and the end of the
text. -/
theorem mem_ends_iff_and_advances (text : Array Char) (regex : Regex) :
    Advances text.size (ends text regex) ∧
      ∀ p ≤ text.size, ∀ q, q ∈ ends text regex p ↔ Matches text regex p q := by
  induction regex with
  | empty =>
    refine ⟨fun p hp q hq => ?_, fun p _ q => List.mem_singleton⟩
    obtain rfl := List.mem_singleton.mp hq
    exact ⟨Nat.le_refl _, hp⟩
  | chars set =>
    have hMem (p q : Nat) : q ∈ ends text (.chars set) p ↔ Matches text (.chars set) p q := by
      rw [ends, Matches]
      cases hChar : text[p]? with
      | none => simp
      | some c => cases hHas : set.has c <;> simp [hHas]
    refine ⟨fun p _ q hq => ?_, fun p _ q => hMem p q⟩
    obtain ⟨c, hChar, -, rfl⟩ := (hMem p q).mp hq
    exact ⟨Nat.le_succ p, lt_size_of_getElem? hChar⟩
  | assert condition =>
    have hMem (p q : Nat) : q ∈ ends text (.assert condition) p ↔
        Matches text (.assert condition) p q := by
      rw [ends, Matches]
      cases hHolds : condition.holds text p <;> simp
    refine ⟨fun p hp q hq => ?_, fun p _ q => hMem p q⟩
    obtain ⟨-, rfl⟩ := (hMem p q).mp hq
    exact ⟨Nat.le_refl _, hp⟩
  | seq a b iha ihb =>
    refine ⟨fun p hp q hq => ?_, fun p hp q => ?_⟩
    · obtain ⟨r, hr, hq⟩ := mem_mergeMap_iff.mp hq
      obtain ⟨hpr, hr⟩ := iha.1 p hp r hr
      obtain ⟨hrq, hq⟩ := ihb.1 r hr q hq
      exact ⟨Nat.le_trans hpr hrq, hq⟩
    · rw [ends, mem_mergeMap_iff, Matches]
      constructor
      · rintro ⟨r, hr, hq⟩
        exact ⟨r, (iha.2 p hp r).mp hr, (ihb.2 r (iha.1 p hp r hr).2 q).mp hq⟩
      · rintro ⟨r, hr, hq⟩
        have hr := (iha.2 p hp r).mpr hr
        exact ⟨r, hr, (ihb.2 r (iha.1 p hp r hr).2 q).mpr hq⟩
  | alt a b iha ihb =>
    refine ⟨fun p hp q hq => ?_, fun p hp q => ?_⟩
    · exact (mem_merge_iff.mp hq).elim (iha.1 p hp q) (ihb.1 p hp q)
    · rw [ends, mem_merge_iff, iha.2 p hp, ihb.2 p hp, Matches]
  | rep a least most greedy ih =>
    refine ⟨fun p hp q hq => ?_, fun p hp q => ?_⟩
    · obtain ⟨n, -, -, h⟩ := (mem_repeated_iff ih.1 hp).mp hq
      exact h.bounds ih.1 hp
    · rw [ends, mem_repeated_iff ih.1 hp, Matches]
      have hBounds (r : Nat) (hr : r ≤ text.size) (q : Nat) (hq : q ∈ ends text a r) : q ≤ text.size :=
        (ih.1 r hr q hq).2
      refine exists_congr fun n => and_congr_right fun _ => and_congr_right fun _ => ?_
      constructor
      · exact Copies.imp hBounds (fun r hr q => (ih.2 r hr q).mp) hp
      · exact Copies.imp (fun r hr q hq => hBounds r hr q ((ih.2 r hr q).mpr hq))
          (fun r hr q => (ih.2 r hr q).mpr) hp

theorem advances_ends (text : Array Char) (regex : Regex) : Advances text.size (ends text regex) :=
  (mem_ends_iff_and_advances text regex).1

theorem mem_ends_iff {regex : Regex} (hp : p ≤ text.size) :
    q ∈ ends text regex p ↔ Matches text regex p q :=
  (mem_ends_iff_and_advances text regex).2 p hp q

theorem endAt?_eq_none_iff {regex : Regex} (hp : p ≤ text.size) :
    regex.endAt? text p = none ↔ ∀ q, ¬ Matches text regex p q := by
  rw [endAt?, List.head?_eq_none_iff, List.eq_nil_iff_forall_not_mem]
  exact forall_congr' fun q => not_congr (mem_ends_iff hp)

theorem matches_of_endAt? {regex : Regex} (hp : p ≤ text.size) (h : regex.endAt? text p = some q) :
    Matches text regex p q ∧ p ≤ q ∧ q ≤ text.size := by
  have hMem := List.mem_of_head? h
  exact ⟨(mem_ends_iff hp).mp hMem, advances_ends text regex p hp q hMem⟩

end Regex

/-! ## Anchored expressions

An expression that begins with the assertion of the beginning of the text has matches there only, so
what its pattern finds is a beginning of the text.
-/

namespace Regex

def tied (body : Regex) : Regex :=
  .seq (.seq .empty (.assert .textStart)) body

theorem eq_zero_of_mem_ends_tied {body : Regex} {text : Array Char} {p q : Nat}
    (h : q ∈ ends text (tied body) p) : p = 0 := by
  obtain ⟨r, hr, -⟩ := mem_mergeMap_iff.mp h
  obtain ⟨s, hs, hAssert⟩ := mem_mergeMap_iff.mp hr
  obtain rfl := List.mem_singleton.mp hs
  rw [ends] at hAssert
  split at hAssert
  · rename_i hHolds
    exact beq_iff_eq.mp hHolds
  · exact absurd hAssert List.not_mem_nil

theorem mem_ends_of_search? {regex : Regex} {text : Array Char} {first last : Nat}
    (h : regex.search? text = some (first, last)) : last ∈ ends text regex first := by
  obtain ⟨p, -, hEnd⟩ := List.exists_of_findSome?_eq_some h
  obtain ⟨q, hHead, hPair⟩ := Option.map_eq_some_iff.mp hEnd
  cases hPair
  exact List.mem_of_head? hHead

end Regex

theorem Pattern.isPrefix_of_find {p : Pattern} {body : Regex} (hRegex : p.regex = body.tied)
    {text found : List Char} (h : p.find text = some found) : found <+: text := by
  unfold find at h
  split at h
  · rename_i first last hSearch
    rw [hRegex] at hSearch
    have hFirst := Regex.eq_zero_of_mem_ends_tied (Regex.mem_ends_of_search? hSearch)
    subst hFirst
    split at h
    · split at h
      · cases h
      · cases h
        exact List.take_prefix _ text
    · cases h
  · cases h

end Lexigram
