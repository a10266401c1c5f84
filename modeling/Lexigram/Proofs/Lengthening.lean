import Lexigram.Proofs.Tying

/-! # Longer texts

An expression without assertions looks at nothing but the characters that it takes. In a longer text it
has the ends that it has in the shorter one, in the same order, and besides them only ends behind the
shorter text. It may prefer one of these, but it does not turn to an empty match.
-/

namespace Lexigram

namespace Regex

def hasAssertion : Regex → Bool
  | .empty => false
  | .chars _ => false
  | .assert _ => true
  | .seq a b => a.hasAssertion || b.hasAssertion
  | .alt a b => a.hasAssertion || b.hasAssertion
  | .rep a _ _ _ => a.hasAssertion

def inside (size : Nat) (ps : List Nat) : List Nat :=
  ps.filter (· ≤ size)

section Inside

variable {size : Nat}

theorem inside_cons_of_le {p : Nat} (hp : p ≤ size) (ps : List Nat) :
    inside size (p :: ps) = p :: inside size ps :=
  List.filter_cons_of_pos (decide_eq_true hp)

theorem inside_cons_of_lt {p : Nat} (hp : size < p) (ps : List Nat) :
    inside size (p :: ps) = inside size ps :=
  List.filter_cons_of_neg (by rw [decide_eq_true_iff]; omega)

theorem inside_eq_nil {ps : List Nat} (h : ∀ p ∈ ps, size < p) : inside size ps = [] := by
  refine List.filter_eq_nil_iff.mpr fun p hp => ?_
  rw [decide_eq_true_iff]
  exact Nat.not_le.mpr (h p hp)

theorem inside_merge (a b : List Nat) : inside size (merge a b) = merge (inside size a) (inside size b) := by
  unfold merge inside
  rw [List.filter_append, List.filter_filter, List.filter_filter]
  refine congrArg _ (List.filter_congr fun q _ => ?_)
  by_cases hq : q ≤ size <;> simp [hq]

theorem inside_goOrStop {greedy : Bool} {p : Nat} (hp : p ≤ size) (further : List Nat) :
    inside size (goOrStop greedy p further) = goOrStop greedy p (inside size further) := by
  have hHere : inside size [p] = [p] := inside_cons_of_le hp []
  unfold goOrStop
  split <;> rw [inside_merge, hHere]

theorem inside_mergeMap {f g : Nat → List Nat} {ps : List Nat}
    (hInside : ∀ p ∈ ps, p ≤ size → inside size (f p) = g p)
    (hBehind : ∀ p ∈ ps, size < p → inside size (f p) = []) :
    inside size (mergeMap f ps) = mergeMap g (inside size ps) := by
  induction ps with
  | nil => rfl
  | cons p ps ih =>
    rw [List.forall_mem_cons] at hInside hBehind
    rw [mergeMap, inside_merge, ih hInside.2 hBehind.2]
    by_cases hp : p ≤ size
    · rw [hInside.1 hp, inside_cons_of_le hp, mergeMap]
    · rw [hBehind.1 (Nat.not_le.mp hp), inside_cons_of_lt (Nat.not_le.mp hp), nil_merge]

theorem Advances.inside_eq_nil {longer : Nat} {f : Nat → List Nat} (h : Advances longer f) {p : Nat}
    (hp : p ≤ longer) (hBehind : size < p) : inside size (f p) = [] :=
  Regex.inside_eq_nil fun q hq => Nat.lt_of_lt_of_le hBehind (h p hp q hq).1

end Inside

section Repetitions

variable {size longer : Nat} {step step' : Nat → List Nat} {greedy : Bool} {p n : Nat}

/-- In a longer text single copies end where they do in the shorter one, or else behind it. -/
structure Lengthens (size longer : Nat) (step step' : Nat → List Nat) : Prop where
  size_le : size ≤ longer
  advances : Advances size step
  advances' : Advances longer step'
  inside_eq : ∀ p ≤ size, inside size (step' p) = step p

namespace Lengthens

theorem inside_furtherFrom (h : Lengthens size longer step step') (hp : p ≤ size) :
    inside size (furtherFrom step' greedy longer p) = furtherFrom step greedy size p := by
  obtain ⟨left, hLeft⟩ : ∃ left, left = size - p := ⟨_, rfl⟩
  induction left using Nat.strongRecOn generalizing p with
  | _ left ih =>
    have hp' := Nat.le_trans hp h.size_le
    rw [furtherFrom_eq h.advances' hp', furtherFrom_eq h.advances hp, inside_goOrStop hp,
      ← h.inside_eq p hp]
    refine congrArg _ (inside_mergeMap (fun q _ hSize => ?_) fun q hq hSize => ?_)
    · by_cases hq : q ≤ p
      · rw [if_pos hq, if_pos hq]
        rfl
      · rw [if_neg hq, if_neg hq]
        exact ih (size - q) (by omega) hSize rfl
    · rw [if_neg (by omega)]
      exact (advances_furtherFrom h.advances').inside_eq_nil (h.advances' p hp' q hq).2 hSize

theorem inside_oneOrMore (h : Lengthens size longer step step') (hp : p ≤ size) :
    inside size (oneOrMore step' greedy longer p) = oneOrMore step greedy size p := by
  have hp' := Nat.le_trans hp h.size_le
  rw [oneOrMore_eq h.advances' hp', oneOrMore_eq h.advances hp, ← h.inside_eq p hp]
  refine inside_mergeMap (fun q _ hSize => ?_) fun q hq hSize => ?_
  · by_cases hq : q ≤ p
    · rw [if_pos hq, if_pos hq]
      exact inside_cons_of_le hp []
    · rw [if_neg hq, if_neg hq]
      exact h.inside_furtherFrom hSize
  · rw [if_neg (by omega)]
    exact (advances_furtherFrom h.advances').inside_eq_nil (h.advances' p hp' q hq).2 hSize

theorem inside_upTo (h : Lengthens size longer step step') (hp : p ≤ size) :
    inside size (upTo step' greedy longer p n) = upTo step greedy size p n := by
  induction n generalizing p with
  | zero =>
    rw [upTo_zero (Nat.le_trans hp h.size_le), upTo_zero hp]
    exact inside_cons_of_le hp []
  | succ n ih =>
    have hp' := Nat.le_trans hp h.size_le
    rw [upTo_succ h.advances' hp', upTo_succ h.advances hp, inside_goOrStop hp, ← h.inside_eq p hp]
    refine congrArg _ (inside_mergeMap (fun q _ hSize => ih hSize) fun q hq hSize => ?_)
    exact (advances_upTo h.advances').inside_eq_nil (h.advances' p hp' q hq).2 hSize

theorem inside_times (h : Lengthens size longer step step') {ps : List Nat}
    (hPlaces : ∀ p ∈ ps, p ≤ longer) :
    inside size (times step' n ps) = times step n (inside size ps) := by
  induction n generalizing ps with
  | zero => rfl
  | succ n ih =>
    rw [times_succ, times_succ, ih (h.advances'.mergeMap_le hPlaces),
      inside_mergeMap fun p _ => h.inside_eq p]
    exact fun p hp hSize => h.advances'.inside_eq_nil (hPlaces p hp) hSize

theorem inside_repeated (h : Lengthens size longer step step') (hp : p ≤ size) (least : Nat)
    (most : Option Nat) : inside size (repeated step' greedy longer p least most) =
      repeated step greedy size p least most := by
  have hp' := Nat.le_trans hp h.size_le
  have hTimes (n : Nat) : inside size (times step' n [p]) = times step n [p] := by
    rw [h.inside_times fun q hq => (List.mem_singleton.mp hq).symm ▸ hp', inside_cons_of_le hp]
    rfl
  have hReached (n q : Nat) (hq : q ∈ times step' n [p]) : q ≤ longer :=
    (advances_times h.advances' p hp' q hq).2
  cases most with
  | none =>
    cases least with
    | zero => rw [repeated, repeated, inside_goOrStop hp, h.inside_oneOrMore hp]
    | succ least =>
      rw [repeated, repeated, ← hTimes]
      refine inside_mergeMap (fun q _ => h.inside_oneOrMore) fun q hq hSize => ?_
      exact (advances_oneOrMore h.advances').inside_eq_nil (hReached _ q hq) hSize
  | some most =>
    rw [repeated, repeated, ← hTimes]
    refine inside_mergeMap (fun q _ => h.inside_upTo) fun q hq hSize => ?_
    exact (advances_upTo h.advances').inside_eq_nil (hReached _ q hq) hSize

end Lengthens

end Repetitions

/-- The ends that an expression without assertions has in a longer text, as far as they lie in the shorter
one, are its ends there. -/
theorem lengthens_ends (text more : Array Char) {regex : Regex} (hFree : regex.hasAssertion = false) :
    Lengthens text.size (text ++ more).size (ends text regex) (ends (text ++ more) regex) := by
  have hSize : text.size ≤ (text ++ more).size := by
    rw [Array.size_append]
    exact Nat.le_add_right _ _
  refine ⟨hSize, advances_ends text regex, advances_ends (text ++ more) regex, ?_⟩
  induction regex with
  | empty => exact fun p hp => inside_cons_of_le hp []
  | chars set =>
    intro p hp
    rcases Nat.lt_or_eq_of_le hp with hp | rfl
    · rw [ends, ends, Array.getElem?_append_left hp, Array.getElem?_eq_getElem hp]
      dsimp only
      split
      · exact inside_cons_of_le hp []
      · rfl
    · have hNone : ends text (.chars set) text.size = [] := by
        rw [ends, Array.getElem?_eq_none (Nat.le_refl _)]
      rw [hNone]
      refine inside_eq_nil fun q hq => ?_
      obtain ⟨c, -, -, rfl⟩ := (mem_ends_iff hSize).mp hq
      exact Nat.lt_succ_self _
  | assert condition => cases hFree
  | seq a b iha ihb =>
    rw [hasAssertion, Bool.or_eq_false_iff] at hFree
    intro p hp
    rw [ends, ends, ← iha hFree.1 p hp]
    refine inside_mergeMap (fun q _ => ihb hFree.2 q) fun q hq hBehind => ?_
    have hq := (advances_ends (text ++ more) a p (Nat.le_trans hp hSize) q hq).2
    exact (advances_ends (text ++ more) b).inside_eq_nil hq hBehind
  | alt a b iha ihb =>
    rw [hasAssertion, Bool.or_eq_false_iff] at hFree
    intro p hp
    rw [ends, ends, inside_merge, iha hFree.1 p hp, ihb hFree.2 p hp]
  | rep a least most greedy ih =>
    intro p hp
    have h : Lengthens text.size (text ++ more).size (ends text a) (ends (text ++ more) a) :=
      ⟨hSize, advances_ends text a, advances_ends (text ++ more) a, ih hFree⟩
    exact h.inside_repeated hp least most

theorem endAt?_append {text : Array Char} (more : Array Char) {regex : Regex}
    (hFree : regex.hasAssertion = false) {p q : Nat} (hp : p ≤ text.size)
    (h : regex.endAt? text p = some q) :
    ∃ q', regex.endAt? (text ++ more) p = some q' ∧ (q' = q ∨ text.size < q') := by
  have hInside := (lengthens_ends text more hFree).inside_eq p hp
  unfold endAt? at h ⊢
  cases hEnds : ends (text ++ more) regex p with
  | nil =>
    rw [← hInside, hEnds] at h
    cases h
  | cons q' qs =>
    refine ⟨q', rfl, ?_⟩
    by_cases hq : q' ≤ text.size
    · rw [← hInside, hEnds, inside_cons_of_le hq] at h
      exact .inl (Option.some.inj h)
    · exact .inr (Nat.not_le.mp hq)

end Regex

theorem Pattern.isSome_find_append {p : Pattern} {body : Regex} (hRegex : p.regex = body.tied)
    (hFree : body.hasAssertion = false) {text : List Char} (h : (p.find text).isSome)
    (more : List Char) : (p.find (text ++ more)).isSome := by
  obtain ⟨found, hFound⟩ := Option.isSome_iff_exists.mp h
  obtain ⟨hText, -, hEnd⟩ := (find_eq_some_iff hRegex).mp hFound
  obtain ⟨q, hLonger, hq⟩ := Regex.endAt?_append more.toArray hFree (Nat.zero_le _) hEnd
  have hPos := List.length_pos_iff.mpr hText
  rw [List.append_toArray] at hLonger
  rw [find_of_endAt? hRegex, hLonger, Option.bind_some, if_neg (by omega)]
  rfl

end Lexigram
