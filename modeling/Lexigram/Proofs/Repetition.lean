import Lexigram.Regex.Match

/-! # Repetitions

The matcher works repetitions out with a table that has a row for every place of the text. Here the ends
of a repetition from one place are told by its ends from the places behind that one, without tables, and
its ends are all that so many copies one after the other can reach.
-/

namespace Lexigram

namespace Regex

/-- Single copies go forward and stay within a text of that size. -/
def Advances (size : Nat) (step : Nat → List Nat) : Prop :=
  ∀ p ≤ size, ∀ q ∈ step p, p ≤ q ∧ q ≤ size

inductive Copies (single : Nat → Nat → Prop) : Nat → Nat → Nat → Prop
  | none (p : Nat) : Copies single 0 p p
  | more {n p q r : Nat} (h : single p q) (h' : Copies single n q r) : Copies single (n + 1) p r

/-- Ends of any number of further copies from `p`, none included. -/
def furtherFrom (step : Nat → List Nat) (greedy : Bool) (size p : Nat) : List Nat :=
  (loopRows step greedy size (size - p)).headD []

def copiesFrom (step : Nat → List Nat) (size p : Nat) : List (List Nat) :=
  (List.range (size + 1 - p)).map fun i => step (p + i)

theorem mergeMap_congr {f g : Nat → List Nat} {ps : List Nat} (h : ∀ p ∈ ps, f p = g p) :
    mergeMap f ps = mergeMap g ps := by
  induction ps with
  | nil => rfl
  | cons p ps ih =>
    rw [List.forall_mem_cons] at h
    rw [mergeMap, mergeMap, h.1, ih h.2]

theorem mergeMap_eq_nil {f : Nat → List Nat} {ps : List Nat} (h : ∀ p ∈ ps, f p = []) :
    mergeMap f ps = [] := by
  refine List.eq_nil_iff_forall_not_mem.mpr fun q hq => ?_
  obtain ⟨p, hp, hq⟩ := mem_mergeMap_iff.mp hq
  rw [h p hp] at hq
  exact List.not_mem_nil hq

theorem nil_merge (ps : List Nat) : merge [] ps = ps := by
  simp [merge]

theorem mergeMap_singleton (f : Nat → List Nat) (p : Nat) : mergeMap f [p] = f p := by
  simp [mergeMap, merge]

theorem Advances.mergeMap_le {step : Nat → List Nat} {size : Nat} (hStep : Advances size step)
    {ps : List Nat} (hPlaces : ∀ p ∈ ps, p ≤ size) : ∀ q ∈ mergeMap step ps, q ≤ size := by
  intro q hq
  obtain ⟨p, hp, hq⟩ := mem_mergeMap_iff.mp hq
  exact (hStep p (hPlaces p hp) q hq).2

section Tables

variable {step : Nat → List Nat} {greedy : Bool} {size p q n i : Nat}

theorem getD_loopRows {back : Nat} (h : i ≤ back) : (loopRows step greedy size back).getD i [] =
    (loopRows step greedy size (back - i)).headD [] := by
  induction i generalizing back with
  | zero => cases back <;> rfl
  | succ i ih =>
    obtain ⟨back, rfl⟩ : ∃ less, back = less + 1 := ⟨back - 1, by omega⟩
    rw [loopRows, List.getD_cons_succ, ih (by omega), Nat.add_sub_add_right]

theorem furtherFrom_eq (hStep : Advances size step) (hp : p ≤ size) :
    furtherFrom step greedy size p = goOrStop greedy p
      (mergeMap (fun q => if q ≤ p then [] else furtherFrom step greedy size q) (step p)) := by
  unfold furtherFrom
  cases hBack : size - p with
  | zero =>
    -- At the end of the text no copy gets any further.
    obtain rfl : p = size := by omega
    rw [mergeMap_eq_nil fun q hq => if_pos (hStep p hp q hq).2]
    cases greedy <;> rfl
  | succ back =>
    have hPlace : size - (back + 1) = p := by omega
    rw [loopRows, List.headD_cons, hPlace]
    refine congrArg _ (mergeMap_congr fun q hq => ?_)
    split
    · rfl
    · rename_i hq'
      have hSize := (hStep p hp q hq).2
      rw [getD_loopRows (by omega)]
      congr 2
      omega

theorem oneOrMore_eq (hStep : Advances size step) (hp : p ≤ size) :
    oneOrMore step greedy size p =
      mergeMap (fun q => if q ≤ p then [p] else furtherFrom step greedy size q) (step p) := by
  unfold oneOrMore
  split
  · rename_i hNone
    rw [hNone]
    rfl
  · refine mergeMap_congr fun q hq => ?_
    split
    · rfl
    · have hSize := (hStep p hp q hq).2
      rw [getD_loopRows (by omega), furtherFrom]
      congr 2
      omega

theorem length_copiesFrom : (copiesFrom step size p).length = size + 1 - p := by
  simp [copiesFrom]

theorem getD_boundedRows_zero (h : p + i ≤ size) :
    (boundedRows (copiesFrom step size p) greedy p 0).getD i [] = [p + i] := by
  have hLength : i < (copiesFrom step size p).length := by rw [length_copiesFrom]; omega
  simp [boundedRows, hLength]

theorem getD_boundedRows_succ (h : p + i ≤ size) :
    (boundedRows (copiesFrom step size p) greedy p (n + 1)).getD i [] = goOrStop greedy (p + i)
      (mergeMap (fun q => (boundedRows (copiesFrom step size p) greedy p n).getD (q - p) [])
        (step (p + i))) := by
  have hRange : i < size + 1 - p := by omega
  simp [boundedRows, copiesFrom, hRange]

theorem upTo_eq_getD :
    upTo step greedy size p n = (boundedRows (copiesFrom step size p) greedy p n).getD 0 [] := by
  rw [upTo, ← copiesFrom]
  cases boundedRows (copiesFrom step size p) greedy p n <;> rfl

/-- The table begun at one place has the rows of the table begun at a later one. -/
theorem getD_boundedRows (hStep : Advances size step) (hpq : p ≤ q) (hq : q ≤ size) :
    (boundedRows (copiesFrom step size p) greedy p n).getD (q - p) [] =
      upTo step greedy size q n := by
  induction n generalizing p q with
  | zero => rw [upTo_eq_getD, getD_boundedRows_zero (by omega), getD_boundedRows_zero hq,
      Nat.add_sub_cancel' hpq, Nat.add_zero]
  | succ n ih =>
    rw [upTo_eq_getD, getD_boundedRows_succ (by omega), getD_boundedRows_succ hq,
      Nat.add_sub_cancel' hpq, Nat.add_zero]
    refine congrArg _ (mergeMap_congr fun r hr => ?_)
    obtain ⟨hqr, hr⟩ := hStep q hq r hr
    rw [ih (Nat.le_trans hpq hqr) hr, ih hqr hr]

theorem upTo_zero (hp : p ≤ size) : upTo step greedy size p 0 = [p] := by
  rw [upTo_eq_getD, getD_boundedRows_zero hp, Nat.add_zero]

theorem upTo_succ (hStep : Advances size step) (hp : p ≤ size) : upTo step greedy size p (n + 1) =
    goOrStop greedy p (mergeMap (fun q => upTo step greedy size q n) (step p)) := by
  rw [upTo_eq_getD, getD_boundedRows_succ hp, Nat.add_zero]
  refine congrArg _ (mergeMap_congr fun q hq => ?_)
  obtain ⟨hpq, hq⟩ := hStep p hp q hq
  exact getD_boundedRows hStep hpq hq

theorem times_succ (ps : List Nat) : times step (n + 1) ps = times step n (mergeMap step ps) := by
  cases ps with
  | nil =>
    rw [times, mergeMap]
    cases n <;> rfl
  | cons p ps => rfl

end Tables

theorem copies_add_iff {single : Nat → Nat → Prop} {m n p q : Nat} : Copies single (m + n) p q ↔
    ∃ r, Copies single m p r ∧ Copies single n r q := by
  induction m generalizing p with
  | zero =>
    rw [Nat.zero_add]
    constructor
    · exact fun h => ⟨p, .none p, h⟩
    · rintro ⟨r, hFirst, hRest⟩
      cases hFirst
      exact hRest
  | succ m ih =>
    rw [Nat.add_right_comm]
    constructor
    · intro h
      cases h with
      | more hFirst hRest =>
        obtain ⟨r, h, h'⟩ := ih.mp hRest
        exact ⟨r, .more hFirst h, h'⟩
    · rintro ⟨r, h, h'⟩
      cases h with
      | more hFirst hRest => exact .more hFirst (ih.mpr ⟨r, hRest, h'⟩)

section Members

variable {step : Nat → List Nat} {greedy : Bool} {size p q n : Nat}

theorem Copies.bounds (hStep : Advances size step) (h : Copies (fun p q => q ∈ step p) n p q)
    (hp : p ≤ size) : p ≤ q ∧ q ≤ size := by
  induction h with
  | none => exact ⟨Nat.le_refl _, hp⟩
  | more hFirst _ ih =>
    obtain ⟨hForward, hWithin⟩ := hStep _ hp _ hFirst
    obtain ⟨hRest, hEnd⟩ := ih hWithin
    exact ⟨Nat.le_trans hForward hRest, hEnd⟩

theorem Copies.exists_lt (hStep : Advances size step) (h : Copies (fun p q => q ∈ step p) n p q)
    (hp : p ≤ size) (hpq : p < q) :
    ∃ r ∈ step p, p < r ∧ ∃ m, Copies (fun p q => q ∈ step p) m r q := by
  induction h with
  | none => exact absurd hpq (Nat.lt_irrefl _)
  | @more n p r q hFirst hRest ih =>
    obtain ⟨hForward, hWithin⟩ := hStep p hp r hFirst
    rcases Nat.eq_or_lt_of_le hForward with rfl | hpr
    · exact ih hp hpq
    · exact ⟨r, hFirst, hpr, n, hRest⟩

theorem mem_times_iff {ps : List Nat} :
    q ∈ times step n ps ↔ ∃ p ∈ ps, Copies (fun p q => q ∈ step p) n p q := by
  induction n generalizing ps with
  | zero =>
    constructor
    · exact fun hq => ⟨q, hq, .none q⟩
    · rintro ⟨p, hp, h⟩
      cases h
      exact hp
  | succ n ih =>
    rw [times_succ, ih]
    constructor
    · rintro ⟨r, hr, hRest⟩
      obtain ⟨p, hp, hFirst⟩ := mem_mergeMap_iff.mp hr
      exact ⟨p, hp, .more hFirst hRest⟩
    · rintro ⟨p, hp, h⟩
      cases h with
      | more hFirst hRest => exact ⟨_, mem_mergeMap_iff.mpr ⟨p, hp, hFirst⟩, hRest⟩

theorem mem_times_singleton_iff :
    q ∈ times step n [p] ↔ Copies (fun p q => q ∈ step p) n p q := by
  rw [mem_times_iff]
  constructor
  · rintro ⟨r, hr, h⟩
    rwa [List.mem_singleton.mp hr] at h
  · exact fun h => ⟨p, List.mem_singleton.mpr rfl, h⟩

theorem mem_upTo_iff (hStep : Advances size step) (hp : p ≤ size) :
    q ∈ upTo step greedy size p n ↔ ∃ m ≤ n, Copies (fun p q => q ∈ step p) m p q := by
  induction n generalizing p with
  | zero =>
    rw [upTo_zero hp, List.mem_singleton]
    constructor
    · rintro rfl
      exact ⟨0, Nat.le_refl 0, .none q⟩
    · rintro ⟨m, hm, h⟩
      obtain rfl := Nat.le_zero.mp hm
      cases h
      rfl
  | succ n ih =>
    rw [upTo_succ hStep hp, mem_goOrStop_iff, mem_mergeMap_iff]
    constructor
    · rintro (⟨r, hr, hq⟩ | rfl)
      · obtain ⟨m, hm, h⟩ := (ih (hStep p hp r hr).2).mp hq
        exact ⟨m + 1, Nat.succ_le_succ hm, .more hr h⟩
      · exact ⟨0, Nat.zero_le _, .none q⟩
    · rintro ⟨m, hm, h⟩
      cases h with
      | none => exact .inr rfl
      | @more m _ r _ hFirst hRest =>
        exact .inl ⟨r, hFirst, (ih (hStep p hp r hFirst).2).mpr ⟨m, by omega, hRest⟩⟩

theorem mem_furtherFrom_iff (hStep : Advances size step) (hp : p ≤ size) :
    q ∈ furtherFrom step greedy size p ↔ ∃ n, Copies (fun p q => q ∈ step p) n p q := by
  obtain ⟨left, hLeft⟩ : ∃ left, left = size - p := ⟨_, rfl⟩
  induction left using Nat.strongRecOn generalizing p with
  | _ left ih =>
    rw [furtherFrom_eq hStep hp, mem_goOrStop_iff, mem_mergeMap_iff]
    constructor
    · rintro (⟨r, hr, hq⟩ | rfl)
      · split at hq
        · exact absurd hq List.not_mem_nil
        · have hWithin := (hStep p hp r hr).2
          obtain ⟨n, h⟩ := (ih (size - r) (by omega) hWithin rfl).mp hq
          exact ⟨n + 1, .more hr h⟩
      · exact ⟨0, .none q⟩
    · rintro ⟨n, h⟩
      rcases Nat.eq_or_lt_of_le (h.bounds hStep hp).1 with rfl | hpq
      · exact .inr rfl
      · obtain ⟨r, hr, hpr, m, hRest⟩ := h.exists_lt hStep hp hpq
        have hWithin := (hStep p hp r hr).2
        refine .inl ⟨r, hr, ?_⟩
        rw [if_neg (Nat.not_le.mpr hpr)]
        exact (ih (size - r) (by omega) hWithin rfl).mpr ⟨m, hRest⟩

theorem mem_oneOrMore_iff (hStep : Advances size step) (hp : p ≤ size) :
    q ∈ oneOrMore step greedy size p ↔ ∃ n, Copies (fun p q => q ∈ step p) (n + 1) p q := by
  rw [oneOrMore_eq hStep hp, mem_mergeMap_iff]
  constructor
  · rintro ⟨r, hr, hq⟩
    obtain ⟨hForward, hWithin⟩ := hStep p hp r hr
    split at hq
    · obtain rfl : r = p := by omega
      obtain rfl := List.mem_singleton.mp hq
      exact ⟨0, .more hr (.none q)⟩
    · obtain ⟨n, h⟩ := (mem_furtherFrom_iff hStep hWithin).mp hq
      exact ⟨n, .more hr h⟩
  · rintro ⟨n, h⟩
    rcases Nat.eq_or_lt_of_le (h.bounds hStep hp).1 with rfl | hpq
    · -- All copies are empty, and the first one says so.
      cases h with
      | more hFirst hRest =>
        have hBack := (hRest.bounds hStep (hStep p hp _ hFirst).2).1
        exact ⟨_, hFirst, by rw [if_pos hBack]; exact List.mem_singleton.mpr rfl⟩
    · obtain ⟨r, hr, hpr, m, hRest⟩ := h.exists_lt hStep hp hpq
      refine ⟨r, hr, ?_⟩
      rw [if_neg (Nat.not_le.mpr hpr)]
      exact (mem_furtherFrom_iff hStep (hStep p hp r hr).2).mpr ⟨m, hRest⟩

theorem advances_furtherFrom (h : Advances size step) : Advances size (furtherFrom step greedy size) := by
  intro p hp q hq
  obtain ⟨n, hCopies⟩ := (mem_furtherFrom_iff h hp).mp hq
  exact hCopies.bounds h hp

theorem advances_oneOrMore (h : Advances size step) : Advances size (oneOrMore step greedy size) := by
  intro p hp q hq
  obtain ⟨n, hCopies⟩ := (mem_oneOrMore_iff h hp).mp hq
  exact hCopies.bounds h hp

theorem advances_upTo (h : Advances size step) : Advances size fun p => upTo step greedy size p n := by
  intro p hp q hq
  obtain ⟨m, -, hCopies⟩ := (mem_upTo_iff h hp).mp hq
  exact hCopies.bounds h hp

theorem advances_times (h : Advances size step) : Advances size fun p => times step n [p] := by
  intro p hp q hq
  exact (mem_times_singleton_iff.mp hq).bounds h hp

theorem mem_repeated_iff (hStep : Advances size step) (hp : p ≤ size) {least : Nat}
    {most : Option Nat} : q ∈ repeated step greedy size p least most ↔ ∃ n, least ≤ n ∧
      (∀ m ∈ most, n ≤ max least m) ∧ Copies (fun p q => q ∈ step p) n p q := by
  cases most with
  | none =>
    simp only [Option.not_mem_none, false_implies, implies_true, true_and]
    cases least with
    | zero =>
      rw [repeated, mem_goOrStop_iff, mem_oneOrMore_iff hStep hp]
      constructor
      · rintro (⟨n, h⟩ | rfl)
        · exact ⟨n + 1, Nat.zero_le _, h⟩
        · exact ⟨0, Nat.zero_le _, .none q⟩
      · rintro ⟨n, -, h⟩
        cases n with
        | zero =>
          cases h
          exact .inr rfl
        | succ n => exact .inl ⟨n, h⟩
    | succ least =>
      rw [repeated, mem_mergeMap_iff]
      constructor
      · rintro ⟨r, hr, hq⟩
        rw [mem_times_singleton_iff] at hr
        obtain ⟨n, h⟩ := (mem_oneOrMore_iff hStep (hr.bounds hStep hp).2).mp hq
        exact ⟨least + (n + 1), by omega, copies_add_iff.mpr ⟨r, hr, h⟩⟩
      · rintro ⟨n, hn, h⟩
        obtain ⟨more, rfl⟩ : ∃ more, n = least + (more + 1) := ⟨n - least - 1, by omega⟩
        obtain ⟨r, hr, hRest⟩ := copies_add_iff.mp h
        refine ⟨r, mem_times_singleton_iff.mpr hr, ?_⟩
        exact (mem_oneOrMore_iff hStep (hr.bounds hStep hp).2).mpr ⟨more, hRest⟩
  | some most =>
    rw [repeated, mem_mergeMap_iff]
    constructor
    · rintro ⟨r, hr, hq⟩
      rw [mem_times_singleton_iff] at hr
      obtain ⟨n, hn, h⟩ := (mem_upTo_iff hStep (hr.bounds hStep hp).2).mp hq
      refine ⟨least + n, by omega, ?_, copies_add_iff.mpr ⟨r, hr, h⟩⟩
      rintro m ⟨⟩
      omega
    · rintro ⟨n, hn, hMost, h⟩
      have hBound := hMost most rfl
      obtain ⟨more, rfl⟩ : ∃ more, n = least + more := ⟨n - least, by omega⟩
      obtain ⟨r, hr, hRest⟩ := copies_add_iff.mp h
      refine ⟨r, mem_times_singleton_iff.mpr hr, ?_⟩
      exact (mem_upTo_iff hStep (hr.bounds hStep hp).2).mpr ⟨more, by omega, hRest⟩

end Members

end Regex

end Lexigram
