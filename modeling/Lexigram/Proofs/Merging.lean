import Mathlib.Algebra.BigOperators.Group.Finset.Piecewise
import Mathlib.Algebra.BigOperators.Group.Finset.Sigma
import Mathlib.Algebra.Order.BigOperators.Group.Finset
import Mathlib.Data.List.FinRange
import Mathlib.Data.Option.Basic
import Lexigram.Proofs.Rotation

/-! # Merged sources

Merged in turn, the items of the sources come out by their position and, at the same position, by the
number of their source; merged in order, by the number of their source and then by their position. None
is lost and none comes twice, whether sources end, go on forever or would go on after giving nothing.
-/

namespace Lexigram.Enumeration

variable {σ α : Type} (pull : σ → Option α × σ) (sources : List σ)

/-- How many items come before the one at position `r` of source `i` when sources take turns: those at
lower positions, and those at this position of sources with lower numbers. -/
def rank (i r : Nat) : Nat :=
  ((Finset.range sources.length ×ˢ Finset.range r).filter
    fun p => (item pull sources p.1 p.2).isSome).card +
  ((Finset.range i).filter fun j => (item pull sources j r).isSome).card

def givenInOrder : Nat → Option α :=
  output (nextInOrder (watch pull)) sources.zipIdx

/-- Each of the first `k` sources gives as many items as `lengths` says before it first gives nothing. -/
def HasLengths (lengths : Nat → Nat) (k : Nat) : Prop :=
  ∀ i < k, ∀ r, (item pull sources i r).isSome ↔ r < lengths i

variable {pull sources}

section Rank

theorem lt_length_of_item {i r : Nat} {a : α} (h : item pull sources i r = some a) :
    i < sources.length := by
  obtain ⟨source, hSource, -⟩ := Option.bind_eq_some_iff.mp h
  exact (List.getElem?_eq_some_iff.mp hSource).1

theorem given_row {i : Nat} (hi : i < sources.length) (r : Nat) :
    given pull sources (r * sources.length + i) = item pull sources i r := by
  have hSources : 0 < sources.length := Nat.zero_lt_of_lt hi
  rw [given, Nat.mul_comm, Nat.mul_add_mod, Nat.mod_eq_of_lt hi, Nat.mul_add_div hSources,
    Nat.div_eq_of_lt hi, Nat.add_zero]

theorem count_row {m : Nat} (hm : m ≤ sources.length) (r : Nat) :
    Nat.count (fun j => (given pull sources (r * sources.length + j)).isSome) m =
      ((Finset.range m).filter fun j => (item pull sources j r).isSome).card := by
  rw [Nat.count_eq_card_filter_range]
  congr 1
  refine Finset.filter_congr fun j hj => ?_
  rw [given_row (Nat.lt_of_lt_of_le (Finset.mem_range.mp hj) hm)]

theorem countBefore_rows (r : Nat) : countBefore pull sources (r * sources.length) =
    ((Finset.range sources.length ×ˢ Finset.range r).filter
      fun p => (item pull sources p.1 p.2).isSome).card := by
  induction r with
  | zero =>
    rw [Nat.zero_mul, countBefore, Nat.count_zero, Finset.range_zero, Finset.product_empty,
      Finset.filter_empty, Finset.card_empty]
  | succ r ih =>
    rw [Nat.succ_mul, countBefore, Nat.count_add, ← countBefore, ih, count_row (Nat.le_refl _),
      Finset.card_filter, Finset.card_filter, Finset.card_filter, Finset.sum_product_right,
      Finset.sum_product_right, Finset.sum_range_succ]

theorem countBefore_eq_rank {i : Nat} (hi : i < sources.length) (r : Nat) :
    countBefore pull sources (r * sources.length + i) = rank pull sources i r := by
  rw [rank, ← countBefore_rows, ← count_row (Nat.le_of_lt hi), countBefore, Nat.count_add, ← countBefore]

theorem rank_eq_countBefore {t : Nat} (h : (given pull sources t).isSome) :
    rank pull sources (t % sources.length) (t / sources.length) = countBefore pull sources t := by
  obtain ⟨a, ha⟩ := Option.isSome_iff_exists.mp h
  rw [← countBefore_eq_rank (Nat.mod_lt t (length_pos_of_given ha)), Nat.div_add_mod']

theorem rank_lt_rank {i r j q : Nat} (h : (item pull sources i r).isSome)
    (h' : (item pull sources j q).isSome) (hBefore : r < q ∨ r = q ∧ i < j) :
    rank pull sources i r < rank pull sources j q := by
  obtain ⟨a, ha⟩ := Option.isSome_iff_exists.mp h
  obtain ⟨b, hb⟩ := Option.isSome_iff_exists.mp h'
  have hi := lt_length_of_item ha
  rw [← countBefore_eq_rank hi, ← countBefore_eq_rank (lt_length_of_item hb)]
  refine countBefore_lt_of_given (by rwa [given_row hi]) ?_
  rcases hBefore with hRow | ⟨rfl, hColumn⟩
  · have hRows := Nat.mul_le_mul_right sources.length (Nat.succ_le_of_lt hRow)
    rw [Nat.succ_mul] at hRows
    omega
  · exact Nat.add_lt_add_left hColumn _

theorem rank_lt_rank_iff {i r j q : Nat} (h : (item pull sources i r).isSome)
    (h' : (item pull sources j q).isSome) :
    rank pull sources i r < rank pull sources j q ↔ r < q ∨ r = q ∧ i < j := by
  refine ⟨fun hRank => ?_, rank_lt_rank h h'⟩
  by_contra hNot
  rcases Nat.lt_trichotomy q r with hRow | hRow | hRow
  · exact absurd (rank_lt_rank h' h (.inl hRow)) (Nat.lt_asymm hRank)
  · subst hRow
    rcases Nat.lt_trichotomy j i with hColumn | hColumn | hColumn
    · exact absurd (rank_lt_rank h' h (.inr ⟨rfl, hColumn⟩)) (Nat.lt_asymm hRank)
    · subst hColumn
      exact absurd hRank (Nat.lt_irrefl _)
    · exact hNot (.inr ⟨rfl, hColumn⟩)
  · exact hNot (.inl hRow)

end Rank

section InTurn

theorem givenInTurn_rank {i r : Nat} {a : α} (h : item pull sources i r = some a) :
    givenInTurn pull sources (rank pull sources i r) = some a := by
  have hi := lt_length_of_item h
  have hGiven : given pull sources (r * sources.length + i) = some a := (given_row hi r).trans h
  have hHere : (given pull sources (r * sources.length + i)).isSome := by rw [hGiven]; rfl
  rcases (inStep pull sources (rank pull sources i r)).answered.gives with
      ⟨u, b, hb, hCount, hFound⟩ | ⟨-, hAll⟩
  · have hThere : (given pull sources u).isSome := by rw [hb]; rfl
    rw [← countBefore_eq_rank hi] at hCount
    obtain rfl := Nat.count_injective hThere hHere hCount
    rw [hFound, ← hb, hGiven]
  · have hLess := hAll _ hHere
    rw [countBefore_eq_rank hi] at hLess
    exact absurd hLess (Nat.lt_irrefl _)

theorem exists_item_of_givenInTurn {n : Nat} {a : α} (h : givenInTurn pull sources n = some a) :
    ∃ i r, item pull sources i r = some a ∧ rank pull sources i r = n := by
  rcases (inStep pull sources n).answered.gives with ⟨u, b, hb, hCount, hFound⟩ | ⟨hNone, -⟩
  · have hThere : (given pull sources u).isSome := by rw [hb]; rfl
    rw [h] at hFound
    exact ⟨_, _, hb.trans hFound.symm, (rank_eq_countBefore hThere).trans hCount⟩
  · rw [h] at hNone
    cases hNone

theorem givenInTurn_eq_none_iff {n : Nat} : givenInTurn pull sources n = none ↔
    ∀ i r, (item pull sources i r).isSome → rank pull sources i r < n := by
  constructor
  · intro hNone i r hItem
    obtain ⟨a, ha⟩ := Option.isSome_iff_exists.mp hItem
    have hi := lt_length_of_item ha
    rcases (inStep pull sources n).answered.gives with ⟨u, b, hb, hCount, hFound⟩ | ⟨-, hAll⟩
    · rw [hNone] at hFound
      cases hFound
    · rw [← countBefore_eq_rank hi]
      exact hAll _ (by rwa [given_row hi])
  · intro hAll
    refine Option.eq_none_iff_forall_ne_some.mpr fun a ha => ?_
    obtain ⟨i, r, hItem, rfl⟩ := exists_item_of_givenInTurn ha
    exact absurd (hAll i r (by rw [hItem]; rfl)) (Nat.lt_irrefl _)

variable (pull) in
theorem run_nextInTurn_cases (queue : List (σ × Nat)) (log : List (Nat × Option α)) :
    (nextInTurn (watch pull) queue).run log =
        ((none, []), log ++ queue.map fun source => (source.2, none)) ∨
      ∃ passed source waiting a, queue = passed ++ source :: waiting ∧
        (nextInTurn (watch pull) queue).run log =
          ((some a, waiting ++ [((pull source.1).2, source.2)]),
            log ++ (passed.map fun source => (source.2, none)) ++ [(source.2, some a)]) := by
  induction queue generalizing log with
  | nil =>
    left
    rw [List.map_nil, List.append_nil]
    rfl
  | cons first waiting ih =>
    rw [run_nextInTurn_cons]
    rcases hAnswer : pull first.1 with ⟨_ | a, left⟩
    · dsimp only
      rcases ih (log ++ [(first.2, none)]) with hNone | ⟨passed, source, rest, a, rfl, hSome⟩
      · left
        rw [hNone, List.map_cons, List.append_assoc, List.singleton_append]
      · right
        refine ⟨first :: passed, source, rest, a, rfl, ?_⟩
        rw [hSome, List.map_cons, List.append_assoc log, List.singleton_append]
    · right
      refine ⟨[], first, waiting, a, rfl, ?_⟩
      rw [List.map_nil, List.append_nil, hAnswer]

structure Orderly (queue left : List (σ × Nat)) (notes : List (Nat × Option α)) : Prop where
  asked_nodup : (notes.map Prod.fst).Nodup
  left_nodup : (left.map Prod.snd).Nodup
  asked_subset : notes.map Prod.fst ⊆ queue.map Prod.snd
  left_subset : left.map Prod.snd ⊆ queue.map Prod.snd
  not_left : ∀ i, (i, none) ∈ notes → i ∉ left.map Prod.snd

theorem map_fst_noted (passed : List (σ × Nat)) :
    (passed.map fun source => ((source.2, none) : Nat × Option α)).map Prod.fst =
      passed.map Prod.snd := by
  rw [List.map_map]
  rfl

theorem orderly_of_none {queue : List (σ × Nat)} (hQueue : (queue.map Prod.snd).Nodup) :
    Orderly queue [] (queue.map fun source => ((source.2, none) : Nat × Option α)) where
  asked_nodup := by rwa [map_fst_noted]
  left_nodup := List.nodup_nil
  asked_subset := by
    rw [map_fst_noted]
    exact List.Subset.refl _
  left_subset := List.nil_subset _
  not_left _ _ := List.not_mem_nil

theorem orderly_of_some {passed waiting : List (σ × Nat)} {source : σ × Nat} {left : σ} {a : α}
    (hQueue : ((passed ++ source :: waiting).map Prod.snd).Nodup) :
    Orderly (passed ++ source :: waiting) (waiting ++ [(left, source.2)])
      ((passed.map fun source => (source.2, none)) ++ [(source.2, some a)]) := by
  have hAll : (passed ++ source :: waiting).map Prod.snd =
      passed.map Prod.snd ++ source.2 :: waiting.map Prod.snd := by
    rw [List.map_append, List.map_cons]
  rw [hAll] at hQueue
  obtain ⟨hPassed, hRest, hApart⟩ := List.nodup_append'.mp hQueue
  have hTurned : ((waiting ++ [(left, source.2)]).map Prod.snd).Perm
      (source.2 :: waiting.map Prod.snd) := by
    rw [List.map_append]
    exact List.perm_append_singleton _ _
  have hAsked : ((passed.map fun source => ((source.2, none) : Nat × Option α)) ++
      [(source.2, some a)]).map Prod.fst = passed.map Prod.snd ++ [source.2] := by
    rw [List.map_append, map_fst_noted]
    rfl
  constructor
  · rw [hAsked]
    refine List.nodup_append'.mpr ⟨hPassed, List.nodup_singleton _, fun i hi hi' => ?_⟩
    exact hApart hi (List.mem_singleton.mp hi' ▸ List.mem_cons_self)
  · exact hTurned.nodup_iff.mpr hRest
  · rw [hAsked, hAll]
    exact List.append_subset.mpr ⟨List.subset_append_left _ _,
      List.cons_subset.mpr ⟨List.mem_append_right _ List.mem_cons_self, List.nil_subset _⟩⟩
  · rw [hAll]
    exact fun i hi => List.mem_append_right _ (hTurned.mem_iff.mp hi)
  · intro i hi
    rw [hTurned.mem_iff]
    rcases List.mem_append.mp hi with hi | hi
    · obtain ⟨other, hOther, hNumber⟩ := List.mem_map.mp hi
      cases hNumber
      exact hApart (List.mem_map.mpr ⟨other, hOther, rfl⟩)
    · cases List.mem_singleton.mp hi

theorem orderly_call {queue left : List (σ × Nat)} {notes : List (Nat × Option α)} {found : Option α}
    (hQueue : (queue.map Prod.snd).Nodup)
    (h : (nextInTurn (watch pull) queue).run [] = ((found, left), notes)) :
    Orderly queue left notes := by
  rcases run_nextInTurn_cases pull queue [] with hNone | ⟨passed, source, waiting, a, rfl, hSome⟩
  · rw [h] at hNone
    cases hNone
    exact orderly_of_none hQueue
  · rw [h] at hSome
    cases hSome
    exact orderly_of_some hQueue

theorem nodup_waitingAfter (n : Nat) : ((waitingAfter pull sources n).map Prod.snd).Nodup := by
  induction n with
  | zero =>
    rw [waitingAfter, leftAfter, List.zipIdx_map_snd]
    exact List.nodup_range'
  | succ n ih => exact (orderly_call ih rfl).left_nodup

theorem orderly_waitingAfter (n : Nat) : Orderly (waitingAfter pull sources n)
    (waitingAfter pull sources (n + 1)) (askedInTurn pull sources n) :=
  orderly_call (nodup_waitingAfter n) rfl

theorem waitingAfter_subset {n m : Nat} (h : n ≤ m) :
    (waitingAfter pull sources m).map Prod.snd ⊆ (waitingAfter pull sources n).map Prod.snd := by
  induction h with
  | refl => exact List.Subset.refl _
  | step _ ih => exact List.Subset.trans (orderly_waitingAfter _).left_subset ih

theorem not_mem_askedInTurn {n m i : Nat} (hNone : (i, none) ∈ askedInTurn pull sources n) (h : n < m)
    (answer : Option α) : (i, answer) ∉ askedInTurn pull sources m := by
  intro hAgain
  have hAsked := (orderly_waitingAfter m).asked_subset (List.mem_map.mpr ⟨_, hAgain, rfl⟩)
  exact (orderly_waitingAfter n).not_left i hNone (waitingAfter_subset h hAsked)

end InTurn

section InOrder

theorem run_nextInOrder_cons (source : σ × Nat) (others : List (σ × Nat))
    (log : List (Nat × Option α)) :
    (nextInOrder (watch pull) (source :: others)).run log =
      match pull source.1 with
      | (some a, left) => ((some a, (left, source.2) :: others), log ++ [(source.2, some a)])
      | (none, _) => (nextInOrder (watch pull) others).run (log ++ [(source.2, none)]) := by
  rw [nextInOrder, StateT.run_bind, run_watch]
  rcases pull source.1 with ⟨_ | a, left⟩ <;> rfl

theorem run_nextInOrder_fst (queue : List (σ × Nat)) (log : List (Nat × Option α)) :
    ((nextInOrder (watch pull) queue).run log).1 = ((nextInOrder (watch pull) queue).run []).1 := by
  induction queue generalizing log with
  | nil => rfl
  | cons source others ih =>
    rw [run_nextInOrder_cons, run_nextInOrder_cons]
    rcases pull source.1 with ⟨_ | a, left⟩
    · exact (ih _).trans (ih _).symm
    · rfl

variable {source : σ} {number r : Nat} {others : List (σ × Nat)}

theorem itemAt_eq_none_of_le {q : Nat} (h : itemAt pull source q = none) (hle : q ≤ r) :
    itemAt pull source r = none := by
  induction hle with
  | refl => exact h
  | @step r _ ih =>
    rw [itemAt] at ih
    rw [itemAt, after?]
    cases hLeft : after? pull source r with
    | none => rfl
    | some left =>
      rw [hLeft, Option.bind_some] at ih
      rw [Option.bind_some, behind?]
      rcases hAnswer : pull left with ⟨found, rest⟩
      rw [hAnswer] at ih
      obtain rfl : found = none := ih
      rfl

theorem isSome_item_of_le {i q : Nat} (h : (item pull sources i r).isSome) (hle : q ≤ r) :
    (item pull sources i q).isSome := by
  obtain ⟨a, ha⟩ := Option.isSome_iff_exists.mp h
  obtain ⟨source, hSource, hItem⟩ := Option.bind_eq_some_iff.mp ha
  rw [item, hSource, Option.bind_some, Option.isSome_iff_ne_none]
  intro hNone
  rw [itemAt_eq_none_of_le hNone hle] at hItem
  cases hItem

theorem exists_after?_of_length (h : ∀ q, (itemAt pull source q).isSome ↔ q < r) :
    ∃ left, after? pull source r = some left ∧ (pull left).1 = none := by
  have hEnd : itemAt pull source r = none :=
    Option.not_isSome_iff_eq_none.mp fun hSome => Nat.lt_irrefl r ((h r).mp hSome)
  suffices hLeft : ∃ left, after? pull source r = some left by
    obtain ⟨left, hLeft⟩ := hLeft
    rw [itemAt, hLeft] at hEnd
    exact ⟨left, hLeft, hEnd⟩
  cases r with
  | zero => exact ⟨source, rfl⟩
  | succ r =>
    obtain ⟨a, ha⟩ := Option.isSome_iff_exists.mp ((h r).mpr (Nat.lt_succ_self r))
    obtain ⟨before, hBefore, hAnswer⟩ := Option.bind_eq_some_iff.mp ha
    rcases hPull : pull before with ⟨found, rest⟩
    rw [hPull] at hAnswer
    obtain rfl : found = some a := hAnswer
    exact ⟨rest, by rw [after?, hBefore, Option.bind_some, behind?, hPull]⟩

/-- As long as the first source gives items the others are not touched. -/
theorem leftAfter_first {left : σ} (h : after? pull source r = some left) :
    leftAfter (nextInOrder (watch pull)) ((source, number) :: others) r = (left, number) :: others := by
  induction r generalizing left with
  | zero =>
    cases h
    rfl
  | succ r ih =>
    obtain ⟨before, hBefore, hBehind⟩ := Option.bind_eq_some_iff.mp h
    rw [leftAfter, ih hBefore, run_nextInOrder_cons]
    unfold behind? at hBehind
    rcases hAnswer : pull before with ⟨_ | a, rest⟩
    · rw [hAnswer] at hBehind
      cases hBehind
    · rw [hAnswer] at hBehind
      cases hBehind
      rfl

theorem output_first {a : α} (h : itemAt pull source r = some a) :
    output (nextInOrder (watch pull)) ((source, number) :: others) r = some a := by
  obtain ⟨left, hLeft, hAnswer⟩ := Option.bind_eq_some_iff.mp h
  rw [output, leftAfter_first hLeft, run_nextInOrder_cons]
  rcases hPull : pull left with ⟨found, rest⟩
  rw [hPull] at hAnswer
  obtain rfl : found = some a := hAnswer
  rfl

/-- When the first source has given all its items the others go on as if they were alone. -/
theorem output_others (hItems : ∀ q, (itemAt pull source q).isSome ↔ q < r) (n : Nat) :
    output (nextInOrder (watch pull)) ((source, number) :: others) (r + n) =
      output (nextInOrder (watch pull)) others n := by
  obtain ⟨left, hLeft, hEnd⟩ := exists_after?_of_length hItems
  have hFirst : leftAfter (nextInOrder (watch pull)) ((source, number) :: others) r =
      (left, number) :: others := leftAfter_first hLeft
  have hSame : (Id.run ((nextInOrder (watch pull) ((left, number) :: others)).run [])).1 =
      (Id.run ((nextInOrder (watch pull) others).run [])).1 := by
    rw [run_nextInOrder_cons]
    rcases hAnswer : pull left with ⟨found, rest⟩
    rw [hAnswer] at hEnd
    obtain rfl : found = none := hEnd
    exact run_nextInOrder_fst others _
  have hLater (n : Nat) : leftAfter (nextInOrder (watch pull)) ((source, number) :: others) (r + n + 1) =
      leftAfter (nextInOrder (watch pull)) others (n + 1) := by
    induction n with
    | zero => rw [leftAfter, Nat.add_zero, hFirst, hSame]; rfl
    | succ n ih => rw [leftAfter, ← Nat.add_assoc, ih]; rfl
  cases n with
  | zero => rw [output, Nat.add_zero, hFirst, hSame]; rfl
  | succ n => rw [output, ← Nat.add_assoc, hLater]; rfl

theorem exists_length (h : itemAt pull source r = none) :
    ∃ length ≤ r, ∀ q, (itemAt pull source q).isSome ↔ q < length := by
  classical
  have hEnd : ∃ q, itemAt pull source q = none := ⟨r, h⟩
  refine ⟨Nat.find hEnd, Nat.find_min' hEnd h, fun q => ⟨fun hSome => ?_, fun hLess => ?_⟩⟩
  · by_contra hNot
    rw [itemAt_eq_none_of_le (Nat.find_spec hEnd) (Nat.le_of_not_lt hNot)] at hSome
    cases hSome
  · exact Option.isSome_iff_ne_none.mpr (Nat.find_min hEnd hLess)

def consLengths (length : Nat) (lengths : Nat → Nat) : Nat → Nat
  | 0 => length
  | i + 1 => lengths i

theorem hasLengths_cons_iff {lengths : Nat → Nat} {k : Nat} :
    HasLengths pull (source :: sources) lengths (k + 1) ↔
      (∀ q, (itemAt pull source q).isSome ↔ q < lengths 0) ∧
        HasLengths pull sources (fun i => lengths (i + 1)) k := by
  constructor
  · exact fun h => ⟨h 0 (Nat.succ_pos k), fun i hi => h (i + 1) (Nat.succ_lt_succ hi)⟩
  · rintro ⟨hFirst, hOthers⟩ i hi
    cases i with
    | zero => exact hFirst
    | succ i => exact hOthers i (Nat.lt_of_succ_lt_succ hi)

theorem output_inOrder {start i : Nat} {a : α} {lengths : Nat → Nat}
    (hLengths : HasLengths pull sources lengths i) (h : item pull sources i r = some a) :
    output (nextInOrder (watch pull)) (sources.zipIdx start) (∑ j ∈ Finset.range i, lengths j + r) =
      some a := by
  induction sources generalizing start i lengths with
  | nil => cases h
  | cons source sources ih =>
    rw [List.zipIdx_cons]
    cases i with
    | zero =>
      rw [Finset.range_zero, Finset.sum_empty, Nat.zero_add]
      exact output_first h
    | succ i =>
      obtain ⟨hFirst, hOthers⟩ := hasLengths_cons_iff.mp hLengths
      rw [Finset.sum_range_succ', Nat.add_comm _ (lengths 0), Nat.add_assoc, output_others hFirst]
      exact ih hOthers h

theorem exists_item_of_output {start n : Nat} {a : α}
    (h : output (nextInOrder (watch pull)) (sources.zipIdx start) n = some a) :
    ∃ i r lengths, HasLengths pull sources lengths i ∧ item pull sources i r = some a ∧
      n = ∑ j ∈ Finset.range i, lengths j + r := by
  induction sources generalizing start n with
  | nil =>
    have hEmpty (n : Nat) : leftAfter (nextInOrder (watch pull)) [] n = [] := by
      induction n with
      | zero => rfl
      | succ n ih => rw [leftAfter, ih]; rfl
    rw [List.zipIdx_nil, output, hEmpty] at h
    cases h
  | cons source sources ih =>
    rw [List.zipIdx_cons] at h
    cases hItem : itemAt pull source n with
    | some b =>
      rw [output_first hItem] at h
      refine ⟨0, n, fun _ => 0, fun i hi => absurd hi (Nat.not_lt_zero i), hItem.trans h, ?_⟩
      rw [Finset.range_zero, Finset.sum_empty, Nat.zero_add]
    | none =>
      obtain ⟨length, hLength, hItems⟩ := exists_length hItem
      obtain ⟨m, rfl⟩ : ∃ m, n = length + m := ⟨n - length, by omega⟩
      rw [output_others hItems] at h
      obtain ⟨i, r, lengths, hLengths, hFound, rfl⟩ := ih h
      refine ⟨i + 1, r, consLengths length lengths, hasLengths_cons_iff.mpr ⟨hItems, hLengths⟩, hFound, ?_⟩
      rw [Finset.sum_range_succ']
      dsimp only [consLengths]
      omega

theorem exists_hasLengths {start n : Nat}
    (h : output (nextInOrder (watch pull)) (sources.zipIdx start) n = none) :
    ∃ lengths, HasLengths pull sources lengths sources.length ∧
      ∑ i ∈ Finset.range sources.length, lengths i ≤ n := by
  induction sources generalizing start n with
  | nil => exact ⟨fun _ => 0, fun i hi => absurd hi (Nat.not_lt_zero i), Nat.zero_le n⟩
  | cons source sources ih =>
    rw [List.zipIdx_cons] at h
    cases hItem : itemAt pull source n with
    | some b =>
      rw [output_first hItem] at h
      cases h
    | none =>
      obtain ⟨length, hLength, hItems⟩ := exists_length hItem
      obtain ⟨m, rfl⟩ : ∃ m, n = length + m := ⟨n - length, by omega⟩
      rw [output_others hItems] at h
      obtain ⟨lengths, hLengths, hSum⟩ := ih h
      refine ⟨consLengths length lengths, hasLengths_cons_iff.mpr ⟨hItems, hLengths⟩, ?_⟩
      rw [List.length_cons, Finset.sum_range_succ']
      dsimp only [consLengths]
      omega

theorem HasLengths.sum_eq {lengths lengths' : Nat → Nat} {k : Nat} (h : HasLengths pull sources lengths k)
    (h' : HasLengths pull sources lengths' k) :
    ∑ i ∈ Finset.range k, lengths i = ∑ i ∈ Finset.range k, lengths' i := by
  refine Finset.sum_congr rfl fun i hi => eq_of_forall_lt_iff fun r => ?_
  exact (h i (Finset.mem_range.mp hi) r).symm.trans (h' i (Finset.mem_range.mp hi) r)

theorem givenInOrder_eq_none_iff {n : Nat} : givenInOrder pull sources n = none ↔
    ∃ lengths, HasLengths pull sources lengths sources.length ∧
      ∑ i ∈ Finset.range sources.length, lengths i ≤ n := by
  refine ⟨exists_hasLengths, fun ⟨lengths, hLengths, hSum⟩ => ?_⟩
  refine Option.eq_none_iff_forall_ne_some.mpr fun a ha => ?_
  obtain ⟨i, r, lengths', hLengths', hItem, rfl⟩ := exists_item_of_output ha
  have hi := lt_length_of_item hItem
  have hr : r < lengths i := (hLengths i hi r).mp (by rw [hItem]; rfl)
  have hSame := hLengths'.sum_eq fun j hj => hLengths j (hj.trans hi)
  have hPart : ∑ j ∈ Finset.range (i + 1), lengths j ≤ ∑ j ∈ Finset.range sources.length, lengths j :=
    Finset.sum_le_sum_of_subset (Finset.range_subset_range.mpr hi)
  rw [Finset.sum_range_succ] at hPart
  omega

end InOrder

section Together

def places (lengths : Nat → Nat) (k : Nat) : List (Nat × Nat) :=
  (List.range k).flatMap fun i => (List.range (lengths i)).map (i, ·)

variable {lengths : Nat → Nat} {k : Nat}

theorem mem_places_iff {p : Nat × Nat} : p ∈ places lengths k ↔ p.1 < k ∧ p.2 < lengths p.1 := by
  rw [places, List.mem_flatMap]
  constructor
  · rintro ⟨i, hi, hp⟩
    obtain ⟨r, hr, rfl⟩ := List.mem_map.mp hp
    exact ⟨List.mem_range.mp hi, List.mem_range.mp hr⟩
  · rintro ⟨hi, hr⟩
    exact ⟨p.1, List.mem_range.mpr hi, List.mem_map.mpr ⟨p.2, List.mem_range.mpr hr, rfl⟩⟩

theorem places_succ : places lengths (k + 1) =
    places lengths k ++ (List.range (lengths k)).map (k, ·) := by
  rw [places, List.range_succ, List.flatMap_append, List.flatMap_singleton, places]

theorem nodup_places : (places lengths k).Nodup := by
  induction k with
  | zero => exact List.nodup_nil
  | succ k ih =>
    rw [places_succ, List.nodup_append']
    refine ⟨ih, List.nodup_range.map (Prod.mk_right_injective k), fun p hp hp' => ?_⟩
    obtain ⟨r, -, rfl⟩ := List.mem_map.mp hp'
    exact Nat.lt_irrefl k (mem_places_iff.mp hp).1

variable (lengths k) in
/-- Counted by source and then by position, the items of the sources are numbered without gaps. -/
theorem map_places : (places lengths k).map (fun p => ∑ j ∈ Finset.range p.1, lengths j + p.2) =
    List.range (∑ i ∈ Finset.range k, lengths i) := by
  induction k with
  | zero => rfl
  | succ k ih =>
    rw [places_succ, List.map_append, ih, Finset.sum_range_succ, List.range_add, List.map_map]
    rfl

theorem length_places : (places lengths k).length = ∑ i ∈ Finset.range k, lengths i := by
  have hNumbered := congrArg List.length (map_places lengths k)
  rwa [List.length_map, List.length_range] at hNumbered

variable (hLengths : HasLengths pull sources lengths sources.length)

include hLengths in
theorem isSome_item_iff {p : Nat × Nat} :
    (item pull sources p.1 p.2).isSome ↔ p ∈ places lengths sources.length := by
  rw [mem_places_iff]
  constructor
  · intro hItem
    obtain ⟨a, ha⟩ := Option.isSome_iff_exists.mp hItem
    have hi := lt_length_of_item ha
    exact ⟨hi, (hLengths _ hi _).mp hItem⟩
  · exact fun ⟨hi, hr⟩ => (hLengths _ hi _).mpr hr

theorem rank_injOn : Set.InjOn (fun p : Nat × Nat => rank pull sources p.1 p.2)
    {p | (item pull sources p.1 p.2).isSome} := by
  rintro ⟨i, r⟩ h ⟨j, q⟩ h' (hRank : rank pull sources i r = rank pull sources j q)
  have hNotBefore := (rank_lt_rank_iff h h').not.mp hRank.not_lt
  have hNotAfter := (rank_lt_rank_iff h' h).not.mp hRank.not_gt
  rw [Prod.mk.injEq]
  omega

theorem exists_item_of_le_rank {i r n : Nat} (h : (item pull sources i r).isSome)
    (hn : n ≤ rank pull sources i r) :
    ∃ j q, (item pull sources j q).isSome ∧ rank pull sources j q = n := by
  cases hGiven : givenInTurn pull sources n with
  | none => exact absurd (givenInTurn_eq_none_iff.mp hGiven i r h) (Nat.not_lt.mpr hn)
  | some a =>
    obtain ⟨j, q, hItem, hRank⟩ := exists_item_of_givenInTurn hGiven
    exact ⟨j, q, by rw [hItem]; rfl, hRank⟩

include hLengths in
/-- Sources that end give all their items in the first calls, and these give nothing else. -/
theorem perm_ranks : ((places lengths sources.length).map fun p => rank pull sources p.1 p.2).Perm
    (List.range (∑ i ∈ Finset.range sources.length, lengths i)) := by
  have hNodup : ((places lengths sources.length).map fun p => rank pull sources p.1 p.2).Nodup :=
    nodup_places.map_on fun p hp p' hp' =>
      rank_injOn ((isSome_item_iff hLengths).mpr hp) ((isSome_item_iff hLengths).mpr hp')
  have hLength : ((places lengths sources.length).map fun p => rank pull sources p.1 p.2).length =
      ∑ i ∈ Finset.range sources.length, lengths i := by rw [List.length_map, length_places]
  have hClosed : ∀ n p, p ∈ places lengths sources.length → n ≤ rank pull sources p.1 p.2 →
      n ∈ (places lengths sources.length).map fun p => rank pull sources p.1 p.2 := by
    intro n p hp hn
    obtain ⟨j, q, hItem, hRank⟩ := exists_item_of_le_rank ((isSome_item_iff hLengths).mpr hp) hn
    exact List.mem_map.mpr ⟨(j, q), (isSome_item_iff hLengths).mp hItem, hRank⟩
  refine (List.subperm_of_subset hNodup fun n hn => ?_).perm_of_length_le ?_
  · obtain ⟨p, hp, rfl⟩ := List.mem_map.mp hn
    rw [List.mem_range, ← hLength]
    -- The rank and all numbers below it are ranks of items, so there are more items than that.
    have hBelow := List.subperm_of_subset (List.nodup_range (n := rank pull sources p.1 p.2 + 1))
      fun m hm => hClosed m p hp (Nat.le_of_lt_succ (List.mem_range.mp hm))
    have hCount := hBelow.length_le
    rwa [List.length_range] at hCount
  · rw [List.length_range, hLength]

include hLengths in
theorem perm_map_given :
    ((List.range (∑ i ∈ Finset.range sources.length, lengths i)).map (givenInTurn pull sources)).Perm
      ((List.range (∑ i ∈ Finset.range sources.length, lengths i)).map (givenInOrder pull sources)) := by
  have hItems (give : Nat → Option α) (number : Nat × Nat → Nat)
      (h : ∀ p a, item pull sources p.1 p.2 = some a → give (number p) = some a) :
      ((places lengths sources.length).map number).map give =
        (places lengths sources.length).map fun p => item pull sources p.1 p.2 := by
    rw [List.map_map]
    refine List.map_congr_left fun p hp => ?_
    obtain ⟨a, ha⟩ := Option.isSome_iff_exists.mp ((isSome_item_iff hLengths).mpr hp)
    rw [ha]
    exact h p a ha
  have hInTurn := hItems (givenInTurn pull sources) (fun p => rank pull sources p.1 p.2)
    fun p a h => givenInTurn_rank h
  have hInOrder := hItems (givenInOrder pull sources)
    (fun p => ∑ j ∈ Finset.range p.1, lengths j + p.2) fun p a h =>
      output_inOrder (fun i hi => hLengths i (hi.trans (lt_length_of_item h))) h
  rw [map_places] at hInOrder
  rw [hInOrder, ← hInTurn]
  exact ((perm_ranks hLengths).map _).symm

include hLengths in
theorem givenInTurn_eq_none_iff_le {n : Nat} :
    givenInTurn pull sources n = none ↔ ∑ i ∈ Finset.range sources.length, lengths i ≤ n := by
  have hRanks (m : Nat) : (∃ i r, (item pull sources i r).isSome ∧ rank pull sources i r = m) ↔
      m < ∑ i ∈ Finset.range sources.length, lengths i := by
    rw [← List.mem_range, ← (perm_ranks hLengths).mem_iff, List.mem_map, Prod.exists]
    simp only [← isSome_item_iff hLengths]
  rw [givenInTurn_eq_none_iff]
  constructor
  · intro hAll
    by_contra hLess
    obtain ⟨i, r, hItem, rfl⟩ := (hRanks n).mpr (Nat.lt_of_not_le hLess)
    exact Nat.lt_irrefl _ (hAll i r hItem)
  · exact fun hSum i r hItem => Nat.lt_of_lt_of_le ((hRanks _).mp ⟨i, r, hItem, rfl⟩) hSum

include hLengths in
theorem givenInOrder_eq_none_iff_le {n : Nat} :
    givenInOrder pull sources n = none ↔ ∑ i ∈ Finset.range sources.length, lengths i ≤ n := by
  rw [givenInOrder_eq_none_iff]
  constructor
  · rintro ⟨lengths', hLengths', hSum⟩
    rwa [hLengths.sum_eq hLengths']
  · exact fun hSum => ⟨lengths, hLengths, hSum⟩

theorem exists_list {give : Nat → Option α} {total : Nat} (h : ∀ n, give n = none ↔ total ≤ n) :
    ∃ items : List α, (∀ n, give n = items[n]?) ∧ items.map some = (List.range total).map give := by
  have hGives (i : Fin total) : (give i).isSome :=
    Option.isSome_iff_ne_none.mpr ((h i).not.mpr (Nat.not_le.mpr i.isLt))
  refine ⟨List.ofFn fun i : Fin total => (give i).get (hGives i), fun n => ?_, ?_⟩
  · rw [List.getElem?_ofFn]
    split
    · exact (Option.some_get _).symm
    · exact (h n).mpr (Nat.le_of_not_lt ‹_›)
  · rw [List.map_ofFn, List.ofFn_eq_map, ← List.map_coe_finRange_eq_range, List.map_map]
    exact List.map_congr_left fun i _ => Option.some_get _

include hLengths in
theorem exists_perm : ∃ items others : List α, items.Perm others ∧
    (∀ n, givenInTurn pull sources n = items[n]?) ∧ (∀ n, givenInOrder pull sources n = others[n]?) := by
  obtain ⟨items, hItems, hTurn⟩ := exists_list fun n => givenInTurn_eq_none_iff_le hLengths (n := n)
  obtain ⟨others, hOthers, hOrder⟩ := exists_list fun n => givenInOrder_eq_none_iff_le hLengths (n := n)
  refine ⟨items, others, ?_, hItems, hOthers⟩
  rw [← List.map_perm_map_iff (Option.some_injective α), hTurn, hOrder]
  exact perm_map_given hLengths

end Together

section Merged

variable (pull sources)

/-- The laws of sources that take turns, for the queue of sources as for the carousel of fixed places. -/
structure TakeTurns : Prop where
  item_of_le : ∀ i r q, (item pull sources i r).isSome → q ≤ r → (item pull sources i q).isSome
  gives_item : ∀ i r a, item pull sources i r = some a →
    givenInTurn pull sources (rank pull sources i r) = some a
  gives_items_only : ∀ n a, givenInTurn pull sources n = some a →
    ∃ i r, item pull sources i r = some a ∧ rank pull sources i r = n
  by_position : ∀ i r j q, (item pull sources i r).isSome → (item pull sources j q).isSome →
    (rank pull sources i r < rank pull sources j q ↔ r < q ∨ r = q ∧ i < j)
  gives_nothing : ∀ n, givenInTurn pull sources n = none ↔
    ∀ i r, (item pull sources i r).isSome → rank pull sources i r < n
  asks_once : ∀ n, ((askedInTurn pull sources n).map Prod.fst).Nodup
  asks_no_more : ∀ n i, (i, none) ∈ askedInTurn pull sources n →
    ∀ m answer, n < m → (i, answer) ∉ askedInTurn pull sources m
  starts : carouselAfter pull sources 0 = .ofList sources.zipIdx
  /-- No call finds its cursor outside of the places or takes more turns than there are sources. -/
  goes_round : ∀ n, ((carouselAfter pull sources n).next (watch pull) sources.length).run.run [] =
    (some (givenInTurn pull sources n, carouselAfter pull sources (n + 1)), askedInTurn pull sources n)

/-- The laws of sources each of which is used up before the one behind it. -/
structure KeepOrder : Prop where
  gives_item : ∀ i r a lengths, HasLengths pull sources lengths i → item pull sources i r = some a →
    givenInOrder pull sources (∑ j ∈ Finset.range i, lengths j + r) = some a
  gives_items_only : ∀ n a, givenInOrder pull sources n = some a →
    ∃ i r lengths, HasLengths pull sources lengths i ∧ item pull sources i r = some a ∧
      n = ∑ j ∈ Finset.range i, lengths j + r
  gives_nothing : ∀ n, givenInOrder pull sources n = none ↔
    ∃ lengths, HasLengths pull sources lengths sources.length ∧
      ∑ i ∈ Finset.range sources.length, lengths i ≤ n

theorem merges_transposed : TakeTurns pull sources ∧ KeepOrder pull sources ∧
    ∀ lengths, HasLengths pull sources lengths sources.length →
      ∃ items others : List α, items.Perm others ∧ (∀ n, givenInTurn pull sources n = items[n]?) ∧
        ∀ n, givenInOrder pull sources n = others[n]? := by
  refine ⟨?inTurn, ?inOrder, fun lengths => exists_perm⟩
  case inTurn =>
    exact {
      item_of_le := fun i r q => isSome_item_of_le
      gives_item := fun i r a => givenInTurn_rank
      gives_items_only := fun n a => exists_item_of_givenInTurn
      by_position := fun i r j q => rank_lt_rank_iff
      gives_nothing := fun n => givenInTurn_eq_none_iff
      asks_once := fun n => (orderly_waitingAfter n).asked_nodup
      asks_no_more := fun n i hNone m answer hLater => not_mem_askedInTurn hNone hLater answer
      starts := rfl
      goes_round := fun n => (inStep pull sources n).answered.agrees }
  case inOrder =>
    exact {
      gives_item := fun i r a lengths => output_inOrder
      gives_items_only := fun n a => exists_item_of_output
      gives_nothing := fun n => givenInOrder_eq_none_iff }

def uncons (list : List α) : Option α × List α :=
  (list.head?, list.tail)

theorem after?_succ (source : σ) (r : Nat) :
    after? pull source (r + 1) = (behind? pull source).bind (after? pull · r) := by
  induction r with
  | zero => cases h : behind? pull source <;> simp [after?, h]
  | succ r ih => rw [after?, ih, Option.bind_assoc]; rfl

theorem itemAt_uncons (list : List α) (r : Nat) : itemAt uncons list r = list[r]? := by
  induction list generalizing r with
  | nil => exact itemAt_eq_none_of_le rfl (Nat.zero_le r)
  | cons a list ih =>
    cases r with
    | zero => rfl
    | succ r =>
      rw [itemAt, after?_succ]
      exact ih r

theorem hasLengths_uncons (lists : List (List α)) :
    HasLengths uncons lists (fun i => (lists[i]?.getD []).length) lists.length := by
  intro i hi r
  simp [item, itemAt_uncons, List.getElem?_eq_getElem hi]

theorem merges_transposed_lists :
    HasLengths uncons [[1, 4], [], [2, 5, 6]] (fun i => ([[1, 4], [], [2, 5, 6]][i]?.getD []).length) 3 ∧
      ∃ items others : List Nat, items.Perm others ∧
        (∀ n, givenInTurn uncons [[1, 4], [], [2, 5, 6]] n = items[n]?) ∧
        ∀ n, givenInOrder uncons [[1, 4], [], [2, 5, 6]] n = others[n]? :=
  ⟨hasLengths_uncons _, (merges_transposed uncons _).2.2 _ (hasLengths_uncons _)⟩

example : (List.range 6).map (givenInTurn uncons [[1, 4], [], [2, 5, 6]]) =
    [some 1, some 2, some 4, some 5, some 6, none] := by
  decide

end Merged

end Lexigram.Enumeration
