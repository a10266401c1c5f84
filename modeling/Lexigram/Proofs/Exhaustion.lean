import Mathlib.Data.List.Nodup

/-! # Exhaustive lists

A list is exhaustive for a predicate when it has whatever fulfils the predicate and has it once. Such lists
are put together from smaller ones that have nothing in common.
-/

namespace Lexigram

variable {α β : Type}

/-- The list has whatever fulfils `p`, and has it once. -/
structure Exhausts (p : α → Prop) (list : List α) : Prop where
  nodup : list.Nodup
  mem_iff : ∀ a, a ∈ list ↔ p a

variable {p q : α → Prop} {list list' : List α}

theorem Exhausts.congr (h : Exhausts p list) (hIff : ∀ a, p a ↔ q a) : Exhausts q list :=
  ⟨h.nodup, fun a => (h.mem_iff a).trans (hIff a)⟩

theorem Exhausts.perm (h : Exhausts p list) (hPerm : list'.Perm list) : Exhausts p list' :=
  ⟨hPerm.nodup_iff.mpr h.nodup, fun a => hPerm.mem_iff.trans (h.mem_iff a)⟩

theorem Exhausts.perm_of_exhausts (h : Exhausts p list) (h' : Exhausts p list') : list.Perm list' :=
  (List.perm_ext_iff_of_nodup h.nodup h'.nodup).mpr fun a => (h.mem_iff a).trans (h'.mem_iff a).symm

theorem exhausts_nil (h : ∀ a, ¬ p a) : Exhausts p [] :=
  ⟨.nil, fun a => ⟨fun ha => absurd ha List.not_mem_nil, fun ha => absurd ha (h a)⟩⟩

theorem exhausts_singleton (a : α) : Exhausts (· = a) [a] :=
  ⟨List.nodup_singleton a, fun _ => List.mem_singleton⟩

theorem Exhausts.append (h : Exhausts p list) (h' : Exhausts q list') (hApart : ∀ a, p a → ¬ q a) :
    Exhausts (fun a => p a ∨ q a) (list ++ list') := by
  constructor
  · refine List.nodup_append'.mpr ⟨h.nodup, h'.nodup, fun a ha ha' => ?_⟩
    exact hApart a ((h.mem_iff a).mp ha) ((h'.mem_iff a).mp ha')
  · intro a
    rw [List.mem_append, h.mem_iff, h'.mem_iff]

theorem Exhausts.map (h : Exhausts p list) {f : α → β}
    (hInj : ∀ a, p a → ∀ a', p a' → f a = f a' → a = a') :
    Exhausts (fun b => ∃ a, p a ∧ f a = b) (list.map f) := by
  constructor
  · refine h.nodup.map_on fun a ha a' ha' => ?_
    exact hInj a ((h.mem_iff a).mp ha) a' ((h.mem_iff a').mp ha')
  · intro b
    simp only [List.mem_map, h.mem_iff]

theorem exists_exhausts_flatten {f : α → β} {p : Nat → α → Prop} {lists : List (List β)}
    (first : Nat) (hApart : ∀ i j a, p i a → p j a → i = j)
    (h : ∀ i list, lists[i]? = some list →
      ∃ members, Exhausts (p (first + i)) members ∧ list = members.map f) :
    ∃ all : List (List α), lists = all.map (List.map f) ∧
      Exhausts (fun a => ∃ i, i < lists.length ∧ p (first + i) a) all.flatten := by
  induction lists generalizing first with
  | nil =>
    refine ⟨[], rfl, exhausts_nil ?_⟩
    rintro a ⟨i, hi, -⟩
    exact absurd hi (Nat.not_lt_zero i)
  | cons list lists ih =>
    obtain ⟨members, hMembers, rfl⟩ := h 0 list rfl
    obtain ⟨all, rfl, hAll⟩ := ih (first + 1) fun i list' hList => by
      have hNext := h (i + 1) list' hList
      rwa [show first + (i + 1) = first + 1 + i by omega] at hNext
    refine ⟨members :: all, rfl, ?_⟩
    rw [List.flatten_cons]
    refine (hMembers.append hAll ?_).congr fun a => ?_
    · rintro a ha ⟨i, -, hi⟩
      have hEq := hApart _ _ a ha hi
      omega
    · constructor
      · rintro (ha | ⟨i, hi, ha⟩)
        · exact ⟨0, Nat.zero_lt_succ _, ha⟩
        · refine ⟨i + 1, Nat.succ_lt_succ hi, ?_⟩
          rwa [show first + (i + 1) = first + 1 + i by omega]
      · rintro ⟨i, hi, ha⟩
        cases i with
        | zero => exact .inl ha
        | succ i =>
          refine .inr ⟨i, Nat.lt_of_succ_lt_succ hi, ?_⟩
          rwa [show first + 1 + i = first + (i + 1) by omega]

end Lexigram
