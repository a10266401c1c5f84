import Lexigram.Proofs.Matching
import Lexigram.Proofs.Traced

/-! # Sources that are expressions by themselves

What the reader does with a text does not depend on the groups that are open around it, as long as the
text closes none of them.
-/

namespace Lexigram

namespace Regex

namespace Reader

def within (r : Reader) (outer : List (Flags × Branches)) : Reader :=
  { r with enclosing := r.enclosing ++ outer }

section Congruence

variable {α β : Type} {b b' : β}

theorem bind_ok_of_imp {x : Except SyntaxError α} {f g : α → Except SyntaxError β}
    (h : x >>= f = .ok b) (hImp : ∀ a, f a = .ok b → g a = .ok b') : x >>= g = .ok b' := by
  obtain ⟨a, hx, hf⟩ := bind_eq_ok_iff.mp h
  exact bind_eq_ok_iff.mpr ⟨a, hx, hImp a hf⟩

theorem ite_ok_of_imp {p : Prop} [Decidable p] {x x' y y' : Except SyntaxError β}
    (h : (if p then x else y) = .ok b) (hThen : x = .ok b → x' = .ok b')
    (hElse : y = .ok b → y' = .ok b') : (if p then x' else y') = .ok b' := by
  split at h
  · rename_i hp
    rw [if_pos hp, hThen h]
  · rename_i hp
    rw [if_neg hp, hElse h]

end Congruence

variable {properties : Properties} {r next : Reader} {c : Char} (outer : List (Flags × Branches))

theorem closeGroup_within (h : r.closeGroup = .ok next) :
    (r.within outer).closeGroup = .ok (next.within outer) := by
  unfold closeGroup at h ⊢
  cases hEnclosing : r.enclosing with
  | nil =>
    rw [hEnclosing] at h
    cases h
  | cons group rest =>
    rw [hEnclosing] at h
    cases h
    simp only [within, hEnclosing, List.cons_append]

theorem repeatLast_within {least : Nat} {most : Option Nat} (h : r.repeatLast least most = .ok next) :
    (r.within outer).repeatLast least most = .ok (next.within outer) := by
  unfold repeatLast at h ⊢
  simp only [within]
  split at h
  · cases h
  · refine ite_ok_of_imp h (fun h => ?_) nofun
    cases h
    rfl

theorem makeLazy_within : (r.within outer).makeLazy = r.makeLazy.within outer := by
  unfold makeLazy
  simp only [within]
  split <;> rfl

theorem beginItem_within (h : r.beginItem c = .ok next) :
    (r.within outer).beginItem c = .ok (next.within outer) := by
  unfold beginItem at h
  split at h
  case h_2 => exact closeGroup_within outer h
  case h_6 | h_7 | h_8 => exact repeatLast_within outer h
  case h_9 =>
    refine ite_ok_of_imp h (fun h => ?_) nofun
    cases h
    rfl
  case h_13 =>
    simp only [beginItem]
    cases h
    rfl
  all_goals
    cases h
    rfl

theorem flagStep_within {list : FlagList} (h : r.flagStep list c = .ok next) :
    (r.within outer).flagStep list c = .ok (next.within outer) := by
  unfold flagStep at h
  split at h
  · refine ite_ok_of_imp h nofun fun h => ?_
    cases h
    rfl
  · refine ite_ok_of_imp h nofun fun h => ?_
    cases h
    rfl
  · simp only [flagStep]
    refine bind_ok_of_imp h fun list h => ?_
    cases h
    rfl

theorem pushEscaped_within {escaped : Escaped} (h : r.pushEscaped properties escaped = .ok next) :
    (r.within outer).pushEscaped properties escaped = .ok (next.within outer) := by
  cases escaped with
  | char | chars =>
    cases h
    rfl
  | property name negated =>
    refine bind_ok_of_imp h fun set h => ?_
    cases h
    rfl
  | assert condition =>
    cases condition <;>
    · cases h
      rfl

theorem leastStep_within {n : Count} (h : r.leastStep n c = .ok next) :
    (r.within outer).leastStep n c = .ok (next.within outer) := by
  unfold leastStep at h ⊢
  split at h
  · refine bind_ok_of_imp h fun count h => ?_
    cases h
    rfl
  · exact bind_ok_of_imp h fun count h => repeatLast_within outer h
  · refine bind_ok_of_imp h fun n h => ?_
    cases h
    rfl

theorem sideStep_within {read : List Char} (h : r.sideStep read c = .ok next) :
    (r.within outer).sideStep read c = .ok (next.within outer) := by
  unfold sideStep at h ⊢
  refine ite_ok_of_imp h (fun h => ?_) fun h => ite_ok_of_imp h (leastStep_within outer) fun h => ?_
  · cases h
    rfl
  · split at h
    · cases h
      rfl
    · cases h

theorem escapeStep_within {e : Escape} (h : r.escapeStep properties e c = .ok next) :
    (r.within outer).escapeStep properties e c = .ok (next.within outer) := by
  refine bind_ok_of_imp h fun read h => ?_
  cases read with
  | inl e =>
    cases h
    rfl
  | inr escaped => exact pushEscaped_within outer h

theorem bracketStep_within {b : ClassReader} (h : r.bracketStep properties b c = .ok next) :
    (r.within outer).bracketStep properties b c = .ok (next.within outer) := by
  refine bind_ok_of_imp h fun read h => ?_
  cases read with
  | inl b =>
    cases h
    rfl
  | inr set =>
    cases h
    rfl

theorem mostStep_within {least : Nat} {n : Count} (h : r.mostStep least n c = .ok next) :
    (r.within outer).mostStep least n c = .ok (next.within outer) := by
  refine ite_ok_of_imp h (fun h => ?_) fun h => ?_
  · exact bind_ok_of_imp h fun most h => ite_ok_of_imp h (repeatLast_within outer) nofun
  · refine bind_ok_of_imp h fun n h => ?_
    cases h
    rfl

theorem nameStep_within {read : List Char} (h : r.nameStep read c = .ok next) :
    (r.within outer).nameStep read c = .ok (next.within outer) := by
  have hNames : (r.within outer).names = r.names := rfl
  unfold nameStep at h ⊢
  rw [hNames]
  refine ite_ok_of_imp h (fun h => ite_ok_of_imp h nofun fun h => ite_ok_of_imp h nofun fun h => ?_)
    fun h => ite_ok_of_imp h (fun h => ?_) nofun
  · cases h
    rfl
  · cases h
    rfl

/-- A step that the reader takes by itself it takes in the same way within other groups. -/
theorem step_within (h : r.step properties c = .ok next) :
    (r.within outer).step properties c = .ok (next.within outer) := by
  have hPlace : (r.within outer).place = r.place := rfl
  unfold step at h ⊢
  rw [hPlace]
  cases hr : r.place <;> rw [hr] at h <;> dsimp only at h ⊢
  case items => exact beginItem_within outer h
  case repetition =>
    refine ite_ok_of_imp h (fun h => ?_) (beginItem_within outer)
    cases h
    rw [makeLazy_within]
  case boundary | group =>
    refine ite_ok_of_imp h (fun h => ?_) (beginItem_within outer)
    cases h
    rfl
  case side => exact sideStep_within outer h
  case escape => exact escapeStep_within outer h
  case bracket => exact bracketStep_within outer h
  case least => exact leastStep_within outer h
  case comma => exact ite_ok_of_imp h (repeatLast_within outer) (mostStep_within outer)
  case most => exact mostStep_within outer h
  case mark =>
    split at h
    case h_3 => exact flagStep_within outer h
    all_goals
      cases h
      rfl
  case announced =>
    refine ite_ok_of_imp h (fun h => ?_) nofun
    cases h
    rfl
  case name => exact nameStep_within outer h
  case flagList => exact flagStep_within outer h

theorem foldlM_within {text : List Char} (h : text.foldlM (step properties) r = .ok next) :
    text.foldlM (step properties) (r.within outer) = .ok (next.within outer) := by
  induction text generalizing r with
  | nil =>
    cases h
    rfl
  | cons c text ih =>
    rw [List.foldlM_cons] at h ⊢
    cases hStep : r.step properties c with
    | error e =>
      rw [hStep] at h
      cases h
    | ok middle =>
      rw [hStep] at h
      rw [step_within outer hStep]
      exact ih h

theorem finish_eq_ok_iff {body : Regex} {depth : Nat} : r.finish = .ok (body, depth) ↔
    r.place.isBetween = true ∧ r.enclosing = [] ∧ r.current.result = body ∧
      r.current.nesting.result = depth := by
  unfold finish
  cases r.place.isBetween with
  | false => simp
  | true => by_cases hEnclosing : r.enclosing = [] <;> simp [hEnclosing]

theorem step_close (hPlace : r.place.isBetween = true) : r.step properties ')' = r.closeGroup := by
  unfold step
  cases hr : r.place <;> rw [hr] at hPlace <;> first | rfl | cases hPlace

theorem read_eq_ok_iff {source : List Char} {body : Regex} {depth : Nat} :
    read source properties = .ok (body, depth) ↔
      ∃ last, source.foldlM (step properties) {} = .ok last ∧ last.finish = .ok (body, depth) :=
  bind_eq_ok_iff

/-- A text that is an expression by itself, read as a group and closed. -/
theorem foldlM_group {source : List Char} {body : Regex} {depth : Nat}
    (h : read source properties = .ok (body, depth)) (outer : Branches) : ∃ names,
      (source ++ [')']).foldlM (step properties) (({} : Reader).within [({}, outer)]) =
        .ok { current := outer.push body (depth + 1), names } := by
  obtain ⟨last, hRun, hFinish⟩ := read_eq_ok_iff.mp h
  obtain ⟨hPlace, hEnclosing, rfl, rfl⟩ := finish_eq_ok_iff.mp hFinish
  refine ⟨last.names, ?_⟩
  have hClose : (last.within [({}, outer)]).step properties ')' = (last.within [({}, outer)]).closeGroup :=
    step_close hPlace
  rw [List.foldlM_append, foldlM_within _ hRun]
  change [')'].foldlM (step properties) (last.within [({}, outer)]) = _
  rw [List.foldlM_cons, hClose]
  simp only [closeGroup, within, hEnclosing, List.nil_append]
  rfl

end Reader

variable {properties : Properties}

theorem read_group {source : List Char} {body : Regex} {depth : Nat} {c : Char}
    (h : read (c :: source) properties = .ok (body, depth)) (hFirst : c ≠ '?') :
    read ('(' :: c :: (source ++ [')'])) properties = .ok (.seq .empty body, depth + 1) := by
  obtain ⟨names, hRun⟩ := Reader.foldlM_group h {}
  have hOpen : ('(' :: c :: (source ++ [')'])).foldlM (Reader.step properties) {} =
      (c :: source ++ [')']).foldlM (Reader.step properties) (({} : Reader).within [({}, {})]) := by
    rw [List.foldlM_cons, List.cons_append, List.foldlM_cons]
    exact congrArg (· >>= (source ++ [')']).foldlM (Reader.step properties)) (if_neg hFirst)
  rw [← hOpen] at hRun
  exact Reader.read_eq_ok_iff.mpr ⟨_, hRun, Reader.finish_eq_ok_iff.mpr
    ⟨rfl, rfl, rfl, by simp [Branches.push, Nesting.push, Nesting.result, Nesting.branch]⟩⟩

/-- The source of a pattern is two levels deeper than what it was made from. -/
theorem read_anchored {source : List Char} {body : Regex} {depth : Nat}
    (h : read source properties = .ok (body, depth)) :
    read (Pattern.anchored source) properties = .ok (body.tied, depth + 2) := by
  obtain ⟨names, hRun⟩ := Reader.foldlM_group h (({} : Branches).push (.assert .textStart) 0)
  exact Reader.read_eq_ok_iff.mpr ⟨_, hRun, Reader.finish_eq_ok_iff.mpr
    ⟨rfl, rfl, rfl, by simp [Branches.push, Nesting.push, Nesting.result, Nesting.branch]⟩⟩

end Regex

end Lexigram
