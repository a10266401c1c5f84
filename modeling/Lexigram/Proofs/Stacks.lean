import Lexigram.Enumeration.Chain
import Lexigram.Proofs.Traced

/-! # Stacks in step

In every state that an enumeration of chains gets into, one more level is in use than items are chosen, and
the makers behind a level are those that stand behind its number. So the two stacks of the odometer say
the same as the levels, and the odometer finds a maker wherever it looks for one.
-/

namespace Lexigram.Enumeration.Chain

variable {ε φ β σ τ : Type}

/-- The levels in use know the makers behind them, and an item is chosen on all of them but the last. -/
def InStep (makers : List β) : List (Level β σ) → List τ → Prop
  | [], chosen => chosen = []
  | level :: before, chosen => level.behind = makers.drop before.length ∧
      before.length ≤ makers.length ∧ chosen.length = before.length ∧ InStep makers before chosen.tail

def Fits (makers : List β) : Chain β σ τ → Prop
  | .fresh _ behind => behind = makers
  | .moving levels chosen => InStep makers levels chosen

def odometer (makers : List β) : Chain β σ τ → Odometer β σ τ
  | .fresh first _ => .ofMakers first makers
  | .moving levels chosen => ⟨none, makers, levels.map (·.source), chosen, levels.isEmpty⟩

variable {make : β → Option τ → Traced ε σ} {pull : σ → Traced ε (Option (Except φ τ) × σ)}
  {makers : List β} {levels before : List (Level β σ)} {level : Level β σ} {chosen : List τ}

theorem fits_finished : (finished : Chain β σ τ).Fits makers :=
  rfl

theorem inStep_first (source : σ) : InStep makers [⟨source, makers⟩] ([] : List τ) :=
  ⟨rfl, Nat.zero_le _, rfl, rfl⟩

theorem InStep.moved {source : σ} (h : InStep makers (level :: before) chosen) :
    InStep makers (⟨source, level.behind⟩ :: before) chosen :=
  h

theorem InStep.forward {source next : σ} {maker : β} {behind : List β} {choice : τ}
    (h : InStep makers (⟨source, maker :: behind⟩ :: before) chosen) :
    InStep makers (⟨next, behind⟩ :: ⟨source, maker :: behind⟩ :: before) (choice :: chosen) := by
  obtain ⟨hBehind, hDepth, hChosen, -⟩ := id h
  have hMore : before.length < makers.length := by
    have hLength := congrArg List.length hBehind
    simp only [List.length_cons, List.length_drop] at hLength
    omega
  refine ⟨?_, hMore, by simp [hChosen], h⟩
  rw [List.drop_eq_getElem_cons hMore, List.cons.injEq] at hBehind
  exact hBehind.2

theorem InStep.getElem? {source : σ} {maker : β} {behind : List β}
    (h : InStep makers (⟨source, maker :: behind⟩ :: before) chosen) :
    makers[before.length]? = some maker := by
  rw [← List.head?_drop, ← h.1]
  rfl

theorem InStep.length_eq {source : σ} (h : InStep makers (⟨source, []⟩ :: before) chosen) :
    before.length = makers.length := by
  have hLength := List.drop_eq_nil_iff.mp h.1.symm
  exact Nat.le_antisymm h.2.1 hLength

theorem fits_of_advance {fuel : Nat} {log log' : Array ε} {found : Option (Except φ (List τ))}
    {left : Chain β σ τ} (hStep : InStep makers levels chosen)
    (h : (advance make pull fuel levels chosen).run log = .ok ((found, left), log')) :
    left.Fits makers := by
  induction fuel generalizing levels chosen log with
  | zero =>
    cases levels with
    | nil =>
      cases h
      exact fits_finished
    | cons level before => cases h
  | succ fuel ih =>
    cases levels with
    | nil =>
      cases h
      exact fits_finished
    | cons level before =>
      obtain ⟨source, behind⟩ := level
      unfold advance at h
      obtain ⟨⟨pulled, rest⟩, mid, hPull, h⟩ := Traced.run_bind_eq_ok_iff.mp h
      rcases pulled with _ | e | choice
      · exact ih hStep.2.2.2 h
      · cases h
        exact fits_finished
      · cases behind with
        | nil =>
          cases h
          exact hStep.moved
        | cons maker behind =>
          obtain ⟨inner, mid', hMake, h⟩ := Traced.run_bind_eq_ok_iff.mp h
          exact ih hStep.moved.forward h

theorem fits_of_next {fuel : Nat} {chain left : Chain β σ τ} {log log' : Array ε}
    {found : Option (Except φ (List τ))} (hFits : chain.Fits makers)
    (h : (chain.next make pull fuel).run log = .ok ((found, left), log')) : left.Fits makers := by
  cases chain with
  | fresh first behind =>
    obtain ⟨source, mid, hMake, h⟩ := Traced.run_bind_eq_ok_iff.mp h
    cases hFits
    exact fits_of_advance (inStep_first source) h
  | moving levels chosen => exact fits_of_advance hFits h

theorem run_lift_bind {α γ : Type} (m : Traced ε α) (f : α → OptionT (Traced ε) γ) :
    (OptionT.lift m >>= f).run = m >>= fun a => (f a).run := by
  simp

/-- Whatever the sources and makers do, the odometer does what the levels do. -/
theorem run_advance_odometer (fuel : Nat) (h : InStep makers levels chosen) :
    (Odometer.advance make pull makers fuel (levels.map (·.source)) chosen).run =
      (fun r => some (r.1, r.2.odometer makers)) <$> advance make pull fuel levels chosen := by
  induction fuel generalizing levels chosen with
  | zero =>
    cases levels with
    | nil =>
      cases h
      rfl
    | cons level before => rfl
  | succ fuel ih =>
    cases levels with
    | nil =>
      cases h
      rfl
    | cons level before =>
      obtain ⟨source, behind⟩ := level
      rw [List.map_cons, Odometer.advance, advance, run_lift_bind, map_bind]
      refine bind_congr fun ⟨pulled, left⟩ => ?_
      rcases pulled with _ | e | choice
      · exact ih h.2.2.2
      · rfl
      · cases behind with
        | nil =>
          have hLast : (before.map (·.source)).length + 1 = makers.length + 1 := by
            rw [List.length_map, h.length_eq]
          dsimp only
          rw [if_pos hLast]
          rfl
        | cons maker behind =>
          have hMaker := h.getElem?
          have hMore : (before.map (·.source)).length + 1 ≠ makers.length + 1 := by
            have hLess := (List.getElem?_eq_some_iff.mp hMaker).1
            rw [List.length_map]
            omega
          dsimp only
          rw [if_neg hMore, Nat.add_sub_cancel, List.length_map, hMaker]
          dsimp only
          rw [run_lift_bind, map_bind]
          exact bind_congr fun next => ih h.moved.forward

theorem run_next_odometer {chain : Chain β σ τ} (fuel : Nat) (h : chain.Fits makers) :
    ((chain.odometer makers).next make pull fuel).run =
      (fun r => some (r.1, r.2.odometer makers)) <$> chain.next make pull fuel := by
  cases chain with
  | fresh first behind =>
    cases h
    rw [next, map_bind, odometer, Odometer.next, Odometer.ofMakers]
    dsimp only
    rw [if_neg Bool.false_ne_true, run_lift_bind]
    exact bind_congr fun source => run_advance_odometer fuel (inStep_first source)
  | moving levels chosen =>
    cases levels with
    | nil =>
      cases h
      cases fuel <;> rfl
    | cons level before =>
      rw [odometer, Odometer.next]
      exact run_advance_odometer fuel h

end Lexigram.Enumeration.Chain
