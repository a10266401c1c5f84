import Lexigram.Enumeration.Chain

/-! # Runs of computations

When a computation returns, with what value and what log, told from its parts. And what a computation is
sure to return if it does not run out of fuel.
-/

namespace Lexigram

theorem bind_eq_ok_iff {φ α β : Type} {x : Except φ α} {f : α → Except φ β} {b : β} :
    x >>= f = .ok b ↔ ∃ a, x = .ok a ∧ f a = .ok b := by
  cases x with
  | error e => exact ⟨nofun, nofun⟩
  | ok a => simp [bind, Except.bind]

namespace Traced

variable {ε α β : Type}

theorem run_pure_eq_ok_iff {a b : α} {log log' : Array ε} :
    (pure a : Traced ε α).run log = .ok (b, log') ↔ a = b ∧ log = log' := by
  change (Except.ok (a, log) : Except Halt (α × Array ε)) = .ok (b, log') ↔ _
  rw [Except.ok.injEq, Prod.mk.injEq]

theorem run_bind_of_ok {m : Traced ε α} {f : α → Traced ε β} {a : α} {log log' : Array ε}
    (h : m.run log = .ok (a, log')) : (m >>= f).run log = (f a).run log' := by
  rw [StateT.run_bind, h]
  rfl

theorem run_bind_eq_ok_iff {m : Traced ε α} {f : α → Traced ε β} {b : β} {log log'' : Array ε} :
    (m >>= f).run log = .ok (b, log'') ↔
      ∃ a log', m.run log = .ok (a, log') ∧ (f a).run log' = .ok (b, log'') := by
  constructor
  · intro h
    cases hm : m.run log with
    | error why =>
      rw [StateT.run_bind, hm] at h
      cases h
    | ok r => exact ⟨r.1, r.2, rfl, by rwa [run_bind_of_ok hm] at h⟩
  · rintro ⟨a, log', hm, hf⟩
    rwa [run_bind_of_ok hm]

theorem run_ofExcept_eq_ok_iff {x : Except Halt α} {a : α} {log log' : Array ε} :
    (ofExcept x : Traced ε α).run log = .ok (a, log') ↔ x = .ok a ∧ log = log' := by
  cases x with
  | error why => simp [ofExcept]
  | ok b =>
    rw [Except.ok.injEq]
    exact run_pure_eq_ok_iff

/-- The computation meets no dangling symbol, and what it returns has the property. -/
def Ensures (m : Traced ε α) (p : α → Prop) : Prop :=
  ∀ log, (∃ a log', m.run log = .ok (a, log') ∧ p a) ∨ m.run log = .error .outOfFuel

theorem ensures_pure {a : α} {p : α → Prop} (h : p a) : (pure a : Traced ε α).Ensures p :=
  fun log => .inl ⟨a, log, rfl, h⟩

theorem ensures_outOfFuel (p : α → Prop) : (halt .outOfFuel : Traced ε α).Ensures p :=
  fun _ => .inr rfl

theorem ensures_ofExcept {x : Except Halt α} {a : α} {p : α → Prop} (hx : x = .ok a) (h : p a) :
    (ofExcept x : Traced ε α).Ensures p := by
  rw [hx]
  exact ensures_pure h

theorem Ensures.bind {m : Traced ε α} {f : α → Traced ε β} {p : α → Prop} {q : β → Prop}
    (hm : m.Ensures p) (hf : ∀ a, p a → (f a).Ensures q) : (m >>= f).Ensures q := by
  intro log
  obtain ⟨a, log', hRun, ha⟩ | hHalt := hm log
  · rw [run_bind_of_ok hRun]
    exact hf a ha log'
  · right
    rw [StateT.run_bind, hHalt]
    rfl

theorem Ensures.of_run {m : Traced ε α} {p : α → Prop} (h : m.Ensures p) {a : α} {log log' : Array ε}
    (hRun : m.run log = .ok (a, log')) : p a := by
  obtain ⟨a', mid, hRun', ha⟩ | hHalt := h log
  · rw [hRun] at hRun'
    cases hRun'
    exact ha
  · rw [hRun] at hHalt
    cases hHalt

theorem Ensures.not_dangling {m : Traced ε α} {p : α → Prop} (h : m.Ensures p) (log : Array ε)
    (index : Nat) : m.run log ≠ .error (.dangling index) := by
  obtain ⟨a, log', hRun, -⟩ | hHalt := h log
  · rw [hRun]
    exact nofun
  · rw [hHalt]
    exact nofun

end Traced

end Lexigram
