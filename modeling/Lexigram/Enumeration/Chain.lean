/-! # Chains of dependent choices

A chain takes one item from each of several levels, where the sources of a level depend on the item
chosen on the level before. Chains are enumerated depth first: the last level moves fastest, and a level
whose source is used up is left for the one before it. An enumeration may run forever, and the order in
which it does its work matters, so it is written with a bound on its steps and with a log of what it did.
-/

namespace Lexigram

inductive Halt where
  | outOfFuel
  | dangling (index : Nat)
  deriving DecidableEq, Repr

abbrev Traced (ε : Type) : Type → Type :=
  StateT (Array ε) (Except Halt)

namespace Traced

def log {ε : Type} (event : ε) : Traced ε Unit :=
  modify (·.push event)

def halt {ε α : Type} (why : Halt) : Traced ε α :=
  fun _ => .error why

def ofExcept {ε α : Type} : Except Halt α → Traced ε α
  | .ok a => pure a
  | .error why => halt why

@[simp] theorem run_log {ε : Type} (event : ε) (events : Array ε) :
    (log event).run events = .ok ((), events.push event) :=
  rfl

@[simp] theorem run_halt {ε α : Type} (why : Halt) (events : Array ε) :
    (halt why : Traced ε α).run events = .error why :=
  rfl

end Traced

end Lexigram

namespace Lexigram.Enumeration

/-- A level that is being used: what is left of its source, and the makers of the levels behind it. -/
structure Level (β σ : Type) where
  source : σ
  behind : List β

inductive Chain (β σ τ : Type) where
  | fresh (first : β) (behind : List β)
  /-- The levels in use, the last one first, and the items chosen on all but the last. -/
  | moving (levels : List (Level β σ)) (chosen : List τ)

namespace Chain

variable {ε φ β σ τ : Type}

def finished : Chain β σ τ :=
  .moving [] []

/-- Looks for the next complete chain from the given levels. An error of a source ends the
enumeration. -/
def advance (make : β → Option τ → Traced ε σ)
    (pull : σ → Traced ε (Option (Except φ τ) × σ)) :
    Nat → List (Level β σ) → List τ → Traced ε (Option (Except φ (List τ)) × Chain β σ τ)
  | _, [], _ => pure (none, finished)
  | 0, _ :: _, _ => Traced.halt .outOfFuel
  | fuel + 1, level :: before, chosen => do
    let (item, source) ← pull level.source
    match item with
    | none => advance make pull fuel before chosen.tail
    | some (.error e) => pure (some (.error e), finished)
    | some (.ok choice) =>
      match level.behind with
      | [] =>
        pure (some (.ok (choice :: chosen).reverse), .moving (⟨source, []⟩ :: before) chosen)
      | maker :: behind => do
        let next ← make maker (some choice)
        advance make pull fuel (⟨next, behind⟩ :: ⟨source, maker :: behind⟩ :: before)
          (choice :: chosen)

def next (make : β → Option τ → Traced ε σ)
    (pull : σ → Traced ε (Option (Except φ τ) × σ)) (fuel : Nat) :
    Chain β σ τ → Traced ε (Option (Except φ (List τ)) × Chain β σ τ)
  | .fresh first behind => do
    let source ← make first none
    advance make pull fuel [⟨source, behind⟩] []
  | .moving levels chosen => advance make pull fuel levels chosen

end Chain

/-! ## Chains on two stacks

The enumeration of chains with the sources and the chosen items on stacks of their own. The maker of the
next level is looked up by the number of levels in use.
-/


structure Odometer (β σ τ : Type) where
  /-- The maker of the first level, until it has been used. -/
  first : Option β
  makers : List β
  /-- What is left of the sources of the levels in use, the last one first. -/
  sources : List σ
  chosen : List τ
  done : Bool

namespace Odometer

variable {ε φ β σ τ : Type}

def ofMakers (first : β) (makers : List β) : Odometer β σ τ :=
  ⟨some first, makers, [], [], false⟩

/-- Looks for the next complete chain. Fails if there is no maker for a level that should be opened. -/
def advance (make : β → Option τ → Traced ε σ) (pull : σ → Traced ε (Option (Except φ τ) × σ))
    (makers : List β) :
    Nat → List σ → List τ → OptionT (Traced ε) (Option (Except φ (List τ)) × Odometer β σ τ)
  | _, [], chosen => pure (none, ⟨none, makers, [], chosen, true⟩)
  | 0, _ :: _, _ => OptionT.lift (Traced.halt .outOfFuel)
  | fuel + 1, source :: before, chosen => do
    let (item, source) ← OptionT.lift (pull source)
    match item with
    | none => advance make pull makers fuel before chosen.tail
    | some (.error e) => pure (some (.error e), ⟨none, makers, [], [], true⟩)
    | some (.ok choice) =>
      let depth := before.length + 1
      if depth = makers.length + 1 then
        pure (some (.ok (choice :: chosen).reverse), ⟨none, makers, source :: before, chosen, false⟩)
      else
        match makers[depth - 1]? with
        | none => failure
        | some maker => do
          let next ← OptionT.lift (make maker (some choice))
          advance make pull makers fuel (next :: source :: before) (choice :: chosen)

def next (make : β → Option τ → Traced ε σ) (pull : σ → Traced ε (Option (Except φ τ) × σ))
    (fuel : Nat) (o : Odometer β σ τ) : OptionT (Traced ε) (Option (Except φ (List τ)) × Odometer β σ τ) :=
  if o.done then pure (none, o)
  else
    match o.first with
    | none => advance make pull o.makers fuel o.sources o.chosen
    | some first => do
      let source ← OptionT.lift (make first none)
      advance make pull o.makers fuel (source :: o.sources) o.chosen

end Odometer

end Lexigram.Enumeration
