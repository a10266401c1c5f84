import Lexigram.Proofs.Stacks

/-! # Depth-first traversal of dependent choices

Chains are meant to be found by loops within loops: for each item of the first source, for each item of the
source made from it, and so on, until an error is met. `Walks` says so, with all that is done on the way.
Here the loops are unwound into turns of a stack of levels.
-/

namespace Lexigram.Enumeration.Chain

variable {φ β σ τ : Type}

/-- What is done in a traversal, and what it gives. Levels count from nought. -/
inductive Entry (φ τ : Type) where
  | made (level : Nat) (choice : Option τ)
  | asked (level : Nat) (answer : Option (Except φ τ))
  | gives (result : Except φ (List τ))

def Entry.result? : Entry φ τ → Option (Except φ (List τ))
  | gives result => some result
  | _ => none

def results (entries : List (Entry φ τ)) : List (Except φ (List τ)) :=
  entries.filterMap Entry.result?

def work (entries : List (Entry φ τ)) : List (Entry φ τ) :=
  entries.filter (·.result?.isNone)

/-- How a part of a traversal ends, if it is not just the beginning of a longer one. -/
inductive Ending where
  | paused
  | dry
  | failed
  deriving DecidableEq

/-- The loop over what is left of a source, behind items that have been chosen: for each item the loop
over the source that the next maker makes from it, up to an error at any level. With every beginning. -/
inductive Walks (make : β → Option τ → σ) (pull : σ → Option (Except φ τ) × σ) :
    List β → σ → List τ → List (Entry φ τ) → Ending → Prop
  | pause (makers : List β) (source : σ) (chosen : List τ) : Walks make pull makers source chosen [] .paused
  | dry {makers : List β} {source left : σ} {chosen : List τ} (h : pull source = (none, left)) :
    Walks make pull makers source chosen [.asked chosen.length none] .dry
  | failed {makers : List β} {source left : σ} {chosen : List τ} {e : φ}
    (h : pull source = (some (.error e), left)) : Walks make pull makers source chosen
      [.asked chosen.length (some (.error e)), .gives (.error e)] .failed
  | leaf {source left : σ} {chosen : List τ} {x : τ} {entries : List (Entry φ τ)} {ending : Ending}
    (h : pull source = (some (.ok x), left)) (h' : Walks make pull [] left chosen entries ending) :
    Walks make pull [] source chosen
      (.asked chosen.length (some (.ok x)) :: .gives (.ok (chosen ++ [x])) :: entries) ending
  | inside {maker : β} {makers : List β} {source left : σ} {chosen : List τ} {x : τ}
    {inner : List (Entry φ τ)} {ending : Ending} (h : pull source = (some (.ok x), left))
    (hInner : Walks make pull makers (make maker (some x)) (chosen ++ [x]) inner ending)
    (hEnding : ending ≠ .dry) : Walks make pull (maker :: makers) source chosen
      (.asked chosen.length (some (.ok x)) :: .made (chosen.length + 1) (some x) :: inner) ending
  | beyond {maker : β} {makers : List β} {source left : σ} {chosen : List τ} {x : τ}
    {inner entries : List (Entry φ τ)} {ending : Ending} (h : pull source = (some (.ok x), left))
    (hInner : Walks make pull makers (make maker (some x)) (chosen ++ [x]) inner .dry)
    (h' : Walks make pull (maker :: makers) left chosen entries ending) :
    Walks make pull (maker :: makers) source chosen (.asked chosen.length (some (.ok x)) ::
      .made (chosen.length + 1) (some x) :: (inner ++ entries)) ending

inductive Traverses (make : β → Option τ → σ) (pull : σ → Option (Except φ τ) × σ) (first : β)
    (makers : List β) : List (Entry φ τ) → Ending → Prop
  | pause : Traverses make pull first makers [] .paused
  | walk {entries : List (Entry φ τ)} {ending : Ending}
    (h : Walks make pull makers (make first none) [] entries ending) :
    Traverses make pull first makers (.made 0 none :: entries) ending

/-- The loops that levels in use stand in, the last level in the innermost one. -/
inductive Unwinds (make : β → Option τ → σ) (pull : σ → Option (Except φ τ) × σ) :
    List (Level β σ) → List τ → List (Entry φ τ) → Ending → Prop
  | nil (chosen : List τ) : Unwinds make pull [] chosen [] .dry
  | stays {level : Level β σ} {before : List (Level β σ)} {chosen : List τ}
    {entries : List (Entry φ τ)} {ending : Ending}
    (h : Walks make pull level.behind level.source chosen.reverse entries ending)
    (hEnding : ending ≠ .dry) : Unwinds make pull (level :: before) chosen entries ending
  | goes {level : Level β σ} {before : List (Level β σ)} {chosen : List τ}
    {entries entries' : List (Entry φ τ)} {ending : Ending}
    (h : Walks make pull level.behind level.source chosen.reverse entries .dry)
    (h' : Unwinds make pull before chosen.tail entries' ending) :
    Unwinds make pull (level :: before) chosen (entries ++ entries') ending

/-- One turn of the last level: what is done, and the levels in use and the items chosen then, unless an
error ends all. -/
def turn (make : β → Option τ → σ) (pull : σ → Option (Except φ τ) × σ) (level : Level β σ)
    (before : List (Level β σ)) (chosen : List τ) :
    List (Entry φ τ) × Option (List (Level β σ) × List τ) :=
  match pull level.source with
  | (none, _) => ([.asked chosen.length none], some (before, chosen.tail))
  | (some (.error e), _) => ([.asked chosen.length (some (.error e)), .gives (.error e)], none)
  | (some (.ok x), left) =>
    match level.behind with
    | [] => ([.asked chosen.length (some (.ok x)), .gives (.ok (x :: chosen).reverse)],
        some (⟨left, []⟩ :: before, chosen))
    | maker :: behind => ([.asked chosen.length (some (.ok x)), .made (chosen.length + 1) (some x)],
        some (⟨make maker (some x), behind⟩ :: ⟨left, maker :: behind⟩ :: before, x :: chosen))

def Continues (make : β → Option τ → σ) (pull : σ → Option (Except φ τ) × σ) :
    List (Entry φ τ) × Option (List (Level β σ) × List τ) → List (Entry φ τ) → Ending → Prop
  | (done, none), entries, ending => entries = done ∧ ending = .failed
  | (done, some (levels, chosen)), entries, ending =>
    ∃ rest, entries = done ++ rest ∧ Unwinds make pull levels chosen rest ending

inductive Turns (make : β → Option τ → σ) (pull : σ → Option (Except φ τ) × σ) :
    List (Level β σ) → List τ → List (Entry φ τ) → Ending → Prop
  | nil (chosen : List τ) : Turns make pull [] chosen [] .dry
  | pause (level : Level β σ) (before : List (Level β σ)) (chosen : List τ) :
    Turns make pull (level :: before) chosen [] .paused
  | failed {level : Level β σ} {before : List (Level β σ)} {chosen : List τ} {done : List (Entry φ τ)}
    (hTurn : turn make pull level before chosen = (done, none)) :
    Turns make pull (level :: before) chosen done .failed
  | goes {level : Level β σ} {before levels : List (Level β σ)} {chosen chosen' : List τ}
    {done rest : List (Entry φ τ)} {ending : Ending}
    (hTurn : turn make pull level before chosen = (done, some (levels, chosen')))
    (h : Turns make pull levels chosen' rest ending) :
    Turns make pull (level :: before) chosen (done ++ rest) ending

section Turns

variable {make : β → Option τ → σ} {pull : σ → Option (Except φ τ) × σ} {level : Level β σ}
  {levels before : List (Level β σ)} {chosen : List τ} {entries entries' : List (Entry φ τ)}
  {ending ending' : Ending}

theorem turn_ne_nil : (turn make pull level before chosen).1 ≠ [] := by
  unfold turn
  split
  · exact List.cons_ne_nil _ _
  · exact List.cons_ne_nil _ _
  · split <;> exact List.cons_ne_nil _ _

theorem Unwinds.continues (h : Unwinds make pull (level :: before) chosen entries ending) :
    entries = [] ∧ ending = .paused ∨
      Continues make pull (turn make pull level before chosen) entries ending := by
  obtain ⟨source, behind⟩ := level
  cases h with
  | stays h hEnding =>
    cases h with
    | pause => exact .inl ⟨rfl, rfl⟩
    | dry => exact absurd rfl hEnding
    | failed hPull => simp [turn, Continues, hPull]
    | leaf hPull hLeft =>
      right
      simp only [turn, hPull]
      exact ⟨_, by simp, .stays hLeft hEnding⟩
    | inside hPull hInner =>
      right
      simp only [turn, hPull]
      refine ⟨_, ?_, .stays (by simpa using hInner) hEnding⟩
      simp
    | beyond hPull hInner hLeft =>
      right
      simp only [turn, hPull]
      refine ⟨_, ?_, .goes (by simpa using hInner) (.stays hLeft hEnding)⟩
      simp
  | goes h hBefore =>
    right
    cases h with
    | dry hPull =>
      simp only [turn, hPull]
      exact ⟨_, by simp, hBefore⟩
    | leaf hPull hLeft =>
      simp only [turn, hPull]
      exact ⟨_, by simp, .goes hLeft hBefore⟩
    | inside _ _ hEnding => exact absurd rfl hEnding
    | beyond hPull hInner hLeft =>
      simp only [turn, hPull]
      refine ⟨_, ?_, .goes (by simpa using hInner) (.goes hLeft hBefore)⟩
      simp

/-- A step of the loops in one turn of the stack, read backwards: what the turn leaves fits into the loops
that the levels stand in. -/
theorem Continues.unwinds (h : Continues make pull (turn make pull level before chosen) entries ending) :
    Unwinds make pull (level :: before) chosen entries ending := by
  obtain ⟨source, behind⟩ := level
  rcases hPull : pull source with ⟨_ | e | x, left⟩
  · simp only [turn, hPull] at h
    obtain ⟨rest, rfl, hBefore⟩ := h
    rw [← List.length_reverse]
    exact .goes (.dry hPull) hBefore
  · simp only [turn, hPull] at h
    obtain ⟨rfl, rfl⟩ := h
    rw [← List.length_reverse]
    exact .stays (.failed hPull) nofun
  · cases behind with
    | nil =>
      simp only [turn, hPull] at h
      obtain ⟨rest, rfl, hLeft⟩ := h
      rw [← List.length_reverse, List.reverse_cons]
      cases hLeft with
      | stays h hEnding => exact .stays (.leaf hPull h) hEnding
      | goes h hBefore =>
        rw [← List.append_assoc]
        exact .goes (.leaf hPull h) hBefore
    | cons maker behind =>
      simp only [turn, hPull] at h
      obtain ⟨rest, rfl, hInner⟩ := h
      rw [← List.length_reverse]
      cases hInner with
      | stays h hEnding =>
        rw [List.reverse_cons] at h
        exact .stays (.inside hPull h hEnding) hEnding
      | goes h hOuter =>
        rw [List.reverse_cons] at h
        cases hOuter with
        | stays hLeft hEnding =>
          have hBoth := Walks.beyond hPull h hLeft
          exact .stays hBoth hEnding
        | goes hLeft hBefore =>
          have hBoth := Walks.beyond hPull h hLeft
          rw [← List.append_assoc, ← List.append_assoc]
          exact .goes hBoth hBefore

theorem Turns.unwinds (h : Turns make pull levels chosen entries ending) :
    Unwinds make pull levels chosen entries ending := by
  induction h with
  | nil => exact .nil _
  | pause => exact .stays (.pause _ _ _) nofun
  | failed hTurn =>
    refine Continues.unwinds ?_
    rw [hTurn]
    exact ⟨rfl, rfl⟩
  | goes hTurn _ ih =>
    refine Continues.unwinds ?_
    rw [hTurn]
    exact ⟨_, rfl, ih⟩

/-- The loops within loops are turns of one stack. -/
theorem Unwinds.turns (h : Unwinds make pull levels chosen entries ending) :
    Turns make pull levels chosen entries ending := by
  obtain ⟨length, hLength⟩ : ∃ length, length = entries.length := ⟨_, rfl⟩
  induction length using Nat.strongRecOn generalizing levels chosen entries with
  | _ length ih =>
    cases levels with
    | nil =>
      cases h
      exact .nil chosen
    | cons level before =>
      rcases h.continues with ⟨rfl, rfl⟩ | h
      · exact .pause level before chosen
      have hDone : (turn make pull level before chosen).1 ≠ [] := turn_ne_nil
      rcases hTurn : turn make pull level before chosen with ⟨done, _ | ⟨levels, chosen'⟩⟩
      · rw [hTurn] at h
        obtain ⟨rfl, rfl⟩ := h
        exact .failed hTurn
      · rw [hTurn] at h hDone
        obtain ⟨rest, rfl, hRest⟩ := h
        have hShorter : rest.length < length := by
          have hSome : 0 < done.length := List.length_pos_iff.mpr hDone
          rw [List.length_append] at hLength
          omega
        exact .goes hTurn (ih _ hShorter hRest rfl)

theorem turns_nil (make : β → Option τ → σ) (pull : σ → Option (Except φ τ) × σ)
    (levels : List (Level β σ)) (chosen : List τ) : ∃ ending, Turns make pull levels chosen [] ending := by
  cases levels with
  | nil => exact ⟨_, .nil chosen⟩
  | cons level before => exact ⟨_, .pause level before chosen⟩

theorem Turns.comparable (h : Turns make pull levels chosen entries ending)
    (h' : Turns make pull levels chosen entries' ending') :
    ending = .paused ∧ entries <+: entries' ∨ ending' = .paused ∧ entries' <+: entries ∨
      entries = entries' ∧ ending = ending' := by
  induction h generalizing entries' with
  | nil =>
    cases h'
    exact .inr (.inr ⟨rfl, rfl⟩)
  | pause => exact .inl ⟨rfl, List.nil_prefix⟩
  | failed hTurn =>
    cases h' with
    | pause => exact .inr (.inl ⟨rfl, List.nil_prefix⟩)
    | failed hTurn' =>
      rw [hTurn, Prod.mk.injEq] at hTurn'
      exact .inr (.inr ⟨hTurn'.1, rfl⟩)
    | goes hTurn' =>
      rw [hTurn] at hTurn'
      cases hTurn'
  | goes hTurn _ ih =>
    cases h' with
    | pause => exact .inr (.inl ⟨rfl, List.nil_prefix⟩)
    | failed hTurn' =>
      rw [hTurn] at hTurn'
      cases hTurn'
    | goes hTurn' hRest' =>
      rw [hTurn] at hTurn'
      cases hTurn'
      simpa using ih hRest'

theorem Turns.goes_on (h : Turns make pull levels chosen entries .paused) :
    ∃ more ending, more ≠ [] ∧ Turns make pull levels chosen (entries ++ more) ending := by
  generalize hEnding : Ending.paused = ending at h
  induction h with
  | nil => cases hEnding
  | failed => cases hEnding
  | pause level before chosen =>
    have hDone : (turn make pull level before chosen).1 ≠ [] := turn_ne_nil
    rcases hTurn : turn make pull level before chosen with ⟨done, _ | ⟨levels, chosen'⟩⟩
    · rw [hTurn] at hDone
      exact ⟨done, .failed, hDone, .failed hTurn⟩
    · rw [hTurn] at hDone
      obtain ⟨ending, hRest⟩ := turns_nil make pull levels chosen'
      have hMore := Turns.goes hTurn hRest
      exact ⟨done ++ [], ending, by simpa using hDone, hMore⟩
  | goes hTurn _ ih =>
    obtain ⟨more, ending, hMore, hRest⟩ := ih hEnding
    refine ⟨more, ending, hMore, ?_⟩
    rw [List.append_assoc]
    exact .goes hTurn hRest

theorem turns_iff_walks {makers : List β} {source : σ} :
    Turns make pull [⟨source, makers⟩] [] entries ending ↔
      Walks make pull makers source [] entries ending := by
  constructor
  · intro h
    cases h.unwinds with
    | stays h => exact h
    | goes h hNil =>
      cases hNil
      rwa [List.append_nil]
  · intro h
    refine Unwinds.turns ?_
    by_cases hEnding : ending = .dry
    · subst hEnding
      have hGoes : Unwinds make pull [⟨source, makers⟩] [] (entries ++ []) .dry := .goes h (.nil _)
      rwa [List.append_nil] at hGoes
    · exact .stays h hEnding

end Turns

section Tuples

variable {make : β → Option τ → σ} {pull : σ → Option (Except φ τ) × σ}

inductive Drawn (pull : σ → Option (Except φ τ) × σ) : σ → τ → Prop
  | here {source left : σ} {x : τ} (h : pull source = (some (.ok x), left)) : Drawn pull source x
  | later {source left : σ} {x y : τ} (h : pull source = (some (.ok y), left)) (h' : Drawn pull left x) :
    Drawn pull source x

/-- A chain of one item for each level, each drawn from the source made from the one before it. -/
inductive Linked (make : β → Option τ → σ) (pull : σ → Option (Except φ τ) × σ) :
    List β → σ → List τ → Prop
  | last {source : σ} {x : τ} (h : Drawn pull source x) : Linked make pull [] source [x]
  | link {maker : β} {makers : List β} {source : σ} {x : τ} {chain : List τ} (h : Drawn pull source x)
    (h' : Linked make pull makers (make maker (some x)) chain) :
    Linked make pull (maker :: makers) source (x :: chain)

variable {makers : List β} {source left : σ} {x : τ} {chain chosen : List τ}
  {entries : List (Entry φ τ)} {ending : Ending}

theorem Linked.later {y : τ} (h : Linked make pull makers left chain)
    (hPull : pull source = (some (.ok y), left)) : Linked make pull makers source chain := by
  cases h with
  | last h => exact .last (.later hPull h)
  | link h h' => exact .link (.later hPull h) h'

theorem Linked.length_eq (h : Linked make pull makers source chain) :
    chain.length = makers.length + 1 := by
  induction h with
  | last => rfl
  | link _ _ ih => simp [ih]

theorem Linked.first (h : Linked make pull makers source chain) (hFirst : chain[0]? = some x) :
    Drawn pull source x := by
  cases h <;> cases hFirst <;> assumption

theorem Linked.next (h : Linked make pull makers source chain) {i : Nat} {maker : β} {y : τ}
    (hMaker : makers[i]? = some maker) (hHere : chain[i]? = some x) (hNext : chain[i + 1]? = some y) :
    Drawn pull (make maker (some x)) y := by
  induction h generalizing i with
  | last => cases hMaker
  | link h h' ih =>
    cases i with
    | zero =>
      cases hMaker
      cases hHere
      exact h'.first (by simpa using hNext)
    | succ i => exact ih (by simpa using hMaker) (by simpa using hHere) (by simpa using hNext)

theorem Walks.linked (h : Walks make pull makers source chosen entries ending)
    (hGives : .gives (.ok chain) ∈ entries) :
    ∃ rest, chain = chosen ++ rest ∧ Linked make pull makers source rest := by
  induction h with
  | pause => cases hGives
  | dry => simp at hGives
  | failed => simp at hGives
  | @leaf _ _ _ x _ _ hPull _ ih =>
    rcases List.mem_cons.mp hGives with hGives | hGives
    · cases hGives
    rcases List.mem_cons.mp hGives with hGives | hGives
    · cases hGives
      exact ⟨[x], rfl, .last (.here hPull)⟩
    · obtain ⟨rest, rfl, hRest⟩ := ih hGives
      exact ⟨rest, rfl, hRest.later hPull⟩
  | @inside _ _ _ _ _ x _ _ hPull _ _ ih =>
    obtain ⟨rest, rfl, hRest⟩ := ih (by simpa using hGives)
    exact ⟨x :: rest, by simp, .link (.here hPull) hRest⟩
  | @beyond _ _ _ _ _ x _ _ _ hPull _ _ ihInner ih =>
    rcases (show _ ∨ _ by simpa using hGives) with hGives | hGives
    · obtain ⟨rest, rfl, hRest⟩ := ihInner hGives
      exact ⟨x :: rest, by simp, .link (.here hPull) hRest⟩
    · obtain ⟨rest, rfl, hRest⟩ := ih hGives
      exact ⟨rest, rfl, hRest.later hPull⟩

end Tuples

section Questions

/-- Before a level is asked a source has been made for it. -/
def Renews (level : Nat) : List (Entry φ τ) → Prop
  | [] => True
  | .made l _ :: entries => l = level ∨ Renews level entries
  | .asked l _ :: entries => l ≠ level ∧ Renews level entries
  | .gives _ :: entries => Renews level entries

/-- A level that gave nothing is not asked again until a new source has been made for it. -/
def Rests : List (Entry φ τ) → Prop
  | [] => True
  | .made _ _ :: entries => Rests entries
  | .asked level answer :: entries => (answer = none → Renews level entries) ∧ Rests entries
  | .gives _ :: entries => Rests entries

variable {entries entries' : List (Entry φ τ)}

theorem Renews.append {level : Nat} (h : Renews level entries) (h' : Renews level entries') :
    Renews level (entries ++ entries') := by
  induction entries with
  | nil => exact h'
  | cons entry entries ih =>
    cases entry with
    | made l _ => exact h.imp_right ih
    | asked l _ => exact ⟨h.1, ih h.2⟩
    | gives _ => exact ih h

theorem Rests.append (h : Rests entries) (h' : Rests entries')
    (hAsked : ∀ level answer, .asked level answer ∈ entries → Renews level entries') :
    Rests (entries ++ entries') := by
  induction entries with
  | nil => exact h'
  | cons entry entries ih =>
    have hRest := fun level answer hMem => hAsked level answer (List.mem_cons_of_mem _ hMem)
    cases entry with
    | made _ _ => exact ih h hRest
    | asked level answer =>
      exact ⟨fun hNone => (h.1 hNone).append (hAsked level answer List.mem_cons_self), ih h.2 hRest⟩
    | gives _ => exact ih h hRest

variable {make : β → Option τ → σ} {pull : σ → Option (Except φ τ) × σ} {makers : List β} {source : σ}
  {chosen : List τ} {ending : Ending}

theorem Walks.le_of_asked (h : Walks make pull makers source chosen entries ending) {level : Nat}
    {answer : Option (Except φ τ)} (hAsked : .asked level answer ∈ entries) : chosen.length ≤ level := by
  induction h with
  | pause => cases hAsked
  | dry => simp_all
  | failed => simp_all
  | leaf _ _ ih =>
    rcases (show _ ∨ _ by simpa using hAsked) with ⟨rfl, -⟩ | hAsked
    · exact Nat.le_refl _
    · exact ih hAsked
  | inside _ _ _ ih =>
    rcases (show _ ∨ _ by simpa using hAsked) with ⟨rfl, -⟩ | hAsked
    · exact Nat.le_refl _
    · have hInner := ih hAsked
      rw [List.length_append] at hInner
      omega
  | beyond _ _ _ ihInner ih =>
    rcases (show _ ∨ _ ∨ _ by simpa using hAsked) with ⟨rfl, -⟩ | hAsked | hAsked
    · exact Nat.le_refl _
    · have hInner := ihInner hAsked
      rw [List.length_append] at hInner
      omega
    · exact ih hAsked

theorem Walks.renews (h : Walks make pull makers source chosen entries ending) {level : Nat}
    (hLevel : chosen.length < level) : Renews level entries := by
  induction h with
  | pause => trivial
  | dry => exact ⟨by omega, trivial⟩
  | failed => exact ⟨by omega, trivial⟩
  | leaf _ _ ih => exact ⟨by omega, ih hLevel⟩
  | inside _ _ _ ih =>
    refine ⟨by omega, Decidable.or_iff_not_imp_left.mpr fun hNot => ih ?_⟩
    simp
    omega
  | beyond _ _ _ ihInner ih =>
    refine ⟨by omega, Decidable.or_iff_not_imp_left.mpr fun hNot => (ihInner ?_).append (ih hLevel)⟩
    simp
    omega

theorem Walks.rests (h : Walks make pull makers source chosen entries ending) : Rests entries := by
  induction h with
  | pause => trivial
  | dry => exact ⟨fun _ => trivial, trivial⟩
  | failed => exact ⟨nofun, trivial⟩
  | leaf _ _ ih => exact ⟨nofun, ih⟩
  | inside _ _ _ ih => exact ⟨nofun, ih⟩
  | beyond _ hInner hLeft ihInner ih =>
    refine ⟨nofun, ihInner.append ih fun level answer hAsked => hLeft.renews ?_⟩
    have hInside := hInner.le_of_asked hAsked
    rw [List.length_append] at hInside
    simp at hInside
    omega

end Questions

namespace Traverses

variable {make : β → Option τ → σ} {pull : σ → Option (Except φ τ) × σ} {first : β} {makers : List β}
  {entries entries' : List (Entry φ τ)} {ending ending' : Ending}

theorem comparable (h : Traverses make pull first makers entries ending)
    (h' : Traverses make pull first makers entries' ending') :
    ending = .paused ∧ entries <+: entries' ∨ ending' = .paused ∧ entries' <+: entries ∨
      entries = entries' ∧ ending = ending' := by
  cases h with
  | pause => exact .inl ⟨rfl, List.nil_prefix⟩
  | walk h =>
    cases h' with
    | pause => exact .inr (.inl ⟨rfl, List.nil_prefix⟩)
    | walk h' =>
      simpa using (turns_iff_walks.mpr h).comparable (turns_iff_walks.mpr h')

theorem goes_on (h : Traverses make pull first makers entries .paused) :
    ∃ more ending, more ≠ [] ∧ Traverses make pull first makers (entries ++ more) ending := by
  cases h with
  | pause => exact ⟨[.made 0 none], .paused, List.cons_ne_nil _ _, .walk (.pause _ _ _)⟩
  | walk h =>
    obtain ⟨more, ending, hMore, hLater⟩ := (turns_iff_walks.mpr h).goes_on
    exact ⟨more, ending, hMore, .walk (turns_iff_walks.mp hLater)⟩

theorem linked (h : Traverses make pull first makers entries ending) {chain : List τ}
    (hGives : .gives (.ok chain) ∈ entries) : chain.length = makers.length + 1 ∧
      (∀ x, chain[0]? = some x → Drawn pull (make first none) x) ∧
      ∀ i maker x y, makers[i]? = some maker → chain[i]? = some x → chain[i + 1]? = some y →
        Drawn pull (make maker (some x)) y := by
  cases h with
  | pause => cases hGives
  | walk h =>
    obtain ⟨chain, rfl, hLinked⟩ := h.linked (by simpa using hGives)
    exact ⟨hLinked.length_eq, fun x => hLinked.first, fun i maker x y => hLinked.next⟩

theorem rests (h : Traverses make pull first makers entries ending) : Rests entries := by
  cases h with
  | pause => trivial
  | walk h => exact h.rests

end Traverses

end Lexigram.Enumeration.Chain
