import Lexigram.Proofs.Traversal

/-! # Calls and the traversal

Calls of an enumeration of chains give what the depth-first traversal gives, and no call does more of the
traversal than it takes to its result. The enumeration is run with makers and sources that note what they
are asked for, under the number of their level.
-/

namespace Lexigram.Enumeration

/-- Calls one after another, each with fuel enough for it: what they give, what they leave, and the log
before and behind them. -/
inductive Calls {ε α S : Type} (next : Nat → S → Traced ε (α × S)) :
    S → Array ε → List α → S → Array ε → Prop
  | here (state : S) (log : Array ε) : Calls next state log [] state log
  | call (fuel : Nat) {state state' left : S} {log log' log'' : Array ε} {found : α} {founds : List α}
    (h : (next fuel state).run log = .ok ((found, state'), log'))
    (h' : Calls next state' log' founds left log'') : Calls next state log (found :: founds) left log''

namespace Chain

variable {φ β σ τ : Type}

section Fuel

variable {ε : Type} {make : β → Option τ → Traced ε σ}
  {pull : σ → Traced ε (Option (Except φ τ) × σ)} {fuel fuel' : Nat} {log log' : Array ε}
  {r : Option (Except φ (List τ)) × Chain β σ τ}

theorem run_advance_of_le {levels : List (Level β σ)} {chosen : List τ}
    (h : (advance make pull fuel levels chosen).run log = .ok (r, log')) (hFuel : fuel ≤ fuel') :
    (advance make pull fuel' levels chosen).run log = .ok (r, log') := by
  induction fuel generalizing fuel' levels chosen log with
  | zero =>
    cases levels with
    | nil => cases fuel' <;> exact h
    | cons level before => cases h
  | succ fuel ih =>
    obtain ⟨fuel', rfl⟩ : ∃ n, fuel' = n + 1 := ⟨fuel' - 1, by omega⟩
    have hLess : fuel ≤ fuel' := Nat.le_of_succ_le_succ hFuel
    cases levels with
    | nil => exact h
    | cons level before =>
      obtain ⟨source, behind⟩ := level
      unfold advance at h ⊢
      obtain ⟨⟨pulled, left⟩, mid, hPull, h⟩ := Traced.run_bind_eq_ok_iff.mp h
      rw [Traced.run_bind_of_ok hPull]
      rcases pulled with _ | e | choice
      · exact ih h hLess
      · exact h
      · cases behind with
        | nil => exact h
        | cons maker behind =>
          obtain ⟨inner, mid', hMake, h⟩ := Traced.run_bind_eq_ok_iff.mp h
          exact (Traced.run_bind_of_ok hMake).trans (ih h hLess)

theorem run_next_of_le {chain : Chain β σ τ} (h : (chain.next make pull fuel).run log = .ok (r, log'))
    (hFuel : fuel ≤ fuel') : (chain.next make pull fuel').run log = .ok (r, log') := by
  cases chain with
  | fresh first behind =>
    obtain ⟨source, mid, hMake, h⟩ := Traced.run_bind_eq_ok_iff.mp h
    exact (Traced.run_bind_of_ok hMake).trans (run_advance_of_le h hFuel)
  | moving levels chosen => exact run_advance_of_le h hFuel

end Fuel

variable (make : β → Option τ → σ) (pull : σ → Option (Except φ τ) × σ)

def noteMake (maker : β × Nat) (choice : Option τ) : Traced (Entry φ τ) (σ × Nat) := do
  Traced.log (.made maker.2 choice)
  pure (make maker.1 choice, maker.2)

def notePull (source : σ × Nat) : Traced (Entry φ τ) (Option (Except φ τ) × (σ × Nat)) := do
  Traced.log (.asked source.2 (pull source.1).1)
  pure ((pull source.1).1, (pull source.1).2, source.2)

def numbered : List (Level β σ) → List (Level (β × Nat) (σ × Nat))
  | [] => []
  | level :: before =>
    ⟨(level.source, before.length), level.behind.zipIdx (before.length + 1)⟩ :: numbered before

/-- Turns up to the next result, with all that is done in them, and the levels in use and the items chosen
behind them. -/
inductive Seeks : List (Level β σ) → List τ → List (Entry φ τ) → Option (Except φ (List τ)) →
    List (Level β σ) → List τ → Prop
  | dry (chosen : List τ) : Seeks [] chosen [] none [] []
  | found {level : Level β σ} {before : List (Level β σ)} {chosen : List τ} {done : List (Entry φ τ)}
    {after : Option (List (Level β σ) × List τ)} {result : Except φ (List τ)}
    (hTurn : turn make pull level before chosen = (done, after)) (hResult : results done = [result]) :
    Seeks (level :: before) chosen done (some result) (after.getD ([], [])).1 (after.getD ([], [])).2
  | skips {level : Level β σ} {before levels left : List (Level β σ)} {chosen chosen' chosenLeft : List τ}
    {done entries : List (Entry φ τ)} {found : Option (Except φ (List τ))}
    (hTurn : turn make pull level before chosen = (done, some (levels, chosen')))
    (hNone : results done = []) (h : Seeks levels chosen' entries found left chosenLeft) :
    Seeks (level :: before) chosen (done ++ entries) found left chosenLeft

variable {make pull} {level : Level β σ} {levels before left : List (Level β σ)}
  {chosen chosen' chosenLeft : List τ} {entries done : List (Entry φ τ)}
  {after : Option (List (Level β σ) × List τ)} {found : Option (Except φ (List τ))}
  {result : Except φ (List τ)} {makers : List β}

theorem results_append (entries entries' : List (Entry φ τ)) :
    results (entries ++ entries') = results entries ++ results entries' :=
  List.filterMap_append

theorem work_append (entries entries' : List (Entry φ τ)) :
    work (entries ++ entries') = work entries ++ work entries' :=
  List.filter_append _ _

section Machine

theorem turn_cases (h : turn make pull level before chosen = (done, after)) :
    (results done = [] ∧ ∃ levels chosen', after = some (levels, chosen')) ∨
      ∃ result, results done = [result] ∧ done.getLast? = some (.gives result) := by
  unfold turn at h
  rcases hPull : pull level.source with ⟨_ | e | x, left⟩
  · rw [hPull] at h
    cases h
    exact .inl ⟨rfl, _, _, rfl⟩
  · rw [hPull] at h
    cases h
    exact .inr ⟨_, rfl, rfl⟩
  · rw [hPull] at h
    cases hBehind : level.behind with
    | nil =>
      rw [hBehind] at h
      cases h
      exact .inr ⟨_, rfl, rfl⟩
    | cons maker behind =>
      rw [hBehind] at h
      cases h
      exact .inl ⟨rfl, _, _, rfl⟩

theorem inStep_turn (hStep : InStep makers (level :: before) chosen)
    (h : turn make pull level before chosen = (done, some (levels, chosen'))) :
    InStep makers levels chosen' := by
  obtain ⟨source, behind⟩ := level
  unfold turn at h
  rcases hPull : pull source with ⟨_ | e | x, left⟩
  · rw [hPull] at h
    cases h
    exact hStep.2.2.2
  · rw [hPull] at h
    cases h
  · rw [hPull] at h
    cases behind with
    | nil =>
      cases h
      exact hStep.moved
    | cons maker behind =>
      cases h
      exact hStep.moved.forward

theorem run_notePull (source : σ) (number : Nat) (log : Array (Entry φ τ)) :
    (notePull pull (source, number)).run log = .ok (((pull source).1, (pull source).2, number),
      log.push (.asked number (pull source).1)) :=
  rfl

/-- One round of the machine is one turn. -/
theorem run_advance_turn (hStep : InStep makers (level :: before) chosen) (fuel : Nat)
    (log : Array (Entry φ τ)) (hTurn : turn make pull level before chosen = (done, after)) :
    (advance (noteMake make) (notePull pull) (fuel + 1) (numbered (level :: before)) chosen).run log =
      match results done with
      | [] => (advance (noteMake make) (notePull pull) fuel (numbered (after.getD ([], [])).1)
          (after.getD ([], [])).2).run (log ++ (work done).toArray)
      | result :: _ => .ok ((some result, .moving (numbered (after.getD ([], [])).1)
          (after.getD ([], [])).2), log ++ (work done).toArray) := by
  obtain ⟨source, behind⟩ := level
  have hNumber : chosen.length = before.length := hStep.2.2.1
  unfold turn at hTurn
  rw [numbered, advance, Traced.run_bind_of_ok (run_notePull source before.length log)]
  rcases hPull : pull source with ⟨_ | e | x, left⟩
  · rw [hPull] at hTurn
    cases hTurn
    rw [hNumber]
    rfl
  · rw [hPull] at hTurn
    cases hTurn
    rw [hNumber]
    rfl
  · rw [hPull] at hTurn
    cases behind with
    | nil =>
      cases hTurn
      rw [hNumber]
      rfl
    | cons maker behind =>
      cases hTurn
      rw [hNumber]
      rfl

theorem exists_seeks {fuel : Nat} {log log' : Array (Entry φ τ)} {state : Chain (β × Nat) (σ × Nat) τ}
    (hStep : InStep makers levels chosen)
    (h : (advance (noteMake make) (notePull pull) fuel (numbered levels) chosen).run log =
      .ok ((found, state), log')) :
    ∃ entries left chosenLeft, Seeks make pull levels chosen entries found left chosenLeft ∧
      state = .moving (numbered left) chosenLeft ∧ log' = log ++ (work entries).toArray := by
  induction fuel generalizing levels chosen log with
  | zero =>
    cases levels with
    | nil =>
      cases h
      exact ⟨[], [], [], .dry chosen, rfl, Array.append_empty.symm⟩
    | cons level before => cases h
  | succ fuel ih =>
    cases levels with
    | nil =>
      cases h
      exact ⟨[], [], [], .dry chosen, rfl, Array.append_empty.symm⟩
    | cons level before =>
      rcases hTurn : turn make pull level before chosen with ⟨done, after⟩
      rw [run_advance_turn hStep fuel log hTurn] at h
      rcases turn_cases hTurn with ⟨hNone, levels', chosen', rfl⟩ | ⟨result, hResult, -⟩
      · rw [hNone] at h
        obtain ⟨entries, left, chosenLeft, hSeeks, hState, rfl⟩ := ih (inStep_turn hStep hTurn) h
        refine ⟨done ++ entries, left, chosenLeft, .skips hTurn hNone hSeeks, hState, ?_⟩
        rw [work_append, ← List.append_toArray, Array.append_assoc]
      · rw [hResult] at h
        cases h
        exact ⟨done, _, _, .found hTurn hResult, rfl, rfl⟩

theorem Seeks.inStep (h : Seeks make pull levels chosen entries found left chosenLeft)
    (hStep : InStep makers levels chosen) : InStep makers left chosenLeft := by
  induction h with
  | dry => rfl
  | @found _ _ _ _ after _ hTurn _ =>
    cases after with
    | none => rfl
    | some next => exact inStep_turn hStep hTurn
  | skips hTurn _ _ ih => exact ih (inStep_turn hStep hTurn)

theorem Seeks.exists_fuel (h : Seeks make pull levels chosen entries found left chosenLeft)
    (hStep : InStep makers levels chosen) : ∃ fuel, ∀ log : Array (Entry φ τ),
      (advance (noteMake make) (notePull pull) fuel (numbered levels) chosen).run log =
        .ok ((found, .moving (numbered left) chosenLeft), log ++ (work entries).toArray) := by
  induction h with
  | dry => exact ⟨0, fun log => by rw [work, List.filter_nil, Array.append_empty]; rfl⟩
  | found hTurn hResult =>
    refine ⟨1, fun log => ?_⟩
    rw [run_advance_turn hStep 0 log hTurn, hResult]
  | skips hTurn hNone _ ih =>
    obtain ⟨fuel, hRun⟩ := ih (inStep_turn hStep hTurn)
    refine ⟨fuel + 1, fun log => ?_⟩
    rw [run_advance_turn hStep fuel log hTurn, hNone, work_append, ← List.append_toArray,
      ← Array.append_assoc]
    exact hRun _

end Machine

section Results

variable {rest : List (Entry φ τ)} {ending : Ending}

theorem Seeks.dry_turns (h : Seeks make pull levels chosen entries none left chosenLeft) :
    left = [] ∧ results entries = [] ∧ Turns make pull levels chosen entries .dry := by
  generalize hFound : (none : Option (Except φ (List τ))) = found at h
  induction h with
  | dry chosen => exact ⟨rfl, rfl, .nil chosen⟩
  | found => cases hFound
  | skips hTurn hNone _ ih =>
    obtain ⟨hLeft, hResults, hTurns⟩ := ih hFound
    exact ⟨hLeft, by rw [results_append, hNone, hResults, List.nil_append], .goes hTurn hTurns⟩

theorem Seeks.results_eq (h : Seeks make pull levels chosen entries (some result) left chosenLeft) :
    results entries = [result] ∧ entries.getLast? = some (.gives result) := by
  generalize hFound : some result = found at h
  induction h with
  | dry => cases hFound
  | found hTurn hResult =>
    cases hFound
    refine ⟨hResult, ?_⟩
    rcases turn_cases hTurn with ⟨hNone, -⟩ | ⟨other, hOther, hLast⟩
    · rw [hResult] at hNone
      cases hNone
    · rw [hResult] at hOther
      cases hOther
      exact hLast
  | skips _ hNone _ ih =>
    obtain ⟨hResults, hLast⟩ := ih hFound
    refine ⟨by rw [results_append, hNone, hResults, List.nil_append], ?_⟩
    rw [List.getLast?_append, hLast]
    rfl

theorem Seeks.found_turns (h : Seeks make pull levels chosen entries (some result) left chosenLeft)
    (hRest : Turns make pull left chosenLeft rest ending) :
    ∃ ending', (ending' = .paused ↔ ending = .paused) ∧
      Turns make pull levels chosen (entries ++ rest) ending' := by
  generalize hFound : some result = found at h
  induction h with
  | dry => cases hFound
  | @found _ _ _ done after _ hTurn _ =>
    cases after with
    | none =>
      cases hRest
      rw [List.append_nil]
      exact ⟨.failed, by simp, .failed hTurn⟩
    | some next => exact ⟨ending, Iff.rfl, .goes hTurn hRest⟩
  | skips hTurn _ _ ih =>
    obtain ⟨ending', hEnding, hTurns⟩ := ih hRest hFound
    rw [List.append_assoc]
    exact ⟨ending', hEnding, .goes hTurn hTurns⟩

theorem Turns.seeks (h : Turns make pull levels chosen entries ending) :
    results entries = [] ∧ (ending = .paused ∨ ∃ left chosenLeft,
        Seeks make pull levels chosen entries none left chosenLeft) ∨
      ∃ done rest result left chosenLeft ending', entries = done ++ rest ∧
        Seeks make pull levels chosen done (some result) left chosenLeft ∧
        Turns make pull left chosenLeft rest ending' ∧ (ending = .paused ↔ ending' = .paused) := by
  induction h with
  | nil chosen => exact .inl ⟨rfl, .inr ⟨_, _, .dry chosen⟩⟩
  | pause => exact .inl ⟨rfl, .inl rfl⟩
  | @failed _ _ _ done hTurn =>
    right
    rcases turn_cases hTurn with ⟨-, levels', chosen', hSome⟩ | ⟨result, hResult, -⟩
    · cases hSome
    · exact ⟨done, [], result, _, _, .dry, (List.append_nil _).symm, .found hTurn hResult, .nil _, by simp⟩
  | @goes _ _ _ _ _ done rest ending hTurn hRest ih =>
    rcases turn_cases hTurn with ⟨hNone, -⟩ | ⟨result, hResult, -⟩
    · rcases ih with ⟨hResults, hEnd⟩ |
          ⟨done', rest', result, left, chosenLeft, ending', rfl, hSeeks, hLater⟩
      · refine .inl ⟨by rw [results_append, hNone, hResults, List.nil_append], hEnd.imp_right ?_⟩
        rintro ⟨left, chosenLeft, hSeeks⟩
        exact ⟨left, chosenLeft, .skips hTurn hNone hSeeks⟩
      · exact .inr ⟨done ++ done', rest', result, left, chosenLeft, ending',
          (List.append_assoc _ _ _).symm, .skips hTurn hNone hSeeks, hLater⟩
    · exact .inr ⟨done, rest, result, _, _, ending, rfl, .found hTurn hResult, hRest, Iff.rfl⟩

end Results

/-- What calls give that do so much of a traversal and no more: its results, if it does nothing behind the
last of them, or its results and then nothing any more, if it ends. -/
inductive Delivers (entries : List (Entry φ τ)) (ending : Ending) :
    List (Option (Except φ (List τ))) → Prop
  | results (h : entries = [] ∨ ∃ result, entries.getLast? = some (.gives result)) :
    Delivers entries ending ((results entries).map some)
  | ended (h : ending ≠ .paused) (n : Nat) :
    Delivers entries ending ((results entries).map some ++ List.replicate (n + 1) none)

section Delivers

variable {rest : List (Entry φ τ)} {ending ending' : Ending}
  {founds : List (Option (Except φ (List τ)))}

theorem results_ne_nil (h : entries.getLast? = some (.gives result)) : results entries ≠ [] := by
  obtain ⟨others, rfl⟩ := List.getLast?_eq_some_iff.mp h
  rw [results_append]
  exact List.append_ne_nil_of_right_ne_nil _ (List.cons_ne_nil _ _)

theorem Delivers.eq_nil (h : Delivers entries ending []) : entries = [] := by
  generalize hFounds : ([] : List (Option (Except φ (List τ)))) = founds at h
  cases h with
  | results h =>
    rcases h with h | ⟨result, hLast⟩
    · exact h
    · exact absurd (List.map_eq_nil_iff.mp hFounds.symm) (results_ne_nil hLast)
  | ended => simp at hFounds

theorem delivers_none_iff (hResults : results entries = []) :
    Delivers entries ending (found :: founds) ↔
      ending ≠ .paused ∧ found = none ∧ ∃ n, founds = List.replicate n none := by
  constructor
  · intro h
    generalize hFounds : found :: founds = all at h
    cases h with
    | results => simp [hResults] at hFounds
    | ended hEnding n =>
      rw [hResults, List.map_nil, List.nil_append, List.replicate_succ, List.cons.injEq] at hFounds
      exact ⟨hEnding, hFounds.1, n, hFounds.2⟩
  · rintro ⟨hEnding, rfl, n, rfl⟩
    have hAll : Delivers entries ending ((results entries).map some ++ List.replicate (n + 1) none) :=
      .ended hEnding n
    rwa [hResults, List.map_nil, List.nil_append, List.replicate_succ] at hAll

theorem delivers_nil_dry_iff :
    Delivers [] (.dry : Ending) founds ↔ ∃ n, founds = List.replicate n none := by
  constructor
  · rintro (_ | ⟨-, n⟩)
    · exact ⟨0, rfl⟩
    · exact ⟨n + 1, rfl⟩
  · rintro ⟨n, rfl⟩
    cases n with
    | zero => exact .results (.inl rfl)
    | succ n => exact (delivers_none_iff rfl).mpr ⟨nofun, rfl, n, rfl⟩

theorem delivers_some_iff (hResults : results entries = [result])
    (hLast : entries.getLast? = some (.gives result)) (hEnding : ending = .paused ↔ ending' = .paused) :
    Delivers (entries ++ rest) ending (found :: founds) ↔
      found = some result ∧ Delivers rest ending' founds := by
  have hAll : (results (entries ++ rest)).map some = some result :: (results rest).map some := by
    rw [results_append, hResults]
    rfl
  have hEntries : entries ≠ [] := by
    rintro rfl
    cases hLast
  constructor
  · intro h
    generalize hFounds : found :: founds = all at h
    cases h with
    | results h =>
      rw [hAll, List.cons.injEq] at hFounds
      obtain ⟨rfl, rfl⟩ := hFounds
      refine ⟨rfl, .results ?_⟩
      rcases h with h | ⟨other, h⟩
      · exact absurd (List.append_eq_nil_iff.mp h).1 hEntries
      · rw [List.getLast?_append] at h
        cases hRest : rest.getLast? with
        | none => exact .inl (List.getLast?_eq_none_iff.mp hRest)
        | some last =>
          rw [hRest] at h
          exact .inr ⟨other, h⟩
    | ended h n =>
      rw [hAll, List.cons_append, List.cons.injEq] at hFounds
      obtain ⟨rfl, rfl⟩ := hFounds
      exact ⟨rfl, .ended (fun hPaused => h (hEnding.mpr hPaused)) n⟩
  · rintro ⟨rfl, h⟩
    cases h with
    | results h =>
      rw [← hAll]
      refine .results (.inr ?_)
      rcases h with rfl | ⟨other, h⟩
      · exact ⟨result, by rwa [List.append_nil]⟩
      · exact ⟨other, by rw [List.getLast?_append, h]; rfl⟩
    | ended h n =>
      rw [← List.cons_append, ← hAll]
      exact .ended (fun hPaused => h (hEnding.mp hPaused)) n

end Delivers

section Calls

variable {first : β} {founds : List (Option (Except φ (List τ)))} {log log' : Array (Entry φ τ)}

/-- A call more, told by turns: they go up to its result, and on from there for the other calls. -/
theorem delivers_cons_iff {log log' : List (Entry φ τ)} :
    (∃ entries ending, Turns make pull levels chosen entries ending ∧
        Delivers entries ending (found :: founds) ∧ log' = log ++ work entries) ↔
      ∃ done left chosenLeft, Seeks make pull levels chosen done found left chosenLeft ∧
        ∃ entries ending, Turns make pull left chosenLeft entries ending ∧ Delivers entries ending founds ∧
          log' = log ++ work done ++ work entries := by
  constructor
  · rintro ⟨entries, ending, hTurns, hDelivers, rfl⟩
    rcases hTurns.seeks with ⟨hResults, hEnd⟩ |
        ⟨done, rest, result, left, chosenLeft, ending', rfl, hSeeks, hRest, hEnding⟩
    · obtain ⟨hEnding, rfl, hNothing⟩ := (delivers_none_iff hResults).mp hDelivers
      obtain ⟨left, chosenLeft, hSeeks⟩ := hEnd.resolve_left hEnding
      obtain ⟨rfl, -, -⟩ := hSeeks.dry_turns
      exact ⟨entries, [], chosenLeft, hSeeks, [], .dry, .nil _, delivers_nil_dry_iff.mpr hNothing,
        (List.append_nil _).symm⟩
    · obtain ⟨hResults, hLast⟩ := hSeeks.results_eq
      obtain ⟨rfl, hLater⟩ := (delivers_some_iff hResults hLast hEnding).mp hDelivers
      refine ⟨done, left, chosenLeft, hSeeks, rest, ending', hRest, hLater, ?_⟩
      rw [work_append, List.append_assoc]
  · rintro ⟨done, left, chosenLeft, hSeeks, rest, ending, hRest, hDelivers, rfl⟩
    cases found with
    | none =>
      obtain ⟨rfl, hResults, hTurns⟩ := hSeeks.dry_turns
      cases hRest
      refine ⟨done, .dry, hTurns, ?_, List.append_nil _⟩
      exact (delivers_none_iff hResults).mpr ⟨nofun, rfl, delivers_nil_dry_iff.mp hDelivers⟩
    | some result =>
      obtain ⟨hResults, hLast⟩ := hSeeks.results_eq
      obtain ⟨ending', hEnding, hTurns⟩ := hSeeks.found_turns hRest
      refine ⟨done ++ rest, ending', hTurns, ?_, ?_⟩
      · exact (delivers_some_iff hResults hLast hEnding).mpr ⟨rfl, hDelivers⟩
      · rw [work_append, List.append_assoc]

/-- Calls do as many turns as it takes to what they give. -/
theorem calls_moving_iff (hStep : InStep makers levels chosen) :
    (∃ state, Calls (next (noteMake make) (notePull pull)) (.moving (numbered levels) chosen) log founds
        state log') ↔
      ∃ entries ending, Turns make pull levels chosen entries ending ∧ Delivers entries ending founds ∧
        log'.toList = log.toList ++ work entries := by
  induction founds generalizing levels chosen log with
  | nil =>
    constructor
    · rintro ⟨state, hCalls⟩
      cases hCalls
      obtain ⟨ending, hStart⟩ := turns_nil make pull levels chosen
      exact ⟨[], ending, hStart, .results (.inl rfl), (List.append_nil _).symm⟩
    · rintro ⟨entries, ending, -, hDelivers, hLog⟩
      rw [hDelivers.eq_nil, work, List.filter_nil, List.append_nil] at hLog
      rw [Array.toList_inj.mp hLog]
      exact ⟨_, .here _ _⟩
  | cons found founds ih =>
    rw [delivers_cons_iff]
    constructor
    · rintro ⟨state, hCalls⟩
      cases hCalls with
      | call fuel hCall hOthers =>
        obtain ⟨done, left, chosenLeft, hSeeks, rfl, rfl⟩ := exists_seeks hStep hCall
        obtain ⟨rest, ending, hRest, hDelivers, hLog⟩ := (ih (hSeeks.inStep hStep)).mp ⟨state, hOthers⟩
        rw [Array.toList_append] at hLog
        exact ⟨done, left, chosenLeft, hSeeks, rest, ending, hRest, hDelivers, hLog⟩
    · rintro ⟨done, left, chosenLeft, hSeeks, rest, ending, hRest, hDelivers, hLog⟩
      obtain ⟨fuel, hRun⟩ := hSeeks.exists_fuel hStep
      have hBehind : log'.toList = (log ++ (work done).toArray).toList ++ work rest := by
        rw [hLog, Array.toList_append]
      obtain ⟨state, hOthers⟩ := (ih (hSeeks.inStep hStep)).mpr ⟨rest, ending, hRest, hDelivers, hBehind⟩
      exact ⟨state, .call fuel (hRun log) hOthers⟩

theorem run_next_fresh (fuel : Nat) (log : Array (Entry φ τ)) :
    (next (noteMake make) (notePull pull) fuel (.fresh (first, 0) (makers.zipIdx 1))).run log =
      (next (noteMake make) (notePull pull) fuel (.moving (numbered [⟨make first none, makers⟩]) [])).run
        (log.push (.made 0 none)) :=
  rfl

theorem calls_fresh_iff {state : Chain (β × Nat) (σ × Nat) τ} :
    Calls (next (noteMake make) (notePull pull)) (.fresh (first, 0) (makers.zipIdx 1)) log
        (found :: founds) state log' ↔
      Calls (next (noteMake make) (notePull pull)) (.moving (numbered [⟨make first none, makers⟩]) [])
        (log.push (.made 0 none)) (found :: founds) state log' := by
  constructor
  · intro h
    cases h with
    | call fuel hCall hOthers => exact .call fuel ((run_next_fresh _ _).symm.trans hCall) hOthers
  · intro h
    cases h with
    | call fuel hCall hOthers => exact .call fuel ((run_next_fresh _ _).trans hCall) hOthers

theorem delivers_made_iff {choice : Option τ} {ending : Ending} :
    Delivers (.made 0 choice :: entries) ending (found :: founds) ↔
      Delivers entries ending (found :: founds) := by
  constructor
  · intro h
    generalize found :: founds = all at h ⊢
    cases h with
    | results h =>
      obtain ⟨result, h⟩ := h.resolve_left (List.cons_ne_nil _ _)
      cases entries with
      | nil => cases h
      | cons entry entries =>
        rw [List.getLast?_cons_cons] at h
        exact .results (.inr ⟨result, h⟩)
    | ended h n => exact .ended h n
  · intro h
    generalize hFounds : found :: founds = all at h ⊢
    cases h with
    | results h =>
      rcases h with rfl | ⟨result, h⟩
      · cases hFounds
      · exact .results (.inr ⟨result, by rw [List.getLast?_cons, h]; rfl⟩)
    | ended h n => exact .ended h n

theorem calls_iff : (∃ left, Calls (next (noteMake make) (notePull pull))
      (.fresh (first, 0) (makers.zipIdx 1)) #[] founds left log) ↔
    ∃ entries ending, Traverses make pull first makers entries ending ∧ Delivers entries ending founds ∧
      log.toList = work entries := by
  cases founds with
  | nil =>
    constructor
    · rintro ⟨left, hCalls⟩
      cases hCalls
      exact ⟨[], .paused, .pause, .results (.inl rfl), rfl⟩
    · rintro ⟨entries, ending, -, hDelivers, hLog⟩
      rw [hDelivers.eq_nil] at hLog
      rw [Array.toList_eq_nil_iff.mp hLog]
      exact ⟨_, .here _ _⟩
  | cons found founds =>
    simp only [calls_fresh_iff, calls_moving_iff (inStep_first _), turns_iff_walks, Array.toList_push]
    constructor
    · rintro ⟨entries, ending, hWalks, hDelivers, hLog⟩
      exact ⟨_, ending, .walk hWalks, delivers_made_iff.mpr hDelivers, hLog⟩
    · rintro ⟨entries, ending, hTraverses, hDelivers, hLog⟩
      cases hTraverses with
      | pause => exact absurd rfl ((delivers_none_iff rfl).mp hDelivers).1
      | walk hWalks => exact ⟨_, ending, hWalks, delivers_made_iff.mp hDelivers, hLog⟩

end Calls

theorem fits_of_calls {ε : Type} {make : β → Option τ → Traced ε σ}
    {pull : σ → Traced ε (Option (Except φ τ) × σ)} {chain left : Chain β σ τ} {log log' : Array ε}
    {founds : List (Option (Except φ (List τ)))} (h : Calls (next make pull) chain log founds left log')
    (hFits : chain.Fits makers) : left.Fits makers := by
  induction h with
  | here => exact hFits
  | call _ hCall _ ih => exact ih (fits_of_next hFits hCall)

/-- The enumeration of chains, as it is called, is the lazy depth-first traversal. -/
structure IsTraversal (make : β → Option τ → σ) (pull : σ → Option (Except φ τ) × σ) (first : β)
    (makers : List β) : Prop where
  calls_iff : ∀ founds log, (∃ left, Calls (next (noteMake make) (notePull pull))
      (.fresh (first, 0) (makers.zipIdx 1)) #[] founds left log) ↔
    ∃ entries ending, Traverses make pull first makers entries ending ∧ Delivers entries ending founds ∧
      log.toList = work entries
  more_fuel : ∀ (chain : Chain (β × Nat) (σ × Nat) τ) log fuel fuel' r, fuel ≤ fuel' →
    (chain.next (noteMake make) (notePull pull) fuel).run log = .ok r →
      (chain.next (noteMake make) (notePull pull) fuel').run log = .ok r
  /-- There is one traversal, of which a part that has not ended is a beginning. -/
  comparable : ∀ entries ending entries' ending', Traverses make pull first makers entries ending →
    Traverses make pull first makers entries' ending' →
      ending = .paused ∧ entries <+: entries' ∨ ending' = .paused ∧ entries' <+: entries ∨
        entries = entries' ∧ ending = ending'
  goes_on : ∀ entries, Traverses make pull first makers entries .paused →
    ∃ more ending, more ≠ [] ∧ Traverses make pull first makers (entries ++ more) ending
  linked : ∀ entries ending chain, Traverses make pull first makers entries ending →
    .gives (.ok chain) ∈ entries → chain.length = makers.length + 1 ∧
      (∀ x, chain[0]? = some x → Drawn pull (make first none) x) ∧
      ∀ i maker x y, makers[i]? = some maker → chain[i]? = some x → chain[i + 1]? = some y →
        Drawn pull (make maker (some x)) y
  rests : ∀ entries ending, Traverses make pull first makers entries ending → Rests entries
  starts : (Chain.fresh (first, 0) (makers.zipIdx 1) : Chain (β × Nat) (σ × Nat) τ).odometer
    (makers.zipIdx 1) = .ofMakers (first, 0) (makers.zipIdx 1)
  /-- The odometer keeps its stacks in step, finds every maker and does what the enumeration does. -/
  in_step : ∀ founds left log, Calls (next (noteMake make) (notePull pull))
      (.fresh (first, 0) (makers.zipIdx 1)) #[] founds left log → left.Fits (makers.zipIdx 1) ∧
    ∀ fuel, ((left.odometer (makers.zipIdx 1)).next (noteMake make) (notePull pull) fuel).run =
      (fun r => some (r.1, r.2.odometer (makers.zipIdx 1))) <$>
        left.next (noteMake make) (notePull pull) fuel

theorem traverses_depth_first (make : β → Option τ → σ) (pull : σ → Option (Except φ τ) × σ) (first : β)
    (makers : List β) : IsTraversal make pull first makers where
  calls_iff founds log := calls_iff
  more_fuel chain log fuel fuel' r hFuel hRun := run_next_of_le hRun hFuel
  comparable entries ending entries' ending' h h' := h.comparable h'
  goes_on entries h := h.goes_on
  linked entries ending chain h hGives := h.linked hGives
  rests entries ending h := h.rests
  starts := rfl
  in_step founds left log hCalls := by
    have hFits := fits_of_calls hCalls (rfl : (Chain.fresh (first, 0) (makers.zipIdx 1)).Fits _)
    exact ⟨hFits, fun fuel => run_next_odometer fuel hFits⟩

def Forks.first : Option Nat → List (Except Bool Nat) :=
  fun _ => [.ok 1, .ok 2, .ok 3]

def Forks.second : Option Nat → List (Except Bool Nat)
  | some 2 => [.ok 5]
  | some 3 => [.error true, .ok 6]
  | _ => []

theorem traverses_depth_first_forks : ∃ entries ending,
    Traverses (fun maker => maker) (fun list => (list.head?, list.tail)) Forks.first [Forks.second]
      entries ending ∧
    Delivers entries ending [some (.ok [2, 5]), some (.error true), none] ∧
      [.made 0 none, .asked 0 (some (.ok 1)), .made 1 (some 1), .asked 1 none,
        .asked 0 (some (.ok 2)), .made 1 (some 2), .asked 1 (some (.ok 5)), .asked 1 none,
        .asked 0 (some (.ok 3)), .made 1 (some 3), .asked 1 (some (.error true))] = work entries := by
  refine ((traverses_depth_first _ _ _ _).calls_iff [some (.ok [2, 5]), some (.error true), none]
    [.made 0 none, .asked 0 (some (.ok 1)), .made 1 (some 1), .asked 1 none,
      .asked 0 (some (.ok 2)), .made 1 (some 2), .asked 1 (some (.ok 5)), .asked 1 none,
      .asked 0 (some (.ok 3)), .made 1 (some 3), .asked 1 (some (.error true))].toArray).mp ⟨finished, ?_⟩
  exact .call 5 rfl (.call 5 rfl (.call 0 rfl (.here _ _)))

end Chain

end Lexigram.Enumeration
