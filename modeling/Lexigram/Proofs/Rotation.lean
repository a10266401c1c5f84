import Mathlib.Data.Nat.Count
import Lexigram.Enumeration.Merge

/-! # Taking turns

Sources that take turns are asked in rounds: at time `t` it is the turn of the source with number `t` modulo
the number of sources, for the round `t` divided by it, as long as the source has given an item in
every round before. The queue of sources and the carousel of fixed places both go through these times in
order, so they give the same items and ask the same sources, and the carousel goes round at most once
for each item.
-/

namespace Lexigram.Enumeration

variable {σ α : Type}

def watch (pull : σ → Option α × σ) (source : σ × Nat) :
    StateM (List (Nat × Option α)) (Option α × (σ × Nat)) := do
  modify (· ++ [(source.2, (pull source.1).1)])
  pure ((pull source.1).1, ((pull source.1).2, source.2))

theorem run_watch (pull : σ → Option α × σ) (source : σ × Nat) (log : List (Nat × Option α)) :
    (watch pull source).run log = (((pull source.1).1, ((pull source.1).2, source.2)),
      log ++ [(source.2, (pull source.1).1)]) :=
  rfl

section Calls

variable {S : Type} (next : S → StateM (List (Nat × Option α)) (Option α × S)) (start : S)

def leftAfter : Nat → S
  | 0 => start
  | n + 1 => (Id.run ((next (leftAfter n)).run [])).1.2

def output (n : Nat) : Option α :=
  (Id.run ((next (leftAfter next start n)).run [])).1.1

def asked (n : Nat) : List (Nat × Option α) :=
  (Id.run ((next (leftAfter next start n)).run [])).2

variable {next start}

theorem call_eq {n : Nat} {found : Option α} {left : S} {notes : List (Nat × Option α)}
    (h : (next (leftAfter next start n)).run [] = ((found, left), notes)) :
    output next start n = found ∧ leftAfter next start (n + 1) = left ∧
      asked next start n = notes := by
  rw [output, leftAfter, asked, h]
  exact ⟨rfl, rfl, rfl⟩

end Calls

section Sources

variable (pull : σ → Option α × σ)

def behind? (source : σ) : Option σ :=
  match pull source with
  | (some _, left) => some left
  | (none, _) => none

/-- What is left of a source behind its first items, if it gives so many before it first gives nothing. -/
def after? (source : σ) : Nat → Option σ
  | 0 => some source
  | r + 1 => (after? source r).bind (behind? pull)

/-- The item at a position of a source. What it may give behind its first nothing does not count. -/
def itemAt (source : σ) (r : Nat) : Option α :=
  (after? pull source r).bind fun left => (pull left).1

def item (sources : List σ) (i r : Nat) : Option α :=
  sources[i]?.bind (itemAt pull · r)

/-- The source whose turn it is at a time, with its number, if it has given an item in every round. -/
def due (sources : List σ) (t : Nat) : Option (σ × Nat) :=
  sources[t % sources.length]?.bind fun source =>
    (after? pull source (t / sources.length)).map (·, t % sources.length)

def given (sources : List σ) (t : Nat) : Option α :=
  item pull sources (t % sources.length) (t / sources.length)

def noted (sources : List σ) (t : Nat) : List (Nat × Option α) :=
  ((due pull sources t).map fun source => (source.2, (pull source.1).1)).toList

/-- The sources that still take turns from a time on. -/
def queue (sources : List σ) (t : Nat) : List (σ × Nat) :=
  (List.range' t sources.length).filterMap (due pull sources)

variable {pull} {sources : List σ} {t : Nat}

theorem given_eq_bind :
    given pull sources t = (due pull sources t).bind fun source => (pull source.1).1 := by
  rw [given, item, due]
  cases sources[t % sources.length]? with
  | none => rfl
  | some source =>
    rw [Option.bind_some, Option.bind_some, itemAt]
    cases after? pull source (t / sources.length) <;> rfl

theorem length_pos_of_given {a : α} (h : given pull sources t = some a) : 0 < sources.length := by
  obtain ⟨source, hSource, -⟩ := Option.bind_eq_some_iff.mp h
  exact Nat.zero_lt_of_lt (List.getElem?_eq_some_iff.mp hSource).1

theorem due_add_length : due pull sources (t + sources.length) =
    (due pull sources t).bind fun source => (behind? pull source.1).map (·, source.2) := by
  rcases Nat.eq_zero_or_pos sources.length with hNone | hSome
  · have hNil := List.length_eq_zero_iff.mp hNone
    subst hNil
    rfl
  · rw [due, due, Nat.add_mod_right, Nat.add_div_right t hSome]
    cases sources[t % sources.length]? with
    | none => rfl
    | some source =>
      rw [Option.bind_some, Option.bind_some, after?]
      cases after? pull source (t / sources.length) with
      | none => rfl
      | some left => rfl

theorem due_add_length_of_given {a : α} {source : σ × Nat} (h : due pull sources t = some source)
    (hGiven : given pull sources t = some a) :
    due pull sources (t + sources.length) = some ((pull source.1).2, source.2) := by
  rw [given_eq_bind, h, Option.bind_some] at hGiven
  rw [due_add_length, h, Option.bind_some, behind?]
  cases hPull : pull source.1 with
  | mk found left =>
    rw [hPull] at hGiven
    dsimp only at hGiven
    rw [hGiven]
    rfl

theorem due_add_length_of_none (h : given pull sources t = none) :
    due pull sources (t + sources.length) = none := by
  rw [due_add_length]
  cases hDue : due pull sources t with
  | none => rfl
  | some source =>
    rw [given_eq_bind, hDue, Option.bind_some] at h
    rw [Option.bind_some, behind?]
    cases hPull : pull source.1 with
    | mk found left =>
      rw [hPull] at h
      dsimp only at h
      rw [h]
      rfl

theorem mem_queue_of_due {source : σ × Nat} {d : Nat} (hd : d < sources.length)
    (h : due pull sources (t + d) = some source) : source ∈ queue pull sources t := by
  refine List.mem_filterMap.mpr ⟨t + d, List.mem_range'_1.mpr ⟨Nat.le_add_right t d, ?_⟩, h⟩
  exact Nat.add_lt_add_left hd t

end Sources

section Queue

variable {pull : σ → Option α × σ} {sources : List σ} {t : Nat}

variable (pull t) in
theorem exists_queue (hSources : 0 < sources.length) : ∃ waiting,
    queue pull sources t = (due pull sources t).toList ++ waiting ∧
      queue pull sources (t + 1) = waiting ++ (due pull sources (t + sources.length)).toList := by
  obtain ⟨others, hOthers⟩ : ∃ n, sources.length = n + 1 := ⟨sources.length - 1, by omega⟩
  refine ⟨(List.range' (t + 1) others).filterMap (due pull sources), ?_, ?_⟩
  · rw [queue, hOthers, List.range'_succ, List.filterMap_cons]
    cases due pull sources t <;> rfl
  · have hLast : t + 1 + others = t + sources.length := by omega
    rw [queue, hOthers, List.range'_concat, List.filterMap_append, Nat.one_mul, hLast, hOthers]
    rw [List.filterMap_cons, List.filterMap_nil]
    cases due pull sources (t + (others + 1)) <;> rfl

variable (pull t) in
theorem length_queue_succ (hSources : 0 < sources.length) :
    (queue pull sources (t + 1)).length + (due pull sources t).toList.length =
      (queue pull sources t).length + (due pull sources (t + sources.length)).toList.length := by
  obtain ⟨waiting, hQueue, hNext⟩ := exists_queue pull t hSources
  rw [hQueue, hNext, List.length_append, List.length_append]
  omega

theorem run_nextInTurn_cons (source : σ × Nat) (waiting : List (σ × Nat))
    (log : List (Nat × Option α)) :
    (nextInTurn (watch pull) (source :: waiting)).run log =
      match pull source.1 with
      | (some a, left) => ((some a, waiting ++ [(left, source.2)]), log ++ [(source.2, some a)])
      | (none, _) => (nextInTurn (watch pull) waiting).run (log ++ [(source.2, none)]) := by
  rw [nextInTurn, StateT.run_bind, run_watch]
  rcases pull source.1 with ⟨_ | a, left⟩ <;> rfl

theorem run_queue_of_given {a : α} (h : given pull sources t = some a)
    (log : List (Nat × Option α)) : (nextInTurn (watch pull) (queue pull sources t)).run log =
      ((some a, queue pull sources (t + 1)), log ++ noted pull sources t) := by
  have hSources : 0 < sources.length := length_pos_of_given h
  obtain ⟨waiting, hQueue, hNext⟩ := exists_queue pull t hSources
  rw [given_eq_bind] at h
  obtain ⟨source, hDue, hPull⟩ := Option.bind_eq_some_iff.mp h
  rw [due_add_length_of_given hDue (given_eq_bind.trans h)] at hNext
  rw [hQueue, hDue, Option.toList_some, List.singleton_append, run_nextInTurn_cons, hNext, noted, hDue]
  rcases hAnswer : pull source.1 with ⟨found, left⟩
  rw [hAnswer] at hPull
  obtain rfl : found = some a := hPull
  rw [Option.map_some, hAnswer]
  rfl

theorem run_queue_of_none (hSources : 0 < sources.length) (h : given pull sources t = none)
    (log : List (Nat × Option α)) : (nextInTurn (watch pull) (queue pull sources t)).run log =
      (nextInTurn (watch pull) (queue pull sources (t + 1))).run (log ++ noted pull sources t) := by
  obtain ⟨waiting, hQueue, hNext⟩ := exists_queue pull t hSources
  rw [due_add_length_of_none h, Option.toList_none, List.append_nil] at hNext
  rw [hQueue, hNext, noted]
  rw [given_eq_bind] at h
  cases hDue : due pull sources t with
  | none => rw [Option.toList_none, List.nil_append, Option.map_none, Option.toList_none, List.append_nil]
  | some source =>
    rw [hDue, Option.bind_some] at h
    rw [Option.toList_some, List.singleton_append, run_nextInTurn_cons, Option.map_some]
    rcases hAnswer : pull source.1 with ⟨found, left⟩
    rw [hAnswer] at h
    obtain rfl : found = none := h
    rfl

theorem due_of_lt (h : t < sources.length) : due pull sources t = some (sources[t], t) := by
  rw [due, Nat.mod_eq_of_lt h, Nat.div_eq_of_lt h, List.getElem?_eq_getElem h]
  rfl

theorem filterMap_range'_eq_zipIdx {β : Type} {f : Nat → Option (β × Nat)} {list : List β} {n : Nat}
    (h : ∀ i, (hi : i < list.length) → f (n + i) = some (list[i], n + i)) :
    (List.range' n list.length).filterMap f = list.zipIdx n := by
  induction list generalizing n with
  | nil => rfl
  | cons b list ih =>
    have hRest : (List.range' (n + 1) list.length).filterMap f = list.zipIdx (n + 1) := by
      refine ih fun i hi => ?_
      rw [Nat.add_assoc, Nat.add_comm 1 i]
      exact h (i + 1) (Nat.succ_lt_succ hi)
    have hFirst : f n = some (b, n) := h 0 (Nat.succ_pos _)
    rw [List.length_cons, List.range'_succ, List.filterMap_cons_some hFirst, hRest]
    rfl

theorem queue_zero (pull : σ → Option α × σ) (sources : List σ) :
    queue pull sources 0 = sources.zipIdx := by
  refine filterMap_range'_eq_zipIdx fun i hi => ?_
  rw [Nat.zero_add, due_of_lt hi]

end Queue

namespace Carousel

/-- The carousel as it is at a time: each place holds what is due there within the next round. -/
structure Standing (pull : σ → Option α × σ) (sources : List σ) (t : Nat) (c : Carousel (σ × Nat)) :
    Prop where
  length_eq : c.places.length = sources.length
  cursor_eq : c.cursor = t % sources.length
  live_eq : c.live = (queue pull sources t).length
  place_eq : ∀ u, t ≤ u → u < t + sources.length →
    c.places[u % sources.length]? = some (due pull sources u)

def leftAfter {S : Type} (next : S → OptionT (StateM (List (Nat × Option α))) (Option α × S))
    (start : S) : Nat → S
  | 0 => start
  | n + 1 =>
    match (Id.run ((next (leftAfter next start n)).run.run [])).1 with
    | some (_, left) => left
    | none => leftAfter next start n

variable {pull : σ → Option α × σ} {sources : List σ} {t : Nat} {c : Carousel (σ × Nat)}

theorem Standing.moved (h : c.Standing pull sources t) (hSources : 0 < sources.length)
    {place : Option (σ × Nat)} {live : Nat} (hPlace : due pull sources (t + sources.length) = place)
    (hLive : live + (due pull sources t).toList.length = c.live + place.toList.length) :
    (⟨c.places.set c.cursor place, (c.cursor + 1) % c.places.length, live⟩ :
      Carousel (σ × Nat)).Standing pull sources (t + 1) where
  length_eq := by rw [List.length_set, h.length_eq]
  cursor_eq := by
    dsimp only
    rw [h.cursor_eq, h.length_eq, Nat.mod_add_mod]
  live_eq := by
    have hQueue := length_queue_succ pull t hSources
    rw [hPlace, ← h.live_eq] at hQueue
    dsimp only
    omega
  place_eq := by
    intro u hFrom hTo
    dsimp only
    rw [h.cursor_eq]
    rcases Nat.lt_or_ge u (t + sources.length) with hOld | hNew
    · have hOther : t % sources.length ≠ u % sources.length := by
        intro hSame
        have hZero := Nat.sub_mod_eq_zero_of_mod_eq hSame.symm
        rw [Nat.mod_eq_of_lt (by omega)] at hZero
        omega
      rw [List.getElem?_set_ne hOther, h.place_eq u (by omega) hOld]
    · obtain rfl : u = t + sources.length := by omega
      have hInside : t % sources.length < c.places.length := by
        rw [h.length_eq]
        exact Nat.mod_lt t hSources
      rw [Nat.add_mod_right, List.getElem?_set_self hInside, hPlace]

theorem run_bind_of_some {β γ : Type} {x : OptionT (StateM (List (Nat × Option α))) β}
    {f : β → OptionT (StateM (List (Nat × Option α))) γ} {b : β} {log log' : List (Nat × Option α)}
    (h : x.run.run log = (some b, log')) : (x >>= f).run.run log = (f b).run.run log' := by
  rw [OptionT.run_bind, Option.elimM, StateT.run_bind, h]
  rfl

theorem run_turn_of_empty (hPlaces : c.places.length ≠ 0) (h : c.places[c.cursor]? = some none)
    (log : List (Nat × Option α)) : (c.turn (watch pull)).run.run log =
      (some (none, ⟨c.places.set c.cursor none, (c.cursor + 1) % c.places.length, c.live⟩), log) := by
  obtain ⟨hInside, hEmpty⟩ := List.getElem?_eq_some_iff.mp h
  have hSame : c.places.set c.cursor none = c.places := by rw [← hEmpty, List.set_getElem_self]
  simp only [turn, if_neg hPlaces, h, hSame]
  rfl

theorem run_turn_of_source (hPlaces : c.places.length ≠ 0) {source : σ × Nat}
    (h : c.places[c.cursor]? = some (some source)) (log : List (Nat × Option α)) :
    (c.turn (watch pull)).run.run log =
      match pull source.1 with
      | (some a, left) => (some (some a, ⟨c.places.set c.cursor (some (left, source.2)),
          (c.cursor + 1) % c.places.length, c.live⟩), log ++ [(source.2, some a)])
      | (none, _) => (some (none, ⟨c.places.set c.cursor none,
          (c.cursor + 1) % c.places.length, c.live - 1⟩), log ++ [(source.2, none)]) := by
  have hAsk : (OptionT.lift (watch pull source)).run.run log =
      (some ((pull source.1).1, ((pull source.1).2, source.2)),
        log ++ [(source.2, (pull source.1).1)]) := rfl
  simp only [turn, if_neg hPlaces, h]
  rw [run_bind_of_some hAsk]
  rcases pull source.1 with ⟨_ | a, left⟩ <;> rfl

/-- One turn goes one time further and gives what is given then. -/
theorem Standing.exists_turn (h : c.Standing pull sources t) (hSources : 0 < sources.length) :
    ∃ c', c'.Standing pull sources (t + 1) ∧ ∀ log, (c.turn (watch pull)).run.run log =
      (some (given pull sources t, c'), log ++ noted pull sources t) := by
  have hPlaces : c.places.length ≠ 0 := by rw [h.length_eq]; omega
  have hHere := h.place_eq t (Nat.le_refl t) (by omega)
  rw [← h.cursor_eq] at hHere
  rw [noted]
  cases hDue : due pull sources t with
  | none =>
    rw [hDue] at hHere
    have hGiven : given pull sources t = none := by rw [given_eq_bind, hDue]; rfl
    refine ⟨_, h.moved hSources (due_add_length_of_none hGiven) (by rw [hDue]), fun log => ?_⟩
    rw [run_turn_of_empty hPlaces hHere, hGiven, Option.map_none, Option.toList_none, List.append_nil]
  | some source =>
    rw [hDue] at hHere
    rw [Option.map_some, Option.toList_some]
    rcases hAnswer : pull source.1 with ⟨_ | a, left⟩
    · have hGiven : given pull sources t = none := by rw [given_eq_bind, hDue, Option.bind_some, hAnswer]
      have hLive : c.live - 1 + (due pull sources t).toList.length =
          c.live + (none : Option (σ × Nat)).toList.length := by
        have hSome : 0 < c.live := by
          rw [h.live_eq]
          exact List.length_pos_of_mem (mem_queue_of_due hSources hDue)
        rw [hDue]
        exact Nat.sub_add_cancel hSome
      refine ⟨_, h.moved hSources (due_add_length_of_none hGiven) hLive, fun log => ?_⟩
      rw [run_turn_of_source hPlaces hHere, hAnswer, hGiven]
    · have hGiven : given pull sources t = some a := by
        rw [given_eq_bind, hDue, Option.bind_some, hAnswer]
      have hLeft := due_add_length_of_given hDue hGiven
      rw [hAnswer] at hLeft
      refine ⟨_, h.moved hSources hLeft (by rw [hDue]; rfl), fun log => ?_⟩
      rw [run_turn_of_source hPlaces hHere, hAnswer, hGiven]

theorem run_next_of_live_eq_zero (h : c.live = 0) (turns : Nat) (log : List (Nat × Option α)) :
    (c.next (watch pull) turns).run.run log = (some (none, c), log) := by
  unfold next
  rw [if_pos h]
  rfl

theorem run_next_of_item (h : c.live ≠ 0) {a : α} {c' : Carousel (σ × Nat)}
    {log log' : List (Nat × Option α)}
    (hTurn : (c.turn (watch pull)).run.run log = (some (some a, c'), log')) (turns : Nat) :
    (c.next (watch pull) (turns + 1)).run.run log = (some (some a, c'), log') := by
  rw [next, if_neg h, run_bind_of_some hTurn]
  rfl

theorem run_next_of_none (h : c.live ≠ 0) {c' : Carousel (σ × Nat)} {log log' : List (Nat × Option α)}
    (hTurn : (c.turn (watch pull)).run.run log = (some (none, c'), log')) (turns : Nat) :
    (c.next (watch pull) (turns + 1)).run.run log = (c'.next (watch pull) turns).run.run log' := by
  rw [next, if_neg h, run_bind_of_some hTurn]

theorem Standing.live_ne_zero (h : c.Standing pull sources t) {d : Nat} (hRound : d < sources.length)
    {a : α} (hGiven : given pull sources (t + d) = some a) : c.live ≠ 0 := by
  rw [given_eq_bind] at hGiven
  obtain ⟨source, hDue, -⟩ := Option.bind_eq_some_iff.mp hGiven
  rw [h.live_eq]
  exact List.length_pos_of_mem (mem_queue_of_due hRound hDue) |>.ne'

theorem standing_ofList (pull : σ → Option α × σ) (sources : List σ) :
    (ofList sources.zipIdx).Standing pull sources 0 where
  length_eq := by rw [ofList, List.length_map, List.length_zipIdx]
  cursor_eq := (Nat.zero_mod _).symm
  live_eq := by rw [ofList, queue_zero]
  place_eq := by
    intro u _ hu
    rw [Nat.zero_add] at hu
    rw [ofList, Nat.mod_eq_of_lt hu, List.getElem?_map, List.getElem?_zipIdx, due_of_lt hu,
      List.getElem?_eq_getElem hu, Option.map_some, Option.map_some, Nat.zero_add]

/-- If the next item comes after `d` times of nothing, the queue and the carousel both give it. -/
theorem Standing.agrees_of_given (h : c.Standing pull sources t) {d turns : Nat} {a : α}
    (hNothing : ∀ u, t ≤ u → u < t + d → given pull sources u = none)
    (hGiven : given pull sources (t + d) = some a) (hRound : d < sources.length) (hTurns : d < turns)
    (log : List (Nat × Option α)) : ∃ c' log', c'.Standing pull sources (t + d + 1) ∧
      (nextInTurn (watch pull) (queue pull sources t)).run log =
        ((some a, queue pull sources (t + d + 1)), log') ∧
      (c.next (watch pull) turns).run.run log = (some (some a, c'), log') := by
  induction d generalizing t c turns log with
  | zero =>
    obtain ⟨turns, rfl⟩ : ∃ n, turns = n + 1 := ⟨turns - 1, by omega⟩
    obtain ⟨c', hStanding, hTurn⟩ := h.exists_turn hRound
    have hItem := hTurn log
    rw [Nat.add_zero] at hGiven
    rw [hGiven] at hItem
    exact ⟨c', _, hStanding, run_queue_of_given hGiven log,
      run_next_of_item (h.live_ne_zero hRound hGiven) hItem turns⟩
  | succ d ih =>
    obtain ⟨turns, rfl⟩ : ∃ n, turns = n + 1 := ⟨turns - 1, by omega⟩
    have hSources : 0 < sources.length := by omega
    have hHere := hNothing t (Nat.le_refl t) (by omega)
    have hLater : t + (d + 1) = t + 1 + d := by omega
    obtain ⟨next, hStanding, hTurn⟩ := h.exists_turn hSources
    have hSkip := hTurn log
    rw [hHere] at hSkip
    have hLive := h.live_ne_zero hRound hGiven
    rw [hLater] at hGiven ⊢
    have hTurns : d < turns := by omega
    obtain ⟨c', log', hLast, hQueue, hNext⟩ := ih hStanding
      (fun u hu hu' => hNothing u (by omega) (by omega)) hGiven (by omega) hTurns
      (log ++ noted pull sources t)
    refine ⟨c', log', hLast, ?_, ?_⟩
    · rw [run_queue_of_none hSources hHere, hQueue]
    · rw [run_next_of_none hLive hSkip, hNext]

/-- If nothing comes any more, they both end, at the latest when all that was due in this round has had
its turn. -/
theorem Standing.agrees_of_nothing (h : c.Standing pull sources t) {left turns : Nat}
    (hNothing : ∀ u, t ≤ u → given pull sources u = none)
    (hGone : ∀ u, t + left ≤ u → u < t + sources.length → due pull sources u = none)
    (hTurns : left ≤ turns) (log : List (Nat × Option α)) : ∃ c' log', c'.live = 0 ∧
      (nextInTurn (watch pull) (queue pull sources t)).run log = ((none, []), log') ∧
      (c.next (watch pull) turns).run.run log = (some (none, c'), log') := by
  induction left generalizing t c turns log with
  | zero =>
    have hEmpty : queue pull sources t = [] := by
      refine List.filterMap_eq_nil_iff.mpr fun u hu => ?_
      obtain ⟨hFrom, hTo⟩ := List.mem_range'_1.mp hu
      exact hGone u hFrom hTo
    have hLive : c.live = 0 := by rw [h.live_eq, hEmpty, List.length_nil]
    refine ⟨c, log, hLive, ?_, run_next_of_live_eq_zero hLive turns log⟩
    rw [hEmpty]
    rfl
  | succ left ih =>
    obtain ⟨turns, rfl⟩ : ∃ n, turns = n + 1 := ⟨turns - 1, by omega⟩
    by_cases hLive : c.live = 0
    · refine ⟨c, log, hLive, ?_, run_next_of_live_eq_zero hLive _ log⟩
      rw [h.live_eq, List.length_eq_zero_iff] at hLive
      rw [hLive]
      rfl
    · have hSources : 0 < sources.length := by
        refine Nat.pos_of_ne_zero fun hZero => hLive ?_
        rw [h.live_eq, queue, hZero]
        rfl
      have hHere := hNothing t (Nat.le_refl t)
      obtain ⟨next, hStanding, hTurn⟩ := h.exists_turn hSources
      have hStill : ∀ u, t + 1 + left ≤ u → u < t + 1 + sources.length → due pull sources u = none := by
        intro u hFrom hTo
        rcases Nat.lt_or_ge u (t + sources.length) with hOld | hNew
        · exact hGone u (by omega) hOld
        · obtain rfl : u = t + sources.length := by omega
          exact due_add_length_of_none hHere
      have hSkip := hTurn log
      rw [hHere] at hSkip
      have hTurns : left ≤ turns := by omega
      obtain ⟨c', log', hLast, hQueue, hNext⟩ := ih hStanding
        (fun u hu => hNothing u (by omega)) hStill hTurns (log ++ noted pull sources t)
      refine ⟨c', log', hLast, ?_, ?_⟩
      · rw [run_queue_of_none hSources hHere, hQueue]
      · rw [run_next_of_none hLive hSkip, hNext]

end Carousel

section Turns

variable (pull : σ → Option α × σ) (sources : List σ)

def waitingAfter : Nat → List (σ × Nat) :=
  leftAfter (nextInTurn (watch pull)) sources.zipIdx

def carouselAfter : Nat → Carousel (σ × Nat) :=
  Carousel.leftAfter (Carousel.next (watch pull) sources.length) (.ofList sources.zipIdx)

def givenInTurn : Nat → Option α :=
  output (nextInTurn (watch pull)) sources.zipIdx

def askedInTurn : Nat → List (Nat × Option α) :=
  asked (nextInTurn (watch pull)) sources.zipIdx

def countBefore (t : Nat) : Nat :=
  Nat.count (fun u => (given pull sources u).isSome) t

/-- After `n` calls, queue and carousel stand at a time that has `n` items before it, or they are both
empty and there are no more items. -/
def InStep (n : Nat) : Prop :=
  (∃ t, waitingAfter pull sources n = queue pull sources t ∧
    (carouselAfter pull sources n).Standing pull sources t ∧ countBefore pull sources t = n) ∨
  (waitingAfter pull sources n = [] ∧ (carouselAfter pull sources n).live = 0 ∧
    ∃ t, countBefore pull sources t ≤ n ∧ ∀ u, t ≤ u → given pull sources u = none)

variable {pull sources} {n t : Nat}

theorem call_agrees {found : Option α} {waiting : List (σ × Nat)} {c : Carousel (σ × Nat)}
    {notes : List (Nat × Option α)}
    (hQueue : (nextInTurn (watch pull) (waitingAfter pull sources n)).run [] = ((found, waiting), notes))
    (hCarousel : ((carouselAfter pull sources n).next (watch pull) sources.length).run.run [] =
      (some (found, c), notes)) :
    givenInTurn pull sources n = found ∧ waitingAfter pull sources (n + 1) = waiting ∧
      carouselAfter pull sources (n + 1) = c ∧
      ((carouselAfter pull sources n).next (watch pull) sources.length).run.run [] =
        (some (givenInTurn pull sources n, carouselAfter pull sources (n + 1)),
          askedInTurn pull sources n) := by
  obtain ⟨hFound, hWaiting, hNotes⟩ := call_eq hQueue
  have hLeft : carouselAfter pull sources (n + 1) = c := by
    rw [carouselAfter, Carousel.leftAfter, ← carouselAfter, hCarousel]
    rfl
  refine ⟨hFound, hWaiting, hLeft, ?_⟩
  rw [hCarousel, hLeft, askedInTurn, hNotes, givenInTurn, hFound]

theorem countBefore_add_of_none {d : Nat}
    (h : ∀ u, t ≤ u → u < t + d → given pull sources u = none) :
    countBefore pull sources (t + d) = countBefore pull sources t := by
  rw [countBefore, Nat.count_add, ← countBefore, Nat.add_eq_left, Nat.count_iff_forall_not]
  intro u hu
  rw [h (t + u) (by omega) (by omega)]
  exact Bool.false_ne_true

theorem countBefore_lt_of_given {u : Nat} (h : (given pull sources u).isSome) (hu : u < t) :
    countBefore pull sources u < countBefore pull sources t :=
  Nat.count_strict_mono h hu

theorem countBefore_lt_of_nothing (h : ∀ u, t ≤ u → given pull sources u = none) {u : Nat}
    (hu : (given pull sources u).isSome) : countBefore pull sources u < countBefore pull sources t := by
  refine countBefore_lt_of_given hu (Nat.lt_of_not_le fun hLater => ?_)
  rw [h u hLater] at hu
  cases hu

theorem lt_length_of_given {d : Nat} {a : α}
    (hNothing : ∀ u, t ≤ u → u < t + d → given pull sources u = none)
    (hGiven : given pull sources (t + d) = some a) : d < sources.length := by
  have hSources := length_pos_of_given hGiven
  by_contra hRound
  obtain ⟨u, hu⟩ : ∃ u, t + d = u + sources.length := ⟨t + d - sources.length, by omega⟩
  have hGone := due_add_length_of_none (hNothing u (by omega) (by omega))
  rw [hu, given_eq_bind, hGone] at hGiven
  cases hGiven

theorem inStep_zero : InStep pull sources 0 :=
  .inl ⟨0, (queue_zero pull sources).symm, Carousel.standing_ofList pull sources, Nat.count_zero _⟩

/-- What the call after `n` others does: the carousel gives and asks the same as the queue, namely the item
that has `n` others before it if there is one. -/
structure Answered (pull : σ → Option α × σ) (sources : List σ) (n : Nat) : Prop where
  inStep : InStep pull sources (n + 1)
  agrees : ((carouselAfter pull sources n).next (watch pull) sources.length).run.run [] =
    (some (givenInTurn pull sources n, carouselAfter pull sources (n + 1)), askedInTurn pull sources n)
  gives : (∃ u a, given pull sources u = some a ∧ countBefore pull sources u = n ∧
      givenInTurn pull sources n = some a) ∨
    givenInTurn pull sources n = none ∧ ∀ u, (given pull sources u).isSome → countBefore pull sources u < n

theorem answered_of_given {d : Nat} {a : α} (hWaiting : waitingAfter pull sources n = queue pull sources t)
    (hStanding : (carouselAfter pull sources n).Standing pull sources t)
    (hCount : countBefore pull sources t = n)
    (hBefore : ∀ u, t ≤ u → u < t + d → given pull sources u = none)
    (hGiven : given pull sources (t + d) = some a) : Answered pull sources n := by
  have hRound := lt_length_of_given hBefore hGiven
  obtain ⟨c, notes, hLast, hQueue, hNext⟩ := hStanding.agrees_of_given hBefore hGiven hRound hRound []
  rw [← hWaiting] at hQueue
  obtain ⟨hFound, hLeft, hCarousel, hAgrees⟩ := call_agrees hQueue hNext
  have hHere : countBefore pull sources (t + d) = n := by
    rw [countBefore_add_of_none hBefore, hCount]
  refine ⟨.inl ⟨t + d + 1, hLeft, ?_, ?_⟩, hAgrees, .inl ⟨_, a, hGiven, hHere, hFound⟩⟩
  · rw [hCarousel]
    exact hLast
  · rw [countBefore, Nat.count_succ, ← countBefore, hHere, hGiven]
    rfl

theorem answered_of_nothing (hWaiting : waitingAfter pull sources n = queue pull sources t)
    (hStanding : (carouselAfter pull sources n).Standing pull sources t)
    (hCount : countBefore pull sources t = n)
    (hNothing : ∀ u, t ≤ u → given pull sources u = none) : Answered pull sources n := by
  obtain ⟨c, notes, hEmpty, hQueue, hNext⟩ := hStanding.agrees_of_nothing hNothing
    (fun u _ _ => by omega) (Nat.le_refl sources.length) []
  rw [← hWaiting] at hQueue
  obtain ⟨hFound, hLeft, hCarousel, hAgrees⟩ := call_agrees hQueue hNext
  refine ⟨.inr ⟨hLeft, by rw [hCarousel, hEmpty], t, by omega, hNothing⟩, hAgrees, .inr ⟨hFound, ?_⟩⟩
  exact fun u hu => hCount ▸ countBefore_lt_of_nothing hNothing hu

theorem answered_of_empty (hWaiting : waitingAfter pull sources n = [])
    (hLive : (carouselAfter pull sources n).live = 0) (hCount : countBefore pull sources t ≤ n)
    (hNothing : ∀ u, t ≤ u → given pull sources u = none) : Answered pull sources n := by
  have hQueue : (nextInTurn (watch pull) (waitingAfter pull sources n)).run [] = ((none, []), []) := by
    rw [hWaiting]
    rfl
  obtain ⟨hFound, hLeft, hCarousel, hAgrees⟩ := call_agrees hQueue
    (Carousel.run_next_of_live_eq_zero hLive sources.length [])
  refine ⟨.inr ⟨hLeft, by rw [hCarousel, hLive], t, by omega, hNothing⟩, hAgrees, .inr ⟨hFound, ?_⟩⟩
  exact fun u hu => Nat.lt_of_lt_of_le (countBefore_lt_of_nothing hNothing hu) hCount

theorem InStep.answered (h : InStep pull sources n) : Answered pull sources n := by
  rcases h with ⟨t, hWaiting, hStanding, hCount⟩ | ⟨hWaiting, hLive, t, hCount, hNothing⟩
  · by_cases hMore : ∃ d, (given pull sources (t + d)).isSome
    · -- The first time from `t` on that has an item.
      classical
      obtain ⟨a, hGiven⟩ := Option.isSome_iff_exists.mp (Nat.find_spec hMore)
      refine answered_of_given hWaiting hStanding hCount (fun u hFrom hTo => ?_) hGiven
      have hNot := Nat.find_min hMore (m := u - t) (by omega)
      rw [Nat.add_sub_cancel' hFrom] at hNot
      exact Option.not_isSome_iff_eq_none.mp hNot
    · refine answered_of_nothing hWaiting hStanding hCount fun u hFrom => ?_
      have hNot := not_exists.mp hMore (u - t)
      rw [Nat.add_sub_cancel' hFrom] at hNot
      exact Option.not_isSome_iff_eq_none.mp hNot
  · exact answered_of_empty hWaiting hLive hCount hNothing

theorem inStep (pull : σ → Option α × σ) (sources : List σ) (n : Nat) : InStep pull sources n := by
  induction n with
  | zero => exact inStep_zero
  | succ n ih => exact ih.answered.inStep

end Turns

end Lexigram.Enumeration
