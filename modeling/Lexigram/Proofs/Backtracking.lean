import Lexigram.Proofs.Matching

/-! # Backtracking

The search that tries branches in their order and gives up a choice when what follows fails. What follows
is a function of the place reached. The matcher's ends stand in the order in which this search reaches
them, so its preferred end is the first one that the search finds.
-/

namespace Lexigram

namespace Regex

/-- A search from a place, which looks for a success of what follows. -/
abbrev Search (α : Type) :=
  (Nat → Option α) → Nat → Option α

variable {α : Type}

def prefer (greedy : Bool) (further stop : Option α) : Option α :=
  if greedy then further.or stop else stop.or further

def exactly (single : Search α) : Nat → Search α
  | 0, next => next
  | n + 1, next => single (exactly single n next)

def atMost (single : Search α) (greedy : Bool) (next : Nat → Option α) : Nat → Nat → Option α
  | 0, p => next p
  | n + 1, p => prefer greedy (single (atMost single greedy next n) p) (next p)

/-- Any number of further copies, which must each consume something: the text that is `left` bounds
their number. -/
def further (single : Search α) (greedy : Bool) (next : Nat → Option α) : Nat → Nat → Option α
  | 0, p => next p
  | left + 1, p =>
    prefer greedy (single (fun q => if q ≤ p then none else further single greedy next left q) p) (next p)

/-- One copy or more; a first copy that consumes nothing is the only one. -/
def atLeastOne (single : Search α) (greedy : Bool) (size : Nat) : Search α :=
  fun next p => single (fun q => if q ≤ p then next p else further single greedy next (size - q) q) p

def repeats (single : Search α) (greedy : Bool) (size : Nat) : Nat → Option Nat → Search α
  | 0, none, next, p => prefer greedy (atLeastOne single greedy size next p) (next p)
  | least + 1, none, next, p => exactly single least (atLeastOne single greedy size next) p
  | least, some most, next, p => exactly single least (atMost single greedy next (most - least)) p

/-- The first success of what follows, at an end of a match that begins at the place. -/
def backtrack (text : Array Char) : Regex → Search α
  | .empty, next, p => next p
  | .chars set, next, p =>
    match text[p]? with
    | some c => if set.has c then next (p + 1) else none
    | none => none
  | .assert condition, next, p => if condition.holds text p then next p else none
  | .seq a b, next, p => backtrack text a (backtrack text b next) p
  | .alt a b, next, p => (backtrack text a next p).or (backtrack text b next p)
  | .rep a least most greedy, next, p =>
    repeats (backtrack text a) greedy text.size least most next p

section Lists

variable {next : Nat → Option α} {greedy : Bool}

theorem findSome?_merge (a b : List Nat) :
    (merge a b).findSome? next = (a.findSome? next).or (b.findSome? next) := by
  rw [merge, List.findSome?_append]
  cases hFirst : a.findSome? next with
  | some x => rfl
  | none =>
    rw [Option.none_or, Option.none_or]
    rw [List.findSome?_eq_none_iff] at hFirst
    induction b with
    | nil => rfl
    | cons q b ih =>
      rw [List.filter_cons, List.findSome?_cons]
      split
      · rw [List.findSome?_cons, ih]
      · rename_i hq
        rw [ih, hFirst q (by simpa using hq)]

theorem findSome?_mergeMap (f : Nat → List Nat) (ps : List Nat) :
    (mergeMap f ps).findSome? next = ps.findSome? fun p => (f p).findSome? next := by
  induction ps with
  | nil => rfl
  | cons p ps ih =>
    rw [mergeMap, findSome?_merge, ih, List.findSome?_cons]
    cases (f p).findSome? next <;> rfl

theorem findSome?_goOrStop (p : Nat) (further : List Nat) :
    (goOrStop greedy p further).findSome? next = prefer greedy (further.findSome? next) (next p) := by
  cases greedy <;> simp [goOrStop, prefer, findSome?_merge]

theorem findSome?_congr {f g : Nat → Option α} {ps : List Nat} (h : ∀ p ∈ ps, f p = g p) :
    ps.findSome? f = ps.findSome? g := by
  induction ps with
  | nil => rfl
  | cons p ps ih =>
    rw [List.forall_mem_cons] at h
    rw [List.findSome?_cons, List.findSome?_cons, h.1, ih h.2]

end Lists

section Copies

variable {step : Nat → List Nat} {single : Search α}
  {greedy : Bool} {size p n : Nat} {next : Nat → Option α}

/-- The search tries the ends of a list in their order. -/
def Tries (size : Nat) (step : Nat → List Nat) (single : Search α) : Prop :=
  ∀ next, ∀ p ≤ size, (step p).findSome? next = single next p

theorem findSome?_times (hStep : Advances size step) (hTries : Tries size step single)
    (hp : p ≤ size) : (times step n [p]).findSome? next = exactly single n next p := by
  suffices h : ∀ ps, (∀ p ∈ ps, p ≤ size) →
      (times step n ps).findSome? next = ps.findSome? (exactly single n next) by
    rw [h [p] (by simpa using hp), List.findSome?_singleton]
  intro ps hps
  induction n generalizing ps with
  | zero => rfl
  | succ n ih =>
    rw [times_succ, ih _ (hStep.mergeMap_le hps), findSome?_mergeMap]
    exact findSome?_congr fun p hp => hTries _ p (hps p hp)

theorem findSome?_upTo (hStep : Advances size step) (hTries : Tries size step single)
    (hp : p ≤ size) : (upTo step greedy size p n).findSome? next = atMost single greedy next n p := by
  induction n generalizing p with
  | zero => rw [upTo_zero hp, List.findSome?_singleton, atMost]
  | succ n ih =>
    rw [upTo_succ hStep hp, findSome?_goOrStop, findSome?_mergeMap, atMost, ← hTries _ p hp]
    refine congrArg (prefer greedy · _) (findSome?_congr fun q hq => ?_)
    exact ih (hStep p hp q hq).2

theorem findSome?_furtherFrom (hStep : Advances size step) (hTries : Tries size step single)
    (hp : p ≤ size) (hLeft : size - p ≤ n) :
    (furtherFrom step greedy size p).findSome? next = further single greedy next n p := by
  induction n generalizing p with
  | zero =>
    obtain rfl : p = size := by omega
    rw [furtherFrom, Nat.sub_self, further]
    exact List.findSome?_singleton
  | succ n ih =>
    rw [furtherFrom_eq hStep hp, findSome?_goOrStop, findSome?_mergeMap, further, ← hTries _ p hp]
    refine congrArg (prefer greedy · _) (findSome?_congr fun q hq => ?_)
    split
    · rfl
    · exact ih (hStep p hp q hq).2 (by omega)

theorem findSome?_oneOrMore (hStep : Advances size step) (hTries : Tries size step single)
    (hp : p ≤ size) :
    (oneOrMore step greedy size p).findSome? next = atLeastOne single greedy size next p := by
  rw [oneOrMore_eq hStep hp, findSome?_mergeMap, atLeastOne, ← hTries _ p hp]
  refine findSome?_congr fun q hq => ?_
  split
  · exact List.findSome?_singleton
  · exact findSome?_furtherFrom hStep hTries (hStep p hp q hq).2 (Nat.le_refl _)

theorem findSome?_repeated (hStep : Advances size step) (hTries : Tries size step single)
    (hp : p ≤ size) {least : Nat} {most : Option Nat} :
    (repeated step greedy size p least most).findSome? next =
      repeats single greedy size least most next p := by
  have hTimes (n q : Nat) (hq : q ∈ times step n [p]) : q ≤ size :=
    (advances_times hStep p hp q hq).2
  cases most with
  | none =>
    cases least with
    | zero => rw [repeated, findSome?_goOrStop, findSome?_oneOrMore hStep hTries hp, repeats]
    | succ least =>
      rw [repeated, findSome?_mergeMap, repeats, ← findSome?_times hStep hTries hp]
      exact findSome?_congr fun q hq => findSome?_oneOrMore hStep hTries (hTimes least q hq)
  | some most =>
    rw [repeated, findSome?_mergeMap, repeats, ← findSome?_times hStep hTries hp]
    exact findSome?_congr fun q hq => findSome?_upTo hStep hTries (hTimes least q hq)

end Copies

theorem tries_ends (text : Array Char) (regex : Regex) :
    Tries text.size (ends text regex) (backtrack (α := α) text regex) := by
  induction regex with
  | empty => exact fun next p _ => List.findSome?_singleton
  | chars set =>
    intro next p _
    rw [ends, backtrack]
    cases text[p]? with
    | none => rfl
    | some c => cases hHas : set.has c <;> simp [hHas]
  | assert condition =>
    intro next p _
    rw [ends, backtrack]
    cases condition.holds text p <;> simp
  | seq a b iha ihb =>
    intro next p hp
    rw [ends, findSome?_mergeMap, backtrack, ← iha _ p hp]
    exact findSome?_congr fun q hq => ihb next q (advances_ends text a p hp q hq).2
  | alt a b iha ihb =>
    intro next p hp
    rw [ends, findSome?_merge, iha next p hp, ihb next p hp, backtrack]
  | rep a least most greedy ih =>
    intro next p hp
    rw [ends, backtrack]
    exact findSome?_repeated (advances_ends text a) ih hp

theorem endAt?_eq_backtrack {text : Array Char} {regex : Regex} {p : Nat} (hp : p ≤ text.size) :
    regex.endAt? text p = backtrack text regex some p := by
  rw [endAt?, ← tries_ends text regex some p hp]
  cases ends text regex p <;> rfl

end Regex

end Lexigram
