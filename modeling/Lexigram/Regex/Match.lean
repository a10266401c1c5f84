import Lexigram.Regex.Basic

/-! # Matching

The ends of the matches of an expression from a given place, the preferred end first and every end
once. Preference is that of a search that tries branches in order and prefers longer repetitions where
they are greedy. A repetition without a bound never goes on from where it already is, so it has an end
for every way to leave it and is finite. A search over a text takes the leftmost place that has a match,
and the preferred end there.
-/

namespace Lexigram

namespace Assertion

def wordBefore (text : Array Char) : Nat → Bool
  | 0 => false
  | p + 1 => text[p]?.any Unicode.isWord

def wordAfter (text : Array Char) (p : Nat) : Bool :=
  text[p]?.any Unicode.isWord

def holds (text : Array Char) (p : Nat) : Assertion → Bool
  | .textStart => p == 0
  | .textEnd => p == text.size
  | .wordBoundary => wordBefore text p != wordAfter text p
  | .notWordBoundary => wordBefore text p == wordAfter text p
  | .wordStart => !wordBefore text p && wordAfter text p
  | .wordEnd => wordBefore text p && !wordAfter text p
  | .wordStartHalf => !wordBefore text p
  | .wordEndHalf => !wordAfter text p

end Assertion

namespace Regex

/-- The second list after the first, without what the first already has. -/
def merge (first second : List Nat) : List Nat :=
  first ++ second.filter (!first.contains ·)

theorem mem_merge_iff {a b : List Nat} {q : Nat} : q ∈ merge a b ↔ q ∈ a ∨ q ∈ b := by
  simp only [merge, List.mem_append, List.mem_filter, Bool.not_eq_true', List.contains_eq_mem,
    decide_eq_false_iff_not]
  by_cases h : q ∈ a <;> simp [h]

def mergeMap (f : Nat → List Nat) : List Nat → List Nat
  | [] => []
  | p :: rest => merge (f p) (mergeMap f rest)

theorem mem_mergeMap_iff {f : Nat → List Nat} {ps : List Nat} {q : Nat} :
    q ∈ mergeMap f ps ↔ ∃ p ∈ ps, q ∈ f p := by
  induction ps with
  | nil => simp [mergeMap]
  | cons p ps ih => simp [mergeMap, mem_merge_iff, ih]

/-- Going on or stopping at `p`, in the order of preference. -/
def goOrStop (greedy : Bool) (p : Nat) (further : List Nat) : List Nat :=
  if greedy then merge further [p] else merge [p] further

theorem mem_goOrStop_iff {greedy : Bool} {p q : Nat} {further : List Nat} :
    q ∈ goOrStop greedy p further ↔ q ∈ further ∨ q = p := by
  cases greedy <;> simp [goOrStop, mem_merge_iff, or_comm]

def times (step : Nat → List Nat) : Nat → List Nat → List Nat
  | 0, ps => ps
  | _ + 1, [] => []
  | n + 1, p :: ps => times step n (mergeMap step (p :: ps))

/-- Ends of any number of further copies, from each of the last places of a text of `size`
characters, up to the place `back` characters before its end; row `i` belongs to the place
`size - back + i`. A further copy that consumes nothing is not tried. -/
def loopRows (step : Nat → List Nat) (greedy : Bool) (size : Nat) : Nat → List (List Nat)
  | 0 => [[size]]
  | back + 1 =>
    let later := loopRows step greedy size back
    let p := size - (back + 1)
    goOrStop greedy p
      (mergeMap (fun q => if q ≤ p then [] else later.getD (q - p - 1) []) (step p)) :: later

/-- Ends of one copy or more from `p`. A first copy that consumes nothing ends the repetition. -/
def oneOrMore (step : Nat → List Nat) (greedy : Bool) (size p : Nat) : List Nat :=
  match step p with
  | [] => []
  | firsts =>
    let table := loopRows step greedy size (size - p)
    mergeMap (fun q => if q ≤ p then [p] else table.getD (q - p) []) firsts

/-- Ends of at most so many copies, from each of the places `first`, `first + 1`, … whose single
copies end as `steps` says. -/
def boundedRows (steps : List (List Nat)) (greedy : Bool) (first : Nat) : Nat → List (List Nat)
  | 0 => steps.mapIdx fun i _ => [first + i]
  | n + 1 =>
    let fewer := boundedRows steps greedy first n
    steps.mapIdx fun i step =>
      goOrStop greedy (first + i) (mergeMap (fun q => fewer.getD (q - first) []) step)

def upTo (step : Nat → List Nat) (greedy : Bool) (size p most : Nat) : List Nat :=
  let steps := (List.range (size + 1 - p)).map fun i => step (p + i)
  (boundedRows steps greedy p most).headD []

def repeated (step : Nat → List Nat) (greedy : Bool) (size p : Nat) : Nat → Option Nat → List Nat
  | 0, none => goOrStop greedy p (oneOrMore step greedy size p)
  | least + 1, none => mergeMap (oneOrMore step greedy size) (times step least [p])
  | least, some most => mergeMap (fun q => upTo step greedy size q (most - least)) (times step least [p])

/-- Ends of the matches that start at `p`, the preferred one first. -/
def ends (text : Array Char) : Regex → Nat → List Nat
  | .empty, p => [p]
  | .chars set, p =>
    match text[p]? with
    | some c => if set.has c then [p + 1] else []
    | none => []
  | .assert condition, p => if condition.holds text p then [p] else []
  | .seq a b, p => mergeMap (ends text b) (ends text a p)
  | .alt a b, p => merge (ends text a p) (ends text b p)
  | .rep a least most greedy, p => repeated (ends text a) greedy text.size p least most

def endAt? (regex : Regex) (text : Array Char) (p : Nat) : Option Nat :=
  (regex.ends text p).head?

/-- The leftmost place that has a match, and the preferred end there. -/
def search? (regex : Regex) (text : Array Char) : Option (Nat × Nat) :=
  (List.range (text.size + 1)).findSome? fun p => (regex.endAt? text p).map (p, ·)

end Regex

end Lexigram
