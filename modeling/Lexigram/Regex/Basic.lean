import Lexigram.Regex.CharSet

/-! # Regular expressions

The shape of an expression. Groups leave no trace, since nothing is captured; flags are resolved into
the sets they apply to.
-/

namespace Lexigram

inductive Assertion where
  | textStart
  | textEnd
  | wordBoundary
  | notWordBoundary
  | wordStart
  | wordEnd
  /-- No character of a word comes before. -/
  | wordStartHalf
  /-- No character of a word comes next. -/
  | wordEndHalf
  deriving DecidableEq, Repr

inductive Regex where
  | empty
  | chars (set : CharSet)
  | assert (condition : Assertion)
  | seq (first second : Regex)
  /-- The first branch is preferred. -/
  | alt (first second : Regex)
  /-- At least `least` copies and at most `most`, with no bound when it is absent. A greedy
  repetition prefers one more copy, any other prefers to stop. -/
  | rep (body : Regex) (least : Nat) (most : Option Nat) (greedy : Bool)
  deriving DecidableEq, Repr

namespace Regex

def char (c : Char) : Regex :=
  .chars (.single c)

/-- How many single characters the expression holds once counted repetitions are written out. A set of
characters counts as one, whatever a search would make of it. -/
def weight : Regex → Nat
  | .empty => 1
  | .chars _ => 1
  | .assert _ => 1
  | .seq a b => a.weight + b.weight
  | .alt a b => a.weight + b.weight
  | .rep a least most _ => a.weight * max 1 (max least (most.getD 1))

/-! ## Nesting

How deep the parts of an expression lie within each other. Single characters, named sets and assertions have
no depth. A bracketed class, a repetition, a group, a branch of several parts and a choice between branches
lie one level above what they hold.
-/

def depthLimit : Nat :=
  250

/-- The depths in a group, as far as it has been read. -/
structure Nesting where
  finished : Option Nat := none
  /-- The items and flag settings of the current branch. -/
  parts : Nat := 0
  before : Nat := 0
  last : Nat := 0
  deriving DecidableEq, Repr

namespace Nesting

def branch (n : Nesting) : Nat :=
  if n.parts ≤ 1 then max n.before n.last else max n.before n.last + 1

def push (n : Nesting) (depth : Nat) : Nesting :=
  { n with parts := n.parts + 1, before := max n.before n.last, last := depth }

def repeatLast (n : Nesting) : Nesting :=
  { n with last := n.last + 1 }

def result (n : Nesting) : Nat :=
  match n.finished with
  | none => n.branch
  | some deepest => max deepest n.branch + 1

def bar (n : Nesting) : Nesting :=
  { finished := some (max (n.finished.getD 0) n.branch) }

end Nesting

end Regex

end Lexigram
