import Lexigram.Regex.Escape

/-! # Bracketed classes

What follows an opening bracket, read one character at a time. Hyphens at the very start and a closing
bracket as the first member are members; elsewhere a hyphen between two characters makes a range, and
before the closing bracket it is a member. A class may have further classes as members, which are kept on
a stack while they are open. A doubled sign joins what stands before it in the same brackets to what comes
behind it, from left to right.
-/

namespace Lexigram.Regex

/-- A member of a class that may still turn out to begin a range. -/
inductive ClassMember where
  /-- The flag tells that the character stands for itself without an escape. -/
  | char (c : Char) (bare : Bool)
  | chars (set : CharSet)
  deriving DecidableEq, Repr

def ClassMember.set : ClassMember → CharSet
  | .char c _ => .single c
  | .chars set => set

inductive ClassPlace where
  | opened
  | hyphens (any : Bool)
  | between
  | member (m : ClassMember)
  | range (m : ClassMember)
  | escape (e : Escape)
  | rangeEscape (m : ClassMember) (e : Escape)
  deriving DecidableEq, Repr

structure OpenClass where
  negated : Bool := false
  /-- The operand before the last operation, how deep it is, and the operation. -/
  before : Option (CharSet × Nat × SetOperation) := none
  members : CharSet := .empty
  size : Nat := 0
  deepest : Nat := 0
  /-- All that was read of the class, last character first. -/
  text : List Char := []
  deriving DecidableEq, Repr

namespace OpenClass

def add (o : OpenClass) (set : CharSet) (depth : Nat := 0) : OpenClass :=
  { o with members := .union o.members set, size := o.size + 1, deepest := max o.deepest depth }

/-- What stands in the brackets and how deep it is: several members lie a level below their union, and
operands below what joins them. -/
def content (o : OpenClass) (caseless : Bool) : CharSet × Nat :=
  let depth := if o.size ≤ 1 then o.deepest else o.deepest + 1
  match o.before with
  | none => (o.members, depth)
  | some (first, firstDepth, operation) =>
    (operation.apply (first.adjust caseless) (o.members.adjust caseless), max firstDepth depth + 1)

def operate (o : OpenClass) (caseless : Bool) (operation : SetOperation) : OpenClass :=
  let (set, depth) := o.content caseless
  { negated := o.negated, before := some (set, depth, operation), text := o.text }

def result (o : OpenClass) (caseless : Bool) : CharSet × Nat :=
  let (set, depth) := o.content caseless
  (set.adjust caseless o.negated, depth + 1)

/-- The class as a member of another one, where it may be the name of a set. Its text ends with the closing
bracket. -/
def nested (o : OpenClass) (caseless : Bool) : CharSet × Nat :=
  match CharSet.ascii? (o.text.drop 1).reverse with
  | some (set, negated) => (set.adjust caseless negated, 0)
  | none => o.result caseless

end OpenClass

/-- A class as far as it has been read, with the open classes that it stands in, the innermost first. -/
structure ClassReader where
  place : ClassPlace := .opened
  current : OpenClass := {}
  enclosing : List OpenClass := []
  deriving DecidableEq, Repr

namespace ClassReader

def start : ClassReader :=
  {}

def add (r : ClassReader) (set : CharSet) : ClassReader :=
  { r with place := .between, current := r.current.add set }

def operate (r : ClassReader) (caseless : Bool) (operation : SetOperation) : ClassReader :=
  { r with place := .between, current := r.current.operate caseless operation }

def endRange (r : ClassReader) (m : ClassMember) (high : Char) : Except SyntaxError ClassReader :=
  match m with
  | .char low _ => if low ≤ high then .ok (r.add (.range low high)) else .error .invalidRange
  | .chars _ => .error .invalidRange

def close (r : ClassReader) (caseless : Bool) : ClassReader ⊕ CharSet × Nat :=
  match r.enclosing with
  | [] => .inr (r.current.result caseless)
  | outer :: rest =>
    let (set, depth) := r.current.nested caseless
    .inl { place := .between, current := outer.add set depth, enclosing := rest }

def beginMember (r : ClassReader) (caseless : Bool) (c : Char) : ClassReader ⊕ CharSet × Nat :=
  match c with
  | ']' => r.close caseless
  | '[' => .inl { enclosing := r.current :: r.enclosing }
  | '\\' => .inl { r with place := .escape .start }
  | c => .inl { r with place := .member (.char c true) }

def lead (r : ClassReader) (caseless any : Bool) (c : Char) : ClassReader ⊕ CharSet × Nat :=
  if c = '-' then .inl { r.add (.single '-') with place := .hyphens true }
  else if c = ']' && !any then .inl (r.add (.single ']'))
  else r.beginMember caseless c

def operation? (m : ClassMember) (c : Char) : Option SetOperation :=
  if m = .char c true then SetOperation.ofChar? c else none

/-- Reads one character that has been noted: the class goes on, or this was its closing bracket. -/
def advance (properties : Properties) (caseless : Bool) (r : ClassReader) (c : Char) :
    Except SyntaxError (ClassReader ⊕ CharSet × Nat) :=
  match r.place with
  | .opened =>
    if c = '^' then
      .ok (.inl { r with place := .hyphens false, current := { r.current with negated := true } })
    else .ok (r.lead caseless false c)
  | .hyphens any => .ok (r.lead caseless any c)
  | .between => .ok (r.beginMember caseless c)
  | .member m =>
    match operation? m c with
    | some operation => .ok (.inl (r.operate caseless operation))
    | none =>
      if c = '-' then .ok (.inl { r with place := .range m })
      else .ok ((r.add m.set).beginMember caseless c)
  | .range m =>
    match c with
    | ']' => .ok (((r.add m.set).add (.single '-')).close caseless)
    | '-' => .ok (.inl ((r.add m.set).operate caseless .difference))
    | '\\' => .ok (.inl { r with place := .rangeEscape m .start })
    | c => do .ok (.inl (← r.endRange m c))
  | .escape e => do
    match ← e.step c with
    | .inl e => .ok (.inl { r with place := .escape e })
    | .inr (.char c) => .ok (.inl { r with place := .member (.char c false) })
    | .inr (.chars set) => .ok (.inl { r with place := .member (.chars set) })
    | .inr (.property name negated) => do
      let set ← propertySet properties name caseless negated
      .ok (.inl { r with place := .member (.chars set) })
    | .inr (.assert _) => .error .unknownEscape
  | .rangeEscape m e => do
    match ← e.step c with
    | .inl e => .ok (.inl { r with place := .rangeEscape m e })
    | .inr (.char high) => do .ok (.inl (← r.endRange m high))
    | .inr (.chars _) | .inr (.property _ _) => .error .invalidRange
    | .inr (.assert _) => .error .unknownEscape

def step (properties : Properties) (caseless : Bool) (r : ClassReader) (c : Char) :
    Except SyntaxError (ClassReader ⊕ CharSet × Nat) :=
  let noted := { r.current with text := c :: r.current.text }
  advance properties caseless { r with current := noted } c

end ClassReader

end Lexigram.Regex
