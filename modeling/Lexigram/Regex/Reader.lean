import Lexigram.Regex.Class

/-! # Reading expressions

An expression is read from left to right, one character at a time. The state holds the groups that are
still open, so but for the names that are taken, what an inner part of the text means does not depend
on the groups around it. What a property is called is left to the table that the reader is given.
-/

namespace Lexigram.Regex

def weightLimit : Nat :=
  327680

structure Flags where
  caseless : Bool := false
  dotAll : Bool := false
  deriving DecidableEq, Repr

/-- The branches of a group: those before the last bar, the current one without its last item, and
that item, to which a repetition applies. -/
structure Branches where
  finished : Option Regex := none
  before : Regex := .empty
  last : Option Regex := none
  nesting : Nesting := {}
  deriving DecidableEq, Repr

namespace Branches

def branch (b : Branches) : Regex :=
  match b.last with
  | none => b.before
  | some item => .seq b.before item

def push (b : Branches) (item : Regex) (depth : Nat) : Branches :=
  { b with before := b.branch, last := some item, nesting := b.nesting.push depth }

/-- Flags have been set: what follows cannot be applied to what precedes. -/
def settle (b : Branches) : Branches :=
  { b with before := b.branch, last := none, nesting := b.nesting.push 0 }

def repeatLast (b : Branches) (repeated : Regex) : Branches :=
  { b with last := some repeated, nesting := b.nesting.repeatLast }

def result (b : Branches) : Regex :=
  match b.finished with
  | none => b.branch
  | some first => .alt first b.branch

def bar (b : Branches) : Branches :=
  { finished := some b.result, nesting := b.nesting.bar }

end Branches

structure Count where
  value : Nat := 0
  any : Bool := false
  closed : Bool := false
  deriving DecidableEq, Repr

namespace Count

def maxCount : Nat :=
  0xFFFFFFFF

def step (n : Count) (c : Char) : Except SyntaxError Count :=
  if c.isDigit && !n.closed then .ok { n with value := n.value * 10 + digitValue c, any := true }
  else if Unicode.isSpace c then .ok { n with closed := n.any }
  else .error .invalidCount

def result (n : Count) : Except SyntaxError Nat :=
  if n.any && n.value ≤ maxCount then .ok n.value else .error .invalidCount

end Count

structure FlagList where
  caseless : Option Bool := none
  dotAll : Option Bool := none
  negated : Bool := false
  dangling : Bool := false
  deriving DecidableEq, Repr

namespace FlagList

def step (list : FlagList) (c : Char) : Except SyntaxError FlagList :=
  match c with
  | '-' => if list.negated then .error .unknownFlag else .ok { list with negated := true, dangling := true }
  | 'i' =>
    if list.caseless.isSome then .error .unknownFlag
    else .ok { list with caseless := some (!list.negated), dangling := false }
  | 's' =>
    if list.dotAll.isSome then .error .unknownFlag
    else .ok { list with dotAll := some (!list.negated), dangling := false }
  | _ => .error .unknownFlag

def apply (list : FlagList) (flags : Flags) : Flags :=
  ⟨list.caseless.getD flags.caseless, list.dotAll.getD flags.dotAll⟩

end FlagList

/-- What is being read. Names are kept with their last character first. -/
inductive Place where
  | items
  | repetition
  | boundary
  | side (read : List Char)
  | escape (e : Escape)
  | bracket (r : ClassReader)
  | least (n : Count)
  | comma (least : Nat)
  | most (least : Nat) (n : Count)
  | group
  /-- After a parenthesis and a question mark. -/
  | mark
  /-- After a parenthesis, a question mark and the letter that announces a name. -/
  | announced
  | name (read : List Char)
  | flagList (list : FlagList)
  deriving DecidableEq, Repr

def Place.isBetween : Place → Bool
  | .items | .repetition | .boundary => true
  | _ => false

/-- A text read so far. `enclosing` holds what each open group goes back to, the innermost first. -/
structure Reader where
  place : Place := .items
  flags : Flags := {}
  current : Branches := {}
  enclosing : List (Flags × Branches) := []
  names : List (List Char) := []
  deriving DecidableEq, Repr

namespace Reader

def push (r : Reader) (item : Regex) (depth : Nat := 0) : Reader :=
  { r with place := .items, current := r.current.push item depth }

def openGroup (r : Reader) : Reader :=
  { r with place := .items, current := {}, enclosing := (r.flags, r.current) :: r.enclosing }

def closeGroup (r : Reader) : Except SyntaxError Reader :=
  match r.enclosing with
  | [] => .error .unopenedGroup
  | (flags, outer) :: rest =>
    let group := outer.push r.current.result (r.current.nesting.result + 1)
    .ok { r with place := .items, flags, current := group, enclosing := rest }

def literal (r : Reader) (c : Char) : Regex :=
  .chars ((CharSet.single c).adjust r.flags.caseless)

/-- Repeats the last item, unless the copies are too many to be written out. -/
def repeatLast (r : Reader) (least : Nat) (most : Option Nat) : Except SyntaxError Reader :=
  match r.current.last with
  | none => .error .nothingToRepeat
  | some item =>
    let repeated := .rep item least most true
    if repeated.weight ≤ weightLimit then
      .ok { r with place := .repetition, current := r.current.repeatLast repeated }
    else .error .tooLarge

def makeLazy (r : Reader) : Reader :=
  match r.current.last with
  | some (.rep item least most _) =>
    { r with
      place := .items
      current := { r.current with last := some (.rep item least most false) } }
  | _ => { r with place := .items }

def beginItem (r : Reader) (c : Char) : Except SyntaxError Reader :=
  match c with
  | '(' => .ok { r with place := .group }
  | ')' => r.closeGroup
  | '[' => .ok { r with place := .bracket .start }
  | '\\' => .ok { r with place := .escape .start }
  | '|' => .ok { r with place := .items, current := r.current.bar }
  | '*' => r.repeatLast 0 none
  | '+' => r.repeatLast 1 none
  | '?' => r.repeatLast 0 (some 1)
  | '\x7b' =>
    if r.current.last.isSome then .ok { r with place := .least {} } else .error .nothingToRepeat
  | '.' => .ok (r.push (.chars (if r.flags.dotAll then .compl .empty else .compl (.single '\n'))))
  | '^' => .ok (r.push (.assert .textStart))
  | '$' => .ok (r.push (.assert .textEnd))
  | c => .ok (r.push (r.literal c))

/-- What an escape adds. Only the boundary of a word may be made another one. -/
def pushEscaped (properties : Properties) (r : Reader) : Escaped → Except SyntaxError Reader
  | .char c => .ok (r.push (r.literal c))
  | .chars set => .ok (r.push (.chars set))
  | .property name negated => do
    .ok (r.push (.chars (← propertySet properties name r.flags.caseless negated)))
  | .assert .wordBoundary => .ok { r.push (.assert .wordBoundary) with place := .boundary }
  | .assert condition => .ok (r.push (.assert condition))

def leastStep (r : Reader) (n : Count) (c : Char) : Except SyntaxError Reader :=
  match c with
  | ',' => do .ok { r with place := .comma (← n.result) }
  | '\x7d' => do
    let count ← n.result
    r.repeatLast count (some count)
  | c => do .ok { r with place := .least (← n.step c) }

def side? (name : List Char) : Option Assertion :=
  match String.ofList name with
  | "start" => some .wordStart
  | "end" => some .wordEnd
  | "start-half" => some .wordStartHalf
  | "end-half" => some .wordEndHalf
  | _ => none

/-- A character of the braces after the boundary of a word, which repeat it if no name begins in them. -/
def sideStep (r : Reader) (read : List Char) (c : Char) : Except SyntaxError Reader :=
  if c.isAlpha || c = '-' then .ok { r with place := .side (c :: read) }
  else if read.isEmpty then r.leastStep {} c
  else
    match if c = '\x7d' then side? read.reverse else none with
    | some condition =>
      .ok { r with place := .items, current := { r.current with last := some (.assert condition) } }
    | none => .error .unknownBoundary

def isNameChar (first : Bool) (c : Char) : Bool :=
  if first then c == '_' || Unicode.isLetter c
  else c == '_' || c == '.' || c == '[' || c == ']' || Unicode.isLetterOrNumber c

def flagStep (r : Reader) (list : FlagList) (c : Char) : Except SyntaxError Reader :=
  match c with
  | ':' =>
    if list.dangling then .error .unknownFlag
    else .ok { r.openGroup with flags := list.apply r.flags }
  | ')' =>
    if list.dangling || list.caseless.isNone && list.dotAll.isNone then .error .unknownFlag
    else .ok { r with place := .items, flags := list.apply r.flags, current := r.current.settle }
  | c => do .ok { r with place := .flagList (← list.step c) }

def escapeStep (properties : Properties) (r : Reader) (e : Escape) (c : Char) :
    Except SyntaxError Reader := do
  match ← e.step c with
  | .inl e => .ok { r with place := .escape e }
  | .inr escaped => r.pushEscaped properties escaped

def bracketStep (properties : Properties) (r : Reader) (b : ClassReader) (c : Char) :
    Except SyntaxError Reader := do
  match ← b.step properties r.flags.caseless c with
  | .inl b => .ok { r with place := .bracket b }
  | .inr (set, depth) => .ok (r.push (.chars set) depth)

def mostStep (r : Reader) (least : Nat) (n : Count) (c : Char) : Except SyntaxError Reader :=
  if c = '\x7d' then do
    let most ← n.result
    if least ≤ most then r.repeatLast least (some most) else .error .invalidCount
  else do .ok { r with place := .most least (← n.step c) }

def nameStep (r : Reader) (read : List Char) (c : Char) : Except SyntaxError Reader :=
  if c = '>' then
    if read.isEmpty then .error .invalidGroupName
    else if r.names.contains read then .error .repeatedGroupName
    else .ok { r.openGroup with names := read :: r.names }
  else if isNameChar read.isEmpty c then .ok { r with place := .name (c :: read) }
  else .error .invalidGroupName

def step (properties : Properties) (r : Reader) (c : Char) : Except SyntaxError Reader :=
  match r.place with
  | .items => r.beginItem c
  | .repetition => if c = '?' then .ok r.makeLazy else r.beginItem c
  | .boundary => if c = '\x7b' then .ok { r with place := .side [] } else r.beginItem c
  | .side read => r.sideStep read c
  | .escape e => r.escapeStep properties e c
  | .bracket b => r.bracketStep properties b c
  | .least n => r.leastStep n c
  | .comma least => if c = '\x7d' then r.repeatLast least none else r.mostStep least {} c
  | .most least n => r.mostStep least n c
  | .group => if c = '?' then .ok { r with place := .mark } else r.openGroup.beginItem c
  | .mark =>
    match c with
    | 'P' => .ok { r with place := .announced }
    | '<' => .ok { r with place := .name [] }
    | c => r.flagStep {} c
  | .announced => if c = '<' then .ok { r with place := .name [] } else .error .unknownFlag
  | .name read => r.nameStep read c
  | .flagList list => r.flagStep list c

def unfinished : Place → SyntaxError
  | .escape _ => .unfinishedEscape
  | .bracket _ => .unclosedClass
  | .side _ | .least _ | .comma _ | .most _ _ => .unfinishedCount
  | _ => .unclosedGroup

def finish (r : Reader) : Except SyntaxError (Regex × Nat) :=
  if r.place.isBetween then
    if r.enclosing.isEmpty then .ok (r.current.result, r.current.nesting.result)
    else .error .unclosedGroup
  else .error (unfinished r.place)

end Reader

/-- Reads a whole text as an expression, however deep it is nested. -/
def read (text : List Char) (properties : Properties := .known) : Except SyntaxError (Regex × Nat) := do
  (← text.foldlM (Reader.step properties) {}).finish

def ofChars (text : List Char) (properties : Properties := .known) : Except SyntaxError Regex := do
  let (regex, depth) ← read text properties
  if depth ≤ depthLimit then .ok regex else .error .tooDeep

end Lexigram.Regex
