import Lexigram.Regex.Basic
import Lexigram.Text.Basic

/-! # Escapes

What follows a backslash, read one character at a time: a character by name or by code point, a set of
characters by itself or by the name of its property, or an assertion.
-/

namespace Lexigram.Regex

inductive SyntaxError where
  | unclosedGroup
  | unopenedGroup
  | unclosedClass
  | unfinishedEscape
  | unfinishedCount
  | nothingToRepeat
  | invalidCount
  | unknownEscape
  | invalidCodePoint
  | invalidRange
  | unknownProperty
  | unknownBoundary
  | unknownFlag
  | invalidGroupName
  | repeatedGroupName
  | tooLarge
  | tooDeep
  deriving DecidableEq, Repr

def SyntaxError.message : SyntaxError → String
  | .unclosedGroup => "a group is not closed"
  | .unopenedGroup => "a group is closed that was not opened"
  | .unclosedClass => "a class is not closed"
  | .unfinishedEscape => "an escape ends too early"
  | .unfinishedCount => "a count ends too early"
  | .nothingToRepeat => "a repetition has nothing to repeat"
  | .invalidCount => "a count is not valid"
  | .unknownEscape => "an escape is not known"
  | .invalidCodePoint => "an escape names no character"
  | .invalidRange => "a range of a class is not valid"
  | .unknownProperty => "a property is not known"
  | .unknownBoundary => "a boundary is not known"
  | .unknownFlag => "a group has flags that are not known"
  | .invalidGroupName => "a group has a name that is not valid"
  | .repeatedGroupName => "two groups have the same name"
  | .tooLarge => "a repetition is too large"
  | .tooDeep => "groups, classes or repetitions are nested too deeply"

inductive Escaped where
  | char (c : Char)
  | chars (set : CharSet)
  | property (name : List Char) (negated : Bool)
  | assert (condition : Assertion)
  deriving DecidableEq, Repr

inductive Escape where
  | start
  /-- Hexadecimal digits follow, so many of them unless there is a brace. -/
  | code (width : Nat)
  | digits (left value : Nat)
  | braced (value : Nat) (any : Bool)
  /-- The name of a property follows, one letter unless there is a brace. -/
  | property (negated : Bool)
  | propertyName (negated : Bool) (read : List Char)
  deriving DecidableEq, Repr

def scalar? (code : Nat) : Option Char :=
  if code.isValidChar then some (Char.ofNat code) else none

namespace Escape

/-- An escape of one character: punctuation and control characters stand for themselves. -/
def simple? (c : Char) : Option Escaped :=
  match c with
  | 'd' => some (.chars .digit)
  | 'D' => some (.chars (.compl .digit))
  | 's' => some (.chars .space)
  | 'S' => some (.chars (.compl .space))
  | 'w' => some (.chars .word)
  | 'W' => some (.chars (.compl .word))
  | 'b' => some (.assert .wordBoundary)
  | 'B' => some (.assert .notWordBoundary)
  | '<' => some (.assert .wordStart)
  | '>' => some (.assert .wordEnd)
  | 'A' => some (.assert .textStart)
  | 'z' => some (.assert .textEnd)
  | 'a' => some (.char '\x07')
  | 'f' => some (.char '\x0c')
  | 'n' => some (.char '\n')
  | 'r' => some (.char '\r')
  | 't' => some (.char '\t')
  | 'v' => some (.char '\x0b')
  | c => if c.toNat < 128 && !c.isAlphanum then some (.char c) else none

def step : Escape → Char → Except SyntaxError (Escape ⊕ Escaped)
  | .start, c =>
    match c with
    | 'x' => .ok (.inl (.code 2))
    | 'u' => .ok (.inl (.code 4))
    | 'U' => .ok (.inl (.code 8))
    | 'p' => .ok (.inl (.property false))
    | 'P' => .ok (.inl (.property true))
    | c =>
      match simple? c with
      | some escaped => .ok (.inr escaped)
      | none => .error .unknownEscape
  | .code width, c =>
    if c = '\x7b' then .ok (.inl (.braced 0 false)) else digit (width - 1) 0 c
  | .digits left value, c => digit (left - 1) value c
  | .braced value any, c =>
    if c = '\x7d' then
      if any then finish value else .error .invalidCodePoint
    else
      match hexValue? c with
      | some d => .ok (.inl (.braced (value * 16 + d) true))
      | none => .error .invalidCodePoint
  | .property negated, c =>
    if c = '\x7b' then .ok (.inl (.propertyName negated []))
    else if c = '\\' then .error .unknownProperty
    else .ok (.inr (.property [c] negated))
  | .propertyName negated read, c =>
    if c = '\x7d' then .ok (.inr (.property read.reverse negated))
    else .ok (.inl (.propertyName negated (c :: read)))
where
  finish (value : Nat) : Except SyntaxError (Escape ⊕ Escaped) :=
    match scalar? value with
    | some c => .ok (.inr (.char c))
    | none => .error .invalidCodePoint
  digit (left value : Nat) (c : Char) : Except SyntaxError (Escape ⊕ Escaped) :=
    match hexValue? c with
    | some d => if left = 0 then finish (value * 16 + d) else .ok (.inl (.digits left (value * 16 + d)))
    | none => .error .invalidCodePoint

end Escape

def propertySet (properties : Properties) (name : List Char) (caseless negated : Bool) :
    Except SyntaxError CharSet :=
  match properties name with
  | some set => .ok (set.adjust caseless negated)
  | none => .error .unknownProperty

end Lexigram.Regex
