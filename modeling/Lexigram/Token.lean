import Lexigram.Pattern
import Lexigram.Text.Position

/-! # Terminals and tokens

A terminal is a kind of lexeme: a name and the pattern that recognises it. Terminals have an identity
of their own, so two terminals may share name and pattern and still be different kinds. A token is a
lexeme of a terminal together with its place in the text.
-/

namespace Lexigram

structure InvalidPattern where
  name : String
  reason : String
  deriving DecidableEq, Repr

def InvalidPattern.message (e : InvalidPattern) : String :=
  "Invalid pattern for token " ++ e.name ++ ": " ++ e.reason

structure Terminal where
  /-- Tells terminals apart. -/
  id : Nat
  name : String
  pattern : Pattern
  deriving DecidableEq, Repr

namespace Terminal

def ofSource (id : Nat) (name source : String) : Except InvalidPattern Terminal :=
  match Pattern.ofSource source with
  | .ok pattern => .ok ⟨id, name, pattern⟩
  | .error reason => .error ⟨name, reason.message⟩

/-- The two are one and the same terminal. -/
def same (a b : Terminal) : Bool :=
  a.id == b.id

@[simp] theorem same_iff {a b : Terminal} : a.same b = true ↔ a.id = b.id := by
  simp [same]

end Terminal

structure Token where
  terminal : Terminal
  text : String
  /-- Byte offsets of the lexeme in the text it was found in. -/
  start : Nat
  stop : Nat
  line : Nat
  column : Nat
  deriving Repr

namespace Token

def kind (t : Token) : String :=
  t.terminal.name

def isOf (t : Token) (terminal : Terminal) : Bool :=
  t.terminal.same terminal

/-- Equal place and text, and one and the same terminal. -/
def equal (a b : Token) : Bool :=
  a.terminal.same b.terminal && a.text == b.text && a.start == b.start && a.stop == b.stop &&
    a.line == b.line && a.column == b.column

instance : BEq Token :=
  ⟨equal⟩

instance : ToString Token :=
  ⟨fun t => t.kind ++ ": " ++ t.text ++ " (" ++ toString t.line ++ ", " ++ toString t.column ++ ")"⟩

end Token

end Lexigram
