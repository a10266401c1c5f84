import Lexigram.Regex.Match
import Lexigram.Regex.Reader
import Lexigram.Text.Basic

/-! # Patterns

A pattern is an expression that is looked for at the beginning of a text. Its source is put between
`^(?:` and `)` and read as a whole, so a source whose parentheses do not balance may still be read, and
what stands after its first unbalanced parenthesis is then not tied to the beginning.

A source without special characters also has a literal form, the text it matches.
-/

namespace Lexigram

structure Pattern where
  source : String
  regex : Regex
  literal : Option (List Char)
  deriving DecidableEq, Repr

namespace Pattern

/-- Characters with a meaning of their own in an expression, apart from the backslash. -/
def specialChars : List Char :=
  ['.', '^', '$', '*', '+', '?', '(', ')', '[', ']', '\x7b', '\x7d', '|']

/-- The text that a plain source stands for. A backslash makes any character plain that is neither an
ASCII letter nor an ASCII digit. -/
def literalForm : List Char → Option (List Char)
  | [] => some []
  | ['\\'] => none
  | '\\' :: c :: rest => if c.isAlphanum then none else (literalForm rest).map (c :: ·)
  | c :: rest => if specialChars.contains c then none else (literalForm rest).map (c :: ·)

def anchored (source : List Char) : List Char :=
  ['^', '(', '?', ':'] ++ source ++ [')']

def ofSource (source : String) (properties : Properties := .known) :
    Except Regex.SyntaxError Pattern := do
  let regex ← Regex.ofChars (anchored source.toList) properties
  .ok ⟨source, regex, literalForm source.toList⟩

def isEmpty (p : Pattern) : Bool :=
  p.source.isEmpty

/-- The text that the pattern finds, unless it is empty. -/
def find (p : Pattern) (input : List Char) : Option (List Char) :=
  match p.regex.search? input.toArray with
  | some (first, last) =>
    if first < last then
      match (input.drop first).take (last - first) with
      | [] => none
      | found => some found
    else none
  | none => none

theorem find_ne_nil {p : Pattern} {input found : List Char} (h : p.find input = some found) :
    found ≠ [] := by
  unfold find at h
  split at h
  · split at h
    · split at h
      · simp at h
      · rename_i hne
        simp only [Option.some.injEq] at h
        exact fun h' => hne (h.trans h')
    · simp at h
  · simp at h

/-- The pattern is blank itself, or takes a single blank character of the usual ones. -/
def matchesBlank (p : Pattern) : Bool :=
  p.literal.any (fun l => !l.isEmpty && l.all isBlank) ||
    [' ', '\t', '\n', '\r'].any fun c => p.find [c] == some [c]

end Pattern

end Lexigram
