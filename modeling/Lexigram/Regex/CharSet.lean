import Lexigram.Unicode.CaseOrbit
import Lexigram.Unicode.Category

/-! # Sets of characters

A class of an expression, kept as it was written: ranges and named sets under union, intersection,
complement and caseless closure. The sets that have a name of their own are those of ASCII and the
properties of the Unicode standard; what a property is called, and which characters have it, is left open.
-/

namespace Lexigram

inductive CharSet where
  | empty
  | range (low high : Char)
  | digit
  | space
  | word
  | letter
  | union (a b : CharSet)
  | inter (a b : CharSet)
  | compl (a : CharSet)
  | caseless (a : CharSet)
  deriving DecidableEq, Repr

namespace CharSet

def single (c : Char) : CharSet :=
  .range c c

def ofRanges (ranges : List (Char × Char)) : CharSet :=
  ranges.foldr (fun (low, high) set => .union (.range low high) set) .empty

def has : CharSet → Char → Bool
  | .empty, _ => false
  | .range low high, c => low ≤ c && c ≤ high
  | .digit, c => Unicode.isDigit c
  | .space, c => Unicode.isSpace c
  | .word, c => Unicode.isWord c
  | .letter, c => Unicode.isLetter c
  | .union a b, c => a.has c || b.has c
  | .inter a b, c => a.has c && b.has c
  | .compl a, c => !a.has c
  | .caseless a, c => (Unicode.caseOrbit c).any a.has

theorem has_single_iff {c d : Char} : (single c).has d = true ↔ d = c := by
  simp only [single, has, Bool.and_eq_true, decide_eq_true_eq]
  exact ⟨fun ⟨h, h'⟩ => Char.le_antisymm h' h, fun h => h ▸ ⟨Char.le_refl _, Char.le_refl _⟩⟩

@[simp] theorem has_union (a b : CharSet) (c : Char) : (union a b).has c = (a.has c || b.has c) :=
  rfl

/-- Case is made to vary before the set is negated. -/
def adjust (a : CharSet) (caseless : Bool) (negated : Bool := false) : CharSet :=
  let set := if caseless then .caseless a else a
  if negated then .compl set else set

def asciiSets : List (String × CharSet) :=
  [ ("alnum", ofRanges [('0', '9'), ('A', 'Z'), ('a', 'z')]),
    ("alpha", ofRanges [('A', 'Z'), ('a', 'z')]),
    ("ascii", ofRanges [('\x00', '\x7f')]),
    ("blank", ofRanges [('\t', '\t'), (' ', ' ')]),
    ("cntrl", ofRanges [('\x00', '\x1f'), ('\x7f', '\x7f')]),
    ("digit", ofRanges [('0', '9')]),
    ("graph", ofRanges [('!', '~')]),
    ("lower", ofRanges [('a', 'z')]),
    ("print", ofRanges [(' ', '~')]),
    ("punct", ofRanges [('!', '/'), (':', '@'), ('[', '\x60'), ('\x7b', '~')]),
    ("space", ofRanges [('\t', '\r'), (' ', ' ')]),
    ("upper", ofRanges [('A', 'Z')]),
    ("word", ofRanges [('0', '9'), ('A', 'Z'), ('_', '_'), ('a', 'z')]),
    ("xdigit", ofRanges [('0', '9'), ('A', 'F'), ('a', 'f')]) ]

def ascii? (text : List Char) : Option (CharSet × Bool) :=
  asciiSets.findSome? fun (name, set) =>
    if text = ':' :: name.toList ++ [':'] then some (set, false)
    else if text = ':' :: '^' :: name.toList ++ [':'] then some (set, true)
    else none

end CharSet

inductive SetOperation where
  | intersection
  | difference
  | symmetricDifference
  deriving DecidableEq, Repr

namespace SetOperation

/-- The operation that the character stands for when it is written twice. -/
def ofChar? : Char → Option SetOperation
  | '&' => some .intersection
  | '-' => some .difference
  | '~' => some .symmetricDifference
  | _ => none

def apply : SetOperation → CharSet → CharSet → CharSet
  | .intersection, a, b => .inter a b
  | .difference, a, b => .inter a (.compl b)
  | .symmetricDifference, a, b => .union (.inter a (.compl b)) (.inter b (.compl a))

end SetOperation

abbrev Properties :=
  List Char → Option CharSet

namespace Properties

/-- Case, blanks, underscores, hyphens and a leading `is` make no difference to the name of a property. -/
def normalize (name : List Char) : List Char :=
  let name := if (name.take 2).map Char.toLower = ['i', 's'] then name.drop 2 else name
  (name.filter fun c => c != ' ' && c != '_' && c != '-').map Char.toLower

def known : Properties := fun name =>
  match String.ofList (normalize name) with
  | "any" => some (.compl .empty)
  | "ascii" => some (.range '\x00' '\x7f')
  | "alphabetic" | "alpha" => some .letter
  | "whitespace" | "wspace" | "space" => some .space
  | "decimalnumber" | "digit" | "nd" => some .digit
  | _ => none

end Properties

end Lexigram
