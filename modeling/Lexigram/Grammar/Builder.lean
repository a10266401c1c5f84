import Lexigram.Grammar.Basic

/-! # Building grammars

Non-terminals may be referred to before they are defined. They are numbered in the order in which they
are first mentioned. A grammar is complete when a start symbol was given, every non-terminal was defined
and every rule has a reducer. Whether the start symbol was ever mentioned is not looked at.
-/

namespace Lexigram

structure GrammarConfig where
  hintPruning : Bool := true
  alternation : Alternation := .roundRobin
  deriving DecidableEq, Repr

inductive GrammarError where
  | missingReducer (nonTerminal rule : String)
  | undefinedNonTerminal (name : String)
  | missingStart
  | unregisteredTerminal (name : String)
  deriving DecidableEq, Repr

namespace GrammarError

def message : GrammarError → String
  | .missingReducer nonTerminal rule =>
    "Rule " ++ nonTerminal ++ " -> " ++ rule ++ " has no reduction function"
  | .undefinedNonTerminal name => "Non-terminal " ++ name ++ " is referenced but never defined"
  | .missingStart => "No start symbol designated"
  | .unregisteredTerminal name =>
    "Terminal " ++ name ++ " is used by the grammar but never produced by the lexer"

end GrammarError

structure GrammarBuilder (V : Type) where
  /-- The non-terminals mentioned so far, and whether they were defined. -/
  entries : List (NonTerminal V × Bool) := []
  start : Option Symbol := none
  config : GrammarConfig := {}

namespace GrammarBuilder

variable {V : Type}

def find? (b : GrammarBuilder V) (name : String) : Option Nat :=
  b.entries.findIdx? (·.1.name == name)

/-- The number of the non-terminal of that name, which is mentioned now if it was not before. -/
def reference (b : GrammarBuilder V) (name : String) : Nat × GrammarBuilder V :=
  match b.find? name with
  | some index => (index, b)
  | none =>
    let nt := ⟨name, [], b.config.hintPruning, b.config.alternation⟩
    (b.entries.length, { b with entries := b.entries ++ [(nt, false)] })

def modify? (b : GrammarBuilder V) (index : Nat) (f : NonTerminal V × Bool → NonTerminal V × Bool) :
    Except DanglingReference (GrammarBuilder V) :=
  if index < b.entries.length then .ok { b with entries := b.entries.modify index f }
  else .error ⟨index⟩

theorem modify?_eq_ok_iff {b b' : GrammarBuilder V} {index : Nat}
    {f : NonTerminal V × Bool → NonTerminal V × Bool} : b.modify? index f = .ok b' ↔
      index < b.entries.length ∧ { b with entries := b.entries.modify index f } = b' := by
  unfold modify?
  split <;> simp_all only [Except.ok.injEq, true_and, false_and, reduceCtorEq]

/-- Like `reference`, and the non-terminal counts as defined, be it without rules. -/
def define (b : GrammarBuilder V) (name : String) : Nat × GrammarBuilder V :=
  let (index, b) := b.reference name
  (index, { b with entries := b.entries.modify index fun (nt, _) => (nt, true) })

def symbolName (b : GrammarBuilder V) : Symbol → Except DanglingReference String
  | .terminal t => .ok t.name
  | .nonTerminal index =>
    match b.entries[index]? with
    | some (nt, _) => .ok nt.name
    | none => .error ⟨index⟩

def addRule (b : GrammarBuilder V) (index : Nat) (rule : Rule V) :
    Except DanglingReference (GrammarBuilder V) := do
  let names ← rule.symbols.mapM b.symbolName
  b.modify? index fun (nt, _) =>
    let rule := { rule with owner := nt.name, label := " ".intercalate names }
    ({ nt with rules := nt.rules ++ [rule] }, true)

def setHintPruning (b : GrammarBuilder V) (index : Nat) (enabled : Bool) :
    Except DanglingReference (GrammarBuilder V) :=
  b.modify? index fun (nt, defined) => ({ nt with hintPruning := enabled }, defined)

def setAlternation (b : GrammarBuilder V) (index : Nat) (alternation : Alternation) :
    Except DanglingReference (GrammarBuilder V) :=
  b.modify? index fun (nt, defined) => ({ nt with alternation }, defined)

def setStart (b : GrammarBuilder V) (symbol : Symbol) : GrammarBuilder V :=
  { b with start := some symbol }

def entryError? : NonTerminal V × Bool → Option GrammarError
  | (nt, false) => some (.undefinedNonTerminal nt.name)
  | (nt, true) =>
    (nt.rules.find? (!·.hasReducer)).map fun rule => .missingReducer nt.name rule.label

def build (b : GrammarBuilder V) : Except GrammarError (Grammar V) :=
  match b.start with
  | none => .error .missingStart
  | some start =>
    match b.entries.findSome? entryError? with
    | some e => .error e
    | none => .ok ⟨b.entries.map (·.1), start⟩

theorem build_eq_ok_iff {b : GrammarBuilder V} {g : Grammar V} : b.build = .ok g ↔
    ∃ start, b.start = some start ∧ b.entries.findSome? entryError? = none ∧
      g = ⟨b.entries.map (·.1), start⟩ := by
  unfold build
  cases b.start with
  | none => exact ⟨nofun, nofun⟩
  | some start =>
    cases b.entries.findSome? entryError? with
    | none => simp [eq_comm]
    | some e => exact ⟨nofun, nofun⟩

end GrammarBuilder

end Lexigram
