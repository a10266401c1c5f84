import Lexigram.Text.Basic
import Lexigram.Token

/-! # Grammars

A grammar is a list of non-terminals, each with its alternative rules. A rule refers to a non-terminal
by its place in the list, so grammars may be recursive. The value of a rule is computed from the values
of its symbols by the rule's reducer.
-/

namespace Lexigram

class OfToken (V : Type) where
  ofToken : Token → V

instance : OfToken String :=
  ⟨Token.text⟩

inductive Alternation where
  | roundRobin
  | sequential
  deriving DecidableEq, Repr

namespace Alternation

def all : List Alternation :=
  [.roundRobin, .sequential]

def name : Alternation → String
  | .roundRobin => "round_robin"
  | .sequential => "sequential"

def ofName? (name : String) : Option Alternation :=
  all.find? (·.name == name)

theorem ofName?_name (a : Alternation) : ofName? a.name = some a := by
  cases a <;> decide

instance : Inhabited Alternation :=
  ⟨.roundRobin⟩

end Alternation

inductive Symbol where
  | terminal (t : Terminal)
  | nonTerminal (index : Nat)
  deriving DecidableEq, Repr

def Symbol.terminal? : Symbol → Option Terminal
  | .terminal t => some t
  | .nonTerminal _ => none

structure ReduceError where
  message : String
  deriving DecidableEq, Repr

structure Reducer (V : Type) where
  apply : List V → Except ReduceError V
  tag : Option String := none

structure Rule (V : Type) where
  symbols : List Symbol
  reducer : Option (Reducer V) := none
  owner : String := ""
  label : String := ""

namespace Rule

variable {V : Type}

/-- The first terminal of the rule, which bounds how far a leading non-terminal can reach. -/
def hint (rule : Rule V) : Option Terminal :=
  rule.symbols.findSome? Symbol.terminal?

def hasReducer (rule : Rule V) : Bool :=
  rule.reducer.isSome

def describe (rule : Rule V) : String :=
  "Rule \x7b owner: " ++ Text.quoteVisibly rule.owner ++ ", label: " ++
    Text.quoteVisibly rule.label ++ ", reducer: " ++ (if rule.hasReducer then "true" else "false") ++
    " \x7d"

end Rule

structure NonTerminal (V : Type) where
  name : String
  rules : List (Rule V)
  hintPruning : Bool
  alternation : Alternation

structure Grammar (V : Type) where
  nonTerminals : List (NonTerminal V)
  start : Symbol

structure DanglingReference where
  index : Nat
  deriving DecidableEq, Repr

namespace Grammar

variable {V : Type}

def get? (g : Grammar V) (index : Nat) : Option (NonTerminal V) :=
  g.nonTerminals[index]?

def find? (g : Grammar V) (name : String) : Option Nat :=
  g.nonTerminals.findIdx? (·.name == name)

def symbolName (g : Grammar V) : Symbol → Except DanglingReference String
  | .terminal t => .ok t.name
  | .nonTerminal index =>
    match g.get? index with
    | some nt => .ok nt.name
    | none => .error ⟨index⟩

def symbols (g : Grammar V) : List Symbol :=
  g.start :: g.nonTerminals.flatMap fun nt => nt.rules.flatMap (·.symbols)

def distinct (terminals : List Terminal) : List Terminal :=
  terminals.foldl (fun kept t => if kept.any (·.same t) then kept else kept ++ [t]) []

def terminals (g : Grammar V) : List Terminal :=
  distinct (g.symbols.filterMap Symbol.terminal?)

def line (nt : NonTerminal V) : String :=
  nt.name ++ " ::= " ++ " | ".intercalate (nt.rules.map (·.label)) ++ "\n"

/-- The grammar as text: the name of its start symbol, then its rules. -/
def text (g : Grammar V) : Except DanglingReference String := do
  let start ← g.symbolName g.start
  .ok ("start: " ++ start ++ "\n" ++ String.join (g.nonTerminals.map line))

end Grammar

end Lexigram
