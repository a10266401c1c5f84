import Lexigram.Grammar.Stream

/-! # Parsing

A parse takes the first derivation of the start symbol that reaches the end of the tokens. The order in
which derivations are enumerated is what resolves ambiguity.
-/

namespace Lexigram

inductive ParseError where
  | noDerivation (attempts : Nat)
  | budgetExhausted (attempts limit : Nat)
  | reduction (e : ReductionError)
  deriving DecidableEq, Repr

namespace ParseError

def message : ParseError → String
  | .noDerivation attempts =>
    "No derivation consumes the full input after " ++ toString attempts ++ " attempts"
  | .budgetExhausted attempts limit =>
    "Gave up after " ++ toString attempts ++ " attempts (limit " ++ toString limit ++ ")"
  | .reduction e => e.message

def attempts? : ParseError → Option Nat
  | .noDerivation attempts => some attempts
  | .budgetExhausted attempts _ => some attempts
  | .reduction _ => none

end ParseError

structure Parsed (V : Type) where
  value : V
  attempts : Nat
  deriving DecidableEq, Repr

structure ParserConfig where
  /-- The number of derivations after which a parse gives up. -/
  maxAttempts : Option Nat := none
  deriving DecidableEq, Repr

structure Parser (V : Type) where
  grammar : Grammar V
  config : ParserConfig := {}

namespace Parser

variable {V : Type} [OfToken V]

def stream (p : Parser V) (tokens : List Token) : Except Halt (Stream V) :=
  p.grammar.stream tokens p.grammar.start 0 tokens.length none

/-- What an item means for a parse that has pulled so many items with it, unless it goes on. -/
def decide? (p : Parser V) (size attempts : Nat) : Option (Item V) → Option (Except ParseError (Parsed V))
  | none => some (.error (.noDerivation attempts))
  | some (.error e) => some (.error (.reduction e))
  | some (.ok d) =>
    if d.next = size then some (.ok ⟨d.value, attempts⟩)
    else
      match p.config.maxAttempts with
      | some limit =>
        if limit ≤ attempts then some (.error (.budgetExhausted attempts limit)) else none
      | none => none

def search (p : Parser V) (tokens : List Token) :
    Nat → Nat → Stream V → Traced (Call V) (Except ParseError (Parsed V))
  | 0, _, _ => Traced.halt .outOfFuel
  | fuel + 1, attempts, stream => do
    let (item, stream) ← stream.pull p.grammar tokens fuel
    let attempts := if item.isSome then attempts + 1 else attempts
    match p.decide? tokens.length attempts item with
    | some answer => pure answer
    | none => search p tokens fuel attempts stream

def parse (p : Parser V) (tokens : List Token) (fuel : Nat) :
    Traced (Call V) (Except ParseError (Parsed V)) := do
  p.search tokens fuel 0 (← Traced.ofExcept (p.stream tokens))

end Parser

end Lexigram
