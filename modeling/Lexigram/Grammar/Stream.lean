import Lexigram.Enumeration.Chain
import Lexigram.Enumeration.Merge
import Lexigram.Grammar.Basic

/-! # Streams of derivations

The derivations of a symbol over a range of tokens are enumerated lazily. A terminal has at most one. A
rule has one for every chain of derivations of its symbols in which each begins where the one before it
ends. A non-terminal merges the streams of its rules.

When a rule begins with a non-terminal and has a terminal further on, the non-terminal can only reach up
to the last occurrence of that terminal in the range. Bounding it there is what makes left recursion
end, since every derivation takes at least one token.
-/

namespace Lexigram

structure Derivation (V : Type) where
  value : V
  next : Nat
  deriving DecidableEq, Repr

structure ReductionError where
  nonTerminal : String
  rule : String
  cause : ReduceError
  deriving DecidableEq, Repr

def ReductionError.message (e : ReductionError) : String :=
  "Reduction of " ++ e.nonTerminal ++ " -> " ++ e.rule ++ " failed: " ++ e.cause.message

structure Call (V : Type) where
  owner : String
  label : String
  tag : Option String
  arguments : List V
  outcome : Except ReduceError V

abbrev Item (V : Type) :=
  Except ReductionError (Derivation V)

inductive Stream (V : Type) where
  | once (derivation : Derivation V)
  | inTurn (streams : List (Stream V))
  | inOrder (streams : List (Stream V))
  /-- The chains of a rule's symbols, from `start` on and up to `stop`. -/
  | chains (rule : Rule V) (start stop : Nat)
      (state : Enumeration.Chain Symbol (Stream V) (Derivation V))

namespace Stream

def empty {V : Type} : Stream V :=
  .inOrder []

end Stream

/-- The last place in `[start, stop)` that holds a token of the terminal, or `start`. -/
def lastOccurrence (tokens : List Token) (start stop : Nat) (terminal : Terminal) : Nat :=
  let window := (tokens.take stop).drop start
  match window.reverse.findIdx? (·.isOf terminal) with
  | some back => start + (window.length - 1 - back)
  | none => start

variable {V : Type}

/-- The chains of the rule's symbols. A rule without symbols or without a reducer derives nothing. -/
def Rule.stream (rule : Rule V) (start stop : Nat) : Stream V :=
  if start < stop && rule.hasReducer then
    match rule.symbols with
    | [] => .empty
    | first :: behind => .chains rule start stop (.fresh first behind)
  else .empty

namespace NonTerminal

/-- Where the search for the non-terminal ends, given the hint of the rule it leads. -/
def bound (nt : NonTerminal V) (tokens : List Token) (start stop : Nat) (hint : Option Terminal) :
    Nat :=
  match hint with
  | some terminal => if nt.hintPruning then lastOccurrence tokens start stop terminal else stop
  | none => stop

def stream (nt : NonTerminal V) (tokens : List Token) (start stop : Nat) (hint : Option Terminal) :
    Stream V :=
  if start < stop then
    let streams := nt.rules.map (·.stream start (nt.bound tokens start stop hint))
    match nt.alternation with
    | .roundRobin => .inTurn streams
    | .sequential => .inOrder streams
  else .empty

end NonTerminal

def Terminal.stream [OfToken V] (terminal : Terminal) (tokens : List Token) (start stop : Nat) :
    Stream V :=
  match tokens[start]? with
  | some token =>
    if start < stop && token.isOf terminal then .once ⟨OfToken.ofToken token, start + 1⟩ else .empty
  | none => .empty

/-- Every derivation of the symbol that begins at `start` and ends at or before `stop`. -/
def Grammar.stream [OfToken V] (g : Grammar V) (tokens : List Token) (symbol : Symbol)
    (start stop : Nat) (hint : Option Terminal) : Except Halt (Stream V) :=
  match symbol with
  | .terminal t => .ok (t.stream tokens start stop)
  | .nonTerminal index =>
    match g.get? index with
    | some nt => .ok (nt.stream tokens start stop hint)
    | none => .error (.dangling index)

namespace Rule

def symbolStream [OfToken V] (g : Grammar V) (tokens : List Token) (rule : Rule V) (start stop : Nat)
    (symbol : Symbol) : Option (Derivation V) → Except Halt (Stream V)
  | none => g.stream tokens symbol start stop rule.hint
  | some previous => g.stream tokens symbol previous.next stop none

def reduce (rule : Rule V) (start : Nat) (chain : List (Derivation V)) :
    Traced (Call V) (Option (Item V)) := do
  match rule.reducer with
  | none => pure none
  | some reducer =>
    let arguments := chain.map (·.value)
    let outcome := reducer.apply arguments
    Traced.log ⟨rule.owner, rule.label, reducer.tag, arguments, outcome⟩
    match outcome with
    | .ok value => pure (some (.ok ⟨value, (chain.getLast?.map (·.next)).getD start⟩))
    | .error cause => pure (some (.error ⟨rule.owner, rule.label, cause⟩))

end Rule

namespace Stream

/-- The next item, and what is left after it, given how the streams inside are pulled. A chain may take
so many steps. -/
def next [OfToken V] (g : Grammar V) (tokens : List Token)
    (pull : Stream V → Traced (Call V) (Option (Item V) × Stream V)) (steps : Nat) :
    Stream V → Traced (Call V) (Option (Item V) × Stream V)
  | .once derivation => pure (some (.ok derivation), .empty)
  | .inTurn streams => do
    let (item, streams) ← Enumeration.nextInTurn pull streams
    pure (item, .inTurn streams)
  | .inOrder streams => do
    let (item, streams) ← Enumeration.nextInOrder pull streams
    pure (item, .inOrder streams)
  | .chains rule start stop state => do
    let make symbol previous :=
      Traced.ofExcept (rule.symbolStream g tokens start stop symbol previous)
    let (chain, state) ← state.next make pull steps
    let stream := .chains rule start stop state
    match chain with
    | none => pure (none, stream)
    | some (.error e) => pure (some (.error e), stream)
    | some (.ok chain) => pure (← rule.reduce start chain, stream)

/-- The next item, and what is left after it. Every level of nesting and every step along a chain takes
one unit of fuel. -/
def pull [OfToken V] (g : Grammar V) (tokens : List Token) :
    Nat → Stream V → Traced (Call V) (Option (Item V) × Stream V)
  | 0, _ => Traced.halt .outOfFuel
  | fuel + 1, stream => stream.next g tokens (pull g tokens fuel) fuel

end Stream

end Lexigram
