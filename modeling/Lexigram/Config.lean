import Lexigram.Grammar.Builder
import Lexigram.Json.Record
import Lexigram.Lexer.Basic
import Lexigram.Parser

/-! # Configuration

The settings of all parts together, as they are read from JSON and written to it.
-/

namespace Lexigram

open Json (RecordField readRecord)

structure Config where
  lexer : LexerConfig := {}
  grammar : GrammarConfig := {}
  parser : ParserConfig := {}
  deriving DecidableEq, Repr

inductive ConfigError where
  | invalidText
  | invalidFile
  | missingFile
  deriving DecidableEq, Repr

def ConfigError.message : ConfigError → String
  | .invalidText => "failed to parse config"
  | .invalidFile => "failed to parse config file"
  | .missingFile => "failed to open config file"

/-! ## Reading

What a text gives is read first, into a slot for each field of a record. Each slot that stays empty is
filled with the default of its field in the end.
-/

/-- An alternation by its name, or as an object with that name and nothing else. -/
def Alternation.ofJson : Json → Option Alternation
  | .string (some name) => ofName? (String.ofList name)
  | .object [(some name, .null)] => ofName? (String.ofList name)
  | _ => none

structure LexerConfig.Given where
  diagnostics : Option Bool := none

namespace LexerConfig.Given

def slots : List (RecordField LexerConfig.Given) :=
  [⟨"diagnostics", fun value s => (Json.readBool value).map fun b => { s with diagnostics := some b }⟩]

def ofJson : Json → Option LexerConfig.Given :=
  readRecord slots {}

def fill (given : LexerConfig.Given) : LexerConfig where
  diagnostics := given.diagnostics.getD true

end LexerConfig.Given

def LexerConfig.ofJson (value : Json) : Option LexerConfig :=
  (Given.ofJson value).map Given.fill

structure GrammarConfig.Given where
  hintPruning : Option Bool := none
  alternation : Option Alternation := none

namespace GrammarConfig.Given

def slots : List (RecordField GrammarConfig.Given) :=
  [⟨"hint_pruning", fun value s => (Json.readBool value).map fun b => { s with hintPruning := some b }⟩,
    ⟨"alternation", fun value s =>
      (Alternation.ofJson value).map fun a => { s with alternation := some a }⟩]

def ofJson : Json → Option GrammarConfig.Given :=
  readRecord slots {}

def fill (given : GrammarConfig.Given) : GrammarConfig where
  hintPruning := given.hintPruning.getD true
  alternation := given.alternation.getD default

end GrammarConfig.Given

def GrammarConfig.ofJson (value : Json) : Option GrammarConfig :=
  (Given.ofJson value).map Given.fill

structure ParserConfig.Given where
  maxAttempts : Option (Option Nat) := none

namespace ParserConfig.Given

def slots : List (RecordField ParserConfig.Given) :=
  [⟨"max_attempts", fun value s =>
    (Json.readOption Json.readSize value).map fun n => { s with maxAttempts := some n }⟩]

def ofJson : Json → Option ParserConfig.Given :=
  readRecord slots {}

def fill (given : ParserConfig.Given) : ParserConfig where
  maxAttempts := given.maxAttempts.getD none

end ParserConfig.Given

def ParserConfig.ofJson (value : Json) : Option ParserConfig :=
  (Given.ofJson value).map Given.fill

/-- A section may be given without any of its settings. -/
structure Config.Given where
  lexer : Option LexerConfig.Given := none
  grammar : Option GrammarConfig.Given := none
  parser : Option ParserConfig.Given := none

namespace Config.Given

def slots : List (RecordField Config.Given) :=
  [⟨"lexer", fun value s => (LexerConfig.Given.ofJson value).map fun g => { s with lexer := some g }⟩,
    ⟨"grammar", fun value s =>
      (GrammarConfig.Given.ofJson value).map fun g => { s with grammar := some g }⟩,
    ⟨"parser", fun value s => (ParserConfig.Given.ofJson value).map fun g => { s with parser := some g }⟩]

def ofJson : Json → Option Config.Given :=
  readRecord slots {}

/-- Each setting that is missing from a section has its own default, and a missing section is the default
section. -/
def fill (given : Config.Given) : Config where
  lexer := (given.lexer.map LexerConfig.Given.fill).getD {}
  grammar := (given.grammar.map GrammarConfig.Given.fill).getD {}
  parser := (given.parser.map ParserConfig.Given.fill).getD {}

end Config.Given

def Config.ofJson (value : Json) : Option Config :=
  (Given.ofJson value).map Given.fill

def readConfig {α : Type} (read : Json → Option α) (text : String) : Except ConfigError α :=
  match (Json.ofText text.toList).bind read with
  | some config => .ok config
  | none => .error .invalidText

def Config.ofText (text : String) : Except ConfigError Config :=
  readConfig Config.ofJson text

def Config.ofFile (contents : Option String) : Except ConfigError Config :=
  match contents with
  | none => .error .missingFile
  | some text =>
    match Config.ofText text with
    | .ok config => .ok config
    | .error _ => .error .invalidFile

/-! ## Writing

A configuration is written as JSON without spaces, with all fields in their order.
-/

def writeBool (b : Bool) : List Char :=
  if b then "true".toList else "false".toList

def writeSize : Option Nat → List Char
  | none => "null".toList
  | some n => Nat.toDigits 10 n

def writeMembers (members : List (String × List Char)) : List Char :=
  '\x7b' :: (List.intercalate [','] (members.map fun (name, value) =>
    Json.quote name.toList ++ ':' :: value)) ++ ['\x7d']

def Alternation.toJson (a : Alternation) : List Char :=
  Json.quote a.name.toList

def LexerConfig.toJson (c : LexerConfig) : List Char :=
  writeMembers [("diagnostics", writeBool c.diagnostics)]

def GrammarConfig.toJson (c : GrammarConfig) : List Char :=
  writeMembers [("hint_pruning", writeBool c.hintPruning), ("alternation", c.alternation.toJson)]

def ParserConfig.toJson (c : ParserConfig) : List Char :=
  writeMembers [("max_attempts", writeSize c.maxAttempts)]

def Config.toJson (c : Config) : List Char :=
  writeMembers
    [("lexer", c.lexer.toJson), ("grammar", c.grammar.toJson), ("parser", c.parser.toJson)]

end Lexigram
