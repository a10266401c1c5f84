import Lexigram.Config
import Lexigram.Lexer.Tokens

/-! # Languages

A language is a lexer together with a parser whose terminals the lexer produces. It turns a text into a
value. The errors of all its parts come together here, each with the stage that it comes from.
-/

namespace Lexigram

inductive Error where
  | lexeme (e : LexError)
  | pattern (e : InvalidPattern)
  | grammar (e : GrammarError)
  | parse (e : ParseError)
  | config (message : String)
  deriving DecidableEq, Repr

namespace Error

def message : Error → String
  | .lexeme e => "Tokenize error: " ++ e.message
  | .pattern e => "Tokenize error: " ++ e.message
  | .grammar e => "Grammar error: " ++ e.message
  | .parse e => "Parse error: " ++ e.message
  | .config message => "Config error: " ++ message

def ofConfig (e : ConfigError) : Error :=
  .config e.message

end Error

structure Language (V : Type) where
  lexer : Lexer
  parser : Parser V

namespace Language

variable {V : Type}

def missing? (lexer : Lexer) (grammar : Grammar V) : Option Terminal :=
  grammar.terminals.find? (!lexer.produces ·)

/-- Joins the two, unless the grammar uses a terminal that no text could give. -/
def ofParts (lexer : Lexer) (parser : Parser V) : Except GrammarError (Language V) :=
  match missing? lexer parser.grammar with
  | some terminal => .error (.unregisteredTerminal terminal.name)
  | none => .ok ⟨lexer, parser⟩

def ofConfig (lexer : Lexer) (grammar : Grammar V) (config : Config) :
    Except GrammarError (Language V) :=
  ofParts lexer ⟨grammar, config.parser⟩

theorem ofParts_ok_iff {lexer : Lexer} {parser : Parser V} {language : Language V} :
    ofParts lexer parser = .ok language ↔
      language = ⟨lexer, parser⟩ ∧ ∀ t ∈ parser.grammar.terminals, lexer.produces t = true := by
  unfold ofParts
  split
  · rename_i t ht
    have hmem := List.mem_of_find?_eq_some ht
    have hprop := List.find?_some ht
    constructor
    · intro h
      simp at h
    · rintro ⟨_, hall⟩
      simp [hall t hmem] at hprop
  · rename_i hnone
    have hall : ∀ t ∈ parser.grammar.terminals, lexer.produces t = true := by
      simpa [missing?] using hnone
    constructor
    · intro h
      exact ⟨(Except.ok.inj h).symm, hall⟩
    · rintro ⟨rfl, _⟩
      rfl

variable [OfToken V]

def parse (language : Language V) (text : String) (fuel : Nat) :
    Traced (Call V) (Except Error (Parsed V)) := do
  match language.lexer.tokens text with
  | .error e => pure (.error (.lexeme e))
  | .ok tokens =>
    match ← language.parser.parse tokens fuel with
    | .error e => pure (.error (.parse e))
    | .ok parsed => pure (.ok parsed)

end Language

end Lexigram
