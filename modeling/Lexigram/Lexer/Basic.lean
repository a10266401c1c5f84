import Lexigram.Token

/-! # Lexers

A lexer holds significant terminals, whose lexemes become tokens, and ignorable ones, whose lexemes are
dropped. Terminals are tried in the order in which they were registered. Registering a terminal that
can never do what it is registered for is reported as a warning and has no other effect.
-/

namespace Lexigram

inductive Warning where
  | emptyPattern (token : String)
  | matchesBlank (token : String)
  /-- An earlier terminal takes a beginning of every lexeme of the later one. -/
  | shadowed (token : String) (earlier : String)
  | matchedAndIgnored (token : String)
  deriving DecidableEq, Repr

def Warning.message : Warning → String
  | .emptyPattern token => "token " ++ token ++ " has an empty pattern; it will never be matched"
  | .matchesBlank token =>
    "token " ++ token ++ " matches whitespace, which is skipped before matching; " ++
      "it will never be produced from it"
  | .shadowed token earlier =>
    "token " ++ token ++ " will never be matched because " ++ earlier ++
      " is registered first and matches a prefix of it; register " ++ token ++ " before " ++ earlier
  | .matchedAndIgnored token =>
    "token " ++ token ++ " is both matched and ignored; it will not be ignored"

structure LexerConfig where
  diagnostics : Bool := true
  deriving DecidableEq, Repr

structure Lexer where
  significant : List Terminal := []
  ignorable : List Terminal := []
  warnings : List Warning := []
  config : LexerConfig := {}
  deriving Repr

namespace Lexer

def produces (lexer : Lexer) (terminal : Terminal) : Bool :=
  lexer.significant.any (·.same terminal)

def ignores (lexer : Lexer) (terminal : Terminal) : Bool :=
  lexer.ignorable.any (·.same terminal)

def warn (lexer : Lexer) (found : List Warning) : Lexer :=
  if lexer.config.diagnostics then { lexer with warnings := lexer.warnings ++ found } else lexer

/-- The significant terminals that find something in the text a later terminal stands for. -/
def shadowing (lexer : Lexer) (terminal : Terminal) : List Terminal :=
  match terminal.pattern.literal with
  | none | some [] => []
  | some literal => lexer.significant.filter fun earlier => (earlier.pattern.find literal).isSome

def findings (lexer : Lexer) (terminal : Terminal) : List Warning :=
  (if terminal.pattern.isEmpty then [.emptyPattern terminal.name]
    else if terminal.pattern.matchesBlank then [.matchesBlank terminal.name]
    else []) ++
  (if lexer.ignores terminal then [.matchedAndIgnored terminal.name] else []) ++
  (lexer.shadowing terminal).map fun earlier => .shadowed terminal.name earlier.name

def register (lexer : Lexer) (terminal : Terminal) : Lexer :=
  { lexer.warn (lexer.findings terminal) with significant := lexer.significant ++ [terminal] }

def ignore (lexer : Lexer) (terminal : Terminal) : Lexer :=
  { lexer.warn (if lexer.produces terminal then [.matchedAndIgnored terminal.name] else []) with
    ignorable := lexer.ignorable ++ [terminal] }

@[simp] theorem significant_warn (lexer : Lexer) (found : List Warning) :
    (lexer.warn found).significant = lexer.significant := by
  unfold warn; split <;> rfl

@[simp] theorem ignorable_warn (lexer : Lexer) (found : List Warning) :
    (lexer.warn found).ignorable = lexer.ignorable := by
  unfold warn; split <;> rfl

@[simp] theorem significant_register (lexer : Lexer) (terminal : Terminal) :
    (lexer.register terminal).significant = lexer.significant ++ [terminal] :=
  rfl

@[simp] theorem ignorable_register (lexer : Lexer) (terminal : Terminal) :
    (lexer.register terminal).ignorable = lexer.ignorable := by
  simp [register]

@[simp] theorem significant_ignore (lexer : Lexer) (terminal : Terminal) :
    (lexer.ignore terminal).significant = lexer.significant := by
  simp [ignore]

@[simp] theorem ignorable_ignore (lexer : Lexer) (terminal : Terminal) :
    (lexer.ignore terminal).ignorable = lexer.ignorable ++ [terminal] :=
  rfl

end Lexer

end Lexigram
