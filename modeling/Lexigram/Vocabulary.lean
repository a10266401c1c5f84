import Lexigram.Token

/-! # Vocabularies

An ordered list of terminals under their names, and the one that most languages begin with.
-/

namespace Lexigram

structure Vocabulary where
  terminals : List Terminal
  deriving Repr

namespace Vocabulary

def empty : Vocabulary :=
  ⟨[]⟩

def size (v : Vocabulary) : Nat :=
  v.terminals.length

def isEmpty (v : Vocabulary) : Bool :=
  v.terminals.isEmpty

def insert (v : Vocabulary) (terminal : Terminal) : Vocabulary :=
  ⟨v.terminals ++ [terminal]⟩

def get? (v : Vocabulary) (name : String) : Option Terminal :=
  v.terminals.find? (·.name == name)

/-- Names and sources, where every fixed text comes before all that would match a part of it. -/
def commonSources : List (String × String) :=
  [ ("TK_IF", "if\\b"),
    ("TK_ELSE", "else\\b"),
    ("TK_WHILE", "while\\b"),
    ("TK_FOR", "for\\b"),
    ("TK_RETURN", "return\\b"),
    ("TK_BREAK", "break\\b"),
    ("TK_CONTINUE", "continue\\b"),
    ("TK_TRUE", "true\\b"),
    ("TK_FALSE", "false\\b"),
    ("TK_FLOAT", "[0-9]+\\.[0-9]+"),
    ("TK_INT", "[0-9]+"),
    ("TK_STRING", "\"[^\"]*\""),
    ("TK_IDENTIFIER", "[a-zA-Z_][a-zA-Z0-9_]*"),
    ("TK_ARROW", "->"),
    ("TK_LESS_EQUAL", "<="),
    ("TK_GREATER_EQUAL", ">="),
    ("TK_EQUAL_EQUAL", "=="),
    ("TK_PLUS", "\\+"),
    ("TK_MINUS", "-"),
    ("TK_STAR", "\\*"),
    ("TK_SLASH", "/"),
    ("TK_PERCENT", "%"),
    ("TK_POWER", "\\^"),
    ("TK_EQUALS", "="),
    ("TK_LESS", "<"),
    ("TK_GREATER", ">"),
    ("TK_QMARK", "\\?"),
    ("TK_EXCLAMATION", "!"),
    ("TK_AMPERSAND", "&"),
    ("TK_PIPE", "\\|"),
    ("TK_TILDE", "~"),
    ("TK_LPAREN", "\\("),
    ("TK_RPAREN", "\\)"),
    ("TK_LBRACE", "\\\x7b"),
    ("TK_RBRACE", "\\\x7d"),
    ("TK_LBRACKET", "\\["),
    ("TK_RBRACKET", "\\]"),
    ("TK_COMMA", ","),
    ("TK_COLON", ":"),
    ("TK_SEMICOLON", ";"),
    ("TK_DOT", "\\.") ]

def common (firstId : Nat) : Vocabulary :=
  ⟨(commonSources.zipIdx firstId).filterMap fun ((name, source), id) =>
    (Terminal.ofSource id name source).toOption⟩

end Vocabulary

end Lexigram
