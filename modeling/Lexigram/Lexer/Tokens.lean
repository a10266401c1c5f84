import Lexigram.Lexer.Basic

/-! # Tokens of a text

A text is taken apart from its beginning. Blanks are skipped; then the first significant terminal that
matches gives a token, else the first ignorable one that matches is dropped, else the text has an
unexpected lexeme there.
-/

namespace Lexigram

inductive LexError where
  | unexpectedLexeme (line column : Nat) (lexeme : String)
  /-- A lexeme found further on is as long as something that ends inside a character. -/
  | brokenCharacter
  deriving DecidableEq, Repr

namespace LexError

def message : LexError → String
  | .unexpectedLexeme line column lexeme =>
    "Unexpected lexeme at line " ++ toString line ++ ", column " ++ toString column ++ ": " ++ lexeme
  | .brokenCharacter => "A lexeme ends inside a character"

end LexError

namespace Lexer

def firstMatch : List Terminal → List Char → Option (Terminal × List Char)
  | [], _ => none
  | terminal :: rest, input =>
    match terminal.pattern.find input with
    | some lexeme => some (terminal, lexeme)
    | none => firstMatch rest input

theorem firstMatch_eq_some_iff {terminals : List Terminal} {input lexeme : List Char}
    {terminal : Terminal} :
    firstMatch terminals input = some (terminal, lexeme) ↔
      ∃ before after, terminals = before ++ terminal :: after ∧
        terminal.pattern.find input = some lexeme ∧
        ∀ t ∈ before, t.pattern.find input = none := by
  induction terminals with
  | nil => simp [firstMatch]
  | cons t ts ih =>
    unfold firstMatch
    constructor
    · split
      · rename_i found hfound
        rintro ⟨⟩
        exact ⟨[], ts, rfl, hfound, by simp⟩
      · rename_i hnone
        intro h
        obtain ⟨before, after, rfl, hfind, hbefore⟩ := ih.mp h
        exact ⟨t :: before, after, rfl, hfind, by simpa [hnone] using hbefore⟩
    · rintro ⟨before, after, heq, hfind, hbefore⟩
      cases before with
      | nil =>
        obtain ⟨rfl, rfl⟩ := List.cons.inj heq
        simp [hfind]
      | cons b before =>
        obtain ⟨rfl, rfl⟩ := List.cons.inj heq
        simp only [hbefore t List.mem_cons_self]
        exact ih.mpr ⟨before, after, rfl, hfind, fun s hs => hbefore s (List.mem_cons_of_mem _ hs)⟩

structure Cursor where
  place : Position := {}
  rest : List Char
  deriving DecidableEq, Repr

namespace Cursor

def skipBlanks (cursor : Cursor) : Cursor :=
  ⟨cursor.place.after (cursor.rest.takeWhile isBlank), dropBlanks cursor.rest⟩

def advance (cursor : Cursor) (lexeme : List Char) : Except LexError Cursor :=
  match dropBytes? (byteLength lexeme) cursor.rest with
  | some rest => .ok ⟨cursor.place.after lexeme, rest⟩
  | none => .error .brokenCharacter

theorem length_skipBlanks_le (cursor : Cursor) :
    cursor.skipBlanks.rest.length ≤ cursor.rest.length :=
  length_dropBlanks_le cursor.rest

theorem length_advance_lt {cursor next : Cursor} {lexeme : List Char} (hne : lexeme ≠ [])
    (h : cursor.advance lexeme = .ok next) : next.rest.length < cursor.rest.length := by
  unfold advance at h
  split at h
  · rename_i rest hrest
    cases h
    exact length_lt_of_dropBytes? hrest (byteLength_pos hne)
  · cases h

end Cursor

inductive Step where
  | done
  | token (t : Token) (next : Cursor)
  | dropped (next : Cursor)
  | failed (e : LexError)
  deriving Repr

def tokenAt (terminal : Terminal) (lexeme : List Char) (start stop : Position) : Token :=
  ⟨terminal, String.ofList lexeme, start.offset, stop.offset, start.line, start.column⟩

/-- Skips blanks, then takes one lexeme. -/
def step (lexer : Lexer) (cursor : Cursor) : Step :=
  let here := cursor.skipBlanks
  if here.rest.isEmpty then .done
  else
    match firstMatch lexer.significant here.rest with
    | some (terminal, lexeme) =>
      match here.advance lexeme with
      | .ok next => .token (tokenAt terminal lexeme here.place next.place) next
      | .error e => .failed e
    | none =>
      match firstMatch lexer.ignorable here.rest with
      | some (_, lexeme) =>
        match here.advance lexeme with
        | .ok next => .dropped next
        | .error e => .failed e
      | none =>
        .failed (.unexpectedLexeme here.place.line here.place.column
          (String.ofList (untilBlank here.rest)))

def Step.next? : Step → Option Cursor
  | .token _ next => some next
  | .dropped next => some next
  | _ => none

theorem length_step_lt {lexer : Lexer} {cursor next : Cursor}
    (h : (lexer.step cursor).next? = some next) : next.rest.length < cursor.rest.length := by
  have hskip := cursor.length_skipBlanks_le
  have key : ∀ (terminals : List Terminal) (terminal : Terminal) (lexeme : List Char),
      firstMatch terminals cursor.skipBlanks.rest = some (terminal, lexeme) → ∀ {c : Cursor},
      cursor.skipBlanks.advance lexeme = .ok c → c.rest.length < cursor.rest.length := by
    intro terminals terminal lexeme hfirst c hadvance
    obtain ⟨_, _, _, hfind, _⟩ := firstMatch_eq_some_iff.mp hfirst
    have := Cursor.length_advance_lt (Pattern.find_ne_nil hfind) hadvance
    omega
  unfold step at h
  simp only at h
  split at h
  · simp [Step.next?] at h
  · split at h
    · rename_i hfirst
      split at h
      · rename_i hadvance
        simp only [Step.next?, Option.some.injEq] at h
        exact h ▸ key _ _ _ hfirst hadvance
      · simp [Step.next?] at h
    · split at h
      · rename_i hfirst
        split at h
        · rename_i hadvance
          simp only [Step.next?, Option.some.injEq] at h
          exact h ▸ key _ _ _ hfirst hadvance
        · simp [Step.next?] at h
      · simp [Step.next?] at h

def tokensFrom (lexer : Lexer) (cursor : Cursor) : Except LexError (List Token) :=
  match _h : lexer.step cursor with
  | .done => .ok []
  | .token t next => (tokensFrom lexer next).map (t :: ·)
  | .dropped next => tokensFrom lexer next
  | .failed e => .error e
termination_by cursor.rest.length
decreasing_by
  · exact length_step_lt (by rw [_h]; rfl)
  · exact length_step_lt (by rw [_h]; rfl)

def tokens (lexer : Lexer) (text : String) : Except LexError (List Token) :=
  lexer.tokensFrom ⟨{}, text.toList⟩

end Lexer

end Lexigram
