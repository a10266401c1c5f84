import Lexigram.Proofs.Reading

/-! # Starting again in a text

The lexer has no memory but its place. Started anew behind a token, or behind blanks, it does what it
would have done there anyway, with its places counted from the new beginning. This needs no anchored
patterns.
-/

namespace Lexigram

/-- The position that is `q` in a text which itself begins at `p`. -/
def Position.shift (p q : Position) : Position where
  offset := p.offset + q.offset
  line := p.line + (q.line - 1)
  column := if q.line = 1 then p.column + (q.column - 1) else q.column

def Token.shift (p : Position) (t : Token) : Token where
  terminal := t.terminal
  text := t.text
  start := p.offset + t.start
  stop := p.offset + t.stop
  line := (p.shift ⟨t.start, t.line, t.column⟩).line
  column := (p.shift ⟨t.start, t.line, t.column⟩).column

def LexError.shift (p : Position) : LexError → LexError
  | .unexpectedLexeme line column lexeme =>
    .unexpectedLexeme (p.shift ⟨0, line, column⟩).line (p.shift ⟨0, line, column⟩).column lexeme
  | .brokenCharacter => .brokenCharacter

namespace Position

structure FromOne (p : Position) : Prop where
  line_pos : 1 ≤ p.line
  column_pos : 1 ≤ p.column

theorem fromOne_start : ({} : Position).FromOne :=
  ⟨Nat.le_refl 1, Nat.le_refl 1⟩

theorem FromOne.next {p : Position} (h : p.FromOne) (c : Char) : (p.next c).FromOne := by
  unfold Position.next
  split
  · exact ⟨Nat.le_add_left 1 _, Nat.le_refl 1⟩
  · exact ⟨h.line_pos, Nat.le_add_left 1 _⟩

theorem FromOne.after {p : Position} (h : p.FromOne) (text : List Char) : (p.after text).FromOne := by
  induction text generalizing p with
  | nil => exact h
  | cons c text ih => exact ih (h.next c)

@[simp] theorem shift_start (p : Position) : p.shift {} = p := by
  simp [shift]

theorem next_shift (p : Position) {q : Position} (h : q.FromOne) (c : Char) :
    (p.shift q).next c = p.shift (q.next c) := by
  have hLine := h.line_pos
  have hColumn := h.column_pos
  by_cases hNewline : c = '\n'
  · have hLater : q.line + 1 ≠ 1 := by omega
    simp only [next, shift, if_pos hNewline, if_neg hLater, mk.injEq]
    exact ⟨by omega, by omega, trivial⟩
  · by_cases hFirst : q.line = 1
    · simp only [next, shift, if_neg hNewline, if_pos hFirst, mk.injEq]
      exact ⟨by omega, trivial, by omega⟩
    · simp only [next, shift, if_neg hNewline, if_neg hFirst, mk.injEq]
      exact ⟨by omega, trivial, trivial⟩

theorem after_shift (p : Position) {q : Position} (h : q.FromOne) (text : List Char) :
    (p.shift q).after text = p.shift (q.after text) := by
  induction text generalizing q with
  | nil => rfl
  | cons c text ih => rw [after_cons, after_cons, p.next_shift h, ih (h.next c)]

end Position

namespace Lexer

def Cursor.shift (p : Position) (cursor : Cursor) : Cursor :=
  ⟨p.shift cursor.place, cursor.rest⟩

def Step.shift (p : Position) : Step → Step
  | .done => .done
  | .token t next => .token (t.shift p) (next.shift p)
  | .dropped next => .dropped (next.shift p)
  | .failed e => .failed (e.shift p)

/-- The answer for a text from the answer for what is left of it, after these tokens, at a position. -/
def resumed (made : List Token) (p : Position) :
    Except LexError (List Token) → Except LexError (List Token)
  | .ok later => .ok (made ++ later.map (·.shift p))
  | .error e => .error (e.shift p)

section Shift

variable (lexer : Lexer) (p : Position)

theorem Cursor.skipBlanks_shift {cursor : Cursor} (h : cursor.place.FromOne) :
    (cursor.shift p).skipBlanks = cursor.skipBlanks.shift p := by
  rw [Cursor.skipBlanks, Cursor.shift, p.after_shift h]
  rfl

theorem Cursor.advance_shift {cursor : Cursor} (h : cursor.place.FromOne) (lexeme : List Char) :
    (cursor.shift p).advance lexeme =
      match cursor.advance lexeme with
      | .ok next => .ok (next.shift p)
      | .error e => .error (e.shift p) := by
  rw [Cursor.advance, Cursor.advance, Cursor.shift]
  cases dropBytes? (byteLength lexeme) cursor.rest with
  | none => rfl
  | some rest =>
    dsimp only
    rw [p.after_shift h]
    rfl

theorem step_shift {cursor : Cursor} (h : cursor.place.FromOne) :
    lexer.step (cursor.shift p) = (lexer.step cursor).shift p := by
  have hHere : cursor.skipBlanks.place.FromOne := h.after _
  have hRest : (cursor.skipBlanks.shift p).rest = cursor.skipBlanks.rest := rfl
  unfold step
  rw [Cursor.skipBlanks_shift p h]
  simp only [Cursor.advance_shift p hHere, hRest]
  split
  · rfl
  · cases firstMatch lexer.significant cursor.skipBlanks.rest with
    | some found =>
      dsimp only
      cases cursor.skipBlanks.advance found.2 <;> rfl
    | none =>
      dsimp only
      cases firstMatch lexer.ignorable cursor.skipBlanks.rest with
      | some found =>
        dsimp only
        cases cursor.skipBlanks.advance found.2 <;> rfl
      | none => rfl

variable {lexer}

theorem fromOne_of_next? {cursor next : Cursor} (h : (lexer.step cursor).next? = some next)
    (hCursor : cursor.place.FromOne) : next.place.FromOne := by
  obtain ⟨lexeme, hNext⟩ := exists_advance_of_next? h
  unfold Cursor.advance at hNext
  split at hNext
  · cases hNext
    exact (hCursor.after _).after lexeme
  · cases hNext

theorem Reads.fromOne {cursor last : Cursor} {ts : List Token} (h : lexer.Reads cursor ts last)
    (hCursor : cursor.place.FromOne) : last.place.FromOne :=
  h.keeps (fun _ _ => fromOne_of_next?) hCursor

theorem Reads.shift {cursor last : Cursor} {ts : List Token} (h : lexer.Reads cursor ts last)
    (hCursor : cursor.place.FromOne) :
    lexer.Reads (cursor.shift p) (ts.map (·.shift p)) (last.shift p) := by
  induction h with
  | here => exact .here _
  | token hStep _ ih =>
    refine .token ?_ (ih (fromOne_of_next? (by rw [hStep]; rfl) hCursor))
    rw [step_shift lexer p hCursor, hStep]
    rfl
  | dropped hStep _ ih =>
    refine .dropped ?_ (ih (fromOne_of_next? (by rw [hStep]; rfl) hCursor))
    rw [step_shift lexer p hCursor, hStep]
    rfl

theorem tokensFrom_shift {cursor : Cursor} (h : cursor.place.FromOne) :
    lexer.tokensFrom (cursor.shift p) = resumed [] p (lexer.tokensFrom cursor) := by
  obtain ⟨ts, last, hReads, hLast⟩ := lexer.exists_reads cursor
  rw [(hReads.shift p h).tokensFrom_eq, tokensFrom_eq_step, step_shift lexer p (hReads.fromOne h)]
  rcases hLast with ⟨hDone, hTokens⟩ | ⟨e, hFailed, hTokens⟩
  · rw [hDone, hTokens]
    simp [Step.shift, resumed, Except.map]
  · rw [hFailed, hTokens]
    rfl

theorem tokensFrom_start (rest : List Char) :
    lexer.tokensFrom ⟨p, rest⟩ = resumed [] p (lexer.tokensFrom ⟨{}, rest⟩) := by
  have hStart : (⟨{}, rest⟩ : Cursor).shift p = ⟨p, rest⟩ := by rw [Cursor.shift, Position.shift_start]
  rw [← hStart]
  exact tokensFrom_shift p Position.fromOne_start

end Shift

variable {lexer : Lexer}

theorem Reads.concat {cursor last next : Cursor} {ts : List Token} {t : Token}
    (h : lexer.Reads cursor ts last) (hStep : lexer.step last = .token t next) :
    lexer.Reads cursor (ts ++ [t]) next := by
  induction h with
  | here => exact .token hStep (.here next)
  | token hFirst _ ih => exact .token hFirst (ih hStep)
  | dropped hFirst _ ih => exact .dropped hFirst (ih hStep)

theorem stop_eq_of_step {cursor next : Cursor} {t : Token} (h : lexer.step cursor = .token t next) :
    t.stop = next.place.offset := by
  have hActs := h ▸ lexer.acts_step cursor
  cases hActs with
  | token => rfl

theorem tokensFrom_of_blanks {blanks : List Char} (hBlanks : ∀ c ∈ blanks, c ≤ ' ') (p : Position)
    (text : List Char) :
    lexer.tokensFrom ⟨p, blanks ++ text⟩ = lexer.tokensFrom ⟨p.after blanks, text⟩ := by
  have hAll : ∀ c ∈ blanks, isBlank c = true := fun c hc => isBlank_iff.mpr (hBlanks c hc)
  have hSkip : (⟨p, blanks ++ text⟩ : Cursor).skipBlanks =
      (⟨p.after blanks, text⟩ : Cursor).skipBlanks := by
    rw [Cursor.skipBlanks, Cursor.skipBlanks, List.takeWhile_append_of_pos hAll, Position.after_append,
      dropBlanks, List.dropWhile_append_of_pos hAll]
    rfl
  have hStep : lexer.step ⟨p, blanks ++ text⟩ = lexer.step ⟨p.after blanks, text⟩ := by
    unfold step
    rw [hSkip]
  rw [tokensFrom_eq_step, tokensFrom_eq_step, hStep]

/-- Behind any token that is made, the answer is that for the rest of the text taken by itself, counted
on from there; and blanks before a text do nothing but move its beginning. -/
theorem resumes (lexer : Lexer) (text : String) :
    (∀ ts cursor t next, lexer.Reads ⟨{}, text.toList⟩ ts cursor → lexer.step cursor = .token t next →
      ∃ before rest, text = before ++ rest ∧ before.utf8ByteSize = t.stop ∧
        next.place.offset = t.stop ∧
          lexer.tokens text = resumed (ts ++ [t]) next.place (lexer.tokens rest)) ∧
    ∀ blanks : String, (∀ c ∈ blanks.toList, c ≤ ' ') →
      lexer.tokens (blanks ++ text) =
        resumed [] (({} : Position).after blanks.toList) (lexer.tokens text) := by
  constructor
  · intro ts cursor t next hReads hToken
    have hMade := hReads.concat hToken
    have hStop := stop_eq_of_step hToken
    obtain ⟨before, hText, hBefore⟩ := hMade.countsIn (.start text.toList)
    refine ⟨String.ofList before, String.ofList next.rest, ?_, ?_, hStop.symm, ?_⟩
    · rw [← String.ofList_append, ← hText, String.ofList_toList]
    · rw [utf8ByteSize_ofList, ← hBefore, hStop]
    · rw [tokens, tokens, hMade.tokensFrom_eq, String.toList_ofList, tokensFrom_start]
      cases lexer.tokensFrom ⟨{}, next.rest⟩ <;> rfl
  · intro blanks hBlanks
    rw [tokens, String.toList_append, tokensFrom_of_blanks hBlanks, tokensFrom_start]
    rfl

theorem resumes_notes :
    (∃ ts cursor next, Notes.lexer.Reads ⟨{}, "12 #é\n 7 ?!".toList⟩ ts cursor ∧
      Notes.lexer.step cursor = .token ⟨Notes.number, "7", 8, 9, 2, 2⟩ next ∧
      ∃ before rest, "12 #é\n 7 ?!" = before ++ rest ∧ before.utf8ByteSize = 9 ∧
        Notes.lexer.tokens "12 #é\n 7 ?!" =
          resumed (ts ++ [⟨Notes.number, "7", 8, 9, 2, 2⟩]) next.place (Notes.lexer.tokens rest)) ∧
    (∀ c ∈ " \n".toList, c ≤ ' ') ∧
      Notes.lexer.tokens (" \n" ++ "12") = resumed [] ⟨2, 2, 1⟩ (Notes.lexer.tokens "12") := by
  have hFirst : Notes.lexer.step ⟨{}, "12 #é\n 7 ?!".toList⟩ =
      .token ⟨Notes.number, "12", 0, 2, 1, 1⟩ ⟨⟨2, 1, 3⟩, " #é\n 7 ?!".toList⟩ := rfl
  have hComment : Notes.lexer.step ⟨⟨2, 1, 3⟩, " #é\n 7 ?!".toList⟩ =
      .dropped ⟨⟨6, 1, 6⟩, "\n 7 ?!".toList⟩ := rfl
  have hSecond : Notes.lexer.step ⟨⟨6, 1, 6⟩, "\n 7 ?!".toList⟩ =
      .token ⟨Notes.number, "7", 8, 9, 2, 2⟩ ⟨⟨9, 2, 3⟩, " ?!".toList⟩ := rfl
  have hReads := Reads.token hFirst (.dropped hComment (.here _))
  have hBlanks : ∀ c ∈ " \n".toList, c ≤ ' ' := by simp
  refine ⟨⟨_, _, _, hReads, hSecond, ?_⟩, hBlanks, (resumes Notes.lexer "12").2 " \n" hBlanks⟩
  obtain ⟨before, rest, hText, hSize, -, hTokens⟩ :=
    (resumes Notes.lexer "12 #é\n 7 ?!").1 _ _ _ _ hReads hSecond
  exact ⟨before, rest, hText, hSize, hTokens⟩

end Lexer

end Lexigram
