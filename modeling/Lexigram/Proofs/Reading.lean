import Lexigram.Proofs.Segmentation

/-! # Places in a text

While it goes through a text the lexer keeps count of bytes, lines and columns. When its patterns are
anchored the counts are, wherever it stands, those of the whole text before that place, whatever was
skipped, dropped or made a token on the way.
-/

namespace Lexigram

theorem utf8ByteSize_ofList (text : List Char) : (String.ofList text).utf8ByteSize = byteLength text := by
  rw [← String.size_toByteArray, String.toByteArray_ofList, size_utf8Encode]

/-- The position is that behind `before`: its offset is the number of bytes there, its line is counted
by the newlines, its column by the characters behind the last newline. -/
structure Position.Counts (p : Position) (before : List Char) : Prop where
  offset_eq : p.offset = (String.ofList before).utf8ByteSize
  line_eq : p.line = 1 + before.count '\n'
  column_eq : ∃ lines tail, before = lines ++ tail ∧ (∀ c ∈ lines.getLast?, c = '\n') ∧ '\n' ∉ tail ∧
    p.column = 1 + tail.length

/-- The token is a part of the text, and its place is counted over the text before it. -/
def Token.LiesIn (t : Token) (text : List Char) : Prop :=
  ∃ before lexeme behind, text = before ++ lexeme ++ behind ∧ t.text = String.ofList lexeme ∧
    (⟨t.start, t.line, t.column⟩ : Position).Counts before ∧
    t.stop = (String.ofList (before ++ lexeme)).utf8ByteSize

theorem Position.counts_after (before : List Char) : (({} : Position).after before).Counts before where
  offset_eq := by rw [Position.offset_after, Nat.zero_add, utf8ByteSize_ofList]
  line_eq := Position.line_after _ before
  column_eq := by
    refine ⟨(before.reverse.dropWhile (· != '\n')).reverse, (before.reverse.takeWhile (· != '\n')).reverse,
      ?_, ?_, ?_, ?_⟩
    · rw [← List.reverse_append, List.takeWhile_append_dropWhile, List.reverse_reverse]
    · intro c hc
      have hNot := List.head?_dropWhile_not (· != '\n') before.reverse
      rw [List.getLast?_reverse, Option.mem_def] at hc
      rw [hc] at hNot
      simpa using hNot
    · intro hNewline
      have hNot := List.all_eq_true.mp List.all_takeWhile '\n' (List.mem_reverse.mp hNewline)
      simp at hNot
    · rw [Position.column_after, List.length_reverse, Nat.add_comm]

namespace Lexer

/-- What the lexer does at a cursor, told from what its terminals find behind the blanks. -/
inductive Acts (lexer : Lexer) (cursor : Cursor) : Step → Prop
  | done (hEnd : cursor.skipBlanks.rest = []) : Acts lexer cursor .done
  | token {terminal : Terminal} {lexeme : List Char} {next : Cursor}
    (hFinds : Finds lexer.significant cursor.skipBlanks.rest terminal lexeme)
    (hNext : cursor.skipBlanks.advance lexeme = .ok next) :
    Acts lexer cursor (.token (tokenAt terminal lexeme cursor.skipBlanks.place next.place) next)
  | dropped {terminal : Terminal} {lexeme : List Char} {next : Cursor}
    (hNone : FindsNone lexer.significant cursor.skipBlanks.rest)
    (hFinds : Finds lexer.ignorable cursor.skipBlanks.rest terminal lexeme)
    (hNext : cursor.skipBlanks.advance lexeme = .ok next) : Acts lexer cursor (.dropped next)
  | broken {terminal : Terminal} {lexeme : List Char} {e : LexError}
    (hMem : terminal ∈ lexer.significant ++ lexer.ignorable)
    (hFind : terminal.pattern.find cursor.skipBlanks.rest = some lexeme)
    (hBroken : cursor.skipBlanks.advance lexeme = .error e) : Acts lexer cursor (.failed e)
  | stuck (hText : cursor.skipBlanks.rest ≠ [])
    (hSignificant : FindsNone lexer.significant cursor.skipBlanks.rest)
    (hIgnorable : FindsNone lexer.ignorable cursor.skipBlanks.rest) :
    Acts lexer cursor (.failed (unexpected cursor.skipBlanks.place cursor.skipBlanks.rest))

theorem acts_step (lexer : Lexer) (cursor : Cursor) : lexer.Acts cursor (lexer.step cursor) := by
  unfold step
  dsimp only
  split
  · rename_i hEnd
    exact .done (List.isEmpty_iff.mp hEnd)
  · rename_i hText
    rw [List.isEmpty_iff] at hText
    split
    · rename_i terminal lexeme hFirst
      have hFinds : Finds lexer.significant cursor.skipBlanks.rest terminal lexeme :=
        firstMatch_eq_some_iff.mp hFirst
      split
      · rename_i next hNext
        exact .token hFinds hNext
      · rename_i e hBroken
        exact .broken (List.mem_append_left _ hFinds.mem) hFinds.find_eq hBroken
    · rename_i hSignificant
      have hNone := firstMatch_eq_none_iff.mp hSignificant
      split
      · rename_i terminal lexeme hFirst
        have hFinds : Finds lexer.ignorable cursor.skipBlanks.rest terminal lexeme :=
          firstMatch_eq_some_iff.mp hFirst
        split
        · rename_i next hNext
          exact .dropped hNone hFinds hNext
        · rename_i e hBroken
          exact .broken (List.mem_append_right _ hFinds.mem) hFinds.find_eq hBroken
      · rename_i hIgnorable
        exact .stuck hText hNone (firstMatch_eq_none_iff.mp hIgnorable)

variable {lexer : Lexer}

theorem exists_advance_of_next? {cursor next : Cursor} (h : (lexer.step cursor).next? = some next) :
    ∃ lexeme, cursor.skipBlanks.advance lexeme = .ok next := by
  have hActs := lexer.acts_step cursor
  generalize lexer.step cursor = action at hActs h
  cases hActs with
  | done => cases h
  | token _ hNext =>
    cases h
    exact ⟨_, hNext⟩
  | dropped _ _ hNext =>
    cases h
    exact ⟨_, hNext⟩
  | broken => cases h
  | stuck => cases h

/-- What every step that moves on keeps holds at the cursor the lexer gets to. -/
theorem Reads.keeps {Holds : Cursor → Prop}
    (hStep : ∀ cursor next, (lexer.step cursor).next? = some next → Holds cursor → Holds next)
    {cursor last : Cursor} {ts : List Token} (h : lexer.Reads cursor ts last) (hCursor : Holds cursor) :
    Holds last := by
  induction h with
  | here => exact hCursor
  | token hToken _ ih => exact ih (hStep _ _ (by rw [hToken]; rfl) hCursor)
  | dropped hDropped _ ih => exact ih (hStep _ _ (by rw [hDropped]; rfl) hCursor)

def Cursor.CountsIn (cursor : Cursor) (text : List Char) : Prop :=
  ∃ before, text = before ++ cursor.rest ∧ cursor.place.offset = byteLength before

namespace Cursor.CountsIn

variable {cursor next : Cursor} {text lexeme : List Char}

theorem start (text : List Char) : (⟨{}, text⟩ : Cursor).CountsIn text :=
  ⟨[], rfl, rfl⟩

theorem skipBlanks (h : cursor.CountsIn text) : cursor.skipBlanks.CountsIn text := by
  obtain ⟨before, rfl, hOffset⟩ := h
  refine ⟨before ++ cursor.rest.takeWhile isBlank, ?_, ?_⟩
  · rw [Cursor.skipBlanks, List.append_assoc, takeWhile_append_dropBlanks]
  · rw [Cursor.skipBlanks, Position.offset_after, hOffset, byteLength_append]

theorem advance (h : cursor.CountsIn text) (hNext : cursor.advance lexeme = .ok next) :
    next.CountsIn text := by
  obtain ⟨before, rfl, hOffset⟩ := h
  rw [Cursor.advance] at hNext
  split at hNext
  · rename_i rest hRest
    cases hNext
    obtain ⟨passed, hPassed, hBytes⟩ := dropBytes?_eq_some_iff.mp hRest
    refine ⟨before ++ passed, ?_, ?_⟩
    · rw [hPassed, List.append_assoc]
    · rw [Position.offset_after, hOffset, hBytes, byteLength_append]
  · cases hNext

end Cursor.CountsIn

theorem Reads.countsIn {cursor last : Cursor} {ts : List Token} {text : List Char}
    (h : lexer.Reads cursor ts last) (hCursor : cursor.CountsIn text) : last.CountsIn text := by
  have hStep (here next : Cursor) (hNext : (lexer.step here).next? = some next)
      (hHere : here.CountsIn text) : next.CountsIn text := by
    obtain ⟨lexeme, hAdvance⟩ := exists_advance_of_next? hNext
    exact hHere.skipBlanks.advance hAdvance
  exact h.keeps hStep hCursor

/-- The lexer gets to a cursor where it is done or fails, and its answer is what it has made by then. -/
theorem exists_reads (lexer : Lexer) (cursor : Cursor) : ∃ ts last, lexer.Reads cursor ts last ∧
    (lexer.step last = .done ∧ lexer.tokensFrom cursor = .ok ts ∨
      ∃ e, lexer.step last = .failed e ∧ lexer.tokensFrom cursor = .error e) := by
  obtain ⟨length, hLength⟩ : ∃ length, length = cursor.rest.length := ⟨_, rfl⟩
  induction length using Nat.strongRecOn generalizing cursor with
  | _ length ih =>
    rw [tokensFrom_eq_step]
    cases hStep : lexer.step cursor with
    | done => exact ⟨[], cursor, .here cursor, .inl ⟨hStep, rfl⟩⟩
    | failed e => exact ⟨[], cursor, .here cursor, .inr ⟨e, hStep, rfl⟩⟩
    | token t next =>
      have hShorter : next.rest.length < cursor.rest.length := length_step_lt (by rw [hStep]; rfl)
      obtain ⟨ts, last, hReads, hLast⟩ := ih _ (hLength ▸ hShorter) next rfl
      refine ⟨t :: ts, last, .token hStep hReads, ?_⟩
      dsimp only
      obtain ⟨hDone, hTokens⟩ | ⟨e, hFailed, hTokens⟩ := hLast
      · exact .inl ⟨hDone, by rw [hTokens]; rfl⟩
      · exact .inr ⟨e, hFailed, by rw [hTokens]; rfl⟩
    | dropped next =>
      have hShorter : next.rest.length < cursor.rest.length := length_step_lt (by rw [hStep]; rfl)
      obtain ⟨ts, last, hReads, hLast⟩ := ih _ (hLength ▸ hShorter) next rfl
      exact ⟨ts, last, .dropped hStep hReads, hLast⟩

def Cursor.StandsIn (cursor : Cursor) (text : List Char) : Prop :=
  ∃ before, text = before ++ cursor.rest ∧ cursor.place = ({} : Position).after before

theorem Cursor.StandsIn.skipBlanks {cursor : Cursor} {text : List Char} (h : cursor.StandsIn text) :
    cursor.skipBlanks.StandsIn text := by
  obtain ⟨before, rfl, hPlace⟩ := h
  refine ⟨before ++ cursor.rest.takeWhile isBlank, ?_, ?_⟩
  · rw [Cursor.skipBlanks, List.append_assoc, takeWhile_append_dropBlanks]
  · rw [Cursor.skipBlanks, hPlace, Position.after_append]

theorem Anchored.exists_advance (hAnchored : lexer.Anchored) {cursor : Cursor} {terminal : Terminal}
    {lexeme : List Char} (hMem : terminal ∈ lexer.significant ++ lexer.ignorable)
    (hFind : terminal.pattern.find cursor.rest = some lexeme) : ∃ behind,
    cursor.rest = lexeme ++ behind ∧
      cursor.advance lexeme = .ok ⟨cursor.place.after lexeme, behind⟩ := by
  obtain ⟨place, rest⟩ := cursor
  obtain ⟨behind, rfl⟩ := hAnchored terminal hMem _ _ hFind
  exact ⟨behind, rfl, advance_append place lexeme behind⟩

theorem Anchored.standsIn_advance (hAnchored : lexer.Anchored) {cursor next : Cursor} {text : List Char}
    (hCursor : cursor.StandsIn text) {terminal : Terminal} {lexeme : List Char}
    (hMem : terminal ∈ lexer.significant ++ lexer.ignorable)
    (hFind : terminal.pattern.find cursor.rest = some lexeme)
    (hNext : cursor.advance lexeme = .ok next) :
    next.StandsIn text ∧ (tokenAt terminal lexeme cursor.place next.place).LiesIn text := by
  obtain ⟨behind, hRest, hAdvance⟩ := hAnchored.exists_advance hMem hFind
  obtain ⟨before, rfl, hPlace⟩ := hCursor
  rw [hNext, Except.ok.injEq] at hAdvance
  subst hAdvance
  have hBehind : cursor.place.after lexeme = ({} : Position).after (before ++ lexeme) := by
    rw [hPlace, Position.after_append]
  have hText : before ++ cursor.rest = before ++ lexeme ++ behind := by
    rw [hRest, List.append_assoc]
  refine ⟨⟨before ++ lexeme, hText, hBehind⟩, before, lexeme, behind, hText, rfl, ?_, ?_⟩
  · have hCounts := Position.counts_after before
    rwa [← hPlace] at hCounts
  · exact (congrArg Position.offset hBehind).trans (Position.counts_after _).offset_eq

theorem Reads.standsIn {cursor last : Cursor} {ts : List Token} (h : lexer.Reads cursor ts last)
    (hAnchored : lexer.Anchored) {text : List Char} (hCursor : cursor.StandsIn text) :
    last.StandsIn text ∧ ∀ t ∈ ts, t.LiesIn text := by
  induction h with
  | here => exact ⟨hCursor, fun t ht => absurd ht List.not_mem_nil⟩
  | token hStep _ ih =>
    have hActs := hStep ▸ lexer.acts_step _
    cases hActs with
    | token hFinds hNext =>
      obtain ⟨hStands, hLies⟩ := hAnchored.standsIn_advance hCursor.skipBlanks
        (List.mem_append_left _ hFinds.mem) hFinds.find_eq hNext
      obtain ⟨hLast, hLater⟩ := ih hStands
      exact ⟨hLast, List.forall_mem_cons.mpr ⟨hLies, hLater⟩⟩
  | dropped hStep _ ih =>
    have hActs := hStep ▸ lexer.acts_step _
    cases hActs with
    | dropped _ hFinds hNext =>
      exact ih (hAnchored.standsIn_advance hCursor.skipBlanks (List.mem_append_right _ hFinds.mem)
        hFinds.find_eq hNext).1

/-- Every token that is made, also before an error, lies in the text where it says, and an error gives
the place where the lexer got stuck. -/
theorem places_exact {lexer : Lexer} (hAnchored : lexer.Anchored) (text : String) :
    (∀ ts cursor, lexer.Reads ⟨{}, text.toList⟩ ts cursor → ∀ t ∈ ts, t.LiesIn text.toList) ∧
    (∀ ts, lexer.tokens text = .ok ts → ∀ t ∈ ts, t.LiesIn text.toList) ∧
    ∀ e, lexer.tokens text = .error e → ∃ ts cursor before line column lexeme,
      lexer.Reads ⟨{}, text.toList⟩ ts cursor ∧ lexer.step cursor = .failed e ∧
        text.toList = before ++ cursor.skipBlanks.rest ∧ e = .unexpectedLexeme line column lexeme ∧
          (⟨cursor.skipBlanks.place.offset, line, column⟩ : Position).Counts before := by
  have hStart : (⟨{}, text.toList⟩ : Cursor).StandsIn text.toList := ⟨[], rfl, rfl⟩
  have hReads (ts : List Token) (cursor : Cursor) (h : lexer.Reads ⟨{}, text.toList⟩ ts cursor) :
      ∀ t ∈ ts, t.LiesIn text.toList := (h.standsIn hAnchored hStart).2
  obtain ⟨made, last, hMade, hLast⟩ := lexer.exists_reads ⟨{}, text.toList⟩
  refine ⟨hReads, fun ts hTokens => ?_, fun e hTokens => ?_⟩
  · rcases hLast with ⟨-, hOk⟩ | ⟨e, -, hError⟩
    · obtain rfl := Except.ok.inj (hOk.symm.trans hTokens)
      exact hReads made last hMade
    · exact absurd (hError.symm.trans hTokens) (by simp)
  · rcases hLast with ⟨-, hOk⟩ | ⟨e', hFailed, hError⟩
    · exact absurd (hOk.symm.trans hTokens) (by simp)
    · obtain rfl := Except.error.inj (hError.symm.trans hTokens)
      obtain ⟨before, hText, hPlace⟩ := (hMade.standsIn hAnchored hStart).1.skipBlanks
      have hCounts := Position.counts_after before
      rw [← hPlace] at hCounts
      have hActs := hFailed ▸ lexer.acts_step last
      cases hActs with
      | broken hMem hFind hBroken =>
        obtain ⟨behind, -, hAdvance⟩ := hAnchored.exists_advance hMem hFind
        exact absurd (hBroken.symm.trans hAdvance) (by simp)
      | stuck => exact ⟨made, last, before, _, _, _, hMade, hFailed, hText, rfl, hCounts⟩

theorem places_exact_notes : Notes.lexer.Anchored ∧
    (∃ ts, Notes.lexer.tokens "12 #é\n 7" = .ok ts ∧
      ts.map (fun t => (t.start, t.stop, t.line, t.column)) = [(0, 2, 1, 1), (8, 9, 2, 2)] ∧
      ∀ t ∈ ts, t.LiesIn "12 #é\n 7".toList) ∧
    ∃ offset before, Notes.lexer.tokens "12 #é\n 7 ?!" = .error (.unexpectedLexeme 2 4 "?!") ∧
      (⟨offset, 2, 4⟩ : Position).Counts before := by
  refine ⟨Notes.anchored, ⟨_, Notes.tokens_numbers, rfl, ?_⟩, ?_⟩
  · exact (places_exact Notes.anchored _).2.1 _ Notes.tokens_numbers
  · obtain ⟨ts, cursor, before, line, column, lexeme, -, -, -, hPlace, hCounts⟩ :=
      (places_exact Notes.anchored _).2.2 _ Notes.tokens_marks
    cases hPlace
    exact ⟨_, before, Notes.tokens_marks, hCounts⟩

end Lexer

end Lexigram
