import Lexigram.Proofs.Matching
import Lexigram.Proofs.Pieces

/-! # Segmentation of a text

A run takes a text apart greedily from its beginning: the blanks, then the lexeme of the first significant
terminal that finds one, else that of the first ignorable one. It ends at the end of the text, or where
no terminal finds anything. A lexer of anchored patterns gives exactly the tokens of the run.
-/

namespace Lexigram

namespace Lexer

/-- The lexeme is what is found by the first of the terminals that finds anything. -/
def Finds (terminals : List Terminal) (text : List Char) (terminal : Terminal) (lexeme : List Char) :
    Prop :=
  ∃ before after, terminals = before ++ terminal :: after ∧
    terminal.pattern.find text = some lexeme ∧ ∀ t ∈ before, t.pattern.find text = none

def FindsNone (terminals : List Terminal) (text : List Char) : Prop :=
  ∀ t ∈ terminals, t.pattern.find text = none

/-- The piece that the lexer takes from the beginning of a text. -/
inductive Takes (lexer : Lexer) (text : List Char) : Piece → Prop
  | token {terminal : Terminal} {lexeme : List Char}
    (hFinds : Finds lexer.significant text terminal lexeme) : Takes lexer text (.token terminal lexeme)
  | dropped {terminal : Terminal} {lexeme : List Char} (hNone : FindsNone lexer.significant text)
    (hFinds : Finds lexer.ignorable text terminal lexeme) : Takes lexer text (.dropped terminal lexeme)

def Stops (lexer : Lexer) (text : List Char) : Prop :=
  text = [] ∨ FindsNone lexer.significant text ∧ FindsNone lexer.ignorable text

/-- The run of the lexer over a text: its pieces, and what is left where it stops. -/
inductive Run (lexer : Lexer) : List Char → List Piece → List Char → Prop
  | stop {blanks left : List Char} (hBlanks : ∀ c ∈ blanks, c ≤ ' ')
    (hNext : ∀ c ∈ left.head?, ' ' < c) (hStops : lexer.Stops left) :
    Run lexer (blanks ++ left) [.blanks blanks] left
  | take {blanks rest left : List Char} {piece : Piece} {pieces : List Piece}
    (hBlanks : ∀ c ∈ blanks, c ≤ ' ') (hNext : ∀ c ∈ (piece.text ++ rest).head?, ' ' < c)
    (hTakes : lexer.Takes (piece.text ++ rest) piece) (h : Run lexer rest pieces left) :
    Run lexer (blanks ++ (piece.text ++ rest)) (.blanks blanks :: piece :: pieces) left

/-- Whatever a pattern of the lexer finds stands at the beginning of the text. -/
def Anchored (lexer : Lexer) : Prop :=
  ∀ t ∈ lexer.significant ++ lexer.ignorable, ∀ text lexeme : List Char,
    t.pattern.find text = some lexeme → lexeme <+: text

def Fits (lexer : Lexer) : Piece → Prop
  | .blanks text => ∀ c ∈ text, c ≤ ' '
  | .token terminal text => terminal ∈ lexer.significant ∧ ∃ c behind, text = c :: behind ∧ ' ' < c
  | .dropped terminal text => terminal ∈ lexer.ignorable ∧ ∃ c behind, text = c :: behind ∧ ' ' < c

def unexpected (p : Position) (text : List Char) : LexError :=
  .unexpectedLexeme p.line p.column (String.ofList (untilBlank text))

section Finds

variable {terminals : List Terminal} {text lexeme lexeme' : List Char} {terminal terminal' : Terminal}

theorem firstMatch_eq_none_iff : firstMatch terminals text = none ↔ FindsNone terminals text := by
  unfold FindsNone
  induction terminals with
  | nil => simp [firstMatch]
  | cons t terminals ih =>
    unfold firstMatch
    cases hFind : t.pattern.find text with
    | some lexeme => simp [hFind]
    | none => simp [hFind, ih]

theorem Finds.firstMatch_eq (h : Finds terminals text terminal lexeme) :
    firstMatch terminals text = some (terminal, lexeme) :=
  firstMatch_eq_some_iff.mpr h

theorem Finds.mem (h : Finds terminals text terminal lexeme) : terminal ∈ terminals := by
  obtain ⟨before, after, rfl, -⟩ := h
  exact List.mem_append_right _ List.mem_cons_self

theorem Finds.find_eq (h : Finds terminals text terminal lexeme) :
    terminal.pattern.find text = some lexeme := by
  obtain ⟨before, after, -, hFind, -⟩ := h
  exact hFind

theorem Finds.unique (h : Finds terminals text terminal lexeme)
    (h' : Finds terminals text terminal' lexeme') : terminal = terminal' ∧ lexeme = lexeme' := by
  have hSame := h.firstMatch_eq.symm.trans h'.firstMatch_eq
  cases hSame
  exact ⟨rfl, rfl⟩

theorem Finds.not_findsNone (h : Finds terminals text terminal lexeme) : ¬ FindsNone terminals text := by
  intro hNone
  have hSame := h.firstMatch_eq.symm.trans (firstMatch_eq_none_iff.mpr hNone)
  cases hSame

end Finds

namespace Takes

variable {lexer : Lexer} {text : List Char} {piece piece' : Piece}

theorem exists_find (h : lexer.Takes text piece) : ∃ t ∈ lexer.significant ++ lexer.ignorable,
    t.pattern.find text = some piece.text := by
  cases h with
  | token hFinds => exact ⟨_, List.mem_append_left _ hFinds.mem, hFinds.find_eq⟩
  | dropped _ hFinds => exact ⟨_, List.mem_append_right _ hFinds.mem, hFinds.find_eq⟩

theorem text_ne_nil (h : lexer.Takes text piece) : piece.text ≠ [] := by
  obtain ⟨t, -, hFind⟩ := h.exists_find
  exact Pattern.find_ne_nil hFind

theorem unique (h : lexer.Takes text piece) (h' : lexer.Takes text piece') : piece = piece' := by
  cases h with
  | token hFinds =>
    cases h' with
    | token hFinds' =>
      obtain ⟨rfl, rfl⟩ := hFinds.unique hFinds'
      rfl
    | dropped hNone' _ => exact absurd hNone' hFinds.not_findsNone
  | dropped hNone hFinds =>
    cases h' with
    | token hFinds' => exact absurd hNone hFinds'.not_findsNone
    | dropped _ hFinds' =>
      obtain ⟨rfl, rfl⟩ := hFinds.unique hFinds'
      rfl

theorem not_stops (h : lexer.Takes text piece) (hText : text ≠ []) : ¬ lexer.Stops text := by
  rintro (hNil | ⟨hSignificant, hIgnorable⟩)
  · exact hText hNil
  · cases h with
    | token hFinds => exact hFinds.not_findsNone hSignificant
    | dropped _ hFinds => exact hFinds.not_findsNone hIgnorable

end Takes

theorem takes_or_stops (lexer : Lexer) (text : List Char) :
    (∃ piece, lexer.Takes text piece) ∨ lexer.Stops text := by
  cases hSignificant : firstMatch lexer.significant text with
  | some found => exact .inl ⟨_, .token (firstMatch_eq_some_iff.mp hSignificant)⟩
  | none =>
    have hNone := firstMatch_eq_none_iff.mp hSignificant
    cases hIgnorable : firstMatch lexer.ignorable text with
    | some found => exact .inl ⟨_, .dropped hNone (firstMatch_eq_some_iff.mp hIgnorable)⟩
    | none => exact .inr (.inr ⟨hNone, firstMatch_eq_none_iff.mp hIgnorable⟩)

section Blanks

variable {blanks blanks' rest rest' : List Char}

theorem isBlank_eq_false_iff {c : Char} : isBlank c = false ↔ ' ' < c := by
  rw [Bool.eq_false_iff, Ne, isBlank_iff, Char.not_le]

theorem takeWhile_isBlank_append (hBlanks : ∀ c ∈ blanks, c ≤ ' ')
    (hNext : ∀ c ∈ rest.head?, ' ' < c) : (blanks ++ rest).takeWhile isBlank = blanks := by
  rw [List.takeWhile_append_of_pos fun c hc => isBlank_iff.mpr (hBlanks c hc)]
  cases rest with
  | nil => rw [List.takeWhile_nil, List.append_nil]
  | cons c rest =>
    have hc := isBlank_eq_false_iff.mpr (hNext c rfl)
    rw [List.takeWhile_cons, hc, if_neg Bool.false_ne_true, List.append_nil]

theorem dropBlanks_append (hBlanks : ∀ c ∈ blanks, c ≤ ' ') (hNext : ∀ c ∈ rest.head?, ' ' < c) :
    dropBlanks (blanks ++ rest) = rest := by
  have hWhole := takeWhile_append_dropBlanks (blanks ++ rest)
  rw [takeWhile_isBlank_append hBlanks hNext] at hWhole
  exact List.append_cancel_left hWhole

theorem blanks_unique (hBlanks : ∀ c ∈ blanks, c ≤ ' ') (hNext : ∀ c ∈ rest.head?, ' ' < c)
    (hBlanks' : ∀ c ∈ blanks', c ≤ ' ') (hNext' : ∀ c ∈ rest'.head?, ' ' < c)
    (h : blanks ++ rest = blanks' ++ rest') : blanks = blanks' ∧ rest = rest' := by
  constructor
  · rw [← takeWhile_isBlank_append hBlanks hNext, h, takeWhile_isBlank_append hBlanks' hNext']
  · rw [← dropBlanks_append hBlanks hNext, h, dropBlanks_append hBlanks' hNext']

theorem exists_blanks (text : List Char) : ∃ blanks rest, text = blanks ++ rest ∧
    (∀ c ∈ blanks, c ≤ ' ') ∧ ∀ c ∈ rest.head?, ' ' < c := by
  refine ⟨text.takeWhile isBlank, dropBlanks text, (takeWhile_append_dropBlanks text).symm, ?_, ?_⟩
  · exact fun c hc => isBlank_iff.mp (List.all_eq_true.mp List.all_takeWhile c hc)
  · intro c hc
    have hNot := List.head?_dropWhile_not isBlank text
    rw [← dropBlanks, Option.mem_def.mp hc] at hNot
    exact isBlank_eq_false_iff.mp hNot

end Blanks

section Steps

variable {lexer : Lexer} {blanks rest : List Char} {piece : Piece}

theorem skipBlanks_append (hBlanks : ∀ c ∈ blanks, c ≤ ' ') (hNext : ∀ c ∈ rest.head?, ' ' < c)
    (p : Position) : (⟨p, blanks ++ rest⟩ : Cursor).skipBlanks = ⟨p.after blanks, rest⟩ := by
  rw [Cursor.skipBlanks, dropBlanks_append hBlanks hNext, takeWhile_isBlank_append hBlanks hNext]

theorem advance_append (p : Position) (lexeme rest : List Char) :
    (⟨p, lexeme ++ rest⟩ : Cursor).advance lexeme = .ok ⟨p.after lexeme, rest⟩ := by
  rw [Cursor.advance, dropBytes?_append]

theorem tokensFrom_eq_step (cursor : Cursor) : lexer.tokensFrom cursor =
    match lexer.step cursor with
    | .done => .ok []
    | .token t next => (lexer.tokensFrom next).map (t :: ·)
    | .dropped next => lexer.tokensFrom next
    | .failed e => .error e := by
  rw [tokensFrom]
  cases lexer.step cursor with
  | done => rfl
  | token t next => rfl
  | dropped next => rfl
  | failed e => rfl

/-- The lexer goes from one cursor to the other and makes these tokens on its way. -/
inductive Reads (lexer : Lexer) : Cursor → List Token → Cursor → Prop
  | here (cursor : Cursor) : Reads lexer cursor [] cursor
  | token {cursor next last : Cursor} {t : Token} {ts : List Token}
    (h : lexer.step cursor = .token t next) (h' : Reads lexer next ts last) :
    Reads lexer cursor (t :: ts) last
  | dropped {cursor next last : Cursor} {ts : List Token} (h : lexer.step cursor = .dropped next)
    (h' : Reads lexer next ts last) : Reads lexer cursor ts last

theorem Reads.tokensFrom_eq {cursor last : Cursor} {ts : List Token} (h : lexer.Reads cursor ts last) :
    lexer.tokensFrom cursor = (lexer.tokensFrom last).map (ts ++ ·) := by
  induction h with
  | here cursor => cases lexer.tokensFrom cursor <;> rfl
  | token hStep _ ih =>
    rw [tokensFrom_eq_step, hStep]
    dsimp only
    rw [ih]
    cases lexer.tokensFrom _ <;> rfl
  | dropped hStep _ ih =>
    rw [tokensFrom_eq_step, hStep]
    exact ih

theorem Reads.tokensFrom_eq_ok {cursor last : Cursor} {ts : List Token} (h : lexer.Reads cursor ts last)
    (hDone : lexer.step last = .done) : lexer.tokensFrom cursor = .ok ts := by
  rw [h.tokensFrom_eq, tokensFrom_eq_step, hDone]
  exact congrArg Except.ok (List.append_nil ts)

theorem Reads.tokensFrom_eq_error {cursor last : Cursor} {ts : List Token} {e : LexError}
    (h : lexer.Reads cursor ts last) (hFailed : lexer.step last = .failed e) :
    lexer.tokensFrom cursor = .error e := by
  rw [h.tokensFrom_eq, tokensFrom_eq_step, hFailed]
  rfl

theorem tokensFrom_of_stops (hBlanks : ∀ c ∈ blanks, c ≤ ' ') (hNext : ∀ c ∈ rest.head?, ' ' < c)
    (hStops : lexer.Stops rest) (p : Position) : lexer.tokensFrom ⟨p, blanks ++ rest⟩ =
      if rest = [] then .ok [] else .error (unexpected (p.after blanks) rest) := by
  have hSkip := skipBlanks_append hBlanks hNext p
  cases rest with
  | nil =>
    have hStep : lexer.step ⟨p, blanks ++ []⟩ = .done := by
      simp only [step, hSkip, List.isEmpty_nil, if_true]
    rw [tokensFrom_eq_step, hStep]
    rfl
  | cons c rest =>
    obtain ⟨hSignificant, hIgnorable⟩ := hStops.resolve_left (List.cons_ne_nil c rest)
    have hStep : lexer.step ⟨p, blanks ++ c :: rest⟩ =
        .failed (unexpected (p.after blanks) (c :: rest)) := by
      simp only [step, hSkip, firstMatch_eq_none_iff.mpr hSignificant,
        firstMatch_eq_none_iff.mpr hIgnorable]
      rfl
    rw [tokensFrom_eq_step, hStep]
    rfl

theorem tokensFrom_of_takes (hBlanks : ∀ c ∈ blanks, c ≤ ' ')
    (hNext : ∀ c ∈ (piece.text ++ rest).head?, ' ' < c) (hTakes : lexer.Takes (piece.text ++ rest) piece)
    (p : Position) : lexer.tokensFrom ⟨p, blanks ++ (piece.text ++ rest)⟩ =
      (lexer.tokensFrom ⟨(p.after blanks).after piece.text, rest⟩).map
        ((piece.token? (p.after blanks)).toList ++ ·) := by
  have hSkip := skipBlanks_append hBlanks hNext p
  have hSome : (piece.text ++ rest).isEmpty = false := by
    rw [List.isEmpty_eq_false_iff]
    exact List.append_ne_nil_of_left_ne_nil hTakes.text_ne_nil rest
  cases hTakes with
  | @token terminal lexeme hFinds =>
    have hStep : lexer.step ⟨p, blanks ++ (lexeme ++ rest)⟩ =
        .token (tokenAt terminal lexeme (p.after blanks) ((p.after blanks).after lexeme))
          ⟨(p.after blanks).after lexeme, rest⟩ := by
      simp only [Piece.text] at hSkip hSome hFinds
      simp only [step, hSkip, hSome, hFinds.firstMatch_eq, advance_append]
      rfl
    rw [tokensFrom_eq_step, Piece.text, hStep]
    rfl
  | @dropped terminal lexeme hNone hFinds =>
    have hStep : lexer.step ⟨p, blanks ++ (lexeme ++ rest)⟩ =
        .dropped ⟨(p.after blanks).after lexeme, rest⟩ := by
      simp only [Piece.text] at hSkip hSome hNone hFinds
      simp only [step, hSkip, hSome, firstMatch_eq_none_iff.mpr hNone, hFinds.firstMatch_eq,
        advance_append]
      rfl
    rw [tokensFrom_eq_step, Piece.text, hStep]
    dsimp only
    cases lexer.tokensFrom ⟨(p.after blanks).after lexeme, rest⟩ with
    | ok ts => rfl
    | error e => rfl

end Steps

namespace Run

variable {lexer : Lexer} {text left left' : List Char} {pieces pieces' : List Piece}

theorem join_append (h : lexer.Run text pieces left) : Piece.join pieces ++ left = text := by
  induction h with
  | stop => simp [Piece.text]
  | take _ _ _ _ ih =>
    rw [Piece.join_cons, Piece.join_cons, List.append_assoc, List.append_assoc, ih]
    rfl

theorem stops (h : lexer.Run text pieces left) : (∀ c ∈ left.head?, ' ' < c) ∧ lexer.Stops left := by
  induction h with
  | stop _ hNext hStops => exact ⟨hNext, hStops⟩
  | take _ _ _ _ ih => exact ih

theorem fits (h : lexer.Run text pieces left) : ∀ piece ∈ pieces, lexer.Fits piece := by
  induction h with
  | stop hBlanks =>
    intro piece hPiece
    rw [List.mem_singleton.mp hPiece]
    exact hBlanks
  | @take blanks rest _ piece _ hBlanks hNext hTakes _ ih =>
    rw [List.forall_mem_cons, List.forall_mem_cons]
    refine ⟨hBlanks, ?_, ih⟩
    obtain ⟨c, behind, hText⟩ := List.exists_cons_of_ne_nil hTakes.text_ne_nil
    have hFirst : ' ' < c := hNext c (by rw [hText]; rfl)
    cases hTakes with
    | token hFinds => exact ⟨hFinds.mem, c, behind, hText, hFirst⟩
    | dropped _ hFinds => exact ⟨hFinds.mem, c, behind, hText, hFirst⟩

theorem unique (h : lexer.Run text pieces left) (h' : lexer.Run text pieces' left') :
    pieces = pieces' ∧ left = left' := by
  induction h generalizing pieces' left' with
  | @stop blanks left hBlanks hNext hStops =>
    generalize hText : blanks ++ left = text at h'
    cases h' with
    | stop hBlanks' hNext' _ =>
      obtain ⟨rfl, rfl⟩ := blanks_unique hBlanks hNext hBlanks' hNext' hText
      exact ⟨rfl, rfl⟩
    | take hBlanks' hNext' hTakes _ =>
      obtain ⟨-, rfl⟩ := blanks_unique hBlanks hNext hBlanks' hNext' hText
      exact absurd hStops (hTakes.not_stops (List.append_ne_nil_of_left_ne_nil hTakes.text_ne_nil _))
  | @take blanks rest left piece pieces hBlanks hNext hTakes _ ih =>
    generalize hText : blanks ++ (piece.text ++ rest) = text at h'
    cases h' with
    | stop hBlanks' hNext' hStops =>
      obtain ⟨-, rfl⟩ := blanks_unique hBlanks hNext hBlanks' hNext' hText
      exact absurd hStops (hTakes.not_stops (List.append_ne_nil_of_left_ne_nil hTakes.text_ne_nil _))
    | take hBlanks' hNext' hTakes' h' =>
      obtain ⟨rfl, hSame⟩ := blanks_unique hBlanks hNext hBlanks' hNext' hText
      rw [← hSame] at hTakes'
      obtain rfl := hTakes.unique hTakes'
      rw [← List.append_cancel_left hSame] at h'
      obtain ⟨rfl, rfl⟩ := ih h'
      exact ⟨rfl, rfl⟩

theorem tokensFrom_eq (h : lexer.Run text pieces left) (p : Position) :
    lexer.tokensFrom ⟨p, text⟩ = if left = [] then .ok (Piece.tokens p pieces)
      else .error (unexpected (p.after (Piece.join pieces)) left) := by
  induction h generalizing p with
  | stop hBlanks hNext hStops =>
    rw [tokensFrom_of_stops hBlanks hNext hStops, Piece.join_cons, Piece.join_nil, List.append_nil]
    rfl
  | @take blanks rest left piece pieces hBlanks hNext hTakes _ ih =>
    rw [tokensFrom_of_takes hBlanks hNext hTakes, ih, Piece.join_cons, Piece.join_cons,
      Position.after_append, Position.after_append]
    by_cases hLeft : left = []
    · rw [if_pos hLeft, if_pos hLeft]
      rfl
    · rw [if_neg hLeft, if_neg hLeft]
      rfl

end Run

theorem Anchored.exists_run {lexer : Lexer} (hAnchored : lexer.Anchored) (text : List Char) :
    ∃ pieces left, lexer.Run text pieces left := by
  obtain ⟨length, hLength⟩ : ∃ length, length = text.length := ⟨_, rfl⟩
  induction length using Nat.strongRecOn generalizing text with
  | _ length ih =>
    obtain ⟨blanks, rest, rfl, hBlanks, hNext⟩ := exists_blanks text
    rcases lexer.takes_or_stops rest with ⟨piece, hTakes⟩ | hStops
    · obtain ⟨t, ht, hFind⟩ := hTakes.exists_find
      obtain ⟨behind, rfl⟩ := hAnchored t ht _ _ hFind
      have hShorter : 0 < piece.text.length := List.length_pos_iff.mpr hTakes.text_ne_nil
      simp only [List.length_append] at hLength
      obtain ⟨pieces, left, hRun⟩ := ih behind.length (by omega) behind rfl
      exact ⟨_, left, .take hBlanks hNext hTakes hRun⟩
    · exact ⟨_, rest, .stop hBlanks hNext hStops⟩

/-- What the tokens of a text are, given the pieces that it is taken apart into. -/
structure Segments (lexer : Lexer) (text : String) (pieces : List Piece) (ts : List Token) : Prop where
  tokens_eq : ts = Piece.tokens {} pieces
  text_eq : ∀ t ∈ ts, t.text.toUTF8 = text.toUTF8.extract t.start t.stop
  start_lt_stop : ∀ t ∈ ts, t.start < t.stop
  not_blank : ∀ t ∈ ts, ∃ c behind, t.text.toList = c :: behind ∧ ' ' < c
  ordered : ts.Pairwise fun a b => a.stop ≤ b.start
  covered : ∀ i < text.toUTF8.size, (∀ t ∈ ts, ¬ (t.start ≤ i ∧ i < t.stop)) →
    ∃ before piece after, pieces = before ++ piece :: after ∧
      ((∃ blanks, piece = .blanks blanks ∧ ∀ c ∈ blanks, c ≤ ' ') ∨
        ∃ terminal lexeme, piece = .dropped terminal lexeme ∧ terminal ∈ lexer.ignorable) ∧
      byteLength (Piece.join before) ≤ i ∧ i < byteLength (Piece.join before ++ piece.text)

theorem Run.segments {lexer : Lexer} {text : String} {pieces : List Piece}
    (h : lexer.Run text.toList pieces []) : lexer.Segments text pieces (Piece.tokens {} pieces) := by
  have hText : text.toList = Piece.join pieces := by rw [← h.join_append, List.append_nil]
  have hBytes : text.toUTF8 = (Piece.join pieces).utf8Encode := by
    rw [← hText, String.toUTF8_eq_toByteArray, String.utf8Encode_toList]
  have hNext (t : Token) (ht : t ∈ Piece.tokens {} pieces) :
      ∃ c behind, t.text.toList = c :: behind ∧ ' ' < c := by
    obtain ⟨before, terminal, lexeme, after, rfl, hLexeme, -⟩ := Piece.span_of_mem_tokens ht
    obtain ⟨-, c, behind, rfl, hc⟩ := h.fits _ (List.mem_append_right _ List.mem_cons_self)
    exact ⟨c, behind, by rw [hLexeme, String.toList_ofList], hc⟩
  refine ⟨rfl, ?_, ?_, hNext, Piece.tokens_pairwise {} pieces, ?_⟩
  · intro t ht
    obtain ⟨before, terminal, lexeme, after, rfl, hLexeme, hStart, hStop⟩ := Piece.span_of_mem_tokens ht
    rw [hBytes, hStart, hStop, hLexeme, Piece.join_append, Piece.join_cons, ← List.append_assoc,
      String.toUTF8_eq_toByteArray, String.toByteArray_ofList]
    exact (extract_utf8Encode _ lexeme _).symm
  · intro t ht
    obtain ⟨c, behind, hCons, -⟩ := hNext t ht
    obtain ⟨before, terminal, lexeme, after, -, hLexeme, hStart, hStop⟩ := Piece.span_of_mem_tokens ht
    have hSize := c.utf8Size_pos
    rw [hLexeme, String.toList_ofList] at hCons
    rw [hStart, hStop, byteLength_append, hCons, byteLength_cons]
    omega
  · intro i hi hOutside
    rw [hBytes, size_utf8Encode] at hi
    obtain ⟨before, piece, after, rfl, hStart, hStop⟩ := Piece.exists_piece hi
    refine ⟨before, piece, after, rfl, ?_, hStart, hStop⟩
    have hFits := h.fits piece (List.mem_append_right _ List.mem_cons_self)
    cases piece with
    | blanks blanks => exact .inl ⟨blanks, rfl, hFits⟩
    | dropped terminal lexeme => exact .inr ⟨terminal, lexeme, rfl, hFits.1⟩
    | token terminal lexeme =>
      obtain ⟨t, ht, hBegin, hEnd⟩ := Piece.exists_token before after terminal lexeme
      exact absurd ⟨hBegin ▸ hStart, hEnd ▸ hStop⟩ (hOutside t ht)

theorem untilBlank_spec (text : List Char) : ∃ rest, text = untilBlank text ++ rest ∧
    (∀ c ∈ untilBlank text, ' ' < c) ∧ ∀ c ∈ rest.head?, c ≤ ' ' := by
  refine ⟨text.dropWhile (!isBlank ·), List.takeWhile_append_dropWhile.symm, ?_, ?_⟩
  · intro c hc
    have hNot := List.all_eq_true.mp List.all_takeWhile c hc
    rw [Bool.not_eq_true'] at hNot
    exact isBlank_eq_false_iff.mp hNot
  · intro c hc
    have hBlank := List.head?_dropWhile_not (!isBlank ·) text
    rw [Option.mem_def.mp hc] at hBlank
    dsimp only at hBlank
    rw [Bool.not_eq_false'] at hBlank
    exact isBlank_iff.mp hBlank

theorem untilBlank_ne_nil {text : List Char} (hText : text ≠ []) (hNext : ∀ c ∈ text.head?, ' ' < c) :
    untilBlank text ≠ [] := by
  obtain ⟨c, behind, rfl⟩ := List.exists_cons_of_ne_nil hText
  have hc := isBlank_eq_false_iff.mpr (hNext c rfl)
  rw [untilBlank, List.takeWhile_cons, hc, Bool.not_false, if_pos rfl]
  exact List.cons_ne_nil _ _

/-- The tokens of a text are those of its run, which is unique; the text has tokens when the run
reaches its end, and otherwise the error is for what stands where the run stops. -/
theorem tokens_segment {lexer : Lexer} (hAnchored : lexer.Anchored) (text : String) :
    ∃ pieces left, lexer.Run text.toList pieces left ∧
      (∀ pieces' left', lexer.Run text.toList pieces' left' → pieces' = pieces ∧ left' = left) ∧
      Piece.join pieces ++ left = text.toList ∧
      ((∃ ts, lexer.tokens text = .ok ts) ↔ left = []) ∧
      (∀ ts, lexer.tokens text = .ok ts → lexer.Segments text pieces ts) ∧
      (left ≠ [] → ∃ lexeme rest, left = lexeme ++ rest ∧ lexeme ≠ [] ∧ (∀ c ∈ lexeme, ' ' < c) ∧
        (∀ c ∈ rest.head?, c ≤ ' ') ∧ lexer.tokens text = .error (.unexpectedLexeme
          ((Piece.join pieces).count '\n' + 1)
          (((Piece.join pieces).reverse.takeWhile (· != '\n')).length + 1) (String.ofList lexeme))) := by
  obtain ⟨pieces, left, hRun⟩ := hAnchored.exists_run text.toList
  have hTokens : lexer.tokens text = if left = [] then .ok (Piece.tokens {} pieces)
      else .error (unexpected (({} : Position).after (Piece.join pieces)) left) :=
    hRun.tokensFrom_eq {}
  refine ⟨pieces, left, hRun, fun pieces' left' h => h.unique hRun, hRun.join_append, ?_, ?_, ?_⟩
  · by_cases hLeft : left = []
    · rw [hTokens, if_pos hLeft]
      exact ⟨fun _ => hLeft, fun _ => ⟨_, rfl⟩⟩
    · rw [hTokens, if_neg hLeft]
      exact ⟨fun ⟨_, hts⟩ => absurd hts (by simp), fun h => absurd h hLeft⟩
  · intro ts hts
    by_cases hLeft : left = []
    · rw [hTokens, if_pos hLeft] at hts
      cases hts
      exact (hLeft ▸ hRun).segments
    · rw [hTokens, if_neg hLeft] at hts
      cases hts
  · intro hLeft
    obtain ⟨rest, hSplit, hLexeme, hRest⟩ := untilBlank_spec left
    refine ⟨untilBlank left, rest, hSplit, untilBlank_ne_nil hLeft hRun.stops.1, hLexeme, hRest, ?_⟩
    rw [hTokens, if_neg hLeft, unexpected, Position.line_after, Position.column_after, Nat.add_comm]

end Lexer

namespace Notes

def number : Terminal :=
  ⟨0, "number", ⟨"[0-9]+", .tied (.rep (.chars (.range '0' '9')) 1 none true), none⟩⟩

def comment : Terminal :=
  ⟨1, "comment", ⟨"#[^\n]*",
    .tied (.seq (.char '#') (.rep (.chars (.compl (.single '\n'))) 0 none true)), none⟩⟩

def lexer : Lexer where
  significant := [number]
  ignorable := [comment]

theorem anchored : lexer.Anchored := by
  intro t ht text lexeme hFind
  rcases List.mem_cons.mp ht with rfl | ht
  · exact Pattern.isPrefix_of_find rfl hFind
  · obtain rfl := List.mem_singleton.mp ht
    exact Pattern.isPrefix_of_find rfl hFind

theorem tokens_numbers : lexer.tokens "12 #é\n 7" =
    .ok [⟨number, "12", 0, 2, 1, 1⟩, ⟨number, "7", 8, 9, 2, 2⟩] :=
  (Lexer.Reads.token rfl (.dropped rfl (.token rfl (.here _)))).tokensFrom_eq_ok rfl

theorem tokens_marks : lexer.tokens "12 #é\n 7 ?!" = .error (.unexpectedLexeme 2 4 "?!") :=
  (Lexer.Reads.token rfl (.dropped rfl (.token rfl (.here _)))).tokensFrom_eq_error rfl

end Notes

theorem Lexer.tokens_segment_notes : Notes.lexer.Anchored ∧
    (∃ pieces ts, Notes.lexer.Run "12 #é\n 7".toList pieces [] ∧
      Notes.lexer.Segments "12 #é\n 7" pieces ts ∧ ts.map (·.text) = ["12", "7"]) ∧
    ∃ pieces left, Notes.lexer.Run "12 #é\n 7 ?!".toList pieces left ∧ left ≠ [] ∧
      Notes.lexer.tokens "12 #é\n 7 ?!" = .error (.unexpectedLexeme 2 4 "?!") := by
  refine ⟨Notes.anchored, ?_, ?_⟩
  · obtain ⟨pieces, left, hRun, -, -, hEnd, hSegments, -⟩ := tokens_segment Notes.anchored "12 #é\n 7"
    obtain rfl := hEnd.mp ⟨_, Notes.tokens_numbers⟩
    exact ⟨pieces, _, hRun, hSegments _ Notes.tokens_numbers, rfl⟩
  · obtain ⟨pieces, left, hRun, -, -, hEnd, -⟩ := tokens_segment Notes.anchored "12 #é\n 7 ?!"
    refine ⟨pieces, left, hRun, fun hLeft => ?_, Notes.tokens_marks⟩
    obtain ⟨ts, hTokens⟩ := hEnd.mpr hLeft
    rw [Notes.tokens_marks] at hTokens
    cases hTokens

end Lexigram
