import Lexigram.Lexer.Tokens

/-! # Pieces of a text

A text is made up of blanks, lexemes that are tokens and lexemes that are dropped. The place of a piece
follows from the pieces before it. Every byte lies in one piece, and tokens that follow each other have
spans that do not overlap.
-/

namespace Lexigram

namespace Position

variable (p : Position)

theorem after_concat (text : List Char) (c : Char) : p.after (text ++ [c]) = (p.after text).next c := by
  rw [after_append]
  rfl

theorem line_after (text : List Char) : (p.after text).line = p.line + text.count '\n' := by
  induction text generalizing p with
  | nil => rfl
  | cons c text ih =>
    rw [after_cons, ih, List.count_cons]
    by_cases hNewline : c = '\n'
    · simp only [next, hNewline, if_true, beq_self_eq_true]
      omega
    · simp [next, hNewline]

theorem column_after (text : List Char) :
    (({} : Position).after text).column = (text.reverse.takeWhile (· != '\n')).length + 1 := by
  obtain ⟨reversed, rfl⟩ : ∃ reversed : List Char, text = reversed.reverse :=
    ⟨text.reverse, text.reverse_reverse.symm⟩
  rw [List.reverse_reverse]
  induction reversed with
  | nil => rfl
  | cons c reversed ih =>
    rw [List.reverse_cons, after_concat]
    by_cases hNewline : c = '\n'
    · simp [next, hNewline]
    · simp [next, hNewline, ih]

end Position

theorem size_utf8Encode (text : List Char) : text.utf8Encode.size = byteLength text := by
  induction text with
  | nil => rw [List.utf8Encode_nil, ByteArray.size_empty, byteLength_nil]
  | cons c text ih =>
    rw [List.utf8Encode_cons, ByteArray.size_append, ih, List.utf8Encode_singleton,
      List.size_toByteArray, String.length_utf8EncodeChar, byteLength_cons]

/-- A part of a text is cut out of its bytes by the lengths of what stands before and of both. -/
theorem extract_utf8Encode (before lexeme after : List Char) :
    (before ++ lexeme ++ after).utf8Encode.extract (byteLength before) (byteLength (before ++ lexeme)) =
      lexeme.utf8Encode := by
  have hCut := ByteArray.extract_append_size_add (a := before.utf8Encode)
    (b := (lexeme ++ after).utf8Encode) (i := 0) (j := lexeme.utf8Encode.size)
  rw [Nat.add_zero] at hCut
  rw [byteLength_append, ← size_utf8Encode before, ← size_utf8Encode lexeme, List.append_assoc,
    List.utf8Encode_append, hCut, List.utf8Encode_append, ByteArray.extract_append_eq_left rfl]

inductive Piece where
  | blanks (text : List Char)
  | token (terminal : Terminal) (text : List Char)
  | dropped (terminal : Terminal) (text : List Char)

namespace Piece

def text : Piece → List Char
  | .blanks text => text
  | .token _ text => text
  | .dropped _ text => text

def join (pieces : List Piece) : List Char :=
  pieces.flatMap text

def token? (p : Position) : Piece → Option Token
  | .token terminal text => some (Lexer.tokenAt terminal text p (p.after text))
  | _ => none

def tokens : Position → List Piece → List Token
  | _, [] => []
  | p, piece :: pieces => (piece.token? p).toList ++ tokens (p.after piece.text) pieces

@[simp] theorem join_nil : join [] = [] :=
  rfl

@[simp] theorem join_cons (piece : Piece) (pieces : List Piece) :
    join (piece :: pieces) = piece.text ++ join pieces :=
  rfl

theorem join_append (before after : List Piece) : join (before ++ after) = join before ++ join after :=
  List.flatMap_append

theorem mem_tokens_iff {p : Position} {pieces : List Piece} {t : Token} :
    t ∈ tokens p pieces ↔ ∃ before piece after, pieces = before ++ piece :: after ∧
      piece.token? (p.after (join before)) = some t := by
  induction pieces generalizing p with
  | nil => simp [tokens]
  | cons first pieces ih =>
    rw [tokens, List.mem_append, Option.mem_toList, ih]
    constructor
    · rintro (hFirst | ⟨before, piece, after, rfl, hToken⟩)
      · exact ⟨[], first, pieces, rfl, hFirst⟩
      · refine ⟨first :: before, piece, after, rfl, ?_⟩
        rwa [join_cons, Position.after_append]
    · rintro ⟨before, piece, after, hPieces, hToken⟩
      cases before with
      | nil =>
        cases hPieces
        exact .inl hToken
      | cons _ before =>
        cases hPieces
        rw [join_cons, Position.after_append] at hToken
        exact .inr ⟨before, piece, after, rfl, hToken⟩

theorem token?_eq_some_iff {p : Position} {piece : Piece} {t : Token} :
    piece.token? p = some t ↔ ∃ terminal lexeme, piece = .token terminal lexeme ∧
      t = Lexer.tokenAt terminal lexeme p (p.after lexeme) := by
  cases piece with
  | token terminal lexeme =>
    simp only [token?, Option.some.injEq, Piece.token.injEq]
    constructor
    · rintro rfl
      exact ⟨terminal, lexeme, ⟨rfl, rfl⟩, rfl⟩
    · rintro ⟨_, _, ⟨rfl, rfl⟩, rfl⟩
      rfl
  | blanks lexeme => simp [token?]
  | dropped terminal lexeme => simp [token?]

/-- The span of a token among the pieces of a text is that of its piece. -/
theorem span_of_mem_tokens {pieces : List Piece} {t : Token} (h : t ∈ tokens {} pieces) :
    ∃ before terminal lexeme after, pieces = before ++ .token terminal lexeme :: after ∧
      t.text = String.ofList lexeme ∧ t.start = byteLength (join before) ∧
      t.stop = byteLength (join before ++ lexeme) := by
  obtain ⟨before, piece, after, rfl, hPiece⟩ := mem_tokens_iff.mp h
  obtain ⟨terminal, lexeme, rfl, rfl⟩ := token?_eq_some_iff.mp hPiece
  refine ⟨before, terminal, lexeme, after, rfl, rfl, ?_, ?_⟩
  · simp only [Lexer.tokenAt, Position.offset_after, Nat.zero_add]
  · simp only [Lexer.tokenAt, Position.offset_after, Nat.zero_add, byteLength_append]

theorem exists_token (before after : List Piece) (terminal : Terminal) (lexeme : List Char) :
    ∃ t ∈ tokens {} (before ++ .token terminal lexeme :: after), t.start = byteLength (join before) ∧
      t.stop = byteLength (join before ++ lexeme) := by
  refine ⟨_, mem_tokens_iff.mpr ⟨before, .token terminal lexeme, after, rfl, rfl⟩, ?_, ?_⟩
  · simp only [Lexer.tokenAt, Position.offset_after, Nat.zero_add]
  · simp only [Lexer.tokenAt, Position.offset_after, Nat.zero_add, byteLength_append]

theorem start_of_mem_tokens {p : Position} {pieces : List Piece} {t : Token} (h : t ∈ tokens p pieces) :
    p.offset ≤ t.start := by
  obtain ⟨before, piece, after, -, hToken⟩ := mem_tokens_iff.mp h
  obtain ⟨terminal, lexeme, -, rfl⟩ := token?_eq_some_iff.mp hToken
  rw [Lexer.tokenAt, Position.offset_after]
  exact Nat.le_add_right _ _

theorem tokens_pairwise (p : Position) (pieces : List Piece) :
    (tokens p pieces).Pairwise fun a b => a.stop ≤ b.start := by
  induction pieces generalizing p with
  | nil => exact .nil
  | cons piece pieces ih =>
    rw [tokens, List.pairwise_append]
    refine ⟨?_, ih _, fun a ha b hb => ?_⟩
    · cases piece.token? p with
      | none => exact .nil
      | some t => exact List.pairwise_singleton _ _
    · obtain ⟨terminal, lexeme, rfl, rfl⟩ := token?_eq_some_iff.mp (Option.mem_toList.mp ha)
      exact start_of_mem_tokens hb

theorem exists_piece {pieces : List Piece} {i : Nat} (h : i < byteLength (join pieces)) :
    ∃ before piece after, pieces = before ++ piece :: after ∧ byteLength (join before) ≤ i ∧
      i < byteLength (join before ++ piece.text) := by
  induction pieces generalizing i with
  | nil => exact absurd h (Nat.not_lt_zero i)
  | cons first pieces ih =>
    by_cases hFirst : i < byteLength first.text
    · exact ⟨[], first, pieces, rfl, Nat.zero_le i, hFirst⟩
    · rw [join_cons, byteLength_append] at h
      obtain ⟨before, piece, after, rfl, hStart, hStop⟩ := ih (i := i - byteLength first.text) (by omega)
      rw [byteLength_append] at hStop
      refine ⟨first :: before, piece, after, rfl, ?_, ?_⟩
      · rw [join_cons, byteLength_append]
        omega
      · rw [join_cons, byteLength_append, byteLength_append]
        omega

end Piece

end Lexigram
