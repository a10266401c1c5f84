import Mathlib.Logic.Relation
import Lexigram.Proofs.Reading

/-! # Progress through a text

The lexer's loop in another form: the text stays whole, and every turn looks at it from a byte offset on. A
turn moves on by the bytes of what it found without looking where that leads, and the next turn breaks if
that is inside a character. What a pattern finds lies in the text that it is given, wherever that is, so
every turn moves on and none leaves the text.
-/

namespace Lexigram

section Bytes

variable {text lexeme : List Char}

theorem dropBytes?_add (before rest : List Char) (n : Nat) :
    dropBytes? (byteLength before + n) (before ++ rest) = dropBytes? n rest := by
  induction before with
  | nil => rw [byteLength_nil, Nat.zero_add, List.nil_append]
  | cons c before ih =>
    have hPos := c.utf8Size_pos
    obtain ⟨m, hm⟩ : ∃ m, byteLength (c :: before) + n = m + 1 :=
      ⟨byteLength (c :: before) + n - 1, by rw [byteLength_cons]; omega⟩
    rw [byteLength_cons] at hm
    have hLeft : m + 1 - c.utf8Size = byteLength before + n := by omega
    rw [byteLength_cons, hm, List.cons_append, dropBytes?, if_pos (by omega), hLeft, ih]

theorem byteLength_le_of_isInfix (h : lexeme <:+: text) : byteLength lexeme ≤ byteLength text := by
  obtain ⟨before, behind, rfl⟩ := h
  rw [byteLength_append, byteLength_append]
  omega

/-- What a pattern finds is a part of the text, though not always its beginning. -/
theorem Pattern.isInfix_of_find {p : Pattern} (h : p.find text = some lexeme) : lexeme <:+: text := by
  unfold find at h
  split at h
  · rename_i first last _
    split at h
    · split at h
      · cases h
      · cases h
        exact (List.take_prefix _ _).isInfix.trans (List.drop_suffix first text).isInfix
    · cases h
  · cases h

end Bytes

namespace Lexer

inductive Turn where
  | done
  | token (t : Token) (next : Position)
  | dropped (next : Position)
  | failed (e : LexError)

def Turn.next? : Turn → Option Position
  | .token _ next => some next
  | .dropped next => some next
  | _ => none

/-- One turn of the lexer at a place in the text, which it looks at before and behind the blanks. -/
def turn (lexer : Lexer) (text : List Char) (place : Position) : Turn :=
  match dropBytes? place.offset text with
  | none => .failed .brokenCharacter
  | some rest =>
    let here := place.after (rest.takeWhile isBlank)
    match dropBytes? here.offset text with
    | none => .failed .brokenCharacter
    | some remaining =>
      if remaining.isEmpty then .done
      else
        match firstMatch lexer.significant remaining with
        | some (terminal, lexeme) =>
          .token (tokenAt terminal lexeme here (here.after lexeme)) (here.after lexeme)
        | none =>
          match firstMatch lexer.ignorable remaining with
          | some (_, lexeme) => .dropped (here.after lexeme)
          | none => .failed (unexpected here remaining)

def loop (lexer : Lexer) (text : List Char) : Nat → Position → Option (Except LexError (List Token))
  | 0, _ => none
  | turns + 1, place =>
    match lexer.turn text place with
    | .done => some (.ok [])
    | .token t next => (loop lexer text turns next).map (·.map (t :: ·))
    | .dropped next => loop lexer text turns next
    | .failed e => some (.error e)

/-- The lexer comes by a place when it takes turns from the beginning of the text. -/
def Visits (lexer : Lexer) (text : List Char) : Position → Prop :=
  Relation.ReflTransGen (fun place next => (lexer.turn text place).next? = some next) {}

variable {lexer : Lexer} {text rest : List Char} {place next : Position}

theorem turn_eq (hRest : dropBytes? place.offset text = some rest) : lexer.turn text place =
    let here := (⟨place, rest⟩ : Cursor).skipBlanks
    if here.rest.isEmpty then .done
    else
      match firstMatch lexer.significant here.rest with
      | some (terminal, lexeme) =>
        .token (tokenAt terminal lexeme here.place (here.place.after lexeme)) (here.place.after lexeme)
      | none =>
        match firstMatch lexer.ignorable here.rest with
        | some (_, lexeme) => .dropped (here.place.after lexeme)
        | none => .failed (unexpected here.place here.rest) := by
  obtain ⟨before, rfl, hOffset⟩ := dropBytes?_eq_some_iff.mp hRest
  have hBehind : dropBytes? (place.after (rest.takeWhile isBlank)).offset (before ++ rest) =
      some (dropBlanks rest) := by
    rw [Position.offset_after, hOffset, dropBytes?_add]
    exact dropBytes?_eq_some_iff.mpr ⟨_, (takeWhile_append_dropBlanks rest).symm, rfl⟩
  simp only [turn, hRest, hBehind]
  rfl

theorem exists_find_of_turn (hNext : (lexer.turn text place).next? = some next) :
    ∃ before rest, text = before ++ rest ∧ place.offset = byteLength before ∧
      ∃ terminal ∈ lexer.significant ++ lexer.ignorable, ∃ lexeme,
        terminal.pattern.find (dropBlanks rest) = some lexeme ∧
          next = (place.after (rest.takeWhile isBlank)).after lexeme := by
  cases hRest : dropBytes? place.offset text with
  | none =>
    rw [turn, hRest] at hNext
    cases hNext
  | some rest =>
    obtain ⟨before, hText, hOffset⟩ := dropBytes?_eq_some_iff.mp hRest
    refine ⟨before, rest, hText, hOffset, ?_⟩
    rw [turn_eq hRest] at hNext
    dsimp only [Cursor.skipBlanks] at hNext
    split at hNext
    · cases hNext
    · split at hNext
      · rename_i terminal lexeme hFirst
        cases hNext
        have hFinds : Finds lexer.significant _ terminal lexeme := firstMatch_eq_some_iff.mp hFirst
        exact ⟨terminal, List.mem_append_left _ hFinds.mem, lexeme, hFinds.find_eq, rfl⟩
      · split at hNext
        · rename_i terminal lexeme hFirst
          cases hNext
          have hFinds : Finds lexer.ignorable _ terminal lexeme := firstMatch_eq_some_iff.mp hFirst
          exact ⟨terminal, List.mem_append_right _ hFinds.mem, lexeme, hFinds.find_eq, rfl⟩
        · cases hNext

theorem turn_progress (hNext : (lexer.turn text place).next? = some next) :
    place.offset < next.offset ∧ next.offset ≤ byteLength text := by
  obtain ⟨before, rest, rfl, hOffset, terminal, -, lexeme, hFind, rfl⟩ := exists_find_of_turn hNext
  have hPos := byteLength_pos (Pattern.find_ne_nil hFind)
  have hWithin := byteLength_le_of_isInfix (Pattern.isInfix_of_find hFind)
  have hBlanks := congrArg byteLength (takeWhile_append_dropBlanks rest)
  rw [byteLength_append] at hBlanks
  rw [Position.offset_after, Position.offset_after, byteLength_append]
  omega

def answerFrom (lexer : Lexer) (text : List Char) (place : Position) : Except LexError (List Token) :=
  match dropBytes? place.offset text with
  | some rest => lexer.tokensFrom ⟨place, rest⟩
  | none => .error .brokenCharacter

/-- A place that is moved on to may lie inside a character. -/
theorem answerFrom_advance (hRest : dropBytes? place.offset text = some rest) (lexeme : List Char) :
    lexer.answerFrom text ((⟨place, rest⟩ : Cursor).skipBlanks.place.after lexeme) =
      match (⟨place, rest⟩ : Cursor).skipBlanks.advance lexeme with
      | .ok next => lexer.tokensFrom next
      | .error e => .error e := by
  obtain ⟨before, rfl, hOffset⟩ := dropBytes?_eq_some_iff.mp hRest
  have hDrop : dropBytes? ((⟨place, rest⟩ : Cursor).skipBlanks.place.after lexeme).offset
      (before ++ rest) = dropBytes? (byteLength lexeme) (dropBlanks rest) := by
    have hBlanks := dropBytes?_add (rest.takeWhile isBlank) (dropBlanks rest) (byteLength lexeme)
    rw [takeWhile_append_dropBlanks] at hBlanks
    rw [Position.offset_after, Cursor.skipBlanks, Position.offset_after, hOffset, Nat.add_assoc,
      dropBytes?_add, hBlanks]
  rw [answerFrom, hDrop, Cursor.advance, Cursor.skipBlanks]
  dsimp only
  cases dropBytes? (byteLength lexeme) (dropBlanks rest) with
  | some behind => rfl
  | none => rfl

theorem place_of_advance {cursor next : Cursor} {lexeme : List Char}
    (h : cursor.advance lexeme = .ok next) : next.place = cursor.place.after lexeme := by
  rw [Cursor.advance] at h
  split at h
  · cases h
    rfl
  · cases h

theorem answerFrom_eq_turn (lexer : Lexer) (text : List Char) (place : Position) :
    lexer.answerFrom text place = match lexer.turn text place with
    | .done => .ok []
    | .token t next => (lexer.answerFrom text next).map (t :: ·)
    | .dropped next => lexer.answerFrom text next
    | .failed e => .error e := by
  cases hRest : dropBytes? place.offset text with
  | none => rw [answerFrom, turn, hRest]
  | some rest =>
    have hHere : lexer.answerFrom text place = lexer.tokensFrom ⟨place, rest⟩ := by rw [answerFrom, hRest]
    rw [hHere, turn_eq hRest, tokensFrom_eq_step, step]
    dsimp only
    by_cases hEnd : (⟨place, rest⟩ : Cursor).skipBlanks.rest.isEmpty = true
    · rw [if_pos hEnd, if_pos hEnd]
    · rw [if_neg hEnd, if_neg hEnd]
      cases firstMatch lexer.significant (⟨place, rest⟩ : Cursor).skipBlanks.rest with
      | some found =>
        obtain ⟨terminal, lexeme⟩ := found
        dsimp only
        rw [answerFrom_advance hRest]
        cases hAdvance : (⟨place, rest⟩ : Cursor).skipBlanks.advance lexeme with
        | ok next =>
          rw [← place_of_advance hAdvance]
        | error e => rfl
      | none =>
        cases firstMatch lexer.ignorable (⟨place, rest⟩ : Cursor).skipBlanks.rest with
        | some found =>
          dsimp only
          rw [answerFrom_advance hRest]
          cases (⟨place, rest⟩ : Cursor).skipBlanks.advance found.2 with
          | ok next => rfl
          | error e => rfl
        | none => rfl

theorem loop_eq_answerFrom {turns : Nat} (hTurns : byteLength text < place.offset + turns)
    (hWithin : place.offset ≤ byteLength text) :
    lexer.loop text turns place = some (lexer.answerFrom text place) := by
  induction turns generalizing place with
  | zero => omega
  | succ turns ih =>
    have hLater (next : Position) (hNext : (lexer.turn text place).next? = some next) :
        lexer.loop text turns next = some (lexer.answerFrom text next) := by
      have := turn_progress hNext
      exact ih (by omega) this.2
    rw [loop, answerFrom_eq_turn]
    cases hTurn : lexer.turn text place with
    | done => rfl
    | token t next =>
      dsimp only
      rw [hLater next (by rw [hTurn]; rfl)]
      rfl
    | dropped next => exact hLater next (by rw [hTurn]; rfl)
    | failed e => rfl

def Between (text : List Char) (place : Position) : Prop :=
  ∃ before rest, text = before ++ rest ∧ place.offset = byteLength before

theorem Between.turn_ne_broken (h : Between text place) :
    lexer.turn text place ≠ .failed .brokenCharacter := by
  obtain ⟨before, rest, hText, hOffset⟩ := h
  rw [turn_eq (dropBytes?_eq_some_iff.mpr ⟨before, hText, hOffset⟩)]
  dsimp only
  split
  · exact nofun
  · split
    · exact nofun
    · split
      · exact nofun
      · exact nofun

theorem Anchored.between_next (hAnchored : lexer.Anchored)
    (hNext : (lexer.turn text place).next? = some next) : Between text next := by
  obtain ⟨before, rest, rfl, hOffset, terminal, hMem, lexeme, hFind, rfl⟩ := exists_find_of_turn hNext
  obtain ⟨behind, hBehind⟩ := hAnchored terminal hMem _ _ hFind
  refine ⟨before ++ rest.takeWhile isBlank ++ lexeme, behind, ?_, ?_⟩
  · rw [List.append_assoc, hBehind, List.append_assoc, takeWhile_append_dropBlanks]
  · rw [Position.offset_after, Position.offset_after, hOffset, byteLength_append, byteLength_append]

theorem Anchored.between_of_visits (hAnchored : lexer.Anchored) (h : lexer.Visits text place) :
    Between text place := by
  cases h with
  | refl => exact ⟨[], text, rfl, rfl⟩
  | tail _ hNext => exact hAnchored.between_next hNext

/-- Every turn that goes on takes at least a byte of the text, whatever the patterns, so the loop ends
after as many turns as there are bytes, and one more, with the answer of the lexer. With anchored patterns
no turn looks at the text from inside a character. -/
theorem progresses (lexer : Lexer) (text : String) :
    (∀ place next, (lexer.turn text.toList place).next? = some next →
      place.offset < next.offset ∧ next.offset ≤ text.utf8ByteSize) ∧
    lexer.loop text.toList (text.utf8ByteSize + 1) {} = some (lexer.tokens text) ∧
    (lexer.Anchored → lexer.tokens text ≠ .error .brokenCharacter ∧
      ∀ place, lexer.Visits text.toList place → Between text.toList place ∧
        lexer.turn text.toList place ≠ .failed .brokenCharacter) := by
  have hSize : text.utf8ByteSize = byteLength text.toList := by
    rw [← utf8ByteSize_ofList, String.ofList_toList]
  rw [hSize]
  refine ⟨fun place next hNext => turn_progress hNext, ?_, fun hAnchored => ⟨fun hBroken => ?_, ?_⟩⟩
  · have hTurns : byteLength text.toList < ({} : Position).offset + (byteLength text.toList + 1) := by
      rw [Nat.zero_add]
      exact Nat.lt_succ_self _
    have hStart : dropBytes? ({} : Position).offset text.toList = some text.toList :=
      dropBytes?_eq_some_iff.mpr ⟨[], rfl, rfl⟩
    rw [loop_eq_answerFrom hTurns (Nat.zero_le _), answerFrom, hStart, tokens]
  · obtain ⟨pieces, left, hRun⟩ := hAnchored.exists_run text.toList
    rw [tokens, hRun.tokensFrom_eq {}] at hBroken
    split at hBroken
    · cases hBroken
    · cases hBroken
  · intro place hVisits
    have hBetween := hAnchored.between_of_visits hVisits
    exact ⟨hBetween, hBetween.turn_ne_broken⟩

theorem progresses_notes : Notes.lexer.Anchored ∧
    Notes.lexer.tokens "12 #é\n 7" ≠ .error .brokenCharacter ∧
    ∃ place, place.offset = 2 ∧ Notes.lexer.Visits "12 #é\n 7".toList place ∧
      Between "12 #é\n 7".toList place := by
  obtain ⟨-, -, hWhole⟩ := progresses Notes.lexer "12 #é\n 7"
  obtain ⟨hTokens, hPlaces⟩ := hWhole Notes.anchored
  have hVisits : Notes.lexer.Visits "12 #é\n 7".toList ⟨2, 1, 3⟩ := .single rfl
  exact ⟨Notes.anchored, hTokens, ⟨2, 1, 3⟩, rfl, hVisits, (hPlaces _ hVisits).1⟩

end Lexer

end Lexigram
