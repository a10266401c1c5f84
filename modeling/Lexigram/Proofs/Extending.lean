import Mathlib.Tactic.Tauto
import Lexigram.Proofs.Reading

/-! # More terminals at the end

A terminal that is registered behind all others of its kind is tried only where the lexer would otherwise
get stuck or, if it is significant, drop a lexeme. Up to the first such place the lexer takes the same
steps as before, so what it has made by then stays, and any error it comes to now lies behind that place.
-/

namespace Lexigram

namespace Position

def Before (p q : Position) : Prop :=
  p.line < q.line ∨ p.line = q.line ∧ p.column < q.column

theorem Before.trans {p q r : Position} (h : p.Before q) (h' : q.Before r) : p.Before r := by
  unfold Before at h h' ⊢
  omega

theorem before_next (p : Position) (c : Char) : p.Before (p.next c) := by
  unfold next
  split
  · exact .inl (Nat.lt_succ_self _)
  · exact .inr ⟨rfl, Nat.lt_succ_self _⟩

theorem Before.after {p q : Position} (h : p.Before q) (text : List Char) : p.Before (q.after text) := by
  induction text generalizing q with
  | nil => exact h
  | cons c text ih => exact ih (h.trans (q.before_next c))

theorem before_after (p : Position) {text : List Char} (hText : text ≠ []) : p.Before (p.after text) := by
  obtain ⟨c, text, rfl⟩ := List.exists_cons_of_ne_nil hText
  exact (p.before_next c).after text

end Position

namespace Lexer

/-- Next to the answer for a text, the answer after a terminal was added. Tokens stay as they are. Instead
of an error there are tokens, which begin with those made before it, or the same error, or an error at a
later place. -/
inductive Continues (made : List Token) :
    Except LexError (List Token) → Except LexError (List Token) → Prop
  | same (ts : List Token) : Continues made (.ok ts) (.ok ts)
  | finished (e : LexError) {ts : List Token} (h : made <+: ts) : Continues made (.error e) (.ok ts)
  | stuck (e : LexError) : Continues made (.error e) (.error e)
  | further {line column line' column' : Nat} (lexeme lexeme' : String)
    (h : line < line' ∨ line = line' ∧ column < column') :
    Continues made (.error (.unexpectedLexeme line column lexeme))
      (.error (.unexpectedLexeme line' column' lexeme'))

/-- The lexer goes from one cursor to the other and makes a token with every step. -/
inductive Keeps (lexer : Lexer) : Cursor → List Token → Cursor → Prop
  | here (cursor : Cursor) : Keeps lexer cursor [] cursor
  | token {cursor next last : Cursor} {t : Token} {ts : List Token}
    (h : lexer.step cursor = .token t next) (h' : Keeps lexer next ts last) :
    Keeps lexer cursor (t :: ts) last

section Anchored

variable {lexer : Lexer} {cursor next last : Cursor} {ts : List Token} {e : LexError}

theorem Anchored.failed_eq (hAnchored : lexer.Anchored) (h : lexer.step cursor = .failed e) :
    cursor.skipBlanks.rest ≠ [] ∧ e = unexpected cursor.skipBlanks.place cursor.skipBlanks.rest := by
  have hActs := h ▸ lexer.acts_step cursor
  cases hActs with
  | broken hMem hFind hBroken =>
    obtain ⟨behind, -, hAdvance⟩ := hAnchored.exists_advance hMem hFind
    rw [hBroken] at hAdvance
    cases hAdvance
  | stuck hText => exact ⟨hText, rfl⟩

theorem Anchored.before_of_step (hAnchored : lexer.Anchored)
    (h : (lexer.step cursor).next? = some next) : cursor.skipBlanks.place.Before next.place := by
  have hLexeme {terminal : Terminal} {lexeme : List Char} {next : Cursor}
      (hMem : terminal ∈ lexer.significant ++ lexer.ignorable)
      (hFind : terminal.pattern.find cursor.skipBlanks.rest = some lexeme)
      (hNext : cursor.skipBlanks.advance lexeme = .ok next) :
      cursor.skipBlanks.place.Before next.place := by
    obtain ⟨behind, -, hAdvance⟩ := hAnchored.exists_advance hMem hFind
    rw [hNext] at hAdvance
    cases hAdvance
    exact Position.before_after _ (Pattern.find_ne_nil hFind)
  have hActs := lexer.acts_step cursor
  generalize lexer.step cursor = step at h hActs
  cases hActs with
  | token hFinds hNext =>
    cases h
    exact hLexeme (List.mem_append_left _ hFinds.mem) hFinds.find_eq hNext
  | dropped _ hFinds hNext =>
    cases h
    exact hLexeme (List.mem_append_right _ hFinds.mem) hFinds.find_eq hNext
  | done | broken | stuck => cases h

theorem Reads.before (h : lexer.Reads cursor ts last) (hAnchored : lexer.Anchored) {p : Position}
    (hp : p.Before cursor.place) : p.Before last.place := by
  induction h with
  | here => exact hp
  | token hStep _ ih =>
    exact ih ((hp.after _).trans (hAnchored.before_of_step (by rw [hStep]; rfl)))
  | dropped hStep _ ih =>
    exact ih ((hp.after _).trans (hAnchored.before_of_step (by rw [hStep]; rfl)))

theorem exists_reads_of_next? (h : (lexer.step cursor).next? = some next) :
    ∃ ts, lexer.Reads cursor ts next := by
  cases hStep : lexer.step cursor with
  | token t after =>
    rw [hStep] at h
    cases h
    exact ⟨[t], .token hStep (.here _)⟩
  | dropped after =>
    rw [hStep] at h
    cases h
    exact ⟨[], .dropped hStep (.here _)⟩
  | done | failed =>
    rw [hStep] at h
    cases h

theorem Reads.continues {old new : Lexer} (hOld : old.Anchored) (hNew : new.Anchored)
    {made : List Token} (hReads : old.Reads cursor made last) (hReads' : new.Reads cursor made last)
    (hStops : (old.step last).next? = none) (hDone : old.step last = .done → new.step last = .done) :
    Continues made (old.tokensFrom cursor) (new.tokensFrom cursor) := by
  rw [hReads.tokensFrom_eq, hReads'.tokensFrom_eq]
  cases hStep : old.step last with
  | token | dropped =>
    rw [hStep] at hStops
    cases hStops
  | done =>
    rw [tokensFrom_eq_step, tokensFrom_eq_step, hDone hStep, hStep]
    exact .same _
  | failed e =>
    obtain ⟨hText, rfl⟩ := hOld.failed_eq hStep
    rw [tokensFrom_eq_step, hStep]
    cases hNext : (new.step last).next? with
    | none =>
      cases hStep' : new.step last with
      | token | dropped =>
        rw [hStep'] at hNext
        cases hNext
      | done =>
        have hActs := hStep' ▸ new.acts_step last
        cases hActs with
        | done hEnd => exact absurd hEnd hText
      | failed e =>
        obtain ⟨-, rfl⟩ := hNew.failed_eq hStep'
        rw [tokensFrom_eq_step, hStep']
        exact .stuck _
    | some next =>
      -- The new lexer takes a lexeme where the old one got stuck.
      obtain ⟨front, hFront⟩ := exists_reads_of_next? hNext
      obtain ⟨ts, last', hRest, hAnswer⟩ := new.exists_reads next
      rw [hFront.tokensFrom_eq]
      rcases hAnswer with ⟨-, hTokens⟩ | ⟨e, hStep', hTokens⟩
      · rw [hTokens]
        exact .finished _ (List.prefix_append made _)
      · obtain ⟨-, rfl⟩ := hNew.failed_eq hStep'
        rw [hTokens]
        exact .further _ _ ((hRest.before hNew (hNew.before_of_step hNext)).after _)

end Anchored

section Extended

variable {lexer : Lexer} {terminal : Terminal} {cursor last : Cursor} {ts : List Token}

theorem firstMatch_append (before after : List Terminal) (text : List Char) :
    firstMatch (before ++ after) text = (firstMatch before text).or (firstMatch after text) := by
  induction before with
  | nil => rfl
  | cons t before ih =>
    rw [List.cons_append, firstMatch, firstMatch, ih]
    cases t.pattern.find text <;> rfl

theorem step_ignore (h : ∀ e, lexer.step cursor ≠ .failed e) :
    (lexer.ignore terminal).step cursor = lexer.step cursor := by
  unfold step at h ⊢
  dsimp only at h ⊢
  rw [significant_ignore, ignorable_ignore, firstMatch_append]
  cases hIgnorable : firstMatch lexer.ignorable cursor.skipBlanks.rest with
  | some found => rfl
  | none =>
    -- Only here would the new terminal be tried, and only if the lexer were to fail.
    rw [hIgnorable] at h
    split
    · rfl
    · rename_i hText
      rw [if_neg hText] at h
      cases hSignificant : firstMatch lexer.significant cursor.skipBlanks.rest with
      | some found => rfl
      | none =>
        rw [hSignificant] at h
        exact absurd rfl (h _)

theorem step_register (h : ∀ e, lexer.step cursor ≠ .failed e)
    (h' : ∀ next, lexer.step cursor ≠ .dropped next) :
    (lexer.register terminal).step cursor = lexer.step cursor := by
  unfold step at h h' ⊢
  dsimp only at h h' ⊢
  rw [significant_register, ignorable_register, firstMatch_append]
  split
  · rfl
  · rename_i hText
    rw [if_neg hText] at h h'
    cases hSignificant : firstMatch lexer.significant cursor.skipBlanks.rest with
    | some found => rfl
    | none =>
      rw [hSignificant] at h h'
      cases hIgnorable : firstMatch lexer.ignorable cursor.skipBlanks.rest with
      | none =>
        rw [hIgnorable] at h
        exact absurd rfl (h _)
      | some found =>
        rw [hIgnorable] at h h'
        dsimp only at h h'
        cases hAdvance : cursor.skipBlanks.advance found.2 with
        | ok next =>
          rw [hAdvance] at h'
          exact absurd rfl (h' next)
        | error e =>
          rw [hAdvance] at h
          exact absurd rfl (h e)

theorem Reads.ignore (h : lexer.Reads cursor ts last) : (lexer.ignore terminal).Reads cursor ts last := by
  induction h with
  | here cursor => exact .here cursor
  | token hStep _ ih =>
    refine .token ?_ ih
    rw [step_ignore (by rw [hStep]; exact nofun), hStep]
  | dropped hStep _ ih =>
    refine .dropped ?_ ih
    rw [step_ignore (by rw [hStep]; exact nofun), hStep]

theorem Keeps.reads (h : lexer.Keeps cursor ts last) : lexer.Reads cursor ts last := by
  induction h with
  | here cursor => exact .here cursor
  | token hStep _ ih => exact .token hStep ih

theorem Keeps.register (h : lexer.Keeps cursor ts last) : (lexer.register terminal).Reads cursor ts last := by
  induction h with
  | here cursor => exact .here cursor
  | token hStep _ ih =>
    refine .token ?_ ih
    rw [step_register (by rw [hStep]; exact nofun) (by rw [hStep]; exact nofun), hStep]

theorem Anchored.extend (hAnchored : lexer.Anchored)
    (hTerminal : ∀ text lexeme, terminal.pattern.find text = some lexeme → lexeme <+: text) :
    (lexer.ignore terminal).Anchored ∧ (lexer.register terminal).Anchored := by
  have hExtended (extended : List Terminal)
      (hMem : ∀ t ∈ extended, t ∈ lexer.significant ++ lexer.ignorable ∨ t = terminal) :
      ∀ t ∈ extended, ∀ text lexeme, t.pattern.find text = some lexeme → lexeme <+: text := by
    intro t ht
    rcases hMem t ht with ht | rfl
    · exact hAnchored t ht
    · exact hTerminal
  constructor
  · refine hExtended _ fun t ht => ?_
    rw [significant_ignore, ignorable_ignore, ← List.append_assoc] at ht
    exact (List.mem_append.mp ht).imp_right List.mem_singleton.mp
  · refine hExtended _ fun t ht => ?_
    rw [significant_register, ignorable_register] at ht
    simp only [List.mem_append, List.mem_singleton] at ht ⊢
    tauto

/-- A terminal that is added at the lowest priority extends what the lexer does and changes nothing of it:
as an ignorable terminal for every text, and as a significant one for those where the lexer drops nothing
until it stops. -/
theorem extends_conservatively (hAnchored : lexer.Anchored)
    (hTerminal : ∀ text lexeme, terminal.pattern.find text = some lexeme → lexeme <+: text)
    (text : String) :
    (∃ made last, lexer.Reads ⟨{}, text.toList⟩ made last ∧ (lexer.step last).next? = none) ∧
    ∀ made last, lexer.Reads ⟨{}, text.toList⟩ made last → (lexer.step last).next? = none →
      Continues made (lexer.tokens text) ((lexer.ignore terminal).tokens text) ∧
      (lexer.Keeps ⟨{}, text.toList⟩ made last →
        Continues made (lexer.tokens text) ((lexer.register terminal).tokens text)) := by
  obtain ⟨hIgnore, hRegister⟩ := hAnchored.extend hTerminal
  refine ⟨?_, fun made last hReads hStops => ⟨?_, fun hKeeps => ?_⟩⟩
  · obtain ⟨made, last, hReads, hAnswer⟩ := lexer.exists_reads ⟨{}, text.toList⟩
    refine ⟨made, last, hReads, ?_⟩
    rcases hAnswer with ⟨hStep, -⟩ | ⟨e, hStep, -⟩ <;>
    · rw [hStep]
      rfl
  · refine hReads.continues hAnchored hIgnore hReads.ignore hStops fun hDone => ?_
    rw [step_ignore (by rw [hDone]; exact nofun), hDone]
  · refine hReads.continues hAnchored hRegister hKeeps.register hStops fun hDone => ?_
    rw [step_register (by rw [hDone]; exact nofun) (by rw [hDone]; exact nofun), hDone]

end Extended

end Lexer

def Notes.word : Terminal :=
  ⟨4, "word", ⟨"[a-z]+", .tied (.rep (.chars (.range 'a' 'z')) 1 none true), none⟩⟩

theorem Lexer.extends_conservatively_notes : Notes.lexer.Anchored ∧
    (∀ text lexeme, Notes.word.pattern.find text = some lexeme → lexeme <+: text) ∧
    (∃ made, Continues made (.error (.unexpectedLexeme 1 4 "ab"))
      ((Notes.lexer.ignore Notes.word).tokens "12 ab ?") ∧
      (Notes.lexer.ignore Notes.word).tokens "12 ab ?" = .error (.unexpectedLexeme 1 7 "?")) ∧
    ∃ made, made.map Token.text = ["12"] ∧ Continues made (.error (.unexpectedLexeme 1 4 "ab"))
      ((Notes.lexer.register Notes.word).tokens "12 ab") := by
  have hWord (text lexeme : List Char) (h : Notes.word.pattern.find text = some lexeme) :
      lexeme <+: text := Pattern.isPrefix_of_find rfl h
  have hOld : Notes.lexer.tokens "12 ab ?" = .error (.unexpectedLexeme 1 4 "ab") :=
    (Reads.token rfl (.here _)).tokensFrom_eq_error rfl
  have hOld' : Notes.lexer.tokens "12 ab" = .error (.unexpectedLexeme 1 4 "ab") :=
    (Reads.token rfl (.here _)).tokensFrom_eq_error rfl
  have hNew : (Notes.lexer.ignore Notes.word).tokens "12 ab ?" = .error (.unexpectedLexeme 1 7 "?") :=
    (Reads.token rfl (.dropped rfl (.here _))).tokensFrom_eq_error rfl
  refine ⟨Notes.anchored, hWord, ?_, ?_⟩
  · obtain ⟨⟨made, last, hReads, hStops⟩, hContinues⟩ :=
      extends_conservatively Notes.anchored hWord "12 ab ?"
    refine ⟨made, ?_, hNew⟩
    rw [← hOld]
    exact (hContinues made last hReads hStops).1
  · have hKeeps : ∃ t last, Notes.lexer.Keeps ⟨{}, "12 ab".toList⟩ [t] last ∧ t.text = "12" ∧
        (Notes.lexer.step last).next? = none :=
      ⟨_, _, .token rfl (.here _), rfl, rfl⟩
    obtain ⟨t, last, hKeeps, hText, hStops⟩ := hKeeps
    refine ⟨[t], congrArg (· :: []) hText, ?_⟩
    rw [← hOld']
    exact ((extends_conservatively Notes.anchored hWord "12 ab").2 [t] last hKeeps.reads hStops).2 hKeeps

end Lexigram
