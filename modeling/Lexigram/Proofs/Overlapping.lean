import Mathlib.Data.List.Basic
import Mathlib.Data.List.Induction
import Lexigram.Proofs.Shadowing

/-! # Terminals that are matched and ignored

A terminal may be registered both as significant and as ignorable. Then it is never ignored: significant
terminals are tried first, so its entry among the ignorable ones has no effect on any text. Each
registration that brings such an overlap about is reported, and terminals are told apart by identity, not
by name.
-/

namespace Lexigram

def Registration.terminal : Registration → Terminal
  | .significant terminal => terminal
  | .ignorable terminal => terminal

def Warning.isMatchedAndIgnored : Warning → Bool
  | .matchedAndIgnored _ => true
  | _ => false

namespace Lexer

/-- A request to a lexer. A source is made into a new terminal of that identity, which is significant. -/
inductive Request where
  | register (terminal : Terminal)
  | compile (id : Nat) (name source : String)
  | ignore (terminal : Terminal)

def Request.registration? : Request → Option Registration
  | .register terminal => some (.significant terminal)
  | .compile id name source => (Terminal.ofSource id name source).toOption.map .significant
  | .ignore terminal => some (.ignorable terminal)

def Request.terminal? (request : Request) : Option Terminal :=
  request.registration?.map Registration.terminal

def serve (lexer : Lexer) (request : Request) : Lexer :=
  (request.registration?).elim lexer lexer.extend

def served (config : LexerConfig) (requests : List Request) : Lexer :=
  requests.foldl serve { config }

def opposes (lexer : Lexer) : Registration → Bool
  | .significant terminal => lexer.ignores terminal
  | .ignorable terminal => lexer.produces terminal

/-- The lexer without those ignorable terminals that are significant too. -/
def withoutOverlap (lexer : Lexer) : Lexer :=
  { lexer with ignorable := lexer.ignorable.filter (!lexer.produces ·) }

def Overlaps (lexer : Lexer) : Prop :=
  ∃ s ∈ lexer.significant, ∃ t ∈ lexer.ignorable, s.same t = true

def overlapWarnings (lexer : Lexer) (registration : Registration) : List Warning :=
  if lexer.opposes registration then [.matchedAndIgnored registration.terminal.name] else []

variable {lexer : Lexer} {registration : Registration} {request : Request} {text : List Char}

theorem firstMatch_filter {p : Terminal → Bool} {terminals : List Terminal}
    (h : ∀ t ∈ terminals, p t = false → t.pattern.find text = none) :
    firstMatch (terminals.filter p) text = firstMatch terminals text := by
  induction terminals with
  | nil => rfl
  | cons t terminals ih =>
    have hRest := ih fun t' ht' => h t' (List.mem_cons_of_mem t ht')
    cases hKept : p t with
    | true => rw [List.filter_cons_of_pos hKept, firstMatch, firstMatch, hRest]
    | false =>
      rw [List.filter_cons_of_neg (by rw [hKept]; exact Bool.false_ne_true), firstMatch,
        h t List.mem_cons_self hKept, hRest]

/-- Where the ignorable terminals are tried no significant one finds anything, so neither does an ignorable
one that is the same terminal. -/
theorem step_withoutOverlap
    (hSame : ∀ s ∈ lexer.significant, ∀ t ∈ lexer.ignorable, s.same t = true → s = t) (cursor : Cursor) :
    lexer.withoutOverlap.step cursor = lexer.step cursor := by
  unfold step
  dsimp only [withoutOverlap]
  split
  · rfl
  · cases hSignificant : firstMatch lexer.significant cursor.skipBlanks.rest with
    | some found => rfl
    | none =>
      have hNone := firstMatch_eq_none_iff.mp hSignificant
      rw [firstMatch_filter fun t ht hDropped => ?_]
      obtain ⟨s, hs, hSameTerminal⟩ := List.any_eq_true.mp (Bool.not_eq_eq_eq_not.mp hDropped)
      rw [← hSame s hs t ht hSameTerminal]
      exact hNone s hs

theorem tokensFrom_congr {lexer' : Lexer} (h : ∀ cursor, lexer'.step cursor = lexer.step cursor)
    (cursor : Cursor) : lexer'.tokensFrom cursor = lexer.tokensFrom cursor := by
  obtain ⟨length, hLength⟩ : ∃ length, length = cursor.rest.length := ⟨_, rfl⟩
  induction length using Nat.strongRecOn generalizing cursor with
  | _ length ih =>
    rw [tokensFrom_eq_step, tokensFrom_eq_step, h]
    cases hStep : lexer.step cursor with
    | done | failed => rfl
    | token t next =>
      have hShorter : next.rest.length < cursor.rest.length := length_step_lt (by rw [hStep]; rfl)
      dsimp only
      rw [ih _ (hLength ▸ hShorter) next rfl]
    | dropped next =>
      have hShorter : next.rest.length < cursor.rest.length := length_step_lt (by rw [hStep]; rfl)
      exact ih _ (hLength ▸ hShorter) next rfl

@[simp] theorem config_extend (lexer : Lexer) (registration : Registration) :
    (lexer.extend registration).config = lexer.config := by
  cases registration <;>
  · unfold extend
    simp only [register, ignore, warn]
    split <;> rfl

theorem config_served (config : LexerConfig) (requests : List Request) :
    (served config requests).config = config := by
  induction requests using List.reverseRecOn with
  | nil => rfl
  | append_singleton requests request ih =>
    rw [served, List.foldl_concat, ← served, serve]
    cases request.registration? with
    | none => exact ih
    | some registration => exact (config_extend _ _).trans ih

theorem exists_warnings_extend (hDiagnostics : lexer.config.diagnostics = true)
    (registration : Registration) : ∃ added,
      (lexer.extend registration).warnings = lexer.warnings ++ added ∧
      added.filter Warning.isMatchedAndIgnored = lexer.overlapWarnings registration := by
  cases registration with
  | significant terminal =>
    refine ⟨lexer.findings terminal, by simp [extend, register, warn, hDiagnostics], ?_⟩
    have hPattern : (if terminal.pattern.isEmpty then [Warning.emptyPattern terminal.name]
        else if terminal.pattern.matchesBlank then [.matchesBlank terminal.name] else []).filter
          Warning.isMatchedAndIgnored = [] := by
      split
      · rfl
      · split <;> rfl
    have hShadowed : ((lexer.shadowing terminal).map fun earlier =>
        Warning.shadowed terminal.name earlier.name).filter Warning.isMatchedAndIgnored = [] := by
      rw [List.filter_eq_nil_iff]
      intro warning hWarning
      obtain ⟨earlier, -, rfl⟩ := List.mem_map.mp hWarning
      exact Bool.false_ne_true
    rw [findings, List.filter_append, List.filter_append, hPattern, hShadowed, List.nil_append,
      List.append_nil, overlapWarnings, opposes]
    split <;> rfl
  | ignorable terminal =>
    refine ⟨lexer.overlapWarnings (.ignorable terminal), ?_, ?_⟩
    · simp only [extend, ignore, warn, hDiagnostics, if_true]
      rfl
    · unfold overlapWarnings
      split <;> rfl

theorem overlaps_extend :
    (lexer.extend registration).Overlaps ↔ lexer.Overlaps ∨ lexer.opposes registration = true := by
  unfold Overlaps
  cases registration with
  | significant terminal =>
    simp only [extend, significant_register, ignorable_register, List.mem_append, List.mem_singleton,
      or_and_right, exists_or, exists_eq_left, opposes, ignores, List.any_eq_true]
    refine or_congr_right (exists_congr fun t => and_congr_right fun _ => ?_)
    rw [Terminal.same_iff, Terminal.same_iff, eq_comm]
  | ignorable terminal =>
    simp only [extend, significant_ignore, ignorable_ignore, List.mem_append, List.mem_singleton,
      or_and_right, exists_or, exists_eq_left, and_or_left, opposes, produces, List.any_eq_true]

theorem warned_extend (hDiagnostics : lexer.config.diagnostics = true) :
    (∃ name, .matchedAndIgnored name ∈ (lexer.extend registration).warnings) ↔
      (∃ name, .matchedAndIgnored name ∈ lexer.warnings) ∨ lexer.opposes registration = true := by
  obtain ⟨added, hWarnings, hAdded⟩ := exists_warnings_extend hDiagnostics registration
  have hIff (name : String) : .matchedAndIgnored name ∈ added ↔
      lexer.opposes registration = true ∧ name = registration.terminal.name := by
    have hFilter : .matchedAndIgnored name ∈ added ↔
        .matchedAndIgnored name ∈ added.filter Warning.isMatchedAndIgnored := by
      rw [List.mem_filter]
      exact ⟨fun h => ⟨h, rfl⟩, And.left⟩
    rw [hFilter, hAdded, overlapWarnings]
    split
    · rename_i hOpposes
      simp [hOpposes]
    · rename_i hOpposes
      simp [hOpposes]
  simp only [hWarnings, List.mem_append, hIff, exists_or, exists_and_left, exists_eq, and_true]

/-- The lists have a terminal in common just when there was a warning about it. -/
theorem overlaps_served_iff {config : LexerConfig} (hDiagnostics : config.diagnostics = true)
    (requests : List Request) : (served config requests).Overlaps ↔
      ∃ name, .matchedAndIgnored name ∈ (served config requests).warnings := by
  induction requests using List.reverseRecOn with
  | nil =>
    constructor
    · rintro ⟨s, hs, -⟩
      exact absurd hs List.not_mem_nil
    · rintro ⟨name, h⟩
      exact absurd h List.not_mem_nil
  | append_singleton requests request ih =>
    rw [served, List.foldl_concat, ← served, serve]
    cases request.registration? with
    | none => exact ih
    | some registration =>
      have hOn : (served config requests).config.diagnostics = true := by
        rw [config_served, hDiagnostics]
      exact overlaps_extend.trans ((or_congr_left ih).trans (warned_extend hOn).symm)

theorem mem_served {config : LexerConfig} {requests : List Request} {t : Terminal}
    (h : t ∈ (served config requests).significant ++ (served config requests).ignorable) :
    t ∈ requests.filterMap Request.terminal? := by
  induction requests using List.reverseRecOn with
  | nil => exact absurd h List.not_mem_nil
  | append_singleton requests request ih =>
    rw [List.filterMap_append, List.mem_append]
    rw [served, List.foldl_concat, ← served, serve] at h
    cases hRegistration : request.registration? with
    | none =>
      rw [hRegistration] at h
      exact .inl (ih h)
    | some registration =>
      have hNew (h : t = registration.terminal) : t ∈ [request].filterMap Request.terminal? := by
        refine List.mem_filterMap.mpr ⟨request, List.mem_cons_self, ?_⟩
        rw [Request.terminal?, hRegistration, h]
        rfl
      rw [hRegistration, Option.elim_some] at h
      cases registration with
      | significant terminal =>
        rw [extend, significant_register, ignorable_register, List.append_assoc, List.mem_append,
          List.mem_append, List.mem_singleton] at h
        rcases h with h | h | h
        · exact .inl (ih (List.mem_append_left _ h))
        · exact .inr (hNew h)
        · exact .inl (ih (List.mem_append_right _ h))
      | ignorable terminal =>
        rw [extend, significant_ignore, ignorable_ignore, ← List.append_assoc, List.mem_append,
          List.mem_singleton] at h
        exact h.imp ih hNew

/-- An ignorable terminal that is significant too is never ignored: as long as terminals of one identity
are one terminal, the lexer answers every text as it does without that entry. When diagnostics are on, a
request adds one warning about it just when it puts a terminal on a list while the other list has it, so
the lists overlap just when there is such a warning. -/
theorem overlap_never_ignored (config : LexerConfig) (requests : List Request) :
    ((∀ s ∈ requests.filterMap Request.terminal?, ∀ t ∈ requests.filterMap Request.terminal?,
        s.same t = true → s = t) →
      ∀ text,
        (served config requests).withoutOverlap.tokens text = (served config requests).tokens text) ∧
    (config.diagnostics = true →
      (∀ request, ∃ added,
        ((served config requests).serve request).warnings = (served config requests).warnings ++ added ∧
        added.filter Warning.isMatchedAndIgnored =
          request.registration?.elim [] (served config requests).overlapWarnings) ∧
      ((served config requests).Overlaps ↔
        ∃ name, .matchedAndIgnored name ∈ (served config requests).warnings)) := by
  refine ⟨fun hSame text => ?_, fun hDiagnostics => ⟨fun request => ?_, ?_⟩⟩
  · refine tokensFrom_congr (step_withoutOverlap fun s hs t ht => ?_) _
    exact hSame s (mem_served (List.mem_append_left _ hs)) t (mem_served (List.mem_append_right _ ht))
  · rw [serve]
    cases request.registration? with
    | none => exact ⟨[], (List.append_nil _).symm, rfl⟩
    | some registration => exact exists_warnings_extend (by rw [config_served, hDiagnostics]) registration
  · exact overlaps_served_iff hDiagnostics requests

end Lexer

/-- Numbers are ignored before they are matched. Comments are ignored, and another terminal of their name,
which is made here, is matched. -/
def Notes.requests : List Lexer.Request :=
  [.ignore Notes.number, .register Notes.number, .ignore Notes.comment, .compile 5 "comment" "~"]

/-- The terminal that the last request makes. -/
def Notes.tilde : Terminal :=
  ⟨5, "comment", ⟨"~", .tied (.seq .empty (.char '~')), some ['~']⟩⟩

theorem Lexer.overlap_never_ignored_notes : ∀ lexer, lexer = served {} Notes.requests →
    lexer.ignorable = [Notes.number, Notes.comment] ∧
    lexer.withoutOverlap.ignorable = [Notes.comment] ∧
    (lexer.withoutOverlap.tokens "12 #7\n ~").map (·.map Token.text) = .ok ["12", "~"] ∧
    (lexer.tokens "12 #7\n ~").map (·.map Token.text) = .ok ["12", "~"] ∧ lexer.Overlaps ∧
    .matchedAndIgnored "number" ∈ lexer.warnings ∧
    ∃ added, (lexer.serve (.register Notes.comment)).warnings = lexer.warnings ++ added ∧
      added.filter Warning.isMatchedAndIgnored = [.matchedAndIgnored "comment"] := by
  rintro _ rfl
  obtain ⟨hTokens, hWarnings⟩ := overlap_never_ignored {} Notes.requests
  obtain ⟨hAdded, hOverlaps⟩ := hWarnings rfl
  have hReported : (served {} Notes.requests).warnings = [.matchedAndIgnored "number"] := rfl
  have hFound : (served {} Notes.requests).tokens "12 #7\n ~" =
      .ok [⟨Notes.number, "12", 0, 2, 1, 1⟩, ⟨Notes.tilde, "~", 7, 8, 2, 2⟩] :=
    (Reads.token rfl (.dropped rfl (.token rfl (.here _)))).tokensFrom_eq_ok rfl
  have hAnswer : ((served {} Notes.requests).tokens "12 #7\n ~").map (·.map Token.text) =
      .ok ["12", "~"] := by
    rewrite [hFound]
    rfl
  have hMade : Notes.requests.filterMap Request.terminal? =
      [Notes.number, Notes.number, Notes.comment, Notes.tilde] := rfl
  refine ⟨rfl, rfl, ?_, hAnswer, hOverlaps.mpr ⟨"number", ?_⟩, ?_, hAdded _⟩
  · rw [hTokens ?_, hAnswer]
    rw [hMade]
    decide
  · rw [hReported]
    exact List.mem_cons_self
  · rw [hReported]
    exact List.mem_cons_self

end Lexigram
