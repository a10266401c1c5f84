import Lexigram.Proofs.Lengthening
import Lexigram.Proofs.Plain
import Lexigram.Proofs.Reading

/-! # Shadowed terminals

The warning that a terminal is shadowed comes from a look at its literal form alone. It tells the truth
about every text: an earlier terminal that finds something in the literal form also finds something in
every text that begins with it, and the shadowed terminal finds nothing in any other text. The order of
the terminals never changes, so this stays true whatever is registered afterwards.
-/

namespace Lexigram

theorem Regex.hasAssertion_foldl_seq (items : List Regex) (first : Regex) :
    (items.foldl .seq first).hasAssertion = (first.hasAssertion || items.any hasAssertion) := by
  induction items generalizing first with
  | nil => rw [List.foldl_nil, List.any_nil, Bool.or_false]
  | cons item items ih => rw [List.foldl_cons, ih, hasAssertion, List.any_cons, Bool.or_assoc]

namespace Pattern

/-- What the pattern looks for is an expression without assertions, tied to the beginning as a whole. -/
def IsFree (p : Pattern) : Prop :=
  ∃ body : Regex, p.regex = body.tied ∧ body.hasAssertion = false

variable {properties : Properties}

theorem isFree_of_ofSource {p : Pattern} {source : String} {body : Regex}
    (hAlone : Regex.ofChars source.toList properties = .ok body) (hFree : body.hasAssertion = false)
    (hMade : ofSource source properties = .ok p) : p.IsFree :=
  ⟨body, regex_of_ofSource hAlone hMade, hFree⟩

theorem Spells.hasAssertion_of_marked {source l : List Char} {items : List Regex}
    (h : Spells source items l) (hMarked : marksWordEdge source = true) :
    items.any Regex.hasAssertion = true := by
  induction h with
  | nil => cases hMarked
  | bare _ hBare _ ih =>
    rw [marksWordEdge_cons hBare] at hMarked
    rw [List.any_cons, ih hMarked, Bool.or_true]
  | escaped hStart hEnd _ ih =>
    rw [marksWordEdge, beq_eq_false_iff_ne.mpr hStart, beq_eq_false_iff_ne.mpr hEnd] at hMarked
    rw [List.any_cons, ih hMarked, Bool.or_true]
  | wordStart | wordEnd => rfl

theorem IsFree.isPrefix_of_find {p : Pattern} (h : p.IsFree) (hMade : ofSource p.source properties = .ok p)
    {l : List Char} (hLiteral : p.literal = some l) {text : List Char} (hFind : p.find text ≠ none) :
    l <+: text := by
  obtain ⟨body, hTied, hFree⟩ := h
  have hUnmarked : marksWordEdge p.source.toList = false := by
    rw [← Bool.not_eq_true]
    intro hMarked
    obtain ⟨items, hSpells, hRegex⟩ := exists_spells hMade hLiteral
    rw [hTied] at hRegex
    cases hRegex
    rw [Regex.hasAssertion_foldl_seq, hSpells.hasAssertion_of_marked hMarked, Bool.or_true] at hFree
    cases hFree
  rw [find_of_unmarked hMade hLiteral hUnmarked] at hFind
  split at hFind
  · rename_i hBeginning
    exact hBeginning.2
  · exact absurd rfl hFind

end Pattern

inductive Registration where
  | significant (terminal : Terminal)
  | ignorable (terminal : Terminal)
  deriving Repr

namespace Lexer

def extend (lexer : Lexer) : Registration → Lexer
  | .significant terminal => lexer.register terminal
  | .ignorable terminal => lexer.ignore terminal

def extendAll (lexer : Lexer) (later : List Registration) : Lexer :=
  later.foldl extend lexer

/-- Among the terminals the one at this index is the first that finds a lexeme. -/
def FindsAt (terminals : List Terminal) (text : List Char) (index : Nat) (terminal : Terminal)
    (lexeme : List Char) : Prop :=
  terminals[index]? = some terminal ∧ terminal.pattern.find text = some lexeme ∧
    FindsNone (terminals.take index) text

theorem firstMatch_eq_some_iff_findsAt {terminals : List Terminal} {text lexeme : List Char}
    {terminal : Terminal} : firstMatch terminals text = some (terminal, lexeme) ↔
      ∃ index, FindsAt terminals text index terminal lexeme := by
  rw [firstMatch_eq_some_iff]
  constructor
  · rintro ⟨before, after, rfl, hFind, hNone⟩
    refine ⟨before.length, ?_, hFind, ?_⟩
    · rw [List.getElem?_append_right (Nat.le_refl _), Nat.sub_self]
      rfl
    · rw [List.take_left]
      exact hNone
  · rintro ⟨index, hAt, hFind, hNone⟩
    obtain ⟨hIndex, rfl⟩ := List.getElem?_eq_some_iff.mp hAt
    refine ⟨terminals.take index, terminals.drop (index + 1), ?_, hFind, hNone⟩
    rw [← List.drop_eq_getElem_cons hIndex, List.take_append_drop]

variable {properties : Properties} {lexer : Lexer} {terminal : Terminal}

theorem isPrefix_significant_extendAll (lexer : Lexer) (later : List Registration) :
    lexer.significant <+: (lexer.extendAll later).significant := by
  induction later generalizing lexer with
  | nil => exact List.prefix_rfl
  | cons registration later ih =>
    refine List.IsPrefix.trans ?_ (ih (lexer.extend registration))
    cases registration with
    | significant terminal => exact List.prefix_append _ _
    | ignorable terminal =>
      rewrite [extend, significant_ignore]
      exact List.prefix_rfl

theorem mem_findings_of_mem_warnings {warning : Warning}
    (h : warning ∈ (lexer.register terminal).warnings.drop lexer.warnings.length) :
    warning ∈ lexer.findings terminal := by
  unfold register warn at h
  dsimp only at h
  split at h
  · rwa [List.drop_left] at h
  · rw [List.drop_length] at h
    exact absurd h List.not_mem_nil

theorem shadowed_mem_findings_iff {name earlier : String} :
    .shadowed name earlier ∈ lexer.findings terminal ↔
      name = terminal.name ∧ ∃ e ∈ lexer.shadowing terminal, e.name = earlier := by
  unfold findings
  rw [List.mem_append, List.mem_append, List.mem_map]
  constructor
  · rintro ((h | h) | ⟨e, he, h⟩)
    · split at h
      · cases List.mem_singleton.mp h
      · split at h
        · cases List.mem_singleton.mp h
        · cases h
    · split at h
      · cases List.mem_singleton.mp h
      · cases h
    · cases h
      exact ⟨rfl, e, he, rfl⟩
  · rintro ⟨rfl, e, he, rfl⟩
    exact .inr ⟨e, he, rfl⟩

theorem mem_shadowing_iff {e : Terminal} : e ∈ lexer.shadowing terminal ↔
    e ∈ lexer.significant ∧ ∃ l, terminal.pattern.literal = some l ∧ l ≠ [] ∧
      e.pattern.find l ≠ none := by
  unfold shadowing
  split
  · rename_i hLiteral
    rw [hLiteral]
    exact ⟨nofun, nofun⟩
  · rename_i hLiteral
    rw [hLiteral]
    refine ⟨nofun, ?_⟩
    rintro ⟨-, l, ⟨⟩, hText, -⟩
    exact absurd rfl hText
  · rename_i l hText hLiteral
    rw [hLiteral, List.mem_filter, Option.isSome_iff_ne_none]
    constructor
    · rintro ⟨he, hFind⟩
      exact ⟨he, l, rfl, hText, hFind⟩
    · rintro ⟨he, l, ⟨⟩, -, hFind⟩
      exact ⟨he, hFind⟩

theorem Reads.forall_mem {cursor last : Cursor} {ts : List Token} (h : lexer.Reads cursor ts last)
    {P : Token → Prop} (hStep : ∀ cursor t next, lexer.step cursor = .token t next → P t) :
    ∀ t ∈ ts, P t := by
  induction h with
  | here => exact fun t ht => absurd ht List.not_mem_nil
  | token hToken _ ih => exact List.forall_mem_cons.mpr ⟨hStep _ _ _ hToken, ih⟩
  | dropped _ _ ih => exact ih

/-- A terminal that is shadowed when it is registered is found at best where it was registered before. -/
theorem index_lt_of_shadowed {earlier : String}
    (hEarlier : ∀ e ∈ lexer.significant, e.name = earlier → e.pattern.IsFree)
    (hTerminal : terminal.pattern.IsFree)
    (hMade : Pattern.ofSource terminal.pattern.source properties = .ok terminal.pattern)
    (hShadowed : .shadowed terminal.name earlier ∈ lexer.findings terminal) {terminals : List Terminal}
    (hTerminals : lexer.significant <+: terminals) {text lexeme : List Char} {index : Nat}
    (h : FindsAt terminals text index terminal lexeme) : index < lexer.significant.length := by
  obtain ⟨-, e, he, hName⟩ := shadowed_mem_findings_iff.mp hShadowed
  obtain ⟨he, l, hLiteral, -, hProbe⟩ := mem_shadowing_iff.mp he
  obtain ⟨-, hFind, hNone⟩ := h
  rw [← Nat.not_le]
  intro hIndex
  have hBefore : e ∈ terminals.take index := by
    obtain ⟨more, rfl⟩ := hTerminals
    rw [List.take_append, List.take_of_length_le hIndex]
    exact List.mem_append_left _ he
  -- Both find something here: the terminal its literal form, the earlier one what it finds in that or more.
  obtain ⟨behind, rfl⟩ := hTerminal.isPrefix_of_find hMade hLiteral (by rw [hFind]; nofun)
  obtain ⟨body, hTied, hBody⟩ := hEarlier e he hName
  have hLonger := Pattern.isSome_find_append hTied hBody
    (Option.isSome_iff_ne_none.mpr hProbe) behind
  rw [hNone e hBefore] at hLonger
  cases hLonger

/-- The warning that a terminal is shadowed is true, if neither this terminal nor one that the warning names
looks at what surrounds its lexemes. In every later state of the lexer the terminal stands where it was
registered, and there it is never the first that finds a lexeme. If it had not been registered before, no
token of it is ever made. -/
theorem shadowed_never_found {lexer : Lexer} {terminal : Terminal} {earlier : String}
    (hEarlier : ∀ e ∈ lexer.significant, e.name = earlier → e.pattern.IsFree)
    (hTerminal : terminal.pattern.IsFree)
    (hMade : Pattern.ofSource terminal.pattern.source properties = .ok terminal.pattern)
    (hWarning : .shadowed terminal.name earlier ∈
      (lexer.register terminal).warnings.drop lexer.warnings.length) (later : List Registration) :
    ((lexer.register terminal).extendAll later).significant[lexer.significant.length]? = some terminal ∧
    (∀ text t lexeme index,
      FindsAt ((lexer.register terminal).extendAll later).significant text index t lexeme →
        index ≠ lexer.significant.length) ∧
    (lexer.produces terminal = false →
      (∀ t ∈ ((lexer.register terminal).extendAll later).significant,
        t.same terminal = true → t = terminal) →
      ∀ cursor ts last, ((lexer.register terminal).extendAll later).Reads cursor ts last →
        ∀ t ∈ ts, t.isOf terminal = false) := by
  have hShadowed := mem_findings_of_mem_warnings hWarning
  obtain ⟨more, hMore⟩ := isPrefix_significant_extendAll (lexer.register terminal) later
  rw [significant_register, List.append_assoc] at hMore
  have hBeginning : lexer.significant <+: ((lexer.register terminal).extendAll later).significant :=
    ⟨[terminal] ++ more, hMore⟩
  have hPlace : ((lexer.register terminal).extendAll later).significant[lexer.significant.length]? =
      some terminal := by
    rw [← hMore, List.getElem?_append_right (Nat.le_refl _), Nat.sub_self]
    rfl
  refine ⟨hPlace, fun text t lexeme index hFinds hIndex => ?_, fun hNew hSame cursor ts last hReads => ?_⟩
  · subst hIndex
    obtain rfl := Option.some.inj (hPlace.symm.trans hFinds.1)
    exact Nat.lt_irrefl _ (index_lt_of_shadowed hEarlier hTerminal hMade hShadowed hBeginning hFinds)
  · refine hReads.forall_mem fun cursor t next hStep => ?_
    have hActs := hStep ▸ acts_step _ cursor
    cases hActs with
    | @token t lexeme _ hFinds _ =>
      rw [← Bool.not_eq_true]
      intro hOf
      obtain rfl := hSame t hFinds.mem hOf
      obtain ⟨index, hAt⟩ := firstMatch_eq_some_iff_findsAt.mp hFinds.firstMatch_eq
      have hIndex := index_lt_of_shadowed hEarlier hTerminal hMade hShadowed hBeginning hAt
      -- What is found first stands before the place of the warning, so it was there all along.
      have hBefore : t ∈ lexer.significant := by
        refine List.mem_of_getElem? (i := index) ?_
        rw [← hAt.1, ← hMore, List.getElem?_append_left hIndex]
      have hProduced : lexer.produces t = true :=
        List.any_eq_true.mpr ⟨t, hBefore, Terminal.same_iff.mpr rfl⟩
      rw [hNew] at hProduced
      cases hProduced

end Lexer

namespace Operators

/-- It finds `<` in `<=`, and `<=x` where an `x` follows. -/
def less : Terminal :=
  ⟨2, "less", ⟨"<(=x)?", .tied (.seq (.seq .empty (.char '<'))
    (.rep (.seq (.seq .empty (.char '=')) (.char 'x')) 0 (some 1) true)), none⟩⟩

def lessEqual : Terminal :=
  ⟨3, "less or equal", ⟨"<=", .tied (.seq (.seq .empty (.char '<')) (.char '=')), some ['<', '=']⟩⟩

def lexer : Lexer :=
  Lexer.register {} less

theorem ofSource_less : Pattern.ofSource "<(=x)?" = .ok less.pattern :=
  rfl

theorem ofSource_lessEqual : Pattern.ofSource "<=" = .ok lessEqual.pattern :=
  rfl

theorem isFree_less : less.pattern.IsFree :=
  Pattern.isFree_of_ofSource rfl rfl ofSource_less

theorem isFree_lessEqual : lessEqual.pattern.IsFree :=
  Pattern.isFree_of_ofSource rfl rfl ofSource_lessEqual

end Operators

theorem Lexer.shadowed_never_found_operators :
    (∀ e ∈ Operators.lexer.significant, e.name = "less" → e.pattern.IsFree) ∧
    Operators.lessEqual.pattern.IsFree ∧ Pattern.ofSource "<=" = .ok Operators.lessEqual.pattern ∧
    .shadowed "less or equal" "less" ∈
      (Operators.lexer.register Operators.lessEqual).warnings.drop Operators.lexer.warnings.length ∧
    Operators.lexer.produces Operators.lessEqual = false ∧
    ∀ lexer, lexer = (Operators.lexer.register Operators.lessEqual).extendAll
        [.ignorable Notes.comment, .significant Notes.number] →
      firstMatch lexer.significant "<=x".toList = some (Operators.less, "<=x".toList) ∧
      ¬ FindsAt lexer.significant "<=x".toList 1 Operators.lessEqual "<=".toList ∧
      ∀ cursor ts last, lexer.Reads cursor ts last → ∀ t ∈ ts, t.isOf Operators.lessEqual = false := by
  have hEarlier : ∀ e ∈ Operators.lexer.significant, e.name = "less" → e.pattern.IsFree :=
    fun e he _ => List.mem_singleton.mp he ▸ Operators.isFree_less
  have hWarning : .shadowed "less or equal" "less" ∈
      (Operators.lexer.register Operators.lessEqual).warnings.drop Operators.lexer.warnings.length := by
    decide
  refine ⟨hEarlier, Operators.isFree_lessEqual, Operators.ofSource_lessEqual, hWarning, rfl, ?_⟩
  rintro _ rfl
  obtain ⟨-, hNever, hTokens⟩ := shadowed_never_found hEarlier Operators.isFree_lessEqual
    Operators.ofSource_lessEqual hWarning [.ignorable Notes.comment, .significant Notes.number]
  refine ⟨rfl, fun hFinds => hNever _ _ _ _ hFinds rfl, hTokens rfl ?_⟩
  decide

end Lexigram
