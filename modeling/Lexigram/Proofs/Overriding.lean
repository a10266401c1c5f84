import Mathlib.Data.List.Forall2
import Mathlib.Data.List.Induction
import Lexigram.Config
import Lexigram.Proofs.Quoting

/-! # Overriding defaults

An object gives some of the fields of a configuration, in any order and among fields that no section
knows. What is read from it is the default configuration with the given fields overridden: it makes no
difference whether a default is that of a single field or that of a section which is left out.
-/

namespace Lexigram

namespace Json

def members (fields : List (String × Json)) : List (Option (List Char) × Json) :=
  fields.map fun (name, value) => (some name.toList, value)

/-- The field of this name is given once, with a value that stands for `x`, or it is not given. -/
inductive Gives {α : Type} (Of : Json → α → Prop) (name : String) :
    List (String × Json) → Option α → Prop
  | absent {fields : List (String × Json)} (h : ∀ field ∈ fields, field.1 ≠ name) :
    Gives Of name fields none
  | present {before behind : List (String × Json)} {value : Json} {x : α}
    (hBefore : ∀ field ∈ before, field.1 ≠ name) (hValue : Of value x)
    (hBehind : ∀ field ∈ behind, field.1 ≠ name) :
    Gives Of name (before ++ (name, value) :: behind) (some x)

section Gives

variable {α : Type} {Of : Json → α → Prop} {name : String} {fields : List (String × Json)} {value : Json}
  {x : Option α}

theorem Gives.eq_none (h : Gives Of name [] x) : x = none := by
  generalize hFields : ([] : List (String × Json)) = fields at h
  cases h with
  | absent => rfl
  | present => exact absurd hFields (List.append_ne_nil_of_right_ne_nil _ (List.cons_ne_nil _ _)).symm

theorem Gives.cons_eq {y : α} (hValue : Of value y) (hBehind : Gives Of name fields none) :
    Gives Of name ((name, value) :: fields) (some y) := by
  cases hBehind with
  | absent hBehind =>
    rw [← List.nil_append (_ :: _)]
    exact .present nofun hValue hBehind

theorem Gives.cons_ne {other : String} (hOther : other ≠ name) (h : Gives Of name fields x) :
    Gives Of name ((other, value) :: fields) x := by
  cases h with
  | absent h => exact .absent (List.forall_mem_cons.mpr ⟨hOther, h⟩)
  | present hBefore hValue hBehind =>
    rw [← List.cons_append]
    exact .present (List.forall_mem_cons.mpr ⟨hOther, hBefore⟩) hValue hBehind

theorem Gives.concat {last : String} (h : Gives Of name (fields ++ [(last, value)]) x) :
    (last = name ∧ (∃ y, x = some y ∧ Of value y) ∧ Gives Of name fields none) ∨
      (last ≠ name ∧ Gives Of name fields x) := by
  generalize hFields : fields ++ [(last, value)] = all at h
  cases h with
  | absent hAll =>
    subst hFields
    exact .inr ⟨hAll (last, value) (List.mem_append_right _ List.mem_cons_self),
      .absent fun field hField => hAll field (List.mem_append_left _ hField)⟩
  | @present before behind value' y hBefore hValue hBehind =>
    rcases List.eq_nil_or_concat behind with rfl | ⟨behind, field, rfl⟩
    · obtain ⟨rfl, hLast⟩ := List.append_inj' hFields rfl
      obtain ⟨rfl, rfl⟩ := Prod.mk.inj (List.cons.inj hLast).1
      exact .inl ⟨rfl, ⟨y, rfl, hValue⟩, .absent hBefore⟩
    · rw [List.concat_eq_append, ← List.cons_append, ← List.append_assoc] at hFields
      obtain ⟨rfl, hLast⟩ := List.append_inj' hFields rfl
      obtain rfl := (List.cons.inj hLast).1
      rw [List.concat_eq_append, List.forall_mem_append] at hBehind
      exact .inr ⟨hBehind.2 _ List.mem_cons_self, .present hBefore hValue hBehind.1⟩

theorem Gives.of_ne {last : String} (h : Gives Of name (fields ++ [(last, value)]) x) (hOther : last ≠ name) :
    Gives Of name fields x := by
  rcases h.concat with ⟨hSame, -⟩ | ⟨-, h⟩
  · exact absurd hSame hOther
  · exact h

theorem beq_toList (a b : String) : (some a.toList == some b.toList) = (a == b) := by
  rw [Bool.eq_iff_iff, beq_iff_eq, beq_iff_eq, Option.some.injEq, String.toList_inj]

theorem countP_eq_zero (h : ∀ field ∈ fields, field.1 ≠ name) :
    (members fields).countP (fun (n, _) => n == some name.toList) = 0 := by
  rw [members, List.countP_map, List.countP_eq_zero]
  intro field hField
  simpa only [Function.comp_apply, beq_toList, beq_iff_eq] using h field hField

theorem Gives.countP_le (h : Gives Of name fields x) :
    (members fields).countP (fun (n, _) => n == some name.toList) ≤ 1 := by
  cases h with
  | absent h =>
    rw [countP_eq_zero h]
    exact Nat.zero_le 1
  | @present before behind value y hBefore hValue hBehind =>
    have hSplit : members (before ++ (name, value) :: behind) =
        members before ++ (some name.toList, value) :: members behind := by
      rw [members, List.map_append, List.map_cons]
      rfl
    rewrite [hSplit, List.countP_append, countP_eq_zero hBefore, List.countP_cons, countP_eq_zero hBehind,
      if_pos (beq_self_eq_true _)]
    exact Nat.le_refl 1

end Gives

section Slots

variable {σ : Type}

theorem setMember_eq (slots : List (RecordField σ)) (record : σ) (name : String) (value : Json) :
    RecordField.setMember slots record (some name.toList, value) =
      match slots.find? (name == ·.name) with
      | some slot => slot.set value record
      | none => some record := by
  have hFind : slots.find? (fun slot => some name.toList == some slot.name.toList) =
      slots.find? (name == ·.name) := by
    simp only [beq_toList]
  rewrite [← hFind]
  rfl

/-- What the slots of a record hold is told field by field: a field sets its slot and no other. -/
structure Told (slots : List (RecordField σ)) (empty : σ) (Stands : σ → List (String × Json) → Prop) :
    Prop where
  nil : ∀ {given}, Stands given [] → given = empty
  once : ∀ {given fields}, Stands given fields → ∀ slot ∈ slots, slot.given (members fields) ≤ 1
  concat : ∀ {given fields name value}, Stands given (fields ++ [(name, value)]) →
    ∃ earlier, Stands earlier fields ∧
      RecordField.setMember slots earlier (some name.toList, value) = some given

variable {slots : List (RecordField σ)} {empty : σ} {Stands : σ → List (String × Json) → Prop}

theorem Told.foldlM_members (hTold : Told slots empty Stands) {given : σ}
    {fields : List (String × Json)} (h : Stands given fields) :
    (members fields).foldlM (RecordField.setMember slots) empty = some given := by
  induction fields using List.reverseRecOn generalizing given with
  | nil => rw [hTold.nil h]; rfl
  | append_singleton fields field ih =>
    obtain ⟨earlier, hEarlier, hSet⟩ := hTold.concat h
    rw [members, List.map_append, ← members, List.foldlM_append, ih hEarlier]
    simpa using hSet

theorem Told.readRecord_members (hTold : Told slots empty Stands) {given : σ}
    {fields : List (String × Json)} (h : Stands given fields) :
    readRecord slots empty (.object (members fields)) = some given := by
  have hNames : (members fields).all (·.1.isSome) = true := by
    simp [members]
  have hOnce : slots.all (·.given (members fields) ≤ 1) = true := by
    simpa using hTold.once h
  rw [readRecord, hNames, hOnce]
  exact hTold.foldlM_members h

end Slots

end Json

open Json (Gives Told RecordField readRecord members)

/-! ## The settings that are given -/

def Config.override (c : Config) (given : Config.Given) : Config where
  lexer.diagnostics := (given.lexer.bind (·.diagnostics)).getD c.lexer.diagnostics
  grammar.hintPruning := (given.grammar.bind (·.hintPruning)).getD c.grammar.hintPruning
  grammar.alternation := (given.grammar.bind (·.alternation)).getD c.grammar.alternation
  parser.maxAttempts := (given.parser.bind (·.maxAttempts)).getD c.parser.maxAttempts

inductive Alternation.Named : Json → Alternation → Prop
  | bare (a : Alternation) : Named (.string (some a.name.toList)) a
  | tagged (a : Alternation) : Named (.object [(some a.name.toList, .null)]) a

/-- A limit is a number of 64 bits, or null for none. -/
inductive ParserConfig.Limits : Json → Option Nat → Prop
  | unlimited : Limits .null none
  | limited {n : Nat} (h : n ≤ Json.maxSize) : Limits (.number (Nat.toDigits 10 n)) (some n)

structure LexerConfig.Given.Stands (given : LexerConfig.Given) (fields : List (String × Json)) : Prop where
  diagnostics : Gives (fun value b => value = .bool b) "diagnostics" fields given.diagnostics

structure GrammarConfig.Given.Stands (given : GrammarConfig.Given) (fields : List (String × Json)) :
    Prop where
  hintPruning : Gives (fun value b => value = .bool b) "hint_pruning" fields given.hintPruning
  alternation : Gives Alternation.Named "alternation" fields given.alternation

structure ParserConfig.Given.Stands (given : ParserConfig.Given) (fields : List (String × Json)) : Prop where
  maxAttempts : Gives ParserConfig.Limits "max_attempts" fields given.maxAttempts

def IsSection {σ : Type} (Stands : σ → List (String × Json) → Prop) (value : Json) (given : σ) : Prop :=
  ∃ fields, value = .object (members fields) ∧ Stands given fields

/-- Among the fields stand these settings, each in its section and once at most. -/
structure Config.Given.Stands (given : Config.Given) (fields : List (String × Json)) : Prop where
  lexer : Gives (IsSection LexerConfig.Given.Stands) "lexer" fields given.lexer
  grammar : Gives (IsSection GrammarConfig.Given.Stands) "grammar" fields given.grammar
  parser : Gives (IsSection ParserConfig.Given.Stands) "parser" fields given.parser

theorem Config.Given.fill_eq_override (given : Config.Given) :
    given.fill = ({} : Config).override given := by
  obtain ⟨lexer, grammar, parser⟩ := given
  cases lexer <;> cases grammar <;> cases parser <;> rfl

theorem Json.readBool_of_eq {value : Json} {b : Bool} (h : value = .bool b) : readBool value = some b := by
  rw [h, readBool]

theorem Alternation.Named.ofJson_eq {value : Json} {a : Alternation} (h : Named value a) :
    ofJson value = some a := by
  cases h with
  | bare | tagged => rw [ofJson, String.ofList_toList, ofName?_name]

theorem ParserConfig.Limits.readOption_eq {value : Json} {limit : Option Nat} (h : Limits value limit) :
    Json.readOption Json.readSize value = some limit := by
  cases h with
  | unlimited => rfl
  | @limited n h =>
    have hDigits : (Nat.toDigits 10 n).all (·.isDigit) = true :=
      List.all_eq_true.mpr (Json.digits_toDigits n)
    rw [Json.readOption, Json.readSize, hDigits, digitsValue_toDigits, decide_eq_true h]
    · rfl
    · nofun

theorem LexerConfig.Given.told : Told slots {} LexerConfig.Given.Stands where
  nil {given} h := by
    obtain ⟨diagnostics⟩ := given
    obtain rfl := h.diagnostics.eq_none
    rfl
  once h := List.forall_mem_singleton.mpr h.diagnostics.countP_le
  concat {given fields name value} h := by
    obtain ⟨diagnostics⟩ := given
    rcases h.diagnostics.concat with ⟨rfl, ⟨b, rfl, hValue⟩, hRest⟩ | ⟨hOther, hRest⟩
    · refine ⟨⟨none⟩, ⟨hRest⟩, ?_⟩
      rw [Json.setMember_eq]
      simp [slots, Json.readBool_of_eq hValue]
    · refine ⟨⟨diagnostics⟩, ⟨hRest⟩, ?_⟩
      rw [Json.setMember_eq]
      simp [slots, hOther]

theorem GrammarConfig.Given.told : Told slots {} GrammarConfig.Given.Stands where
  nil {given} h := by
    obtain ⟨hintPruning, alternation⟩ := given
    obtain rfl := h.hintPruning.eq_none
    obtain rfl := h.alternation.eq_none
    rfl
  once h := List.forall_mem_cons.mpr ⟨h.hintPruning.countP_le,
    List.forall_mem_singleton.mpr h.alternation.countP_le⟩
  concat {given fields name value} h := by
    obtain ⟨hintPruning, alternation⟩ := given
    rcases h.hintPruning.concat with ⟨rfl, ⟨b, rfl, hValue⟩, hRest⟩ | ⟨hOther, hRest⟩
    · refine ⟨⟨none, alternation⟩, ⟨hRest, h.alternation.of_ne (by decide)⟩, ?_⟩
      rw [Json.setMember_eq]
      simp [slots, Json.readBool_of_eq hValue]
    · rcases h.alternation.concat with ⟨rfl, ⟨a, rfl, hValue⟩, hRest'⟩ | ⟨hOther', hRest'⟩
      · refine ⟨⟨hintPruning, none⟩, ⟨hRest, hRest'⟩, ?_⟩
        rw [Json.setMember_eq]
        simp [slots, hValue.ofJson_eq]
      · refine ⟨⟨hintPruning, alternation⟩, ⟨hRest, hRest'⟩, ?_⟩
        rw [Json.setMember_eq]
        simp [slots, hOther, hOther']

theorem ParserConfig.Given.told : Told slots {} ParserConfig.Given.Stands where
  nil {given} h := by
    obtain ⟨maxAttempts⟩ := given
    obtain rfl := h.maxAttempts.eq_none
    rfl
  once h := List.forall_mem_singleton.mpr h.maxAttempts.countP_le
  concat {given fields name value} h := by
    obtain ⟨maxAttempts⟩ := given
    rcases h.maxAttempts.concat with ⟨rfl, ⟨n, rfl, hValue⟩, hRest⟩ | ⟨hOther, hRest⟩
    · refine ⟨⟨none⟩, ⟨hRest⟩, ?_⟩
      rw [Json.setMember_eq]
      simp [slots, hValue.readOption_eq]
    · refine ⟨⟨maxAttempts⟩, ⟨hRest⟩, ?_⟩
      rw [Json.setMember_eq]
      simp [slots, hOther]

theorem IsSection.readRecord_eq {σ : Type} {slots : List (RecordField σ)} {empty : σ}
    {Stands : σ → List (String × Json) → Prop} (hTold : Told slots empty Stands) {value : Json} {given : σ}
    (h : IsSection Stands value given) : readRecord slots empty value = some given := by
  obtain ⟨fields, rfl, hStands⟩ := h
  exact hTold.readRecord_members hStands

theorem Config.Given.told : Told slots {} Config.Given.Stands where
  nil {given} h := by
    obtain ⟨lexer, grammar, parser⟩ := given
    obtain rfl := h.lexer.eq_none
    obtain rfl := h.grammar.eq_none
    obtain rfl := h.parser.eq_none
    rfl
  once h := List.forall_mem_cons.mpr ⟨h.lexer.countP_le,
    List.forall_mem_cons.mpr ⟨h.grammar.countP_le, List.forall_mem_singleton.mpr h.parser.countP_le⟩⟩
  concat {given fields name value} h := by
    obtain ⟨lexer, grammar, parser⟩ := given
    rcases h.lexer.concat with ⟨rfl, ⟨s, rfl, hValue⟩, hLexer⟩ | ⟨hNotLexer, hLexer⟩
    · refine ⟨⟨none, grammar, parser⟩,
        ⟨hLexer, h.grammar.of_ne (by decide), h.parser.of_ne (by decide)⟩, ?_⟩
      rw [Json.setMember_eq]
      simp [slots, LexerConfig.Given.ofJson, hValue.readRecord_eq LexerConfig.Given.told]
    · rcases h.grammar.concat with ⟨rfl, ⟨s, rfl, hValue⟩, hGrammar⟩ | ⟨hNotGrammar, hGrammar⟩
      · refine ⟨⟨lexer, none, parser⟩, ⟨hLexer, hGrammar, h.parser.of_ne (by decide)⟩, ?_⟩
        rw [Json.setMember_eq]
        simp [slots, GrammarConfig.Given.ofJson, hValue.readRecord_eq GrammarConfig.Given.told]
      · rcases h.parser.concat with ⟨rfl, ⟨s, rfl, hValue⟩, hParser⟩ | ⟨hNotParser, hParser⟩
        · refine ⟨⟨lexer, grammar, none⟩, ⟨hLexer, hGrammar, hParser⟩, ?_⟩
          rw [Json.setMember_eq]
          simp [slots, ParserConfig.Given.ofJson, hValue.readRecord_eq ParserConfig.Given.told]
        · refine ⟨⟨lexer, grammar, parser⟩, ⟨hLexer, hGrammar, hParser⟩, ?_⟩
          rw [Json.setMember_eq]
          simp [slots, hNotLexer, hNotGrammar, hNotParser]

theorem Config.Given.ofJson_eq {given : Config.Given} {fields : List (String × Json)}
    (h : given.Stands fields) : Config.Given.ofJson (.object (members fields)) = some given :=
  Config.Given.told.readRecord_members h

theorem Config.ofJson_eq_override {given : Config.Given} {fields : List (String × Json)}
    (h : given.Stands fields) :
    Config.ofJson (.object (members fields)) = some (({} : Config).override given) := by
  rw [Config.ofJson, Config.Given.ofJson_eq h, Option.map_some, Config.Given.fill_eq_override]

theorem Config.ofText_eq_override {given : Config.Given} {fields : List (String × Json)}
    {before text behind : List Char} (hGiven : given.Stands fields)
    (hText : Json.Writes (.object (members fields)) text) (hBefore : Json.Blank before)
    (hBehind : Json.Blank behind) :
    Config.ofText (String.ofList (before ++ (text ++ behind))) = .ok (({} : Config).override given) := by
  rw [Config.ofText, readConfig, String.toList_ofList, Json.ofText_eq_of_writes hText hBefore hBehind,
    Option.bind_some, Config.ofJson_eq_override hGiven]

/-! ## Written configurations -/

theorem writes_writeBool (b : Bool) : Json.Writes (.bool b) (writeBool b) := by
  cases b with
  | false => exact .no
  | true => exact .yes

def ParserConfig.limit : Option Nat → Json
  | none => .null
  | some n => .number (Nat.toDigits 10 n)

theorem writes_writeSize (limit : Option Nat) :
    Json.Writes (ParserConfig.limit limit) (writeSize limit) := by
  cases limit with
  | none => exact .null
  | some n => exact .number (Json.numeral_toDigits (.inl rfl) n)

def WritesField (field : String × Json) (text : String × List Char) : Prop :=
  field.1 = text.1 ∧ Json.Writes field.2 text.2

theorem writesMembers_intercalate {fields : List (String × Json)} {texts : List (String × List Char)}
    (h : List.Forall₂ WritesField fields texts) (hNonempty : fields ≠ []) :
    Json.WritesMembers (members fields) (List.intercalate [',']
      (texts.map fun (name, value) => Json.quote name.toList ++ ':' :: value)) := by
  induction h with
  | nil => exact absurd rfl hNonempty
  | @cons field text fields texts hHead hTail ih =>
    obtain ⟨name, value⟩ := field
    obtain ⟨name', text⟩ := text
    obtain ⟨rfl, hValue⟩ := hHead
    cases hTail with
    | nil =>
      rw [List.map_singleton, List.intercalate_singleton]
      exact Json.writesMembers_one hValue
    | cons hNext hTail =>
      rw [List.map_cons, List.map_cons, List.intercalate_cons_cons, List.append_assoc, List.append_assoc]
      exact Json.writesMembers_more hValue (ih (List.cons_ne_nil _ _))

theorem writes_writeMembers {fields : List (String × Json)} {texts : List (String × List Char)}
    (h : List.Forall₂ WritesField fields texts) :
    Json.Writes (.object (members fields)) (writeMembers texts) := by
  cases h with
  | nil => exact .emptyObject .nil
  | cons hHead hTail => exact .object (writesMembers_intercalate (.cons hHead hTail) (List.cons_ne_nil _ _))

namespace Config

def all (c : Config) : Config.Given where
  lexer := some ⟨some c.lexer.diagnostics⟩
  grammar := some ⟨some c.grammar.hintPruning, some c.grammar.alternation⟩
  parser := some ⟨some c.parser.maxAttempts⟩

def fieldsOf (c : Config) : List (String × Json) :=
  [("lexer", .object (members [("diagnostics", .bool c.lexer.diagnostics)])),
    ("grammar", .object (members [("hint_pruning", .bool c.grammar.hintPruning),
      ("alternation", .string (some c.grammar.alternation.name.toList))])),
    ("parser", .object (members [("max_attempts", ParserConfig.limit c.parser.maxAttempts)]))]

theorem writes_toJson (c : Config) : Json.Writes (.object (members c.fieldsOf)) c.toJson := by
  refine writes_writeMembers (.cons ⟨rfl, ?lexer⟩ (.cons ⟨rfl, ?grammar⟩ (.cons ⟨rfl, ?parser⟩ .nil)))
  case lexer => exact writes_writeMembers (.cons ⟨rfl, writes_writeBool _⟩ .nil)
  case grammar =>
    exact writes_writeMembers (.cons ⟨rfl, writes_writeBool _⟩ (.cons ⟨rfl, Json.writes_quote _⟩ .nil))
  case parser => exact writes_writeMembers (.cons ⟨rfl, writes_writeSize _⟩ .nil)

theorem limits_limit {limit : Option Nat} (h : ∀ n ∈ limit, n ≤ Json.maxSize) :
    ParserConfig.Limits (ParserConfig.limit limit) limit := by
  cases limit with
  | none => exact .unlimited
  | some n => exact .limited (h n rfl)

theorem stands_fieldsOf {c : Config} (h : ∀ n ∈ c.parser.maxAttempts, n ≤ Json.maxSize) :
    c.all.Stands c.fieldsOf where
  lexer := .cons_eq ⟨_, rfl, ⟨.cons_eq rfl (.absent nofun)⟩⟩ (.absent (by simp))
  grammar := .cons_ne (by decide) (.cons_eq ⟨_, rfl, ⟨.cons_eq rfl (.absent (by simp)),
    .cons_ne (by decide) (.cons_eq (.bare _) (.absent nofun))⟩⟩ (.absent (by simp)))
  parser := .cons_ne (by decide) (.cons_ne (by decide)
    (.cons_eq ⟨_, rfl, ⟨.cons_eq (limits_limit h) (.absent nofun)⟩⟩ (.absent nofun)))

/-- What is written is read back. What is laid out in any other way, with some settings or none and with
fields that are unknown, is read as the default configuration with these settings in place of its own;
the defaults of the settings one by one and of the sections as a whole are the same. -/
theorem loading_overrides :
    (∀ c : Config, (∀ n ∈ c.parser.maxAttempts, n ≤ Json.maxSize) →
      ofText (String.ofList c.toJson) = .ok c) ∧
    (∀ (fields : List (String × Json)) (given : Config.Given) (before text behind : List Char),
      given.Stands fields → Json.Writes (.object (members fields)) text →
      Json.Blank before → Json.Blank behind →
      ofText (String.ofList (before ++ (text ++ behind))) = .ok (({} : Config).override given)) ∧
    (∀ value : Json, ofJson value = (Config.Given.ofJson value).map Config.Given.fill) ∧
    ∀ given : Config.Given, given.fill = ({} : Config).override given := by
  refine ⟨fun c hFits => ?roundTrip, fun fields given before text behind hGiven hText hBefore hBehind => ?given,
    fun _ => rfl, Config.Given.fill_eq_override⟩
  case roundTrip =>
    have h := ofText_eq_override (stands_fieldsOf hFits) c.writes_toJson .nil .nil
    rwa [List.nil_append, List.append_nil] at h
  case given => exact ofText_eq_override hGiven hText hBefore hBehind

def limitAlone : List (String × Json) :=
  [("mode", .array []), ("parser", .object (members [("max_attempts", .number (Nat.toDigits 10 500))]))]

theorem stands_limitAlone : Config.Given.Stands { parser := some ⟨some (some 500)⟩ } limitAlone where
  lexer := .absent (by simp [limitAlone])
  grammar := .absent (by simp [limitAlone])
  parser := .cons_ne (by decide)
    (.cons_eq ⟨_, rfl, ⟨.cons_eq (.limited (by decide)) (.absent nofun)⟩⟩ (.absent nofun))

theorem loading_overrides_limit :
    ofText (String.ofList ({} : Config).toJson) = .ok {} ∧
    ofText "\n\x7b\"mode\": [ ],\t\"parser\":\x7b\"max_attempts\":500\x7d\x7d " =
      .ok { parser := { maxAttempts := some 500 } } := by
  have hBlank {c : Char} (h : c = ' ' ∨ c = '\t' ∨ c = '\n' ∨ c = '\r') : Json.Blank [c] :=
    List.forall_mem_singleton.mpr h
  obtain ⟨text, hText, hChars⟩ : ∃ text, Json.Writes (.object (members limitAlone)) text ∧
      '\n' :: (text ++ [' ']) =
        "\n\x7b\"mode\": [ ],\t\"parser\":\x7b\"max_attempts\":500\x7d\x7d ".toList := by
    refine ⟨_, .object (.more .nil (Json.body_flatMap_escape "mode".toList) .nil (hBlank (.inl rfl))
      (.emptyArray (hBlank (.inl rfl))) .nil (.one (hBlank (.inr (.inl rfl)))
        (Json.body_flatMap_escape "parser".toList) .nil .nil
        (.object (Json.writesMembers_one (.number (Json.numeral_toDigits (.inl rfl) 500)))) .nil)), ?_⟩
    rfl
  have h := loading_overrides.2.1 limitAlone _ ['\n'] text [' '] stands_limitAlone hText
    (hBlank (by decide)) (hBlank (by decide))
  rw [List.singleton_append, hChars, String.ofList_toList] at h
  exact ⟨loading_overrides.1 {} nofun, h⟩

end Config

end Lexigram
