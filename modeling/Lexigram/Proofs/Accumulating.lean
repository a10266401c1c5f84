import Lexigram.Proofs.Building

/-! # What a builder accumulates

What a builder holds is told by the calls alone. The non-terminals are the names that were mentioned, each
at the place of its first mention. A non-terminal has the rules that were added to it, in the order of the
calls, and the settings that were last made for it. What is wrong with a grammar is found in the order of
first mention, too, whatever the order of the calls.
-/

namespace Lexigram

variable {V : Type}

section Lists

variable {α : Type} {f : α → String} {l : List α} {name : String} {index : Nat}

theorem findIdx?_eq_some_iff_of_nodup (hNodup : (l.map f).Nodup) :
    l.findIdx? (f · == name) = some index ↔ (l.map f)[index]? = some name := by
  rw [List.findIdx?_eq_some_iff_getElem]
  constructor
  · rintro ⟨hIndex, hName, -⟩
    rw [List.getElem?_map, List.getElem?_eq_getElem hIndex, Option.map_some, beq_iff_eq.mp hName]
  · intro h
    obtain ⟨hIndex, hName⟩ := List.getElem?_eq_some_iff.mp h
    rw [List.length_map] at hIndex
    rw [List.getElem_map] at hName
    refine ⟨hIndex, beq_iff_eq.mpr hName, fun earlier hEarlier hSame => ?_⟩
    have hEqual : (l.map f)[earlier]? = (l.map f)[index]? := by
      rw [h, List.getElem?_map, List.getElem?_eq_getElem (hEarlier.trans hIndex), Option.map_some,
        beq_iff_eq.mp hSame]
    have hInj := (List.getElem?_inj (by rw [List.length_map]; omega) hNodup).mp hEqual
    omega

theorem findIdx?_eq_none_iff_not_mem : l.findIdx? (f · == name) = none ↔ name ∉ l.map f := by
  simp [List.findIdx?_eq_none_iff]

theorem findSome?_eq_some_iff_getElem? {β : Type} {g : α → Option β} {found : β} :
    l.findSome? g = some found ↔
      ∃ index : Nat, l[index]?.bind g = some found ∧ ∀ earlier < index, l[earlier]?.bind g = none := by
  induction l with
  | nil => simp
  | cons a l ih =>
    rw [List.findSome?_cons]
    cases hFirst : g a with
    | some first =>
      constructor
      · exact fun h => ⟨0, hFirst.trans h, nofun⟩
      · rintro ⟨index, hFound, hEarlier⟩
        cases index with
        | zero => exact hFirst.symm.trans hFound
        | succ index => cases hFirst.symm.trans (hEarlier 0 (Nat.succ_pos index))
    | none =>
      refine ih.trans ⟨?_, ?_⟩
      · rintro ⟨index, hFound, hEarlier⟩
        refine ⟨index + 1, hFound, fun earlier hLess => ?_⟩
        cases earlier with
        | zero => exact hFirst
        | succ earlier => exact hEarlier earlier (Nat.lt_of_succ_lt_succ hLess)
      · rintro ⟨index, hFound, hEarlier⟩
        cases index with
        | zero => cases hFirst.symm.trans hFound
        | succ index =>
          exact ⟨index, hFound, fun earlier hLess => hEarlier (earlier + 1) (Nat.succ_lt_succ hLess)⟩

end Lists

namespace BuilderCall

def mentioned? : BuilderCall V → Option String
  | .define name => some name
  | .reference name => some name
  | _ => none

def target? : BuilderCall V → Option Nat
  | .addRule index _ => some index
  | .setHintPruning index _ => some index
  | .setAlternation index _ => some index
  | _ => none

def ruleFor? (index : Nat) : BuilderCall V → Option (Rule V)
  | .addRule target rule => if target = index then some rule else none
  | _ => none

def hintPruningFor? (index : Nat) : BuilderCall V → Option Bool
  | .setHintPruning target enabled => if target = index then some enabled else none
  | _ => none

def alternationFor? (index : Nat) : BuilderCall V → Option Alternation
  | .setAlternation target alternation => if target = index then some alternation else none
  | _ => none

def start? : BuilderCall V → Option Symbol
  | .setStart symbol => some symbol
  | _ => none

/-- The names that calls mention, in the order of their first mention. -/
def names (calls : List (BuilderCall V)) : List String :=
  (calls.filterMap mentioned?).eraseDups

def added (calls : List (BuilderCall V)) (index : Nat) : List (Rule V) :=
  calls.filterMap (ruleFor? index)

def last? {α : Type} (told? : BuilderCall V → Option α) (calls : List (BuilderCall V)) : Option α :=
  (calls.filterMap told?).getLast?

/-- A non-terminal is defined by its name, or by being the left side of a rule. -/
def Defines (calls : List (BuilderCall V)) (index : Nat) (name : String) : Prop :=
  .define name ∈ calls ∨ ∃ rule, .addRule index rule ∈ calls

variable {calls behind : List (BuilderCall V)} {call : BuilderCall V} {index : Nat} {name : String}

theorem mem_names_iff : name ∈ names calls ↔ ∃ call ∈ calls, call.mentioned? = some name := by
  rw [names, List.mem_eraseDups, List.mem_filterMap]

theorem names_append_singleton : names (calls ++ [call]) =
    names calls ++ call.mentioned?.toList.filter (· ∉ names calls) := by
  have hTold : [call].filterMap mentioned? = call.mentioned?.toList := by
    cases h : call.mentioned? <;> simp [h]
  have hFresh : (call.mentioned?.toList.removeAll (calls.filterMap mentioned?)) =
      call.mentioned?.toList.filter (· ∉ names calls) := by
    simp only [List.removeAll, names, List.mem_eraseDups, List.elem_eq_mem, decide_not]
  rw [names, List.filterMap_append, List.eraseDups_append, hTold, hFresh, ← names]
  cases call.mentioned? with
  | none => rfl
  | some name => by_cases h : name ∈ names calls <;> simp [h, List.eraseDups_cons]

theorem names_append_of_none (h : call.mentioned? = none) : names (calls ++ [call]) = names calls := by
  simp [names_append_singleton, h]

theorem names_append_of_mem (h : call.mentioned? = some name) (hMem : name ∈ names calls) :
    names (calls ++ [call]) = names calls := by
  simp [names_append_singleton, h, hMem]

theorem names_append_of_not_mem (h : call.mentioned? = some name) (hMem : name ∉ names calls) :
    names (calls ++ [call]) = names calls ++ [name] := by
  simp [names_append_singleton, h, hMem]

theorem names_prefix (calls behind : List (BuilderCall V)) : names calls <+: names (calls ++ behind) := by
  rw [names, names, List.filterMap_append, List.eraseDups_append]
  exact List.prefix_append _ _

theorem names_nodup (calls : List (BuilderCall V)) : (names calls).Nodup := by
  induction calls using List.reverseRecOn with
  | nil => exact List.nodup_nil
  | append_singleton calls call ih =>
    cases h : call.mentioned? with
    | none => rwa [names_append_of_none h]
    | some name =>
      by_cases hMem : name ∈ names calls
      · rwa [names_append_of_mem h hMem]
      · rw [names_append_of_not_mem h hMem]
        exact List.nodup_append.mpr ⟨ih, List.nodup_singleton name, fun a ha b hb => by
          rw [List.mem_singleton.mp hb]
          exact fun hSame => hMem (hSame ▸ ha)⟩

@[simp]
theorem added_append_singleton :
    added (calls ++ [call]) index = added calls index ++ (call.ruleFor? index).toList := by
  cases h : call.ruleFor? index <;> simp [added, h]

@[simp]
theorem last?_append_singleton {α : Type} {told? : BuilderCall V → Option α} :
    last? told? (calls ++ [call]) = (told? call).or (last? told? calls) := by
  cases h : told? call <;> simp [last?, h]

theorem defines_append_singleton_iff : Defines (calls ++ [call]) index name ↔
    Defines calls index name ∨ call = .define name ∨ ∃ rule, call = .addRule index rule := by
  simp only [Defines, List.mem_append, List.mem_singleton, exists_or, eq_comm (a := call)]
  tauto

theorem untold_of_target?_ne (h : call.target? ≠ some index) : call.ruleFor? index = none ∧
    call.hintPruningFor? index = none ∧ call.alternationFor? index = none := by
  cases call <;> simp_all [target?, ruleFor?, hintPruningFor?, alternationFor?]

theorem untold_of_forall (h : ∀ call ∈ calls, call.target? ≠ some index) : added calls index = [] ∧
    last? (hintPruningFor? index) calls = none ∧ last? (alternationFor? index) calls = none := by
  have hEach (call) (hCall : call ∈ calls) := untold_of_target?_ne (h call hCall)
  refine ⟨List.filterMap_eq_nil_iff.mpr fun call hCall => (hEach call hCall).1, ?_, ?_⟩
  · exact List.getLast?_eq_none_iff.mpr
      (List.filterMap_eq_nil_iff.mpr fun call hCall => (hEach call hCall).2.1)
  · exact List.getLast?_eq_none_iff.mpr
      (List.filterMap_eq_nil_iff.mpr fun call hCall => (hEach call hCall).2.2)

theorem exists_addRule_of_mem_added {rule : Rule V} (h : rule ∈ added calls index) :
    ∃ rule, .addRule index rule ∈ calls := by
  obtain ⟨call, hCall, hRule⟩ := List.mem_filterMap.mp h
  cases call with
  | addRule target other =>
    rw [ruleFor?] at hRule
    split at hRule
    · subst target
      exact ⟨other, hCall⟩
    · cases hRule
  | _ => cases hRule

end BuilderCall

open BuilderCall

def Symbol.word? (names : List String) : Symbol → Option String
  | .terminal t => some t.name
  | .nonTerminal index => names[index]?

def Rule.words? (names : List String) (rule : Rule V) : Option String :=
  (rule.symbols.mapM (Symbol.word? names)).map (" ".intercalate ·)

section Words

variable {names more : List String}

theorem getElem?_of_prefix (hPrefix : names <+: more) {index : Nat} {word : String}
    (h : names[index]? = some word) : more[index]? = some word := by
  obtain ⟨behind, rfl⟩ := hPrefix
  have hIndex := (List.getElem?_eq_some_iff.mp h).1
  exact (List.getElem?_append_left hIndex).trans h

theorem Symbol.word?_of_prefix (hPrefix : names <+: more) {symbol : Symbol} {word : String}
    (h : symbol.word? names = some word) : symbol.word? more = some word := by
  cases symbol with
  | terminal t => exact h
  | nonTerminal index => exact getElem?_of_prefix hPrefix h

theorem Symbol.words?_of_prefix (hPrefix : names <+: more) {symbols : List Symbol} {words : List String}
    (h : symbols.mapM (Symbol.word? names) = some words) :
    symbols.mapM (Symbol.word? more) = some words := by
  induction symbols generalizing words with
  | nil => exact h
  | cons symbol symbols ih =>
    simp only [List.mapM_cons, Option.bind_eq_bind, Option.bind_eq_some_iff] at h ⊢
    obtain ⟨word, hWord, others, hOthers, hWords⟩ := h
    exact ⟨word, Symbol.word?_of_prefix hPrefix hWord, others, ih hOthers, hWords⟩

theorem Rule.words?_of_prefix (hPrefix : names <+: more) {rule : Rule V} {label : String}
    (h : rule.words? names = some label) : rule.words? more = some label := by
  obtain ⟨words, hWords, rfl⟩ := Option.map_eq_some_iff.mp h
  rw [Rule.words?, Symbol.words?_of_prefix hPrefix hWords]
  rfl

end Words

structure Rule.Keeps (names : List String) (owner : String) (added kept : Rule V) : Prop where
  symbols : kept.symbols = added.symbols
  reducer : kept.reducer = added.reducer
  owner : kept.owner = owner
  label : added.words? names = some kept.label

theorem Rule.Keeps.of_prefix {names more : List String} {owner : String} {added kept : Rule V}
    (h : Rule.Keeps names owner added kept) (hPrefix : names <+: more) :
    Rule.Keeps more owner added kept :=
  { h with label := Rule.words?_of_prefix hPrefix h.label }

theorem Rule.Keeps.find?_not_hasReducer {names : List String} {owner : String} {added kept : List (Rule V)}
    (h : List.Forall₂ (Rule.Keeps names owner) added kept) :
    Option.Rel (Rule.Keeps names owner) (added.find? (!·.hasReducer)) (kept.find? (!·.hasReducer)) := by
  induction h with
  | nil => exact .none
  | @cons rule keptRule added kept hRule _ ih =>
    have hSame : keptRule.hasReducer = rule.hasReducer := congrArg Option.isSome hRule.reducer
    rw [List.find?_cons, List.find?_cons, hSame]
    cases !rule.hasReducer with
    | true => exact .some hRule
    | false => exact ih

/-- A non-terminal is as calls told, given the settings for non-terminals that no call told. -/
structure NonTerminal.Told (defaults : GrammarConfig) (calls : List (BuilderCall V)) (index : Nat)
    (nt : NonTerminal V) : Prop where
  name : (names calls)[index]? = some nt.name
  rules : List.Forall₂ (Rule.Keeps (names calls) nt.name) (added calls index) nt.rules
  hintPruning : nt.hintPruning = (last? (hintPruningFor? index) calls).getD defaults.hintPruning
  alternation : nt.alternation = (last? (alternationFor? index) calls).getD defaults.alternation

theorem NonTerminal.Told.append {defaults : GrammarConfig} {calls : List (BuilderCall V)} {index : Nat}
    {nt : NonTerminal V} (h : nt.Told defaults calls index) {call : BuilderCall V} {next : NonTerminal V}
    {kept : List (Rule V)} (hName : next.name = nt.name) (hRules : next.rules = nt.rules ++ kept)
    (hKept : List.Forall₂ (Rule.Keeps (names calls) nt.name) (call.ruleFor? index).toList kept)
    (hHintPruning : next.hintPruning = (call.hintPruningFor? index).getD nt.hintPruning)
    (hAlternation : next.alternation = (call.alternationFor? index).getD nt.alternation) :
    next.Told defaults (calls ++ [call]) index := by
  have hPrefix := names_prefix calls [call]
  constructor
  · rw [hName]
    exact getElem?_of_prefix hPrefix h.name
  · rw [hName, hRules, added_append_singleton]
    exact (List.rel_append h.rules hKept).imp fun _ _ hKeeps => hKeeps.of_prefix hPrefix
  · rw [hHintPruning, h.hintPruning, last?_append_singleton, Option.getD_or]
  · rw [hAlternation, h.alternation, last?_append_singleton, Option.getD_or]

theorem NonTerminal.Told.unreduced_iff {defaults : GrammarConfig} {calls : List (BuilderCall V)}
    {index : Nat} {nt : NonTerminal V} (h : nt.Told defaults calls index) {label : String} :
    (∃ rule, (added calls index).find? (!·.hasReducer) = some rule ∧
      rule.words? (names calls) = some label) ↔
    ∃ rule, nt.rules.find? (!·.hasReducer) = some rule ∧ rule.label = label := by
  have hFound := Rule.Keeps.find?_not_hasReducer h.rules
  generalize (added calls index).find? (!·.hasReducer) = added at hFound ⊢
  generalize nt.rules.find? (!·.hasReducer) = kept at hFound ⊢
  cases hFound with
  | none => simp
  | some hKeeps => simp [hKeeps.label]

namespace GrammarBuilder

variable {defaults : GrammarConfig} {calls told : List (BuilderCall V)} {call : BuilderCall V}
  {b b' : GrammarBuilder V} {index : Nat} {name : String}

def EntryTold (defaults : GrammarConfig) (calls : List (BuilderCall V)) (index : Nat)
    (entry : NonTerminal V × Bool) : Prop :=
  entry.1.Told defaults calls index ∧ (entry.2 = true ↔ Defines calls index entry.1.name)

theorem EntryTold.append {entry : NonTerminal V × Bool} (h : EntryTold defaults calls index entry)
    (hTarget : call.target? ≠ some index) (hDefine : call ≠ .define entry.1.name) :
    EntryTold defaults (calls ++ [call]) index entry := by
  obtain ⟨hRule, hHintPruning, hAlternation⟩ := untold_of_target?_ne hTarget
  refine ⟨h.1.append rfl (List.append_nil _).symm (hRule ▸ .nil) (hHintPruning ▸ rfl)
    (hAlternation ▸ rfl), h.2.trans ?_⟩
  have hNoRule : ¬ ∃ rule, call = .addRule index rule := by
    rintro ⟨rule, rfl⟩
    exact hTarget rfl
  rw [defines_append_singleton_iff, or_iff_left (not_or.mpr ⟨hDefine, hNoRule⟩)]

/-- What a builder holds after calls. -/
structure Accumulates (defaults : GrammarConfig) (calls : List (BuilderCall V)) (b : GrammarBuilder V) :
    Prop where
  config : b.config = defaults
  start : b.start = last? start? calls
  mentions : b.entries.map (·.1.name) = names calls
  entries (index : Nat) (entry : NonTerminal V × Bool) :
    b.entries[index]? = some entry → EntryTold defaults calls index entry
  targets : ∀ call ∈ calls, ∀ index, call.target? = some index → index < b.entries.length

def returned? (b : GrammarBuilder V) : BuilderCall V → Option Nat
  | .define name => some (b.define name).1
  | .reference name => some (b.reference name).1
  | _ => none

def Hands (defaults : GrammarConfig) (calls : List (BuilderCall V)) (name : String) (index : Nat) : Prop :=
  ∃ before call behind b, calls = before ++ call :: behind ∧ call.mentioned? = some name ∧
    ({ config := defaults } : GrammarBuilder V).performAll before = .ok b ∧ b.returned? call = some index

/-- What keeps the non-terminal `index` from being part of a grammar. -/
def Fault (calls : List (BuilderCall V)) (index : Nat) : GrammarError → Prop
  | .undefinedNonTerminal name => (names calls)[index]? = some name ∧ ¬ Defines calls index name
  | .missingReducer name label => (names calls)[index]? = some name ∧
      ∃ rule, (added calls index).find? (!·.hasReducer) = some rule ∧ rule.words? (names calls) = some label
  | _ => False

theorem accumulates_new (defaults : GrammarConfig) :
    ({ config := defaults } : GrammarBuilder V).Accumulates defaults [] where
  config := rfl
  start := rfl
  mentions := rfl
  entries := nofun
  targets := nofun

namespace Accumulates

theorem find?_eq_some_iff (h : b.Accumulates defaults calls) :
    b.find? name = some index ↔ (names calls)[index]? = some name := by
  rw [← h.mentions]
  exact findIdx?_eq_some_iff_of_nodup (h.mentions ▸ names_nodup calls)

theorem not_mem_names_iff (h : b.Accumulates defaults calls) :
    name ∉ names calls ↔ b.find? name = none := by
  rw [← h.mentions]
  exact findIdx?_eq_none_iff_not_mem.symm

theorem length_names (h : b.Accumulates defaults calls) : (names calls).length = b.entries.length := by
  rw [← h.mentions, List.length_map]

theorem entryTold_fresh (h : b.Accumulates defaults calls) (hFresh : name ∉ names calls) :
    EntryTold defaults (calls ++ [.reference name]) b.entries.length
      (⟨name, [], defaults.hintPruning, defaults.alternation⟩, false) := by
  have hTargets : ∀ call ∈ calls, call.target? ≠ some b.entries.length :=
    fun call hCall hTarget => Nat.lt_irrefl _ (h.targets call hCall _ hTarget)
  obtain ⟨hAdded, hHintPruning, hAlternation⟩ := untold_of_forall hTargets
  refine ⟨⟨?_, ?_, ?_, ?_⟩, ?_⟩
  · rw [names_append_of_not_mem rfl hFresh, ← h.length_names, List.getElem?_concat_length]
  · rw [added_append_singleton, hAdded]
    exact .nil
  · rw [last?_append_singleton, hHintPruning]
    rfl
  · rw [last?_append_singleton, hAlternation]
    rfl
  · refine ⟨nofun, fun hDefines => ?_⟩
    rcases defines_append_singleton_iff.mp hDefines with (hDefine | ⟨rule, hRule⟩) | hLast | ⟨_, hLast⟩
    · exact absurd (mem_names_iff.mpr ⟨_, hDefine, rfl⟩) hFresh
    · exact absurd rfl (hTargets _ hRule)
    · cases hLast
    · cases hLast

theorem reference (h : b.Accumulates defaults calls) (name : String) :
    (b.reference name).2.Accumulates defaults (calls ++ [.reference name]) ∧
      (names (calls ++ [.reference name]))[(b.reference name).1]? = some name := by
  have hOld (entry : NonTerminal V × Bool) (index : Nat) (hEntry : b.entries[index]? = some entry) :
      EntryTold defaults (calls ++ [.reference name]) index entry :=
    (h.entries index entry hEntry).append nofun nofun
  have hStart : b.start = last? start? (calls ++ [.reference name]) := by
    rw [last?_append_singleton, h.start]
    rfl
  unfold GrammarBuilder.reference
  cases hFind : b.find? name with
  | some index =>
    have hName := h.find?_eq_some_iff.mp hFind
    have hNames : names (calls ++ [.reference name]) = names calls :=
      names_append_of_mem rfl (List.mem_of_getElem? hName)
    refine ⟨⟨h.config, hStart, h.mentions.trans hNames.symm, fun index entry => hOld entry index, ?_⟩,
      hNames ▸ hName⟩
    rw [List.forall_mem_append, List.forall_mem_singleton]
    exact ⟨h.targets, nofun⟩
  | none =>
    have hFresh := h.not_mem_names_iff.mpr hFind
    have hNames : names (calls ++ [.reference name]) = names calls ++ [name] :=
      names_append_of_not_mem rfl hFresh
    refine ⟨⟨h.config, hStart, ?_, ?_, ?_⟩, ?_⟩
    · rw [List.map_append, h.mentions, hNames]
      rfl
    · intro index entry hEntry
      rcases Nat.lt_or_ge index b.entries.length with hIndex | hIndex
      · rw [List.getElem?_append_left hIndex] at hEntry
        exact hOld entry index hEntry
      · rw [List.getElem?_append_right hIndex, List.getElem?_singleton] at hEntry
        split at hEntry
        · cases hEntry
          obtain rfl : index = b.entries.length := by omega
          exact h.config ▸ h.entryTold_fresh hFresh
        · cases hEntry
    · rw [List.forall_mem_append, List.forall_mem_singleton]
      refine ⟨fun call hCall index hTarget => ?_, nofun⟩
      have := h.targets call hCall index hTarget
      rw [List.length_append]
      omega
    · rw [hNames, ← h.length_names, List.getElem?_concat_length]

theorem modify (h : b.Accumulates defaults calls) {f : NonTerminal V × Bool → NonTerminal V × Bool}
    (hName : ∀ entry, (f entry).1.name = entry.1.name) (hNames : names told = names calls)
    (hStart : last? start? told = last? start? calls)
    (hTargets : ∀ call ∈ told, ∀ i, call.target? = some i → i < b.entries.length)
    (hHere : ∀ entry, b.entries[index]? = some entry → EntryTold defaults told index (f entry))
    (hElsewhere : ∀ i entry, i ≠ index → b.entries[i]? = some entry → EntryTold defaults told i entry) :
    ({ b with entries := b.entries.modify index f } : GrammarBuilder V).Accumulates defaults told where
  config := h.config
  start := h.start.trans hStart.symm
  mentions := by
    rw [hNames, ← h.mentions]
    refine List.ext_getElem? fun i => ?_
    rw [List.getElem?_map, List.getElem?_map, List.getElem?_modify]
    cases b.entries[i]? with
    | none => rfl
    | some entry => by_cases hi : index = i <;> simp [hi, hName]
  entries i entry hEntry := by
    rw [List.getElem?_modify] at hEntry
    obtain ⟨old, hOld, rfl⟩ := Option.map_eq_some_iff.mp hEntry
    split
    · subst index
      exact hHere old hOld
    · rename_i hi
      exact hElsewhere i old (Ne.symm hi) hOld
  targets := by
    rw [List.length_modify]
    exact hTargets

theorem define (h : b.Accumulates defaults calls) (name : String) :
    (b.define name).2.Accumulates defaults (calls ++ [.define name]) ∧
      (names (calls ++ [.define name]))[(b.define name).1]? = some name := by
  obtain ⟨hReferenced, hIndex⟩ := h.reference name
  have hNames : names (calls ++ [.define name]) = names (calls ++ [.reference name]) := by
    rw [names_append_singleton, names_append_singleton]
    rfl
  have hTold (i : Nat) (nt : NonTerminal V) (hNt : nt.Told defaults (calls ++ [.reference name]) i) :
      nt.Told defaults (calls ++ [.define name]) i := by
    refine ⟨hNames ▸ hNt.name, ?_, ?_, ?_⟩
    · have hAdded : added (calls ++ [.define name]) i = added (calls ++ [.reference name]) i := by
        rw [added_append_singleton, added_append_singleton]
        rfl
      exact hNames ▸ hAdded ▸ hNt.rules
    · rw [hNt.hintPruning, last?_append_singleton, last?_append_singleton]
      rfl
    · rw [hNt.alternation, last?_append_singleton, last?_append_singleton]
      rfl
  refine ⟨hReferenced.modify (fun _ => rfl) hNames ?_ ?_ ?_ ?_, hNames ▸ hIndex⟩
  · rw [last?_append_singleton, last?_append_singleton]
    rfl
  · intro call hCall i hTarget
    rcases List.mem_append.mp hCall with hBefore | hLast
    · exact hReferenced.targets call (List.mem_append_left _ hBefore) i hTarget
    · cases List.mem_singleton.mp hLast
      cases hTarget
  · intro entry hEntry
    have hNt := (hReferenced.entries _ entry hEntry).1
    have hName : entry.1.name = name := Option.some.inj (hNt.name.symm.trans hIndex)
    refine ⟨hTold _ _ hNt, fun _ => ?_, fun _ => rfl⟩
    exact defines_append_singleton_iff.mpr (.inr (.inl (hName ▸ rfl)))
  · intro i entry hi hEntry
    obtain ⟨hNt, hDefined⟩ := hReferenced.entries i entry hEntry
    refine ⟨hTold _ _ hNt, hDefined.trans ?_⟩
    have hName : entry.1.name ≠ name := by
      intro hName
      have hSame := (hName ▸ hNt.name).trans hIndex.symm
      have hLength := (List.getElem?_eq_some_iff.mp hNt.name).1
      exact hi ((List.getElem?_inj hLength (names_nodup _)).mp hSame)
    simp [defines_append_singleton_iff, hName.symm]

theorem change (h : b.Accumulates defaults calls) {f : NonTerminal V × Bool → NonTerminal V × Bool}
    (hName : ∀ entry, (f entry).1.name = entry.1.name) (hTarget : call.target? = some index)
    (hIndex : index < b.entries.length)
    (hHere : ∀ entry, EntryTold defaults calls index entry →
      EntryTold defaults (calls ++ [call]) index (f entry)) :
    ({ b with entries := b.entries.modify index f } : GrammarBuilder V).Accumulates defaults
      (calls ++ [call]) := by
  have hMentioned : call.mentioned? = none := by cases call <;> first | rfl | cases hTarget
  have hStart : call.start? = none := by cases call <;> first | rfl | cases hTarget
  refine h.modify hName (names_append_of_none hMentioned) ?_ ?_
    (fun entry hEntry => hHere entry (h.entries index entry hEntry)) (fun i entry hi hEntry => ?_)
  · rw [last?_append_singleton, hStart, Option.none_or]
  · rw [List.forall_mem_append, List.forall_mem_singleton]
    refine ⟨h.targets, fun i hi => ?_⟩
    exact Option.some.inj (hTarget.symm.trans hi) ▸ hIndex
  · refine (h.entries i entry hEntry).append ?_ ?_
    · rw [hTarget]
      exact fun hSame => hi (Option.some.inj hSame).symm
    · rintro rfl
      cases hMentioned

theorem words?_eq_some (h : b.Accumulates defaults calls) {symbols : List Symbol} {words : List String}
    (hWords : symbols.mapM b.symbolName = .ok words) :
    symbols.mapM (Symbol.word? (names calls)) = some words := by
  induction symbols generalizing words with
  | nil =>
    cases hWords
    rfl
  | cons symbol symbols ih =>
    rw [List.mapM_cons] at hWords
    obtain ⟨word, hWord, hRest⟩ := bind_eq_ok_iff.mp hWords
    obtain ⟨others, hOthers, hCons⟩ := bind_eq_ok_iff.mp hRest
    cases hCons
    have hFirst : symbol.word? (names calls) = some word := by
      cases symbol with
      | terminal t =>
        cases hWord
        rfl
      | nonTerminal index =>
        rw [symbolName] at hWord
        split at hWord
        · rename_i nt defined hEntry
          cases hWord
          exact (h.entries index (nt, defined) hEntry).1.name
        · cases hWord
    rw [List.mapM_cons, hFirst, ih hOthers]
    rfl

theorem addRule (h : b.Accumulates defaults calls) {rule : Rule V} (hAdded : b.addRule index rule = .ok b') :
    b'.Accumulates defaults (calls ++ [.addRule index rule]) := by
  obtain ⟨words, hWords, hModified⟩ := bind_eq_ok_iff.mp hAdded
  obtain ⟨hIndex, rfl⟩ := modify?_eq_ok_iff.mp hModified
  have hLabel : rule.words? (names calls) = some (" ".intercalate words) := by
    rw [Rule.words?, h.words?_eq_some hWords]
    rfl
  have hRule : (BuilderCall.addRule index rule).ruleFor? index = some rule := if_pos rfl
  refine h.change (fun _ => rfl) rfl hIndex fun entry hEntry => ⟨hEntry.1.append rfl rfl ?_ rfl rfl, ?_⟩
  · rw [hRule]
    exact .cons ⟨rfl, rfl, rfl, hLabel⟩ .nil
  · exact iff_of_true rfl (.inr ⟨rule, List.mem_append_right _ List.mem_cons_self⟩)

theorem setHintPruning (h : b.Accumulates defaults calls) {enabled : Bool}
    (hSet : b.setHintPruning index enabled = .ok b') :
    b'.Accumulates defaults (calls ++ [.setHintPruning index enabled]) := by
  obtain ⟨hIndex, rfl⟩ := modify?_eq_ok_iff.mp hSet
  refine h.change (fun _ => rfl) rfl hIndex fun entry ⟨hNt, hDefined⟩ =>
    ⟨hNt.append rfl (List.append_nil _).symm .nil ?_ rfl, ?_⟩
  · simp [hintPruningFor?]
  · simpa [defines_append_singleton_iff] using hDefined

theorem setAlternation (h : b.Accumulates defaults calls) {alternation : Alternation}
    (hSet : b.setAlternation index alternation = .ok b') :
    b'.Accumulates defaults (calls ++ [.setAlternation index alternation]) := by
  obtain ⟨hIndex, rfl⟩ := modify?_eq_ok_iff.mp hSet
  refine h.change (fun _ => rfl) rfl hIndex fun entry ⟨hNt, hDefined⟩ =>
    ⟨hNt.append rfl (List.append_nil _).symm .nil rfl ?_, ?_⟩
  · simp [alternationFor?]
  · simpa [defines_append_singleton_iff] using hDefined

theorem setStart (h : b.Accumulates defaults calls) (symbol : Symbol) :
    (b.setStart symbol).Accumulates defaults (calls ++ [.setStart symbol]) where
  config := h.config
  start := by
    rw [last?_append_singleton]
    rfl
  mentions := h.mentions.trans (names_append_of_none rfl).symm
  entries index entry hEntry := (h.entries index entry hEntry).append nofun nofun
  targets := by
    rw [List.forall_mem_append, List.forall_mem_singleton]
    exact ⟨h.targets, nofun⟩

theorem perform (h : b.Accumulates defaults calls) (hCall : b.perform call = .ok b') :
    b'.Accumulates defaults (calls ++ [call]) := by
  cases call with
  | define name =>
    cases hCall
    exact (h.define name).1
  | reference name =>
    cases hCall
    exact (h.reference name).1
  | addRule index rule => exact h.addRule hCall
  | setHintPruning index enabled => exact h.setHintPruning hCall
  | setAlternation index alternation => exact h.setAlternation hCall
  | setStart symbol =>
    cases hCall
    exact h.setStart symbol

theorem performAll (h : b.Accumulates defaults calls) {behind : List (BuilderCall V)}
    (hCalls : b.performAll behind = .ok b') : b'.Accumulates defaults (calls ++ behind) := by
  unfold GrammarBuilder.performAll at hCalls
  induction behind generalizing b calls with
  | nil =>
    cases hCalls
    rwa [List.append_nil]
  | cons call behind ih =>
    rw [List.foldlM_cons] at hCalls
    obtain ⟨next, hCall, hRest⟩ := bind_eq_ok_iff.mp hCalls
    rw [List.append_cons]
    exact ih (h.perform hCall) hRest

theorem returned (h : b.Accumulates defaults calls) (hMentioned : call.mentioned? = some name) :
    ∃ index, b.returned? call = some index ∧ (names (calls ++ [call]))[index]? = some name := by
  cases call with
  | define name =>
    cases hMentioned
    exact ⟨_, rfl, (h.define name).2⟩
  | reference name =>
    cases hMentioned
    exact ⟨_, rfl, (h.reference name).2⟩
  | _ => cases hMentioned

theorem exists_entry (h : b.Accumulates defaults calls) (hName : (names calls)[index]? = some name) :
    ∃ entry, b.entries[index]? = some entry ∧ entry.1.name = name := by
  rw [← h.mentions, List.getElem?_map] at hName
  exact Option.map_eq_some_iff.mp hName

theorem fault_iff (h : b.Accumulates defaults calls) {e : GrammarError} :
    Fault calls index e ↔ b.entries[index]?.bind entryError? = some e := by
  rw [Option.bind_eq_some_iff]
  constructor
  · intro hFault
    cases e with
    | undefinedNonTerminal name =>
      obtain ⟨hName, hUndefined⟩ := hFault
      obtain ⟨⟨nt, defined⟩, hEntry, rfl⟩ := h.exists_entry hName
      have hDefined := (h.entries index _ hEntry).2
      cases defined with
      | false => exact ⟨_, hEntry, rfl⟩
      | true => exact absurd (hDefined.mp rfl) hUndefined
    | missingReducer name label =>
      obtain ⟨hName, rule, hRule, hLabel⟩ := hFault
      obtain ⟨⟨nt, defined⟩, hEntry, rfl⟩ := h.exists_entry hName
      obtain ⟨hTold, hDefined⟩ := h.entries index _ hEntry
      obtain rfl : defined = true :=
        hDefined.mpr (.inr (exists_addRule_of_mem_added (List.mem_of_find?_eq_some hRule)))
      obtain ⟨kept, hKept, hSame⟩ := hTold.unreduced_iff.mp ⟨rule, hRule, hLabel⟩
      exact ⟨_, hEntry, by rw [entryError?, hKept, Option.map_some, hSame]⟩
    | missingStart => exact hFault.elim
    | unregisteredTerminal name => exact hFault.elim
  · rintro ⟨⟨nt, defined⟩, hEntry, hError⟩
    obtain ⟨hTold, hDefined⟩ := h.entries index _ hEntry
    cases defined with
    | false =>
      cases hError
      exact ⟨hTold.name, fun hDefines => nomatch hDefined.mpr hDefines⟩
    | true =>
      obtain ⟨kept, hKept, rfl⟩ := Option.map_eq_some_iff.mp hError
      exact ⟨hTold.name, hTold.unreduced_iff.mpr ⟨kept, hKept, rfl⟩⟩

theorem build_eq_error_iff (h : b.Accumulates defaults calls) {start : Symbol}
    (hStart : last? start? calls = some start) {e : GrammarError} : b.build = .error e ↔
      ∃ index, Fault calls index e ∧ ∀ earlier < index, ∀ other, ¬ Fault calls earlier other := by
  have hBuild : b.build = .error e ↔ b.entries.findSome? entryError? = some e := by
    rw [build, h.start, hStart]
    cases b.entries.findSome? entryError? with
    | none => exact ⟨nofun, nofun⟩
    | some found => simp
  simp only [hBuild, findSome?_eq_some_iff_getElem?, h.fault_iff, Option.eq_none_iff_forall_ne_some,
    ne_eq]

theorem build_eq_missingStart_iff (h : b.Accumulates defaults calls) :
    b.build = .error .missingStart ↔ ∀ symbol, .setStart symbol ∉ calls := by
  have hNone : last? start? calls = none ↔ ∀ symbol, .setStart symbol ∉ calls := by
    rw [last?, List.getLast?_eq_none_iff, List.filterMap_eq_nil_iff]
    constructor
    · exact fun hCalls symbol hCall => nomatch hCalls _ hCall
    · intro hCalls call hCall
      cases call with
      | setStart symbol => exact absurd hCall (hCalls symbol)
      | _ => rfl
  rw [← hNone]
  constructor
  · intro hBuild
    by_contra hSome
    obtain ⟨start, hStart⟩ := Option.ne_none_iff_exists'.mp hSome
    obtain ⟨index, hFault, -⟩ := (h.build_eq_error_iff hStart).mp hBuild
    exact hFault
  · intro hStart
    rw [build, h.start, hStart]

theorem build_of_faultless (h : b.Accumulates defaults calls) {start : Symbol}
    (hStart : last? start? calls = some start) (hFaultless : ∀ index e, ¬ Fault calls index e) :
    b.build = .ok ⟨b.entries.map (·.1), start⟩ := by
  refine build_eq_ok_iff.mpr ⟨start, h.start.trans hStart, ?_, rfl⟩
  rw [List.findSome?_eq_none_iff]
  intro entry hEntry
  obtain ⟨index, hIndex⟩ := List.mem_iff_getElem?.mp hEntry
  refine Option.eq_none_iff_forall_ne_some.mpr fun e hError => hFaultless index e ?_
  rw [h.fault_iff, hIndex]
  exact hError

end Accumulates

theorem hands_iff (hCalls : ({ config := defaults } : GrammarBuilder V).performAll calls = .ok b) :
    Hands defaults calls name index ↔ (names calls)[index]? = some name := by
  have hPlace {index : Nat} (hHands : Hands defaults calls name index) :
      (names calls)[index]? = some name := by
    obtain ⟨before, call, behind, earlier, rfl, hMentioned, hBefore, hReturned⟩ := hHands
    obtain ⟨place, hPlace, hName⟩ :=
      ((accumulates_new defaults).performAll hBefore).returned hMentioned
    obtain rfl : place = index := Option.some.inj (hPlace.symm.trans hReturned)
    have hPrefix := names_prefix (before ++ [call]) behind
    rw [← List.append_cons] at hPrefix
    exact getElem?_of_prefix hPrefix hName
  refine ⟨hPlace, fun hName => ?_⟩
  obtain ⟨call, hCall, hMentioned⟩ := mem_names_iff.mp (List.mem_of_getElem? hName)
  obtain ⟨before, behind, hSplit⟩ := List.append_of_mem hCall
  have hRun := hCalls
  rw [hSplit, performAll, List.foldlM_append] at hRun
  obtain ⟨earlier, hBefore, -⟩ := bind_eq_ok_iff.mp hRun
  obtain ⟨place, hReturned, -⟩ := ((accumulates_new defaults).performAll hBefore).returned hMentioned
  have hHands : Hands defaults calls name place :=
    ⟨before, call, behind, earlier, hSplit, hMentioned, hBefore, hReturned⟩
  have hLength := (List.getElem?_eq_some_iff.mp hName).1
  obtain rfl : index = place :=
    (List.getElem?_inj hLength (names_nodup calls)).mp (hName.trans (hPlace hHands).symm)
  exact hHands

end GrammarBuilder

open GrammarBuilder

/-- Whatever the calls of a builder, each name has the number of its first mention, the errors are those of
the first non-terminal that has one, and a grammar without errors has what the calls told. -/
theorem builds_what_calls_told {defaults : GrammarConfig} {calls : List (BuilderCall V)}
    {builder : GrammarBuilder V}
    (hCalls : ({ config := defaults } : GrammarBuilder V).performAll calls = .ok builder) :
    (∀ name index, Hands defaults calls name index ↔ (names calls)[index]? = some name) ∧
    (∀ name index other place, Hands defaults calls name index → Hands defaults calls other place →
      (name = other ↔ index = place)) ∧
    (builder.build = .error .missingStart ↔ ∀ symbol, .setStart symbol ∉ calls) ∧
    ∀ start, last? start? calls = some start →
      (∀ e, builder.build = .error e ↔
        ∃ index, Fault calls index e ∧ ∀ earlier < index, ∀ other, ¬ Fault calls earlier other) ∧
      ((∀ index e, ¬ Fault calls index e) → ∃ g, builder.build = .ok g ∧ g.start = start ∧
        g.nonTerminals.map (·.name) = names calls ∧ ∀ index nt, g.get? index = some nt →
          nt.Told defaults calls index ∧ g.find? nt.name = some index) := by
  have h := (accumulates_new defaults).performAll hCalls
  rw [List.nil_append] at h
  refine ⟨fun _ _ => hands_iff hCalls, fun name index other place hName hOther => ?_,
    h.build_eq_missingStart_iff, fun start hStart => ⟨fun _ => h.build_eq_error_iff hStart,
      fun hFaultless => ⟨_, h.build_of_faultless hStart hFaultless, rfl, ?_, ?_⟩⟩⟩
  · rw [hands_iff hCalls] at hName hOther
    have hLength := (List.getElem?_eq_some_iff.mp hName).1
    rw [← List.getElem?_inj hLength (names_nodup calls), hName, hOther, Option.some_inj]
  · rw [List.map_map]
    exact h.mentions
  · intro index nt hNt
    rw [Grammar.get?, List.getElem?_map] at hNt
    obtain ⟨entry, hEntry, rfl⟩ := Option.map_eq_some_iff.mp hNt
    have hTold := (h.entries index entry hEntry).1
    have hNames : (builder.entries.map (·.1)).map (·.name) = names calls := by
      rw [List.map_map]
      exact h.mentions
    refine ⟨hTold, ?_⟩
    rw [Grammar.find?, findIdx?_eq_some_iff_of_nodup (hNames ▸ names_nodup calls), hNames]
    exact hTold.name

namespace Sums

def forward (reducer : Option (Reducer String)) : List (BuilderCall String) :=
  [.setStart (.nonTerminal 1), .reference "sum", .reference "item",
    .addRule 0 { symbols := [.nonTerminal 1, .terminal plus, .nonTerminal 0], reducer := single },
    .setHintPruning 0 false, .define "item", .addRule 1 { symbols := [.terminal number], reducer },
    .setHintPruning 0 true, .setStart (.nonTerminal 0)]

theorem not_fault_sum (reducer : Option (Reducer String)) (e : GrammarError) :
    ¬ Fault (forward reducer) 0 e := by
  cases e with
  | undefinedNonTerminal name => exact fun h => h.2 (.inr ⟨_, .tail _ (.tail _ (.tail _ (.head _)))⟩)
  | missingReducer name label =>
    rintro ⟨-, rule, hRule, -⟩
    cases hRule
  | _ => exact id

theorem not_fault_item (e : GrammarError) : ¬ Fault (forward single) 1 e := by
  cases e with
  | undefinedNonTerminal name =>
    rintro ⟨hName, hUndefined⟩
    cases hName
    exact hUndefined (.inl (.tail _ (.tail _ (.tail _ (.tail _ (.tail _ (.head _)))))))
  | missingReducer name label =>
    rintro ⟨-, rule, hRule, -⟩
    cases hRule
  | _ => exact id

theorem faultless_forward (index : Nat) (e : GrammarError) : ¬ Fault (forward single) index e := by
  match index with
  | 0 => exact not_fault_sum _ e
  | 1 => exact not_fault_item e
  | _ + 2 => cases e <;> first | exact id | exact fun hFault => nomatch hFault.1

end Sums

open Sums in
theorem builds_what_calls_told_sums :
    (∃ builder, ({} : GrammarBuilder String).performAll (forward none) = .ok builder ∧
      builder.build = .error (.missingReducer "item" "number")) ∧
    ∃ builder g, ({} : GrammarBuilder String).performAll (forward single) = .ok builder ∧
      builder.build = .ok g ∧ g.start = .nonTerminal 0 ∧ g.nonTerminals.map (·.name) = ["sum", "item"] := by
  constructor
  · obtain ⟨builder, hCalls⟩ : ∃ builder,
      ({} : GrammarBuilder String).performAll (forward none) = .ok builder := ⟨_, rfl⟩
    obtain ⟨-, -, -, hBuild⟩ := builds_what_calls_told hCalls
    refine ⟨builder, hCalls, ((hBuild (.nonTerminal 0) rfl).1 _).mpr ⟨1, ⟨rfl, _, rfl, rfl⟩, ?_⟩⟩
    intro earlier hEarlier e hFault
    obtain rfl : earlier = 0 := by omega
    exact not_fault_sum none e hFault
  · obtain ⟨builder, hCalls⟩ : ∃ builder,
      ({} : GrammarBuilder String).performAll (forward single) = .ok builder := ⟨_, rfl⟩
    obtain ⟨-, -, -, hBuild⟩ := builds_what_calls_told hCalls
    obtain ⟨g, hBuilt, hStart, hNames, -⟩ := (hBuild (.nonTerminal 0) rfl).2 faultless_forward
    exact ⟨builder, g, hCalls, hBuilt, hStart, hNames⟩

end Lexigram
