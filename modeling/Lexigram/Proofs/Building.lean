import Lexigram.Grammar.Builder
import Lexigram.Proofs.Dangling
import Lexigram.Proofs.Soundness

/-! # Calls of a builder

A builder looks up the numbers in the symbols of a rule when the rule is added, and keeps every
non-terminal that it has. So the rules of a grammar refer to non-terminals of the grammar only, wherever
the numbers came from. The start symbol is not looked up.
-/

namespace Lexigram

variable {V : Type}

/-- A call of an operation of a builder. The numbers and symbols may be those of another builder. -/
inductive BuilderCall (V : Type) where
  | define (name : String)
  | reference (name : String)
  | addRule (index : Nat) (rule : Rule V)
  | setHintPruning (index : Nat) (enabled : Bool)
  | setAlternation (index : Nat) (alternation : Alternation)
  | setStart (symbol : Symbol)

namespace GrammarBuilder

def perform (b : GrammarBuilder V) : BuilderCall V → Except DanglingReference (GrammarBuilder V)
  | .define name => .ok (b.define name).2
  | .reference name => .ok (b.reference name).2
  | .addRule index rule => b.addRule index rule
  | .setHintPruning index enabled => b.setHintPruning index enabled
  | .setAlternation index alternation => b.setAlternation index alternation
  | .setStart symbol => .ok (b.setStart symbol)

def performAll (b : GrammarBuilder V) (calls : List (BuilderCall V)) :
    Except DanglingReference (GrammarBuilder V) :=
  calls.foldlM perform b

def Holds (b : GrammarBuilder V) : Symbol → Prop
  | .terminal _ => True
  | .nonTerminal index => index < b.entries.length

def RulesHeld (b : GrammarBuilder V) : Prop :=
  ∀ entry ∈ b.entries, ∀ rule ∈ entry.1.rules, ∀ symbol ∈ rule.symbols, b.Holds symbol

variable {b b' : GrammarBuilder V}

theorem Holds.mono {symbol : Symbol} (h : b.Holds symbol)
    (hLength : b.entries.length ≤ b'.entries.length) : b'.Holds symbol := by
  cases symbol with
  | terminal t => trivial
  | nonTerminal index => exact Nat.lt_of_lt_of_le h hLength

theorem RulesHeld.reference (h : b.RulesHeld) (name : String) : (b.reference name).2.RulesHeld := by
  unfold GrammarBuilder.reference
  cases b.find? name with
  | some index => exact h
  | none =>
    intro entry hEntry rule hRule symbol hSymbol
    rcases List.mem_append.mp hEntry with hOld | hNew
    · refine (h entry hOld rule hRule symbol hSymbol).mono ?_
      rw [List.length_append]
      exact Nat.le_add_right _ _
    · rw [List.mem_singleton.mp hNew] at hRule
      cases hRule

theorem RulesHeld.modify (h : b.RulesHeld) {f : NonTerminal V × Bool → NonTerminal V × Bool}
    (hf : ∀ entry, ∀ rule ∈ (f entry).1.rules,
      rule ∈ entry.1.rules ∨ ∀ symbol ∈ rule.symbols, b.Holds symbol) (index : Nat) :
    ({ b with entries := b.entries.modify index f } : GrammarBuilder V).RulesHeld := by
  intro entry hEntry rule hRule symbol hSymbol
  have hHolds : b.Holds symbol := by
    obtain ⟨place, hPlace⟩ := List.mem_iff_getElem?.mp hEntry
    rw [List.getElem?_modify] at hPlace
    obtain ⟨old, hOld, rfl⟩ := Option.map_eq_some_iff.mp hPlace
    split at hRule
    · rcases hf old rule hRule with hKept | hGained
      · exact h old (List.mem_of_getElem? hOld) rule hKept symbol hSymbol
      · exact hGained symbol hSymbol
    · exact h old (List.mem_of_getElem? hOld) rule hRule symbol hSymbol
  exact hHolds.mono (List.length_modify ..).ge

theorem holds_of_symbolName {symbol : Symbol} {name : String} (h : b.symbolName symbol = .ok name) :
    b.Holds symbol := by
  cases symbol with
  | terminal t => trivial
  | nonTerminal index =>
    rw [symbolName] at h
    split at h
    · rename_i hEntry
      exact (List.getElem?_eq_some_iff.mp hEntry).1
    · cases h

theorem holds_of_symbolNames {symbols : List Symbol} {names : List String}
    (h : symbols.mapM b.symbolName = .ok names) : ∀ symbol ∈ symbols, b.Holds symbol := by
  induction symbols generalizing names with
  | nil => exact fun _ hSymbol => absurd hSymbol List.not_mem_nil
  | cons symbol symbols ih =>
    rw [List.mapM_cons] at h
    obtain ⟨name, hName, hRest⟩ := bind_eq_ok_iff.mp h
    obtain ⟨names, hNames, -⟩ := bind_eq_ok_iff.mp hRest
    exact List.forall_mem_cons.mpr ⟨holds_of_symbolName hName, ih hNames⟩

theorem RulesHeld.addRule (h : b.RulesHeld) {index : Nat} {rule : Rule V}
    (hAdded : b.addRule index rule = .ok b') : b'.RulesHeld := by
  obtain ⟨names, hNames, hModified⟩ := bind_eq_ok_iff.mp hAdded
  obtain ⟨-, rfl⟩ := modify?_eq_ok_iff.mp hModified
  refine h.modify (fun entry other hOther => ?_) index
  rcases List.mem_append.mp hOther with hOld | hNew
  · exact .inl hOld
  · rw [List.mem_singleton.mp hNew]
    exact .inr (holds_of_symbolNames hNames)

theorem RulesHeld.perform (h : b.RulesHeld) {call : BuilderCall V} (hCall : b.perform call = .ok b') :
    b'.RulesHeld := by
  cases call with
  | define name =>
    cases hCall
    refine (h.reference name).modify (fun _ _ hRule => ?_) _
    exact .inl hRule
  | reference name =>
    cases hCall
    exact h.reference name
  | addRule index rule => exact h.addRule hCall
  | setHintPruning index enabled =>
    obtain ⟨-, rfl⟩ := modify?_eq_ok_iff.mp hCall
    refine h.modify (fun _ _ hRule => ?_) index
    exact .inl hRule
  | setAlternation index alternation =>
    obtain ⟨-, rfl⟩ := modify?_eq_ok_iff.mp hCall
    refine h.modify (fun _ _ hRule => ?_) index
    exact .inl hRule
  | setStart symbol =>
    cases hCall
    exact h

theorem RulesHeld.performAll (h : b.RulesHeld) {calls : List (BuilderCall V)}
    (hCalls : b.performAll calls = .ok b') : b'.RulesHeld := by
  unfold GrammarBuilder.performAll at hCalls
  induction calls generalizing b with
  | nil =>
    cases hCalls
    exact h
  | cons call calls ih =>
    rw [List.foldlM_cons] at hCalls
    obtain ⟨next, hCall, hRest⟩ := bind_eq_ok_iff.mp hCalls
    exact ih (h.perform hCall) hRest

theorem RulesHeld.build (h : b.RulesHeld) {g : Grammar V} (hBuilt : b.build = .ok g) : g.RulesHeld := by
  obtain ⟨start, -, -, rfl⟩ := build_eq_ok_iff.mp hBuilt
  intro nt hNt rule hRule symbol hSymbol
  obtain ⟨entry, hEntry, rfl⟩ := List.mem_map.mp hNt
  have hHolds := h entry hEntry rule hRule symbol hSymbol
  cases symbol with
  | terminal t => trivial
  | nonTerminal index =>
    change index < (b.entries.map (·.1)).length
    rw [List.length_map]
    exact hHolds

theorem rulesHeld_new (config : GrammarConfig) : ({ config } : GrammarBuilder V).RulesHeld :=
  fun _ h => absurd h List.not_mem_nil

end GrammarBuilder

/-- Whatever the calls that a grammar was built by, its rules refer to its own non-terminals. So no search
for a symbol that it holds meets a dangling symbol, and a parse meets one only if the start symbol is one,
which no call and no check excludes. -/
theorem dangles_only_at_start [OfToken V] {config : GrammarConfig} {calls : List (BuilderCall V)}
    {builder : GrammarBuilder V} {g : Grammar V}
    (hCalls : ({ config } : GrammarBuilder V).performAll calls = .ok builder)
    (hBuilt : builder.build = .ok g) (tokens : List Token) :
    g.RulesHeld ∧ (g.Closed ↔ g.Holds g.start) ∧
    (∀ symbol, g.Holds symbol → ∀ start stop hint, ∃ source,
      g.stream tokens symbol start stop hint = .ok source ∧
      ∀ items left, source.Reaches g tokens items left → ∀ fuel log index,
        (left.pull g tokens fuel).run log ≠ .error (.dangling index)) ∧
    ∀ limits fuel log index,
      ((Parser.mk g limits).parse tokens fuel).run log = .error (.dangling index) ↔
        g.start = .nonTerminal index ∧ g.nonTerminals.length ≤ index := by
  have hRules : g.RulesHeld :=
    ((GrammarBuilder.rulesHeld_new config).performAll hCalls).build hBuilt
  refine ⟨hRules, Grammar.closed_iff.trans (and_iff_left hRules), ?_, ?_⟩
  · intro symbol hSymbol start stop hint
    obtain ⟨source, hSource⟩ := Grammar.exists_stream tokens hSymbol start stop hint
    refine ⟨source, hSource, fun items left hReaches fuel log index => ?_⟩
    have hLeft : left.Held g := hReaches.held hRules (Stream.held_of_stream hRules hSource)
    exact (Stream.keepsHeld_pull hRules fuel left hLeft).not_dangling log index
  · intro limits fuel log index
    exact Parser.parse_dangling_iff hRules fuel log index

namespace Sums

def calls (start : Symbol) : List (BuilderCall String) :=
  [.reference "sum", .addRule 0 { symbols := [.terminal number], reducer := single },
    .addRule 0 { symbols := [.nonTerminal 0, .terminal plus, .terminal number], reducer := single },
    .setStart start]

end Sums

theorem dangles_only_at_start_sums : ∃ builder,
    ({} : GrammarBuilder String).performAll (Sums.calls (.nonTerminal 0)) = .ok builder ∧
    builder.build = .ok (Sums.grammar Sums.single) ∧ (Sums.grammar Sums.single).Closed ∧
    ∀ limits fuel log index, ((Parser.mk (Sums.grammar Sums.single) limits).parse Sums.input fuel).run log ≠
      .error (.dangling index) := by
  obtain ⟨builder, hCalls⟩ : ∃ builder,
    ({} : GrammarBuilder String).performAll (Sums.calls (.nonTerminal 0)) = .ok builder := ⟨_, rfl⟩
  have hBuilt : builder.build = .ok (Sums.grammar Sums.single) := by
    cases hCalls
    rfl
  obtain ⟨-, hClosed, -, hParse⟩ := dangles_only_at_start hCalls hBuilt Sums.input
  refine ⟨builder, hCalls, hBuilt, hClosed.mpr Nat.zero_lt_one, fun limits fuel log index h => ?_⟩
  obtain ⟨hStart, hLength⟩ := (hParse limits fuel log index).mp h
  cases hStart
  exact absurd hLength (Nat.not_succ_le_zero 0)

/-- With a start symbol that was never mentioned the grammar is built all the same. -/
theorem start_may_dangle : ∃ builder g,
    ({} : GrammarBuilder String).performAll (Sums.calls (.nonTerminal 1)) = .ok builder ∧
    builder.build = .ok g ∧ g.start = .nonTerminal 1 ∧ g.nonTerminals.length = 1 ∧ ¬ g.Closed ∧
    ∀ limits tokens fuel log,
      ((Parser.mk g limits).parse tokens fuel).run log = .error (.dangling 1) := by
  refine ⟨_, _, rfl, rfl, rfl, rfl, fun hClosed => ?_, fun _ _ _ _ => rfl⟩
  exact Nat.lt_irrefl 1 (hClosed (.nonTerminal 1) List.mem_cons_self)

end Lexigram
