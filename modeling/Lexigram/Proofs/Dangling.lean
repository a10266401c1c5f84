import Lexigram.Parser
import Lexigram.Proofs.Leading
import Lexigram.Proofs.Pulls

/-! # Searches without dangling symbols

The symbols that a stream may still ask for are those of the rules it was made from. When the grammar
holds the symbols of its rules, a stream for a symbol that it holds asks for no other, and neither does
what a pull leaves of it. Such a search halts for want of fuel only.
-/

namespace Lexigram

variable {V : Type}

def Grammar.RulesHeld (g : Grammar V) : Prop :=
  ∀ nt ∈ g.nonTerminals, ∀ rule ∈ nt.rules, ∀ symbol ∈ rule.symbols, g.Holds symbol

theorem Grammar.closed_iff {g : Grammar V} : g.Closed ↔ g.Holds g.start ∧ g.RulesHeld := by
  simp only [Closed, RulesHeld, symbols, List.forall_mem_cons, List.mem_flatMap]
  refine and_congr_right fun _ => ⟨?_, ?_⟩
  · intro h nt hNt rule hRule symbol hSymbol
    exact h symbol ⟨nt, hNt, rule, hRule, hSymbol⟩
  · rintro h symbol ⟨nt, hNt, rule, hRule, hSymbol⟩
    exact h nt hNt rule hRule symbol hSymbol

/-- The grammar holds every symbol that the stream may still ask for. -/
inductive Stream.Held (g : Grammar V) : Stream V → Prop
  | once (derivation : Derivation V) : Held g (.once derivation)
  | inTurn {streams : List (Stream V)} (h : ∀ source ∈ streams, Held g source) :
    Held g (.inTurn streams)
  | inOrder {streams : List (Stream V)} (h : ∀ source ∈ streams, Held g source) :
    Held g (.inOrder streams)
  | fresh {rule : Rule V} {start stop : Nat} {first : Symbol} {behind : List Symbol}
    (h : ∀ symbol ∈ first :: behind, g.Holds symbol) :
    Held g (.chains rule start stop (.fresh first behind))
  | moving {rule : Rule V} {start stop : Nat} {levels : List (Enumeration.Level Symbol (Stream V))}
    {chosen : List (Derivation V)} (hSources : ∀ level ∈ levels, Held g level.source)
    (hBehind : ∀ level ∈ levels, ∀ symbol ∈ level.behind, g.Holds symbol) :
    Held g (.chains rule start stop (.moving levels chosen))

variable {g : Grammar V} {tokens : List Token}

namespace Stream

theorem held_empty : (.empty : Stream V).Held g :=
  .inOrder fun _ h => absurd h List.not_mem_nil

theorem held_finished (rule : Rule V) (start stop : Nat) :
    (Stream.chains rule start stop .finished).Held g :=
  .moving (fun _ h => absurd h List.not_mem_nil) fun _ h => absurd h List.not_mem_nil

theorem held_rule {rule : Rule V} (hRule : ∀ symbol ∈ rule.symbols, g.Holds symbol)
    (start stop : Nat) : (rule.stream start stop).Held g := by
  unfold Rule.stream
  split
  · split
    · exact held_empty
    · rename_i hSymbols
      rw [hSymbols] at hRule
      exact .fresh hRule
  · exact held_empty

theorem held_nonTerminal (hRules : g.RulesHeld) {nt : NonTerminal V} (hNt : nt ∈ g.nonTerminals)
    (start stop : Nat) (hint : Option Terminal) : (nt.stream tokens start stop hint).Held g := by
  have hStreams : ∀ source ∈ nt.rules.map (·.stream start (nt.bound tokens start stop hint)),
      source.Held g := by
    intro source hSource
    obtain ⟨rule, hRule, rfl⟩ := List.mem_map.mp hSource
    exact held_rule (hRules nt hNt rule hRule) _ _
  unfold NonTerminal.stream
  split
  · cases nt.alternation with
    | roundRobin => exact .inTurn hStreams
    | sequential => exact .inOrder hStreams
  · exact held_empty

variable [OfToken V]

theorem held_terminal (t : Terminal) (start stop : Nat) : (t.stream tokens start stop : Stream V).Held g := by
  unfold Terminal.stream
  split
  · split
    · exact .once _
    · exact held_empty
  · exact held_empty

end Stream

variable [OfToken V]

theorem Grammar.stream_eq_dangling_iff {symbol : Symbol} {start stop index : Nat}
    {hint : Option Terminal} : g.stream tokens symbol start stop hint = .error (.dangling index) ↔
      symbol = .nonTerminal index ∧ g.nonTerminals.length ≤ index := by
  cases symbol with
  | terminal t => exact ⟨nofun, nofun⟩
  | nonTerminal i =>
    rw [stream]
    split
    · rename_i hNt
      constructor
      · intro h
        cases h
      · rintro ⟨hSymbol, hLength⟩
        cases hSymbol
        rw [get?, List.getElem?_eq_none hLength] at hNt
        cases hNt
    · rename_i hNone
      rw [Except.error.injEq, Halt.dangling.injEq, Symbol.nonTerminal.injEq, iff_self_and]
      rintro rfl
      exact List.getElem?_eq_none_iff.mp hNone

theorem Stream.held_of_stream (hRules : g.RulesHeld) {symbol : Symbol} {start stop : Nat}
    {hint : Option Terminal} {source : Stream V}
    (h : g.stream tokens symbol start stop hint = .ok source) : source.Held g := by
  cases symbol with
  | terminal t =>
    cases h
    exact held_terminal t start stop
  | nonTerminal index =>
    rw [Grammar.stream] at h
    split at h
    · rename_i hNt
      cases h
      exact held_nonTerminal hRules (List.mem_of_getElem? hNt) start stop hint
    · cases h

theorem Grammar.ensures_stream (hRules : g.RulesHeld) {symbol : Symbol} (h : g.Holds symbol)
    (start stop : Nat) (hint : Option Terminal) :
    (Traced.ofExcept (g.stream tokens symbol start stop hint) : Traced (Call V) (Stream V)).Ensures
      fun source => source.Held g := by
  obtain ⟨source, hSource⟩ := exists_stream tokens h start stop hint
  exact Traced.ensures_ofExcept hSource (Stream.held_of_stream hRules hSource)

theorem Rule.ensures_symbolStream (hRules : g.RulesHeld) (rule : Rule V) {symbol : Symbol}
    (h : g.Holds symbol) (start stop : Nat) (previous : Option (Derivation V)) :
    (Traced.ofExcept (rule.symbolStream g tokens start stop symbol previous) :
      Traced (Call V) (Stream V)).Ensures fun source => source.Held g := by
  cases previous with
  | none => exact Grammar.ensures_stream hRules h start stop rule.hint
  | some previous => exact Grammar.ensures_stream hRules h previous.next stop none

omit [OfToken V] in
theorem Rule.ensures_reduce (rule : Rule V) (start : Nat) (chain : List (Derivation V)) :
    (rule.reduce start chain).Ensures fun _ => True :=
  fun log => .inl ⟨_, _, rule.run_reduce start chain log, trivial⟩

namespace Stream

/-- Pulling a stream that asks for held symbols only meets none that dangles, and leaves such a stream. -/
def KeepsHeld (g : Grammar V) (pull : Stream V → Traced (Call V) (Option (Item V) × Stream V)) : Prop :=
  ∀ source, source.Held g → (pull source).Ensures fun r => r.2.Held g

namespace KeepsHeld

variable {pull : Stream V → Traced (Call V) (Option (Item V) × Stream V)}

omit [OfToken V] in
theorem nextInTurn (hPull : KeepsHeld g pull) {streams : List (Stream V)}
    (h : ∀ source ∈ streams, source.Held g) :
    (Enumeration.nextInTurn pull streams).Ensures fun r => ∀ source ∈ r.2, source.Held g := by
  induction streams with
  | nil => exact Traced.ensures_pure h
  | cons source waiting ih =>
    obtain ⟨hSource, hWaiting⟩ := List.forall_mem_cons.mp h
    unfold Enumeration.nextInTurn
    refine (hPull source hSource).bind fun r hLeft => ?_
    rcases r with ⟨_ | item, left⟩
    · exact ih hWaiting
    · exact Traced.ensures_pure (List.forall_mem_append.mpr ⟨hWaiting, List.forall_mem_singleton.mpr hLeft⟩)

omit [OfToken V] in
theorem nextInOrder (hPull : KeepsHeld g pull) {streams : List (Stream V)}
    (h : ∀ source ∈ streams, source.Held g) :
    (Enumeration.nextInOrder pull streams).Ensures fun r => ∀ source ∈ r.2, source.Held g := by
  induction streams with
  | nil => exact Traced.ensures_pure h
  | cons source waiting ih =>
    obtain ⟨hSource, hWaiting⟩ := List.forall_mem_cons.mp h
    unfold Enumeration.nextInOrder
    refine (hPull source hSource).bind fun r hLeft => ?_
    rcases r with ⟨_ | item, left⟩
    · exact ih hWaiting
    · exact Traced.ensures_pure (List.forall_mem_cons.mpr ⟨hLeft, hWaiting⟩)

theorem advance (hPull : KeepsHeld g pull) (hRules : g.RulesHeld) {rule : Rule V}
    {start stop steps : Nat} {levels : List (Enumeration.Level Symbol (Stream V))}
    {chosen : List (Derivation V)} (hSources : ∀ level ∈ levels, level.source.Held g)
    (hBehind : ∀ level ∈ levels, ∀ symbol ∈ level.behind, g.Holds symbol) :
    (Enumeration.Chain.advance (fun symbol previous => Traced.ofExcept
      (rule.symbolStream g tokens start stop symbol previous)) pull steps levels chosen).Ensures
      fun r => (Stream.chains rule start stop r.2).Held g := by
  induction steps generalizing levels chosen with
  | zero =>
    cases levels with
    | nil => exact Traced.ensures_pure (held_finished rule start stop)
    | cons level before => exact Traced.ensures_outOfFuel _
  | succ steps ih =>
    match levels with
    | [] => exact Traced.ensures_pure (held_finished rule start stop)
    | ⟨source, behind⟩ :: before =>
      obtain ⟨hSource, hBefore⟩ := List.forall_mem_cons.mp hSources
      obtain ⟨hSymbols, hBehindBefore⟩ := List.forall_mem_cons.mp hBehind
      unfold Enumeration.Chain.advance
      refine (hPull source hSource).bind fun r hLeft => ?_
      rcases r with ⟨_ | e | choice, left⟩
      · exact ih hBefore hBehindBefore
      · exact Traced.ensures_pure (held_finished rule start stop)
      · cases behind with
        | nil => exact Traced.ensures_pure (.moving (List.forall_mem_cons.mpr ⟨hLeft, hBefore⟩)
            (List.forall_mem_cons.mpr ⟨hSymbols, hBehindBefore⟩))
        | cons symbol behind =>
          -- A symbol is looked up here and where a chain begins, and nowhere else in a pull.
          obtain ⟨hSymbol, hRest⟩ := List.forall_mem_cons.mp hSymbols
          refine (rule.ensures_symbolStream hRules hSymbol start stop (some choice)).bind
            fun next hNext => ?_
          exact ih (List.forall_mem_cons.mpr ⟨hNext, List.forall_mem_cons.mpr ⟨hLeft, hBefore⟩⟩)
            (List.forall_mem_cons.mpr ⟨hRest, List.forall_mem_cons.mpr ⟨hSymbols, hBehindBefore⟩⟩)

theorem chain_next (hPull : KeepsHeld g pull) (hRules : g.RulesHeld) {rule : Rule V}
    {start stop steps : Nat} {state : Enumeration.Chain Symbol (Stream V) (Derivation V)}
    (h : (Stream.chains rule start stop state).Held g) :
    (state.next (fun symbol previous => Traced.ofExcept
      (rule.symbolStream g tokens start stop symbol previous)) pull steps).Ensures
      fun r => (Stream.chains rule start stop r.2).Held g := by
  cases h with
  | fresh h =>
    obtain ⟨hFirst, hBehind⟩ := List.forall_mem_cons.mp h
    refine (rule.ensures_symbolStream hRules hFirst start stop none).bind fun source hSource => ?_
    exact hPull.advance hRules (List.forall_mem_singleton.mpr hSource)
      (List.forall_mem_singleton.mpr hBehind)
  | moving hSources hBehind => exact hPull.advance hRules hSources hBehind

theorem next (hPull : KeepsHeld g pull) (hRules : g.RulesHeld) (steps : Nat) :
    KeepsHeld g (Stream.next g tokens pull steps) := by
  intro source h
  match source with
  | .once derivation => exact Traced.ensures_pure held_empty
  | .inTurn streams =>
    cases h with
    | inTurn h => exact (hPull.nextInTurn h).bind fun _ hRest => Traced.ensures_pure (.inTurn hRest)
  | .inOrder streams =>
    cases h with
    | inOrder h => exact (hPull.nextInOrder h).bind fun _ hRest => Traced.ensures_pure (.inOrder hRest)
  | .chains rule start stop state =>
    refine (hPull.chain_next hRules h).bind fun r hState => ?_
    match r with
    | (none, _) => exact Traced.ensures_pure hState
    | (some (.error e), _) => exact Traced.ensures_pure hState
    | (some (.ok chain), _) =>
      exact (rule.ensures_reduce start chain).bind fun _ _ => Traced.ensures_pure hState

end KeepsHeld

theorem keepsHeld_pull (hRules : g.RulesHeld) (fuel : Nat) : KeepsHeld g (pull g tokens fuel) := by
  induction fuel with
  | zero => exact fun _ _ => Traced.ensures_outOfFuel _
  | succ fuel ih => exact ih.next hRules fuel

theorem Reaches.held (hRules : g.RulesHeld) {source left : Stream V} {items : List (Option (Item V))}
    (h : source.Reaches g tokens items left) (hSource : source.Held g) : left.Held g := by
  induction h with
  | here => exact hSource
  | pull hGives _ ih =>
    obtain ⟨fuel, log, log', hRun⟩ := hGives
    exact ih ((keepsHeld_pull hRules fuel _ hSource).of_run hRun)

end Stream

namespace Parser

variable {p : Parser V}

theorem ensures_search (hRules : p.grammar.RulesHeld) {fuel attempts : Nat} {source : Stream V}
    (h : source.Held p.grammar) : (p.search tokens fuel attempts source).Ensures fun _ => True := by
  induction fuel generalizing attempts source with
  | zero => exact Traced.ensures_outOfFuel _
  | succ fuel ih =>
    unfold search
    refine (Stream.keepsHeld_pull hRules fuel source h).bind fun r hLeft => ?_
    dsimp only
    split
    · exact Traced.ensures_pure trivial
    · exact ih hLeft

theorem parse_dangling_iff (hRules : p.grammar.RulesHeld) (fuel : Nat) (log : Array (Call V))
    (index : Nat) : (p.parse tokens fuel).run log = .error (.dangling index) ↔
      p.grammar.start = .nonTerminal index ∧ p.grammar.nonTerminals.length ≤ index := by
  rw [← Grammar.stream_eq_dangling_iff, ← stream]
  cases hStream : p.stream tokens with
  | error why =>
    rw [parse, hStream]
    exact ⟨fun h => by cases h; rfl, fun h => by cases h; rfl⟩
  | ok source =>
    refine ⟨fun h => ?_, nofun⟩
    have hHeld : source.Held p.grammar := Stream.held_of_stream hRules hStream
    have hEnsures : (p.parse tokens fuel).Ensures fun _ => True :=
      (Traced.ensures_ofExcept hStream hHeld).bind fun _ hHeld => ensures_search hRules hHeld
    exact absurd h (hEnsures.not_dangling log index)

end Parser

end Lexigram
