import Lexigram.Parser
import Lexigram.Proofs.Pulls

/-! # Searching for a complete derivation

`Parser.Searches` tells how a parse goes on pulling its stream: the answer of each pull, and what the parse
comes to. A parse that is run on fuel returns exactly what the relation says, so a statement about the
pulls of a search is one about runs.
-/

namespace Lexigram

variable {V : Type} [OfToken V]

namespace Parser

/-- How a parse that has taken so many items goes on: what its pulls give, one for each, the answer it
comes to, and the calls made for it. -/
inductive Searches (p : Parser V) (tokens : List Token) :
    Nat → Stream V → List (Option (Item V)) → Except ParseError (Parsed V) → Array (Call V) → Prop
  | exhausted {attempts : Nat} {source left : Stream V} {calls : Array (Call V)}
    (h : source.Pulls p.grammar tokens none left calls) :
    Searches p tokens attempts source [none] (.error (.noDerivation attempts)) calls
  | decided {attempts : Nat} {source left : Stream V} {item : Item V}
    {answer : Except ParseError (Parsed V)} {calls : Array (Call V)}
    (h : source.Pulls p.grammar tokens (some item) left calls)
    (hDecide : p.decide? tokens.length (attempts + 1) (some item) = some answer) :
    Searches p tokens attempts source [some item] answer calls
  | undecided {attempts : Nat} {source next : Stream V} {item : Item V}
    {pulled : List (Option (Item V))} {answer : Except ParseError (Parsed V)}
    {calls calls' : Array (Call V)}
    (h : source.Pulls p.grammar tokens (some item) next calls)
    (hDecide : p.decide? tokens.length (attempts + 1) (some item) = none)
    (h' : Searches p tokens (attempts + 1) next pulled answer calls') :
    Searches p tokens attempts source (some item :: pulled) answer (calls ++ calls')

variable {p : Parser V} {tokens : List Token} {attempts : Nat} {source : Stream V}
  {pulled : List (Option (Item V))} {answer : Except ParseError (Parsed V)} {calls : Array (Call V)}

theorem searches_of_run {fuel : Nat} {log log' : Array (Call V)}
    (h : (p.search tokens fuel attempts source).run log = .ok (answer, log')) :
    ∃ pulled calls, log' = log ++ calls ∧ p.Searches tokens attempts source pulled answer calls := by
  induction fuel generalizing attempts source log with
  | zero => cases h
  | succ fuel ih =>
    rw [search] at h
    obtain ⟨⟨item, next⟩, mid, hPull, h⟩ := Traced.run_bind_eq_ok_iff.mp h
    obtain ⟨calls, rfl, hPulls⟩ := Stream.traces_pull fuel hPull
    cases item with
    | none =>
      obtain ⟨rfl, rfl⟩ := Traced.run_pure_eq_ok_iff.mp h
      exact ⟨[none], calls, rfl, .exhausted hPulls⟩
    | some item =>
      simp only [Option.isSome_some, if_true] at h
      cases hDecide : p.decide? tokens.length (attempts + 1) (some item) with
      | some decided =>
        simp only [hDecide] at h
        obtain ⟨rfl, rfl⟩ := Traced.run_pure_eq_ok_iff.mp h
        exact ⟨[some item], calls, rfl, .decided hPulls hDecide⟩
      | none =>
        simp only [hDecide] at h
        obtain ⟨pulled, calls', rfl, hSearches⟩ := ih h
        exact ⟨some item :: pulled, calls ++ calls', Array.append_assoc,
          .undecided hPulls hDecide hSearches⟩

theorem Searches.run_search (h : p.Searches tokens attempts source pulled answer calls) :
    ∃ least, ∀ fuel ≥ least, ∀ log,
      (p.search tokens fuel attempts source).run log = .ok (answer, log ++ calls) := by
  induction h with
  | exhausted hPulls =>
    obtain ⟨least, hRun⟩ := hPulls.settles.run_pull
    refine ⟨least + 1, fun fuel hFuel log => ?_⟩
    obtain ⟨fuel, rfl⟩ : ∃ n, fuel = n + 1 := ⟨fuel - 1, by omega⟩
    rw [search, Traced.run_bind_of_ok (hRun fuel (by omega) log)]
    exact Traced.run_pure_eq_ok_iff.mpr ⟨rfl, rfl⟩
  | decided hPulls hDecide =>
    obtain ⟨least, hRun⟩ := hPulls.settles.run_pull
    refine ⟨least + 1, fun fuel hFuel log => ?_⟩
    obtain ⟨fuel, rfl⟩ : ∃ n, fuel = n + 1 := ⟨fuel - 1, by omega⟩
    rw [search, Traced.run_bind_of_ok (hRun fuel (by omega) log)]
    simp only [Option.isSome_some, if_true, hDecide]
    exact Traced.run_pure_eq_ok_iff.mpr ⟨rfl, rfl⟩
  | undecided hPulls hDecide _ ih =>
    obtain ⟨least, hRun⟩ := hPulls.settles.run_pull
    obtain ⟨least', hRest⟩ := ih
    refine ⟨max least least' + 1, fun fuel hFuel log => ?_⟩
    obtain ⟨fuel, rfl⟩ : ∃ n, fuel = n + 1 := ⟨fuel - 1, by omega⟩
    rw [search, Traced.run_bind_of_ok (hRun fuel (by omega) log)]
    simp only [Option.isSome_some, if_true, hDecide]
    rw [hRest fuel (by omega), Array.append_assoc]

def Returns (p : Parser V) (tokens : List Token) (answer : Except ParseError (Parsed V)) : Prop :=
  ∃ least, ∀ fuel ≥ least, ∀ log, ∃ log', (p.parse tokens fuel).run log = .ok (answer, log')

theorem run_parse {fuel : Nat} {log : Array (Call V)} (hSource : p.stream tokens = .ok source) :
    (p.parse tokens fuel).run log = (p.search tokens fuel 0 source).run log := by
  rw [parse, Traced.run_bind_of_ok (Traced.run_ofExcept_eq_ok_iff.mpr ⟨hSource, rfl⟩)]

theorem Returns.unique {other : Except ParseError (Parsed V)} (h : p.Returns tokens answer)
    (h' : p.Returns tokens other) : answer = other := by
  obtain ⟨least, hRun⟩ := h
  obtain ⟨least', hRun'⟩ := h'
  obtain ⟨log, hLog⟩ := hRun (max least least') (by omega) #[]
  obtain ⟨log', hLog'⟩ := hRun' (max least least') (by omega) #[]
  rw [hLog] at hLog'
  cases hLog'
  rfl

/-- The parse returns that answer by these pulls of its stream: on all fuel beyond some amount it logs the
calls that they make, one pull after the other, and no more. -/
def Concludes (p : Parser V) (tokens : List Token) (pulled : List (Option (Item V)))
    (answer : Except ParseError (Parsed V)) : Prop :=
  ∃ source calls, p.stream tokens = .ok source ∧ p.Searches tokens 0 source pulled answer calls ∧
    ∃ least, ∀ fuel ≥ least, ∀ log, (p.parse tokens fuel).run log = .ok (answer, log ++ calls)

theorem Searches.concludes (h : p.Searches tokens 0 source pulled answer calls)
    (hSource : p.stream tokens = .ok source) : p.Concludes tokens pulled answer := by
  obtain ⟨least, hRun⟩ := h.run_search
  refine ⟨source, calls, hSource, h, least, fun fuel hFuel log => ?_⟩
  rw [run_parse hSource]
  exact hRun fuel hFuel log

theorem Concludes.returns (h : p.Concludes tokens pulled answer) : p.Returns tokens answer := by
  obtain ⟨_, calls, -, -, least, hRun⟩ := h
  exact ⟨least, fun fuel hFuel log => ⟨log ++ calls, hRun fuel hFuel log⟩⟩

/-- Every run that returns has concluded, and its log is that of the pulls. -/
theorem exists_searches_of_run {fuel : Nat} {log log' : Array (Call V)}
    (h : (p.parse tokens fuel).run log = .ok (answer, log')) : ∃ source pulled calls,
      p.stream tokens = .ok source ∧ log' = log ++ calls ∧
        p.Searches tokens 0 source pulled answer calls := by
  cases hSource : p.stream tokens with
  | error why =>
    rw [parse, hSource] at h
    cases h
  | ok source =>
    rw [run_parse hSource] at h
    obtain ⟨pulled, calls, hLog, hSearches⟩ := searches_of_run h
    exact ⟨source, pulled, calls, rfl, hLog, hSearches⟩

theorem Returns.exists_searches (h : p.Returns tokens answer) : ∃ source pulled calls,
    p.stream tokens = .ok source ∧ p.Searches tokens 0 source pulled answer calls := by
  obtain ⟨least, hRun⟩ := h
  obtain ⟨log, hLog⟩ := hRun least (Nat.le_refl least) #[]
  obtain ⟨source, pulled, calls, hSource, -, hSearches⟩ := exists_searches_of_run hLog
  exact ⟨source, pulled, calls, hSource, hSearches⟩

omit [OfToken V] in
theorem decide?_eq_none_iff {size : Nat} {item : Item V} :
    p.decide? size attempts (some item) = none ↔
      (∃ d, item = .ok d ∧ d.next ≠ size) ∧
        ∀ limit, p.config.maxAttempts = some limit → attempts < limit := by
  cases item with
  | error e => simp [decide?]
  | ok d =>
    by_cases hNext : d.next = size
    · simp [decide?, hNext]
    · cases hLimit : p.config.maxAttempts with
      | none => simp [decide?, hNext, hLimit]
      | some limit => simp [decide?, hNext, hLimit]

/-- The answer of a parse that has taken so many items to an enumeration with these items left. -/
def outcome (p : Parser V) (size : Nat) : Nat → List (Item V) → Except ParseError (Parsed V)
  | attempts, [] => .error (.noDerivation attempts)
  | attempts, item :: items =>
    (p.decide? size (attempts + 1) (some item)).getD (outcome p size (attempts + 1) items)

end Parser

open Lexigram.Parser in
theorem Stream.Enumerates.searches {p : Parser V} {tokens : List Token} {source : Stream V}
    {items : List (Item V)} (h : source.Enumerates p.grammar tokens items) (attempts : Nat) :
    ∃ pulled calls,
      p.Searches tokens attempts source pulled (p.outcome tokens.length attempts items) calls := by
  induction h generalizing attempts with
  | ends hNone _ =>
    obtain ⟨calls, hPulls⟩ := gives_iff_exists_pulls.mp hNone
    exact ⟨_, calls, .exhausted hPulls⟩
  | item hItem _ ih =>
    obtain ⟨calls, hPulls⟩ := gives_iff_exists_pulls.mp hItem
    rw [outcome]
    cases hDecide : p.decide? tokens.length (attempts + 1) (some _) with
    | some answer => exact ⟨_, calls, .decided hPulls hDecide⟩
    | none =>
      obtain ⟨pulled, calls', hSearches⟩ := ih (attempts + 1)
      exact ⟨_, _, .undecided hPulls hDecide hSearches⟩

theorem Parser.returns_outcome {p : Parser V} {tokens : List Token} {source : Stream V}
    {items : List (Item V)} (hSource : p.stream tokens = .ok source)
    (h : source.Enumerates p.grammar tokens items) :
    p.Returns tokens (p.outcome tokens.length 0 items) := by
  obtain ⟨pulled, calls, hSearches⟩ := h.searches 0
  exact (hSearches.concludes hSource).returns

end Lexigram
