import Lexigram.Proofs.Search
import Lexigram.Proofs.Soundness

/-! # The limit on attempts

A limit cuts a parse off after so many items and changes nothing else: whatever is decided before it is
decided as without a limit, by the same pulls. The first item is always looked at, so a limit of zero is
one of one.
-/

namespace Lexigram

variable {V : Type} [OfToken V]

theorem Stream.Reaches.exists_of_append {g : Grammar V} {tokens : List Token} {source left : Stream V}
    {first later : List (Option (Item V))} (h : source.Reaches g tokens (first ++ later) left) :
    ∃ mid, source.Reaches g tokens first mid ∧ mid.Reaches g tokens later left := by
  induction first generalizing source with
  | nil => exact ⟨source, .here source, h⟩
  | cons item first ih =>
    cases h with
    | pull hGives hRest =>
      obtain ⟨mid, hFirst, hLater⟩ := ih hRest
      exact ⟨mid, .pull hGives hFirst, hLater⟩

def given (derivations : List (Derivation V)) : List (Option (Item V)) :=
  derivations.map fun d => some (.ok d)

omit [OfToken V] in
theorem given_append (first later : List (Derivation V)) :
    given (first ++ later) = given first ++ given later :=
  List.map_append

namespace Parser

/-- What the answer of a pull makes of a parse that has taken so many items before and that no limit
stops. -/
inductive Decisive (size taken : Nat) : Option (Item V) → Except ParseError (Parsed V) → Prop
  | complete {d : Derivation V} (h : d.next = size) :
    Decisive size taken (some (.ok d)) (.ok ⟨d.value, taken + 1⟩)
  | rejected (e : ReductionError) : Decisive size taken (some (.error e)) (.error (.reduction e))
  | exhausted : Decisive size taken none (.error (.noDerivation taken))

variable {p q : Parser V} {tokens : List Token} {attempts limit : Nat} {source left : Stream V}
  {pulled : List (Option (Item V))} {answer : Except ParseError (Parsed V)} {calls : Array (Call V)}

theorem Decisive.searches {item : Option (Item V)} (h : Decisive tokens.length attempts item answer)
    (hGives : source.Gives p.grammar tokens item left) :
    ∃ calls, p.Searches tokens attempts source [item] answer calls := by
  obtain ⟨calls, hPulls⟩ := Stream.gives_iff_exists_pulls.mp hGives
  cases h with
  | complete hNext => exact ⟨calls, .decided hPulls (by simp [decide?, hNext])⟩
  | rejected e => exact ⟨calls, .decided hPulls rfl⟩
  | exhausted => exact ⟨calls, .exhausted hPulls⟩

theorem searches_of_limit (attempts : Nat) {d : Derivation V}
    (hGives : source.Gives p.grammar tokens (some (.ok d)) left)
    (hNext : d.next ≠ tokens.length) (hLimit : p.config.maxAttempts = some limit)
    (hAttempts : limit ≤ attempts + 1) : ∃ calls, p.Searches tokens attempts source [some (.ok d)]
      (.error (.budgetExhausted (attempts + 1) limit)) calls := by
  obtain ⟨calls, hPulls⟩ := Stream.gives_iff_exists_pulls.mp hGives
  exact ⟨calls, .decided hPulls (by simp [decide?, hNext, hLimit, hAttempts])⟩

theorem Searches.of_incomplete {incomplete : List (Derivation V)} {next : Stream V}
    (hReaches : source.Reaches p.grammar tokens (given incomplete) next)
    (hIncomplete : ∀ d ∈ incomplete, d.next ≠ tokens.length)
    (hLimit : ∀ limit, p.config.maxAttempts = some limit →
      attempts + incomplete.length < max limit (attempts + 1))
    (h : p.Searches tokens (attempts + incomplete.length) next pulled answer calls) :
    ∃ calls', p.Searches tokens attempts source (given incomplete ++ pulled) answer calls' := by
  induction incomplete generalizing attempts source with
  | nil =>
    cases hReaches
    exact ⟨calls, h⟩
  | cons d incomplete ih =>
    cases hReaches with
    | pull hGives hRest =>
      obtain ⟨calls', hPulls⟩ := Stream.gives_iff_exists_pulls.mp hGives
      have hBelow (limit : Nat) (hSome : p.config.maxAttempts = some limit) :
          attempts + incomplete.length + 1 < limit := by
        have hMax := hLimit limit hSome
        rw [List.length_cons] at hMax
        omega
      have hDecide : p.decide? tokens.length (attempts + 1) (some (.ok d)) = none := by
        refine decide?_eq_none_iff.mpr ⟨⟨d, rfl, hIncomplete d List.mem_cons_self⟩, ?_⟩
        intro limit hSome
        have := hBelow limit hSome
        omega
      obtain ⟨calls'', hSearches⟩ : ∃ calls'',
          p.Searches tokens (attempts + 1) _ (given incomplete ++ pulled) answer calls'' := ih hRest
        (fun d hd => hIncomplete d (List.mem_cons_of_mem _ hd))
        (fun limit hSome => by
          have := hBelow limit hSome
          omega)
        (by rwa [List.length_cons, Nat.add_comm incomplete.length, ← Nat.add_assoc] at h)
      exact ⟨_, .undecided hPulls hDecide hSearches⟩

theorem Searches.length_le (h : p.Searches tokens attempts source pulled answer calls)
    (hLimit : p.config.maxAttempts = some limit) : pulled.length ≤ max (limit - attempts) 1 := by
  induction h with
  | exhausted => exact Nat.le_max_right _ 1
  | decided => exact Nat.le_max_right _ 1
  | undecided _ hDecide _ ih =>
    have hBelow := (decide?_eq_none_iff.mp hDecide).2 limit hLimit
    rw [List.length_cons]
    omega

omit [OfToken V] in
theorem decide?_eq_ok_iff {size : Nat} {item : Item V} {parsed : Parsed V} :
    p.decide? size attempts (some item) = some (.ok parsed) ↔
      ∃ d, item = .ok d ∧ d.next = size ∧ parsed = ⟨d.value, attempts⟩ := by
  cases item with
  | error e => simp [decide?]
  | ok d =>
    by_cases hNext : d.next = size
    · simp [decide?, hNext, eq_comm]
    · cases hLimit : p.config.maxAttempts with
      | none => simp [decide?, hNext, hLimit]
      | some limit => by_cases hAttempts : limit ≤ attempts <;> simp [decide?, hNext, hLimit, hAttempts]

/-- A search that succeeds does so by the same pulls when the limit is raised or lifted. -/
theorem Searches.of_higher {parsed : Parsed V} (hGrammar : q.grammar = p.grammar)
    (hHigher : ∀ higher, q.config.maxAttempts = some higher →
      ∃ limit ≤ higher, p.config.maxAttempts = some limit)
    (h : p.Searches tokens attempts source pulled (.ok parsed) calls) :
    q.Searches tokens attempts source pulled (.ok parsed) calls := by
  generalize hAnswer : (Except.ok parsed : Except ParseError (Parsed V)) = answer at h
  induction h with
  | exhausted => cases hAnswer
  | decided hPulls hDecide =>
    subst hAnswer
    exact .decided (hGrammar ▸ hPulls) (decide?_eq_ok_iff.mpr (decide?_eq_ok_iff.mp hDecide))
  | undecided hPulls hDecide _ ih =>
    obtain ⟨hItem, hBelow⟩ := decide?_eq_none_iff.mp hDecide
    refine .undecided (hGrammar ▸ hPulls) (decide?_eq_none_iff.mpr ⟨hItem, ?_⟩) (ih hAnswer)
    intro higher hSome
    obtain ⟨limit, hLe, hLimit⟩ := hHigher higher hSome
    exact Nat.lt_of_lt_of_le (hBelow limit hLimit) hLe

theorem Returns.of_higher {parsed : Parsed V} (hGrammar : q.grammar = p.grammar)
    (hHigher : ∀ higher, q.config.maxAttempts = some higher →
      ∃ limit ≤ higher, p.config.maxAttempts = some limit)
    (h : p.Returns tokens (.ok parsed)) : q.Returns tokens (.ok parsed) := by
  obtain ⟨source, pulled, calls, hSource, hSearches⟩ := h.exists_searches
  refine ((hSearches.of_higher hGrammar hHigher).concludes ?_).returns
  rwa [stream, hGrammar]

theorem concludes_of_limit {incomplete : List (Derivation V)} (hSource : p.stream tokens = .ok source)
    (hReaches : source.Reaches p.grammar tokens (given incomplete) left)
    (hIncomplete : ∀ d ∈ incomplete, d.next ≠ tokens.length)
    (hLimit : p.config.maxAttempts = some limit) (hLength : max limit 1 ≤ incomplete.length) :
    p.Concludes tokens (given (incomplete.take (max limit 1)))
      (.error (.budgetExhausted (max limit 1) limit)) := by
  obtain ⟨before, hBefore⟩ : ∃ before, max limit 1 = before + 1 := ⟨max limit 1 - 1, by omega⟩
  have hLast : before < incomplete.length := by omega
  have hSplit : incomplete = incomplete.take before ++
      incomplete[before] :: incomplete.drop (before + 1) := by
    rw [← List.drop_eq_getElem_cons hLast, List.take_append_drop]
  have hTaken : (incomplete.take before).length = before := List.length_take_of_le (Nat.le_of_lt hLast)
  rw [hSplit, given_append] at hReaches
  obtain ⟨mid, hBeforeReaches, hRest⟩ := hReaches.exists_of_append
  cases hRest with
  | pull hGives _ =>
    obtain ⟨calls, hSearches⟩ := searches_of_limit (0 + (incomplete.take before).length)
      hGives (hIncomplete _ (List.getElem_mem hLast)) hLimit (by omega)
    obtain ⟨calls', hWhole⟩ := hSearches.of_incomplete hBeforeReaches
      (fun d hd => hIncomplete d (List.mem_of_mem_take hd)) (fun limit' hSome => by
        rw [hLimit] at hSome
        cases hSome
        omega)
    have hConcludes := hWhole.concludes hSource
    rw [hTaken, Nat.zero_add, ← hBefore] at hConcludes
    rwa [hBefore, ← List.take_append_getElem hLast, given_append, ← hBefore]

theorem concludes_of_decisive {incomplete : List (Derivation V)} {item : Option (Item V)}
    {next : Stream V} (hSource : p.stream tokens = .ok source)
    (hReaches : source.Reaches p.grammar tokens (given incomplete) left)
    (hIncomplete : ∀ d ∈ incomplete, d.next ≠ tokens.length)
    (hLimit : ∀ limit, p.config.maxAttempts = some limit → incomplete.length < max limit 1)
    (hGives : left.Gives p.grammar tokens item next)
    (hDecisive : Decisive tokens.length incomplete.length item answer) :
    p.Concludes tokens (given incomplete ++ [item]) answer := by
  rw [← Nat.zero_add incomplete.length] at hDecisive
  obtain ⟨calls, hSearches⟩ := hDecisive.searches hGives
  obtain ⟨calls', hWhole⟩ := hSearches.of_incomplete hReaches hIncomplete fun limit hSome => by
    have := hLimit limit hSome
    omega
  exact hWhole.concludes hSource

end Parser

open Lexigram.Parser in
/-- Let a stream begin with incomplete derivations. The next answer that is a complete derivation, an error
or the end decides the parse, at that very pull, unless a limit of at most as many items comes first; then
the limit is reported, after just as many pulls. No parse pulls more often than its limit allows, and a
higher limit changes no success. -/
theorem limit_truncates (g : Grammar V) (tokens : List Token) :
    (∀ source left incomplete, g.stream tokens g.start 0 tokens.length none = .ok source →
      source.Reaches g tokens (given incomplete) left →
      (∀ d ∈ incomplete, d.next ≠ tokens.length) →
      (∀ item next answer, left.Gives g tokens item next →
        Decisive tokens.length incomplete.length item answer →
        (Parser.mk g {}).Concludes tokens (given incomplete ++ [item]) answer ∧
        ∀ limit, incomplete.length < max limit 1 →
          (Parser.mk g ⟨some limit⟩).Concludes tokens (given incomplete ++ [item]) answer) ∧
      ∀ limit, max limit 1 ≤ incomplete.length →
        (Parser.mk g ⟨some limit⟩).Concludes tokens (given (incomplete.take (max limit 1)))
          (.error (.budgetExhausted (max limit 1) limit))) ∧
    (∀ limit fuel log answer log',
      ((Parser.mk g ⟨some limit⟩).parse tokens fuel).run log = .ok (answer, log') →
      ∃ pulled, (Parser.mk g ⟨some limit⟩).Concludes tokens pulled answer) ∧
    (∀ limit pulled answer, (Parser.mk g ⟨some limit⟩).Concludes tokens pulled answer →
      pulled.length ≤ max limit 1) ∧
    ∀ limit parsed, (Parser.mk g ⟨some limit⟩).Returns tokens (.ok parsed) →
      (Parser.mk g {}).Returns tokens (.ok parsed) ∧
      ∀ higher ≥ limit, (Parser.mk g ⟨some higher⟩).Returns tokens (.ok parsed) := by
  refine ⟨fun source left incomplete hSource hReaches hIncomplete => ⟨?_, ?_⟩, ?_, ?_, ?_⟩
  · intro item next answer hGives hDecisive
    refine ⟨concludes_of_decisive (p := ⟨g, {}⟩) hSource hReaches hIncomplete ?_ hGives hDecisive,
      fun limit hLimit => concludes_of_decisive (p := ⟨g, ⟨some limit⟩⟩) hSource hReaches hIncomplete ?_
        hGives hDecisive⟩
    · intro limit hSome
      cases hSome
    · intro limit' hSome
      cases hSome
      exact hLimit
  · intro limit hLimit
    exact concludes_of_limit (p := ⟨g, ⟨some limit⟩⟩) hSource hReaches hIncomplete rfl hLimit
  · intro limit fuel log answer log' hRun
    obtain ⟨source, pulled, calls, hSource, -, hSearches⟩ := exists_searches_of_run hRun
    exact ⟨pulled, hSearches.concludes hSource⟩
  · intro limit pulled answer hConcludes
    obtain ⟨source, calls, -, hSearches, -⟩ := hConcludes
    exact hSearches.length_le rfl
  · intro limit parsed hReturns
    refine ⟨Returns.of_higher (p := ⟨g, ⟨some limit⟩⟩) rfl (fun higher hSome => ?_) hReturns,
      fun higher hHigher =>
        Returns.of_higher (p := ⟨g, ⟨some limit⟩⟩) rfl (fun higher' hSome => ?_) hReturns⟩
    · cases hSome
    · cases hSome
      exact ⟨limit, hHigher, rfl⟩

namespace Sums

def rejected : ReductionError :=
  ⟨"sum", "sum plus number", ⟨"more than one value"⟩⟩

theorem reaches_rejected : ∃ source left next,
    (grammar single).stream input (.nonTerminal 0) 0 3 none = .ok source ∧
    source.Reaches (grammar single) input (given [⟨"1", 1⟩]) left ∧
    left.Gives (grammar single) input (some (.error rejected)) next :=
  ⟨_, _, _, rfl, .pull ⟨9, #[], _, rfl⟩ (.here _), ⟨9, #[], _, rfl⟩⟩

end Sums

open Lexigram.Parser Sums in
theorem limit_truncates_sums :
    (Parser.mk (grammar single) {}).Concludes input [some (.ok ⟨"1", 1⟩), some (.error rejected)]
      (.error (.reduction rejected)) ∧
    (Parser.mk (grammar single) ⟨some 2⟩).Concludes input
      [some (.ok ⟨"1", 1⟩), some (.error rejected)] (.error (.reduction rejected)) ∧
    (Parser.mk (grammar single) ⟨some 1⟩).Concludes input [some (.ok ⟨"1", 1⟩)]
      (.error (.budgetExhausted 1 1)) ∧
    (Parser.mk (grammar single) ⟨some 0⟩).Returns (input.take 1) (.ok ⟨"1", 1⟩) ∧
    (Parser.mk (grammar single) ⟨some 5⟩).Returns (input.take 1) (.ok ⟨"1", 1⟩) := by
  obtain ⟨source, left, next, hSource, hReaches, hGives⟩ := reaches_rejected
  have hIncomplete : ∀ d ∈ [(⟨"1", 1⟩ : Derivation String)], d.next ≠ input.length := by decide
  obtain ⟨hDecided, hLimited⟩ := (limit_truncates (grammar single) input).1 source left [⟨"1", 1⟩]
    hSource hReaches hIncomplete
  obtain ⟨hFree, hWithin⟩ := hDecided _ next _ hGives (.rejected rejected)
  refine ⟨hFree, hWithin 2 (by decide), hLimited 1 (by decide), ?_⟩
  obtain ⟨hSingle, -, -, hHigher⟩ := limit_truncates (grammar single) (input.take 1)
  obtain ⟨source, next, hSource, hGives⟩ : ∃ source next,
      (grammar single).stream (input.take 1) (.nonTerminal 0) 0 1 none = .ok source ∧
      source.Gives (grammar single) (input.take 1) (some (.ok ⟨"1", 1⟩)) next :=
    ⟨_, _, rfl, ⟨9, #[], _, rfl⟩⟩
  have hZero := ((hSingle source source [] hSource (.here source) (by decide)).1 _ next _ hGives
    (.complete rfl)).2 0 (by decide)
  exact ⟨hZero.returns, (hHigher 0 _ hZero.returns).2 5 (by decide)⟩

end Lexigram
