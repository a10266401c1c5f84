import Lexigram.Proofs.Narrowing
import Lexigram.Proofs.Recognition

/-! # Pruning and ambiguity

When rules are merged in turn, pruning may change the order in which derivations are found. The tokens are
accepted or not as before, and an accepted text has the value of one of its trees, but which one it is may
depend on what is pruned.
-/

namespace Lexigram

variable {V : Type} [OfToken V] {g : Grammar V} {tokens : List Token}

theorem Exhausts.exists_tree_of_mem {symbol : Symbol} {start stop : Nat}
    {listed : List (Tree × Derivation V)} (h : Exhausts (Reduced g tokens symbol start stop) listed)
    {d : Derivation V} (hd : d ∈ listed.map Prod.snd) :
    ∃ tree : Tree, tree.Derives g tokens symbol start d.next ∧ tree.value? g tokens = some d.value := by
  obtain ⟨p, hp, rfl⟩ := List.mem_map.mp hd
  obtain ⟨hTree, hValue, -⟩ := (h.mem_iff p).mp hp
  exact ⟨p.1, hTree, hValue⟩

/-- In a built grammar whose reducers accept everything, let the enumeration of the tokens end, under the
flags of the grammar as well as under others. If a tree covers the tokens then both parses succeed, each with
the value of such a tree, and the two values are one when all such trees have the same value. Otherwise both
fail, after the same number of attempts. -/
theorem pruning_keeps_acceptance {builder : GrammarBuilder V} (hBuilt : builder.build = .ok g)
    (hAccepting : g.Accepting) {flags : Nat → Bool} {source source' : Stream V} {items items' : List (Item V)}
    (hSource : g.stream tokens g.start 0 tokens.length none = .ok source)
    (hItems : source.Enumerates g tokens items)
    (hSource' : (g.withPruning flags).stream tokens g.start 0 tokens.length none = .ok source')
    (hItems' : source'.Enumerates (g.withPruning flags) tokens items') :
    ((∃ tree : Tree, tree.Derives g tokens g.start 0 tokens.length) → ∃ parsed parsed',
      (Parser.mk g {}).Returns tokens (.ok parsed) ∧
      (Parser.mk (g.withPruning flags) {}).Returns tokens (.ok parsed') ∧
      (∃ tree : Tree, tree.Derives g tokens g.start 0 tokens.length ∧
        tree.value? g tokens = some parsed.value) ∧
      (∃ tree : Tree, tree.Derives g tokens g.start 0 tokens.length ∧
        tree.value? g tokens = some parsed'.value) ∧
      ((∀ tree tree' : Tree, tree.Derives g tokens g.start 0 tokens.length →
        tree'.Derives g tokens g.start 0 tokens.length → tree.value? g tokens = tree'.value? g tokens) →
          parsed.value = parsed'.value)) ∧
    ((¬ ∃ tree : Tree, tree.Derives g tokens g.start 0 tokens.length) → ∃ attempts,
      (Parser.mk g {}).Returns tokens (.error (.noDerivation attempts)) ∧
      (Parser.mk (g.withPruning flags) {}).Returns tokens (.error (.noDerivation attempts))) := by
  have hTotal := hAccepting.total hBuilt
  obtain ⟨listed, hListed, hJudges, hJudges'⟩ :=
    (g.retunes_withPruning flags).judges hTotal hSource hSource' hItems hItems'
  have hComplete := hListed.exists_complete_iff hTotal
  constructor
  · intro hTree
    obtain ⟨parsed, hParsed⟩ := hJudges.complete (hComplete.mpr hTree)
    obtain ⟨parsed', hParsed'⟩ := hJudges'.complete (hComplete.mpr hTree)
    obtain ⟨d, hd, hNext, hValue⟩ := hJudges.value hParsed
    obtain ⟨d', hd', hNext', hValue'⟩ := hJudges'.value hParsed'
    refine ⟨parsed, parsed', hParsed, hParsed', ?_, ?_, fun hSame => ?_⟩
    · exact hNext ▸ hValue ▸ hListed.exists_tree_of_mem hd
    · exact hNext' ▸ hValue' ▸ hListed.exists_tree_of_mem hd'
    · rw [← hValue, ← hValue']
      exact hListed.value_eq hSame d hd d' hd' hNext hNext'
  · intro hNone
    have hIncomplete : ∀ d ∈ listed.map Prod.snd, d.next ≠ tokens.length := fun d hd hNext =>
      hNone (hComplete.mp ⟨d, hd, hNext⟩)
    exact ⟨_, hJudges.incomplete hIncomplete, hJudges'.incomplete hIncomplete⟩

namespace Routes

variable {alternation : Alternation} {start stop : Nat} {tree : Tree}

def builder (alternation : Alternation) : GrammarBuilder String where
  entries := (grammar alternation).nonTerminals.map (·, true)
  start := some (.nonTerminal 0)

theorem closed (alternation : Alternation) : (grammar alternation).Closed := by
  intro symbol hSymbol
  cases symbol with
  | terminal t => trivial
  | nonTerminal index =>
    simp only [Grammar.symbols, grammar, List.flatMap_cons, List.flatMap_nil, List.append_nil,
      List.cons_append, List.nil_append, List.mem_cons, List.not_mem_nil, or_false, false_or,
      Symbol.nonTerminal.injEq, reduceCtorEq] at hSymbol
    change index < 3
    omega

theorem accepting (alternation : Alternation) : (grammar alternation).Accepting := by
  intro nt hNt rule hRule reducer hReducer values
  simp only [grammar, List.mem_cons, List.not_mem_nil, or_false] at hNt
  rcases hNt with rfl | rfl | rfl <;>
    simp only [List.mem_cons, List.not_mem_nil, or_false] at hRule <;>
    rcases hRule with rfl | rfl <;> cases hReducer <;> exact ⟨_, rfl⟩

theorem path_cases (h : tree.Derives (grammar alternation) tokens (.nonTerminal 2) start stop) :
    (stop = start + 2 ∧ tree = .node 2 0 [.leaf start, .leaf (start + 1)]) ∨
      stop = start + 1 ∧ tree = .node 2 1 [.leaf start] := by
  cases h with
  | @node _ _ _ place _ _ _ hNt hRule _ hChildren =>
    cases hNt
    rcases place with _ | _ | place
    · cases hRule
      rcases hChildren with _ | ⟨_ | _, _ | ⟨_ | _, _ | _⟩⟩
      exact .inl ⟨rfl, rfl⟩
    · cases hRule
      rcases hChildren with _ | ⟨_ | _, _ | _⟩
      exact .inr ⟨rfl, rfl⟩
    · cases hRule

theorem leg_cases (h : tree.Derives (grammar alternation) tokens (.nonTerminal 1) start stop) :
    (∃ path, path.Derives (grammar alternation) tokens (.nonTerminal 2) start stop ∧ tree = .node 1 0 [path]) ∨
      stop = start + 1 ∧ tree = .node 1 1 [.leaf start] := by
  cases h with
  | @node _ _ _ place _ _ _ hNt hRule _ hChildren =>
    cases hNt
    rcases place with _ | _ | place
    · cases hRule
      rcases hChildren with _ | ⟨hPath, _ | _⟩
      exact .inl ⟨_, hPath, rfl⟩
    · cases hRule
      rcases hChildren with _ | ⟨_ | _, _ | _⟩
      exact .inr ⟨rfl, rfl⟩
    · cases hRule

theorem route_cases (h : tree.Derives (grammar alternation) tokens (.nonTerminal 0) start stop) :
    ∃ leg last, leg.Derives (grammar alternation) tokens (.nonTerminal 1) start last ∧ stop = last + 1 ∧
      tree = .node 0 0 [leg, .leaf last] := by
  cases h with
  | @node _ _ _ place _ _ _ hNt hRule _ hChildren =>
    cases hNt
    cases place with
    | zero =>
      cases hRule
      rcases hChildren with _ | ⟨hLeg, _ | ⟨_ | _, _ | _⟩⟩
      exact ⟨_, _, hLeg, rfl, rfl⟩
    | succ place => cases hRule

theorem eq_of_derives_three
    (h : tree.Derives (grammar alternation) tokens (.nonTerminal 0) start (start + 3)) :
    tree = .node 0 0 [.node 1 0 [.node 2 0 [.leaf start, .leaf (start + 1)]], .leaf (start + 2)] := by
  obtain ⟨leg, last, hLeg, hStop, rfl⟩ := route_cases h
  obtain rfl : last = start + 2 := by omega
  rcases leg_cases hLeg with ⟨path, hPath, rfl⟩ | ⟨hLast, -⟩
  · rcases path_cases hPath with ⟨-, rfl⟩ | ⟨hLast, -⟩
    · rfl
    · omega
  · omega

theorem not_derives_one : ¬ tree.Derives (grammar alternation) tokens (.nonTerminal 0) start (start + 1) := by
  intro h
  obtain ⟨leg, last, hLeg, hStop, -⟩ := route_cases h
  have hStart := hLeg.start_lt_stop
  omega

/-- A step and two stops. -/
def detour : List Token :=
  input ++ [⟨Routes.stop, "t", 4, 5, 1, 5⟩]

theorem detour_derives : (Tree.node 0 0 [.node 1 0 [.node 2 0 [.leaf 0, .leaf 1]], .leaf 2]).Derives
    (grammar .roundRobin) detour (.nonTerminal 0) 0 3 := by
  have hPath : (Tree.node 2 0 [.leaf 0, .leaf 1]).Derives (grammar .roundRobin) detour (.nonTerminal 2) 0 2 :=
    .node rfl rfl (List.cons_ne_nil _ _) (.cons (.leaf rfl rfl) (.cons (.leaf rfl rfl) .nil))
  have hLeg : (Tree.node 1 0 [.node 2 0 [.leaf 0, .leaf 1]]).Derives (grammar .roundRobin) detour
      (.nonTerminal 1) 0 2 := .node rfl rfl (List.cons_ne_nil _ _) (.cons hPath .nil)
  exact .node rfl rfl (List.cons_ne_nil _ _) (.cons hLeg (.cons (.leaf rfl rfl) .nil))

theorem enumerates_detour :
    (∃ source, (grammar .roundRobin).stream detour (.nonTerminal 0) 0 3 none = .ok source ∧
      source.Enumerates (grammar .roundRobin) detour
        [.ok ⟨"long", 3⟩, .ok ⟨"direct", 2⟩, .ok ⟨"via", 2⟩]) ∧
    ∃ source, (pruned .roundRobin).stream detour (.nonTerminal 0) 0 3 none = .ok source ∧
      source.Enumerates (pruned .roundRobin) detour
        [.ok ⟨"long", 3⟩, .ok ⟨"direct", 2⟩, .ok ⟨"via", 2⟩] :=
  ⟨⟨_, rfl, .item ⟨20, #[], _, rfl⟩ (.item ⟨20, #[], _, rfl⟩ (.item ⟨20, #[], _, rfl⟩
      (.ends ⟨20, #[], _, rfl⟩ ⟨20, #[], _, rfl⟩)))⟩,
    ⟨_, rfl, .item ⟨20, #[], _, rfl⟩ (.item ⟨20, #[], _, rfl⟩ (.item ⟨20, #[], _, rfl⟩
      (.ends ⟨20, #[], _, rfl⟩ ⟨20, #[], _, rfl⟩)))⟩⟩

theorem enumerates_step :
    (∃ source, (grammar .roundRobin).stream (input.take 1) (.nonTerminal 0) 0 1 none = .ok source ∧
      source.Enumerates (grammar .roundRobin) (input.take 1) []) ∧
    ∃ source, (pruned .roundRobin).stream (input.take 1) (.nonTerminal 0) 0 1 none = .ok source ∧
      source.Enumerates (pruned .roundRobin) (input.take 1) [] :=
  ⟨⟨_, rfl, .ends ⟨20, #[], _, rfl⟩ ⟨20, #[], _, rfl⟩⟩,
    ⟨_, rfl, .ends ⟨20, #[], _, rfl⟩ ⟨20, #[], _, rfl⟩⟩⟩

end Routes

open Routes in
theorem pruning_keeps_acceptance_routes :
    (builder .roundRobin).build = .ok (grammar .roundRobin) ∧ (grammar .roundRobin).Accepting ∧
    (∃ parsed parsed', (Parser.mk (grammar .roundRobin) {}).Returns detour (.ok parsed) ∧
      (Parser.mk (pruned .roundRobin) {}).Returns detour (.ok parsed') ∧
      parsed.value = parsed'.value) ∧
    ∃ attempts,
      (Parser.mk (grammar .roundRobin) {}).Returns (input.take 1) (.error (.noDerivation attempts)) ∧
      (Parser.mk (pruned .roundRobin) {}).Returns (input.take 1) (.error (.noDerivation attempts)) := by
  have hBuilt : (builder .roundRobin).build = .ok (grammar .roundRobin) := rfl
  refine ⟨hBuilt, accepting _, ?_, ?_⟩
  · obtain ⟨⟨source, hSource, hItems⟩, source', hSource', hItems'⟩ := enumerates_detour
    obtain ⟨hAccepts, -⟩ :=
      pruning_keeps_acceptance hBuilt (accepting _) hSource hItems hSource' hItems'
    obtain ⟨parsed, parsed', hParsed, hParsed', -, -, hSame⟩ := hAccepts ⟨_, detour_derives⟩
    refine ⟨parsed, parsed', hParsed, hParsed', hSame fun tree tree' hTree hTree' => ?_⟩
    rw [eq_of_derives_three hTree, eq_of_derives_three hTree']
  · obtain ⟨⟨source, hSource, hItems⟩, source', hSource', hItems'⟩ := enumerates_step
    obtain ⟨-, hFails⟩ :=
      pruning_keeps_acceptance hBuilt (accepting _) hSource hItems hSource' hItems'
    exact hFails fun ⟨_, hTree⟩ => not_derives_one hTree

namespace Routes

theorem returns_direct :
    (∃ source items, (grammar .roundRobin).stream input (.nonTerminal 0) 0 2 none = .ok source ∧
      source.Enumerates (grammar .roundRobin) input items) ∧
    (Parser.mk (grammar .roundRobin) {}).Returns input (.ok ⟨"direct", 1⟩) := by
  obtain ⟨source, hSource, hItems⟩ : ∃ source,
      (grammar .roundRobin).stream input (.nonTerminal 0) 0 2 none = .ok source ∧
      source.Enumerates (grammar .roundRobin) input [.ok ⟨"direct", 2⟩, .ok ⟨"via", 2⟩] :=
    ⟨_, rfl, .item ⟨20, #[], _, rfl⟩ (.item ⟨20, #[], _, rfl⟩
      (.ends ⟨20, #[], _, rfl⟩ ⟨20, #[], _, rfl⟩))⟩
  exact ⟨⟨source, _, hSource, hItems⟩,
    Parser.returns_outcome (p := ⟨grammar .roundRobin, {}⟩) hSource hItems⟩

theorem returns_via :
    (∃ source items, (pruned .roundRobin).stream input (.nonTerminal 0) 0 2 none = .ok source ∧
      source.Enumerates (pruned .roundRobin) input items) ∧
    (Parser.mk (pruned .roundRobin) {}).Returns input (.ok ⟨"via", 1⟩) := by
  obtain ⟨source, hSource, hItems⟩ : ∃ source,
      (pruned .roundRobin).stream input (.nonTerminal 0) 0 2 none = .ok source ∧
      source.Enumerates (pruned .roundRobin) input [.ok ⟨"via", 2⟩, .ok ⟨"direct", 2⟩] :=
    ⟨_, rfl, .item ⟨20, #[], _, rfl⟩ (.item ⟨20, #[], _, rfl⟩
      (.ends ⟨20, #[], _, rfl⟩ ⟨20, #[], _, rfl⟩))⟩
  exact ⟨⟨source, _, hSource, hItems⟩,
    Parser.returns_outcome (p := ⟨pruned .roundRobin, {}⟩) hSource hItems⟩

end Routes

open Routes in
/-- Without pruning a step is found to be a leg before it is found to be a path, which has a longer
derivation first. With pruning that longer one is never looked at, and the order is the other way. -/
theorem pruning_changes_value :
    (builder .roundRobin).build = .ok (grammar .roundRobin) ∧ (grammar .roundRobin).Closed ∧
    (grammar .roundRobin).Accepting ∧
    (∀ nt ∈ (grammar .roundRobin).nonTerminals, nt.alternation = .roundRobin ∧ nt.hintPruning = false) ∧
    (∃ source items, (grammar .roundRobin).stream input (.nonTerminal 0) 0 2 none = .ok source ∧
      source.Enumerates (grammar .roundRobin) input items) ∧
    (∃ source items, (pruned .roundRobin).stream input (.nonTerminal 0) 0 2 none = .ok source ∧
      source.Enumerates (pruned .roundRobin) input items) ∧
    (Parser.mk (grammar .roundRobin) {}).Returns input (.ok ⟨"direct", 1⟩) ∧
    (Parser.mk (pruned .roundRobin) {}).Returns input (.ok ⟨"via", 1⟩) ∧
    ¬ ((∃ value attempts attempts', (Parser.mk (grammar .roundRobin) {}).Returns input (.ok ⟨value, attempts⟩) ∧
        (Parser.mk (pruned .roundRobin) {}).Returns input (.ok ⟨value, attempts'⟩)) ∨
      ∃ attempts attempts',
        (Parser.mk (grammar .roundRobin) {}).Returns input (.error (.noDerivation attempts)) ∧
        (Parser.mk (pruned .roundRobin) {}).Returns input (.error (.noDerivation attempts'))) := by
  obtain ⟨hEnds, hDirect⟩ := returns_direct
  obtain ⟨hEnds', hVia⟩ := returns_via
  refine ⟨rfl, closed _, accepting _, by simp [grammar], hEnds, hEnds', hDirect, hVia, ?_⟩
  rintro (⟨value, attempts, attempts', hValue, hValue'⟩ | ⟨attempts, attempts', hFails, -⟩)
  · cases hDirect.unique hValue
    exact absurd (hVia.unique hValue') (by simp)
  · cases hDirect.unique hFails

end Lexigram
