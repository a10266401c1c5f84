import Mathlib.Data.Finset.Defs
import Mathlib.Data.Multiset.MapFold
import Mathlib.Tactic.Choose
import Lexigram.Grammar.Builder
import Lexigram.Proofs.Exhaustion
import Lexigram.Proofs.Reduced
import Lexigram.Proofs.Termination

/-! # Exactness of enumerations

When no reducer rejects its arguments, the stream of a symbol gives one derivation for each tree of the
symbol in the range: none is lost by a bound, and none is given twice. The induction is on how deeply
symbols are nested, and for a rule on the symbols behind the first one.
-/

namespace Lexigram

variable {V : Type}

namespace Grammar

def Accepting (g : Grammar V) : Prop :=
  ∀ nt ∈ g.nonTerminals, ∀ rule ∈ nt.rules, ∀ reducer, rule.reducer = some reducer →
    ∀ values, ∃ value, reducer.apply values = .ok value

def Total (g : Grammar V) : Prop :=
  ∀ nt ∈ g.nonTerminals, ∀ rule ∈ nt.rules, ∃ reducer, rule.reducer = some reducer ∧
    ∃ apply : List V → V, ∀ values, reducer.apply values = .ok (apply values)

end Grammar

theorem GrammarBuilder.reducer_of_build {builder : GrammarBuilder V} {g : Grammar V}
    (h : builder.build = .ok g) {nt : NonTerminal V} (hNt : nt ∈ g.nonTerminals) {rule : Rule V}
    (hRule : rule ∈ nt.rules) : ∃ reducer, rule.reducer = some reducer := by
  obtain ⟨start, -, hEntries, rfl⟩ := build_eq_ok_iff.mp h
  obtain ⟨⟨nt', defined⟩, hEntry, rfl⟩ := List.mem_map.mp hNt
  have hNone := List.findSome?_eq_none_iff.mp hEntries _ hEntry
  cases defined with
  | false => cases hNone
  | true =>
    have hAll := List.find?_eq_none.mp (Option.map_eq_none_iff.mp hNone) rule hRule
    rw [Bool.not_eq_true', Bool.not_eq_false, Rule.hasReducer] at hAll
    exact Option.isSome_iff_exists.mp hAll

theorem Grammar.Accepting.total {builder : GrammarBuilder V} {g : Grammar V} (hAccepting : g.Accepting)
    (hBuilt : builder.build = .ok g) : g.Total := by
  intro nt hNt rule hRule
  obtain ⟨reducer, hReducer⟩ := GrammarBuilder.reducer_of_build hBuilt hNt hRule
  choose apply hApply using hAccepting nt hNt rule hRule reducer hReducer
  exact ⟨reducer, hReducer, apply, hApply⟩

variable [OfToken V] {g : Grammar V} {tokens : List Token}

omit [OfToken V] in
/-- When what follows each choice are the items of the chains that begin with it, what follows all of
them are the items of all chains. -/
theorem collect_exhausts (item : List (Tree × Derivation V) → Item V)
    {p : Tree × Derivation V → Prop} {q : Tree × Derivation V → List (Tree × Derivation V) → Prop}
    {follow : Derivation V → Option (List (Item V) × Option ReductionError)}
    {listed : List (Tree × Derivation V)} {r : List (Item V) × Option ReductionError}
    (hListed : Exhausts p listed)
    (hFollow : ∀ {first r}, p first → follow first.2 = some r → ∃ chains, Exhausts (q first) chains ∧
      r = (chains.map fun chain => item (first :: chain), none))
    (h : collect follow (listed.map fun first => .ok first.2) = some r) :
    ∃ all, Exhausts (fun chain => ∃ first rest, p first ∧ q first rest ∧ chain = first :: rest) all ∧
      r = (all.map item, none) := by
  induction listed generalizing p r with
  | nil =>
    cases h
    refine ⟨[], exhausts_nil ?_, rfl⟩
    rintro _ ⟨first, rest, hp, -⟩
    exact absurd ((hListed.mem_iff first).mpr hp) List.not_mem_nil
  | cons first listed ih =>
    obtain ⟨hNot, hNodup⟩ := List.nodup_cons.mp hListed.nodup
    have hRest : Exhausts (· ∈ listed) listed := ⟨hNodup, fun _ => Iff.rfl⟩
    have hMem (a) (ha : a ∈ listed) : p a := (hListed.mem_iff a).mp (List.mem_cons_of_mem _ ha)
    have hFirst := (hListed.mem_iff first).mp List.mem_cons_self
    obtain ⟨items, failure⟩ := r
    rcases collect_ok_cons_eq_some h with ⟨e, hError, -⟩ | ⟨found, later, hFound, hLater, rfl⟩
    · obtain ⟨chains, -, hEq⟩ := hFollow hFirst hError
      cases hEq
    · obtain ⟨chains, hChains, hEq⟩ := hFollow hFirst hFound
      cases hEq
      obtain ⟨all, hAll, hEq⟩ := ih hRest (fun hp => hFollow (hMem _ hp)) hLater
      cases hEq
      refine ⟨chains.map (first :: ·) ++ all, ?_, by rw [List.map_append, List.map_map]; rfl⟩
      have hHere := hChains.map (f := (first :: ·)) fun _ _ _ _ h => (List.cons.inj h).2
      refine (hHere.append hAll ?_).congr fun chain => ?_
      · rintro _ ⟨rest, -, rfl⟩ ⟨first', rest', hMem', -, hEq⟩
        cases hEq
        exact hNot hMem'
      · constructor
        · rintro (⟨rest, hq, rfl⟩ | ⟨first', rest, hMem', hq, rfl⟩)
          · exact ⟨first, rest, hFirst, hq, rfl⟩
          · exact ⟨first', rest, hMem _ hMem', hq, rfl⟩
        · rintro ⟨first', rest, hp, hq, rfl⟩
          rcases List.mem_cons.mp ((hListed.mem_iff first').mpr hp) with rfl | hMem'
          · exact .inl ⟨rest, hq, rfl⟩
          · exact .inr ⟨first', rest, hMem', hq, rfl⟩

/-- The list for a symbol has the trees of the symbol as far as it is searched for, each once. -/
def ListsTrees (g : Grammar V) (tokens : List Token)
    (list : Symbol → Nat → Nat → Option Terminal → Option (List (Item V))) : Prop :=
  ∀ {symbol start stop hint items}, list symbol start stop hint = some items →
    ∃ listed, Exhausts (fun p => Reduced g tokens symbol start stop p ∧
        p.2.next ≤ g.reach tokens symbol start stop hint) listed ∧
      items = listed.map fun p => .ok p.2

/-- The trees of the non-terminal over `[start, stop)` that use its rule at one place. -/
def UsesRule (g : Grammar V) (tokens : List Token) (index start stop place : Nat)
    (p : Tree × Derivation V) : Prop :=
  ∃ children, p.1 = .node index place children ∧ Reduced g tokens (.nonTerminal index) start stop p

namespace ListsTrees

variable {list : Symbol → Nat → Nat → Option Terminal → Option (List (Item V))} {rule : Rule V}
  {reducer : Reducer V} {start stop : Nat}

theorem unhinted (hList : ListsTrees g tokens list) {symbol : Symbol} {place : Nat}
    {items : List (Item V)} (h : list symbol place stop none = some items) :
    ∃ listed, Exhausts (Reduced g tokens symbol place stop) listed ∧
      items = listed.map fun p => .ok p.2 := by
  obtain ⟨listed, hListed, hItems⟩ := hList h
  refine ⟨listed, hListed.congr fun p => ?_, hItems⟩
  rw [Grammar.reach_none]
  exact ⟨fun hp => hp.1, fun hp => ⟨hp, hp.2.2⟩⟩

theorem follow_exhausts (hList : ListsTrees g tokens list) {behind : List Symbol}
    {chosen : List (Derivation V)} {d : Derivation V} {r : List (Item V) × Option ReductionError}
    (h : rule.follow (list · · stop none) reducer start behind chosen d = some r) :
    ∃ chains, Exhausts (ReducedAll g tokens stop behind d.next) chains ∧
      r = (chains.map fun chain =>
        rule.itemOf reducer start ((d :: chosen).reverse ++ chain.map Prod.snd), none) := by
  induction behind generalizing chosen d r with
  | nil =>
    cases h
    refine ⟨[[]], (exhausts_singleton []).congr fun chain => ?_, by simp⟩
    constructor
    · rintro rfl
      exact .nil
    · rintro ⟨⟩
      rfl
  | cons symbol behind ih =>
    obtain ⟨items, hItems, h⟩ := Option.bind_eq_some_iff.mp h
    obtain ⟨listed, hListed, rfl⟩ := hList.unhinted hItems
    obtain ⟨all, hAll, rfl⟩ := collect_exhausts
      (fun chain => rule.itemOf reducer start ((d :: chosen).reverse ++ chain.map Prod.snd))
      hListed (fun {first r} _ hFollow => by
        obtain ⟨chains, hChains, rfl⟩ := ih hFollow
        exact ⟨chains, hChains, by simp⟩) h
    exact ⟨all, hAll.congr fun chain => reducedAll_cons_iff.symm, rfl⟩

theorem chains_exhausts (hList : ListsTrees g tokens list) (hReducer : rule.reducer = some reducer)
    (hSymbols : rule.symbols ≠ []) {items : List (Item V)} (h : rule.items? list start stop = some items) :
    ∃ chains, Exhausts (ReducedAll g tokens stop rule.symbols start) chains ∧
      items = chains.map fun chain => rule.itemOf reducer start (chain.map Prod.snd) := by
  obtain ⟨first, behind, hCons⟩ := List.exists_cons_of_ne_nil hSymbols
  simp only [Rule.items?, hReducer, hCons] at h
  split at h
  · obtain ⟨here, hHere, h⟩ := Option.bind_eq_some_iff.mp h
    obtain ⟨r, hCollect, h⟩ := Option.bind_eq_some_iff.mp h
    obtain ⟨listed, hListed, rfl⟩ := hList hHere
    obtain ⟨all, hAll, rfl⟩ := collect_exhausts
      (fun chain => rule.itemOf reducer start (chain.map Prod.snd)) hListed
      (fun _ hFollow => hList.follow_exhausts hFollow) hCollect
    cases h
    refine ⟨all, hAll.congr fun chain => ?_, List.append_nil _⟩
    rw [hCons, reducedAll_cons_iff]
    constructor
    · rintro ⟨p, rest, ⟨hFirst, -⟩, hRest⟩
      exact ⟨p, rest, hFirst, hRest⟩
    · rintro ⟨p, rest, hFirst, hRest, rfl⟩
      exact ⟨p, rest, ⟨hFirst, hRest.next_le_reach g hCons hFirst⟩, hRest, rfl⟩
  · rename_i hStart
    cases h
    refine ⟨[], exhausts_nil fun chain hChain => ?_, rfl⟩
    rw [hCons, reducedAll_cons_iff] at hChain
    obtain ⟨p, rest, hFirst, -⟩ := hChain
    exact hStart hFirst.start_lt_stop

theorem rule_exhausts (hList : ListsTrees g tokens list) (hTotal : g.Total) {index place : Nat}
    {nt : NonTerminal V} (hNt : g.get? index = some nt) (hRule : nt.rules[place]? = some rule)
    {items : List (Item V)} (h : rule.items? list start stop = some items) :
    ∃ listed, Exhausts (UsesRule g tokens index start stop place) listed ∧
      items = listed.map fun p => .ok p.2 := by
  obtain ⟨reducer, hReducer, apply, hApply⟩ :=
    hTotal nt (List.mem_of_getElem? hNt) rule (List.mem_of_getElem? hRule)
  by_cases hSymbols : rule.symbols = []
  · simp only [Rule.items?, hReducer, hSymbols] at h
    cases h
    refine ⟨[], exhausts_nil ?_, rfl⟩
    rintro ⟨tree, d⟩ ⟨children, rfl, hTree, -⟩
    exact ((Tree.derives_node_iff hNt hRule).mp hTree).1 hSymbols
  · obtain ⟨chains, hChains, rfl⟩ := hList.chains_exhausts hReducer hSymbols h
    let tree (chain : List (Tree × Derivation V)) : Tree × Derivation V :=
      (.node index place (chain.map Prod.fst),
        ⟨apply (chain.map (·.2.value)), chainEnd start (chain.map Prod.snd)⟩)
    refine ⟨chains.map tree, ?_, ?_⟩
    · refine (hChains.map (f := tree) fun chain hChain chain' hChain' hEq => ?_).congr fun p => ?_
      · exact hChain.eq_of_trees hChain' (Tree.node.inj (Prod.mk.inj hEq).1).2.2
      · constructor
        · rintro ⟨chain, hChain, rfl⟩
          refine ⟨_, rfl, (reduced_node_iff hNt hRule hReducer hSymbols).mpr ?_⟩
          exact ⟨chain, hChain, rfl, hApply _, rfl⟩
        · obtain ⟨_, value, next⟩ := p
          rintro ⟨children, rfl, hReduced⟩
          obtain ⟨chain, hChain, rfl, hValue, rfl⟩ :=
            (reduced_node_iff hNt hRule hReducer hSymbols).mp hReduced
          rw [hApply] at hValue
          cases hValue
          exact ⟨chain, hChain, rfl⟩
    · rw [List.map_map]
      refine List.map_congr_left fun chain _ => ?_
      simp only [Rule.itemOf, hApply, List.map_map]
      rfl

theorem merge_exhausts (hList : ListsTrees g tokens list) (hTotal : g.Total) {index : Nat}
    {nt : NonTerminal V} (hNt : g.get? index = some nt) {lists : List (List (Item V))}
    (h : nt.rules.mapM (·.items? list start stop) = some lists) :
    ∃ listed, Exhausts (Reduced g tokens (.nonTerminal index) start stop) listed ∧
      nt.alternation.merge lists = listed.map fun p => .ok p.2 := by
  have hRules := Stream.Lists.forall₂_of_mapM h
  have hApart (i j : Nat) (p : Tree × Derivation V) (hi : UsesRule g tokens index start stop i p)
      (hj : UsesRule g tokens index start stop j p) : i = j := by
    obtain ⟨children, hEq, -⟩ := hi
    obtain ⟨children', hEq', -⟩ := hj
    exact (Tree.node.inj (hEq.symm.trans hEq')).2.1
  have hEach (place : Nat) (items : List (Item V)) (hItems : lists[place]? = some items) :
      ∃ listed, Exhausts (UsesRule g tokens index start stop (0 + place)) listed ∧
        items = listed.map fun p => .ok p.2 := by
    obtain ⟨hPlace, rfl⟩ := List.getElem?_eq_some_iff.mp hItems
    have hLength : place < nt.rules.length := hRules.length_eq ▸ hPlace
    rw [Nat.zero_add]
    exact hList.rule_exhausts hTotal hNt (List.getElem?_eq_getElem hLength)
      (hRules.get hLength hPlace)
  obtain ⟨all, rfl, hAll⟩ := exists_exhausts_flatten 0 hApart hEach
  refine ⟨nt.alternation.merge all, ?_, nt.alternation.merge_map _ all⟩
  refine (hAll.perm (nt.alternation.merge_perm all)).congr fun p => ?_
  constructor
  · rintro ⟨_, -, _, -, hReduced⟩
    exact hReduced
  · obtain ⟨tree, d⟩ := p
    intro hReduced
    cases hReduced.1 with
    | node hNt' hRule' _ _ =>
      rw [hNt] at hNt'
      cases hNt'
      have hPlace := (List.getElem?_eq_some_iff.mp hRule').1
      rw [hRules.length_eq] at hPlace
      exact ⟨_, hPlace, _, by rw [Nat.zero_add], hReduced⟩

end ListsTrees

theorem Terminal.items_exhausts (t : Terminal) (g : Grammar V) (tokens : List Token)
    (start stop : Nat) :
    ∃ listed, Exhausts (Reduced g tokens (.terminal t) start stop) listed ∧
      t.items tokens start stop = listed.map fun p => .ok p.2 := by
  unfold Terminal.items
  split
  · rename_i token hToken
    split
    · rename_i h
      rw [Bool.and_eq_true, decide_eq_true_eq] at h
      refine ⟨[(.leaf start, ⟨OfToken.ofToken token, start + 1⟩)], ?_, rfl⟩
      refine (exhausts_singleton _).congr fun p => ?_
      rw [reduced_terminal_iff]
      constructor
      · rintro rfl
        exact ⟨token, hToken, h.1, h.2, rfl⟩
      · rintro ⟨token', hToken', -, -, rfl⟩
        rw [hToken] at hToken'
        cases hToken'
        rfl
    · rename_i h
      refine ⟨[], exhausts_nil fun p hp => ?_, rfl⟩
      obtain ⟨token', hToken', hStart, hOf, -⟩ := reduced_terminal_iff.mp hp
      rw [hToken] at hToken'
      cases hToken'
      exact h (by rw [Bool.and_eq_true, decide_eq_true_eq]; exact ⟨hStart, hOf⟩)
  · rename_i hToken
    refine ⟨[], exhausts_nil fun p hp => ?_, rfl⟩
    obtain ⟨token, hToken', -⟩ := reduced_terminal_iff.mp hp
    rw [hToken] at hToken'
    cases hToken'

theorem listsTrees_items? (hTotal : g.Total) (depth : Nat) :
    ListsTrees g tokens (g.items? tokens depth) := by
  induction depth with
  | zero =>
    intro symbol start stop hint items h
    cases h
  | succ depth ih =>
    intro symbol start stop hint items h
    cases symbol with
    | terminal t =>
      cases h
      obtain ⟨listed, hListed, hItems⟩ := t.items_exhausts g tokens start stop
      exact ⟨listed, hListed.congr fun p => ⟨fun hp => ⟨hp, hp.2.2⟩, fun hp => hp.1⟩, hItems⟩
    | nonTerminal index =>
      obtain ⟨nt, hNt, h⟩ := Option.bind_eq_some_iff.mp h
      split at h
      · rename_i hStart
        obtain ⟨lists, hLists, h⟩ := Option.bind_eq_some_iff.mp h
        cases h
        obtain ⟨listed, hListed, hItems⟩ := ih.merge_exhausts hTotal hNt hLists
        refine ⟨listed, hListed.congr fun p => ?_, hItems⟩
        have hBound : nt.bound tokens start stop hint ≤ stop := nt.bound_le hStart hint
        simp only [Grammar.reach, hNt, Reduced]
        constructor
        · rintro ⟨hTree, hValue, hNext⟩
          exact ⟨⟨hTree, hValue, Nat.le_trans hNext hBound⟩, hNext⟩
        · rintro ⟨⟨hTree, hValue, -⟩, hNext⟩
          exact ⟨hTree, hValue, hNext⟩
      · rename_i hStart
        cases h
        exact ⟨[], exhausts_nil fun p hp => hStart hp.1.start_lt_stop, rfl⟩

mutual

theorem Tree.Derives.exists_value (hTotal : g.Total) {symbol : Symbol} {start stop : Nat} {tree : Tree}
    (h : tree.Derives g tokens symbol start stop) : ∃ value, tree.value? g tokens = some value := by
  cases h with
  | leaf hToken => exact ⟨_, by rw [value?, hToken]; rfl⟩
  | @node _ _ _ _ nt rule _ hNt hRule _ hChildren =>
    obtain ⟨reducer, hReducer, apply, hApply⟩ :=
      hTotal nt (List.mem_of_getElem? hNt) rule (List.mem_of_getElem? hRule)
    obtain ⟨values, hValues⟩ := hChildren.exists_values hTotal
    refine ⟨apply values, ?_⟩
    simp only [value?, hNt, hRule, hReducer, hValues, hApply, Option.bind_eq_bind, Option.bind_some]
    rfl

theorem Tree.DeriveAll.exists_values (hTotal : g.Total) {symbols : List Symbol} {start stop : Nat}
    {trees : List Tree} (h : DeriveAll g tokens symbols start stop trees) :
    ∃ values, values? g tokens trees = some values := by
  cases h with
  | nil => exact ⟨[], by rw [values?]⟩
  | cons hTree hTrees =>
    obtain ⟨value, hValue⟩ := hTree.exists_value hTotal
    obtain ⟨values, hValues⟩ := hTrees.exists_values hTotal
    exact ⟨value :: values, by rw [values?, hValue, hValues]; rfl⟩

end

theorem Reduced.derivation?_eq {symbol : Symbol} {start stop : Nat} {p : Tree × Derivation V}
    (h : Reduced g tokens symbol start stop p) : p.1.derivation? g tokens = some p.2 := by
  rw [h.1.derivation?_eq, h.2.1]
  rfl

/-- In a built grammar that is closed and grounded and whose reducers accept everything, left-recursive
or not and however its rules are merged and bounded, the stream of a symbol over a range ends, and what
it gives is, as a multiset, what the trees of the symbol in the range reduce to. -/
theorem enumerates_trees {builder : GrammarBuilder V} (hBuilt : builder.build = .ok g)
    (hClosed : g.Closed) (hGrounded : g.Grounded) (hAccepting : g.Accepting) (tokens : List Token)
    {symbol : Symbol} (hSymbol : g.Holds symbol) (start stop : Nat) :
    ∃ (source : Stream V) (derivations : List (Derivation V)) (trees : Finset Tree),
      g.stream tokens symbol start stop none = .ok source ∧
      source.Enumerates g tokens (derivations.map .ok) ∧
      (∀ tree, tree ∈ trees ↔ ∃ next ≤ stop, tree.Derives g tokens symbol start next) ∧
      (derivations : Multiset (Derivation V)).map some =
        trees.val.map fun tree => tree.derivation? g tokens := by
  have hTotal := hAccepting.total hBuilt
  obtain ⟨depth, items, source, hItems, hSource, hEnumerates⟩ :=
    exists_enumerates hClosed hGrounded tokens hSymbol start stop
  obtain ⟨listed, hListed, rfl⟩ := ListsTrees.unhinted (listsTrees_items? hTotal depth) hItems
  have hTrees : (listed.map Prod.fst).Nodup := by
    refine hListed.nodup.map_on fun p hp q hq hEq => ?_
    exact ((hListed.mem_iff p).mp hp).eq_of_tree ((hListed.mem_iff q).mp hq) hEq
  refine ⟨source, listed.map Prod.snd, ⟨listed.map Prod.fst, Multiset.coe_nodup.mpr hTrees⟩, hSource, ?_, ?_, ?_⟩
  · rw [List.map_map]
    exact hEnumerates
  · intro tree
    rw [Finset.mem_mk, Multiset.mem_coe, List.mem_map]
    constructor
    · rintro ⟨p, hp, rfl⟩
      obtain ⟨hTree, -, hStop⟩ := (hListed.mem_iff p).mp hp
      exact ⟨p.2.next, hStop, hTree⟩
    · rintro ⟨next, hStop, hTree⟩
      obtain ⟨value, hValue⟩ := hTree.exists_value hTotal
      exact ⟨(tree, ⟨value, next⟩), (hListed.mem_iff _).mpr ⟨hTree, hValue, hStop⟩, rfl⟩
  · rw [Multiset.map_coe, Multiset.map_coe, List.map_map, List.map_map]
    refine congrArg _ (List.map_congr_left fun p hp => ?_)
    exact ((hListed.mem_iff p).mp hp).derivation?_eq.symm

namespace Sums

def joined : Reducer String where
  apply values := .ok (String.join values)

def builder : GrammarBuilder String where
  entries := (grammar joined).nonTerminals.map (·, true)
  start := some (.nonTerminal 0)

theorem accepting : (grammar joined).Accepting := by
  intro nt hNt rule hRule reducer hReducer values
  rw [List.mem_singleton.mp hNt] at hRule
  rcases List.mem_cons.mp hRule with rfl | hRule
  · cases hReducer
    exact ⟨_, rfl⟩
  · rw [List.mem_singleton.mp hRule] at hReducer
    cases hReducer
    exact ⟨_, rfl⟩

def whole : Tree :=
  .node 0 1 [.node 0 0 [.leaf 0], .leaf 1, .leaf 2]

theorem whole_derives : whole.Derives (grammar joined) input (.nonTerminal 0) 0 3 := by
  have hFirst : (Tree.node 0 0 [.leaf 0]).Derives (grammar joined) input (.nonTerminal 0) 0 1 :=
    .node rfl rfl (List.cons_ne_nil _ _) (.cons (.leaf rfl rfl) .nil)
  exact .node rfl rfl (List.cons_ne_nil _ _)
    (.cons hFirst (.cons (.leaf rfl rfl) (.cons (.leaf rfl rfl) .nil)))

end Sums

theorem enumerates_trees_sums : Sums.builder.build = .ok (Sums.grammar Sums.joined) ∧
    (Sums.grammar Sums.joined).Closed ∧ (Sums.grammar Sums.joined).Grounded ∧
    (Sums.grammar Sums.joined).Accepting ∧ (Sums.grammar Sums.joined).Holds (.nonTerminal 0) ∧
    ∃ (source : Stream String) (derivations : List (Derivation String)),
      (Sums.grammar Sums.joined).stream Sums.input (.nonTerminal 0) 0 3 none = .ok source ∧
      source.Enumerates (Sums.grammar Sums.joined) Sums.input (derivations.map .ok) ∧
      ⟨"1p2", 3⟩ ∈ derivations := by
  have hBuilt : Sums.builder.build = .ok (Sums.grammar Sums.joined) := rfl
  have hSymbol : (Sums.grammar Sums.joined).Holds (.nonTerminal 0) := Nat.zero_lt_one
  refine ⟨hBuilt, Sums.closed _, Sums.grounded _, Sums.accepting, hSymbol, ?_⟩
  obtain ⟨source, derivations, trees, hSource, hEnumerates, hTrees, hEq⟩ :=
    enumerates_trees hBuilt (Sums.closed _) (Sums.grounded _) Sums.accepting Sums.input hSymbol 0 3
  refine ⟨source, derivations, hSource, hEnumerates, ?_⟩
  have hWhole := Multiset.mem_map_of_mem (fun tree => tree.derivation? (Sums.grammar Sums.joined) Sums.input)
    ((hTrees Sums.whole).mpr ⟨3, Nat.le_refl 3, Sums.whole_derives⟩)
  rw [← hEq] at hWhole
  obtain ⟨d, hd, hSome⟩ := Multiset.mem_map.mp hWhole
  have hValue : Sums.whole.derivation? (Sums.grammar Sums.joined) Sums.input = some ⟨"1p2", 3⟩ := by
    rfl
  rw [hValue] at hSome
  cases hSome
  exact hd

end Lexigram
