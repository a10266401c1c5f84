import Mathlib.Order.Filter.AtTopBot.Basic
import Mathlib.Order.Filter.Finite
import Mathlib.Order.Interval.Finset.Nat
import Mathlib.Data.Set.Finite.Lemmas
import Lexigram.Proofs.Leading
import Lexigram.Proofs.Listing
import Lexigram.Proofs.Search
import Lexigram.Proofs.Soundness

/-! # Enumerations that end

In a closed and grounded grammar every enumeration ends. Symbols behind the first one start further on,
since a derivation takes at least one token; a guarded first symbol gets a shorter range; an unguarded
one has the same range and is nearer to the end of the unguarded steps. So the induction is on the
length of the range, and within one length on the unguarded steps.
-/

namespace Lexigram

open Filter

variable {V : Type} [OfToken V] {g : Grammar V} {tokens : List Token}

theorem Grammar.soundItem_of_mem_items? {depth : Nat} {symbol : Symbol} {start stop : Nat}
    {hint : Option Terminal} {items : List (Item V)} {item : Item V}
    (h : g.items? tokens depth symbol start stop hint = some items) (hItem : item ∈ items) :
    SoundItem g tokens symbol start stop item := by
  obtain ⟨source, hSource, hItems⟩ := g.lists_items? depth h
  obtain ⟨left, hReaches⟩ := hItems.reaches
  exact (hReaches.explores (explores_stream hSource)).1 _ (List.mem_map_of_mem hItem)

theorem Grammar.next_of_mem_items? {depth : Nat} {symbol : Symbol} {start stop : Nat}
    {hint : Option Terminal} {items : List (Item V)} {d : Derivation V}
    (h : g.items? tokens depth symbol start stop hint = some items) (hd : .ok d ∈ items) :
    start < d.next ∧ d.next ≤ stop := by
  obtain ⟨⟨tree, hTree, -⟩, hStop⟩ := soundItem_of_mem_items? h hd
  exact ⟨hTree.start_lt_stop, hStop⟩

omit [OfToken V] in
theorem collect_isSome {follow : Derivation V → Option (List (Item V) × Option ReductionError)}
    {here : List (Item V)} (h : ∀ d, .ok d ∈ here → ∃ r, follow d = some r) :
    ∃ r, collect follow here = some r := by
  induction here with
  | nil => exact ⟨_, rfl⟩
  | cons item rest ih =>
    cases item with
    | error e => exact ⟨_, rfl⟩
    | ok d =>
      obtain ⟨⟨items, failure⟩, hFollow⟩ := h d List.mem_cons_self
      obtain ⟨⟨later, failure'⟩, hRest⟩ := ih fun d hd => h d (List.mem_cons_of_mem _ hd)
      cases failure with
      | none => exact ⟨(items ++ later, failure'), by simp only [collect, hFollow, hRest]; rfl⟩
      | some e => exact ⟨(items, some e), by simp only [collect, hFollow]; rfl⟩

def Listed (g : Grammar V) (tokens : List Token) (symbol : Symbol) (start stop : Nat)
    (hint : Option Terminal) : Prop :=
  ∀ᶠ depth in atTop, ∃ items, g.items? tokens depth symbol start stop hint = some items

def RulesListed (g : Grammar V) (tokens : List Token) (index start stop : Nat) : Prop :=
  ∀ᶠ depth in atTop, ∀ nt, g.get? index = some nt → ∀ rule ∈ nt.rules,
    ∃ items, rule.items? (g.items? tokens depth) start stop = some items

theorem listed_terminal (t : Terminal) (start stop : Nat) (hint : Option Terminal) :
    Listed g tokens (.terminal t) start stop hint := by
  apply eventually_atTop.mpr
  refine ⟨1, fun depth hDepth => ?_⟩
  obtain ⟨depth, rfl⟩ : ∃ n, depth = n + 1 := ⟨depth - 1, by omega⟩
  exact ⟨_, rfl⟩

theorem mapM_isSome {α β : Type} {f : α → Option β} {as : List α}
    (h : ∀ a ∈ as, ∃ b, f a = some b) : ∃ bs, as.mapM f = some bs := by
  induction as with
  | nil => exact ⟨[], rfl⟩
  | cons a as ih =>
    obtain ⟨b, hb⟩ := h a List.mem_cons_self
    obtain ⟨bs, hbs⟩ := ih fun a ha => h a (List.mem_cons_of_mem _ ha)
    exact ⟨b :: bs, by simp [List.mapM_cons, hb, hbs]⟩

theorem RulesListed.listed {index start stop : Nat} {hint : Option Terminal} {nt : NonTerminal V}
    (hNt : g.get? index = some nt)
    (h : start < stop → RulesListed g tokens index start (nt.bound tokens start stop hint)) :
    Listed g tokens (.nonTerminal index) start stop hint := by
  by_cases hStart : start < stop
  · obtain ⟨least, hLeast⟩ := eventually_atTop.mp (h hStart)
    refine eventually_atTop.mpr ⟨least + 1, fun depth hDepth => ?_⟩
    obtain ⟨depth, rfl⟩ : ∃ n, depth = n + 1 := ⟨depth - 1, by omega⟩
    obtain ⟨lists, hLists⟩ := mapM_isSome (hLeast depth (by omega) nt hNt)
    refine ⟨nt.alternation.merge lists, ?_⟩
    simp only [Grammar.items?, hNt, Option.bind_eq_bind, Option.bind_some, if_pos hStart, hLists]
  · refine eventually_atTop.mpr ⟨1, fun depth hDepth => ?_⟩
    obtain ⟨depth, rfl⟩ : ∃ n, depth = n + 1 := ⟨depth - 1, by omega⟩
    refine ⟨[], ?_⟩
    simp only [Grammar.items?, hNt, Option.bind_eq_bind, Option.bind_some, if_neg hStart]

omit [OfToken V] in
/-- A list for the symbol at every place from `low` to `stop`, whose derivations lie there too, is all
that the choices for one symbol after another ask for. -/
theorem Rule.follow_isSome {list : Symbol → Nat → Option (List (Item V))} {rule : Rule V}
    {reducer : Reducer V} {start low stop : Nat} {behind : List Symbol}
    (hList : ∀ symbol ∈ behind, ∀ place, low < place → place ≤ stop →
      ∃ items, list symbol place = some items ∧
        ∀ d, .ok d ∈ items → place < d.next ∧ d.next ≤ stop)
    {chosen : List (Derivation V)} {d : Derivation V} (hLow : low < d.next) (hStop : d.next ≤ stop) :
    ∃ r, rule.follow list reducer start behind chosen d = some r := by
  induction behind generalizing chosen d with
  | nil => exact ⟨_, rfl⟩
  | cons symbol behind ih =>
    obtain ⟨items, hItems, hNext⟩ := hList symbol List.mem_cons_self d.next hLow hStop
    obtain ⟨r, hr⟩ : ∃ r, collect (rule.follow list reducer start behind (d :: chosen)) items =
        some r := by
      apply collect_isSome
      intro d' hd'
      obtain ⟨hAfter, hBefore⟩ := hNext d' hd'
      exact ih (fun s hs => hList s (List.mem_cons_of_mem _ hs)) (hLow.trans hAfter) hBefore
    exact ⟨r, by rw [follow, hItems]; exact hr⟩

omit [OfToken V] in
theorem Rule.items?_isSome {list : Symbol → Nat → Nat → Option Terminal → Option (List (Item V))}
    {rule : Rule V} {start stop : Nat}
    (hFirst : ∀ first, rule.symbols.head? = some first → start < stop →
      ∃ items, list first start stop rule.hint = some items ∧
        ∀ d, .ok d ∈ items → start < d.next ∧ d.next ≤ stop)
    (hBehind : ∀ symbol ∈ rule.symbols, ∀ place, start < place → place ≤ stop →
      ∃ items, list symbol place stop none = some items ∧
        ∀ d, .ok d ∈ items → place < d.next ∧ d.next ≤ stop) :
    ∃ items, rule.items? list start stop = some items := by
  unfold Rule.items?
  split
  · rename_i reducer first behind hReducer hSymbols
    split
    · rename_i hStart
      obtain ⟨here, hHere, hNext⟩ := hFirst first (by rw [hSymbols]; rfl) hStart
      obtain ⟨⟨items, failure⟩, hItems⟩ : ∃ r,
          collect (rule.follow (list · · stop none) reducer start behind []) here = some r := by
        apply collect_isSome
        intro d hd
        exact Rule.follow_isSome (fun symbol hSymbol => hBehind symbol
          (hSymbols ▸ List.mem_cons_of_mem _ hSymbol)) (hNext d hd).1 (hNext d hd).2
      exact ⟨items ++ closing failure [], by rw [hHere]; simp only [Option.bind_eq_bind,
        Option.bind_some, hItems]⟩
    · exact ⟨_, rfl⟩
  · exact ⟨_, rfl⟩

theorem RulesListed.of_symbols {index start stop : Nat} {nt : NonTerminal V}
    (hNt : g.get? index = some nt)
    (hFirst : ∀ rule ∈ nt.rules, ∀ first, rule.symbols.head? = some first → start < stop →
      Listed g tokens first start stop rule.hint)
    (hBehind : ∀ rule ∈ nt.rules, ∀ symbol ∈ rule.symbols, ∀ place, start < place → place ≤ stop →
      Listed g tokens symbol place stop none) :
    RulesListed g tokens index start stop := by
  have hFirsts : ∀ᶠ depth in atTop, ∀ rule ∈ {r | r ∈ nt.rules}, ∀ first ∈ {s | s ∈ rule.symbols},
      rule.symbols.head? = some first ∧ start < stop →
        ∃ items, g.items? tokens depth first start stop rule.hint = some items :=
    (List.finite_toSet nt.rules).eventually_all.mpr fun rule hRule =>
      (List.finite_toSet rule.symbols).eventually_all.mpr fun first _ =>
        eventually_imp_distrib_left.mpr fun h => hFirst rule hRule first h.1 h.2
  have hBehinds : ∀ᶠ depth in atTop, ∀ rule ∈ {r | r ∈ nt.rules}, ∀ symbol ∈ {s | s ∈ rule.symbols},
      ∀ place ∈ Set.Ioc start stop, ∃ items, g.items? tokens depth symbol place stop none = some items :=
    (List.finite_toSet nt.rules).eventually_all.mpr fun rule hRule =>
      (List.finite_toSet rule.symbols).eventually_all.mpr fun symbol hSymbol =>
        (Set.finite_Ioc start stop).eventually_all.mpr fun place hPlace =>
          hBehind rule hRule symbol hSymbol place hPlace.1 hPlace.2
  filter_upwards [hFirsts, hBehinds] with depth hFirsts hBehinds nt' hNt' rule hRule
  rw [hNt] at hNt'
  cases hNt'
  apply Rule.items?_isSome
  · intro first hHead hStart
    obtain ⟨items, hItems⟩ := hFirsts rule hRule first (List.mem_of_head? hHead) ⟨hHead, hStart⟩
    exact ⟨items, hItems, fun d hd => Grammar.next_of_mem_items? hItems hd⟩
  · intro symbol hSymbol place hStart hStop
    obtain ⟨items, hItems⟩ := hBehinds rule hRule symbol hSymbol place ⟨hStart, hStop⟩
    exact ⟨items, hItems, fun d hd => Grammar.next_of_mem_items? hItems hd⟩

theorem rulesListed (hClosed : g.Closed) (hGrounded : g.Grounded) {index : Nat}
    (hIndex : g.Holds (.nonTerminal index)) (start stop : Nat) :
    RulesListed g tokens index start stop := by
  obtain ⟨length, hLength⟩ : ∃ length, length = stop - start := ⟨_, rfl⟩
  induction length using Nat.strong_induction_on generalizing index start stop with
  | _ length ihLength =>
    refine hGrounded.induction (motive := fun index => RulesListed g tokens index start stop)
      (fun index hIndex ihLed => ?_) hIndex
    obtain ⟨nt, hNt⟩ := Grammar.get?_isSome_of_holds hIndex
    apply RulesListed.of_symbols hNt
    · intro rule hRule first hHead hStart
      have hFirst := hClosed.holds hNt hRule (List.mem_of_head? hHead)
      cases first with
      | terminal t => exact listed_terminal t start stop rule.hint
      | nonTerminal b =>
        obtain ⟨led, hLed⟩ := Grammar.get?_isSome_of_holds hFirst
        refine RulesListed.listed hLed fun _ => ?_
        rcases NonTerminal.bound_lt_or_unguarded tokens hNt hRule hHead hLed hStart with hLt | ⟨hEq, hLeads⟩
        · exact ihLength _ (by omega) hFirst start _ rfl
        · rw [hEq]
          exact ihLed b hFirst hLeads
    · intro rule hRule symbol hSymbol place hStart hStop
      have hHolds := hClosed.holds hNt hRule hSymbol
      cases symbol with
      | terminal t => exact listed_terminal t place stop none
      | nonTerminal c =>
        obtain ⟨later, hLater⟩ := Grammar.get?_isSome_of_holds hHolds
        exact RulesListed.listed hLater fun _ => ihLength (stop - place) (by omega) hHolds place stop rfl

theorem listed (hClosed : g.Closed) (hGrounded : g.Grounded) {symbol : Symbol}
    (hSymbol : g.Holds symbol) (start stop : Nat) (hint : Option Terminal) :
    Listed g tokens symbol start stop hint := by
  cases symbol with
  | terminal t => exact listed_terminal t start stop hint
  | nonTerminal index =>
    obtain ⟨nt, hNt⟩ := Grammar.get?_isSome_of_holds hSymbol
    exact RulesListed.listed hNt fun _ => rulesListed hClosed hGrounded hSymbol start _

namespace Stream

mutual

def nesting : Stream V → Nat
  | .once _ => 1
  | .inTurn streams => nestingAll streams + 1
  | .inOrder streams => nestingAll streams + 1
  | .chains _ _ _ state => nestingState state + 1

def nestingAll : List (Stream V) → Nat
  | [] => 0
  | stream :: streams => max (nesting stream) (nestingAll streams)

def nestingState : Enumeration.Chain Symbol (Stream V) (Derivation V) → Nat
  | .fresh _ _ => 0
  | .moving levels _ => nestingLevels levels

def nestingLevels : List (Enumeration.Level Symbol (Stream V)) → Nat
  | [] => 0
  | level :: levels => max (nestingLevel level) (nestingLevels levels)

def nestingLevel : Enumeration.Level Symbol (Stream V) → Nat
  | ⟨source, _⟩ => nesting source

end

theorem Gives.exists_fuel {source next : Stream V} {item : Option (Item V)}
    (h : source.Gives g tokens item next) : ∃ least, ∀ fuel ≥ least, ∀ log, ∃ log',
      (source.pull g tokens fuel).run log = .ok ((item, next), log') := by
  obtain ⟨calls, hPulls⟩ := gives_iff_exists_pulls.mp h
  obtain ⟨least, hRun⟩ := hPulls.settles.run_pull
  exact ⟨least, fun fuel hFuel log => ⟨log ++ calls, hRun fuel hFuel log⟩⟩

theorem Reaches.eq_of_gives_none {source left : Stream V} {answers : List (Option (Item V))}
    (h : source.Reaches g tokens answers left) (hNone : source.Gives g tokens none source) :
    left = source := by
  induction h with
  | here => rfl
  | pull hGives _ ih =>
    obtain ⟨rfl, rfl⟩ := hNone.unique hGives
    exact ih hNone

/-- What stays true of one stream on the way of an enumeration: its nesting is bounded and, with so
much fuel, a pull of it returns. -/
def Answers (g : Grammar V) (tokens : List Token) (fuel : Nat) (source : Stream V) : Prop :=
  source.nesting ≤ fuel ∧ ∀ log, ∃ item next log',
    (source.pull g tokens fuel).run log = .ok ((item, next), log')

theorem Gives.answers {source next : Stream V} {item : Option (Item V)}
    (h : source.Gives g tokens item next) : ∀ᶠ fuel in atTop, source.Answers g tokens fuel := by
  obtain ⟨least, hRun⟩ := h.exists_fuel
  filter_upwards [eventually_ge_atTop source.nesting, eventually_ge_atTop least]
    with fuel hNesting hFuel
  refine ⟨hNesting, fun log => ?_⟩
  obtain ⟨log', hLog⟩ := hRun fuel hFuel log
  exact ⟨item, next, log', hLog⟩

/-- An enumeration that ends needs only so much fuel for every pull of it, those behind its end
included. -/
theorem Enumerates.answers {source : Stream V} {items : List (Item V)}
    (h : source.Enumerates g tokens items) : ∀ᶠ fuel in atTop, ∀ answers left,
      source.Reaches g tokens answers left → left.Answers g tokens fuel := by
  induction h with
  | ends hNone hAgain =>
    filter_upwards [hNone.answers, hAgain.answers] with fuel hSource hLeft answers left hReaches
    cases hReaches with
    | here => exact hSource
    | pull hGives hRest =>
      obtain ⟨-, rfl⟩ := hNone.unique hGives
      rwa [hRest.eq_of_gives_none hAgain]
  | item hItem _ ih =>
    filter_upwards [hItem.answers, ih] with fuel hSource hNext answers left hReaches
    cases hReaches with
    | here => exact hSource
    | pull hGives hRest =>
      obtain ⟨-, rfl⟩ := hItem.unique hGives
      exact hNext _ left hRest

end Stream

theorem Parser.search_returns (p : Parser V) {source : Stream V} {items : List (Item V)}
    (h : source.Enumerates p.grammar tokens items) (attempts : Nat) :
    ∃ answer least, ∀ fuel ≥ least, ∀ log, ∃ log',
      (p.search tokens fuel attempts source).run log = .ok (answer, log') := by
  obtain ⟨pulled, calls, hSearches⟩ := h.searches attempts
  obtain ⟨least, hRun⟩ := hSearches.run_search
  exact ⟨_, least, fun fuel hFuel log => ⟨log ++ calls, hRun fuel hFuel log⟩⟩

theorem exists_enumerates (hClosed : g.Closed) (hGrounded : g.Grounded) (tokens : List Token)
    {symbol : Symbol} (hSymbol : g.Holds symbol) (start stop : Nat) :
    ∃ depth items source, g.items? tokens depth symbol start stop none = some items ∧
      g.stream tokens symbol start stop none = .ok source ∧ source.Enumerates g tokens items := by
  have hListed : Listed g tokens symbol start stop none := listed hClosed hGrounded hSymbol start stop none
  obtain ⟨depth, items, hItems⟩ := hListed.exists
  obtain ⟨source, hSource, hEnumerates⟩ := g.lists_items? depth hItems
  exact ⟨depth, items, source, hItems, hSource, hEnumerates⟩

/-- In a closed and grounded grammar, left-recursive or not, the stream of every symbol over every
range gives finitely many items and then nothing; one amount of fuel serves every pull of it, so
streams are nested only so deeply; and every parse returns. -/
theorem enumeration_ends (hClosed : g.Closed) (hGrounded : g.Grounded) (tokens : List Token) :
    (∀ symbol, g.Holds symbol → ∀ start stop, ∃ source,
      g.stream tokens symbol start stop none = .ok source ∧
      (∃ items, source.Enumerates g tokens items) ∧
      ∃ fuel, ∀ answers left, source.Reaches g tokens answers left → left.Answers g tokens fuel) ∧
    ∀ config, ∃ answer least, ∀ fuel ≥ least, ∀ log, ∃ log',
      (Parser.parse ⟨g, config⟩ tokens fuel).run log = .ok (answer, log') := by
  constructor
  · intro symbol hSymbol start stop
    obtain ⟨_, items, source, -, hSource, hItems⟩ :=
      exists_enumerates hClosed hGrounded tokens hSymbol start stop
    exact ⟨source, hSource, ⟨items, hItems⟩, hItems.answers.exists⟩
  · intro config
    obtain ⟨_, items, source, -, hSource, hItems⟩ := exists_enumerates hClosed hGrounded tokens
      (hClosed g.start List.mem_cons_self) 0 tokens.length
    obtain ⟨answer, least, hRun⟩ := Parser.search_returns ⟨g, config⟩ hItems 0
    refine ⟨answer, least, fun fuel hFuel log => ?_⟩
    obtain ⟨log', hLog⟩ := hRun fuel hFuel log
    have hOpen : (Parser.mk g config).stream tokens = .ok source := hSource
    refine ⟨log', ?_⟩
    rw [Parser.parse, Traced.run_bind_of_ok (Traced.run_ofExcept_eq_ok_iff.mpr ⟨hOpen, rfl⟩)]
    exact hLog

namespace Sums

theorem closed (reducer : Reducer String) : (grammar reducer).Closed := by
  intro symbol hSymbol
  cases symbol with
  | terminal t => trivial
  | nonTerminal index =>
    simp only [Grammar.symbols, grammar, List.flatMap_cons, List.flatMap_nil, List.append_nil,
      List.cons_append, List.nil_append, List.mem_cons, List.not_mem_nil, or_false,
      Symbol.nonTerminal.injEq, reduceCtorEq, false_or, or_self] at hSymbol
    subst hSymbol
    exact Nat.zero_lt_one

theorem not_leadsUnguarded (reducer : Reducer String) (a b : Nat) :
    ¬ (grammar reducer).LeadsUnguarded a b := by
  rintro ⟨nt, hNt, rule, hRule, hHead, hUnguarded⟩
  obtain ⟨ha, hGet⟩ := List.getElem?_eq_some_iff.mp hNt
  have hZero : a = 0 := Nat.lt_one_iff.mp ha
  subst hZero
  subst hGet
  rcases List.mem_cons.mp hRule with rfl | hRule
  · cases hHead
  · rw [List.mem_singleton.mp hRule] at hHead hUnguarded
    cases hHead
    exact hUnguarded ⟨⟨plus, List.mem_cons_of_mem _ List.mem_cons_self⟩, _, rfl, rfl⟩

theorem grounded (reducer : Reducer String) : (grammar reducer).Grounded := by
  intro a hCycle
  obtain ⟨b, hLeads, -⟩ := Relation.TransGen.head'_iff.mp hCycle
  exact not_leadsUnguarded reducer a b hLeads

end Sums

theorem enumeration_ends_sums : (Sums.grammar Sums.single).Closed ∧
    (Sums.grammar Sums.single).Grounded ∧
    (∃ source, (Sums.grammar Sums.single).stream Sums.input (.nonTerminal 0) 0 9 none = .ok source ∧
      (∃ items, source.Enumerates (Sums.grammar Sums.single) Sums.input items) ∧
      ∃ fuel, source.Answers (Sums.grammar Sums.single) Sums.input fuel) ∧
    ∃ answer least, ∀ fuel ≥ least, ∀ log, ∃ log',
      (Parser.parse ⟨Sums.grammar Sums.single, {}⟩ Sums.input fuel).run log = .ok (answer, log') := by
  obtain ⟨hStreams, hParses⟩ :=
    enumeration_ends (Sums.closed Sums.single) (Sums.grounded Sums.single) Sums.input
  obtain ⟨source, hSource, hItems, fuel, hAnswers⟩ := hStreams (.nonTerminal 0) Nat.zero_lt_one 0 9
  exact ⟨Sums.closed Sums.single, Sums.grounded Sums.single,
    ⟨source, hSource, hItems, fuel, hAnswers [] source (.here source)⟩, hParses {}⟩

end Lexigram
