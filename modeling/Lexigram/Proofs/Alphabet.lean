import Lexigram.Language
import Lexigram.Proofs.Recognition
import Lexigram.Proofs.Shadowing

/-! # Terminals of a grammar and of a lexer

A language is refused when its grammar uses a terminal that its lexer does not produce, and the first such
terminal is named. The refusal is justified: in the tokens of a text every terminal is one of the
significant ones, so a rule with another terminal heads no tree, and the grammar without that rule has the
same derivations.
-/

namespace Lexigram

structure FirstOccurrences (all kept : List Terminal) : Prop where
  covers : ∀ t ∈ all, ∃ s ∈ kept, s.same t = true
  apart : kept.Pairwise fun s t => s.same t = false
  /-- Whatever occurs before the first occurrence of one that is kept is kept before it. -/
  first : ∀ before t after, kept = before ++ t :: after → ∃ earlier later,
    all = earlier ++ t :: later ∧ ∀ e ∈ earlier, e.same t = false ∧ ∃ b ∈ before, b.same e = true

namespace Grammar

theorem distinct_concat (all : List Terminal) (t : Terminal) : distinct (all ++ [t]) =
    if (distinct all).any (·.same t) then distinct all else distinct all ++ [t] := by
  rw [distinct, List.foldl_concat]
  rfl

theorem exists_mem_distinct {all : List Terminal} {t : Terminal} (h : t ∈ all) :
    ∃ s ∈ distinct all, s.same t = true := by
  induction all using List.reverseRecOn with
  | nil => exact absurd h List.not_mem_nil
  | append_singleton all t' ih =>
    rw [distinct_concat]
    rcases List.mem_append.mp h with h | h
    · obtain ⟨s, hs, hSame⟩ := ih h
      refine ⟨s, ?_, hSame⟩
      split
      · exact hs
      · exact List.mem_append_left _ hs
    · rw [List.mem_singleton.mp h]
      split
      · rename_i hKept
        exact List.any_eq_true.mp hKept
      · exact ⟨t', List.mem_append_right _ List.mem_cons_self, Terminal.same_iff.mpr rfl⟩

theorem pairwise_distinct (all : List Terminal) :
    (distinct all).Pairwise fun s t => s.same t = false := by
  induction all using List.reverseRecOn with
  | nil => exact .nil
  | append_singleton all t ih =>
    rw [distinct_concat]
    split
    · exact ih
    · rename_i hNew
      refine List.pairwise_append.mpr ⟨ih, List.pairwise_singleton _ _, fun s hs t' ht' => ?_⟩
      rw [List.mem_singleton.mp ht', ← Bool.not_eq_true]
      exact fun hSame => hNew (List.any_eq_true.mpr ⟨s, hs, hSame⟩)

theorem exists_earlier_of_distinct {all before after : List Terminal} {t : Terminal}
    (h : distinct all = before ++ t :: after) : ∃ earlier later,
      all = earlier ++ t :: later ∧ ∀ e ∈ earlier, e.same t = false ∧ ∃ b ∈ before, b.same e = true := by
  induction all using List.reverseRecOn generalizing after with
  | nil => exact absurd h.symm (List.append_ne_nil_of_right_ne_nil _ (List.cons_ne_nil _ _))
  | append_singleton all t' ih =>
    have hBefore {after : List Terminal} (h : distinct all = before ++ t :: after) :
        ∃ earlier later, all ++ [t'] = earlier ++ t :: later ∧
          ∀ e ∈ earlier, e.same t = false ∧ ∃ b ∈ before, b.same e = true := by
      obtain ⟨earlier, later, hAll, hEarlier⟩ := ih h
      exact ⟨earlier, later ++ [t'], by rw [hAll, List.append_assoc]; rfl, hEarlier⟩
    rw [distinct_concat] at h
    split at h
    · exact hBefore h
    · rename_i hNew
      rcases List.eq_nil_or_concat after with rfl | ⟨after, last, rfl⟩
      · obtain ⟨rfl, hLast⟩ := List.append_inj' h rfl
        obtain rfl := List.singleton_inj.mp hLast
        refine ⟨all, [], rfl, fun e he => ⟨?_, exists_mem_distinct he⟩⟩
        rw [← Bool.not_eq_true, Terminal.same_iff]
        intro hSame
        obtain ⟨s, hs, hKept⟩ := exists_mem_distinct he
        refine hNew (List.any_eq_true.mpr ⟨s, hs, Terminal.same_iff.mpr ?_⟩)
        exact (Terminal.same_iff.mp hKept).trans hSame
      · rw [List.concat_eq_append, ← List.cons_append, ← List.append_assoc] at h
        exact hBefore (List.append_inj' h rfl).1

def occurrences {V : Type} (g : Grammar V) : List Terminal :=
  g.symbols.filterMap Symbol.terminal?

def Uses {V : Type} (g : Grammar V) (t : Terminal) : Prop :=
  g.start = .terminal t ∨ ∃ nt ∈ g.nonTerminals, ∃ rule ∈ nt.rules, .terminal t ∈ rule.symbols

theorem firstOccurrences_terminals {V : Type} (g : Grammar V) :
    FirstOccurrences g.occurrences g.terminals where
  covers _ ht := exists_mem_distinct ht
  apart := pairwise_distinct _
  first _ _ _ h := exists_earlier_of_distinct h

theorem mem_occurrences_iff {V : Type} {g : Grammar V} {t : Terminal} :
    t ∈ g.occurrences ↔ g.Uses t := by
  have hSymbol (symbol : Symbol) : symbol.terminal? = some t ↔ symbol = .terminal t := by
    cases symbol <;> simp [Symbol.terminal?]
  simp only [occurrences, Uses, symbols, List.mem_filterMap, hSymbol, List.mem_cons, List.mem_flatMap,
    exists_eq_right, eq_comm]

def withoutRule {V : Type} (g : Grammar V) (index place : Nat) : Grammar V :=
  { g with nonTerminals := g.nonTerminals.modify index fun nt =>
      { nt with rules := nt.rules.eraseIdx place } }

def withRuleLast {V : Type} (g : Grammar V) (index place : Nat) : Grammar V :=
  { g with nonTerminals := g.nonTerminals.modify index fun nt =>
      { nt with rules := nt.rules.eraseIdx place ++ nt.rules[place]?.toList } }

/-- Every rule of `g` whose symbols derive anything is in `g'` at the same place. -/
def KeepsUsable {V : Type} (tokens : List Token) (g g' : Grammar V) : Prop :=
  ∀ (index place : Nat) (nt : NonTerminal V) (rule : Rule V) (start stop : Nat) (children : List Tree),
    g.get? index = some nt → nt.rules[place]? = some rule →
      Tree.DeriveAll g tokens rule.symbols start stop children →
        ∃ nt', g'.get? index = some nt' ∧ nt'.rules[place]? = some rule

end Grammar

namespace Lexer

variable {lexer : Lexer}

theorem produces_eq_false_iff {t : Terminal} :
    lexer.produces t = false ↔ ∀ s ∈ lexer.significant, s.id ≠ t.id := by
  rw [produces, List.any_eq_false]
  simp only [Terminal.same_iff, ne_eq]

theorem terminal_mem_significant {text : String} {ts : List Token} (h : lexer.tokens text = .ok ts) :
    ∀ t ∈ ts, t.terminal ∈ lexer.significant := by
  obtain ⟨ts', last, hReads, ⟨-, hTokens⟩ | ⟨e, -, hTokens⟩⟩ := lexer.exists_reads ⟨{}, text.toList⟩
  · rw [tokens, hTokens] at h
    cases h
    refine hReads.forall_mem fun cursor t next hStep => ?_
    have hActs := hStep ▸ lexer.acts_step cursor
    cases hActs with
    | token hFinds _ => exact hFinds.mem
  · rw [tokens, hTokens] at h
    cases h

end Lexer

namespace Tree

inductive Uses (index place : Nat) : Tree → Prop
  | here (children : List Tree) : Uses index place (.node index place children)
  | inside {index' place' : Nat} {children : List Tree} {child : Tree} (hChild : child ∈ children)
    (h : Uses index place child) : Uses index place (.node index' place' children)

variable {V : Type} {g g' : Grammar V} {tokens : List Token}

theorem DeriveAll.exists_derives {symbols : List Symbol} {start stop : Nat} {trees : List Tree}
    (h : DeriveAll g tokens symbols start stop trees) {tree : Tree} (hTree : tree ∈ trees) :
    ∃ symbol start stop, tree.Derives g tokens symbol start stop := by
  induction trees generalizing symbols start with
  | nil => cases hTree
  | cons first trees ih =>
    cases h with
    | cons hFirst hRest =>
      rcases List.mem_cons.mp hTree with rfl | hTree
      · exact ⟨_, _, _, hFirst⟩
      · exact ih hRest hTree

theorem Uses.exists_deriveAll {index place : Nat} {tree : Tree} (h : tree.Uses index place)
    {symbol : Symbol} {start stop : Nat} (hTree : tree.Derives g tokens symbol start stop) :
    ∃ nt rule start stop children, g.get? index = some nt ∧ nt.rules[place]? = some rule ∧
      DeriveAll g tokens rule.symbols start stop children := by
  induction h generalizing symbol start stop with
  | here children =>
    cases hTree with
    | node hNt hRule _ hChildren => exact ⟨_, _, _, _, _, hNt, hRule, hChildren⟩
  | inside hChild _ ih =>
    cases hTree with
    | node _ _ _ hChildren =>
      obtain ⟨symbol, start, stop, hTree⟩ := hChildren.exists_derives hChild
      exact ih hTree

mutual

theorem Derives.keep (h : g.KeepsUsable tokens g') {symbol : Symbol} {start stop : Nat} {tree : Tree}
    (hTree : tree.Derives g tokens symbol start stop) : tree.Derives g' tokens symbol start stop := by
  cases hTree with
  | leaf hToken hOf => exact .leaf hToken hOf
  | node hNt hRule hSymbols hChildren =>
    obtain ⟨nt', hNt', hRule'⟩ := h _ _ _ _ _ _ _ hNt hRule hChildren
    exact .node hNt' hRule' hSymbols (hChildren.keep h)

theorem DeriveAll.keep (h : g.KeepsUsable tokens g') {symbols : List Symbol} {start stop : Nat}
    {trees : List Tree} (hTrees : DeriveAll g tokens symbols start stop trees) :
    DeriveAll g' tokens symbols start stop trees := by
  cases hTrees with
  | nil => exact .nil
  | cons hTree hTrees => exact .cons (hTree.keep h) (hTrees.keep h)

end

mutual

theorem Derives.value?_keep [OfToken V] (h : g.KeepsUsable tokens g') {symbol : Symbol}
    {start stop : Nat} {tree : Tree} (hTree : tree.Derives g tokens symbol start stop) :
    tree.value? g' tokens = tree.value? g tokens := by
  cases hTree with
  | leaf => rw [value?, value?]
  | node hNt hRule _ hChildren =>
    obtain ⟨nt', hNt', hRule'⟩ := h _ _ _ _ _ _ _ hNt hRule hChildren
    simp only [value?, hNt, hNt', hRule, hRule', hChildren.values?_keep h, Option.bind_eq_bind,
      Option.bind_some]

theorem DeriveAll.values?_keep [OfToken V] (h : g.KeepsUsable tokens g') {symbols : List Symbol}
    {start stop : Nat} {trees : List Tree} (hTrees : DeriveAll g tokens symbols start stop trees) :
    values? g' tokens trees = values? g tokens trees := by
  cases hTrees with
  | nil => rw [values?, values?]
  | cons hTree hTrees => rw [values?, values?, hTree.value?_keep h, hTrees.values?_keep h]

end

end Tree

variable {V : Type} {g : Grammar V} {tokens : List Token}

theorem Reduced.keep [OfToken V] {g' : Grammar V} (h : g.KeepsUsable tokens g') {symbol : Symbol}
    {start stop : Nat} {p : Tree × Derivation V} (hp : Reduced g tokens symbol start stop p) :
    Reduced g' tokens symbol start stop p :=
  ⟨hp.1.keep h, (hp.1.value?_keep h).trans hp.2.1, hp.2.2⟩

namespace Grammar

variable {index place : Nat}

theorem perm_eraseIdx_concat {α : Type} (list : List α) (place : Nat) :
    list.Perm (list.eraseIdx place ++ list[place]?.toList) := by
  induction list generalizing place with
  | nil => exact .refl _
  | cons a list ih =>
    cases place with
    | zero => exact (List.perm_append_singleton a list).symm
    | succ place => exact (ih place).cons a

theorem retunes_withRuleLast (g : Grammar V) (index place : Nat) :
    g.Retunes (g.withRuleLast index place) := by
  refine ⟨rfl, List.forall₂_iff_get.mpr ⟨(List.length_modify _ _ _).symm, fun i _ _ => ?_⟩⟩
  simp only [withRuleLast, List.get_eq_getElem, List.getElem_modify]
  split
  · exact perm_eraseIdx_concat _ _
  · exact .refl _

theorem get?_withoutRule_of_ne {i : Nat} (h : index ≠ i) :
    (g.withoutRule index place).get? i = g.get? i :=
  List.getElem?_modify_ne _ _ h

theorem get?_withRuleLast_of_ne {i : Nat} (h : index ≠ i) :
    (g.withRuleLast index place).get? i = g.get? i :=
  List.getElem?_modify_ne _ _ h

section Rule

variable {nt : NonTerminal V} {rule : Rule V}

theorem get?_withoutRule (hNt : g.get? index = some nt) : (g.withoutRule index place).get? index =
    some { nt with rules := nt.rules.eraseIdx place } := by
  rw [get?] at hNt
  rw [get?, withoutRule, List.getElem?_modify_eq, hNt]
  rfl

theorem get?_withRuleLast (hNt : g.get? index = some nt) (hRule : nt.rules[place]? = some rule) :
    (g.withRuleLast index place).get? index =
      some { nt with rules := nt.rules.eraseIdx place ++ [rule] } := by
  rw [get?] at hNt
  rw [get?, withRuleLast, List.getElem?_modify_eq, hNt, Option.map_eq_map, Option.map_some, hRule]
  rfl

/-- The rule that is left out is the last one, so all others stay where they are. -/
theorem keepsUsable_withoutRule (hNt : g.get? index = some nt) (hRule : nt.rules[place]? = some rule) :
    KeepsUsable tokens (g.withoutRule index place) (g.withRuleLast index place) := by
  intro i p nt' rule' _ _ _ hNt' hRule' _
  by_cases h : index = i
  · subst i
    rw [get?_withoutRule hNt] at hNt'
    cases hNt'
    have hPlace := (List.getElem?_eq_some_iff.mp hRule').1
    exact ⟨_, get?_withRuleLast hNt hRule, (List.getElem?_append_left hPlace).trans hRule'⟩
  · rw [get?_withoutRule_of_ne h] at hNt'
    exact ⟨nt', (get?_withRuleLast_of_ne h).trans hNt', hRule'⟩

theorem keepsUsable_withRuleLast (hNt : g.get? index = some nt) (hRule : nt.rules[place]? = some rule)
    (hUnused : ∀ (g' : Grammar V) (start stop : Nat) (children : List Tree),
      ¬ Tree.DeriveAll g' tokens rule.symbols start stop children) :
    KeepsUsable tokens (g.withRuleLast index place) (g.withoutRule index place) := by
  intro i p nt' rule' _ _ _ hNt' hRule' hChildren
  by_cases h : index = i
  · subst i
    rw [get?_withRuleLast hNt hRule] at hNt'
    cases hNt'
    refine ⟨_, get?_withoutRule hNt, ?_⟩
    rw [List.getElem?_append] at hRule'
    split at hRule'
    · exact hRule'
    · -- Behind the other rules there is only the one that derives nothing.
      obtain rfl := List.mem_singleton.mp (List.mem_of_getElem? hRule')
      exact absurd hChildren (hUnused _ _ _ _)
  · rw [get?_withRuleLast_of_ne h] at hNt'
    exact ⟨nt', (get?_withoutRule_of_ne h).trans hNt', hRule'⟩

theorem Total.withoutRule (hTotal : g.Total) (hNt : g.get? index = some nt) (place : Nat) :
    (g.withoutRule index place).Total := by
  intro nt' hNt' rule hRule
  obtain ⟨i, hi⟩ := List.mem_iff_getElem?.mp hNt'
  rw [← get?] at hi
  by_cases h : index = i
  · subst i
    rw [get?_withoutRule hNt] at hi
    cases hi
    exact hTotal nt (List.mem_of_getElem? hNt) rule (List.mem_of_mem_eraseIdx hRule)
  · rw [get?_withoutRule_of_ne h] at hi
    exact hTotal nt' (List.mem_of_getElem? hi) rule hRule

end Rule

end Grammar

/-- The stream is one of a symbol from `start` on, whatever its range and hint, or that of a rule of a
non-terminal. -/
inductive Opens [OfToken V] (g : Grammar V) (tokens : List Token) : Symbol → Nat → Stream V → Prop
  | symbol {symbol : Symbol} {start stop : Nat} {hint : Option Terminal} {source : Stream V}
    (h : g.stream tokens symbol start stop hint = .ok source) : Opens g tokens symbol start source
  | rule {index place start : Nat} {nt : NonTerminal V} {rule : Rule V} (hNt : g.get? index = some nt)
    (hRule : nt.rules[place]? = some rule) (stop : Nat) :
    Opens g tokens (.nonTerminal index) start (rule.stream start stop)

theorem Opens.derived [OfToken V] {symbol : Symbol} {start : Nat} {source left : Stream V}
    {items : List (Option (Item V))} (h : Opens g tokens symbol start source)
    (hReaches : source.Reaches g tokens items left) {d : Derivation V} (hd : some (.ok d) ∈ items) :
    Derived g tokens symbol start d := by
  cases h with
  | symbol hStream => exact ((hReaches.explores (explores_stream hStream)).1 _ hd).1
  | rule hNt hRule stop =>
    exact ((hReaches.explores (explores_rule hNt hRule (Nat.le_refl stop))).1 _ hd).1

namespace Language

variable {lexer : Lexer}

theorem ofParts_eq_error_iff {parser : Parser V} {e : GrammarError} : ofParts lexer parser = .error e ↔
    ∃ before t after, parser.grammar.terminals = before ++ t :: after ∧
      (∀ b ∈ before, lexer.produces b = true) ∧ lexer.produces t = false ∧
      e = .unregisteredTerminal t.name := by
  unfold ofParts missing?
  cases hFound : parser.grammar.terminals.find? (!lexer.produces ·) with
  | none =>
    rw [List.find?_eq_none] at hFound
    constructor
    · nofun
    · rintro ⟨before, t, after, hAll, -, ht, -⟩
      exact absurd (by rw [ht]; rfl) (hFound t (hAll ▸ List.mem_append_right _ List.mem_cons_self))
  | some t =>
    obtain ⟨ht, before, after, hAll, hBefore⟩ := List.find?_eq_some_iff_append.mp hFound
    constructor
    · intro h
      cases h
      exact ⟨before, t, after, hAll, by simpa using hBefore, by simpa using ht, rfl⟩
    · rintro ⟨before', t', after', hAll', hBefore', ht', rfl⟩
      have hFound' : parser.grammar.terminals.find? (!lexer.produces ·) = some t' := by
        refine List.find?_eq_some_iff_append.mpr ⟨by rw [ht']; rfl, before', after', hAll', ?_⟩
        simpa using hBefore'
      rw [hFound] at hFound'
      cases hFound'
      rfl

theorem exists_ofParts_eq_error_iff {parser : Parser V} : (∃ e, ofParts lexer parser = .error e) ↔
    ∃ t, parser.grammar.Uses t ∧ ∀ s ∈ lexer.significant, s.id ≠ t.id := by
  have hFirst := parser.grammar.firstOccurrences_terminals
  constructor
  · rintro ⟨e, h⟩
    obtain ⟨before, t, after, hAll, -, ht, -⟩ := ofParts_eq_error_iff.mp h
    obtain ⟨earlier, later, hOccurrences, -⟩ := hFirst.first before t after hAll
    refine ⟨t, Grammar.mem_occurrences_iff.mp ?_, Lexer.produces_eq_false_iff.mp ht⟩
    rw [hOccurrences]
    exact List.mem_append_right _ List.mem_cons_self
  · rintro ⟨t, hUsed, ht⟩
    cases hParts : ofParts lexer parser with
    | error e => exact ⟨e, rfl⟩
    | ok language =>
      obtain ⟨s, hs, hSame⟩ := hFirst.covers t (Grammar.mem_occurrences_iff.mpr hUsed)
      have hProduced := (ofParts_ok_iff.mp hParts).2 s hs
      rw [← Terminal.same_iff.mp hSame, ← Lexer.produces_eq_false_iff, hProduced] at ht
      cases ht

end Language

theorem Rule.not_deriveAll {lexer : Lexer} {text : String} (hTokens : lexer.tokens text = .ok tokens)
    {rule : Rule V} {t : Terminal} (ht : .terminal t ∈ rule.symbols)
    (hMissing : ∀ s ∈ lexer.significant, s.id ≠ t.id) (g : Grammar V) (start stop : Nat)
    (children : List Tree) : ¬ Tree.DeriveAll g tokens rule.symbols start stop children := by
  intro hChildren
  obtain ⟨place, token, -, -, hToken, hOf⟩ := hChildren.exists_token ht
  have hSignificant := lexer.terminal_mem_significant hTokens token (List.mem_of_getElem? hToken)
  exact hMissing _ hSignificant (Terminal.same_iff.mp hOf)

theorem Grammar.perm_withoutRule [OfToken V] {index place : Nat} {nt : NonTerminal V} {rule : Rule V}
    (hTotal : g.Total) (hNt : g.get? index = some nt) (hRule : nt.rules[place]? = some rule)
    (hUnused : ∀ (g' : Grammar V) (start stop : Nat) (children : List Tree),
      ¬ Tree.DeriveAll g' tokens rule.symbols start stop children)
    {symbol : Symbol} {start stop : Nat} {source source' : Stream V} {items items' : List (Item V)}
    (hSource : g.stream tokens symbol start stop none = .ok source)
    (hSource' : (g.withoutRule index place).stream tokens symbol start stop none = .ok source')
    (hItems : source.Enumerates g tokens items)
    (hItems' : source'.Enumerates (g.withoutRule index place) tokens items') : items.Perm items' := by
  obtain ⟨listed, hListed, rfl⟩ := hItems.exists_exhausts hTotal hSource
  obtain ⟨listed', hListed', rfl⟩ := hItems'.exists_exhausts (hTotal.withoutRule hNt place) hSource'
  have hReordered : Exhausts (Reduced (g.withRuleLast index place) tokens symbol start stop) listed' :=
    hListed'.congr fun p =>
      ⟨Reduced.keep (keepsUsable_withoutRule hNt hRule),
        Reduced.keep (keepsUsable_withRuleLast hNt hRule hUnused)⟩
  obtain ⟨σ, hσ⟩ := (g.retunes_withRuleLast index place).exists_relabels
  exact (hσ.perm hListed hReordered).map _

/-- The terminals of a grammar are the first occurrences of those its start symbol and its rules use. A
language is refused just when one of them is none of the lexer's significant terminals, and the first such
one is named. Rightly so: in the tokens of a text a rule with such a terminal is used by no tree, whatever
stream an item comes from, and without it the same derivations are enumerated. -/
theorem Language.refusal_justified [OfToken V] (lexer : Lexer) (g : Grammar V) (config : ParserConfig) :
    (∀ t, t ∈ g.occurrences ↔ g.Uses t) ∧ FirstOccurrences g.occurrences g.terminals ∧
    ((∃ e, ofParts lexer ⟨g, config⟩ = .error e) ↔
      ∃ t, g.Uses t ∧ ∀ s ∈ lexer.significant, s.id ≠ t.id) ∧
    (∀ e, ofParts lexer ⟨g, config⟩ = .error e ↔ ∃ before t after, g.terminals = before ++ t :: after ∧
      (∀ b ∈ before, lexer.produces b = true) ∧ lexer.produces t = false ∧
      e = .unregisteredTerminal t.name) ∧
    ∀ {index place nt rule t}, g.get? index = some nt → nt.rules[place]? = some rule →
      .terminal t ∈ rule.symbols → (∀ s ∈ lexer.significant, s.id ≠ t.id) →
      ∀ {text tokens}, lexer.tokens text = .ok tokens →
        (∀ {symbol start source items left}, Opens g tokens symbol start source →
          source.Reaches g tokens items left → ∀ d, some (.ok d) ∈ items →
            Derived g tokens symbol start d ∧
            ∀ tree : Tree, tree.Derives g tokens symbol start d.next → ¬ tree.Uses index place) ∧
        ∀ {builder : GrammarBuilder V}, builder.build = .ok g → g.Accepting →
          ∀ {symbol start stop source source' items items'},
            g.stream tokens symbol start stop none = .ok source →
            (g.withoutRule index place).stream tokens symbol start stop none = .ok source' →
            source.Enumerates g tokens items →
            source'.Enumerates (g.withoutRule index place) tokens items' → items.Perm items' := by
  refine ⟨fun t => Grammar.mem_occurrences_iff, g.firstOccurrences_terminals, exists_ofParts_eq_error_iff,
    fun e => ofParts_eq_error_iff, ?_⟩
  intro index place nt rule t hNt hRule ht hMissing text tokens hTokens
  have hUnused := Rule.not_deriveAll (V := V) hTokens ht hMissing
  refine ⟨fun hOpens hReaches d hd => ⟨hOpens.derived hReaches hd, fun tree hTree hUses => ?_⟩, ?_⟩
  · obtain ⟨nt', rule', _, _, _, hNt', hRule', hChildren⟩ := hUses.exists_deriveAll hTree
    rw [hNt] at hNt'
    cases hNt'
    rw [hRule] at hRule'
    cases hRule'
    exact hUnused g _ _ _ hChildren
  · intro builder hBuilt hAccepting symbol start stop source source' items items' hSource hSource'
    exact Grammar.perm_withoutRule (hAccepting.total hBuilt) hNt hRule hUnused hSource hSource'

namespace Notes

/-- Numbers with comments between them, which the lexer of notes drops. -/
def grammar : Grammar String where
  nonTerminals := [{
    name := "notes"
    rules := [
      ⟨[.terminal number], some Sums.joined, "notes", "number"⟩,
      ⟨[.nonTerminal 0, .terminal comment, .terminal number], some Sums.joined, "notes",
        "notes comment number"⟩]
    hintPruning := true
    alternation := .roundRobin }]
  start := .nonTerminal 0

def builder : GrammarBuilder String where
  entries := grammar.nonTerminals.map (·, true)
  start := some (.nonTerminal 0)

theorem accepting : grammar.Accepting := by
  intro nt hNt rule hRule reducer hReducer values
  rw [List.mem_singleton.mp hNt] at hRule
  rcases List.mem_pair.mp hRule with rfl | rfl <;>
  · cases hReducer
    exact ⟨_, rfl⟩

end Notes

theorem Language.refusal_justified_notes :
    ofParts Notes.lexer ⟨Notes.grammar, {}⟩ = .error (.unregisteredTerminal "comment") ∧
    (∀ s ∈ Notes.lexer.significant, s.id ≠ Notes.comment.id) ∧
    Notes.builder.build = .ok Notes.grammar ∧ Notes.grammar.Accepting ∧
    ∃ tokens source source' items, Notes.lexer.tokens "12 #é" = .ok tokens ∧
      Notes.grammar.stream tokens (.nonTerminal 0) 0 1 none = .ok source ∧
      (Notes.grammar.withoutRule 0 1).stream tokens (.nonTerminal 0) 0 1 none = .ok source' ∧
      source.Enumerates Notes.grammar tokens items ∧
      source'.Enumerates (Notes.grammar.withoutRule 0 1) tokens [.ok ⟨"12", 1⟩] ∧
      items.Perm [.ok ⟨"12", 1⟩] ∧
      ∀ tree : Tree, tree.Derives Notes.grammar tokens (.nonTerminal 0) 0 1 → ¬ tree.Uses 0 1 := by
  obtain ⟨-, -, -, hRefused, hUnused⟩ := refusal_justified Notes.lexer Notes.grammar {}
  have hMissing : ∀ s ∈ Notes.lexer.significant, s.id ≠ Notes.comment.id := by decide
  have hTokens : Notes.lexer.tokens "12 #é" = .ok [⟨Notes.number, "12", 0, 2, 1, 1⟩] :=
    (Lexer.Reads.token rfl (.dropped rfl (.here _))).tokensFrom_eq_ok rfl
  obtain ⟨nt, rule, hNt, hRule, hComment⟩ : ∃ nt rule, Notes.grammar.get? 0 = some nt ∧
      nt.rules[1]? = some rule ∧ .terminal Notes.comment ∈ rule.symbols :=
    ⟨_, _, rfl, rfl, by decide⟩
  have hBuilt : Notes.builder.build = .ok Notes.grammar := rfl
  obtain ⟨hAvoids, hSame⟩ := hUnused hNt hRule hComment hMissing hTokens
  obtain ⟨source, left, hSource, hItems, hReaches⟩ : ∃ source left,
      Notes.grammar.stream [⟨Notes.number, "12", 0, 2, 1, 1⟩] (.nonTerminal 0) 0 1 none = .ok source ∧
      source.Enumerates Notes.grammar [⟨Notes.number, "12", 0, 2, 1, 1⟩] [.ok ⟨"12", 1⟩] ∧
      source.Reaches Notes.grammar [⟨Notes.number, "12", 0, 2, 1, 1⟩] [some (.ok ⟨"12", 1⟩)] left :=
    ⟨_, _, rfl, .item ⟨9, #[], _, rfl⟩ (.ends ⟨9, #[], _, rfl⟩ ⟨9, #[], _, rfl⟩),
      .pull ⟨9, #[], _, rfl⟩ (.here _)⟩
  obtain ⟨source', hSource', hItems'⟩ : ∃ source',
      (Notes.grammar.withoutRule 0 1).stream [⟨Notes.number, "12", 0, 2, 1, 1⟩] (.nonTerminal 0) 0 1 none =
        .ok source' ∧
      source'.Enumerates (Notes.grammar.withoutRule 0 1) [⟨Notes.number, "12", 0, 2, 1, 1⟩]
        [.ok ⟨"12", 1⟩] :=
    ⟨_, rfl, .item ⟨9, #[], _, rfl⟩ (.ends ⟨9, #[], _, rfl⟩ ⟨9, #[], _, rfl⟩)⟩
  refine ⟨(hRefused _).mpr ⟨[Notes.number], Notes.comment, [], by decide, by decide, by decide, rfl⟩,
    hMissing, hBuilt, Notes.accepting, _, source, source', _, hTokens, hSource, hSource', hItems, hItems',
    hSame hBuilt Notes.accepting hSource hSource' hItems hItems', ?_⟩
  exact (hAvoids (.symbol hSource) hReaches ⟨"12", 1⟩ List.mem_cons_self).2

end Lexigram
