import Mathlib.Data.Set.List
import Mathlib.Order.Filter.AtTopBot.Basic
import Lexigram.Proofs.Termination

/-! # Enumerations that are seen to end

When the pulls of a stream come to an end without an error, so do the pulls of all streams inside it, on
less fuel. So its items are listed at a depth of nesting that the fuel bounds. No condition on the grammar
is needed: what ends on some tokens need not end on others.
-/

namespace Lexigram

namespace Enumeration

variable {ε σ α : Type}

/-- Pulled again and again, the source gives these items and then nothing. -/
inductive Drains (pull : σ → Traced ε (Option α × σ)) : σ → List α → Prop
  | ends {source left : σ} {log log' : Array ε}
    (h : (pull source).run log = .ok ((none, left), log')) : Drains pull source []
  | item {source next : σ} {item : α} {items : List α} {log log' : Array ε}
    (h : (pull source).run log = .ok ((some item, next), log')) (h' : Drains pull next items) :
    Drains pull source (item :: items)

/-- One pull of a merge uses a source up, or takes the item from it and keeps what is left of it, or
finds an item elsewhere and keeps it. -/
def Merges (pull : σ → Traced ε (Option α × σ)) (merge : List σ → Traced ε (Option α × List σ)) : Prop :=
  ∀ {sources rest : List σ} {item : Option α} {log log' : Array ε},
    (merge sources).run log = .ok ((item, rest), log') → ∀ source ∈ sources,
      (∃ left mid mid', (pull source).run mid = .ok ((none, left), mid')) ∨
      ∃ found, item = some found ∧ (source ∈ rest ∨
        ∃ next ∈ rest, ∃ mid mid', (pull source).run mid = .ok ((some found, next), mid'))

section Merge

variable {pull : σ → Traced ε (Option α × σ)}

theorem merges_nextInTurn : Merges pull (nextInTurn pull) := by
  intro sources rest item log log' h
  induction sources generalizing log with
  | nil => exact fun source hSource => absurd hSource List.not_mem_nil
  | cons first waiting ih =>
    unfold nextInTurn at h
    obtain ⟨⟨found, left⟩, mid, hFirst, h⟩ := Traced.run_bind_eq_ok_iff.mp h
    intro source hSource
    cases found with
    | some found =>
      obtain ⟨hItem, rfl⟩ := Traced.run_pure_eq_ok_iff.mp h
      cases hItem
      refine .inr ⟨found, rfl, ?_⟩
      rcases List.mem_cons.mp hSource with rfl | hSource
      · exact .inr ⟨left, List.mem_append_right _ List.mem_cons_self, log, mid, hFirst⟩
      · exact .inl (List.mem_append_left _ hSource)
    | none =>
      rcases List.mem_cons.mp hSource with rfl | hSource
      · exact .inl ⟨left, log, mid, hFirst⟩
      · exact ih h source hSource

theorem merges_nextInOrder : Merges pull (nextInOrder pull) := by
  intro sources rest item log log' h
  induction sources generalizing log with
  | nil => exact fun source hSource => absurd hSource List.not_mem_nil
  | cons first waiting ih =>
    unfold nextInOrder at h
    obtain ⟨⟨found, left⟩, mid, hFirst, h⟩ := Traced.run_bind_eq_ok_iff.mp h
    intro source hSource
    cases found with
    | some found =>
      obtain ⟨hItem, rfl⟩ := Traced.run_pure_eq_ok_iff.mp h
      cases hItem
      refine .inr ⟨found, rfl, ?_⟩
      rcases List.mem_cons.mp hSource with rfl | hSource
      · exact .inr ⟨left, List.mem_cons_self, log, mid, hFirst⟩
      · exact .inl (List.mem_cons_of_mem _ hSource)
    | none =>
      rcases List.mem_cons.mp hSource with rfl | hSource
      · exact .inl ⟨left, log, mid, hFirst⟩
      · exact ih h source hSource

theorem Merges.drains {merge : List σ → Traced ε (Option α × List σ)} (hMerge : Merges pull merge)
    {sources : List σ} {items : List α} (h : Drains merge sources items) :
    ∀ source ∈ sources, ∃ own, Drains pull source own ∧ own ⊆ items := by
  induction h with
  | ends hNone =>
    intro source hSource
    rcases hMerge hNone source hSource with ⟨left, mid, mid', hLeft⟩ | ⟨found, hFound, -⟩
    · exact ⟨[], .ends hLeft, List.nil_subset _⟩
    · cases hFound
  | item hItem _ ih =>
    intro source hSource
    rcases hMerge hItem source hSource with ⟨left, mid, mid', hLeft⟩ | ⟨found, hFound, hRest⟩
    · exact ⟨[], .ends hLeft, List.nil_subset _⟩
    · cases hFound
      rcases hRest with hRest | ⟨next, hNext, mid, mid', hPull⟩
      · obtain ⟨own, hOwn, hSubset⟩ := ih source hRest
        exact ⟨own, hOwn, List.subset_cons_of_subset _ hSubset⟩
      · obtain ⟨own, hOwn, hSubset⟩ := ih next hNext
        exact ⟨_, .item hPull hOwn, List.cons_subset_cons _ hSubset⟩

end Merge

namespace Chain

variable {β τ φ : Type} {make : β → Option τ → Traced ε σ}
  {pull : σ → Traced ε (Option (Except φ τ) × σ)}

/-- The source of a level ends without an error, and so does what is made for each of its choices at the
levels behind it. -/
def Supplies (make : β → Option τ → Traced ε σ) (pull : σ → Traced ε (Option (Except φ τ) × σ)) :
    List β → σ → Prop
  | [], source => ∃ choices : List τ, Drains pull source (choices.map .ok)
  | maker :: behind, source => ∃ choices : List τ, Drains pull source (choices.map .ok) ∧
      ∀ choice ∈ choices, ∃ next log log', (make maker (some choice)).run log = .ok (next, log') ∧
        Supplies make pull behind next

theorem supplies_of_none {behind : List β} {source left : σ} {log log' : Array ε}
    (h : (pull source).run log = .ok ((none, left), log')) : Supplies make pull behind source := by
  cases behind with
  | nil => exact ⟨[], .ends h⟩
  | cons maker behind => exact ⟨[], .ends h, fun choice hChoice => absurd hChoice List.not_mem_nil⟩

theorem Supplies.of_last {source next : σ} {choice : τ} {log log' : Array ε}
    (h : Supplies make pull [] next)
    (hChoice : (pull source).run log = .ok ((some (.ok choice), next), log')) :
    Supplies make pull [] source := by
  obtain ⟨choices, hDrains⟩ := h
  exact ⟨choice :: choices, .item hChoice hDrains⟩

theorem Supplies.of_choice {maker : β} {behind : List β} {source next inner : σ} {choice : τ}
    {log log' mid mid' : Array ε} (h : Supplies make pull (maker :: behind) next)
    (hChoice : (pull source).run log = .ok ((some (.ok choice), next), log'))
    (hMake : (make maker (some choice)).run mid = .ok (inner, mid'))
    (hInner : Supplies make pull behind inner) : Supplies make pull (maker :: behind) source := by
  obtain ⟨choices, hDrains, hChoices⟩ := h
  refine ⟨choice :: choices, .item hChoice hDrains, fun other hOther => ?_⟩
  rcases List.mem_cons.mp hOther with rfl | hOther
  · exact ⟨inner, mid, mid', hMake, hInner⟩
  · exact hChoices other hOther

def Supplied (make : β → Option τ → Traced ε σ) (pull : σ → Traced ε (Option (Except φ τ) × σ)) :
    Chain β σ τ → Prop
  | .fresh first behind => ∃ source log log', (make first none).run log = .ok (source, log') ∧
      Supplies make pull behind source
  | .moving levels _ => ∀ level ∈ levels, Supplies make pull level.behind level.source

theorem supplied_moving_iff {source : σ} {behind : List β} {before : List (Level β σ)}
    (chosen chosen' : List τ) :
    (Chain.moving (⟨source, behind⟩ :: before) chosen).Supplied make pull ↔
      Supplies make pull behind source ∧ (Chain.moving before chosen').Supplied make pull :=
  List.forall_mem_cons

theorem supplied_of_advance {steps : Nat} {levels : List (Level β σ)} {chosen : List τ}
    {found : Option (Except φ (List τ))} {state : Chain β σ τ} {log log' : Array ε}
    (h : (advance make pull steps levels chosen).run log = .ok ((found, state), log'))
    (hFound : ∀ e, found ≠ some (.error e))
    (hState : found.isSome = true → state.Supplied make pull) :
    (Chain.moving levels chosen).Supplied make pull := by
  induction steps generalizing levels chosen log with
  | zero =>
    cases levels with
    | nil => exact fun level hLevel => absurd hLevel List.not_mem_nil
    | cons level before => cases h
  | succ steps ih =>
    cases levels with
    | nil => exact fun level hLevel => absurd hLevel List.not_mem_nil
    | cons level before =>
      obtain ⟨source, behind⟩ := level
      unfold advance at h
      obtain ⟨⟨pulled, left⟩, mid, hPull, h⟩ := Traced.run_bind_eq_ok_iff.mp h
      rw [supplied_moving_iff chosen chosen.tail]
      -- Each kind of step leaves levels that are supplied, and from these those in use now are rebuilt.
      rcases pulled with _ | e | choice
      · exact ⟨supplies_of_none hPull, ih h⟩
      · obtain ⟨hEnd, -⟩ := Traced.run_pure_eq_ok_iff.mp h
        cases hEnd
        exact absurd rfl (hFound e)
      · cases behind with
        | nil =>
          obtain ⟨hEnd, -⟩ := Traced.run_pure_eq_ok_iff.mp h
          cases hEnd
          obtain ⟨hLeft, hBefore⟩ := (supplied_moving_iff chosen chosen.tail).mp (hState rfl)
          exact ⟨hLeft.of_last hPull, hBefore⟩
        | cons maker behind =>
          obtain ⟨inner, mid', hMake, h⟩ := Traced.run_bind_eq_ok_iff.mp h
          obtain ⟨hInner, hRest⟩ := (supplied_moving_iff (choice :: chosen) chosen).mp (ih h)
          obtain ⟨hLeft, hBefore⟩ := (supplied_moving_iff chosen chosen.tail).mp hRest
          exact ⟨hLeft.of_choice hPull hMake hInner, hBefore⟩

theorem supplied_of_next {steps : Nat} {state state' : Chain β σ τ}
    {found : Option (Except φ (List τ))} {log log' : Array ε}
    (h : (state.next make pull steps).run log = .ok ((found, state'), log'))
    (hFound : ∀ e, found ≠ some (.error e))
    (hState : found.isSome = true → state'.Supplied make pull) : state.Supplied make pull := by
  cases state with
  | fresh first behind =>
    obtain ⟨source, mid, hMake, h⟩ := Traced.run_bind_eq_ok_iff.mp h
    have hLevels := supplied_of_advance h hFound hState
    exact ⟨source, log, mid, hMake, hLevels _ List.mem_cons_self⟩
  | moving levels chosen => exact supplied_of_advance h hFound hState

theorem supplied_of_drains {steps : Nat} {state : Chain β σ τ} {chains : List (Except φ (List τ))}
    (h : Drains (Chain.next make pull steps) state chains) (hChains : ∀ e, .error e ∉ chains) :
    state.Supplied make pull := by
  induction h with
  | ends hNone => exact supplied_of_next hNone (fun e he => nomatch he) fun hSome => nomatch hSome
  | item hItem _ ih =>
    refine supplied_of_next hItem (fun e he => ?_) fun _ => ih fun e he => ?_
    · cases he
      exact hChains e List.mem_cons_self
    · exact hChains e (List.mem_cons_of_mem _ he)

end Chain

end Enumeration

open Enumeration Filter

variable {V : Type} [OfToken V] {g : Grammar V} {tokens : List Token}

namespace Stream

variable {fuel : Nat} {items : List (Item V)}

theorem drains_merge {merge : List (Stream V) → Traced (Call V) (Option (Item V) × List (Stream V))}
    {whole : List (Stream V) → Stream V}
    (hMerge : ∀ streams, pull g tokens (fuel + 1) (whole streams) = do
      let (item, rest) ← merge streams
      pure (item, whole rest))
    {streams : List (Stream V)} (h : Drains (pull g tokens (fuel + 1)) (whole streams) items) :
    Drains merge streams items := by
  generalize hSource : whole streams = source at h
  induction h generalizing streams with
  | ends hNone =>
    subst hSource
    rw [hMerge] at hNone
    obtain ⟨⟨item, rest⟩, mid, hStreams, hEnd⟩ := Traced.run_bind_eq_ok_iff.mp hNone
    obtain ⟨hEq, -⟩ := Traced.run_pure_eq_ok_iff.mp hEnd
    cases hEq
    exact .ends hStreams
  | item hItem _ ih =>
    subst hSource
    rw [hMerge] at hItem
    obtain ⟨⟨item, rest⟩, mid, hStreams, hEnd⟩ := Traced.run_bind_eq_ok_iff.mp hItem
    obtain ⟨hEq, -⟩ := Traced.run_pure_eq_ok_iff.mp hEnd
    cases hEq
    exact .item hStreams (ih rfl)

theorem drains_chains {rule : Rule V} {reducer : Reducer V} {start stop : Nat}
    {state : Chain Symbol (Stream V) (Derivation V)} (hReducer : rule.reducer = some reducer)
    (h : Drains (pull g tokens (fuel + 1)) (.chains rule start stop state) items) :
    ∃ chains, Drains (Chain.next (fun symbol previous =>
        Traced.ofExcept (rule.symbolStream g tokens start stop symbol previous)) (pull g tokens fuel) fuel)
        state chains ∧ ∀ e, .error e ∈ chains → .error e ∈ items := by
  generalize hSource : Stream.chains rule start stop state = source at h
  induction h generalizing state with
  | ends hNone =>
    subst hSource
    obtain ⟨chain, state', mid, hState, hEq, -⟩ := run_next_chains.mp hNone
    cases chain with
    | none => exact ⟨[], .ends hState, fun e he => absurd he List.not_mem_nil⟩
    | some chain =>
      cases chain with
      | error e => cases hEq
      | ok chain =>
        rw [rule.concluded_of_reducer hReducer] at hEq
        cases hEq
  | item hItem _ ih =>
    subst hSource
    obtain ⟨chain, state', mid, hState, hEq, -⟩ := run_next_chains.mp hItem
    cases chain with
    | none => cases hEq
    | some found =>
      obtain ⟨hItem, hLeft⟩ := Prod.mk.inj hEq
      obtain ⟨chains, hChains, hErrors⟩ := ih hLeft.symm
      refine ⟨found :: chains, .item hState hChains, fun e he => ?_⟩
      rcases List.mem_cons.mp he with rfl | he
      · cases hItem
        exact List.mem_cons_self
      · exact List.mem_cons_of_mem _ (hErrors e he)

theorem not_drains_zero {source : Stream V} : ¬ Drains (pull g tokens 0) source items := by
  intro h
  cases h with
  | ends hNone => cases hNone
  | item hItem _ => cases hItem

theorem eq_of_drains {source : Stream V} {items items' : List (Item V)}
    (h : Drains (pull g tokens fuel) source items) (h' : source.Enumerates g tokens items') :
    items' = items := by
  induction h generalizing items' with
  | ends hNone =>
    cases h' with
    | ends => rfl
    | item hItem _ =>
      obtain ⟨hEq, -⟩ := Gives.unique ⟨_, _, _, hNone⟩ hItem
      cases hEq
  | item hPull _ ih =>
    cases h' with
    | ends hNone _ =>
      obtain ⟨hEq, -⟩ := Gives.unique ⟨_, _, _, hPull⟩ hNone
      cases hEq
    | item hItem hRest =>
      obtain ⟨hEq, rfl⟩ := Gives.unique ⟨_, _, _, hPull⟩ hItem
      cases hEq
      rw [ih hRest]

theorem Enumerates.drains {source : Stream V} {items : List (Item V)}
    (h : source.Enumerates g tokens items) :
    ∀ᶠ fuel in atTop, Drains (pull g tokens fuel) source items := by
  induction h with
  | ends hNone _ =>
    obtain ⟨least, hRun⟩ := hNone.exists_fuel
    filter_upwards [eventually_ge_atTop least] with fuel hFuel
    obtain ⟨log, hLog⟩ := hRun fuel hFuel #[]
    exact .ends hLog
  | item hItem _ ih =>
    obtain ⟨least, hRun⟩ := hItem.exists_fuel
    filter_upwards [eventually_ge_atTop least, ih] with fuel hFuel hRest
    obtain ⟨log, hLog⟩ := hRun fuel hFuel #[]
    exact .item hLog hRest

end Stream

def Covers (g : Grammar V) (tokens : List Token) (fuel : Nat)
    (list : Symbol → Nat → Nat → Option Terminal → Option (List (Item V))) : Prop :=
  ∀ {symbol start stop hint source} {derivations : List (Derivation V)},
    g.stream tokens symbol start stop hint = .ok source →
    Drains (Stream.pull g tokens fuel) source (derivations.map .ok) →
      list symbol start stop hint = some (derivations.map .ok)

namespace Covers

variable {fuel : Nat} {list : Symbol → Nat → Nat → Option Terminal → Option (List (Item V))}
  {rule : Rule V} {reducer : Reducer V} {start stop : Nat}

theorem collect_of_supplies (hList : Covers g tokens fuel list) (reducer : Reducer V)
    {behind : List Symbol} {source : Stream V}
    (h : Chain.Supplies (fun symbol previous => Traced.ofExcept
      (rule.symbolStream g tokens start stop symbol previous)) (Stream.pull g tokens fuel) behind source) :
    ∃ choices : List (Derivation V), Drains (Stream.pull g tokens fuel) source (choices.map .ok) ∧
      ∀ chosen, ∃ r, collect (rule.follow (list · · stop none) reducer start behind chosen)
        (choices.map .ok) = some r := by
  induction behind generalizing source with
  | nil =>
    obtain ⟨choices, hDrains⟩ := h
    exact ⟨choices, hDrains, fun chosen => collect_isSome fun d _ => ⟨_, rfl⟩⟩
  | cons symbol behind ih =>
    obtain ⟨choices, hDrains, hChoices⟩ := h
    refine ⟨choices, hDrains, fun chosen => collect_isSome fun d hd => ?_⟩
    obtain ⟨d, hMem, hEq⟩ := List.mem_map.mp hd
    cases hEq
    obtain ⟨next, log, log', hMake, hNext⟩ := hChoices d hMem
    obtain ⟨hStream, -⟩ := Traced.run_ofExcept_eq_ok_iff.mp hMake
    obtain ⟨later, hLater, hCollect⟩ := ih hNext
    obtain ⟨r, hr⟩ := hCollect (d :: chosen)
    exact ⟨r, by rw [Rule.follow, hList hStream hLater]; exact hr⟩

theorem items?_isSome (hList : ∀ less < fuel, Covers g tokens less list)
    {derivations : List (Derivation V)}
    (h : Drains (Stream.pull g tokens fuel) (rule.stream start stop) (derivations.map .ok)) :
    ∃ items, rule.items? list start stop = some items := by
  cases fuel with
  | zero => exact absurd h Stream.not_drains_zero
  | succ fuel =>
    have hList : Covers g tokens fuel list := hList fuel (Nat.lt_succ_self fuel)
    unfold Rule.items?
    split
    · rename_i reducer first behind hReducer hSymbols
      split
      · rename_i hStart
        have hHas : rule.hasReducer = true := by rw [Rule.hasReducer, hReducer]; rfl
        rw [Rule.stream, if_pos (by simp [hStart, hHas]), hSymbols] at h
        obtain ⟨chains, hChains, hErrors⟩ := Stream.drains_chains hReducer h
        obtain ⟨source, log, log', hMake, hSupplies⟩ := Chain.supplied_of_drains hChains fun e he => by
          simpa using hErrors e he
        obtain ⟨hStream, -⟩ := Traced.run_ofExcept_eq_ok_iff.mp hMake
        obtain ⟨choices, hDrains, hCollect⟩ := hList.collect_of_supplies reducer hSupplies
        obtain ⟨⟨found, failure⟩, hFound⟩ := hCollect []
        refine ⟨found ++ closing failure [], ?_⟩
        rw [hList hStream hDrains]
        simp only [Option.bind_eq_bind, Option.bind_some, hFound]
      · exact ⟨_, rfl⟩
    · exact ⟨_, rfl⟩

end Covers

theorem Stream.drains_of_mem {nt : NonTerminal V} {start stop fuel : Nat} {hint : Option Terminal}
    {derivations : List (Derivation V)} (hStart : start < stop)
    (h : Drains (pull g tokens (fuel + 1)) (nt.stream tokens start stop hint)
      (derivations.map .ok)) {rule : Rule V} (hRule : rule ∈ nt.rules) :
    ∃ own : List (Derivation V), Drains (pull g tokens fuel)
      (rule.stream start (nt.bound tokens start stop hint)) (own.map .ok) := by
  have hMem := List.mem_map_of_mem
    (f := fun rule : Rule V => rule.stream start (nt.bound tokens start stop hint)) hRule
  rw [NonTerminal.stream, if_pos hStart] at h
  obtain ⟨own, hOwn, hSubset⟩ : ∃ own, Drains (pull g tokens fuel)
      (rule.stream start (nt.bound tokens start stop hint)) own ∧ own ⊆ derivations.map .ok := by
    cases hAlternation : nt.alternation with
    | roundRobin =>
      simp only [hAlternation] at h
      exact merges_nextInTurn.drains (drains_merge (fun _ => rfl) h) _ hMem
    | sequential =>
      simp only [hAlternation] at h
      exact merges_nextInOrder.drains (drains_merge (fun _ => rfl) h) _ hMem
  have hRange : own ∈ Set.range (List.map (.ok : Derivation V → Item V)) := by
    rw [Set.range_list_map]
    intro item hItem
    obtain ⟨d, -, rfl⟩ := List.mem_map.mp (hSubset hItem)
    exact ⟨d, rfl⟩
  obtain ⟨chosen, rfl⟩ := hRange
  exact ⟨chosen, hOwn⟩

theorem Grammar.covers_items? (fuel : Nat) : ∀ depth ≥ fuel, Covers g tokens fuel (g.items? tokens depth) := by
  -- The induction is strong, since the streams that a rule's chains are made of lie two levels of fuel below
  -- the non-terminal, and only one level of nesting.
  induction fuel using Nat.strong_induction_on with
  | _ fuel ih =>
    intro depth hDepth symbol start stop hint source derivations hSource h
    cases fuel with
    | zero => exact absurd h Stream.not_drains_zero
    | succ fuel =>
      obtain ⟨depth, rfl⟩ : ∃ n, depth = n + 1 := ⟨depth - 1, by omega⟩
      obtain ⟨items, hItems⟩ : ∃ items, g.items? tokens (depth + 1) symbol start stop hint = some items := by
        cases symbol with
        | terminal t => exact ⟨_, rfl⟩
        | nonTerminal index =>
          cases hNt : g.get? index with
          | none => simp [Grammar.stream, hNt] at hSource
          | some nt =>
            simp only [Grammar.stream, hNt, Except.ok.injEq] at hSource
            subst hSource
            simp only [Grammar.items?, hNt, Option.bind_eq_bind, Option.bind_some]
            split
            · rename_i hStart
              obtain ⟨lists, hLists⟩ := mapM_isSome fun rule hRule => by
                obtain ⟨own, hOwn⟩ := Stream.drains_of_mem hStart h hRule
                exact Covers.items?_isSome (fun less hLess => ih less (by omega) depth (by omega)) hOwn
              exact ⟨nt.alternation.merge lists, by rw [hLists]; rfl⟩
            · exact ⟨_, rfl⟩
      obtain ⟨source', hSource', hEnumerates⟩ := g.lists_items? (depth + 1) hItems
      rw [hSource] at hSource'
      cases hSource'
      rw [hItems, Stream.eq_of_drains h hEnumerates]

/-- What a stream of a symbol is seen to enumerate without an error is listed at some depth of nesting. -/
theorem Stream.Enumerates.exists_items? {symbol : Symbol} {start stop : Nat} {hint : Option Terminal}
    {source : Stream V} {derivations : List (Derivation V)}
    (hSource : g.stream tokens symbol start stop hint = .ok source)
    (h : source.Enumerates g tokens (derivations.map .ok)) :
    ∃ depth, g.items? tokens depth symbol start stop hint = some (derivations.map .ok) := by
  obtain ⟨fuel, hDrains⟩ := h.drains.exists
  exact ⟨fuel, Grammar.covers_items? fuel fuel (Nat.le_refl fuel) hSource hDrains⟩

end Lexigram
