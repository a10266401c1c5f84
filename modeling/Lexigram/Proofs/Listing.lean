import Mathlib.Data.List.Forall2
import Lexigram.Proofs.Pulls

/-! # Enumerations as lists

`Grammar.items?` lists everything that the stream of a symbol gives, computed at once by recursion on
how deeply symbols are nested. The main statement is that a stream enumerates exactly the items listed,
so what holds of the lists holds of the lazy enumeration.
-/

namespace Lexigram

namespace Enumeration

variable {α : Type}

def takeTurns : List (List α) → List α
  | [] => []
  | [] :: waiting => takeTurns waiting
  | (a :: rest) :: waiting => a :: takeTurns (waiting ++ [rest])
termination_by lists => lists.flatten.length + lists.length
decreasing_by
  · simp only [List.flatten_cons, List.nil_append, List.length_cons]
    omega
  · simp only [List.flatten_cons, List.flatten_append, List.flatten_nil, List.length_append,
      List.length_cons, List.length_nil]
    omega

theorem takeTurns_perm (lists : List (List α)) : (takeTurns lists).Perm lists.flatten := by
  induction lists using takeTurns.induct with
  | case1 =>
    rw [takeTurns]
    exact .nil
  | case2 waiting ih =>
    rw [takeTurns]
    exact ih
  | case3 a rest waiting ih =>
    rw [takeTurns, List.flatten_cons, List.cons_append]
    apply List.Perm.cons
    refine ih.trans ?_
    rw [List.flatten_append, List.flatten_singleton]
    exact List.perm_append_comm

theorem takeTurns_map {β : Type} (f : α → β) (lists : List (List α)) :
    takeTurns (lists.map (List.map f)) = (takeTurns lists).map f := by
  induction lists using takeTurns.induct with
  | case1 => simp [takeTurns]
  | case2 waiting ih => simpa [takeTurns] using ih
  | case3 a rest waiting ih => simpa [takeTurns] using ih

end Enumeration

def Alternation.merge {α : Type} : Alternation → List (List α) → List α
  | .roundRobin => Enumeration.takeTurns
  | .sequential => List.flatten

theorem Alternation.merge_perm {α : Type} (alternation : Alternation) (lists : List (List α)) :
    (alternation.merge lists).Perm lists.flatten := by
  cases alternation with
  | roundRobin => exact Enumeration.takeTurns_perm lists
  | sequential => exact .refl _

theorem Alternation.merge_map {α β : Type} (alternation : Alternation) (f : α → β)
    (lists : List (List α)) : alternation.merge (lists.map (List.map f)) = (alternation.merge lists).map f := by
  cases alternation with
  | roundRobin => exact Enumeration.takeTurns_map f lists
  | sequential => exact (List.map_flatten).symm

variable {V : Type}

/-- What follows the items of one level of a chain, given what follows each choice: items, and the
error that cuts the enumeration off, if there is one. -/
def collect (follow : Derivation V → Option (List (Item V) × Option ReductionError)) :
    List (Item V) → Option (List (Item V) × Option ReductionError)
  | [] => some ([], none)
  | .error e :: _ => some ([], some e)
  | .ok d :: rest => do
    match ← follow d with
    | (items, some e) => some (items, some e)
    | (items, none) =>
      let (later, failure) ← collect follow rest
      some (items ++ later, failure)

/-- How an enumeration goes on: with the later items, unless an error cuts it off. -/
def closing (failure : Option ReductionError) (later : List (Item V)) : List (Item V) :=
  match failure with
  | none => later
  | some e => [.error e]

theorem collect_ok_cons_eq_some
    {follow : Derivation V → Option (List (Item V) × Option ReductionError)} {d : Derivation V}
    {rest items : List (Item V)} {failure : Option ReductionError}
    (h : collect follow (.ok d :: rest) = some (items, failure)) :
    (∃ e, follow d = some (items, some e) ∧ failure = some e) ∨
      ∃ found later, follow d = some (found, none) ∧
        collect follow rest = some (later, failure) ∧ items = found ++ later := by
  obtain ⟨⟨found, failed⟩, hFollow, h⟩ := Option.bind_eq_some_iff.mp h
  cases failed with
  | some e =>
    cases h
    exact .inl ⟨e, hFollow, rfl⟩
  | none =>
    obtain ⟨⟨later, failure'⟩, hRest, h⟩ := Option.bind_eq_some_iff.mp h
    cases h
    exact .inr ⟨found, later, hFollow, hRest, rfl⟩

namespace Rule

/-- What follows the choice `d` for one symbol of the rule, after the choices made before it, the last
one first. -/
def follow (list : Symbol → Nat → Option (List (Item V))) (rule : Rule V) (reducer : Reducer V)
    (start : Nat) : List Symbol → List (Derivation V) → Derivation V →
      Option (List (Item V) × Option ReductionError)
  | [], chosen, d => some ([rule.itemOf reducer start (d :: chosen).reverse], none)
  | symbol :: behind, chosen, d => do
    collect (follow list rule reducer start behind (d :: chosen)) (← list symbol d.next)

def items? (list : Symbol → Nat → Nat → Option Terminal → Option (List (Item V))) (rule : Rule V)
    (start stop : Nat) : Option (List (Item V)) :=
  match rule.reducer, rule.symbols with
  | some reducer, first :: behind =>
    if start < stop then do
      let (items, failure) ← collect
        (rule.follow (list · · stop none) reducer start behind []) (← list first start stop rule.hint)
      some (items ++ closing failure [])
    else some []
  | _, _ => some []

end Rule

def Terminal.items [OfToken V] (terminal : Terminal) (tokens : List Token) (start stop : Nat) :
    List (Item V) :=
  match tokens[start]? with
  | some token =>
    if start < stop && token.isOf terminal then [.ok ⟨OfToken.ofToken token, start + 1⟩] else []
  | none => []

/-- All items of the symbol over `[start, stop)`, unless symbols are nested more deeply than `depth`. -/
def Grammar.items? [OfToken V] (g : Grammar V) (tokens : List Token) :
    Nat → Symbol → Nat → Nat → Option Terminal → Option (List (Item V))
  | 0, _, _, _, _ => none
  | _ + 1, .terminal t, start, stop, _ => some (t.items tokens start stop)
  | depth + 1, .nonTerminal index, start, stop, hint => do
    let nt ← g.get? index
    if start < stop then
      let lists ← nt.rules.mapM
        (·.items? (g.items? tokens depth) start (nt.bound tokens start stop hint))
      some (nt.alternation.merge lists)
    else some []

variable [OfToken V] {g : Grammar V} {tokens : List Token}

namespace Stream

theorem Enumerates.of_gives {source other : Stream V} {items : List (Item V)}
    (h : source.Enumerates g tokens items)
    (hGives : ∀ {item left}, source.Gives g tokens item left → other.Gives g tokens item left) :
    other.Enumerates g tokens items := by
  cases h with
  | ends hNone hLeft => exact .ends (hGives hNone) hLeft
  | item hItem hRest => exact .item (hGives hItem) hRest

theorem enumerates_empty : (.empty : Stream V).Enumerates g tokens [] :=
  .ends Pulls.inOrderEnd.gives Pulls.inOrderEnd.gives

theorem enumerates_once (d : Derivation V) : (Stream.once d).Enumerates g tokens [.ok d] :=
  .item (Pulls.once d).gives enumerates_empty

theorem enumerates_inTurn {streams : List (Stream V)} {lists : List (List (Item V))}
    (h : List.Forall₂ (Enumerates g tokens) streams lists) :
    (Stream.inTurn streams).Enumerates g tokens (Enumeration.takeTurns lists) := by
  induction lists using Enumeration.takeTurns.induct generalizing streams with
  | case1 =>
    cases h
    rw [Enumeration.takeTurns]
    exact .ends Pulls.inTurnEnd.gives Pulls.inTurnEnd.gives
  | case2 waiting ih =>
    cases h with
    | cons hFirst hWaiting =>
      cases hFirst with
      | ends hNone _ =>
        obtain ⟨calls, hPulls⟩ := gives_iff_exists_pulls.mp hNone
        rw [Enumeration.takeTurns]
        refine (ih hWaiting).of_gives fun hGives => ?_
        obtain ⟨calls', hPulls'⟩ := gives_iff_exists_pulls.mp hGives
        exact (Pulls.inTurnSkip hPulls hPulls').gives
  | case3 item rest waiting ih =>
    cases h with
    | cons hFirst hWaiting =>
      cases hFirst with
      | item hItem hRest =>
        obtain ⟨calls, hPulls⟩ := gives_iff_exists_pulls.mp hItem
        rw [Enumeration.takeTurns]
        exact .item hPulls.inTurnItem.gives (ih (List.rel_append hWaiting (.cons hRest .nil)))

theorem enumerates_inOrder {streams : List (Stream V)} {lists : List (List (Item V))}
    (h : List.Forall₂ (Enumerates g tokens) streams lists) :
    (Stream.inOrder streams).Enumerates g tokens lists.flatten := by
  induction h with
  | nil => exact enumerates_empty
  | @cons stream list streams lists hFirst _ ih =>
    rw [List.flatten_cons]
    induction hFirst with
    | ends hNone _ =>
      obtain ⟨calls, hPulls⟩ := gives_iff_exists_pulls.mp hNone
      refine ih.of_gives fun hGives => ?_
      obtain ⟨calls', hPulls'⟩ := gives_iff_exists_pulls.mp hGives
      exact (Pulls.inOrderSkip hPulls hPulls').gives
    | item hItem _ ihRest =>
      obtain ⟨calls, hPulls⟩ := gives_iff_exists_pulls.mp hItem
      exact .item hPulls.inOrderItem.gives ihRest

section Chains

variable {rule : Rule V} {start stop : Nat} {behind : List Symbol}
  {before : List (Enumeration.Level Symbol (Stream V))} {chosen : List (Derivation V)}
  {source source' : Stream V} {items : List (Item V)}

theorem enumerates_finished :
    (Stream.chains rule start stop .finished).Enumerates g tokens [] :=
  .ends Pulls.finished.gives Pulls.finished.gives

theorem Enumerates.of_back (hSource : source.Gives g tokens none source')
    (h : (Stream.chains rule start stop (.moving before chosen.tail)).Enumerates g tokens items) :
    (Stream.chains rule start stop (.moving (⟨source, behind⟩ :: before) chosen)).Enumerates g tokens
      items := by
  obtain ⟨calls, hPulls⟩ := gives_iff_exists_pulls.mp hSource
  refine h.of_gives fun hGives => ?_
  obtain ⟨calls', hPulls'⟩ := gives_iff_exists_pulls.mp hGives
  exact (Pulls.back hPulls hPulls').gives

theorem enumerates_failed {e : ReductionError}
    (hSource : source.Gives g tokens (some (.error e)) source') :
    (Stream.chains rule start stop (.moving (⟨source, behind⟩ :: before) chosen)).Enumerates g tokens
      [.error e] := by
  obtain ⟨calls, hPulls⟩ := gives_iff_exists_pulls.mp hSource
  exact .item (Pulls.failed hPulls).gives enumerates_finished

theorem Enumerates.of_forward {symbol : Symbol} {choice : Derivation V} {next : Stream V}
    (hSource : source.Gives g tokens (some (.ok choice)) source')
    (hNext : g.stream tokens symbol choice.next stop none = .ok next)
    (h : (Stream.chains rule start stop (.moving
      (⟨next, behind⟩ :: ⟨source', symbol :: behind⟩ :: before) (choice :: chosen))).Enumerates
      g tokens items) :
    (Stream.chains rule start stop (.moving (⟨source, symbol :: behind⟩ :: before) chosen)).Enumerates
      g tokens items := by
  obtain ⟨calls, hPulls⟩ := gives_iff_exists_pulls.mp hSource
  refine h.of_gives fun hGives => ?_
  obtain ⟨calls', hPulls'⟩ := gives_iff_exists_pulls.mp hGives
  exact (Pulls.forward hPulls hNext hPulls').gives

theorem Enumerates.of_complete {reducer : Reducer V} {choice : Derivation V}
    (hReducer : rule.reducer = some reducer)
    (hSource : source.Gives g tokens (some (.ok choice)) source')
    (h : (Stream.chains rule start stop (.moving (⟨source', []⟩ :: before) chosen)).Enumerates
      g tokens items) :
    (Stream.chains rule start stop (.moving (⟨source, []⟩ :: before) chosen)).Enumerates g tokens
      (rule.itemOf reducer start (choice :: chosen).reverse :: items) := by
  obtain ⟨calls, hPulls⟩ := gives_iff_exists_pulls.mp hSource
  have hConcluded := rule.concluded_of_reducer hReducer start (choice :: chosen).reverse
  exact .item (Pulls.complete hPulls hConcluded).gives h

end Chains

/-- The items of the deepest level and of the levels before it, once `collect` says what the deepest
level gives. The induction is on the symbols behind it, then on its items. -/
theorem enumerates_level {rule : Rule V} {reducer : Reducer V} {start stop : Nat}
    {list : Symbol → Nat → Option (List (Item V))} (hReducer : rule.reducer = some reducer)
    (hList : ∀ {symbol from' items}, list symbol from' = some items →
      ∃ source, g.stream tokens symbol from' stop none = .ok source ∧
        source.Enumerates g tokens items)
    {behind : List Symbol} {before : List (Enumeration.Level Symbol (Stream V))}
    {chosen : List (Derivation V)} {source : Stream V} {here items later : List (Item V)}
    {failure : Option ReductionError} (hSource : source.Enumerates g tokens here)
    (hCollect : collect (rule.follow list reducer start behind chosen) here = some (items, failure))
    (hLater : failure = none →
      (Stream.chains rule start stop (.moving before chosen.tail)).Enumerates g tokens later) :
    (Stream.chains rule start stop (.moving (⟨source, behind⟩ :: before) chosen)).Enumerates g tokens
      (items ++ closing failure later) := by
  induction behind generalizing before chosen source here items later failure with
  | nil =>
    induction here generalizing source items failure with
    | nil =>
      cases hCollect
      cases hSource with
      | ends hNone _ => exact (hLater rfl).of_back hNone
    | cons item rest ih =>
      cases hSource with
      | item hItem hRest =>
        cases item with
        | error e =>
          cases hCollect
          exact enumerates_failed hItem
        | ok d =>
          rcases collect_ok_cons_eq_some hCollect with ⟨e, hFollow, -⟩ | ⟨found, rest', hFollow, hRest', rfl⟩
          · cases hFollow
          · cases hFollow
            exact .of_complete hReducer hItem (ih hRest hRest' hLater)
  | cons symbol behind ihBehind =>
    induction here generalizing source items failure with
    | nil =>
      cases hCollect
      cases hSource with
      | ends hNone _ => exact (hLater rfl).of_back hNone
    | cons item rest ih =>
      cases hSource with
      | item hItem hRest =>
        cases item with
        | error e =>
          cases hCollect
          exact enumerates_failed hItem
        | ok d =>
          rcases collect_ok_cons_eq_some hCollect with
            ⟨e, hFollow, rfl⟩ | ⟨found, rest', hFollow, hRest', rfl⟩
          · obtain ⟨inner, hInner, hFollow⟩ := Option.bind_eq_some_iff.mp hFollow
            obtain ⟨next, hNext, hNextItems⟩ := hList hInner
            exact .of_forward hItem hNext (ihBehind hNextItems hFollow (fun h => nomatch h))
          · obtain ⟨inner, hInner, hFollow⟩ := Option.bind_eq_some_iff.mp hFollow
            obtain ⟨next, hNext, hNextItems⟩ := hList hInner
            have hWhole := ihBehind hNextItems hFollow fun _ => ih hRest hRest' hLater
            rw [List.append_assoc]
            exact .of_forward hItem hNext hWhole

/-- A list computed from a symbol, a range and a hint tells what the stream enumerates. -/
def Lists (g : Grammar V) (tokens : List Token)
    (list : Symbol → Nat → Nat → Option Terminal → Option (List (Item V))) : Prop :=
  ∀ {symbol start stop hint items}, list symbol start stop hint = some items →
    ∃ source, g.stream tokens symbol start stop hint = .ok source ∧
      source.Enumerates g tokens items

namespace Lists

variable {list : Symbol → Nat → Nat → Option Terminal → Option (List (Item V))}

theorem enumerates_rule (hList : Lists g tokens list) {rule : Rule V} {start stop : Nat}
    {items : List (Item V)} (h : rule.items? list start stop = some items) :
    (rule.stream start stop).Enumerates g tokens items := by
  unfold Rule.items? at h
  unfold Rule.stream
  split at h
  · rename_i reducer first behind hReducer hSymbols
    have hHas : rule.hasReducer = true := by rw [Rule.hasReducer, hReducer]; rfl
    split at h
    · rename_i hStart
      obtain ⟨here, hHere, h⟩ := Option.bind_eq_some_iff.mp h
      obtain ⟨⟨found, failure⟩, hCollect, h⟩ := Option.bind_eq_some_iff.mp h
      cases h
      obtain ⟨source, hSource, hItems⟩ := hList hHere
      rw [if_pos (by simp [hStart, hHas]), hSymbols]
      have hLevel := enumerates_level hReducer (fun h => hList h) hItems hCollect
        fun _ => enumerates_finished
      refine hLevel.of_gives fun hGives => ?_
      obtain ⟨calls, hPulls⟩ := gives_iff_exists_pulls.mp hGives
      exact (Pulls.begin hSource hPulls).gives
    · rename_i hStart
      cases h
      rw [if_neg (by simp [hStart])]
      exact enumerates_empty
  · rename_i hNot
    cases h
    split
    · rename_i hSome
      rw [Bool.and_eq_true, Rule.hasReducer, Option.isSome_iff_exists] at hSome
      obtain ⟨-, reducer, hReducer⟩ := hSome
      split
      · exact enumerates_empty
      · rename_i first behind hSymbols
        exact (hNot reducer first behind hReducer hSymbols).elim
    · exact enumerates_empty

theorem forall₂_of_mapM {α β : Type} {f : α → Option β} {as : List α} {bs : List β}
    (h : as.mapM f = some bs) : List.Forall₂ (fun a b => f a = some b) as bs := by
  induction as generalizing bs with
  | nil =>
    cases h
    exact .nil
  | cons a as ih =>
    rw [List.mapM_cons] at h
    obtain ⟨b, hb, h⟩ := Option.bind_eq_some_iff.mp h
    obtain ⟨bs, hbs, h⟩ := Option.bind_eq_some_iff.mp h
    cases h
    exact .cons hb (ih hbs)

theorem enumerates_merge {alternation : Alternation} {streams : List (Stream V)}
    {lists : List (List (Item V))} (h : List.Forall₂ (Enumerates g tokens) streams lists) :
    (match alternation with
      | .roundRobin => Stream.inTurn streams
      | .sequential => Stream.inOrder streams).Enumerates g tokens (alternation.merge lists) := by
  cases alternation with
  | roundRobin => exact enumerates_inTurn h
  | sequential => exact enumerates_inOrder h

end Lists

end Stream

theorem Terminal.enumerates_items (terminal : Terminal) (start stop : Nat) :
    (terminal.stream tokens start stop : Stream V).Enumerates g tokens
      (terminal.items tokens start stop) := by
  unfold Terminal.stream Terminal.items
  cases tokens[start]? with
  | none => exact Stream.enumerates_empty
  | some token =>
    dsimp only
    by_cases h : (decide (start < stop) && token.isOf terminal) = true
    · rw [if_pos h, if_pos h]
      exact Stream.enumerates_once _
    · rw [if_neg h, if_neg h]
      exact Stream.enumerates_empty

theorem Grammar.lists_items? (depth : Nat) : Stream.Lists g tokens (g.items? tokens depth) := by
  induction depth with
  | zero =>
    intro symbol start stop hint items h
    cases h
  | succ depth ih =>
    intro symbol start stop hint items h
    cases symbol with
    | terminal t =>
      cases h
      exact ⟨_, rfl, t.enumerates_items start stop⟩
    | nonTerminal index =>
      obtain ⟨nt, hNt, h⟩ := Option.bind_eq_some_iff.mp h
      refine ⟨nt.stream tokens start stop hint, by simp only [Grammar.stream, hNt], ?_⟩
      unfold NonTerminal.stream
      split at h
      · rename_i hStart
        obtain ⟨lists, hLists, h⟩ := Option.bind_eq_some_iff.mp h
        cases h
        rw [if_pos hStart]
        apply Stream.Lists.enumerates_merge
        rw [List.forall₂_map_left_iff]
        exact (Stream.Lists.forall₂_of_mapM hLists).imp fun _ _ h => ih.enumerates_rule h
      · rename_i hStart
        cases h
        rw [if_neg hStart]
        exact Stream.enumerates_empty

end Lexigram
