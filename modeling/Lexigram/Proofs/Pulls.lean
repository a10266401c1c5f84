import Lexigram.Grammar.Stream
import Lexigram.Proofs.Traced

/-! # Pulling without fuel

`Stream.Pulls` says what one pull of a stream gives, what it leaves and which calls it makes, by one
rule for each thing a pull can do. A pull that is run on fuel returns exactly what the relation says, so
fuel bounds the work and changes no answer, and neither does the log that a pull starts with.
-/

namespace Lexigram

variable {V : Type}

def chainEnd (start : Nat) (chain : List (Derivation V)) : Nat :=
  (chain.getLast?.map (·.next)).getD start

namespace Rule

def itemOf (rule : Rule V) (reducer : Reducer V) (start : Nat) (chain : List (Derivation V)) : Item V :=
  match reducer.apply (chain.map (·.value)) with
  | .ok value => .ok ⟨value, chainEnd start chain⟩
  | .error cause => .error ⟨rule.owner, rule.label, cause⟩

def callOf (rule : Rule V) (reducer : Reducer V) (chain : List (Derivation V)) : Call V :=
  ⟨rule.owner, rule.label, reducer.tag, chain.map (·.value), reducer.apply (chain.map (·.value))⟩

/-- The item for what an enumeration of chains gives, and the calls made for it. -/
def concluded (rule : Rule V) (start : Nat) :
    Option (Except ReductionError (List (Derivation V))) → Option (Item V) × Array (Call V)
  | none => (none, #[])
  | some (.error e) => (some (.error e), #[])
  | some (.ok chain) =>
    match rule.reducer with
    | none => (none, #[])
    | some reducer => (some (rule.itemOf reducer start chain), #[rule.callOf reducer chain])

theorem concluded_of_reducer (rule : Rule V) {reducer : Reducer V} (h : rule.reducer = some reducer)
    (start : Nat) (chain : List (Derivation V)) : rule.concluded start (some (.ok chain)) =
      (some (rule.itemOf reducer start chain), #[rule.callOf reducer chain]) := by
  simp only [concluded, h]

theorem run_reduce (rule : Rule V) (start : Nat) (chain : List (Derivation V))
    (log : Array (Call V)) :
    (rule.reduce start chain).run log = .ok ((rule.concluded start (some (.ok chain))).1,
      log ++ (rule.concluded start (some (.ok chain))).2) := by
  unfold reduce concluded itemOf callOf chainEnd
  cases rule.reducer with
  | none => exact Traced.run_pure_eq_ok_iff.mpr ⟨rfl, Array.append_empty.symm⟩
  | some reducer =>
    dsimp only
    rw [Traced.run_bind_of_ok (Traced.run_log _ _), Array.push_eq_append]
    cases reducer.apply (chain.map (·.value)) with
    | ok value => rfl
    | error cause => rfl

end Rule

namespace Stream

variable [OfToken V]

/-- One pull of a stream: the item it gives, what is left, and the calls it makes. -/
inductive Pulls (g : Grammar V) (tokens : List Token) :
    Stream V → Option (Item V) → Stream V → Array (Call V) → Prop
  | once (derivation : Derivation V) :
    Pulls g tokens (.once derivation) (some (.ok derivation)) .empty #[]
  | inTurnEnd : Pulls g tokens (.inTurn []) none (.inTurn []) #[]
  | inTurnItem {source source' : Stream V} {waiting : List (Stream V)} {item : Item V}
    {calls : Array (Call V)} (h : Pulls g tokens source (some item) source' calls) :
    Pulls g tokens (.inTurn (source :: waiting)) (some item) (.inTurn (waiting ++ [source'])) calls
  | inTurnSkip {source source' left : Stream V} {waiting : List (Stream V)}
    {item : Option (Item V)} {calls calls' : Array (Call V)}
    (h : Pulls g tokens source none source' calls)
    (h' : Pulls g tokens (.inTurn waiting) item left calls') :
    Pulls g tokens (.inTurn (source :: waiting)) item left (calls ++ calls')
  | inOrderEnd : Pulls g tokens (.inOrder []) none (.inOrder []) #[]
  | inOrderItem {source source' : Stream V} {waiting : List (Stream V)} {item : Item V}
    {calls : Array (Call V)} (h : Pulls g tokens source (some item) source' calls) :
    Pulls g tokens (.inOrder (source :: waiting)) (some item) (.inOrder (source' :: waiting)) calls
  | inOrderSkip {source source' left : Stream V} {waiting : List (Stream V)}
    {item : Option (Item V)} {calls calls' : Array (Call V)}
    (h : Pulls g tokens source none source' calls)
    (h' : Pulls g tokens (.inOrder waiting) item left calls') :
    Pulls g tokens (.inOrder (source :: waiting)) item left (calls ++ calls')
  | begin {rule : Rule V} {start stop : Nat} {first : Symbol} {behind : List Symbol}
    {source left : Stream V} {item : Option (Item V)} {calls : Array (Call V)}
    (h : rule.symbolStream g tokens start stop first none = .ok source)
    (h' : Pulls g tokens (.chains rule start stop (.moving [⟨source, behind⟩] [])) item left calls) :
    Pulls g tokens (.chains rule start stop (.fresh first behind)) item left calls
  | finished {rule : Rule V} {start stop : Nat} {chosen : List (Derivation V)} :
    Pulls g tokens (.chains rule start stop (.moving [] chosen)) none
      (.chains rule start stop .finished) #[]
  | back {rule : Rule V} {start stop : Nat} {source source' left : Stream V} {behind : List Symbol}
    {before : List (Enumeration.Level Symbol (Stream V))} {chosen : List (Derivation V)}
    {item : Option (Item V)} {calls calls' : Array (Call V)}
    (h : Pulls g tokens source none source' calls)
    (h' : Pulls g tokens (.chains rule start stop (.moving before chosen.tail)) item left calls') :
    Pulls g tokens (.chains rule start stop (.moving (⟨source, behind⟩ :: before) chosen)) item left
      (calls ++ calls')
  | failed {rule : Rule V} {start stop : Nat} {source source' : Stream V} {behind : List Symbol}
    {before : List (Enumeration.Level Symbol (Stream V))} {chosen : List (Derivation V)}
    {e : ReductionError} {calls : Array (Call V)}
    (h : Pulls g tokens source (some (.error e)) source' calls) :
    Pulls g tokens (.chains rule start stop (.moving (⟨source, behind⟩ :: before) chosen))
      (some (.error e)) (.chains rule start stop .finished) calls
  /-- A choice that more symbols follow opens the level of the next one. -/
  | forward {rule : Rule V} {start stop : Nat} {source source' next left : Stream V}
    {symbol : Symbol} {behind : List Symbol}
    {before : List (Enumeration.Level Symbol (Stream V))} {chosen : List (Derivation V)}
    {choice : Derivation V} {item : Option (Item V)} {calls calls' : Array (Call V)}
    (h : Pulls g tokens source (some (.ok choice)) source' calls)
    (hNext : rule.symbolStream g tokens start stop symbol (some choice) = .ok next)
    (h' : Pulls g tokens (.chains rule start stop
      (.moving (⟨next, behind⟩ :: ⟨source', symbol :: behind⟩ :: before) (choice :: chosen)))
      item left calls') :
    Pulls g tokens (.chains rule start stop (.moving (⟨source, symbol :: behind⟩ :: before) chosen))
      item left (calls ++ calls')
  | complete {rule : Rule V} {start stop : Nat} {source source' : Stream V}
    {before : List (Enumeration.Level Symbol (Stream V))} {chosen : List (Derivation V)}
    {choice : Derivation V} {item : Option (Item V)} {calls calls' : Array (Call V)}
    (h : Pulls g tokens source (some (.ok choice)) source' calls)
    (hItem : rule.concluded start (some (.ok (choice :: chosen).reverse)) = (item, calls')) :
    Pulls g tokens (.chains rule start stop (.moving (⟨source, []⟩ :: before) chosen)) item
      (.chains rule start stop (.moving (⟨source', []⟩ :: before) chosen)) (calls ++ calls')

variable {g : Grammar V} {tokens : List Token}

theorem run_next_chains {pull : Stream V → Traced (Call V) (Option (Item V) × Stream V)} {steps : Nat}
    {rule : Rule V} {start stop : Nat} {state : Enumeration.Chain Symbol (Stream V) (Derivation V)}
    {r : Option (Item V) × Stream V} {log log' : Array (Call V)} :
    ((Stream.chains rule start stop state).next g tokens pull steps).run log = .ok (r, log') ↔
      ∃ chain state' mid, (state.next (fun symbol previous => Traced.ofExcept
          (rule.symbolStream g tokens start stop symbol previous)) pull steps).run log =
            .ok ((chain, state'), mid) ∧
        r = ((rule.concluded start chain).1, .chains rule start stop state') ∧
        log' = mid ++ (rule.concluded start chain).2 := by
  unfold next
  rw [Traced.run_bind_eq_ok_iff]
  constructor
  · rintro ⟨⟨chain, state'⟩, mid, hState, h⟩
    refine ⟨chain, state', mid, hState, ?_⟩
    match chain with
    | none =>
      obtain ⟨rfl, rfl⟩ := Traced.run_pure_eq_ok_iff.mp h
      exact ⟨rfl, Array.append_empty.symm⟩
    | some (.error e) =>
      obtain ⟨rfl, rfl⟩ := Traced.run_pure_eq_ok_iff.mp h
      exact ⟨rfl, Array.append_empty.symm⟩
    | some (.ok chain) =>
      dsimp only at h
      rw [Traced.run_bind_of_ok (rule.run_reduce start chain mid)] at h
      obtain ⟨rfl, rfl⟩ := Traced.run_pure_eq_ok_iff.mp h
      exact ⟨rfl, rfl⟩
  · rintro ⟨chain, state', mid, hState, rfl, rfl⟩
    refine ⟨(chain, state'), mid, hState, ?_⟩
    match chain with
    | none => exact Traced.run_pure_eq_ok_iff.mpr ⟨rfl, Array.append_empty.symm⟩
    | some (.error e) => exact Traced.run_pure_eq_ok_iff.mpr ⟨rfl, Array.append_empty.symm⟩
    | some (.ok chain) =>
      dsimp only
      rw [Traced.run_bind_of_ok (rule.run_reduce start chain mid)]
      exact Traced.run_pure_eq_ok_iff.mpr ⟨rfl, rfl⟩

def Traces (g : Grammar V) (tokens : List Token)
    (pull : Stream V → Traced (Call V) (Option (Item V) × Stream V)) : Prop :=
  ∀ {source : Stream V} {item : Option (Item V)} {source' : Stream V} {log log' : Array (Call V)},
    (pull source).run log = .ok ((item, source'), log') →
      ∃ calls, log' = log ++ calls ∧ Pulls g tokens source item source' calls

namespace Traces

variable {pull : Stream V → Traced (Call V) (Option (Item V) × Stream V)}

theorem nextInTurn (hPull : Traces g tokens pull) {streams rest : List (Stream V)}
    {item : Option (Item V)} {log log' : Array (Call V)}
    (h : (Enumeration.nextInTurn pull streams).run log = .ok ((item, rest), log')) :
    ∃ calls, log' = log ++ calls ∧ Pulls g tokens (.inTurn streams) item (.inTurn rest) calls := by
  induction streams generalizing log with
  | nil =>
    obtain ⟨hItem, rfl⟩ := Traced.run_pure_eq_ok_iff.mp h
    cases hItem
    exact ⟨#[], Array.append_empty.symm, .inTurnEnd⟩
  | cons source waiting ih =>
    unfold Enumeration.nextInTurn at h
    obtain ⟨⟨found, source'⟩, mid, hSource, h⟩ := Traced.run_bind_eq_ok_iff.mp h
    obtain ⟨calls, rfl, hPulls⟩ := hPull hSource
    cases found with
    | some found =>
      obtain ⟨hItem, rfl⟩ := Traced.run_pure_eq_ok_iff.mp h
      cases hItem
      exact ⟨calls, rfl, .inTurnItem hPulls⟩
    | none =>
      obtain ⟨calls', rfl, hRest⟩ := ih h
      exact ⟨calls ++ calls', Array.append_assoc, .inTurnSkip hPulls hRest⟩

theorem nextInOrder (hPull : Traces g tokens pull) {streams rest : List (Stream V)}
    {item : Option (Item V)} {log log' : Array (Call V)}
    (h : (Enumeration.nextInOrder pull streams).run log = .ok ((item, rest), log')) :
    ∃ calls, log' = log ++ calls ∧ Pulls g tokens (.inOrder streams) item (.inOrder rest) calls := by
  induction streams generalizing log with
  | nil =>
    obtain ⟨hItem, rfl⟩ := Traced.run_pure_eq_ok_iff.mp h
    cases hItem
    exact ⟨#[], Array.append_empty.symm, .inOrderEnd⟩
  | cons source waiting ih =>
    unfold Enumeration.nextInOrder at h
    obtain ⟨⟨found, source'⟩, mid, hSource, h⟩ := Traced.run_bind_eq_ok_iff.mp h
    obtain ⟨calls, rfl, hPulls⟩ := hPull hSource
    cases found with
    | some found =>
      obtain ⟨hItem, rfl⟩ := Traced.run_pure_eq_ok_iff.mp h
      cases hItem
      exact ⟨calls, rfl, .inOrderItem hPulls⟩
    | none =>
      obtain ⟨calls', rfl, hRest⟩ := ih h
      exact ⟨calls ++ calls', Array.append_assoc, .inOrderSkip hPulls hRest⟩

theorem advance (hPull : Traces g tokens pull) {rule : Rule V} {start stop steps : Nat}
    {levels : List (Enumeration.Level Symbol (Stream V))} {chosen : List (Derivation V)}
    {chain : Option (Except ReductionError (List (Derivation V)))}
    {state : Enumeration.Chain Symbol (Stream V) (Derivation V)} {log log' : Array (Call V)}
    (h : (Enumeration.Chain.advance (fun symbol previous => Traced.ofExcept
      (rule.symbolStream g tokens start stop symbol previous)) pull steps levels chosen).run log =
        .ok ((chain, state), log')) :
    ∃ calls, log' = log ++ calls ∧
      Pulls g tokens (.chains rule start stop (.moving levels chosen)) (rule.concluded start chain).1
        (.chains rule start stop state) (calls ++ (rule.concluded start chain).2) := by
  induction steps generalizing levels chosen log with
  | zero =>
    cases levels with
    | nil =>
      obtain ⟨hChain, rfl⟩ := Traced.run_pure_eq_ok_iff.mp h
      cases hChain
      exact ⟨#[], Array.append_empty.symm, .finished⟩
    | cons level before => cases h
  | succ steps ih =>
    match levels with
    | [] =>
      obtain ⟨hChain, rfl⟩ := Traced.run_pure_eq_ok_iff.mp h
      cases hChain
      exact ⟨#[], Array.append_empty.symm, .finished⟩
    | ⟨source, behind⟩ :: before =>
      unfold Enumeration.Chain.advance at h
      obtain ⟨⟨found, source'⟩, mid, hSource, h⟩ := Traced.run_bind_eq_ok_iff.mp h
      obtain ⟨calls, rfl, hPulls⟩ := hPull hSource
      match found, behind with
      | none, _ =>
        obtain ⟨calls', rfl, hRest⟩ := ih h
        exact ⟨calls ++ calls', Array.append_assoc, Array.append_assoc ▸ .back hPulls hRest⟩
      | some (.error e), _ =>
        obtain ⟨hChain, rfl⟩ := Traced.run_pure_eq_ok_iff.mp h
        cases hChain
        exact ⟨calls, rfl, Array.append_empty ▸ .failed hPulls⟩
      | some (.ok choice), [] =>
        obtain ⟨hChain, rfl⟩ := Traced.run_pure_eq_ok_iff.mp h
        cases hChain
        exact ⟨calls, rfl, .complete hPulls rfl⟩
      | some (.ok choice), symbol :: behind =>
        obtain ⟨next, mid', hNext, h⟩ := Traced.run_bind_eq_ok_iff.mp h
        obtain ⟨hStream, rfl⟩ := Traced.run_ofExcept_eq_ok_iff.mp hNext
        obtain ⟨calls', rfl, hRest⟩ := ih h
        exact ⟨calls ++ calls', Array.append_assoc,
          Array.append_assoc ▸ .forward hPulls hStream hRest⟩

theorem next (hPull : Traces g tokens pull) (steps : Nat) :
    Traces g tokens (Stream.next g tokens pull steps) := by
  intro source item source' log log' h
  match source with
  | .once derivation =>
    obtain ⟨hItem, rfl⟩ := Traced.run_pure_eq_ok_iff.mp h
    cases hItem
    exact ⟨#[], Array.append_empty.symm, .once derivation⟩
  | .inTurn streams =>
    obtain ⟨⟨found, rest⟩, mid, hStreams, h⟩ := Traced.run_bind_eq_ok_iff.mp h
    obtain ⟨hItem, rfl⟩ := Traced.run_pure_eq_ok_iff.mp h
    cases hItem
    exact hPull.nextInTurn hStreams
  | .inOrder streams =>
    obtain ⟨⟨found, rest⟩, mid, hStreams, h⟩ := Traced.run_bind_eq_ok_iff.mp h
    obtain ⟨hItem, rfl⟩ := Traced.run_pure_eq_ok_iff.mp h
    cases hItem
    exact hPull.nextInOrder hStreams
  | .chains rule start stop state =>
    obtain ⟨chain, state', mid, hState, hItem, rfl⟩ := run_next_chains.mp h
    cases hItem
    match state with
    | .fresh first behind =>
      obtain ⟨source, mid', hSource, hState⟩ := Traced.run_bind_eq_ok_iff.mp hState
      obtain ⟨hStream, rfl⟩ := Traced.run_ofExcept_eq_ok_iff.mp hSource
      obtain ⟨calls, rfl, hPulls⟩ := hPull.advance hState
      exact ⟨calls ++ _, Array.append_assoc, .begin hStream hPulls⟩
    | .moving levels chosen =>
      obtain ⟨calls, rfl, hPulls⟩ := hPull.advance hState
      exact ⟨calls ++ _, Array.append_assoc, hPulls⟩

end Traces

theorem traces_pull (fuel : Nat) : Traces g tokens (pull g tokens fuel) := by
  induction fuel with
  | zero =>
    intro source item source' log log' h
    cases h
  | succ fuel ih => exact ih.next fuel

section Layers

variable {pull : Stream V → Traced (Call V) (Option (Item V) × Stream V)} {steps : Nat}
  {source source' : Stream V} {waiting : List (Stream V)} {log log' : Array (Call V)}

theorem run_next_inTurn_item {item : Item V}
    (h : (pull source).run log = .ok ((some item, source'), log')) :
    ((Stream.inTurn (source :: waiting)).next g tokens pull steps).run log =
      .ok ((some item, .inTurn (waiting ++ [source'])), log') := by
  simp only [next, Enumeration.nextInTurn, bind_assoc, Traced.run_bind_of_ok h]
  exact Traced.run_pure_eq_ok_iff.mpr ⟨rfl, rfl⟩

theorem run_next_inOrder_item {item : Item V}
    (h : (pull source).run log = .ok ((some item, source'), log')) :
    ((Stream.inOrder (source :: waiting)).next g tokens pull steps).run log =
      .ok ((some item, .inOrder (source' :: waiting)), log') := by
  simp only [next, Enumeration.nextInOrder, bind_assoc, Traced.run_bind_of_ok h]
  exact Traced.run_pure_eq_ok_iff.mpr ⟨rfl, rfl⟩

theorem run_next_inTurn_skip (h : (pull source).run log = .ok ((none, source'), log')) :
    ((Stream.inTurn (source :: waiting)).next g tokens pull steps).run log =
      ((Stream.inTurn waiting).next g tokens pull steps).run log' := by
  simp only [next, Enumeration.nextInTurn, bind_assoc, Traced.run_bind_of_ok h]

theorem run_next_inOrder_skip (h : (pull source).run log = .ok ((none, source'), log')) :
    ((Stream.inOrder (source :: waiting)).next g tokens pull steps).run log =
      ((Stream.inOrder waiting).next g tokens pull steps).run log' := by
  simp only [next, Enumeration.nextInOrder, bind_assoc, Traced.run_bind_of_ok h]

variable {rule : Rule V} {start stop : Nat} {symbol : Symbol} {behind : List Symbol}
  {before : List (Enumeration.Level Symbol (Stream V))} {chosen : List (Derivation V)}

theorem run_next_begin (h : rule.symbolStream g tokens start stop symbol none = .ok source) :
    ((Stream.chains rule start stop (.fresh symbol behind)).next g tokens pull steps).run log =
      ((Stream.chains rule start stop (.moving [⟨source, behind⟩] [])).next g tokens pull steps).run
        log := by
  simp only [next, Enumeration.Chain.next, bind_assoc, h]
  rfl

theorem run_next_back (h : (pull source).run log = .ok ((none, source'), log')) :
    ((Stream.chains rule start stop (.moving (⟨source, behind⟩ :: before) chosen)).next g tokens pull
      (steps + 1)).run log =
      ((Stream.chains rule start stop (.moving before chosen.tail)).next g tokens pull steps).run
        log' := by
  simp only [next, Enumeration.Chain.next, Enumeration.Chain.advance, bind_assoc,
    Traced.run_bind_of_ok h]

theorem run_next_forward {choice : Derivation V} {next' : Stream V}
    (h : (pull source).run log = .ok ((some (.ok choice), source'), log'))
    (hNext : rule.symbolStream g tokens start stop symbol (some choice) = .ok next') :
    ((Stream.chains rule start stop (.moving (⟨source, symbol :: behind⟩ :: before) chosen)).next
      g tokens pull (steps + 1)).run log =
      ((Stream.chains rule start stop (.moving
        (⟨next', behind⟩ :: ⟨source', symbol :: behind⟩ :: before) (choice :: chosen))).next
        g tokens pull steps).run log' := by
  simp only [next, Enumeration.Chain.next, Enumeration.Chain.advance, bind_assoc,
    Traced.run_bind_of_ok h, hNext]
  rfl

theorem run_next_finished : ((Stream.chains rule start stop (.moving [] chosen)).next g tokens pull
    steps).run log = .ok ((none, .chains rule start stop .finished), log) := by
  refine run_next_chains.mpr ⟨none, .finished, log, ?_, rfl, Array.append_empty.symm⟩
  cases steps <;> exact Traced.run_pure_eq_ok_iff.mpr ⟨rfl, rfl⟩

theorem run_next_failed {e : ReductionError}
    (h : (pull source).run log = .ok ((some (.error e), source'), log')) :
    ((Stream.chains rule start stop (.moving (⟨source, behind⟩ :: before) chosen)).next g tokens pull
      (steps + 1)).run log = .ok ((some (.error e), .chains rule start stop .finished), log') := by
  refine run_next_chains.mpr ⟨some (.error e), .finished, log', ?_, rfl, Array.append_empty.symm⟩
  simp only [Enumeration.Chain.next, Enumeration.Chain.advance, Traced.run_bind_of_ok h]
  exact Traced.run_pure_eq_ok_iff.mpr ⟨rfl, rfl⟩

theorem run_next_complete {choice : Derivation V} {item : Option (Item V)} {calls : Array (Call V)}
    (h : (pull source).run log = .ok ((some (.ok choice), source'), log'))
    (hItem : rule.concluded start (some (.ok (choice :: chosen).reverse)) = (item, calls)) :
    ((Stream.chains rule start stop (.moving (⟨source, []⟩ :: before) chosen)).next g tokens pull
      (steps + 1)).run log =
      .ok ((item, .chains rule start stop (.moving (⟨source', []⟩ :: before) chosen)), log' ++ calls) := by
  refine run_next_chains.mpr ⟨some (.ok (choice :: chosen).reverse),
    .moving (⟨source', []⟩ :: before) chosen, log', ?_, by rw [hItem], by rw [hItem]⟩
  simp only [Enumeration.Chain.next, Enumeration.Chain.advance, Traced.run_bind_of_ok h]
  exact Traced.run_pure_eq_ok_iff.mpr ⟨rfl, rfl⟩

end Layers

/-- With enough fuel, and whatever the steps a chain may take beyond that, one layer of work on the
stream gives this item and makes these calls. -/
def Settles (g : Grammar V) (tokens : List Token) (source : Stream V) (item : Option (Item V))
    (source' : Stream V) (calls : Array (Call V)) : Prop :=
  ∃ least, ∀ fuel ≥ least, ∀ steps ≥ least, ∀ log,
    (source.next g tokens (pull g tokens fuel) steps).run log = .ok ((item, source'), log ++ calls)

theorem Settles.run_pull {source source' : Stream V} {item : Option (Item V)} {calls : Array (Call V)}
    (h : Settles g tokens source item source' calls) : ∃ least, ∀ fuel ≥ least, ∀ log,
      (source.pull g tokens fuel).run log = .ok ((item, source'), log ++ calls) := by
  obtain ⟨least, h⟩ := h
  refine ⟨least + 1, fun fuel hFuel log => ?_⟩
  obtain ⟨fuel, rfl⟩ : ∃ n, fuel = n + 1 := ⟨fuel - 1, by omega⟩
  exact h fuel (by omega) fuel (by omega) log

section Settles

variable {source source' whole rest left : Stream V} {found item : Option (Item V)}
  {calls calls' : Array (Call V)}

theorem Settles.done (h : Settles g tokens source found source' calls)
    (hNext : ∀ {fuel steps log mid},
      (source.pull g tokens fuel).run log = .ok ((found, source'), mid) →
        (whole.next g tokens (pull g tokens fuel) (steps + 1)).run log =
          .ok ((item, left), mid ++ calls')) : Settles g tokens whole item left (calls ++ calls') := by
  obtain ⟨least, h⟩ := h.run_pull
  refine ⟨least + 1, fun fuel hFuel steps hSteps log => ?_⟩
  obtain ⟨steps, rfl⟩ : ∃ n, steps = n + 1 := ⟨steps - 1, by omega⟩
  rw [hNext (h fuel (by omega) log), Array.append_assoc]

theorem Settles.trans (h : Settles g tokens source found source' calls)
    (h' : Settles g tokens rest item left calls')
    (hNext : ∀ {fuel steps log mid},
      (source.pull g tokens fuel).run log = .ok ((found, source'), mid) →
        (whole.next g tokens (pull g tokens fuel) (steps + 1)).run log =
          (rest.next g tokens (pull g tokens fuel) steps).run mid) :
    Settles g tokens whole item left (calls ++ calls') := by
  obtain ⟨least, h⟩ := h.run_pull
  obtain ⟨least', h'⟩ := h'
  refine ⟨max least least' + 1, fun fuel hFuel steps hSteps log => ?_⟩
  obtain ⟨steps, rfl⟩ : ∃ n, steps = n + 1 := ⟨steps - 1, by omega⟩
  rw [hNext (h fuel (by omega) log), h' fuel (by omega) steps (by omega), Array.append_assoc]

end Settles

theorem Pulls.settles {source source' : Stream V} {item : Option (Item V)} {calls : Array (Call V)}
    (h : Pulls g tokens source item source' calls) : Settles g tokens source item source' calls := by
  induction h with
  | once | inTurnEnd | inOrderEnd =>
    exact ⟨0, fun _ _ _ _ _ => Traced.run_pure_eq_ok_iff.mpr ⟨rfl, Array.append_empty.symm⟩⟩
  | finished => exact ⟨0, fun _ _ _ _ _ => run_next_finished.trans (by rw [Array.append_empty])⟩
  | @inTurnItem _ _ _ _ calls _ ih =>
    rw [← @Array.append_empty _ calls]
    exact ih.done fun h => (run_next_inTurn_item h).trans (by rw [Array.append_empty])
  | @inOrderItem _ _ _ _ calls _ ih =>
    rw [← @Array.append_empty _ calls]
    exact ih.done fun h => (run_next_inOrder_item h).trans (by rw [Array.append_empty])
  | inTurnSkip _ _ ih ih' => exact ih.trans ih' run_next_inTurn_skip
  | inOrderSkip _ _ ih ih' => exact ih.trans ih' run_next_inOrder_skip
  | begin hStream _ ih =>
    obtain ⟨least, h⟩ := ih
    refine ⟨least, fun fuel hFuel steps hSteps log => ?_⟩
    rw [run_next_begin hStream, h fuel hFuel steps hSteps]
  | back _ _ ih ih' => exact ih.trans ih' run_next_back
  | forward _ hNext _ ih ih' => exact ih.trans ih' fun h => run_next_forward h hNext
  | @failed _ _ _ _ _ _ _ _ _ calls _ ih =>
    rw [← @Array.append_empty _ calls]
    exact ih.done fun h => (run_next_failed h).trans (by rw [Array.append_empty])
  | complete _ hItem ih => exact ih.done fun h => run_next_complete h hItem

/-- One pull of the stream, on some fuel and some log, returns this item and leaves that stream. -/
def Gives (g : Grammar V) (tokens : List Token) (source : Stream V) (item : Option (Item V))
    (source' : Stream V) : Prop :=
  ∃ fuel log log', (source.pull g tokens fuel).run log = .ok ((item, source'), log')

theorem gives_iff_exists_pulls {source source' : Stream V} {item : Option (Item V)} :
    Gives g tokens source item source' ↔ ∃ calls, Pulls g tokens source item source' calls := by
  constructor
  · rintro ⟨fuel, log, log', h⟩
    obtain ⟨calls, _, hPulls⟩ := traces_pull fuel h
    exact ⟨calls, hPulls⟩
  · rintro ⟨calls, h⟩
    obtain ⟨least, hRun⟩ := h.settles.run_pull
    exact ⟨least, #[], _, hRun least (Nat.le_refl least) #[]⟩

theorem Pulls.gives {source source' : Stream V} {item : Option (Item V)} {calls : Array (Call V)}
    (h : Pulls g tokens source item source' calls) : Gives g tokens source item source' :=
  gives_iff_exists_pulls.mpr ⟨calls, h⟩

theorem Gives.unique {source left right : Stream V} {item other : Option (Item V)}
    (h : Gives g tokens source item left) (h' : Gives g tokens source other right) :
    item = other ∧ left = right := by
  obtain ⟨calls, hPulls⟩ := gives_iff_exists_pulls.mp h
  obtain ⟨calls', hPulls'⟩ := gives_iff_exists_pulls.mp h'
  obtain ⟨least, hRun⟩ := hPulls.settles.run_pull
  obtain ⟨least', hRun'⟩ := hPulls'.settles.run_pull
  have hEq := (hRun (max least least') (by omega) #[]).symm.trans
    (hRun' (max least least') (by omega) #[])
  simp only [Except.ok.injEq, Prod.mk.injEq] at hEq
  exact hEq.1

/-- Pulling the stream again and again gives these answers, one for each pull. -/
inductive Reaches (g : Grammar V) (tokens : List Token) :
    Stream V → List (Option (Item V)) → Stream V → Prop
  | here (source : Stream V) : Reaches g tokens source [] source
  | pull {source next left : Stream V} {item : Option (Item V)} {items : List (Option (Item V))}
    (h : Gives g tokens source item next) (h' : Reaches g tokens next items left) :
    Reaches g tokens source (item :: items) left

/-- The stream gives these items, one for each pull, and then nothing however often it is pulled. -/
inductive Enumerates (g : Grammar V) (tokens : List Token) : Stream V → List (Item V) → Prop
  | ends {source left : Stream V} (h : Gives g tokens source none left)
    (h' : Gives g tokens left none left) : Enumerates g tokens source []
  | item {source next : Stream V} {item : Item V} {items : List (Item V)}
    (h : Gives g tokens source (some item) next) (h' : Enumerates g tokens next items) :
    Enumerates g tokens source (item :: items)

theorem Enumerates.reaches {source : Stream V} {items : List (Item V)}
    (h : Enumerates g tokens source items) :
    ∃ left, Reaches g tokens source (items.map some) left := by
  induction h with
  | @ends source left _ _ => exact ⟨source, .here source⟩
  | item h _ ih =>
    obtain ⟨left, hLeft⟩ := ih
    exact ⟨left, .pull h hLeft⟩

end Stream

end Lexigram
