import Mathlib.Data.List.Forall2
import Lexigram.Proofs.Soundness

/-! # What an enumeration depends on

The stream of a symbol looks at no token outside its range. Its run is mirrored by the run on the tokens
of the range alone, which begins at place zero: the two pull alike, make the same calls and give the same
items, the places apart by a fixed offset. On the shorter list a range never goes beyond the last token,
so a stream there may be empty where the other one still looks for a token in vain.
-/

namespace Lexigram

/-- The tokens in `[start, stop)`. -/
def window (tokens : List Token) (start stop : Nat) : List Token :=
  (tokens.take stop).drop start

theorem length_window (tokens : List Token) (start stop : Nat) :
    (window tokens start stop).length = min stop tokens.length - start := by
  simp [window]

theorem window_min_length (tokens : List Token) (start stop : Nat) :
    window tokens start (min stop tokens.length) = window tokens start stop := by
  rw [window, window, ← List.take_take, List.take_length]

theorem getElem?_window {tokens : List Token} {start stop : Nat} (place : Nat) :
    (window tokens start stop)[place]? =
      if place + start < stop then tokens[place + start]? else none := by
  simp [window, List.getElem?_take, Nat.add_comm]

/-- A prefix of the tokens shown is what the range holds from the offset on. -/
structure Shows (tokens shown : List Token) (offset stop stop' : Nat) : Prop where
  take_eq : shown.take stop' = window tokens offset stop
  le_length : stop' ≤ shown.length

namespace Shows

variable {tokens shown : List Token} {offset stop stop' start place : Nat}

theorem whole (tokens : List Token) (start stop : Nat) :
    Shows tokens (window tokens start stop) start stop (window tokens start stop).length :=
  ⟨List.take_length, Nat.le_refl _⟩

theorem stop_eq (h : Shows tokens shown offset stop stop') :
    stop' = min stop tokens.length - offset := by
  rw [← length_window, ← h.take_eq, List.length_take_of_le h.le_length]

theorem window_eq (h : Shows tokens shown offset stop stop') (start : Nat) :
    window tokens (start + offset) stop = window shown start stop' := by
  unfold window
  rw [h.take_eq, window, List.drop_drop, Nat.add_comm]

theorem getElem? (h : Shows tokens shown offset stop stop') (hPlace : place < stop') :
    tokens[place + offset]? = shown[place]? := by
  have hRange : place + offset < stop := by
    have := h.stop_eq
    omega
  have hSame := congrArg (·[place]?) h.take_eq
  simp only [getElem?_window, if_pos hRange, List.getElem?_take_of_lt hPlace] at hSame
  exact hSame.symm

theorem shorten (h : Shows tokens shown offset stop stop') (hPlace : place ≤ stop') :
    Shows tokens shown offset (place + offset) place := by
  refine ⟨?_, Nat.le_trans hPlace h.le_length⟩
  have hStop := h.stop_eq
  have hTake := congrArg (List.take place) h.take_eq
  simp only [window, List.drop_take, List.take_take] at hTake ⊢
  rw [Nat.min_eq_left hPlace, Nat.min_eq_left (by omega)] at hTake
  rw [hTake, Nat.add_sub_cancel]

theorem lastOccurrence_eq (h : Shows tokens shown offset stop stop') (start : Nat)
    (terminal : Terminal) : lastOccurrence tokens (start + offset) stop terminal =
      lastOccurrence shown start stop' terminal + offset := by
  have hWindow := h.window_eq start
  unfold window at hWindow
  unfold lastOccurrence
  rw [hWindow]
  dsimp only
  split
  · omega
  · rfl

theorem bound {V : Type} (h : Shows tokens shown offset stop stop') (nt : NonTerminal V)
    (hStart : start < stop') (hint : Option Terminal) :
    Shows tokens shown offset (nt.bound tokens (start + offset) stop hint)
      (nt.bound shown start stop' hint) := by
  unfold NonTerminal.bound
  cases hint with
  | none => exact h
  | some terminal =>
    dsimp only
    split
    · rw [h.lastOccurrence_eq]
      exact h.shorten (Nat.le_of_lt (lastOccurrence_lt terminal hStart))
    · exact h

end Shows

variable {V : Type}

def Derivation.shift (offset : Nat) (d : Derivation V) : Derivation V :=
  ⟨d.value, d.next + offset⟩

def Item.shift (offset : Nat) : Item V → Item V
  | .ok d => .ok (d.shift offset)
  | .error e => .error e

theorem chainEnd_shift (offset start : Nat) (chain : List (Derivation V)) :
    chainEnd (start + offset) (chain.map (·.shift offset)) = chainEnd start chain + offset := by
  unfold chainEnd
  rw [List.getLast?_map]
  cases chain.getLast? <;> rfl

theorem Rule.concluded_shift (rule : Rule V) (offset start : Nat) (chain : List (Derivation V)) :
    rule.concluded (start + offset) (some (.ok (chain.map (·.shift offset)))) =
      ((rule.concluded start (some (.ok chain))).1.map (Item.shift offset),
        (rule.concluded start (some (.ok chain))).2) := by
  have hValues : (chain.map (·.shift offset)).map (·.value) = chain.map (·.value) := by
    rw [List.map_map]
    rfl
  unfold Rule.concluded
  cases rule.reducer with
  | none => rfl
  | some reducer =>
    simp only [Rule.itemOf, Rule.callOf, hValues, chainEnd_shift, Option.map_some, Prod.mk.injEq,
      Option.some.injEq, and_true]
    cases reducer.apply (chain.map (·.value)) <;> rfl

section Idle

/-- The stream looks for derivations in a range that holds no token. -/
inductive Idle (tokens : List Token) : Stream V → Prop
  | inTurn {streams : List (Stream V)} (h : ∀ stream ∈ streams, Idle tokens stream) :
    Idle tokens (.inTurn streams)
  | inOrder {streams : List (Stream V)} (h : ∀ stream ∈ streams, Idle tokens stream) :
    Idle tokens (.inOrder streams)
  | fresh {rule : Rule V} {start stop : Nat} {first : Symbol} {behind : List Symbol}
    (h : min stop tokens.length ≤ start) : Idle tokens (.chains rule start stop (.fresh first behind))
  | level {rule : Rule V} {start stop : Nat} {source : Stream V} {behind : List Symbol}
    (h : Idle tokens source) :
    Idle tokens (.chains rule start stop (.moving [⟨source, behind⟩] []))
  | finished {rule : Rule V} {start stop : Nat} {chosen : List (Derivation V)} :
    Idle tokens (.chains rule start stop (.moving [] chosen))

variable {tokens : List Token} {start stop : Nat}

theorem idle_empty : Idle tokens (.empty : Stream V) :=
  .inOrder fun _ h => absurd h List.not_mem_nil

theorem Rule.idle_stream (rule : Rule V) (h : min stop tokens.length ≤ start) :
    Idle tokens (rule.stream start stop) := by
  unfold Rule.stream
  split
  · split
    · exact idle_empty
    · exact .fresh h
  · exact idle_empty

theorem NonTerminal.idle_stream (nt : NonTerminal V) (hint : Option Terminal)
    (h : min stop tokens.length ≤ start) : Idle tokens (nt.stream tokens start stop hint) := by
  unfold NonTerminal.stream
  split
  · rename_i hStart
    have hRules : ∀ stream ∈ nt.rules.map (·.stream start (nt.bound tokens start stop hint)),
        Idle tokens stream := by
      intro stream hStream
      obtain ⟨rule, -, rfl⟩ := List.mem_map.mp hStream
      have hBound : nt.bound tokens start stop hint ≤ stop := nt.bound_le hStart hint
      exact rule.idle_stream (by omega)
    dsimp only
    split
    · exact .inTurn hRules
    · exact .inOrder hRules
  · exact idle_empty

variable [OfToken V] {g : Grammar V}

theorem Terminal.stream_eq_empty (terminal : Terminal) (h : min stop tokens.length ≤ start) :
    terminal.stream tokens start stop = (.empty : Stream V) := by
  unfold Terminal.stream
  split
  · rename_i token hToken
    have hLength := (List.getElem?_eq_some_iff.mp hToken).1
    rw [if_neg]
    simp only [Bool.and_eq_true, decide_eq_true_eq]
    omega
  · rfl

theorem idle_stream {symbol : Symbol} {hint : Option Terminal} {source : Stream V}
    (hStream : g.stream tokens symbol start stop hint = .ok source)
    (h : min stop tokens.length ≤ start) : Idle tokens source := by
  unfold Grammar.stream at hStream
  split at hStream
  · rename_i terminal
    cases hStream
    rw [terminal.stream_eq_empty h]
    exact idle_empty
  · split at hStream
    · rename_i nt _
      cases hStream
      exact nt.idle_stream hint h
    · cases hStream

theorem Stream.Pulls.idle {source left : Stream V} {item : Option (Item V)} {calls : Array (Call V)}
    (h : source.Pulls g tokens item left calls) (hSource : Idle tokens source) :
    item = none ∧ calls = #[] ∧ Idle tokens left := by
  induction h with
  | once => cases hSource
  | inTurnEnd => exact ⟨rfl, rfl, hSource⟩
  | inOrderEnd => exact ⟨rfl, rfl, hSource⟩
  | inTurnItem _ ih =>
    cases hSource with
    | inTurn hStreams => cases (ih (hStreams _ List.mem_cons_self)).1
  | inOrderItem _ ih =>
    cases hSource with
    | inOrder hStreams => cases (ih (hStreams _ List.mem_cons_self)).1
  | inTurnSkip _ _ ih ih' =>
    cases hSource with
    | inTurn hStreams =>
      obtain ⟨-, rfl, -⟩ := ih (hStreams _ List.mem_cons_self)
      obtain ⟨hItem, rfl, hLeft⟩ := ih' (.inTurn fun s hs => hStreams s (List.mem_cons_of_mem _ hs))
      exact ⟨hItem, rfl, hLeft⟩
  | inOrderSkip _ _ ih ih' =>
    cases hSource with
    | inOrder hStreams =>
      obtain ⟨-, rfl, -⟩ := ih (hStreams _ List.mem_cons_self)
      obtain ⟨hItem, rfl, hLeft⟩ := ih' (.inOrder fun s hs => hStreams s (List.mem_cons_of_mem _ hs))
      exact ⟨hItem, rfl, hLeft⟩
  | begin hStream _ ih =>
    cases hSource with
    | fresh hRange => exact ih (.level (idle_stream hStream hRange))
  | finished => exact ⟨rfl, rfl, .finished⟩
  | back _ _ ih ih' =>
    cases hSource with
    | level hLevel =>
      obtain ⟨-, rfl, -⟩ := ih hLevel
      obtain ⟨hItem, rfl, hLeft⟩ := ih' .finished
      exact ⟨hItem, rfl, hLeft⟩
  | failed _ ih =>
    cases hSource with
    | level hLevel => cases (ih hLevel).1
  | forward _ _ _ ih _ =>
    cases hSource with
    | level hLevel => cases (ih hLevel).1
  | complete _ _ ih =>
    cases hSource with
    | level hLevel => cases (ih hLevel).1

end Idle

mutual

/-- The second stream does on the tokens shown what the first does on all tokens. Where the range holds
no token, the second is empty from the start. -/
inductive Mirrors (tokens shown : List Token) (offset : Nat) : Stream V → Stream V → Prop
  | idle {source : Stream V} (h : Idle tokens source) : Mirrors tokens shown offset source .empty
  | once (d : Derivation V) : Mirrors tokens shown offset (.once (d.shift offset)) (.once d)
  | inTurn {streams streams' : List (Stream V)}
    (h : List.Forall₂ (Mirrors tokens shown offset) streams streams') :
    Mirrors tokens shown offset (.inTurn streams) (.inTurn streams')
  | inOrder {streams streams' : List (Stream V)}
    (h : List.Forall₂ (Mirrors tokens shown offset) streams streams') :
    Mirrors tokens shown offset (.inOrder streams) (.inOrder streams')
  | fresh {rule : Rule V} {start stop stop' : Nat} {first : Symbol} {behind : List Symbol}
    (hShows : Shows tokens shown offset stop stop') :
    Mirrors tokens shown offset (.chains rule (start + offset) stop (.fresh first behind))
      (.chains rule start stop' (.fresh first behind))
  | moving {rule : Rule V} {start stop stop' : Nat}
    {levels levels' : List (Enumeration.Level Symbol (Stream V))} (chosen : List (Derivation V))
    (hShows : Shows tokens shown offset stop stop')
    (h : List.Forall₂ (LevelMirrors tokens shown offset) levels levels') :
    Mirrors tokens shown offset
      (.chains rule (start + offset) stop (.moving levels (chosen.map (·.shift offset))))
      (.chains rule start stop' (.moving levels' chosen))

inductive LevelMirrors (tokens shown : List Token) (offset : Nat) :
    Enumeration.Level Symbol (Stream V) → Enumeration.Level Symbol (Stream V) → Prop
  | level {source source' : Stream V} {behind : List Symbol}
    (h : Mirrors tokens shown offset source source') :
    LevelMirrors tokens shown offset ⟨source, behind⟩ ⟨source', behind⟩

end

section Mirrors

variable {tokens shown : List Token} {offset start stop stop' : Nat}

theorem Rule.mirrors_stream (rule : Rule V) (hShows : Shows tokens shown offset stop stop') :
    Mirrors tokens shown offset (rule.stream (start + offset) stop) (rule.stream start stop') := by
  have hStop := hShows.stop_eq
  by_cases hStart : start < stop'
  · have hStart' : start + offset < stop := by omega
    simp only [Rule.stream, hStart, hStart', decide_true, Bool.true_and]
    split
    · split
      · exact .idle idle_empty
      · exact .fresh hShows
    · exact .idle idle_empty
  · have hEmpty : rule.stream start stop' = .empty := by simp [Rule.stream, hStart]
    rw [hEmpty]
    exact .idle (rule.idle_stream (by omega))

theorem NonTerminal.mirrors_stream (nt : NonTerminal V) (hint : Option Terminal)
    (hShows : Shows tokens shown offset stop stop') :
    Mirrors tokens shown offset (nt.stream tokens (start + offset) stop hint)
      (nt.stream shown start stop' hint) := by
  have hStop := hShows.stop_eq
  by_cases hStart : start < stop'
  · have hStart' : start + offset < stop := by omega
    have hRules : List.Forall₂ (Mirrors tokens shown offset)
        (nt.rules.map (·.stream (start + offset) (nt.bound tokens (start + offset) stop hint)))
        (nt.rules.map (·.stream start (nt.bound shown start stop' hint))) := by
      rw [List.forall₂_map_left_iff, List.forall₂_map_right_iff, List.forall₂_same]
      intro rule _
      exact rule.mirrors_stream (hShows.bound nt hStart hint)
    simp only [NonTerminal.stream, if_pos hStart, if_pos hStart']
    split
    · exact .inTurn hRules
    · exact .inOrder hRules
  · have hEmpty : nt.stream shown start stop' hint = .empty := by simp [NonTerminal.stream, hStart]
    rw [hEmpty]
    exact .idle (nt.idle_stream hint (by omega))

variable [OfToken V] {g : Grammar V}

theorem Terminal.mirrors_stream (terminal : Terminal) (hShows : Shows tokens shown offset stop stop') :
    Mirrors tokens shown offset (terminal.stream tokens (start + offset) stop : Stream V)
      (terminal.stream shown start stop') := by
  have hStop := hShows.stop_eq
  by_cases hStart : start < stop'
  · have hStart' : start + offset < stop := by omega
    simp only [Terminal.stream, hShows.getElem? hStart, hStart, hStart', decide_true, Bool.true_and]
    split
    · rename_i token _
      split
      · rw [Nat.add_right_comm start offset 1]
        exact .once ⟨OfToken.ofToken token, start + 1⟩
      · exact .idle idle_empty
    · exact .idle idle_empty
  · have hEmpty : terminal.stream tokens (start + offset) stop = (.empty : Stream V) :=
      terminal.stream_eq_empty (by omega)
    have hEmpty' : terminal.stream shown start stop' = (.empty : Stream V) :=
      terminal.stream_eq_empty (by omega)
    rw [hEmpty, hEmpty']
    exact .idle idle_empty

theorem mirrors_stream {symbol : Symbol} {hint : Option Terminal} {source : Stream V}
    (hShows : Shows tokens shown offset stop stop')
    (hStream : g.stream tokens symbol (start + offset) stop hint = .ok source) :
    ∃ source', g.stream shown symbol start stop' hint = .ok source' ∧
      Mirrors tokens shown offset source source' := by
  unfold Grammar.stream at hStream ⊢
  split at hStream
  · rename_i terminal
    cases hStream
    exact ⟨_, rfl, terminal.mirrors_stream hShows⟩
  · split at hStream
    · rename_i nt _
      cases hStream
      exact ⟨_, rfl, nt.mirrors_stream hint hShows⟩
    · cases hStream

/-- Every mirror of the source is pulled with the same calls. The items are the same but for the offset, and
what is left mirrors what is left. -/
def Stream.PullsMirrored (g : Grammar V) (tokens shown : List Token) (offset : Nat) (source : Stream V)
    (item : Option (Item V)) (left : Stream V) (calls : Array (Call V)) : Prop :=
  ∀ ⦃source'⦄, Mirrors tokens shown offset source source' → ∃ item' left',
    source'.Pulls g shown item' left' calls ∧ item = item'.map (Item.shift offset) ∧
      Mirrors tokens shown offset left left'

namespace Stream.PullsMirrored

variable {source found left : Stream V} {waiting : List (Stream V)} {item : Option (Item V)}
  {calls calls' : Array (Call V)}

theorem shifted {item : Item V} (h : source.PullsMirrored g tokens shown offset (some item) left calls)
    {source' : Stream V} (hMirrors : Mirrors tokens shown offset source source') :
    ∃ item' left', source'.Pulls g shown (some item') left' calls ∧ item = item'.shift offset ∧
      Mirrors tokens shown offset left left' := by
  obtain ⟨item', left', hPulls, hItem, hLeft⟩ := h hMirrors
  obtain ⟨item', rfl, rfl⟩ := Option.map_eq_some_iff.mp hItem.symm
  exact ⟨item', left', hPulls, rfl, hLeft⟩

theorem nothing (h : source.PullsMirrored g tokens shown offset none left calls) {source' : Stream V}
    (hMirrors : Mirrors tokens shown offset source source') :
    ∃ left', source'.Pulls g shown none left' calls := by
  obtain ⟨item', left', hPulls, hItem, -⟩ := h hMirrors
  cases Option.map_eq_none_iff.mp hItem.symm
  exact ⟨left', hPulls⟩

theorem of_idle (h : source.Pulls g tokens item left calls) (hIdle : Idle tokens source) :
    ∃ item' left', (.empty : Stream V).Pulls g shown item' left' calls ∧
      item = item'.map (Item.shift offset) ∧ Mirrors tokens shown offset left left' := by
  obtain ⟨rfl, rfl, hLeft⟩ := h.idle hIdle
  exact ⟨none, .empty, .inOrderEnd, rfl, .idle hLeft⟩

-- In every case the source may be an idle one, whose range lies beyond the tokens shown. Its mirror is then
-- the empty stream and not one of the same shape.

theorem once (d : Derivation V) :
    (Stream.once d).PullsMirrored g tokens shown offset (some (.ok d)) .empty #[] := by
  intro source' hMirrors
  cases hMirrors with
  | idle hIdle => cases hIdle
  | once d => exact ⟨_, _, .once d, rfl, .idle idle_empty⟩

theorem inTurnEnd : (inTurn []).PullsMirrored g tokens shown offset none (inTurn []) #[] := by
  intro source' hMirrors
  cases hMirrors with
  | idle hIdle => exact of_idle .inTurnEnd hIdle
  | inTurn hStreams =>
    cases hStreams
    exact ⟨_, _, .inTurnEnd, rfl, .inTurn .nil⟩

theorem inTurnItem {item : Item V} (h : source.Pulls g tokens (some item) left calls)
    (ih : source.PullsMirrored g tokens shown offset (some item) left calls) :
    (inTurn (source :: waiting)).PullsMirrored g tokens shown offset (some item)
      (inTurn (waiting ++ [left])) calls := by
  intro source' hMirrors
  cases hMirrors with
  | idle hIdle => exact of_idle (.inTurnItem h) hIdle
  | inTurn hStreams =>
    cases hStreams with
    | cons hSource hWaiting =>
      obtain ⟨item', left', hPulls, rfl, hLeft⟩ := ih.shifted hSource
      exact ⟨_, _, .inTurnItem hPulls, rfl, .inTurn (List.rel_append hWaiting (.cons hLeft .nil))⟩

theorem inTurnSkip (h : source.Pulls g tokens none found calls)
    (h' : (inTurn waiting).Pulls g tokens item left calls')
    (ih : source.PullsMirrored g tokens shown offset none found calls)
    (ih' : (inTurn waiting).PullsMirrored g tokens shown offset item left calls') :
    (inTurn (source :: waiting)).PullsMirrored g tokens shown offset item left (calls ++ calls') := by
  intro source' hMirrors
  cases hMirrors with
  | idle hIdle => exact of_idle (.inTurnSkip h h') hIdle
  | inTurn hStreams =>
    cases hStreams with
    | cons hSource hWaiting =>
      obtain ⟨left', hPulls⟩ := ih.nothing hSource
      obtain ⟨item', left', hPulls', hItem, hLeft⟩ := ih' (.inTurn hWaiting)
      exact ⟨_, _, .inTurnSkip hPulls hPulls', hItem, hLeft⟩

theorem inOrderEnd : (inOrder []).PullsMirrored g tokens shown offset none (inOrder []) #[] := by
  intro source' hMirrors
  cases hMirrors with
  | idle hIdle => exact of_idle .inOrderEnd hIdle
  | inOrder hStreams =>
    cases hStreams
    exact ⟨_, _, .inOrderEnd, rfl, .inOrder .nil⟩

theorem inOrderItem {item : Item V} (h : source.Pulls g tokens (some item) left calls)
    (ih : source.PullsMirrored g tokens shown offset (some item) left calls) :
    (inOrder (source :: waiting)).PullsMirrored g tokens shown offset (some item)
      (inOrder (left :: waiting)) calls := by
  intro source' hMirrors
  cases hMirrors with
  | idle hIdle => exact of_idle (.inOrderItem h) hIdle
  | inOrder hStreams =>
    cases hStreams with
    | cons hSource hWaiting =>
      obtain ⟨item', left', hPulls, rfl, hLeft⟩ := ih.shifted hSource
      exact ⟨_, _, .inOrderItem hPulls, rfl, .inOrder (.cons hLeft hWaiting)⟩

theorem inOrderSkip (h : source.Pulls g tokens none found calls)
    (h' : (inOrder waiting).Pulls g tokens item left calls')
    (ih : source.PullsMirrored g tokens shown offset none found calls)
    (ih' : (inOrder waiting).PullsMirrored g tokens shown offset item left calls') :
    (inOrder (source :: waiting)).PullsMirrored g tokens shown offset item left (calls ++ calls') := by
  intro source' hMirrors
  cases hMirrors with
  | idle hIdle => exact of_idle (.inOrderSkip h h') hIdle
  | inOrder hStreams =>
    cases hStreams with
    | cons hSource hWaiting =>
      obtain ⟨left', hPulls⟩ := ih.nothing hSource
      obtain ⟨item', left', hPulls', hItem, hLeft⟩ := ih' (.inOrder hWaiting)
      exact ⟨_, _, .inOrderSkip hPulls hPulls', hItem, hLeft⟩

section Chains

variable {rule : Rule V} {begins bound : Nat} {behind : List Symbol} {next : Stream V}
  {before : List (Enumeration.Level Symbol (Stream V))} {chosen : List (Derivation V)}
  {choice : Derivation V}

theorem begin {first : Symbol} (hStream : rule.symbolStream g tokens begins bound first none = .ok source)
    (h : (chains rule begins bound (.moving [⟨source, behind⟩] [])).Pulls g tokens item left calls)
    (ih : (chains rule begins bound (.moving [⟨source, behind⟩] [])).PullsMirrored g tokens shown offset
      item left calls) :
    (chains rule begins bound (.fresh first behind)).PullsMirrored g tokens shown offset item left
      calls := by
  intro source' hMirrors
  cases hMirrors with
  | idle hIdle => exact of_idle (.begin hStream h) hIdle
  | fresh hShows =>
    obtain ⟨opened, hOpened, hSource⟩ := mirrors_stream hShows hStream
    obtain ⟨item', left', hPulls, hItem, hLeft⟩ := ih (.moving [] hShows (.cons (.level hSource) .nil))
    exact ⟨_, _, .begin hOpened hPulls, hItem, hLeft⟩

theorem finished : (chains rule begins bound (.moving [] chosen)).PullsMirrored g tokens shown offset none
    (chains rule begins bound .finished) #[] := by
  intro source' hMirrors
  cases hMirrors with
  | idle hIdle => exact of_idle .finished hIdle
  | moving _ hShows hLevels =>
    cases hLevels
    exact ⟨_, _, .finished, rfl, .moving [] hShows .nil⟩

theorem back (h : source.Pulls g tokens none found calls)
    (h' : (chains rule begins bound (.moving before chosen.tail)).Pulls g tokens item left calls')
    (ih : source.PullsMirrored g tokens shown offset none found calls)
    (ih' : (chains rule begins bound (.moving before chosen.tail)).PullsMirrored g tokens shown offset
      item left calls') :
    (chains rule begins bound (.moving (⟨source, behind⟩ :: before) chosen)).PullsMirrored g tokens shown
      offset item left (calls ++ calls') := by
  intro source' hMirrors
  cases hMirrors with
  | idle hIdle => exact of_idle (.back h h') hIdle
  | moving chosen hShows hLevels =>
    obtain _ | ⟨⟨hSource⟩, hBefore⟩ := hLevels
    obtain ⟨left', hPulls⟩ := ih.nothing hSource
    rw [← List.map_tail] at ih'
    obtain ⟨item', left', hPulls', hItem, hLeft⟩ := ih' (.moving chosen.tail hShows hBefore)
    exact ⟨_, _, .back hPulls hPulls', hItem, hLeft⟩

theorem failed {e : ReductionError} (h : source.Pulls g tokens (some (.error e)) found calls)
    (ih : source.PullsMirrored g tokens shown offset (some (.error e)) found calls) :
    (chains rule begins bound (.moving (⟨source, behind⟩ :: before) chosen)).PullsMirrored g tokens shown
      offset (some (.error e)) (chains rule begins bound .finished) calls := by
  intro source' hMirrors
  cases hMirrors with
  | idle hIdle => exact of_idle (.failed h) hIdle
  | moving chosen hShows hLevels =>
    obtain _ | ⟨⟨hSource⟩, hBefore⟩ := hLevels
    obtain ⟨error | d, left', hPulls, hError, -⟩ := ih.shifted hSource
    · cases hError
      exact ⟨_, _, .failed hPulls, rfl, .moving [] hShows .nil⟩
    · cases hError

theorem forward {symbol : Symbol} (h : source.Pulls g tokens (some (.ok choice)) found calls)
    (hNext : rule.symbolStream g tokens begins bound symbol (some choice) = .ok next)
    (h' : (chains rule begins bound (.moving
      (⟨next, behind⟩ :: ⟨found, symbol :: behind⟩ :: before) (choice :: chosen))).Pulls g tokens
        item left calls')
    (ih : source.PullsMirrored g tokens shown offset (some (.ok choice)) found calls)
    (ih' : (chains rule begins bound (.moving
      (⟨next, behind⟩ :: ⟨found, symbol :: behind⟩ :: before) (choice :: chosen))).PullsMirrored g tokens
        shown offset item left calls') :
    (chains rule begins bound (.moving (⟨source, symbol :: behind⟩ :: before) chosen)).PullsMirrored g
      tokens shown offset item left (calls ++ calls') := by
  intro source' hMirrors
  cases hMirrors with
  | idle hIdle => exact of_idle (.forward h hNext h') hIdle
  | moving chosen hShows hLevels =>
    obtain _ | ⟨⟨hSource⟩, hBefore⟩ := hLevels
    obtain ⟨error | d, left', hPulls, hChoice, hFound⟩ := ih.shifted hSource
    · cases hChoice
    · cases hChoice
      obtain ⟨next', hNext', hNextMirrors⟩ := mirrors_stream hShows hNext
      obtain ⟨item', left', hPulls', hItem, hLeft⟩ := ih' (.moving (d :: chosen) hShows
        (.cons (.level hNextMirrors) (.cons (.level hFound) hBefore)))
      exact ⟨_, _, .forward hPulls hNext' hPulls', hItem, hLeft⟩

theorem complete (h : source.Pulls g tokens (some (.ok choice)) found calls)
    (hConcluded : rule.concluded begins (some (.ok (choice :: chosen).reverse)) = (item, calls'))
    (ih : source.PullsMirrored g tokens shown offset (some (.ok choice)) found calls) :
    (chains rule begins bound (.moving (⟨source, []⟩ :: before) chosen)).PullsMirrored g tokens shown
      offset item (chains rule begins bound (.moving (⟨found, []⟩ :: before) chosen))
      (calls ++ calls') := by
  intro source' hMirrors
  cases hMirrors with
  | idle hIdle => exact of_idle (.complete h hConcluded) hIdle
  | @moving _ start _ _ _ _ chosen hShows hLevels =>
    obtain _ | ⟨⟨hSource⟩, hBefore⟩ := hLevels
    obtain ⟨error | d, left', hPulls, hChoice, hFound⟩ := ih.shifted hSource
    · cases hChoice
    · cases hChoice
      have hShift := rule.concluded_shift offset start (d :: chosen).reverse
      rw [List.map_reverse, List.map_cons] at hShift
      rw [hShift] at hConcluded
      cases hConcluded
      exact ⟨_, _, .complete hPulls rfl, rfl, .moving chosen hShows (.cons (.level hFound) hBefore)⟩

end Chains

end Stream.PullsMirrored

theorem Stream.Pulls.mirrored {source left : Stream V} {item : Option (Item V)}
    {calls : Array (Call V)} (h : source.Pulls g tokens item left calls) :
    source.PullsMirrored g tokens shown offset item left calls := by
  induction h with
  | once d => exact .once d
  | inTurnEnd => exact .inTurnEnd
  | inTurnItem h ih => exact .inTurnItem h ih
  | inTurnSkip h h' ih ih' => exact .inTurnSkip h h' ih ih'
  | inOrderEnd => exact .inOrderEnd
  | inOrderItem h ih => exact .inOrderItem h ih
  | inOrderSkip h h' ih ih' => exact .inOrderSkip h h' ih ih'
  | begin hStream h ih => exact .begin hStream h ih
  | finished => exact .finished
  | back h h' ih ih' => exact .back h h' ih ih'
  | failed h ih => exact .failed h ih
  | forward h hNext h' ih ih' => exact .forward h hNext h' ih ih'
  | complete h hConcluded ih => exact .complete h hConcluded ih

theorem Stream.Reaches.mirrored {source left : Stream V} {items : List (Option (Item V))}
    (h : source.Reaches g tokens items left) {source' : Stream V}
    (hMirrors : Mirrors tokens shown offset source source') :
    ∃ items' left', source'.Reaches g shown items' left' ∧
      items = items'.map (Option.map (Item.shift offset)) := by
  induction h generalizing source' with
  | here => exact ⟨[], source', .here source', rfl⟩
  | pull hGives _ ih =>
    obtain ⟨calls, hPulls⟩ := gives_iff_exists_pulls.mp hGives
    obtain ⟨item', next', hPulls', rfl, hNext⟩ := hPulls.mirrored hMirrors
    obtain ⟨items', left', hReaches, rfl⟩ := ih hNext
    exact ⟨item' :: items', left', .pull hPulls'.gives hReaches, rfl⟩

end Mirrors

section Runs

variable [OfToken V] {g : Grammar V} {tokens : List Token} {symbol : Symbol} {hint : Option Terminal}
  {start stop : Nat} {source left : Stream V} {items : List (Option (Item V))}

theorem Stream.Reaches.unique (h : source.Reaches g tokens items left) {left' : Stream V}
    {items' : List (Option (Item V))} (h' : source.Reaches g tokens items' left')
    (hLength : items'.length = items.length) : items' = items := by
  induction h generalizing items' with
  | here => exact List.length_eq_zero_iff.mp hLength
  | pull hGives _ ih =>
    cases h' with
    | here => cases hLength
    | pull hGives' hRest =>
      obtain ⟨rfl, rfl⟩ := hGives'.unique hGives
      rw [ih hRest (Nat.succ.inj hLength)]

theorem exists_reaches_window (hStream : g.stream tokens symbol start stop hint = .ok source)
    (hReaches : source.Reaches g tokens items left) : ∃ source' left' seen,
      g.stream (window tokens start stop) symbol 0 (window tokens start stop).length hint =
        .ok source' ∧
      source'.Reaches g (window tokens start stop) seen left' ∧
      items = seen.map (Option.map (Item.shift start)) := by
  rw [← Nat.zero_add start] at hStream
  obtain ⟨source', hStream', hMirrors⟩ := mirrors_stream (Shows.whole tokens start stop) hStream
  obtain ⟨seen, left', hReaches', hItems⟩ := hReaches.mirrored hMirrors
  exact ⟨source', left', seen, hStream', hReaches', hItems⟩

theorem items_eq_of_window_eq (hStream : g.stream tokens symbol start stop hint = .ok source)
    (hReaches : source.Reaches g tokens items left) {tokens' : List Token} {stop' : Nat}
    (hWindow : window tokens' start stop' = window tokens start stop) {source' left' : Stream V}
    {items' : List (Option (Item V))}
    (hStream' : g.stream tokens' symbol start stop' hint = .ok source')
    (hReaches' : source'.Reaches g tokens' items' left') (hLength : items'.length = items.length) :
    items' = items := by
  obtain ⟨shown, _, seen, hShown, hSeen, rfl⟩ := exists_reaches_window hStream hReaches
  obtain ⟨shown', _, seen', hShown', hSeen', rfl⟩ := exists_reaches_window hStream' hReaches'
  rw [hWindow] at hShown' hSeen'
  rw [hShown] at hShown'
  cases hShown'
  simp only [List.length_map] at hLength
  rw [hSeen.unique hSeen' hLength]

end Runs

/-- The items pulled from the stream of a symbol depend on the tokens in its range only: whatever stands
outside, and wherever beyond the last token the range ends, the same items are pulled in the same order.
The tokens of the range alone give them too, with the places counted from its start. -/
theorem depends_on_window [OfToken V] {g : Grammar V} {tokens : List Token} {symbol : Symbol}
    {hint : Option Terminal} {start stop : Nat} {source left : Stream V}
    {items : List (Option (Item V))} (hStream : g.stream tokens symbol start stop hint = .ok source)
    (hReaches : source.Reaches g tokens items left) :
    (∀ tokens' source' left' items', window tokens' start stop = window tokens start stop →
      g.stream tokens' symbol start stop hint = .ok source' →
      source'.Reaches g tokens' items' left' → items'.length = items.length → items' = items) ∧
    (∀ source' left' items', g.stream tokens symbol start (min stop tokens.length) hint = .ok source' →
      source'.Reaches g tokens items' left' → items'.length = items.length → items' = items) ∧
    ∃ source' left' seen,
      g.stream (window tokens start stop) symbol 0 (window tokens start stop).length hint =
        .ok source' ∧
      source'.Reaches g (window tokens start stop) seen left' ∧
      items = seen.map (Option.map (Item.shift start)) := by
  refine ⟨?_, ?_, exists_reaches_window hStream hReaches⟩
  · intro tokens' source' left' items' hWindow hStream' hReaches' hLength
    exact items_eq_of_window_eq hStream hReaches hWindow hStream' hReaches' hLength
  · intro source' left' items' hStream' hReaches' hLength
    exact items_eq_of_window_eq hStream hReaches (window_min_length tokens start stop) hStream'
      hReaches' hLength

namespace Sums

def enclosed (before after : Terminal) : List Token :=
  ⟨before, "3", 0, 1, 1, 1⟩ :: input ++ [⟨after, "4", 8, 9, 1, 9⟩]

end Sums

open Sums in
theorem depends_on_window_sums : ∃ source left,
    (grammar single).stream (enclosed plus number) (.nonTerminal 0) 1 4 none = .ok source ∧
    source.Reaches (grammar single) (enclosed plus number) [some (.ok ⟨"1", 2⟩),
      some (.error ⟨"sum", "sum plus number", ⟨"more than one value"⟩⟩), none] left ∧
    (∀ source' left' items',
      (grammar single).stream (enclosed number plus) (.nonTerminal 0) 1 4 none = .ok source' →
      source'.Reaches (grammar single) (enclosed number plus) items' left' → items'.length = 3 →
      items' = [some (.ok ⟨"1", 2⟩),
        some (.error ⟨"sum", "sum plus number", ⟨"more than one value"⟩⟩), none]) ∧
    ∃ source' left' seen, (grammar single).stream input (.nonTerminal 0) 0 3 none = .ok source' ∧
      source'.Reaches (grammar single) input seen left' ∧
      [some (.ok ⟨"1", 2⟩), some (.error ⟨"sum", "sum plus number", ⟨"more than one value"⟩⟩), none] =
        seen.map (Option.map (Item.shift 1)) := by
  obtain ⟨source, left, hStream, hReaches⟩ : ∃ source left,
      (grammar single).stream (enclosed plus number) (.nonTerminal 0) 1 4 none = .ok source ∧
      source.Reaches (grammar single) (enclosed plus number) [some (.ok ⟨"1", 2⟩),
        some (.error ⟨"sum", "sum plus number", ⟨"more than one value"⟩⟩), none] left :=
    ⟨_, _, rfl, .pull ⟨9, #[], _, rfl⟩ (.pull ⟨9, #[], _, rfl⟩ (.pull ⟨9, #[], _, rfl⟩ (.here _)))⟩
  obtain ⟨hOutside, -, hAlone⟩ := depends_on_window hStream hReaches
  exact ⟨source, left, hStream, hReaches,
    fun source' left' items' => hOutside (enclosed number plus) source' left' items' rfl, hAlone⟩

open Sums in
/-- A range may go on behind the last token. What is appended there is then seen, although the tokens that
the range had are the same. -/
theorem appended_is_seen :
    window input 0 (min 3 (input.take 1).length) =
      window (input.take 1) 0 (min 3 (input.take 1).length) ∧
    (∃ source left, (grammar single).stream (input.take 1) (.nonTerminal 0) 0 3 none = .ok source ∧
      source.Reaches (grammar single) (input.take 1) [some (.ok ⟨"1", 1⟩), none] left) ∧
    ∃ source left, (grammar single).stream input (.nonTerminal 0) 0 3 none = .ok source ∧
      source.Reaches (grammar single) input [some (.ok ⟨"1", 1⟩),
        some (.error ⟨"sum", "sum plus number", ⟨"more than one value"⟩⟩)] left :=
  ⟨rfl, ⟨_, _, rfl, .pull ⟨9, #[], _, rfl⟩ (.pull ⟨9, #[], _, rfl⟩ (.here _))⟩,
    ⟨_, _, rfl, .pull ⟨9, #[], _, rfl⟩ (.pull ⟨9, #[], _, rfl⟩ (.here _))⟩⟩

end Lexigram
