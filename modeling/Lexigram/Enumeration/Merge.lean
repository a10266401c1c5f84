/-! # Merging sources

A source is a state from which items are pulled one at a time, each pull giving an item, or nothing,
and the state after it. A family of sources is merged in turn, one item from each, or in order, each
source to its end. A source that gives nothing is not asked again.
-/

namespace Lexigram.Enumeration

variable {m : Type → Type} [Monad m] {σ α : Type}

/-- The next item when the sources take turns. The first of the list is the first to be asked; one
that gives an item goes to the end of the queue. -/
def nextInTurn (pull : σ → m (Option α × σ)) : List σ → m (Option α × List σ)
  | [] => pure (none, [])
  | source :: waiting => do
    match ← pull source with
    | (some item, source) => pure (some item, waiting ++ [source])
    | (none, _) => nextInTurn pull waiting

def nextInOrder (pull : σ → m (Option α × σ)) : List σ → m (Option α × List σ)
  | [] => pure (none, [])
  | source :: waiting => do
    match ← pull source with
    | (some item, source) => pure (some item, source :: waiting)
    | (none, _) => nextInOrder pull waiting

/-! ## Sources in fixed places

Taking turns among sources that stay where they are: a cursor goes round the places, a source that
gives nothing leaves its place empty, and the number of sources left says when to stop.
-/

structure Carousel (σ : Type) where
  places : List (Option σ)
  cursor : Nat
  live : Nat

namespace Carousel

def ofList (sources : List σ) : Carousel σ :=
  ⟨sources.map some, 0, sources.length⟩

/-- Looks at the place under the cursor and moves on to the one behind it. Fails if no place is there, or
if there are no places to go round. -/
def turn (pull : σ → m (Option α × σ)) (c : Carousel σ) : OptionT m (Option α × Carousel σ) :=
  if c.places.length = 0 then failure
  else
    let cursor := (c.cursor + 1) % c.places.length
    match c.places[c.cursor]? with
    | none => failure
    | some none => pure (none, { c with cursor := cursor })
    | some (some source) => do
      match ← OptionT.lift (pull source) with
      | (some item, left) =>
        pure (some item, { c with places := c.places.set c.cursor (some left), cursor := cursor })
      | (none, _) => pure (none, ⟨c.places.set c.cursor none, cursor, c.live - 1⟩)

def next (pull : σ → m (Option α × σ)) (turns : Nat) (c : Carousel σ) :
    OptionT m (Option α × Carousel σ) :=
  if c.live = 0 then pure (none, c)
  else
    match turns with
    | 0 => failure
    | turns + 1 => do
      match ← c.turn pull with
      | (some item, c) => pure (some item, c)
      | (none, c) => next pull turns c

end Carousel

end Lexigram.Enumeration
