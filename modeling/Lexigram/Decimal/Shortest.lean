/-! # Shortest decimals

A floating-point number stands for all reals that round to it. Its shortest decimal is the one with the
fewest digits among those reals, and among these the nearest to the number itself.
-/

namespace Lexigram

/-- What is done with a number halfway between two decimals. -/
inductive Tie where
  | up
  | toEven
  deriving DecidableEq, Repr

/-- The number `coefficient * 10 ^ exponent`. -/
structure Decimal where
  coefficient : Nat
  exponent : Int
  deriving DecidableEq, Repr

/-- A positive number `significand * 2 ^ exponent` of a binary format. -/
structure Binary where
  significand : Nat
  exponent : Int
  /-- The number below is only half as far away as the number above. -/
  closeBelow : Bool
  deriving DecidableEq, Repr

namespace Binary

/-- Compares `a * 10 ^ e` with `b * 2 ^ f`. -/
def compareScaled (a : Nat) (e : Int) (b : Nat) (f : Int) : Ordering :=
  compare (a * Nat.pow 10 e.toNat * Nat.pow 2 (-f).toNat)
    (b * Nat.pow 2 f.toNat * Nat.pow 10 (-e).toNat)

/-- Four times the significand is a whole number of quarters; so are the ends of the range of reals
that round to the number. -/
def lowQuarters (b : Binary) : Nat :=
  4 * b.significand - (if b.closeBelow then 1 else 2)

def highQuarters (b : Binary) : Nat :=
  4 * b.significand + 2

/-- The decimal rounds to the number; the ends of the range round to the even significand. -/
def covers (b : Binary) (d : Decimal) : Bool :=
  let low := compareScaled d.coefficient d.exponent b.lowQuarters (b.exponent - 2)
  let high := compareScaled d.coefficient d.exponent b.highQuarters (b.exponent - 2)
  if b.significand % 2 = 0 then low != .lt && high != .gt else low == .gt && high == .lt

def units (b : Binary) (e : Int) : Nat :=
  b.significand * Nat.pow 2 b.exponent.toNat * Nat.pow 10 (-e).toNat /
    (Nat.pow 2 (-b.exponent).toNat * Nat.pow 10 e.toNat)

def nearerAbove (tie : Tie) (b : Binary) (below : Decimal) : Bool :=
  match compareScaled (2 * below.coefficient + 1) below.exponent (2 * b.significand) b.exponent with
  | .lt => true
  | .gt => false
  | .eq =>
    match tie with
    | .up => true
    | .toEven => below.coefficient % 2 = 1

/-- The decimal with the unit `10 ^ e` that rounds to the number, the nearer one if there are two. -/
def onGrid? (tie : Tie) (b : Binary) (e : Int) : Option Decimal :=
  let below : Decimal := ⟨b.units e, e⟩
  let above : Decimal := ⟨b.units e + 1, e⟩
  match b.covers below, b.covers above with
  | true, true => some (if b.nearerAbove tie below then above else below)
  | true, false => some below
  | false, true => some above
  | false, false => none

def leadingExponent (b : Binary) : Nat → Int → Int
  | 0, e => e
  | fuel + 1, e => if b.units e = 0 then leadingExponent b fuel (e - 1) else e

/-- The first hit on the grids with the units `10 ^ e`, `10 ^ (e - 1)`, … -/
def search (tie : Tie) (b : Binary) : Nat → Int → Decimal
  | 0, e => ⟨b.units e, e⟩
  | fuel + 1, e =>
    match b.onGrid? tie e with
    | some d => d
    | none => search tie b fuel (e - 1)

end Binary

namespace Decimal

def strip : Nat → Decimal → Decimal
  | 0, d => d
  | fuel + 1, d =>
    if d.coefficient % 10 = 0 && d.coefficient != 0 then
      strip fuel ⟨d.coefficient / 10, d.exponent + 1⟩
    else d

end Decimal

/-- The shortest decimal of a number of a format whose numbers lie between `10 ^ -324` and
`10 ^ 309`. -/
def Binary.shortest (tie : Tie) (b : Binary) : Decimal :=
  (b.search tie 17 (b.leadingExponent 633 308)).strip 20

end Lexigram
