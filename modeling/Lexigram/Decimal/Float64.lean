import Lexigram.Decimal.Shortest

/-! # Text of floating-point numbers

A format decides which of the shortest decimals is taken on a tie, where positional notation ends, and
how whole and infinite numbers look.
-/

namespace Lexigram

inductive Float64 where
  | nan
  | infinite (negative : Bool)
  | zero (negative : Bool)
  | finite (negative : Bool) (magnitude : Binary)
  deriving DecidableEq, Repr

namespace Float64

def fractions : Nat :=
  0x10000000000000

/-- The number with these 64 bits: a sign, eleven bits of exponent and 52 of significand. -/
def ofBits (bits : Nat) : Float64 :=
  let negative := bits / fractions / 2048 % 2 == 1
  let exponent : Nat := bits / fractions % 2048
  let fraction : Nat := bits % fractions
  if exponent = 2047 then if fraction = 0 then .infinite negative else .nan
  else if exponent = 0 then
    if fraction = 0 then .zero negative else .finite negative ⟨fraction, -1074, false⟩
  else
    .finite negative ⟨fractions + fraction, exponent - 1075, fraction == 0 && exponent != 1⟩

def ofFloat (x : Float) : Float64 :=
  ofBits x.toBits.toNat

end Float64

structure FloatFormat where
  tie : Tie
  /-- The exponents of the first digit for which there is no exponent in the text. -/
  positional : Int → Bool
  /-- Whether a whole number in positional notation ends in a point and a zero. -/
  wholePoint : Bool
  nan : String
  infinite : Bool → String

namespace FloatFormat

def zeros (n : Nat) : List Char :=
  List.replicate n '0'

/-- Digits `ds` times `10 ^ e`, without an exponent. -/
def plain (format : FloatFormat) (ds : List Char) (e : Int) : List Char :=
  let point := ds.length + e
  if 0 ≤ e then ds ++ zeros e.toNat ++ (if format.wholePoint then ['.', '0'] else [])
  else if 0 < point then ds.take point.toNat ++ '.' :: ds.drop point.toNat
  else '0' :: '.' :: zeros (-point).toNat ++ ds

def scientific (ds : List Char) (exponent : Int) : List Char :=
  ds.take 1 ++ (if ds.length = 1 then [] else '.' :: ds.drop 1) ++
    'e' :: (if exponent < 0 then '-' else '+') :: Nat.toDigits 10 exponent.natAbs

def decimal (format : FloatFormat) (d : Decimal) : List Char :=
  let ds := Nat.toDigits 10 d.coefficient
  let exponent := ds.length + d.exponent - 1
  if format.positional exponent then format.plain ds d.exponent else scientific ds exponent

def sign (negative : Bool) : List Char :=
  if negative then ['-'] else []

def write (format : FloatFormat) : Float64 → List Char
  | .nan => format.nan.toList
  | .infinite negative => (format.infinite negative).toList
  | .zero negative => sign negative ++ format.decimal ⟨0, 0⟩
  | .finite negative magnitude => sign negative ++ format.decimal (magnitude.shortest format.tie)

end FloatFormat

end Lexigram
