import Lexigram.Text.Basic

/-! # Reading numbers

Whole numbers of 64 bits and floating-point numbers from decimal text.
-/

namespace Lexigram

inductive IntError where
  | empty
  | invalidDigit
  | tooLarge
  | tooSmall
  deriving DecidableEq, Repr

def IntError.message : IntError → String
  | .empty => "cannot parse integer from empty string"
  | .invalidDigit => "invalid digit found in string"
  | .tooLarge => "number too large to fit in target type"
  | .tooSmall => "number too small to fit in target type"

inductive FloatError where
  | empty
  | invalid
  deriving DecidableEq, Repr

def FloatError.message : FloatError → String
  | .empty => "cannot parse float from empty string"
  | .invalid => "invalid float literal"

namespace Numeral

/-- Digits read from the left; the number leaves the range as soon as it exceeds `limit`. -/
def readDigits (limit : Nat) (exceeded : IntError) : Nat → List Char → Except IntError Nat
  | value, [] => .ok value
  | value, c :: rest =>
    if c.isDigit then
      let value := value * 10 + digitValue c
      if value ≤ limit then readDigits limit exceeded value rest else .error exceeded
    else .error .invalidDigit

def maxInt : Nat :=
  0x7FFFFFFFFFFFFFFF

/-- A whole number between `-2 ^ 63` and `2 ^ 63 - 1`: one sign at most, then digits. -/
def readInt : List Char → Except IntError Int
  | [] => .error .empty
  | ['+'] | ['-'] => .error .invalidDigit
  | '-' :: digits => (readDigits (maxInt + 1) .tooSmall 0 digits).map fun n => -(n : Int)
  | '+' :: digits => (readDigits maxInt .tooLarge 0 digits).map Int.ofNat
  | digits => (readDigits maxInt .tooLarge 0 digits).map Int.ofNat

/-- The number nearest to `coefficient * 10 ^ exponent`, of two equally near ones the even one. Numbers
that are too small give zero, and numbers that are too large give infinity. -/
def nearest (coefficient : Nat) (exponent : Int) : Float :=
  let size := (Nat.toDigits 10 coefficient).length + exponent
  if coefficient = 0 || size ≤ -324 then 0.0
  else if 310 ≤ size then 1.0 / 0.0
  else Float.ofScientific coefficient (exponent < 0) exponent.natAbs

def readExponent : List Char → Option Int
  | [] => some 0
  | e :: rest =>
    if e = 'e' || e = 'E' then
      match rest with
      | '-' :: digits => (unsigned digits).map fun n => -(n : Int)
      | '+' :: digits => (unsigned digits).map Int.ofNat
      | digits => (unsigned digits).map Int.ofNat
    else none
where
  unsigned (digits : List Char) : Option Nat :=
    if digits.isEmpty || !digits.all (·.isDigit) then none else some (digitsValue digits)

def readMagnitude (text : List Char) : Option Float :=
  let whole := text.takeWhile (·.isDigit)
  match text.dropWhile (·.isDigit) with
  | '.' :: rest =>
    let fraction := rest.takeWhile (·.isDigit)
    if whole.isEmpty && fraction.isEmpty then none
    else (readExponent (rest.dropWhile (·.isDigit))).map fun e =>
      nearest (digitsValue (whole ++ fraction)) (e - fraction.length)
  | rest =>
    if whole.isEmpty then none else (readExponent rest).map fun e => nearest (digitsValue whole) e

/-- A number without its sign, or one of the words for what is not finite, in any case. -/
def readUnsigned (text : List Char) : Option Float :=
  let word := String.ofList (text.map Char.toLower)
  if word = "inf" || word = "infinity" then some (1.0 / 0.0)
  else if word = "nan" then some (0.0 / 0.0)
  else readMagnitude text

def readFloat (text : List Char) : Except FloatError Float :=
  match text with
  | [] => .error .empty
  | '-' :: rest => ((readUnsigned rest).map (- ·)).elim (.error .invalid) .ok
  | '+' :: rest => (readUnsigned rest).elim (.error .invalid) .ok
  | text => (readUnsigned text).elim (.error .invalid) .ok

end Numeral

end Lexigram
