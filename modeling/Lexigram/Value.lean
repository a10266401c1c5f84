import Lexigram.Decimal.Float64
import Lexigram.Decimal.Numeral
import Lexigram.Grammar.Basic
import Lexigram.Json.Text

/-! # Dynamic values

Values for grammars without a value type of their own: tokens become texts, and reducers assemble lists
and nodes. A value is written for people or as JSON without spaces. JSON has no mark of the kind of a value,
and a node is an object with its kind and its children.
-/

namespace Lexigram

inductive Value where
  | text (t : String)
  | int (n : Int64)
  | float (x : Float)
  | bool (b : Bool)
  | list (items : List Value)
  | node (kind : String) (children : List Value)
  deriving Inhabited

namespace ReduceError

def ofInt (e : IntError) : ReduceError :=
  ⟨"invalid integer: " ++ e.message⟩

def ofFloat (e : FloatError) : ReduceError :=
  ⟨"invalid float: " ++ e.message⟩

end ReduceError

namespace Numeral

def int64 (text : String) : Except ReduceError Int64 :=
  match readInt text.toList with
  | .ok n => .ok (Int64.ofInt n)
  | .error e => .error (.ofInt e)

def float (text : String) : Except ReduceError Float :=
  match readFloat text.toList with
  | .ok x => .ok x
  | .error e => .error (.ofFloat e)

end Numeral

namespace Value

instance : OfToken Value :=
  ⟨fun token => .text token.text⟩

/-- Floats are written without an exponent and without a needless point; ties go up. -/
def floatFormat : FloatFormat where
  tie := .up
  positional := fun _ => true
  wholePoint := false
  nan := "NaN"
  infinite := fun negative => if negative then "-inf" else "inf"

def displayFloat (x : Float) : String :=
  String.ofList (floatFormat.write (.ofFloat x))

mutual

def display : Value → String
  | .text t => t
  | .int n => toString n.toInt
  | .float x => displayFloat x
  | .bool b => if b then "true" else "false"
  | .list items => "[" ++ " ".intercalate (displayAll items) ++ "]"
  | .node kind children => "(" ++ " ".intercalate (kind :: displayAll children) ++ ")"

def displayAll : List Value → List String
  | [] => []
  | v :: rest => display v :: displayAll rest

end

instance : ToString Value :=
  ⟨display⟩

mutual

/-- Equality of values, where a float that is no number differs from everything. -/
def equal : Value → Value → Bool
  | .text s, .text t => s == t
  | .int m, .int n => m == n
  | .float x, .float y => x == y
  | .bool a, .bool b => a == b
  | .list a, .list b => equalAll a b
  | .node k a, .node l b => k == l && equalAll a b
  | _, _ => false

def equalAll : List Value → List Value → Bool
  | [], [] => true
  | v :: vs, w :: ws => equal v w && equalAll vs ws
  | _, _ => false

end

instance : BEq Value :=
  ⟨equal⟩

def text? : Value → Option String
  | .text t => some t
  | _ => none

/-- The value as a whole number; texts are read as one. -/
def toInt : Value → Except ReduceError Int64
  | .int n => .ok n
  | .text t => Numeral.int64 t
  | v => .error ⟨"expected an integer, found " ++ v.display⟩

/-- The value as a number; whole numbers are rounded and texts are read as one. -/
def toFloat : Value → Except ReduceError Float
  | .float x => .ok x
  | .int n => .ok (Float.ofInt n.toInt)
  | .text t => Numeral.float t
  | v => .error ⟨"expected a number, found " ++ v.display⟩

/-! ## Ready-made reducers -/

def reduceToNode (kind : String) (values : List Value) : Value :=
  .node kind values

/-- All values in a list. A list in the first place is continued, so that left recursion builds one
flat list. -/
def reduceToList : List Value → Value
  | .list head :: rest => .list (head ++ rest)
  | values => .list values

/-- Only the value at `index`, or all values in a list if there is none. -/
def reduceToNth (index : Nat) (values : List Value) : Value :=
  values[index]?.getD (.list values)

/-! ## Values as JSON -/

/-- Floats have a point or an exponent, which begins beyond sixteen digits and below the fifth place;
ties go to the even digit. What is not finite is null. -/
def jsonFormat : FloatFormat where
  tie := .toEven
  positional := fun e => -5 ≤ e && e ≤ 15
  wholePoint := true
  nan := "null"
  infinite := fun _ => "null"

def intChars (n : Int) : List Char :=
  if n < 0 then '-' :: Nat.toDigits 10 n.natAbs else Nat.toDigits 10 n.natAbs

mutual

def jsonChars : Value → List Char
  | .text t => Json.quote t.toList
  | .int n => intChars n.toInt
  | .float x => jsonFormat.write (.ofFloat x)
  | .bool b => if b then "true".toList else "false".toList
  | .list items => '[' :: jsonItems items ++ [']']
  | .node kind children =>
    "\x7b\"kind\":".toList ++ Json.quote kind.toList ++ ",\"children\":[".toList ++
      jsonItems children ++ "]\x7d".toList

def jsonItems : List Value → List Char
  | [] => []
  | [v] => jsonChars v
  | v :: w :: rest => jsonChars v ++ ',' :: jsonItems (w :: rest)

end

def toJson (v : Value) : String :=
  String.ofList v.jsonChars

end Value

end Lexigram
