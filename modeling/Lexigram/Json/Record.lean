import Lexigram.Json.Text

/-! # Reading records

A record is read from an object, whose members set the fields they name, or from an array, whose items
set the fields in their order. Fields that are not given stay as they were. Members that name no field
are skipped, and a field may be given once only.
-/

namespace Lexigram.Json

structure RecordField (α : Type) where
  name : String
  set : Json → α → Option α

namespace RecordField

variable {α : Type}

def given (field : RecordField α) (members : List (Option (List Char) × Json)) : Nat :=
  members.countP fun (name, _) => name == some field.name.toList

def setMember (fields : List (RecordField α)) (record : α) (member : Option (List Char) × Json) : Option α :=
  match fields.find? fun field => member.1 == some field.name.toList with
  | some field => field.set member.2 record
  | none => some record

end RecordField

def readRecord {α : Type} (fields : List (RecordField α)) (empty : α) : Json → Option α
  | .array items =>
    if items.length ≤ fields.length then
      (fields.zip items).foldlM (fun record (field, item) => field.set item record) empty
    else none
  | .object members =>
    if members.all (·.1.isSome) && fields.all (·.given members ≤ 1) then
      members.foldlM (RecordField.setMember fields) empty
    else none
  | _ => none

def readBool : Json → Option Bool
  | .bool b => some b
  | _ => none

def maxSize : Nat :=
  0xFFFFFFFFFFFFFFFF

/-- A whole number of at most 64 bits, written with digits only. -/
def readSize : Json → Option Nat
  | .number literal =>
    if literal.all (·.isDigit) && digitsValue literal ≤ maxSize then some (digitsValue literal)
    else none
  | _ => none

def readOption {α : Type} (read : Json → Option α) : Json → Option (Option α)
  | .null => some none
  | value => (read value).map some

end Lexigram.Json
