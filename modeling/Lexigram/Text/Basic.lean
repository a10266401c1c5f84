import Lexigram.Unicode.Category

/-! # Blanks, digits and quotes

Blanks are the characters that are skipped between lexemes. Digits are decimal and hexadecimal ones of
ASCII, as characters and as numbers. In quoted text everything can be seen: quotes, backslashes, control
characters, spaces other than the common one, format characters and marks on other characters are escaped.
-/

namespace Lexigram

/-- The space and all characters before it. -/
def isBlank (c : Char) : Bool :=
  c ≤ ' '

theorem isBlank_iff {c : Char} : isBlank c = true ↔ c ≤ ' ' := by
  simp [isBlank]

def dropBlanks (text : List Char) : List Char :=
  text.dropWhile isBlank

def untilBlank (text : List Char) : List Char :=
  text.takeWhile (!isBlank ·)

theorem takeWhile_append_dropBlanks (text : List Char) :
    text.takeWhile isBlank ++ dropBlanks text = text :=
  List.takeWhile_append_dropWhile

theorem length_dropBlanks_le (text : List Char) : (dropBlanks text).length ≤ text.length := by
  have h := congrArg List.length (takeWhile_append_dropBlanks text)
  rw [List.length_append] at h
  omega

def digitValue (c : Char) : Nat :=
  c.toNat - '0'.toNat

def digitsValue (digits : List Char) : Nat :=
  digits.foldl (fun value c => value * 10 + digitValue c) 0

@[simp] theorem digitsValue_nil : digitsValue [] = 0 :=
  rfl

def hexValue? (c : Char) : Option Nat :=
  if '0' ≤ c && c ≤ '9' then some (c.toNat - '0'.toNat)
  else if 'a' ≤ c && c ≤ 'f' then some (c.toNat - 'a'.toNat + 10)
  else if 'A' ≤ c && c ≤ 'F' then some (c.toNat - 'A'.toNat + 10)
  else none

def hexChar (n : Nat) : Char :=
  if n < 10 then Char.ofNat ('0'.toNat + n) else Char.ofNat ('a'.toNat + (n - 10))

theorem hexValue?_hexChar {n : Nat} (h : n < 16) : hexValue? (hexChar n) = some n := by
  have key : ∀ n < 16, hexValue? (hexChar n) = some n := by decide
  exact key n h

namespace Text

/-- Code points beyond ASCII that leave no mark of their own on a page. -/
def invisibleRanges : List (Nat × Nat) :=
  [ (0x7F, 0x9F), (0xAD, 0xAD), (0x300, 0x36F), (0x483, 0x489), (0x591, 0x5BD), (0x600, 0x605),
    (0x610, 0x61A), (0x61C, 0x61C), (0x64B, 0x65F), (0x6DD, 0x6DD), (0x70F, 0x70F),
    (0x180E, 0x180E), (0x1AB0, 0x1ACE), (0x1DC0, 0x1DFF), (0x200B, 0x200F), (0x202A, 0x202E),
    (0x2060, 0x206F), (0x20D0, 0x20F0), (0xE000, 0xF8FF), (0xFE00, 0xFE0F), (0xFE20, 0xFE2F),
    (0xFEFF, 0xFEFF), (0xFFF0, 0xFFFB), (0xE0000, 0x10FFFF) ]

def isVisible (c : Char) : Bool :=
  c == ' ' || ' ' < c && !Unicode.isSpace c && !Unicode.inRanges invisibleRanges c

def escapeVisibly (c : Char) : List Char :=
  match c with
  | '\x00' => ['\\', '0']
  | '\t' => ['\\', 't']
  | '\n' => ['\\', 'n']
  | '\r' => ['\\', 'r']
  | '"' => ['\\', '"']
  | '\\' => ['\\', '\\']
  | c =>
    if isVisible c then [c] else '\\' :: 'u' :: '\x7b' :: Nat.toDigits 16 c.toNat ++ ['\x7d']

def quoteVisibly (text : String) : String :=
  String.ofList ('"' :: text.toList.flatMap escapeVisibly ++ ['"'])

end Text

end Lexigram
