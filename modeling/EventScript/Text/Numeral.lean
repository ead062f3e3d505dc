import EventScript.Text.Blank

/-!
# Numerals

Digits of a radix up to sixteen, read and written. `value?` reads a run of digits, `read?` reads a
bounded numeral that may carry a plus sign, and `word?` reads the two spellings of a 32-bit number:
plain decimal, or hexadecimal after `0x`. `hex` and `hexDigitsPadded` write hexadecimal numerals.
-/

namespace EventScript.Text.Numeral

/-- The largest 32-bit number. -/
def maxWord : Nat := 0xffffffff

/-- The value of a character as a hexadecimal digit of either case. -/
def hexDigit? (c : Char) : Option Nat :=
  if '0' ≤ c ∧ c ≤ '9' then some (c.toNat - '0'.toNat)
  else if 'a' ≤ c ∧ c ≤ 'f' then some (c.toNat - 'a'.toNat + 10)
  else if 'A' ≤ c ∧ c ≤ 'F' then some (c.toNat - 'A'.toNat + 10)
  else none

/-- The value of a character as a digit of `radix`, which is at most sixteen. -/
def digit? (radix : Nat) (c : Char) : Option Nat :=
  (hexDigit? c).filter (fun value => value < radix)

/-- The character is a digit of `radix`. -/
def isDigit (radix : Nat) (c : Char) : Bool :=
  (digit? radix c).isSome

/-- Read the digits of `radix` that follow those of `high`, most significant first. -/
def valueFrom? (radix : Nat) : Nat → List Char → Option Nat
  | high, [] => some high
  | high, c :: rest =>
      match digit? radix c with
      | none => none
      | some low => valueFrom? radix (high * radix + low) rest

/-- The value of a run of at least one digit of `radix`. -/
def value? (radix : Nat) (digits : List Char) : Option Nat :=
  if digits.isEmpty then none else valueFrom? radix 0 digits

/-- The value of a numeral of at most `limit`, which may start with one plus sign. -/
def read? (radix limit : Nat) (text : List Char) : Option Nat :=
  let digits := match text with
    | '+' :: rest => rest
    | _ => text
  (value? radix digits).filter (fun value => value ≤ limit)

/-- A 32-bit number written in decimal, or in hexadecimal after `0x` or `0X`, with blanks around
it. -/
def word? (text : List Char) : Option UInt32 :=
  let number? := match Text.trim text with
    | '0' :: 'x' :: digits => read? 16 maxWord digits
    | '0' :: 'X' :: digits => read? 16 maxWord digits
    | digits => read? 10 maxWord digits
  number?.map UInt32.ofNat

/-- The hexadecimal digits of a number, in lower case and without leading zeros. -/
def hexDigits (value : Nat) : List Char :=
  Nat.toDigits 16 value

/-- The hexadecimal digits of a number, filled up with leading zeros to at least `width`. -/
def hexDigitsPadded (width value : Nat) : List Char :=
  let digits := hexDigits value
  List.replicate (width - digits.length) '0' ++ digits

/-- A number in hexadecimal after `0x`. -/
def hex (value : Nat) : String :=
  "0x" ++ String.ofList (hexDigits value)

/-- An address in hexadecimal after `0x`, with all eight digits. -/
def address (value : UInt32) : String :=
  "0x" ++ String.ofList (hexDigitsPadded 8 value.toNat)

example : word? " 0x+FF ".toList = some 255 := by decide
example : word? "4294967296".toList = none := by decide
example : address 0x8000010 = "0x08000010" := by decide

end EventScript.Text.Numeral
