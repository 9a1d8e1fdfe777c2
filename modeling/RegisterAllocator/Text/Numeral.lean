/-!
# Numerals

Unsigned numerals to base ten and sixteen, and signed integers of 64 bits. A numeral has at least one digit and
nothing but digits; leading zeros do not matter. The magnitude of a signed integer is read as a word of 128 bits.
-/

namespace RegisterAllocator.Numeral

def decimalDigit? (c : Char) : Option Nat :=
  if '0' ≤ c ∧ c ≤ '9' then some (c.toNat - '0'.toNat) else none

def hexDigit? (c : Char) : Option Nat :=
  if '0' ≤ c ∧ c ≤ '9' then some (c.toNat - '0'.toNat)
  else if 'a' ≤ c ∧ c ≤ 'f' then some (c.toNat - 'a'.toNat + 10)
  else if 'A' ≤ c ∧ c ≤ 'F' then some (c.toNat - 'A'.toNat + 10)
  else none

/-- The number that digits denote to a base, most significant first. -/
def ofDigits (base : Nat) (digits : List Nat) : Nat :=
  digits.foldl (fun value digit => value * base + digit) 0

def digits? (digit? : Char → Option Nat) (text : List Char) : Option (List Nat) :=
  if text.isEmpty then none else text.mapM digit?

def decimal? (text : List Char) : Option Nat := (digits? decimalDigit? text).map (ofDigits 10)

abbrev Wide := BitVec 128

/-- The word with one more digit at its end, unless the product or the sum overflows. -/
def Wide.push? (base : Nat) (value : Wide) (digit : Nat) : Option Wide :=
  let base := BitVec.ofNat 128 base
  let digit := BitVec.ofNat 128 digit
  if value.smulOverflow base || (value * base).saddOverflow digit then none
  else some (value * base + digit)

def wide? (base : Nat) (digit? : Char → Option Nat) (text : List Char) : Option Wide :=
  (digits? digit? text).bind fun digits => digits.foldlM (Wide.push? base) 0

/-- A decimal numeral, or a hexadecimal one after `0x` or `0X`. -/
def magnitude? : List Char → Option Wide
  | '0' :: 'x' :: rest | '0' :: 'X' :: rest => wide? 16 hexDigit? rest
  | text => wide? 10 decimalDigit? text

def toInt64? (value : Int) : Option Int64 :=
  if Int64.minValue.toInt ≤ value ∧ value ≤ Int64.maxValue.toInt then some (Int64.ofInt value) else none

/-- An integer literal: an optional minus sign and a magnitude, within 64 bits. -/
def int64? : List Char → Option Int64
  | '-' :: rest => (magnitude? rest).bind fun value => toInt64? (-value).toInt
  | text => (magnitude? text).bind fun value => toInt64? value.toInt

example : int64? "-0x10".toList = some (-16) := by decide
example : int64? "9223372036854775808".toList = none := by decide

end RegisterAllocator.Numeral
