import RegisterAllocator.Decimal.Nearest
import RegisterAllocator.Text.Numeral

/-!
# Reading floating point numbers

A number is an optional sign and then `inf`, `infinity` or `nan` in any case, or digits with an optional point among
them and an optional exponent. At least one digit stands before the exponent, and one in it.
-/

namespace RegisterAllocator.Decimal

/-- The value of a text of digits, which may be empty, and their number. -/
def digits? (text : List Char) : Option (Nat × Nat) :=
  (text.mapM Numeral.decimalDigit?).map fun digits => (Numeral.ofDigits 10 digits, digits.length)

/-- The double nearest to `digits * 10 ^ exponent`. Numbers far beyond the range are decided by their size. -/
def toFloat (digits : Nat) (exponent : Int) : Float :=
  let size : Int := (Nat.toDigits 10 digits).length + exponent
  if digits = 0 then 0.0
  else if 400 < size then 1.0 / 0.0
  else if size < -400 then 0.0
  else Float.ofBits (nearestBits (digits * Nat.pow 10 exponent.toNat) (Nat.pow 10 (-exponent).toNat))

/-- An exponent: an optional sign and digits. -/
def exponent? : List Char → Option Int
  | '+' :: rest => (Numeral.decimal? rest).map Int.ofNat
  | '-' :: rest => (Numeral.decimal? rest).map fun value => -Int.ofNat value
  | text => (Numeral.decimal? text).map Int.ofNat

def magnitude? (text : List Char) : Option Float :=
  let word := text.map Char.toLower
  if word = "inf".toList ∨ word = "infinity".toList then some (1.0 / 0.0)
  else if word = "nan".toList then some (0.0 / 0.0)
  else do
    let isMark (c : Char) : Bool := c == 'e' || c == 'E'
    let front := text.takeWhile (!isMark ·)
    let exponent ← match text.dropWhile (!isMark ·) with
      | [] => some 0
      | _ :: rest => exponent? rest
    let whole := front.takeWhile (· ≠ '.')
    let fraction := (front.dropWhile (· ≠ '.')).drop 1
    let (wholeValue, wholeCount) ← digits? whole
    let (fractionValue, fractionCount) ← digits? fraction
    if wholeCount + fractionCount = 0 then none
    else some (toFloat (wholeValue * Nat.pow 10 fractionCount + fractionValue) (exponent - fractionCount))

def ofText? (text : String) : Option Float :=
  match text.toList with
  | '+' :: rest => magnitude? rest
  | '-' :: rest => (magnitude? rest).map fun value => -value
  | rest => magnitude? rest

end RegisterAllocator.Decimal
