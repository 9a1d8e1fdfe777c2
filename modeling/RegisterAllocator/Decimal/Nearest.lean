/-!
# The nearest double

A positive quotient is rounded to a double: its unit is the power of two that leaves 53 bits, or the least one, and the
number of units is rounded to the nearest, a half to the even neighbour.
-/

namespace RegisterAllocator.Decimal

/-- The natural number nearest to `num / den`; a half goes to the even neighbour. -/
def roundEven (num den : Nat) : Nat :=
  let below := num / den
  let rest := 2 * (num % den)
  if rest < den then below else if den < rest then below + 1 else below + below % 2

/-- The largest `k` with `2 ^ k ≤ num / den`. -/
def log2Quotient (num den : Nat) : Int :=
  let k : Int := (num.log2 : Int) - den.log2
  if den <<< k.toNat ≤ num <<< (-k).toNat then k else k - 1

/-- The bits of the double nearest to `num / den`, infinity from the middle above the largest double on. -/
def nearestBits (num den : Nat) : UInt64 :=
  let unit := max (log2Quotient num den - 52) (-1074)
  let count := roundEven (num <<< (-unit).toNat) (den <<< unit.toNat)
  -- A full count of 53 bits carries into the exponent field.
  let bits := (unit + 1074).toNat <<< 52 + count
  UInt64.ofNat (min bits 0x7ff0000000000000)

example : nearestBits 1 10 = 0x3fb999999999999a := by decide
example : nearestBits 9007199254740993 1 = 0x4340000000000000 := by decide

end RegisterAllocator.Decimal
