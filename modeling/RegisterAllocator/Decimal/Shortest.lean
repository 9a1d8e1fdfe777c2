/-!
# Shortest decimals

A binary floating point number is a positive integer times a power of two. The decimals that round to it fill an
interval. Of these the shortest has the largest power of ten as its unit; of two such the nearer one is taken, and of
two equally near ones the larger.
-/

namespace RegisterAllocator.Decimal

/-- The number `mantissa * 2 ^ exponent`. -/
structure Binary where
  mantissa : Nat
  exponent : Int
deriving DecidableEq, Repr

/-- The number `digits * 10 ^ exponent`. -/
structure Scaled where
  digits : Nat
  exponent : Int
deriving DecidableEq, Repr

namespace Binary

/-- The finite number that the bits of a double denote, without its sign. -/
def ofBits (bits : UInt64) : Binary :=
  let fraction := (bits &&& 0x000fffffffffffff).toNat
  let biased := ((bits >>> 52) &&& 0x7ff).toNat
  if biased = 0 then ⟨fraction, -1074⟩ else ⟨fraction + 0x0010000000000000, (biased : Int) - 1075⟩

/-- Whether the next smaller number is only half as far away as the next larger one. -/
def isPowerAbove (b : Binary) : Bool := b.mantissa == 0x0010000000000000 && b.exponent != -1074

/-- The interval of the numbers that round to `b`, and `b` itself, in quarters of `2 ^ b.exponent`. -/
def low (b : Binary) : Nat := 4 * b.mantissa - if b.isPowerAbove then 1 else 2

def high (b : Binary) : Nat := 4 * b.mantissa + 2

/-- Factors that make quarters of `2 ^ b.exponent` and multiples of `10 ^ unit` comparable integers. -/
def factors (b : Binary) (unit : Int) : Nat × Nat :=
  let shift := b.exponent - 2
  (Nat.pow 10 (-unit).toNat <<< shift.toNat, Nat.pow 10 unit.toNat <<< (-shift).toNat)

/-- Whether `digits * 10 ^ unit` rounds to `b`. The ends of the interval do if the mantissa is even. -/
def roundsTo (b : Binary) (unit : Int) (digits : Nat) : Bool :=
  let (binary, decimal) := b.factors unit
  let low := b.low * binary
  let high := b.high * binary
  let value := digits * decimal
  if b.mantissa % 2 = 0 then low ≤ value && value ≤ high else low < value && value < high

/-- The multiple of `10 ^ unit` that is nearest to `b` among those that round to it. -/
def nearest? (b : Binary) (unit : Int) : Option Nat :=
  let (binary, decimal) := b.factors unit
  let value := 4 * b.mantissa * binary
  let below := value / decimal
  let above := below + 1
  match b.roundsTo unit below, b.roundsTo unit above with
  | true, true => some (if 2 * (value % decimal) < decimal then below else above)
  | true, false => some below
  | false, true => some above
  | false, false => none

/-- The shortest decimal that rounds to a positive number. Units from `10 ^ 309` down to `10 ^ -330` are tried. -/
def shortest (b : Binary) : Scaled :=
  let found := (List.range 640).findSome? fun (step : Nat) =>
    let unit : Int := 309 - (step : Int)
    (b.nearest? unit).map fun digits => (⟨digits, unit⟩ : Scaled)
  found.getD ⟨0, 0⟩

end Binary

end RegisterAllocator.Decimal
