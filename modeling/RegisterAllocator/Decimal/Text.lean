import RegisterAllocator.Decimal.Shortest

/-!
# The text of weights

Weights are written with the fewest digits that read back, always positionally, and without a point if they are whole.
-/

namespace RegisterAllocator.Decimal

def Scaled.positional (s : Scaled) : String :=
  let digits := (toString s.digits).toList
  let places := (-s.exponent).toNat
  if 0 ≤ s.exponent then String.ofList (digits ++ List.replicate s.exponent.toNat '0')
  else if places < digits.length then
    String.ofList (digits.take (digits.length - places) ++ '.' :: digits.drop (digits.length - places))
  else "0." ++ String.ofList (List.replicate (places - digits.length) '0' ++ digits)

def text (x : Float) : String :=
  if x.isNaN then "NaN"
  else
    let bits := x.toBits
    let sign := if bits >>> 63 = 0 then "" else "-"
    let magnitude := bits &&& 0x7fffffffffffffff
    if x.isInf then sign ++ "inf"
    else if magnitude = 0 then sign ++ "0"
    else sign ++ (Binary.ofBits magnitude).shortest.positional

end RegisterAllocator.Decimal
