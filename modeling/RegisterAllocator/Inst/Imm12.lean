/-!
# Immediates of twelve bits

The constants of register-immediate operations and the offsets of loads and stores: integers from -2048 to 2047,
kept in two's complement.
-/

namespace RegisterAllocator

structure Imm12 where
  bits : BitVec 12
deriving DecidableEq, Repr

namespace Imm12

def toInt (imm : Imm12) : Int := imm.bits.toInt

/-- The immediate for an integer from -2048 to 2047. -/
def ofInt? (value : Int) : Option Imm12 :=
  if -2048 ≤ value ∧ value ≤ 2047 then some ⟨BitVec.ofInt 12 value⟩ else none

/-- The immediate for a natural number below 2048. -/
def ofNat? (value : Nat) : Option Imm12 := ofInt? value

def zero : Imm12 := ⟨0⟩

def isZero (imm : Imm12) : Bool := imm.bits == 0

def compare (a b : Imm12) : Ordering := Ord.compare a.toInt b.toInt

def text (imm : Imm12) : String := toString imm.toInt

theorem toInt_of_ofInt? {value : Int} {imm : Imm12} (h : ofInt? value = some imm) : imm.toInt = value := by
  unfold ofInt? at h
  split at h
  · next range =>
    cases h
    simp only [toInt, BitVec.toInt_ofInt]
    rw [Int.bmod_eq_of_le] <;> omega
  · cases h

end Imm12

end RegisterAllocator
