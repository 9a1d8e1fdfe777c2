import RegisterAllocator.Register.Basic
import RegisterAllocator.Text.Numeral

/-!
# Register names

A physical register is written by its name in the calling convention and read by that name, by `fp` for the frame
pointer, or by its number after `x` (general) or `f` (float). A virtual register is `$r` or `$f` with its number.
-/

namespace RegisterAllocator

def RegFile.names : RegFile → List String
  | general =>
    ["zero", "ra", "sp", "gp", "tp", "t0", "t1", "t2", "s0", "s1", "a0", "a1", "a2", "a3", "a4", "a5", "a6",
      "a7", "s2", "s3", "s4", "s5", "s6", "s7", "s8", "s9", "s10", "s11", "t3", "t4", "t5", "t6"]
  | float =>
    ["ft0", "ft1", "ft2", "ft3", "ft4", "ft5", "ft6", "ft7", "fs0", "fs1", "fa0", "fa1", "fa2", "fa3", "fa4",
      "fa5", "fa6", "fa7", "fs2", "fs3", "fs4", "fs5", "fs6", "fs7", "fs8", "fs9", "fs10", "fs11", "ft8",
      "ft9", "ft10", "ft11"]

def RegFile.word : RegFile → String
  | general => "General"
  | float => "Float"

namespace PhysReg

/-- The name of a register; a number beyond the file has none. -/
def name (r : PhysReg) : String := r.file.names[r.number.toNat]?.getD "<invalid>"

def named? (file : RegFile) (name : String) : Option PhysReg :=
  (file.names.findIdx? (· == name)).map fun number => ⟨number.toUInt8, file⟩

def numbered? (file : RegFile) (digits : List Char) : Option PhysReg :=
  match Numeral.decimal? digits with
  | some number => if number < 32 then some ⟨number.toUInt8, file⟩ else none
  | none => none

def ofName? (name : String) : Option PhysReg :=
  if name = "fp" then named? .general "s0"
  else
    named? .general name <|> named? .float name <|>
      match name.toList with
      | 'x' :: digits => numbered? .general digits
      | 'f' :: digits => numbered? .float digits
      | _ => none

end PhysReg

namespace VirtReg

def sign : RegFile → String
  | .general => "$r"
  | .float => "$f"

def name (r : VirtReg) : String := sign r.file ++ toString r.number.toNat

def numbered? (file : RegFile) (digits : List Char) : Option VirtReg :=
  match Numeral.decimal? digits with
  | some number => if number < UInt32.size then some ⟨number.toUInt32, file⟩ else none
  | none => none

def ofName? (name : String) : Option VirtReg :=
  match name.toList with
  | '$' :: 'r' :: digits => numbered? .general digits
  | '$' :: 'f' :: digits => numbered? .float digits
  | _ => none

end VirtReg

namespace Reg

def name : Reg → String
  | phys r => r.name
  | virt r => r.name

def ofName? (name : String) : Option Reg :=
  (VirtReg.ofName? name).map virt <|> (PhysReg.ofName? name).map phys

end Reg

end RegisterAllocator
