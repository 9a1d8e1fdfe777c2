/-!
# Registers

There are two register files, one for integers and addresses and one for floating point numbers. A physical
register is a number within its file. Virtual registers are numbered without bound on how many are in use, except
that a number has 32 bits; allocation replaces them by physical registers or by slots of the stack frame.

Registers are ordered: physical before virtual, then by number, then general before float. `Reg.key` is that
order as a number, and `Reg.key_injective` says that it identifies the register.
-/

namespace RegisterAllocator

inductive RegFile where
  | general
  | float
deriving DecidableEq, Repr

/-- The place of a file among registers of one number. -/
def RegFile.rank : RegFile → Nat
  | general => 0
  | float => 1

structure PhysReg where
  number : UInt8
  file : RegFile
deriving DecidableEq, Repr

structure VirtReg where
  number : UInt32
  file : RegFile
deriving DecidableEq, Repr

inductive Reg where
  | phys (reg : PhysReg)
  | virt (reg : VirtReg)
deriving DecidableEq, Repr

instance : Coe PhysReg Reg := ⟨.phys⟩
instance : Coe VirtReg Reg := ⟨.virt⟩

def PhysReg.key (r : PhysReg) : Nat := 2 * r.number.toNat + r.file.rank

def VirtReg.key (r : VirtReg) : Nat := 2 * r.number.toNat + r.file.rank

def VirtReg.nextNumber? (number : UInt32) : Option UInt32 :=
  if number.toNat + 1 < UInt32.size then some (number + 1) else none

namespace Reg

def file : Reg → RegFile
  | phys r => r.file
  | virt r => r.file

def phys? : Reg → Option PhysReg
  | phys r => some r
  | virt _ => none

def virt? : Reg → Option VirtReg
  | phys _ => none
  | virt r => some r

def isVirt : Reg → Bool
  | phys _ => false
  | virt _ => true

def key : Reg → Nat
  | phys r => r.key
  | virt r => 512 + r.key

def sort (regs : List Reg) : List Reg := regs.mergeSort fun a b => a.key ≤ b.key

end Reg

theorem RegFile.rank_lt (f : RegFile) : f.rank < 2 := by cases f <;> decide

theorem RegFile.rank_injective {f g : RegFile} (h : f.rank = g.rank) : f = g := by
  cases f <;> cases g <;> simp_all [RegFile.rank]

theorem PhysReg.key_lt (r : PhysReg) : r.key < 512 := by
  have number := r.number.toNat_lt
  have rank := r.file.rank_lt
  unfold PhysReg.key
  omega

theorem PhysReg.key_injective {a b : PhysReg} (h : a.key = b.key) : a = b := by
  obtain ⟨m, f⟩ := a
  obtain ⟨n, g⟩ := b
  have rankF := f.rank_lt
  have rankG := g.rank_lt
  simp only [PhysReg.key] at h
  have number : m.toNat = n.toNat := by omega
  have file : f.rank = g.rank := by omega
  rw [UInt8.toNat_inj.mp number, RegFile.rank_injective file]

theorem VirtReg.key_injective {a b : VirtReg} (h : a.key = b.key) : a = b := by
  obtain ⟨m, f⟩ := a
  obtain ⟨n, g⟩ := b
  have rankF := f.rank_lt
  have rankG := g.rank_lt
  simp only [VirtReg.key] at h
  have number : m.toNat = n.toNat := by omega
  have file : f.rank = g.rank := by omega
  rw [UInt32.toNat_inj.mp number, RegFile.rank_injective file]

theorem Reg.key_injective {a b : Reg} (h : a.key = b.key) : a = b := by
  cases a with
  | phys r =>
    cases b with
    | phys s => rw [PhysReg.key_injective h]
    | virt s =>
      have bound := r.key_lt
      simp only [Reg.key] at h
      omega
  | virt r =>
    cases b with
    | phys s =>
      have bound := s.key_lt
      simp only [Reg.key] at h
      omega
    | virt s => rw [VirtReg.key_injective (by simp only [Reg.key] at h; omega : r.key = s.key)]

end RegisterAllocator
