import RegisterAllocator.Inst.Basic
import RegisterAllocator.Register.Map

/-!
# Hints from copies

A copy between two virtual registers makes them partners: it can go if both get the same register. A copy between a
virtual and a physical register makes the physical one the hint of the virtual one. Later copies replace what earlier
ones said.
-/

namespace RegisterAllocator

/-- What copies ask for. -/
structure Hints where
  partners : VirtMap VirtReg := []
  /-- The physical register that a virtual register should get. -/
  wanted : VirtMap PhysReg := []
deriving DecidableEq, Repr

namespace Hints

def partner? (h : Hints) (r : VirtReg) : Option VirtReg := h.partners.find? r

def hint? (h : Hints) (r : VirtReg) : Option PhysReg := h.wanted.find? r

def isCoalesced (h : Hints) (r : VirtReg) : Bool := h.partners.has r

def isHinted (h : Hints) (r : VirtReg) : Bool := h.wanted.has r

def want (h : Hints) (r : VirtReg) (p : PhysReg) : Hints := { h with wanted := h.wanted.insert r p }

def record (h : Hints) : Reg → Reg → Hints
  | .virt rd, .virt rs => if rd = rs then h else { h with partners := (h.partners.insert rd rs).insert rs rd }
  | .virt r, .phys p | .phys p, .virt r => h.want r p
  | .phys _, .phys _ => h

def ofInsts {τ : Type} (insts : List (Inst τ)) : Hints :=
  (insts.filterMap Inst.copy?).foldl (fun h (rd, rs) => h.record rd rs) {}

end Hints

end RegisterAllocator
