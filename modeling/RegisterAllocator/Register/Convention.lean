import RegisterAllocator.Register.Basic

/-!
# The calling convention

The roles of the physical registers: which carry arguments, which a call overwrites, which the allocator hands out
and in which order, which it keeps for spill code, and which are tracked by the analyses.
-/

namespace RegisterAllocator

namespace PhysReg

def x (number : UInt8) : PhysReg := ⟨number, .general⟩

def f (number : UInt8) : PhysReg := ⟨number, .float⟩

/-- The register that always reads zero. -/
def zero : PhysReg := x 0

def sp : PhysReg := x 2

/-- The scratch registers of general spill code, never handed out. -/
def scratchGeneral : List PhysReg := [x 5, x 6]

def scratchFloat : List PhysReg := [f 0, f 1, f 2]

def scratch : RegFile → List PhysReg
  | .general => scratchGeneral
  | .float => scratchFloat

/-- The registers `a0` to `a7` that carry general arguments. -/
def generalArguments : List PhysReg := [10, 11, 12, 13, 14, 15, 16, 17].map x

/-- The registers `fa0` to `fa7` that carry float arguments. -/
def floatArguments : List PhysReg := [10, 11, 12, 13, 14, 15, 16, 17].map f

/-- The registers that a call overwrites. -/
def callerSaved : List PhysReg :=
  [1, 5, 6, 7, 28, 29, 30, 31].map x ++ generalArguments ++
    [0, 1, 2, 3, 4, 5, 6, 7, 28, 29, 30, 31].map f ++ floatArguments

/-- The registers that a function hands back unchanged. -/
def calleeSaved : List PhysReg :=
  [2, 8, 9, 18, 19, 20, 21, 22, 23, 24, 25, 26, 27].map x ++
    [8, 9, 18, 19, 20, 21, 22, 23, 24, 25, 26, 27].map f

/-- The registers that the allocator hands out, most preferred first. -/
def allocatable : List PhysReg :=
  generalArguments ++ floatArguments ++ [28, 29, 30, 31].map x ++ [3, 4, 5, 6, 7, 28, 29, 30, 31].map f ++
    [9, 18, 19, 20, 21, 22, 23, 24, 25, 26, 27].map x ++ [8, 9, 18, 19, 20, 21, 22, 23, 24, 25, 26, 27].map f

def allocatableIn (file : RegFile) : List PhysReg := allocatable.filter (·.file = file)

/-- The argument and temporary registers. Code may name them, so their own live ranges are respected. -/
def fixed : List PhysReg :=
  generalArguments ++ floatArguments ++ [5, 6, 7, 28, 29, 30, 31].map x ++
    [0, 1, 2, 3, 4, 5, 6, 7, 28, 29, 30, 31].map f

def isAllocatable (r : PhysReg) : Bool := allocatable.contains r

def isFixed (r : PhysReg) : Bool := fixed.contains r

end PhysReg

/-- Whether the analyses follow a register: every virtual one, and the argument and temporary registers. -/
def Reg.isTracked : Reg → Bool
  | .phys r => r.isFixed
  | .virt _ => true

end RegisterAllocator
