import RegisterAllocator.Chain.Basic
import RegisterAllocator.Inst.Basic
import RegisterAllocator.Pool

/-!
# The machine

A machine stores functions, blocks and instructions in three pools and names them by handles. Instructions are
chained in blocks and blocks in functions, so code can be built and edited in place. The machine also counts the
virtual registers that it has given out.
-/

namespace RegisterAllocator

structure InstId where
  slot : Nat
deriving DecidableEq, Repr

structure BlockId where
  slot : Nat
deriving DecidableEq, Repr

structure FuncId where
  slot : Nat
deriving DecidableEq, Repr

structure InstNode where
  inst : Inst BlockId
  links : Links InstId BlockId := {}

structure BlockNode where
  label : String
  /-- The ends of the block's instructions. -/
  code : Ends InstId := {}
  links : Links BlockId FuncId := {}

structure FuncNode where
  label : String
  /-- Whether the function is defined elsewhere. -/
  external : Bool
  /-- The size of the stack frame in bytes. -/
  frame : UInt64 := 0
  /-- The registers given to the function's values, in ascending order. -/
  saved : List PhysReg := []
  /-- The ends of the function's blocks. -/
  layout : Ends BlockId := {}

structure Machine where
  insts : Pool InstNode := {}
  blocks : Pool BlockNode := {}
  funcs : Pool FuncNode := {}
  /-- The number of the next virtual register. -/
  nextVirt : UInt32 := 0

namespace Machine

instance : Chained Machine InstId BlockId where
  links? m i := (m.insts.get? i.slot).map (·.links)
  setLinks m i links :=
    match m.insts.get? i.slot with
    | some node => { m with insts := m.insts.set i.slot { node with links } }
    | none => m
  ends? m b := (m.blocks.get? b.slot).map (·.code)
  setEnds m b code :=
    match m.blocks.get? b.slot with
    | some node => { m with blocks := m.blocks.set b.slot { node with code } }
    | none => m
  capacity m := m.insts.capacity

instance : Chained Machine BlockId FuncId where
  links? m b := (m.blocks.get? b.slot).map (·.links)
  setLinks m b links :=
    match m.blocks.get? b.slot with
    | some node => { m with blocks := m.blocks.set b.slot { node with links } }
    | none => m
  ends? m f := (m.funcs.get? f.slot).map (·.layout)
  setEnds m f layout :=
    match m.funcs.get? f.slot with
    | some node => { m with funcs := m.funcs.set f.slot { node with layout } }
    | none => m
  capacity m := m.blocks.capacity

/-! ## Reading -/

def inst (m : Machine) (i : InstId) : Except Fault (Inst BlockId) := (·.inst) <$> m.insts.get i.slot

def func (m : Machine) (f : FuncId) : Except Fault FuncNode := m.funcs.get f.slot

def label (m : Machine) (b : BlockId) : Except Fault String := (·.label) <$> m.blocks.get b.slot

def instLinks (m : Machine) (i : InstId) : Except Fault (Links InstId BlockId) := Chain.links m i

def blockLinks (m : Machine) (b : BlockId) : Except Fault (Links BlockId FuncId) := Chain.links m b

def codeEnds (m : Machine) (b : BlockId) : Except Fault (Ends InstId) := Chain.ends m b

def code (m : Machine) (b : BlockId) : Except Fault (List InstId) := Chain.toList m b

def layout (m : Machine) (f : FuncId) : Except Fault (List BlockId) := Chain.toList m f

def funcIds (m : Machine) : List FuncId := m.funcs.toList.map fun (slot, _) => ⟨slot⟩

/-- The first function with a label. -/
def findFunc? (m : Machine) (label : String) : Option FuncId :=
  (m.funcs.toList.find? fun (_, node) => node.label == label).map fun (slot, _) => ⟨slot⟩

def countInsts (m : Machine) (f : FuncId) : Except Fault Nat := do
  let code ← (← m.layout f).mapM m.code
  pure code.flatten.length

def fallsThrough (m : Machine) (b : BlockId) : Except Fault Bool := do
  match (← m.codeEnds b).tail with
  | some last => Inst.fallsThrough <$> m.inst last
  | none => pure true

/-- Where control goes from the end of a block: to the next block, if the end can be reached and there is one. -/
def exit? (m : Machine) (b : BlockId) : Except Fault (Option BlockId) := do
  if ← m.fallsThrough b then return (← m.blockLinks b).next else return none

/-- The blocks that control may go to from a block: the targets of its branches in order, then where it goes from the
end. -/
def succs (m : Machine) (b : BlockId) : Except Fault (List BlockId) := do
  let targets ← (← m.code b).mapM fun i => Inst.targets <$> m.inst i
  return targets.flatten ++ (← m.exit? b).toList

/-! ## Creating and releasing -/

def addInst (m : Machine) (inst : Inst BlockId) : Machine × InstId :=
  ({ m with insts := m.insts.insert { inst } }, ⟨m.insts.nextSlot⟩)

def addInsts (m : Machine) : List (Inst BlockId) → Machine × List InstId
  | [] => (m, [])
  | inst :: rest =>
    let (m, i) := m.addInst inst
    let (m, ids) := m.addInsts rest
    (m, i :: ids)

def addBlock (m : Machine) (label : String) : Machine × BlockId :=
  ({ m with blocks := m.blocks.insert { label } }, ⟨m.blocks.nextSlot⟩)

def addFunc (m : Machine) (label : String) (external : Bool) : Machine × FuncId :=
  ({ m with funcs := m.funcs.insert { label, external } }, ⟨m.funcs.nextSlot⟩)

/-- Release an instruction's slot, wherever it is linked. -/
def freeInst (m : Machine) (i : InstId) : Except Fault Machine := do
  pure { m with insts := ← m.insts.erase i.slot }

def freeBlock (m : Machine) (b : BlockId) : Except Fault Machine := do
  pure { m with blocks := ← m.blocks.erase b.slot }

def freeFunc (m : Machine) (f : FuncId) : Except Fault Machine := do
  pure { m with funcs := ← m.funcs.erase f.slot }

/-! ## Editing -/

def pushInst (m : Machine) (b : BlockId) (i : InstId) : Except Fault Machine := Chain.pushBack m b i

def pushBlock (m : Machine) (f : FuncId) (b : BlockId) : Except Fault Machine := Chain.pushBack m f b

def unlinkInst (m : Machine) (i : InstId) : Except Fault Machine := Chain.unlink (κ := BlockId) m i

def unlinkBlock (m : Machine) (b : BlockId) : Except Fault Machine := Chain.unlink (κ := FuncId) m b

def removeInst (m : Machine) (i : InstId) : Except Fault Machine := do
  (← m.unlinkInst i).freeInst i

def modifyInst (m : Machine) (i : InstId) (change : Inst BlockId → Inst BlockId) : Except Fault Machine := do
  pure { m with insts := ← m.insts.modify i.slot fun node => { node with inst := change node.inst } }

def modifyFunc (m : Machine) (f : FuncId) (change : FuncNode → FuncNode) : Except Fault Machine := do
  pure { m with funcs := ← m.funcs.modify f.slot change }

/-- Store new instructions, then link them in order right before `i`. -/
def insertBefore (m : Machine) (i : InstId) (code : List (Inst BlockId)) : Except Fault Machine :=
  let (m, ids) := m.addInsts code
  ids.foldlM (fun m new => Chain.insertBefore (κ := BlockId) m i new) m

def insertAfter (m : Machine) (i : InstId) (code : List (Inst BlockId)) : Except Fault Machine :=
  let (m, ids) := m.addInsts code
  Prod.fst <$> ids.foldlM (fun (m, last) new => return (← Chain.insertAfter (κ := BlockId) m last new, new)) (m, i)

/-- The sum of a frame size and an extension, if it is a size. -/
def extendFrame (frame size : UInt64) : Except Fault UInt64 :=
  if frame.toNat + size.toNat < UInt64.size then .ok (frame + size) else .error .overflow

def growFrame (m : Machine) (f : FuncId) (size : UInt64) : Except Fault Machine := do
  let node ← m.func f
  let frame ← extendFrame node.frame size
  m.modifyFunc f ({ · with frame })

def placeSaved (r : PhysReg) : List PhysReg → List PhysReg
  | [] => [r]
  | first :: rest =>
    if r.key < first.key then r :: first :: rest
    else if r = first then first :: rest
    else first :: placeSaved r rest

def addSaved (m : Machine) (f : FuncId) (r : PhysReg) : Except Fault Machine :=
  m.modifyFunc f fun node => { node with saved := placeSaved r node.saved }

def nextNumber (number : UInt32) : Except Fault UInt32 :=
  match VirtReg.nextNumber? number with
  | some next => .ok next
  | none => .error .overflow

def newVirt (m : Machine) (file : RegFile) : Except Fault (Machine × VirtReg) := do
  let next ← nextNumber m.nextVirt
  pure ({ m with nextVirt := next }, ⟨m.nextVirt, file⟩)

/-- Number new virtual registers after `r`. -/
def reserveVirt (m : Machine) (r : VirtReg) : Except Fault Machine := do
  let next ← nextNumber r.number
  pure { m with nextVirt := max m.nextVirt next }

end Machine

end RegisterAllocator
