import RegisterAllocator.Inst.Printer
import RegisterAllocator.Machine.Basic

/-!
# The listing of a machine

All functions in slot order, each block under its label and each instruction on a line of its own. The label of a
function has a line of its own unless the entry block has the same label.
-/

namespace RegisterAllocator.Machine

def instText (m : Machine) (i : InstId) : Except Fault String := do
  return (← (← m.inst i).mapTargetM m.label).text

def blockText (m : Machine) (b : BlockId) : Except Fault String := do
  let lines ← (← m.code b).mapM fun i => return "\t" ++ (← m.instText i) ++ "\n"
  return (← m.label b) ++ ":\n" ++ String.join lines

def funcText (m : Machine) (f : FuncId) : Except Fault String := do
  let node ← m.func f
  if node.external then return "\t.extern " ++ node.label ++ "\n"
  let opening := "\t.global " ++ node.label ++ "\n\t.type " ++ node.label ++ ", @function\n\t# frame size: " ++
    toString node.frame.toNat ++ "\n"
  let entry := node.layout.head
  let named ← match entry with
    | some b => (· == node.label) <$> m.label b
    | none => pure false
  let blocks ← (← Chain.following FuncId m entry).mapM m.blockText
  return opening ++ (if named then "" else node.label ++ ":\n") ++ String.join blocks ++ "\n"

def text (m : Machine) : Except Fault String := do
  return "\t.text\n" ++ String.join (← m.funcIds.mapM m.funcText)

end RegisterAllocator.Machine
