import RegisterAllocator.Inst.Printer
import RegisterAllocator.Program.Basic

/-!
# Source text of programs

A program written so that it can be read back: each function between its directives, with its frame size, the
instructions of the entry block and then every other block under its label.
-/

namespace RegisterAllocator.Source

def line (text : String) : String := text ++ "\n"

def instLine (blocks : List Block) (inst : Inst Nat) : String :=
  line (inst.mapTarget fun position => (blocks[position]?.map Block.label).getD "").text

def instLines (blocks : List Block) (block : Block) : String := String.join (block.insts.map (instLine blocks))

def blockLines (blocks : List Block) : String :=
  match blocks with
  | [] => ""
  | entry :: rest =>
    instLines blocks entry ++ String.join (rest.map fun block => line (block.label ++ ":") ++ instLines blocks block)

def itemLines : Item → String
  | .external label => line (".extern " ++ label)
  | .function f =>
    line (".func " ++ f.label) ++ line (".frame " ++ toString f.frame.toNat) ++ blockLines f.blocks ++ line ".endfunc"

def print (program : Program) : String := String.join (program.map itemLines)

end RegisterAllocator.Source
