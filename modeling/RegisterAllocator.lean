import RegisterAllocator.Allocation.Allocate
import RegisterAllocator.Allocation.Apply
import RegisterAllocator.Allocation.Message
import RegisterAllocator.Allocation.Problem
import RegisterAllocator.Allocation.Queue
import RegisterAllocator.Allocation.Search
import RegisterAllocator.Allocation.Spill
import RegisterAllocator.Allocation.Stats
import RegisterAllocator.Chain.Basic
import RegisterAllocator.Chain.Board
import RegisterAllocator.Command.Arguments
import RegisterAllocator.Command.Files
import RegisterAllocator.Command.Folder
import RegisterAllocator.Command.Run
import RegisterAllocator.Decimal.Nearest
import RegisterAllocator.Decimal.Reader
import RegisterAllocator.Decimal.Shortest
import RegisterAllocator.Decimal.Text
import RegisterAllocator.Fault
import RegisterAllocator.Graph.Basic
import RegisterAllocator.Graph.DepthFirst
import RegisterAllocator.Graph.Dominance
import RegisterAllocator.Graph.Explore
import RegisterAllocator.Graph.Loops
import RegisterAllocator.Hints
import RegisterAllocator.Inst.Basic
import RegisterAllocator.Inst.Imm12
import RegisterAllocator.Inst.Opcode
import RegisterAllocator.Inst.Printer
import RegisterAllocator.Inst.SlotAccess
import RegisterAllocator.Liveness.Blocks
import RegisterAllocator.Liveness.Ranges
import RegisterAllocator.Machine.Basic
import RegisterAllocator.Machine.Layout
import RegisterAllocator.Machine.Load
import RegisterAllocator.Machine.Printer
import RegisterAllocator.Main
import RegisterAllocator.Pool
import RegisterAllocator.Program.Basic
import RegisterAllocator.Program.Flow
import RegisterAllocator.Register.Basic
import RegisterAllocator.Register.Convention
import RegisterAllocator.Register.Map
import RegisterAllocator.Register.Name
import RegisterAllocator.Register.Set
import RegisterAllocator.Source.Error
import RegisterAllocator.Source.Instruction
import RegisterAllocator.Source.Line
import RegisterAllocator.Source.Operand
import RegisterAllocator.Source.Outline
import RegisterAllocator.Source.Printer
import RegisterAllocator.Source.Reader
import RegisterAllocator.Text.Blank
import RegisterAllocator.Text.Numeral
import RegisterAllocator.Text.Split
import RegisterAllocator.Proofs.Ranges
import RegisterAllocator.Proofs.Search
import RegisterAllocator.Proofs.Sharing
import RegisterAllocator.Proofs.Applied
import RegisterAllocator.Proofs.Liveness
import RegisterAllocator.Proofs.Explicit
import RegisterAllocator.Proofs.Chain
import RegisterAllocator.Proofs.Pool
import RegisterAllocator.Proofs.Loaded
import RegisterAllocator.Proofs.Bodies
import RegisterAllocator.Proofs.Paths
import RegisterAllocator.Proofs.Execution
import RegisterAllocator.Proofs.Spilling
import RegisterAllocator.Proofs.Weaving
import RegisterAllocator.Proofs.Placement
import RegisterAllocator.Proofs.Conservation
import RegisterAllocator.Proofs.Progress
import RegisterAllocator.Proofs.Completeness
import RegisterAllocator.Proofs.Scratch
import RegisterAllocator.Proofs.Copies
import RegisterAllocator.Proofs.Reachability
import RegisterAllocator.Proofs.DepthFirst
import RegisterAllocator.Proofs.Dominators
import RegisterAllocator.Proofs.Frontiers
import RegisterAllocator.Proofs.LoopNests
import RegisterAllocator.Proofs.Operands
import RegisterAllocator.Proofs.PathLiveness
import RegisterAllocator.Proofs.Exhaustion
import RegisterAllocator.Proofs.Success
import RegisterAllocator.Proofs.Faultless
import RegisterAllocator.Proofs.ExactRanges
import RegisterAllocator.Proofs.ChainEdits
import RegisterAllocator.Proofs.Sequences
import RegisterAllocator.Proofs.Contents
import RegisterAllocator.Proofs.Independence
import RegisterAllocator.Proofs.FrameSlots
import RegisterAllocator.Proofs.Rewriting
import RegisterAllocator.Proofs.Splitting
import RegisterAllocator.Proofs.WrittenLines
import RegisterAllocator.Proofs.Literals
import RegisterAllocator.Proofs.WrittenOperands
import RegisterAllocator.Proofs.WrittenInsts
import RegisterAllocator.Proofs.WrittenPrograms
import RegisterAllocator.Proofs.SourceNames
import RegisterAllocator.Proofs.StoredPrograms
import RegisterAllocator.Proofs.PrintedSource
import RegisterAllocator.Proofs.Exploration
import RegisterAllocator.Proofs.FunctionLines
import RegisterAllocator.Proofs.RecursiveSearch
import RegisterAllocator.Proofs.InstructionLines
import RegisterAllocator.Proofs.SourceFunctions
import RegisterAllocator.Proofs.ErrorLines
import RegisterAllocator.Proofs.PoolHistories
import RegisterAllocator.Proofs.Traversal
import RegisterAllocator.Proofs.DominancePasses
import RegisterAllocator.Proofs.FreshRegisters
