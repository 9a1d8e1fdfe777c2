import RegisterAllocator.Proofs.ChainEdits
import RegisterAllocator.Proofs.Loaded

/-!
# Machines as sequences

Whatever sequence of operations builds and edits the code of a machine, each block stands for a sequence of instructions
and each function for a sequence of blocks (`Machine.Sequenced`). An operation that is allowed edits those sequences as
it says, and any other faults and leaves the machine as it is (`chains_refine_sequences`).
-/

namespace RegisterAllocator

open InPlace (write)

/-- The handles of a machine, and the sequences that its blocks and functions stand for. -/
@[ext] structure Shape where
  insts : Set InstId
  blocks : Set BlockId
  funcs : Set FuncId
  code : BlockId → List InstId
  layout : FuncId → List BlockId

namespace Machine

def shape (m : Machine) : Shape where
  insts := Chain.nodes InstId BlockId m
  blocks := Chain.nodes BlockId FuncId m
  funcs := Chain.containers BlockId FuncId m
  code := Chain.sequence m
  layout := Chain.sequence m

/-- An operation that builds or edits code. -/
inductive Operation where
  | addFunc (label : String) (external : Bool)
  | addBlock (label : String)
  | addInst (inst : Inst BlockId)
  | code (edit : Chain.Edit InstId BlockId)
  | layout (edit : Chain.Edit BlockId FuncId)
  | removeInst (i : InstId)

namespace Operation

def run (m : Machine) : Operation → Except Fault Machine
  | addFunc label external => .ok (m.addFunc label external).1
  | addBlock label => .ok (m.addBlock label).1
  | addInst inst => .ok (m.addInst inst).1
  | code edit => edit.run m
  | layout edit => edit.run m
  | removeInst i => m.removeInst i

def inPlace : Operation → EStateM Fault Machine Unit
  | addFunc label external => modify fun m => (m.addFunc label external).1
  | addBlock label => modify fun m => (m.addBlock label).1
  | addInst inst => modify fun m => (m.addInst inst).1
  | code edit => edit.inPlace
  | layout edit => edit.inPlace
  | removeInst i => do
    (Chain.Edit.unlink i : Chain.Edit InstId BlockId).inPlace
    write (freeInst · i)

def after (op : Operation) (m : Machine) : Machine :=
  match op.inPlace.run m with
  | .ok _ m' => m'
  | .error _ m' => m'

/-- What an operation asks for. -/
def Allowed (shape : Shape) : Operation → Prop
  | addFunc .. | addBlock _ | addInst _ => True
  | code edit => edit.Allowed shape.insts shape.blocks shape.code
  | layout edit => edit.Allowed shape.blocks shape.funcs shape.layout
  | removeInst i => i ∈ shape.insts

/-- What an operation does to handles and sequences. -/
def Performs (shape shape' : Shape) : Operation → Prop
  | addFunc .. => ∃ f ∉ shape.funcs, shape' = { shape with funcs := insert f shape.funcs }
  | addBlock _ => ∃ b ∉ shape.blocks, shape' = { shape with blocks := insert b shape.blocks }
  | addInst _ => ∃ i ∉ shape.insts, shape' = { shape with insts := insert i shape.insts }
  | code edit => shape' = { shape with code := edit.apply shape.code }
  | layout edit => shape' = { shape with layout := edit.apply shape.layout }
  | removeInst i => shape' = { shape with
      insts := shape.insts \ {i}
      code := Chain.Edit.apply shape.code (.unlink i) }

theorem follows (op : Operation) : InPlace.Follows op.inPlace fun m => op.run m := by
  cases op with
  | addFunc | addBlock | addInst => exact fun _ => rfl
  | code edit => exact edit.follows
  | layout edit => exact edit.follows
  | removeInst i => exact .bind (Chain.Edit.follows _) fun _ => InPlace.follows_write _

end Operation

/-- The machine that operations lead to from the empty one, faulting or not. -/
def build (ops : List Operation) : Machine := ops.foldl (fun m op => op.after m) {}

/-- The blocks and functions of a machine stand for sequences, and traversal lists them in both directions. -/
structure Sequenced (m : Machine) : Prop where
  code : Chain.Linked m m.shape.code
  layout : Chain.Linked m m.shape.layout
  forwardCode : ∀ b ∈ m.shape.blocks, m.code b = .ok (m.shape.code b)
  backwardCode : ∀ b ∈ m.shape.blocks, Chain.toListBack m b = .ok (m.shape.code b).reverse
  forwardLayout : ∀ f ∈ m.shape.funcs, m.layout f = .ok (m.shape.layout f)
  backwardLayout : ∀ f ∈ m.shape.funcs, Chain.toListBack m f = .ok (m.shape.layout f).reverse

variable {m m' : Machine} {code : BlockId → List InstId} {layout : FuncId → List BlockId}

theorem containers_eq (m : Machine) : Chain.containers InstId BlockId m = Chain.nodes BlockId FuncId m := by
  ext b
  simp [Chain.containers, Chain.nodes, Chained.ends?, Chained.links?]

theorem Formed.shape_eq (formed : m.Formed code layout) :
    m.shape = ⟨Chain.nodes InstId BlockId m, Chain.nodes BlockId FuncId m, Chain.containers BlockId FuncId m, code,
      layout⟩ := by
  rw [shape, Chain.sequence_eq formed.code, Chain.sequence_eq formed.layout]

theorem Formed.sequenced (formed : m.Formed code layout) : m.Sequenced := by
  have codes : m.shape.code = code := Chain.sequence_eq formed.code
  have layouts : m.shape.layout = layout := Chain.sequence_eq formed.layout
  have stored (b : BlockId) (member : b ∈ m.shape.blocks) : b ∈ Chain.containers InstId BlockId m := by
    rw [containers_eq]
    exact member
  constructor
  · rw [codes]
    exact formed.code
  · rw [layouts]
    exact formed.layout
  · intro b member
    rw [codes]
    exact Chain.toList_linked formed.code (stored b member)
  · intro b member
    rw [codes]
    exact Chain.toListBack_linked formed.code (stored b member)
  · intro f member
    rw [layouts]
    exact Chain.toList_linked formed.layout member
  · intro f member
    rw [layouts]
    exact Chain.toListBack_linked formed.layout member

/-! ## Operations that are allowed -/

theorem Formed.editCode (formed : m.Formed code layout) {edit : Chain.Edit InstId BlockId}
    (allowed : (Operation.code edit).Allowed m.shape) :
    ∃ m', edit.run m = .ok m' ∧ m'.Formed (edit.apply code) layout ∧
      m'.shape = { m.shape with code := edit.apply m.shape.code } := by
  rw [formed.shape_eq, Operation.Allowed, ← containers_eq] at allowed
  obtain ⟨m', done, linked, edits⟩ := Chain.Edit.run_ok formed.code allowed
  have relinked := relinked_of_edits edits
  have formed' := formed.relinked relinked linked
  refine ⟨m', done, formed', ?_⟩
  rw [formed'.shape_eq, formed.shape_eq, edits.nodes_eq, ← containers_eq, ← containers_eq, edits.containers_eq]
  simp only [Chain.containers, Chained.ends?, relinked.funcs]

theorem Formed.editLayout (formed : m.Formed code layout) {edit : Chain.Edit BlockId FuncId}
    (allowed : (Operation.layout edit).Allowed m.shape) :
    ∃ m', edit.run m = .ok m' ∧ m'.Formed code (edit.apply layout) ∧
      m'.shape = { m.shape with layout := edit.apply m.shape.layout } := by
  rw [formed.shape_eq, Operation.Allowed] at allowed
  obtain ⟨m', done, linked, edits⟩ := Chain.Edit.run_ok formed.layout allowed
  have rearranged := rearranged_of_edits edits
  have formed' := formed.rearranged rearranged linked
  refine ⟨m', done, formed', ?_⟩
  rw [formed'.shape_eq, formed.shape_eq, edits.nodes_eq, edits.containers_eq]
  simp only [Chain.nodes, Chained.links?, rearranged.insts]

theorem Formed.unlinks (formed : m.Formed code layout) {i : InstId} (known : i ∈ m.shape.insts) :
    ∃ m', m.unlinkInst i = .ok m' ∧ m'.Formed (Chain.Edit.apply code (.unlink i)) layout ∧ m'.Loose i ∧
      m'.shape = { m.shape with code := Chain.Edit.apply m.shape.code (.unlink i) } := by
  obtain ⟨m', done, formed', shape⟩ :=
    formed.editCode (show (Operation.code (.unlink i)).Allowed m.shape from known)
  refine ⟨m', done, formed', ?_, shape⟩
  apply formed'.code.loose_of_not_mem
  · have still : i ∈ m'.shape.insts := by rwa [shape]
    exact still
  · intro b
    exact (formed.code.nodup b).not_mem_erase

theorem Formed.removes (formed : m.Formed code layout) {i : InstId} (known : i ∈ m.shape.insts) :
    ∃ m', m.removeInst i = .ok m' ∧ m'.WellFormed ∧ (Operation.removeInst i).Performs m.shape m'.shape := by
  obtain ⟨m₁, unlinked, formed₁, loose, shape⟩ := formed.unlinks known
  obtain ⟨m', freed, formed', blocks, funcs, lookup⟩ := formed₁.freeInst loose
  refine ⟨m', ?_, ⟨_, _, formed'⟩, ?_⟩
  · rw [Machine.removeInst, unlinked, ok_bind, freed]
  · have rest : m'.shape = { m₁.shape with insts := m₁.shape.insts \ {i} } := by
      rw [formed'.shape_eq, formed₁.shape_eq]
      ext1
      · ext j
        simp only [Chain.nodes, Chained.links?, lookup, Set.mem_ofPred_eq, Set.mem_sdiff, Set.mem_singleton_iff]
        split <;> simp_all
      · simp only [Chain.nodes, Chained.links?, blocks]
      · simp only [Chain.containers, Chained.ends?, funcs]
      · rfl
      · rfl
    rw [Operation.Performs, rest, shape]

theorem isSome_insert {ν α β : Type} {slot : ν → Nat} (injective : Function.Injective slot) {p : Pool α}
    (sound : p.Sound) {a : α} {field : α → β} {new node : ν} (next : slot new = p.nextSlot) :
    (((p.insert a).get? (slot node)).map field).isSome ↔
      node ∈ insert new { node | ((p.get? (slot node)).map field).isSome } := by
  have same : slot node = p.nextSlot ↔ node = new := by rw [← next, injective.eq_iff]
  rw [sound.get?_insert, Set.mem_insert_iff, Set.mem_ofPred_eq]
  by_cases here : node = new
  · simp [here, next]
  · simp [same, here]

theorem Formed.perform (formed : m.Formed code layout) {op : Operation} (allowed : op.Allowed m.shape) :
    ∃ m', op.run m = .ok m' ∧ m'.WellFormed ∧ op.Performs m.shape m'.shape := by
  cases op with
  | addFunc label external =>
    have formed' := formed.addFunc label external
    refine ⟨_, rfl, ⟨_, _, formed'⟩, (m.addFunc label external).2, ?_, ?_⟩
    · simp [shape, Chain.containers, Chained.ends?, Machine.addFunc, formed.funcs.get?_nextSlot]
    · rw [formed'.shape_eq, formed.shape_eq]
      ext f : 2
      case funcs => exact isSome_insert funcSlot_injective formed.funcs rfl
      all_goals rfl
  | addBlock label =>
    have formed' := formed.addBlock label
    refine ⟨_, rfl, ⟨_, _, formed'⟩, (m.addBlock label).2, ?_, ?_⟩
    · simp [shape, Chain.nodes, Chained.links?, Machine.addBlock, formed.blocks.get?_nextSlot]
    · rw [formed'.shape_eq, formed.shape_eq]
      ext b : 2
      case blocks => exact isSome_insert blockSlot_injective formed.blocks rfl
      all_goals rfl
  | addInst inst =>
    have formed' := formed.addInst inst
    refine ⟨_, rfl, ⟨_, _, formed'⟩, (m.addInst inst).2, ?_, ?_⟩
    · simp [shape, Chain.nodes, Chained.links?, Machine.addInst, formed.insts.get?_nextSlot]
    · rw [formed'.shape_eq, formed.shape_eq]
      ext i : 2
      case insts => exact isSome_insert instSlot_injective formed.insts rfl
      all_goals rfl
  | code edit =>
    obtain ⟨m', done, formed', shape⟩ := formed.editCode allowed
    exact ⟨m', done, ⟨_, _, formed'⟩, shape⟩
  | layout edit =>
    obtain ⟨m', done, formed', shape⟩ := formed.editLayout allowed
    exact ⟨m', done, ⟨_, _, formed'⟩, shape⟩
  | removeInst i => exact formed.removes allowed

/-! ## Operations that are not allowed -/

theorem Formed.refuse (formed : m.Formed code layout) {op : Operation} (refused : ¬ op.Allowed m.shape) :
    ∃ fault, op.inPlace.run m = .error fault m := by
  rw [formed.shape_eq] at refused
  cases op with
  | addFunc | addBlock | addInst => exact absurd trivial refused
  | code edit =>
    rw [Operation.Allowed, ← containers_eq] at refused
    exact Chain.Edit.inPlace_refused formed.code refused
  | layout edit => exact Chain.Edit.inPlace_refused formed.layout refused
  | removeInst i =>
    have refused' : ¬ (Chain.Edit.unlink i).Allowed (Chain.nodes InstId BlockId m) (Chain.containers InstId BlockId m)
      code := refused
    obtain ⟨fault, failed⟩ := Chain.Edit.inPlace_refused formed.code refused'
    exact ⟨fault, InPlace.bind_error failed _⟩

theorem WellFormed.after (wellFormed : m.WellFormed) (op : Operation) : (op.after m).WellFormed := by
  obtain ⟨code, layout, formed⟩ := wellFormed
  unfold Operation.after
  by_cases allowed : op.Allowed m.shape
  · obtain ⟨m', done, wellFormed, -⟩ := formed.perform allowed
    rw [op.follows.ok done]
    exact wellFormed
  · obtain ⟨fault, failed⟩ := formed.refuse allowed
    rw [failed]
    exact ⟨code, layout, formed⟩

theorem build_wellFormed (ops : List Operation) : (build ops).WellFormed := by
  have run (m : Machine) (wellFormed : m.WellFormed) : (ops.foldl (fun m op => op.after m) m).WellFormed := by
    induction ops generalizing m with
    | nil => exact wellFormed
    | cons op rest ih => exact ih (op.after m) (wellFormed.after op)
  exact run {} ⟨_, _, empty_formed⟩

end Machine

/-- Chains refine sequences. In every machine that operations lead to from the empty one, blocks and functions stand for
sequences; an operation that is allowed edits them as it says, run as a whole or record by record, and any other faults,
with nothing written. -/
theorem chains_refine_sequences (ops : List Machine.Operation) :
    (Machine.build ops).Sequenced ∧ ∀ op : Machine.Operation,
      (op.Allowed (Machine.build ops).shape → ∃ m', op.run (Machine.build ops) = .ok m' ∧
        op.inPlace.run (Machine.build ops) = .ok () m' ∧ op.Performs (Machine.build ops).shape m'.shape) ∧
      (¬ op.Allowed (Machine.build ops).shape → ∃ fault, op.run (Machine.build ops) = .error fault ∧
        op.inPlace.run (Machine.build ops) = .error fault (Machine.build ops)) := by
  obtain ⟨code, layout, formed⟩ := Machine.build_wellFormed ops
  refine ⟨formed.sequenced, fun op => ⟨fun allowed => ?_, fun refused => ?_⟩⟩
  · obtain ⟨m', done, -, performs⟩ := formed.perform allowed
    exact ⟨m', done, op.follows.ok done, performs⟩
  · obtain ⟨fault, failed⟩ := formed.refuse refused
    exact ⟨fault, op.follows.error failed, failed⟩

/-- Two instructions in a block, the second put before the first, after a third was released and a push to a block that
was never created has faulted. -/
def rebuilt : List Machine.Operation :=
  [.addFunc "f" false, .addBlock "f", .layout (.pushFront ⟨0⟩ ⟨0⟩), .addInst (.ret []), .addInst (.ret []),
    .addInst (.ret []), .code (.pushBack ⟨0⟩ ⟨0⟩), .code (.pushBack ⟨0⟩ ⟨2⟩), .code (.pushBack ⟨7⟩ ⟨1⟩),
    .code (.insertBefore ⟨0⟩ ⟨1⟩), .removeInst ⟨2⟩]

/-- The instruction in front can be taken out; the one that is in the block is not pushed again. -/
theorem rebuilt_refines :
    (Machine.build rebuilt).shape.code ⟨0⟩ = [⟨1⟩, ⟨0⟩] ∧ (Machine.build rebuilt).Sequenced ∧
      (∃ m', Chain.unlink (κ := BlockId) (Machine.build rebuilt) (⟨1⟩ : InstId) = .ok m' ∧ m'.shape.code ⟨0⟩ = [⟨0⟩]) ∧
      ∃ fault, Chain.pushBack (Machine.build rebuilt) (⟨0⟩ : BlockId) (⟨0⟩ : InstId) = .error fault ∧
        (Machine.Operation.code (.pushBack ⟨0⟩ ⟨0⟩)).inPlace.run (Machine.build rebuilt) =
          .error fault (Machine.build rebuilt) := by
  have code : (Machine.build rebuilt).shape.code ⟨0⟩ = [⟨1⟩, ⟨0⟩] := by decide +kernel
  obtain ⟨sequenced, each⟩ := chains_refine_sequences rebuilt
  refine ⟨code, sequenced, ?_, ?_⟩
  · have known : (⟨1⟩ : InstId) ∈ (Machine.build rebuilt).shape.insts := by
      show (Chained.links? (κ := BlockId) _ _).isSome = true
      decide +kernel
    obtain ⟨m', done, -, performs⟩ := (each (.code (.unlink ⟨1⟩))).1 known
    refine ⟨m', done, ?_⟩
    rw [performs]
    show ((Machine.build rebuilt).shape.code ⟨0⟩).erase ⟨1⟩ = _
    rw [code]
    rfl
  · apply (each (.code (.pushBack ⟨0⟩ ⟨0⟩))).2
    rintro ⟨-, -, absent⟩
    exact absent ⟨0⟩ (by simp [code])

end RegisterAllocator
