import RegisterAllocator.Machine.Printer
import RegisterAllocator.Proofs.Bodies

/-!
# The contents of functions

What a machine holds of a function, apart from the handles of instructions. The contents and the labels of blocks
determine the body of the function (`Formed.body_congr`) and its listing (`Formed.funcText_congr`).
-/

namespace RegisterAllocator.Machine

/-- The record of a function and the instructions of its blocks. -/
structure Content where
  node : FuncNode
  layout : List BlockId
  code : List (List (Inst BlockId))

def content (m : Machine) (f : FuncId) : Except Fault Content := do
  let node ← m.func f
  let layout ← m.layout f
  return { node, layout, code := ← layout.mapM m.blockInsts }

variable {m m' : Machine} {code code' : BlockId → List InstId} {layout : FuncId → List BlockId} {f : FuncId}
  {c : Content}

theorem content_eq_ok : m.content f = .ok c ↔ m.func f = .ok c.node ∧ m.layout f = .ok c.layout ∧
    List.Forall₂ (fun b insts => m.blockInsts b = .ok insts) c.layout c.code := by
  simp only [content, bind_eq_ok, pure_eq_ok, mapM_eq_ok]
  constructor
  · rintro ⟨_, stored, _, laid, _, read, rfl⟩
    exact ⟨stored, laid, read⟩
  · rintro ⟨stored, laid, read⟩
    exact ⟨_, stored, _, laid, _, read, rfl⟩

theorem Formed.blockInsts_ok (formed : m.Formed code layout) {b : BlockId} (member : b ∈ layout f) :
    ∃ insts, m.blockInsts b = .ok insts ∧ List.Forall₂ (fun i inst => m.inst i = .ok inst) (code b) insts := by
  obtain ⟨insts, read⟩ := exists_mapM_eq_ok fun i (inCode : i ∈ code b) => formed.inst_ok inCode
  refine ⟨insts, ?_, mapM_eq_ok.mp read⟩
  rw [blockInsts, formed.code_ok member, ok_bind, read]

theorem Formed.content_ok (formed : m.Formed code layout) {node : FuncNode} (stored : m.func f = .ok node) :
    ∃ insts, m.content f = .ok ⟨node, layout f, insts⟩ := by
  obtain ⟨insts, read⟩ := exists_mapM_eq_ok fun b (member : b ∈ layout f) => by
    obtain ⟨insts, read, -⟩ := formed.blockInsts_ok member
    exact ⟨insts, read⟩
  exact ⟨insts, content_eq_ok.mpr ⟨stored, formed.layout_ok stored, mapM_eq_ok.mp read⟩⟩

theorem Formed.content_layout (formed : m.Formed code layout) (held : m.content f = .ok c) : c.layout = layout f :=
  formed.layout_eq (content_eq_ok.mp held).2.1

theorem blockInsts_congr (held : m.content f = .ok c) (held' : m'.content f = .ok c) :
    ∀ b ∈ c.layout, m'.blockInsts b = m.blockInsts b := by
  intro b member
  obtain ⟨k, located⟩ := List.mem_iff_getElem?.mp member
  obtain ⟨insts, here, read⟩ := forall₂_getElem? (content_eq_ok.mp held).2.2 located
  obtain ⟨insts', here', read'⟩ := forall₂_getElem? (content_eq_ok.mp held').2.2 located
  rw [here] at here'
  cases here'
  rw [read, read']

/-! ## Bodies -/

theorem Shows.blockInsts {all : List BlockId} {ids : List InstId} {b : BlockId} {block : Block}
    (shown : Shows m all ids b block) (coded : m.code b = .ok ids) :
    ∃ insts, m.blockInsts b = .ok insts ∧ insts.mapM (Inst.mapTargetM (position all)) = .ok block.insts := by
  obtain ⟨insts, read, located⟩ := forall₂_factor shown.insts
  refine ⟨insts, ?_, mapM_eq_ok.mpr located.flip⟩
  rw [Machine.blockInsts, coded, ok_bind, mapM_eq_ok]
  exact read

theorem Formed.body_congr (formed : m.Formed code layout) (formed' : m'.Formed code' layout)
    (held : m.content f = .ok c) (held' : m'.content f = .ok c) (labels : ∀ b, m'.label b = m.label b)
    {body body' : Body} (found : m.body f = .ok body) (found' : m'.body f = .ok body') : body' = body := by
  have inside := blockInsts_congr held held'
  rw [formed.content_layout held] at inside
  have shown := (formed.body_shows found).2.2
  have shown' := (formed'.body_shows found').2.2
  have blocks : List.Forall₂ (· = ·) body.blocks body'.blocks := by
    refine List.forall₂_iff_get.mpr ⟨shown.length_eq.symm.trans shown'.length_eq, fun k inBody inBody' => ?_⟩
    have inLayout : k < (layout f).length := shown.length_eq ▸ inBody
    have first := shown.get inLayout inBody
    have second := shown'.get inLayout inBody'
    have member : (layout f).get ⟨k, inLayout⟩ ∈ layout f := List.getElem_mem inLayout
    obtain ⟨insts, read, located⟩ := first.blockInsts (formed.code_ok member)
    obtain ⟨insts', read', located'⟩ := second.blockInsts (formed'.code_ok member)
    rw [inside _ member, read] at read'
    cases read'
    have label := second.label
    rw [labels, first.label] at label
    rw [located] at located'
    generalize body.blocks.get ⟨k, inBody⟩ = block at *
    generalize body'.blocks.get ⟨k, inBody'⟩ = block' at *
    cases block
    cases block'
    cases label
    cases located'
    rfl
  rw [List.forall₂_eq_eq_eq] at blocks
  rw [formed.body_eq found, formed'.body_eq found', blocks]

def Content.Closed (c : Content) : Prop :=
  ∀ insts ∈ c.code, ∀ inst ∈ insts, ∀ target ∈ inst.targets, target ∈ c.layout

theorem Formed.closed_iff (formed : m.Formed code layout) (held : m.content f = .ok c) :
    m.Closed code (layout f) ↔ c.Closed := by
  have read := (content_eq_ok.mp held).2.2
  have laid := formed.content_layout held
  constructor
  · intro closed insts inCode inst inInsts
    obtain ⟨b, member, here⟩ := forall₂_mem_right read inCode
    rw [laid] at member
    obtain ⟨_, here', stored⟩ := formed.blockInsts_ok member
    cases here.symm.trans here'
    obtain ⟨i, inBlock, found⟩ := forall₂_mem_right stored inInsts
    obtain ⟨_, found', inside⟩ := closed b member i inBlock
    cases found.symm.trans found'
    rwa [laid]
  · intro closed b member i inBlock
    obtain ⟨insts, here, stored⟩ := formed.blockInsts_ok member
    obtain ⟨insts', inCode, here'⟩ := forall₂_mem_left read (laid ▸ member)
    cases here.symm.trans here'
    obtain ⟨inst, inInsts, found⟩ := forall₂_mem_left stored inBlock
    exact ⟨inst, found, laid ▸ closed insts inCode inst inInsts⟩

theorem Formed.closed_of_body (formed : m.Formed code layout) {body : Body} (found : m.body f = .ok body) :
    m.Closed code (layout f) := by
  intro b member i inCode
  obtain ⟨block, -, shown⟩ := forall₂_mem_left (formed.body_shows found).2.2 member
  obtain ⟨inst, -, stored, read, located⟩ := forall₂_mem_left shown.insts inCode
  refine ⟨stored, read, fun target inTargets => ?_⟩
  obtain ⟨position, -, here⟩ := forall₂_mem_left (Inst.retargeted located).targets inTargets
  rw [position_eq_ok (formed.layout.nodup f)] at here
  exact List.mem_of_getElem? here

/-! ## Listings -/

theorem blockText_eq {b : BlockId} {insts : List (Inst BlockId)} (read : m.blockInsts b = .ok insts) :
    m.blockText b = do
      let lines ← insts.mapM fun inst => do return "\t" ++ (← inst.mapTargetM m.label).text ++ "\n"
      return (← m.label b) ++ ":\n" ++ String.join lines := by
  simp only [blockInsts, bind_eq_ok, mapM_eq_ok] at read
  obtain ⟨ids, coded, read⟩ := read
  have lines := mapM_bind read fun inst => do return "\t" ++ (← inst.mapTargetM m.label).text ++ "\n"
  simp only [blockText, coded, ok_bind, ← lines, instText, bind_assoc, pure_bind]

theorem Formed.following_eq (formed : m.Formed code layout) {node : FuncNode} (stored : m.func f = .ok node) :
    Chain.following FuncId m node.layout.head = .ok (layout f) := by
  have ends := formed.layout.ends f node.layout (by simp [Chained.ends?, func_eq_ok.mp stored])
  rw [ends]
  exact Chain.following_linked formed.layout f

theorem Formed.funcText_congr (formed : m.Formed code layout) (formed' : m'.Formed code' layout)
    (held : m.content f = .ok c) (held' : m'.content f = .ok c) (labels : ∀ b, m'.label b = m.label b) :
    m'.funcText f = m.funcText f := by
  have stored := (content_eq_ok.mp held).1
  have stored' := (content_eq_ok.mp held').1
  have inside := blockInsts_congr held held'
  rw [formed.content_layout held] at inside
  have names : m'.label = m.label := funext labels
  have blocks : (layout f).mapM m'.blockText = (layout f).mapM m.blockText := by
    apply mapM_congr
    intro b member
    obtain ⟨insts, read, -⟩ := formed.blockInsts_ok member
    rw [blockText_eq read, blockText_eq ((inside b member).trans read), names]
  simp only [funcText, stored, stored', ok_bind, formed.following_eq stored, formed'.following_eq stored', blocks, names]

theorem Formed.label_ok (formed : m.Formed code layout) {b : BlockId} (member : b ∈ layout f) :
    ∃ label, m.label b = .ok label := by
  obtain ⟨node, stored⟩ := formed.block_stored member
  exact ⟨node.label, by rw [label, Pool.get_eq_ok.mpr stored]; rfl⟩

theorem Formed.funcText_ok (formed : m.Formed code layout) {node : FuncNode} (stored : m.func f = .ok node)
    (closed : node.external = true ∨ m.Closed code (layout f)) : ∃ text, m.funcText f = .ok text := by
  simp only [funcText, stored, ok_bind]
  split
  · exact ⟨_, rfl⟩
  next internal =>
  have closed := closed.resolve_left internal
  obtain ⟨blocks, listed⟩ : ∃ blocks, (layout f).mapM m.blockText = .ok blocks := by
    refine exists_mapM_eq_ok fun b member => ?_
    obtain ⟨insts, read, found⟩ := formed.blockInsts_ok member
    obtain ⟨label, labelled⟩ := formed.label_ok member
    obtain ⟨lines, printed⟩ : ∃ lines, insts.mapM (fun inst => do
        return "\t" ++ (← inst.mapTargetM m.label).text ++ "\n") = .ok lines := by
      refine exists_mapM_eq_ok fun inst inInsts => ?_
      obtain ⟨i, inCode, here⟩ := forall₂_mem_right found inInsts
      obtain ⟨_, here', inside⟩ := closed b member i inCode
      cases here.symm.trans here'
      obtain ⟨inst', named⟩ :=
        Inst.exists_mapTargetM_eq_ok fun target inTargets => formed.label_ok (inside target inTargets)
      exact ⟨_, by rw [named]; rfl⟩
    exact ⟨_, by rw [blockText_eq read, printed, labelled]; rfl⟩
  have ends := formed.layout.ends f node.layout (by simp [Chained.ends?, func_eq_ok.mp stored])
  rw [formed.following_eq stored]
  cases head : node.layout.head with
  | none => exact ⟨_, by simp only [pure_bind, ok_bind, listed]; rfl⟩
  | some b =>
    rw [ends] at head
    obtain ⟨label, labelled⟩ := formed.label_ok (List.mem_of_head? head)
    exact ⟨_, by simp only [labelled, ok_bind, listed]; rfl⟩

end RegisterAllocator.Machine
