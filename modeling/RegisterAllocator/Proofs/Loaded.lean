import RegisterAllocator.Proofs.Bodies
import RegisterAllocator.Proofs.Operands

/-!
# Machines that hold a program

A program is stored by adding functions, blocks and instructions and linking each at the end of its container, so the
machine that reading a source gives stands for sequences (`Source.read_wellFormed`), and every function that has code
is ready for allocation (`Source.read_loaded`): it has an entry, its instructions are typed and branch within it.
-/

namespace RegisterAllocator

namespace Machine

variable {m m' : Machine} {code : BlockId → List InstId} {layout : FuncId → List BlockId}

/-- The label of a function, whether it is external, and its frame. -/
def head? (m : Machine) (f : FuncId) : Option (String × Bool × UInt64) :=
  (m.funcs.get? f.slot).map fun node => (node.label, node.external, node.frame)

def traits? (m : Machine) (f : FuncId) : Option (Bool × UInt64) :=
  (m.funcs.get? f.slot).map fun node => (node.external, node.frame)

theorem traits?_eq (m : Machine) (f : FuncId) : m.traits? f = (m.head? f).map Prod.snd := by
  rw [traits?, head?, Option.map_map]
  rfl

/-- What the allocator relies on in a function with code. -/
structure Ready (m : Machine) (code : BlockId → List InstId) (layout : List BlockId) (f : FuncId) : Prop where
  framed : ∃ frame, m.traits? f = some (false, frame) ∧ frame.toNat < 2 ^ 63
  filled : layout ≠ []
  insts : ∀ b ∈ layout, ∀ i ∈ code b, ∃ inst, m.inst i = .ok inst ∧ inst.Typed ∧
    ∀ target ∈ inst.targets, target ∈ layout

/-- A machine whose functions are external or ready. -/
structure Loaded (m : Machine) (code : BlockId → List InstId) (layout : FuncId → List BlockId) : Prop where
  formed : m.Formed code layout
  ready : ∀ f external frame, m.traits? f = some (external, frame) →
    external = true ∨ m.Ready code (layout f) f

theorem Loaded.ready_of_func (loaded : m.Loaded code layout) {f : FuncId} {node : FuncNode}
    (known : m.func f = .ok node) (internal : node.external = false) : m.Ready code (layout f) f := by
  have traits : m.traits? f = some (node.external, node.frame) := by
    rw [traits?, func_eq_ok.mp known]
    rfl
  exact (loaded.ready f node.external node.frame traits).resolve_left (by rw [internal]; nofun)

theorem Ready.kept {code' : BlockId → List InstId} {blocks : List BlockId} {f : FuncId}
    (ready : m.Ready code blocks f) (traits : m'.traits? f = m.traits? f) (same : ∀ b ∈ blocks, code' b = code b)
    (insts : ∀ b ∈ blocks, ∀ i ∈ code b, ∀ inst, m.inst i = .ok inst → m'.inst i = .ok inst) :
    m'.Ready code' blocks f := by
  refine ⟨by rw [traits]; exact ready.framed, ready.filled, fun b member i inCode => ?_⟩
  rw [same b member] at inCode
  obtain ⟨inst, found, typed, inside⟩ := ready.insts b member i inCode
  exact ⟨inst, insts b member i inCode inst found, typed, inside⟩

theorem empty_formed : ({} : Machine).Formed (fun _ => []) fun _ => [] := by
  refine ⟨Pool.empty_sound, Pool.empty_sound, Pool.empty_sound, ?_, ?_⟩
  · exact ⟨by simp [Chained.ends?, Pool.get?], by simp, by simp, by simp, by simp [Chained.links?, Pool.get?]⟩
  · exact ⟨by simp [Chained.ends?, Pool.get?], by simp, by simp, by simp, by simp [Chained.links?, Pool.get?]⟩

theorem Formed.addFunc (formed : m.Formed code layout) (label : String) (external : Bool) :
    (m.addFunc label external).1.Formed code layout where
  insts := formed.insts
  blocks := formed.blocks
  funcs := formed.funcs.insert _
  code := formed.code.adjusted (fun _ => .inl rfl) fun _ => .inl rfl
  layout := by
    refine formed.layout.adjusted (fun _ => .inl rfl) fun f => ?_
    simp only [Chained.ends?, Machine.addFunc, formed.funcs.get?_insert]
    split
    · next same =>
      refine .inr ⟨?_, fun found stored => by cases stored; rfl⟩
      by_contra nonempty
      have stored := formed.layout.stored f nonempty
      simp [Chained.ends?, same, formed.funcs.get?_nextSlot] at stored
    · exact .inl rfl

theorem addFunc_head? (formed : m.Formed code layout) (label : String) (external : Bool) (g : FuncId) :
    (m.addFunc label external).1.head? g =
      if g = (m.addFunc label external).2 then some (label, external, 0) else m.head? g := by
  have same : g = (m.addFunc label external).2 ↔ g.slot = m.funcs.nextSlot := by cases g; simp [Machine.addFunc]
  have lookup : (m.addFunc label external).1.funcs.get? g.slot = _ :=
    formed.funcs.get?_insert { label, external } g.slot
  simp only [same, head?, lookup]
  split <;> rfl

theorem Formed.addFunc_layout (formed : m.Formed code layout) (label : String) (external : Bool) :
    layout (m.addFunc label external).2 = [] := by
  by_contra nonempty
  have stored := formed.layout.stored _ nonempty
  simp [Chained.ends?, Machine.addFunc, formed.funcs.get?_nextSlot] at stored

theorem Formed.addBlock (formed : m.Formed code layout) (label : String) :
    (m.addBlock label).1.Formed code layout where
  insts := formed.insts
  blocks := formed.blocks.insert _
  funcs := formed.funcs
  code := by
    refine formed.code.adjusted (fun _ => .inl rfl) fun b => ?_
    simp only [Chained.ends?, Machine.addBlock, formed.blocks.get?_insert]
    split
    · next same =>
      refine .inr ⟨?_, fun found stored => by cases stored; rfl⟩
      by_contra nonempty
      have stored := formed.code.stored b nonempty
      simp [Chained.ends?, same, formed.blocks.get?_nextSlot] at stored
    · exact .inl rfl
  layout := by
    refine formed.layout.adjusted (fun b => ?_) fun _ => .inl rfl
    simp only [Chained.links?, Machine.addBlock, formed.blocks.get?_insert]
    split
    · next same =>
      refine .inr ⟨fun f member => ?_, fun place found => by cases found; rfl⟩
      obtain ⟨_, _, _, found⟩ := formed.layout.exists_links member
      simp [Chained.links?, same, formed.blocks.get?_nextSlot] at found
    · exact .inl rfl

theorem Formed.addBlock_loose (formed : m.Formed code layout) (label : String) :
    Chained.links? (m.addBlock label).1 (m.addBlock label).2 = some ({} : Links BlockId FuncId) := by
  simp [Chained.links?, Machine.addBlock, formed.blocks.get?_insert]

theorem Formed.addBlock_code (formed : m.Formed code layout) (label : String) :
    code (m.addBlock label).2 = [] := by
  by_contra nonempty
  have stored := formed.code.stored _ nonempty
  simp [Chained.ends?, Machine.addBlock, formed.blocks.get?_nextSlot] at stored

theorem Formed.pushInst (formed : m.Formed code layout) {b : BlockId} {i : InstId} (loose : m.Loose i)
    (pushed : m.pushInst b i = .ok m') :
    m'.Formed (Function.update code b (code b ++ [i])) layout ∧ Relinked m m' := by
  have stored : (Chained.ends? (ν := InstId) m b).isSome := by
    simp only [Machine.pushInst, Chain.pushBack, Chain.links_eq_ok.mpr loose, ok_bind, Option.isSome_none,
      Bool.false_eq_true, if_false, bind_eq_ok, Chain.ends_eq_ok] at pushed
    obtain ⟨found, stored, -⟩ := pushed
    rw [stored]
    rfl
  obtain ⟨t, pushed', inserted⟩ := Chain.pushBack_inserted formed.code stored loose
  rw [Machine.pushInst, pushed'] at pushed
  cases pushed
  have relinked := relinked_of_edits inserted.edits
  exact ⟨formed.relinked relinked
    (inserted.linked formed.code (List.append_nil _).symm (formed.code.not_mem_of_loose loose)), relinked⟩

/-- Linking blocks changes neither instructions nor the labels and the code of blocks, and of functions only the
layout. -/
structure Rearranged (m m' : Machine) : Prop where
  insts : m'.insts = m.insts
  heads : ∀ f, m'.head? f = m.head? f
  labels : ∀ b : BlockId, (m'.blocks.get? b.slot).map BlockNode.label = (m.blocks.get? b.slot).map BlockNode.label
  code : ∀ b : BlockId, (m'.blocks.get? b.slot).map BlockNode.code = (m.blocks.get? b.slot).map BlockNode.code
  blocksSound : m.blocks.Sound → m'.blocks.Sound
  funcsSound : m.funcs.Sound → m'.funcs.Sound
  vacant : m'.funcs.vacant = m.funcs.vacant

theorem Rearranged.traits (rearranged : Rearranged m m') (f : FuncId) : m'.traits? f = m.traits? f := by
  rw [traits?_eq, traits?_eq, rearranged.heads]

theorem rearranged_of_edits (edits : Chain.Edits BlockId FuncId m m') : Rearranged m m' := by
  induction edits with
  | refl => exact ⟨rfl, fun _ => rfl, fun _ => rfl, fun _ => rfl, id, id, rfl⟩
  | @links t b place _ ih =>
    have insts : (Chained.setLinks t b place).insts = t.insts := by simp only [Chained.setLinks]; split <;> rfl
    have funcs : (Chained.setLinks t b place).funcs = t.funcs := by simp only [Chained.setLinks]; split <;> rfl
    refine ⟨insts.trans ih.insts, fun f => by rw [head?, funcs, ← ih.heads, head?], fun c => ?_, fun c => ?_,
      fun sound => ?_, fun sound => funcs ▸ ih.funcsSound sound, by rw [funcs, ih.vacant]⟩
    · rw [← ih.labels, blocks_setLinks]
      split
      · next same => simp [same, Function.comp_def]
      · rfl
    · rw [← ih.code, blocks_setLinks]
      split
      · next same => simp [same, Function.comp_def]
      · rfl
    · simp only [Chained.setLinks]
      split
      · exact (ih.blocksSound sound).set _ _
      · exact ih.blocksSound sound
  | @ends t f found _ ih =>
    have insts : (Chained.setEnds t f found).insts = t.insts := by simp only [Chained.setEnds]; split <;> rfl
    have blocks : (Chained.setEnds t f found).blocks = t.blocks := by simp only [Chained.setEnds]; split <;> rfl
    refine ⟨insts.trans ih.insts, fun g => ?_, fun c => by rw [blocks, ih.labels], fun c => by rw [blocks, ih.code],
      fun sound => blocks ▸ ih.blocksSound sound, fun sound => ?_, ?_⟩
    · rw [← ih.heads, head?, head?, funcs_setEnds]
      split
      · next same => simp [same, Function.comp_def]
      · rfl
    · simp only [Chained.setEnds]
      split
      · exact (ih.funcsSound sound).set _ _
      · exact ih.funcsSound sound
    · rw [← ih.vacant]
      simp only [Chained.setEnds]
      split
      · exact Pool.vacant_set
      · rfl

theorem Formed.rearranged {layout' : FuncId → List BlockId} (formed : m.Formed code layout)
    (rearranged : Rearranged m m') (linked : Chain.Linked m' layout') : m'.Formed code layout' where
  insts := rearranged.insts ▸ formed.insts
  blocks := rearranged.blocksSound formed.blocks
  funcs := rearranged.funcsSound formed.funcs
  code := by
    refine formed.code.adjusted (fun i => .inl ?_) fun c => .inl (rearranged.code c)
    simp only [Chained.links?, rearranged.insts]
  layout := linked

theorem Formed.pushBlock (formed : m.Formed code layout) {f : FuncId} {b : BlockId}
    (loose : Chained.links? m b = some ({} : Links BlockId FuncId)) (pushed : m.pushBlock f b = .ok m') :
    m'.Formed code (Function.update layout f (layout f ++ [b])) ∧ Rearranged m m' := by
  have stored : (Chained.ends? (ν := BlockId) m f).isSome := by
    simp only [Machine.pushBlock, Chain.pushBack, Chain.links_eq_ok.mpr loose, ok_bind, Option.isSome_none,
      Bool.false_eq_true, if_false, bind_eq_ok, Chain.ends_eq_ok] at pushed
    obtain ⟨found, stored, -⟩ := pushed
    rw [stored]
    rfl
  obtain ⟨t, pushed', inserted⟩ := Chain.pushBack_inserted formed.layout stored loose
  rw [Machine.pushBlock, pushed'] at pushed
  cases pushed
  have rearranged := rearranged_of_edits inserted.edits
  exact ⟨formed.rearranged rearranged
    (inserted.linked formed.layout (List.append_nil _).symm (formed.layout.not_mem_of_loose loose)), rearranged⟩

theorem foldlM_invariant {α β : Type} {P : β → Prop} {step : β → α → Except Fault β}
    (kept : ∀ s a t, P s → step s a = .ok t → P t) {list : List α} {s t : β} (start : P s)
    (folded : list.foldlM step s = .ok t) : P t := by
  induction list generalizing s with
  | nil =>
    cases folded
    exact start
  | cons a list ih =>
    rw [List.foldlM_cons, bind_eq_ok] at folded
    obtain ⟨next, first, rest⟩ := folded
    exact ih (kept s a next start first) rest

theorem reserveRegs_same {τ : Type} {inst : Inst τ} (reserved : m.reserveRegs inst = .ok m') :
    m'.insts = m.insts ∧ m'.blocks = m.blocks ∧ m'.funcs = m.funcs := by
  refine foldlM_invariant (P := fun t : Machine => t.insts = m.insts ∧ t.blocks = m.blocks ∧ t.funcs = m.funcs)
    (fun s reg t same stepped => ?_) ⟨rfl, rfl, rfl⟩ reserved
  rw [reserveVirt, bind_eq_ok] at stepped
  obtain ⟨next, -, stepped⟩ := stepped
  cases stepped
  exact same

theorem Formed.of_same (formed : m.Formed code layout) (insts : m'.insts = m.insts) (blocks : m'.blocks = m.blocks)
    (funcs : m'.funcs = m.funcs) : m'.Formed code layout where
  insts := insts ▸ formed.insts
  blocks := blocks ▸ formed.blocks
  funcs := funcs ▸ formed.funcs
  code := by
    refine formed.code.adjusted (fun i => .inl ?_) fun c => .inl ?_
    · simp only [Chained.links?, insts]
    · simp only [Chained.ends?, blocks]
  layout := by
    refine formed.layout.adjusted (fun i => .inl ?_) fun c => .inl ?_
    · simp only [Chained.links?, blocks]
    · simp only [Chained.ends?, funcs]

/-- A function `f` is being stored: it has the blocks `blocks`, and all else is as in the machine `base`. -/
structure Storing (base : Machine) (code₀ : BlockId → List InstId) (layout₀ : FuncId → List BlockId) (f : FuncId)
    (frame : UInt64) (blocks : List BlockId) (m : Machine) (code : BlockId → List InstId) : Prop where
  formed : m.Formed code (Function.update layout₀ f blocks)
  kept : ∀ i inst, base.inst i = .ok inst → m.inst i = .ok inst
  apart : ∀ b, b ∉ blocks → code b = code₀ b
  traits : ∀ g, m.traits? g = if g = f then some (false, frame) else base.traits? g
  insts : ∀ b ∈ blocks, ∀ i ∈ code b, ∃ inst, m.inst i = .ok inst ∧ inst.Typed ∧
    ∀ target ∈ inst.targets, target ∈ blocks

namespace Storing

variable {base : Machine} {code₀ : BlockId → List InstId} {layout₀ : FuncId → List BlockId} {f : FuncId}
  {frame : UInt64} {blocks : List BlockId}

theorem storeInsts {b : BlockId} {insts : List (Inst Nat)} (storing : Storing base code₀ layout₀ f frame blocks m code)
    (inside : b ∈ blocks) (typed : ∀ inst ∈ insts, inst.Typed) (stored : m.storeInsts blocks b insts = .ok m') :
    ∃ code', Storing base code₀ layout₀ f frame blocks m' code' := by
  induction insts generalizing m code with
  | nil =>
    cases stored
    exact ⟨code, storing⟩
  | cons inst insts ih =>
    simp only [Machine.storeInsts, List.foldlM_cons, bind_eq_ok] at stored
    obtain ⟨next, ⟨located, target, reserved, reserve, pushed⟩, rest⟩ := stored
    have formed := storing.formed
    obtain ⟨sameInsts, sameBlocks, sameFuncs⟩ := reserveRegs_same reserve
    have added := addInst_keeps formed located
    have formed₁ := formed.addInst located
    have formed₂ : reserved.Formed code (Function.update layout₀ f blocks) :=
      formed₁.of_same sameInsts sameBlocks sameFuncs
    have loose : reserved.Loose (m.addInst located).2 := by
      have loose₁ := addInst_loose formed located
      simpa only [Loose, Chained.links?, sameInsts] using loose₁
    obtain ⟨formed₃, relinked⟩ := formed₂.pushInst loose pushed
    have keeps {i : InstId} {inst : Inst BlockId} (found : (m.addInst located).1.inst i = .ok inst) :
        next.inst i = .ok inst := by
      apply relinked.keeps.insts
      rw [inst_eq_ok] at found ⊢
      rw [sameInsts]
      exact found
    suffices after : Storing base code₀ layout₀ f frame blocks next
        (Function.update code b (code b ++ [(m.addInst located).2])) from
      ih after (fun other member => typed other (List.mem_cons_of_mem _ member)) rest
    refine ⟨formed₃, fun i inst found => keeps (added.insts i inst (storing.kept i inst found)), ?_, ?_, ?_⟩
    · intro c outside
      rw [Function.update_of_ne (by rintro rfl; exact outside inside)]
      exact storing.apart c outside
    · intro g
      rw [← storing.traits g, traits?, relinked.funcs, sameFuncs]
      rfl
    · intro c member i inCode
      have old (inOld : i ∈ code c) : ∃ inst, next.inst i = .ok inst ∧ inst.Typed ∧
          ∀ target ∈ inst.targets, target ∈ blocks := by
        obtain ⟨inst, found, rest⟩ := storing.insts c member i inOld
        exact ⟨inst, keeps (added.insts i inst found), rest⟩
      by_cases here : c = b
      · subst here
        rw [Function.update_self] at inCode
        rcases List.mem_append.mp inCode with inOld | new
        · exact old inOld
        · -- the new instruction: its targets were looked up among the blocks
          rw [List.mem_singleton.mp new]
          refine ⟨located, keeps (inst_eq_ok.mpr (by simp [addInst_get? formed])),
            (typed inst List.mem_cons_self).mapTargetM target, fun c inTargets => ?_⟩
          obtain ⟨place, -, found⟩ := forall₂_mem_right (Inst.retargeted target).targets inTargets
          split at found
          · next known =>
            cases found
            exact List.mem_of_getElem? known
          · cases found
      · rw [Function.update_of_ne here] at inCode
        exact old inCode

theorem storeBlocks {labels : List String} {all : List BlockId}
    (storing : Storing base code₀ layout₀ f frame blocks m code)
    (stored : labels.foldlM (fun (m, blocks) label => do
      let (m, b) := m.addBlock label
      pure (← m.pushBlock f b, blocks ++ [b])) (m, blocks) = (.ok (m', all) : Except Fault (Machine × List BlockId))) :
    Storing base code₀ layout₀ f frame all m' code ∧ all.length = blocks.length + labels.length := by
  induction labels generalizing m blocks with
  | nil =>
    cases stored
    exact ⟨storing, rfl⟩
  | cons label labels ih =>
    simp only [List.foldlM_cons, bind_eq_ok, pure_eq_ok] at stored
    obtain ⟨_, ⟨pushed, push, rfl⟩, rest⟩ := stored
    have formed := storing.formed
    obtain ⟨formed', rearranged⟩ := (formed.addBlock label).pushBlock (formed.addBlock_loose label) push
    rw [Function.update_self, Function.update_idem] at formed'
    have insts (i : InstId) : pushed.inst i = m.inst i := by
      rw [Machine.inst, rearranged.insts]
      rfl
    have after : Storing base code₀ layout₀ f frame (blocks ++ [(m.addBlock label).2]) pushed code := by
      refine ⟨formed', fun i inst found => by rw [insts]; exact storing.kept i inst found, ?_, ?_, ?_⟩
      · exact fun c outside => storing.apart c fun member => outside (List.mem_append_left _ member)
      · intro g
        rw [rearranged.traits, ← storing.traits g]
        rfl
      · intro c member i inCode
        rcases List.mem_append.mp member with old | new
        · obtain ⟨inst, found, typed, within⟩ := storing.insts c old i inCode
          exact ⟨inst, by rw [insts]; exact found, typed,
            fun target member => List.mem_append_left _ (within target member)⟩
        · rw [List.mem_singleton.mp new, formed.addBlock_code] at inCode
          cases inCode
    obtain ⟨final, length⟩ := ih after rest
    refine ⟨final, ?_⟩
    simp only [length, List.length_append, List.length_cons, List.length_nil]
    omega

theorem fill {pairs : List (BlockId × Block)} (storing : Storing base code₀ layout₀ f frame blocks m code)
    (inside : ∀ pair ∈ pairs, pair.1 ∈ blocks ∧ ∀ inst ∈ pair.2.insts, inst.Typed)
    (filled : pairs.foldlM (fun m (b, block) => m.storeInsts blocks b block.insts) m = .ok m') :
    ∃ code', Storing base code₀ layout₀ f frame blocks m' code' := by
  induction pairs generalizing m code with
  | nil =>
    cases filled
    exact ⟨code, storing⟩
  | cons pair pairs ih =>
    rw [List.foldlM_cons, bind_eq_ok] at filled
    obtain ⟨next, stored, rest⟩ := filled
    obtain ⟨here, typed⟩ := inside pair List.mem_cons_self
    obtain ⟨code', storing'⟩ := storing.storeInsts here typed stored
    exact ih storing' (fun other member => inside other (List.mem_cons_of_mem _ member)) rest

theorem loaded (storing : Storing base code₀ layout₀ f frame blocks m code) (before : base.Loaded code₀ layout₀)
    (filled : blocks ≠ []) (framed : frame.toNat < 2 ^ 63) :
    m.Loaded code (Function.update layout₀ f blocks) := by
  refine ⟨storing.formed, fun g external size traits => ?_⟩
  have known := storing.traits g
  by_cases here : g = f
  · subst here
    right
    rw [if_pos rfl] at known
    rw [Function.update_self]
    exact ⟨⟨frame, known, framed⟩, filled, storing.insts⟩
  · rw [if_neg here] at known
    rw [Function.update_of_ne here]
    refine (before.ready g external size (by rw [← known]; exact traits)).imp_right fun ready => ?_
    refine ready.kept known (fun b member => storing.apart b fun inBlocks => ?_)
      fun b member i inCode inst found => storing.kept i inst found
    -- no block is in two functions
    have inG : b ∈ Function.update layout₀ f blocks g := by rwa [Function.update_of_ne here]
    have inF : b ∈ Function.update layout₀ f blocks f := by rwa [Function.update_self]
    exact here (storing.formed.layout_disjoint inG inF)

end Storing

theorem Loaded.storeItem {item : Item} (loaded : m.Loaded code layout)
    (readable : ∀ function, item = .function function → function.Readable) (stored : m.storeItem item = .ok m') :
    ∃ code' layout', m'.Loaded code' layout' := by
  have formed := loaded.formed
  have added (label : String) (external : Bool) (g : FuncId) : (m.addFunc label external).1.traits? g =
      if g = (m.addFunc label external).2 then some (external, 0) else m.traits? g := by
    rw [traits?_eq, traits?_eq, addFunc_head? formed]
    split <;> rfl
  cases item with
  | external label =>
    cases stored
    refine ⟨code, layout, formed.addFunc label true, fun g external size traits => ?_⟩
    have known := added label true g
    rw [traits] at known
    split at known
    · cases known
      exact .inl rfl
    · next other =>
      refine (loaded.ready g external size known.symm).imp_right fun ready => ?_
      exact ready.kept (by rw [added, if_neg other]) (fun _ _ => rfl) fun _ _ _ _ _ => id
  | function function =>
    simp only [Machine.storeItem, bind_eq_ok] at stored
    obtain ⟨framed, frame, ⟨laid, blocks⟩, lay, fill⟩ := stored
    have readable := readable function rfl
    have found : (m.addFunc function.label false).1.func (m.addFunc function.label false).2 =
        .ok { label := function.label, external := false } :=
      func_eq_ok.mpr (by simp [Machine.addFunc, formed.funcs.get?_insert])
    obtain ⟨framed', frame', formed₂, sameInsts, -, sameFuncs⟩ :=
      (formed.addFunc function.label false).modifyFunc found ({ · with frame := function.frame }) fun _ => rfl
    rw [frame] at frame'
    cases frame'
    have storing : Storing m code layout (m.addFunc function.label false).2 function.frame [] framed code := by
      refine ⟨?_, fun i inst known => ?_, fun _ _ => rfl, fun g => ?_, nofun⟩
      · rw [← formed.addFunc_layout function.label false, Function.update_eq_self]
        exact formed₂
      · rw [Machine.inst, sameInsts]
        exact known
      · rw [traits?, sameFuncs]
        split
        · rfl
        · next other => rw [← traits?, added, if_neg other]
    obtain ⟨storing', length⟩ := storing.storeBlocks lay
    have inside : ∀ pair ∈ blocks.zip function.blocks, pair.1 ∈ blocks ∧ ∀ inst ∈ pair.2.insts, inst.Typed :=
      fun pair member => ⟨(List.of_mem_zip member).1, readable.typed pair.2 (List.of_mem_zip member).2⟩
    obtain ⟨code', final⟩ := storing'.fill inside fill
    refine ⟨code', _, final.loaded loaded (fun empty => readable.filled ?_) readable.framed⟩
    rw [empty, List.length_map] at length
    exact List.length_eq_zero_iff.mp (by simpa using length.symm)

theorem ofProgram_loaded {program : Program} (readable : ∀ function, .function function ∈ program → function.Readable)
    (stored : ofProgram program = .ok m) : ∃ code layout, m.Loaded code layout := by
  have start : ∃ code layout, ({} : Machine).Loaded code layout :=
    ⟨_, _, empty_formed, fun f external frame traits => by simp [traits?, Pool.get?] at traits⟩
  rw [ofProgram] at stored
  generalize ({} : Machine) = first at start stored
  induction program generalizing first with
  | nil =>
    cases stored
    exact start
  | cons item items ih =>
    rw [List.foldlM_cons, bind_eq_ok] at stored
    obtain ⟨next, here, rest⟩ := stored
    obtain ⟨code, layout, loaded⟩ := start
    refine ih (fun function member => readable function (List.mem_cons_of_mem _ member)) next ?_ rest
    exact loaded.storeItem (fun function same => readable function (same ▸ List.mem_cons_self)) here

end Machine

theorem Source.read_loaded {source : String} {m : Machine} (found : Source.read source = .ok m) :
    ∃ code layout, m.Loaded code layout := by
  rw [Source.read, bind_eq_ok] at found
  obtain ⟨program, read, stored⟩ := found
  split at stored
  · next machine ok =>
    cases stored
    exact Machine.ofProgram_loaded (readProgram_readable read) ok
  · cases stored

theorem Source.read_wellFormed {source : String} {m : Machine} (found : Source.read source = .ok m) : m.WellFormed := by
  obtain ⟨code, layout, loaded⟩ := read_loaded found
  exact ⟨code, layout, loaded.formed⟩

end RegisterAllocator
