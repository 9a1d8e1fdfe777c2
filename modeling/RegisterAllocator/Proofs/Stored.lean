import Mathlib.Data.List.Perm.Subperm
import Mathlib.Data.List.Nodup
import RegisterAllocator.Machine.Basic
import RegisterAllocator.Proofs.Chain
import RegisterAllocator.Proofs.Pool

/-!
# Stored code as sequences

A machine stands for a sequence of instructions in each block and a sequence of blocks in each function
(`Machine.Formed`). The operations that store and link instructions keep it so and leave alone what they do not name
(`Formed.insertBefore`, `Formed.insertAfter`, `Formed.removeInst`, `Formed.modifyInst`).
-/

namespace RegisterAllocator.Machine

theorem instSlot_injective : Function.Injective InstId.slot := fun a b same => by cases a; cases b; cases same; rfl

theorem blockSlot_injective : Function.Injective BlockId.slot := fun a b same => by cases a; cases b; cases same; rfl

theorem funcSlot_injective : Function.Injective FuncId.slot := fun a b same => by cases a; cases b; cases same; rfl

/-! ## Lawful chains -/

section Lawful

variable (m : Machine) (i j : InstId) (b c : BlockId) (f g : FuncId)

theorem insts_setLinks (place : Links InstId BlockId) :
    (Chained.setLinks m i place).insts.get? j.slot =
      if j = i then (m.insts.get? i.slot).map ({ · with links := place }) else m.insts.get? j.slot := by
  simp only [Chained.setLinks, ← instSlot_injective.eq_iff]
  split
  · next node found => simp [Pool.get?_set, found]
  · next missing => split <;> simp_all

theorem blocks_setEnds (code : Ends InstId) :
    (Chained.setEnds m b code).blocks.get? c.slot =
      if c = b then (m.blocks.get? b.slot).map ({ · with code }) else m.blocks.get? c.slot := by
  simp only [Chained.setEnds, ← blockSlot_injective.eq_iff]
  split
  · next node found => simp [Pool.get?_set, found]
  · next missing => split <;> simp_all

theorem blocks_setLinks (place : Links BlockId FuncId) :
    (Chained.setLinks m b place).blocks.get? c.slot =
      if c = b then (m.blocks.get? b.slot).map ({ · with links := place }) else m.blocks.get? c.slot := by
  simp only [Chained.setLinks, ← blockSlot_injective.eq_iff]
  split
  · next node found => simp [Pool.get?_set, found]
  · next missing => split <;> simp_all

theorem funcs_setEnds (layout : Ends BlockId) :
    (Chained.setEnds m f layout).funcs.get? g.slot =
      if g = f then (m.funcs.get? f.slot).map ({ · with layout }) else m.funcs.get? g.slot := by
  simp only [Chained.setEnds, ← funcSlot_injective.eq_iff]
  split
  · next node found => simp [Pool.get?_set, found]
  · next missing => split <;> simp_all

end Lawful

theorem length_le_capacity {ν α : Type} {slot : ν → Nat} (injective : Function.Injective slot) {p : Pool α}
    {nodes : List ν} (nodup : nodes.Nodup) (known : ∀ node ∈ nodes, (p.get? (slot node)).isSome) :
    nodes.length ≤ p.capacity := by
  have slots : (nodes.map slot).Nodup := nodup.map injective
  have within : nodes.map slot ⊆ List.range p.capacity := by
    intro i member
    obtain ⟨node, inside, rfl⟩ := List.mem_map.mp member
    exact List.mem_range.mpr (Pool.lt_capacity (known node inside))
  simpa using (List.subperm_of_subset slots within).length_le

instance : LawfulChained Machine InstId BlockId where
  links_setLinks m i j place := by
    simp only [Chained.links?, insts_setLinks]
    split <;> simp [Function.comp_def]
  links_setEnds m b found i := by
    simp only [Chained.links?, Chained.setEnds]
    split <;> rfl
  ends_setLinks m i place b := by
    simp only [Chained.ends?, Chained.setLinks]
    split <;> rfl
  ends_setEnds m b c found := by
    simp only [Chained.ends?, blocks_setEnds]
    split <;> simp [Function.comp_def]
  room m nodes nodup known :=
    length_le_capacity instSlot_injective nodup fun node inside => by
      simpa [Chained.links?] using known node inside

instance : LawfulChained Machine BlockId FuncId where
  links_setLinks m b c place := by
    simp only [Chained.links?, blocks_setLinks]
    split <;> simp [Function.comp_def]
  links_setEnds m f found b := by
    simp only [Chained.links?, Chained.setEnds]
    split <;> rfl
  ends_setLinks m b place f := by
    simp only [Chained.ends?, Chained.setLinks]
    split <;> rfl
  ends_setEnds m f g found := by
    simp only [Chained.ends?, funcs_setEnds]
    split <;> simp [Function.comp_def]
  room m nodes nodup known :=
    length_le_capacity blockSlot_injective nodup fun node inside => by
      simpa [Chained.links?] using known node inside

/-! ## Reading -/

section Reading

variable {m : Machine} {i : InstId} {b : BlockId} {f : FuncId}

theorem inst_eq_ok {inst : Inst BlockId} :
    m.inst i = .ok inst ↔ (m.insts.get? i.slot).map InstNode.inst = some inst := by
  rw [Machine.inst, map_eq_ok]
  simp only [Pool.get_eq_ok, Option.map_eq_some_iff]

theorem func_eq_ok {node : FuncNode} : m.func f = .ok node ↔ m.funcs.get? f.slot = some node := Pool.get_eq_ok

theorem label_congr {m' : Machine}
    (same : (m'.blocks.get? b.slot).map BlockNode.label = (m.blocks.get? b.slot).map BlockNode.label) :
    m'.label b = m.label b := by
  rw [label, label, Pool.get, Pool.get]
  cases found : m.blocks.get? b.slot <;> cases found' : m'.blocks.get? b.slot <;> simp_all [Functor.map, Except.map]

/-- An instruction that is stored and in no block. -/
def Loose (m : Machine) (i : InstId) : Prop := Chained.links? m i = some ({} : Links InstId BlockId)

end Reading

/-- A machine with sound pools whose chains are the given sequences. -/
structure Formed (m : Machine) (code : BlockId → List InstId) (layout : FuncId → List BlockId) : Prop where
  insts : m.insts.Sound
  blocks : m.blocks.Sound
  funcs : m.funcs.Sound
  code : Chain.Linked m code
  layout : Chain.Linked m layout

/-- A machine whose chains are sequences. -/
def WellFormed (m : Machine) : Prop := ∃ code layout, m.Formed code layout

/-- The machine `m'` has all instructions of `m` unchanged, and the blocks and functions of `m`. -/
structure Keeps (m m' : Machine) : Prop where
  insts : ∀ i inst, m.inst i = .ok inst → m'.inst i = .ok inst
  labels : ∀ b, (m'.blocks.get? b).map BlockNode.label = (m.blocks.get? b).map BlockNode.label
  funcs : m'.funcs = m.funcs

theorem Keeps.refl (m : Machine) : Keeps m m := ⟨fun _ _ => id, fun _ => rfl, rfl⟩

theorem Keeps.trans {m₁ m₂ m₃ : Machine} (first : Keeps m₁ m₂) (second : Keeps m₂ m₃) : Keeps m₁ m₃ :=
  ⟨fun i inst found => second.insts i inst (first.insts i inst found),
    fun b => (second.labels b).trans (first.labels b), second.funcs.trans first.funcs⟩

section Linking

variable {m m' : Machine} {code code' : BlockId → List InstId} {layout : FuncId → List BlockId}

/-- Linking instructions changes neither instructions nor labels, neither functions nor their layout. -/
structure Relinked (m m' : Machine) : Prop where
  insts : ∀ i : InstId, (m'.insts.get? i.slot).map InstNode.inst = (m.insts.get? i.slot).map InstNode.inst
  labels : ∀ b : BlockId, (m'.blocks.get? b.slot).map BlockNode.label = (m.blocks.get? b.slot).map BlockNode.label
  places : ∀ b : BlockId, (m'.blocks.get? b.slot).map BlockNode.links = (m.blocks.get? b.slot).map BlockNode.links
  funcs : m'.funcs = m.funcs
  instsSound : m.insts.Sound → m'.insts.Sound
  blocksSound : m.blocks.Sound → m'.blocks.Sound

theorem relinked_of_edits (edits : Chain.Edits InstId BlockId m m') : Relinked m m' := by
  -- Links and ends are replaced inside one record each, which keeps its other fields.
  induction edits with
  | refl => exact ⟨fun _ => rfl, fun _ => rfl, fun _ => rfl, rfl, id, id⟩
  | @links t i place _ ih =>
    have blocks : (Chained.setLinks t i place).blocks = t.blocks := by simp only [Chained.setLinks]; split <;> rfl
    have funcs : (Chained.setLinks t i place).funcs = t.funcs := by simp only [Chained.setLinks]; split <;> rfl
    refine ⟨fun j => ?_, fun b => by rw [blocks, ih.labels], fun b => by rw [blocks, ih.places], funcs.trans ih.funcs,
      fun sound => ?_, fun sound => by rw [blocks]; exact ih.blocksSound sound⟩
    · rw [← ih.insts, insts_setLinks]
      split
      · next same => simp [same, Function.comp_def]
      · rfl
    · simp only [Chained.setLinks]
      split
      · exact (ih.instsSound sound).set _ _
      · exact ih.instsSound sound
  | @ends t b found _ ih =>
    have insts : (Chained.setEnds t b found).insts = t.insts := by simp only [Chained.setEnds]; split <;> rfl
    have funcs : (Chained.setEnds t b found).funcs = t.funcs := by simp only [Chained.setEnds]; split <;> rfl
    refine ⟨fun j => by rw [insts, ih.insts], fun c => ?_, fun c => ?_, funcs.trans ih.funcs,
      fun sound => by rw [insts]; exact ih.instsSound sound, fun sound => ?_⟩
    · rw [← ih.labels, blocks_setEnds]
      split
      · next same => simp [same, Function.comp_def]
      · rfl
    · rw [← ih.places, blocks_setEnds]
      split
      · next same => simp [same, Function.comp_def]
      · rfl
    · simp only [Chained.setEnds]
      split
      · exact (ih.blocksSound sound).set _ _
      · exact ih.blocksSound sound

theorem Relinked.trans {m₁ m₂ m₃ : Machine} (first : Relinked m₁ m₂) (second : Relinked m₂ m₃) : Relinked m₁ m₃ where
  insts i := (second.insts i).trans (first.insts i)
  labels b := (second.labels b).trans (first.labels b)
  places b := (second.places b).trans (first.places b)
  funcs := second.funcs.trans first.funcs
  instsSound := second.instsSound ∘ first.instsSound
  blocksSound := second.blocksSound ∘ first.blocksSound

theorem Relinked.keeps (relinked : Relinked m m') : Keeps m m' where
  insts i inst found := by
    rw [inst_eq_ok] at found ⊢
    rw [relinked.insts, found]
  labels b := relinked.labels ⟨b⟩
  funcs := relinked.funcs

theorem Formed.relinked (formed : m.Formed code layout) (relinked : Relinked m m') (linked : Chain.Linked m' code') :
    m'.Formed code' layout where
  insts := relinked.instsSound formed.insts
  blocks := relinked.blocksSound formed.blocks
  funcs := relinked.funcs ▸ formed.funcs
  code := linked
  layout := formed.layout.adjusted (fun b => .inl (relinked.places b)) fun f => .inl (by
    simp only [Chained.ends?, relinked.funcs])

/-! ## Storing instructions -/

/-- A list of new handles stands for the given instructions, none of which `m` had. -/
structure Fresh (m m' : Machine) (ids : List InstId) (insts : List (Inst BlockId)) : Prop where
  stored : List.Forall₂ (fun i inst => m'.inst i = .ok inst) ids insts
  nodup : ids.Nodup
  unknown : ∀ i ∈ ids, m.insts.get? i.slot = none

theorem addInst_get? (formed : m.Formed code layout) (inst : Inst BlockId) (j : InstId) :
    (m.addInst inst).1.insts.get? j.slot = if j = (m.addInst inst).2 then some { inst } else m.insts.get? j.slot := by
  have lookup := formed.insts.get?_insert { inst } j.slot
  have same : j = (m.addInst inst).2 ↔ j.slot = m.insts.nextSlot := by cases j; simp [addInst]
  simp only [same]
  exact lookup

theorem addInst_unknown (formed : m.Formed code layout) (inst : Inst BlockId) :
    m.insts.get? (m.addInst inst).2.slot = none := formed.insts.get?_nextSlot

theorem addInst_keeps (formed : m.Formed code layout) (inst : Inst BlockId) : Keeps m (m.addInst inst).1 where
  insts j other found := by
    rw [inst_eq_ok] at found ⊢
    rw [addInst_get? formed, if_neg ?_, found]
    rintro rfl
    rw [addInst_unknown formed] at found
    cases found
  labels _ := rfl
  funcs := rfl

theorem Formed.addInst (formed : m.Formed code layout) (inst : Inst BlockId) :
    (m.addInst inst).1.Formed code layout where
  insts := formed.insts.insert _
  blocks := formed.blocks
  funcs := formed.funcs
  code := by
    refine formed.code.adjusted (fun j => ?_) fun _ => .inl rfl
    simp only [Chained.links?, addInst_get? formed]
    split
    · next same =>
      subst same
      refine .inr ⟨fun b member => ?_, fun place found => by cases found; rfl⟩
      obtain ⟨_, _, _, found⟩ := formed.code.exists_links member
      simp [Chained.links?, addInst_unknown formed] at found
    · exact .inl rfl
  layout := formed.layout.adjusted (fun _ => .inl rfl) fun _ => .inl rfl

theorem addInst_loose (formed : m.Formed code layout) (inst : Inst BlockId) :
    (m.addInst inst).1.Loose (m.addInst inst).2 := by
  simp [Loose, Chained.links?, addInst_get? formed]

theorem Loose.addInst {i : InstId} (loose : m.Loose i) (formed : m.Formed code layout) (inst : Inst BlockId) :
    (m.addInst inst).1.Loose i := by
  have differ : i ≠ (m.addInst inst).2 := by
    rintro rfl
    simp [Loose, Chained.links?, addInst_unknown formed] at loose
  simpa only [Loose, Chained.links?, addInst_get? formed, if_neg differ] using loose

theorem Formed.addInsts (formed : m.Formed code layout) (insts : List (Inst BlockId)) :
    (m.addInsts insts).1.Formed code layout ∧ Fresh m (m.addInsts insts).1 (m.addInsts insts).2 insts ∧
      Keeps m (m.addInsts insts).1 ∧ (∀ i, m.Loose i → (m.addInsts insts).1.Loose i) ∧
      ∀ i ∈ (m.addInsts insts).2, (m.addInsts insts).1.Loose i := by
  induction insts generalizing m with
  | nil => exact ⟨formed, ⟨.nil, .nil, by simp [Machine.addInsts]⟩, .refl m, fun _ => id, by simp [Machine.addInsts]⟩
  | cons inst rest ih =>
    obtain ⟨formed', fresh, keeps, still, loose⟩ := ih (formed.addInst inst)
    have first := addInst_keeps formed inst
    have stored : (m.addInst inst).1.inst (m.addInst inst).2 = .ok inst :=
      inst_eq_ok.mpr (by simp [addInst_get? formed])
    have unknown {i : InstId} (member : i ∈ ((m.addInst inst).1.addInsts rest).2) :
        i ≠ (m.addInst inst).2 ∧ m.insts.get? i.slot = none := by
      have new := fresh.unknown i member
      rw [addInst_get? formed] at new
      split at new
      · cases new
      · next differ => exact ⟨differ, new⟩
    refine ⟨formed', ⟨.cons (keeps.insts _ _ stored) fresh.stored, ?_, ?_⟩, first.trans keeps,
      fun i old => still i (old.addInst formed inst), ?_⟩
    · exact List.nodup_cons.mpr ⟨fun member => (unknown member).1 rfl, fresh.nodup⟩
    · intro i member
      rcases List.mem_cons.mp member with rfl | member
      · exact addInst_unknown formed inst
      · exact (unknown member).2
    · intro i member
      rcases List.mem_cons.mp member with rfl | member
      · exact still _ (addInst_loose formed inst)
      · exact loose i member

/-! ## Linking instructions -/

theorem Loose.inserted {b : BlockId} {pre post : List InstId} {i new : InstId} (loose : m.Loose i)
    (linked : Chain.Linked m code) (split : code b = pre ++ post) (differ : i ≠ new)
    (inserted : Chain.Inserted m m' b pre new post) : m'.Loose i := by
  rw [Loose, inserted.links_of_not_mem differ (split ▸ linked.not_mem_of_loose loose b)]
  exact loose

theorem Formed.linkBefore (formed : m.Formed code layout) {b : BlockId} {pre post : List InstId} {i : InstId}
    (split : code b = pre ++ i :: post) {ids : List InstId} (nodup : ids.Nodup) (loose : ∀ new ∈ ids, m.Loose new) :
    ∃ m', ids.foldlM (fun m new => Chain.insertBefore (κ := BlockId) m i new) m = .ok m' ∧
      m'.Formed (Function.update code b (pre ++ ids ++ i :: post)) layout ∧ Relinked m m' := by
  induction ids generalizing m code pre with
  | nil =>
    refine ⟨m, rfl, ?_, relinked_of_edits (.refl m)⟩
    rwa [List.append_nil, ← split, Function.update_eq_self]
  | cons new ids ih =>
    obtain ⟨fresh, nodup⟩ := List.nodup_cons.mp nodup
    obtain ⟨m₁, linkedFirst, inserted⟩ := Chain.insertBefore_inserted formed.code split (loose new (by simp))
    have relinked := relinked_of_edits inserted.edits
    have formed₁ := formed.relinked relinked
      (inserted.linked formed.code split (formed.code.not_mem_of_loose (loose new (by simp))))
    have loose₁ : ∀ other ∈ ids, m₁.Loose other := fun other member =>
      (loose other (by simp [member])).inserted formed.code split (by rintro rfl; exact fresh member) inserted
    obtain ⟨m', linkedRest, formed', rest⟩ := ih formed₁
      (show Function.update code b _ b = (pre ++ [new]) ++ i :: post by simp) nodup loose₁
    refine ⟨m', ?_, ?_, relinked.trans rest⟩
    · rw [List.foldlM_cons, linkedFirst, ok_bind, linkedRest]
    · simpa using formed'

theorem Formed.linkAfter (formed : m.Formed code layout) {b : BlockId} {pre post : List InstId} {i : InstId}
    (split : code b = pre ++ i :: post) {ids : List InstId} (nodup : ids.Nodup) (loose : ∀ new ∈ ids, m.Loose new) :
    ∃ m' last, ids.foldlM (fun (m, last) new => return (← Chain.insertAfter (κ := BlockId) m last new, new)) (m, i) =
        .ok (m', last) ∧
      m'.Formed (Function.update code b (pre ++ i :: (ids ++ post))) layout ∧ Relinked m m' := by
  induction ids generalizing m code pre i with
  | nil =>
    refine ⟨m, i, rfl, ?_, relinked_of_edits (.refl m)⟩
    rwa [List.nil_append, ← split, Function.update_eq_self]
  | cons new ids ih =>
    obtain ⟨fresh, nodup⟩ := List.nodup_cons.mp nodup
    obtain ⟨m₁, linkedFirst, inserted⟩ := Chain.insertAfter_inserted formed.code split (loose new (by simp))
    have relinked := relinked_of_edits inserted.edits
    have split' : code b = (pre ++ [i]) ++ post := by simp [split]
    have formed₁ := formed.relinked relinked
      (inserted.linked formed.code split' (formed.code.not_mem_of_loose (loose new (by simp))))
    have loose₁ : ∀ other ∈ ids, m₁.Loose other := fun other member =>
      (loose other (by simp [member])).inserted formed.code split' (by rintro rfl; exact fresh member) inserted
    obtain ⟨m', last, linkedRest, formed', rest⟩ := ih formed₁
      (show Function.update code b _ b = (pre ++ [i]) ++ new :: post by simp) nodup loose₁
    refine ⟨m', last, ?_, ?_, relinked.trans rest⟩
    · simp only [List.foldlM_cons, linkedFirst, ok_bind, pure_bind]
      exact linkedRest
    · simpa using formed'

theorem Formed.insertBefore (formed : m.Formed code layout) {b : BlockId} {pre post : List InstId} {i : InstId}
    (split : code b = pre ++ i :: post) (insts : List (Inst BlockId)) :
    ∃ m' ids, m.insertBefore i insts = .ok m' ∧
      m'.Formed (Function.update code b (pre ++ ids ++ i :: post)) layout ∧ Fresh m m' ids insts ∧ Keeps m m' := by
  obtain ⟨formed₁, fresh, keeps, -, loose⟩ := formed.addInsts insts
  obtain ⟨m', linked, formed', relinked⟩ := formed₁.linkBefore split fresh.nodup loose
  refine ⟨m', (m.addInsts insts).2, linked, formed', ⟨?_, fresh.nodup, fresh.unknown⟩, keeps.trans relinked.keeps⟩
  exact fresh.stored.imp fun i inst found => relinked.keeps.insts i inst found

theorem Formed.insertAfter (formed : m.Formed code layout) {b : BlockId} {pre post : List InstId} {i : InstId}
    (split : code b = pre ++ i :: post) (insts : List (Inst BlockId)) :
    ∃ m' ids, m.insertAfter i insts = .ok m' ∧
      m'.Formed (Function.update code b (pre ++ i :: (ids ++ post))) layout ∧ Fresh m m' ids insts ∧ Keeps m m' := by
  obtain ⟨formed₁, fresh, keeps, -, loose⟩ := formed.addInsts insts
  obtain ⟨m', last, linked, formed', relinked⟩ := formed₁.linkAfter split fresh.nodup loose
  refine ⟨m', (m.addInsts insts).2, ?_, formed', ⟨?_, fresh.nodup, fresh.unknown⟩, keeps.trans relinked.keeps⟩
  · rw [Machine.insertAfter]
    dsimp only
    rw [linked]
    rfl
  · exact fresh.stored.imp fun i inst found => relinked.keeps.insts i inst found

/-! ## Changing and removing instructions -/

theorem Formed.modifyInst (formed : m.Formed code layout) {i : InstId} {inst : Inst BlockId}
    (found : m.inst i = .ok inst) (change : Inst BlockId → Inst BlockId) :
    ∃ m', m.modifyInst i change = .ok m' ∧ m'.Formed code layout ∧ m'.blocks = m.blocks ∧ m'.funcs = m.funcs ∧
      ∀ j, (m'.insts.get? j.slot).map InstNode.inst =
        if j = i then some (change inst) else (m.insts.get? j.slot).map InstNode.inst := by
  obtain ⟨node, stored, rfl⟩ := Option.map_eq_some_iff.mp (inst_eq_ok.mp found)
  have lookup (j : InstId) : (m.insts.set i.slot { node with inst := change node.inst }).get? j.slot =
      if j = i then some { node with inst := change node.inst } else m.insts.get? j.slot := by
    simp only [Pool.get?_set, stored, instSlot_injective.eq_iff, Option.map_some]
  refine ⟨{ m with insts := m.insts.set i.slot { node with inst := change node.inst } }, ?_, ?_, rfl, rfl, fun j => ?_⟩
  · rw [Machine.modifyInst, Pool.modify_eq_ok.mpr ⟨node, stored, rfl⟩]
    rfl
  · refine ⟨formed.insts.set _ _, formed.blocks, formed.funcs, ?_, ?_⟩
    · refine formed.code.adjusted (fun j => .inl ?_) fun _ => .inl rfl
      simp only [Chained.links?, lookup]
      split
      · next same => rw [same, stored]; rfl
      · rfl
    · exact formed.layout.adjusted (fun _ => .inl rfl) fun _ => .inl rfl
  · simp only [lookup]
    split <;> rfl

theorem Formed.freeInst (formed : m.Formed code layout) {i : InstId} (loose : m.Loose i) :
    ∃ m', m.freeInst i = .ok m' ∧ m'.Formed code layout ∧ m'.blocks = m.blocks ∧ m'.funcs = m.funcs ∧
      ∀ j : InstId, m'.insts.get? j.slot = if j = i then none else m.insts.get? j.slot := by
  have known : (m.insts.get? i.slot).isSome := by
    obtain ⟨node, stored, -⟩ := Option.map_eq_some_iff.mp loose
    rw [stored]
    rfl
  obtain ⟨rest, erased⟩ : ∃ rest, m.insts.erase i.slot = .ok rest := ⟨_, Pool.erase_eq_ok.mpr ⟨known, rfl⟩⟩
  have lookup (j : InstId) := Pool.get?_erase (j := j.slot) erased
  simp only [instSlot_injective.eq_iff] at lookup
  refine ⟨{ m with insts := rest }, ?_, ?_, rfl, rfl, lookup⟩
  · rw [Machine.freeInst, erased]
    rfl
  · refine ⟨formed.insts.erase erased, formed.blocks, formed.funcs, ?_, ?_⟩
    · refine formed.code.adjusted (fun j => ?_) fun _ => .inl rfl
      simp only [Chained.links?, lookup]
      split
      · next same =>
        refine .inr ⟨fun c => ?_, fun _ found => by cases found⟩
        rw [same]
        exact formed.code.not_mem_of_loose loose c
      · exact .inl rfl
    · exact formed.layout.adjusted (fun _ => .inl rfl) fun _ => .inl rfl

theorem Formed.removeInst (formed : m.Formed code layout) {b : BlockId} {pre post : List InstId} {i : InstId}
    (split : code b = pre ++ i :: post) :
    ∃ m', m.removeInst i = .ok m' ∧ m'.Formed (Function.update code b (pre ++ post)) layout ∧
      m'.funcs = m.funcs ∧ (∀ b, (m'.blocks.get? b).map BlockNode.label = (m.blocks.get? b).map BlockNode.label) ∧
      ∀ j, j ≠ i → (m'.insts.get? j.slot).map InstNode.inst = (m.insts.get? j.slot).map InstNode.inst := by
  obtain ⟨m₁, unlinked, removed⟩ := Chain.unlink_removed formed.code split
  have relinked := relinked_of_edits removed.edits
  have formed₁ := formed.relinked relinked (removed.linked formed.code split)
  have loose : m₁.Loose i := by rw [Loose, removed.links, if_pos rfl]
  obtain ⟨m', freed, formed', blocks, funcs, lookup⟩ := formed₁.freeInst loose
  refine ⟨m', ?_, formed', funcs.trans relinked.funcs, fun b => ?_, fun j differ => ?_⟩
  · rw [Machine.removeInst, unlinkInst, unlinked, ok_bind, freed]
  · rw [blocks]
    exact relinked.labels ⟨b⟩
  · rw [← relinked.insts, lookup, if_neg differ]

theorem Formed.modifyFunc (formed : m.Formed code layout) {f : FuncId} {node : FuncNode} (found : m.func f = .ok node)
    (change : FuncNode → FuncNode) (fixed : ∀ node, (change node).layout = node.layout) :
    ∃ m', m.modifyFunc f change = .ok m' ∧ m'.Formed code layout ∧ m'.insts = m.insts ∧ m'.blocks = m.blocks ∧
      ∀ g : FuncId, m'.funcs.get? g.slot = if g = f then some (change node) else m.funcs.get? g.slot := by
  rw [func_eq_ok] at found
  have lookup (g : FuncId) : (m.funcs.set f.slot (change node)).get? g.slot =
      if g = f then some (change node) else m.funcs.get? g.slot := by
    simp only [Pool.get?_set, found, funcSlot_injective.eq_iff, Option.map_some]
  refine ⟨{ m with funcs := m.funcs.set f.slot (change node) }, ?_, ?_, rfl, rfl, lookup⟩
  · rw [Machine.modifyFunc, Pool.modify_eq_ok.mpr ⟨node, found, rfl⟩]
    rfl
  · refine ⟨formed.insts, formed.blocks, formed.funcs.set _ _, ?_, ?_⟩
    · exact formed.code.adjusted (fun _ => .inl rfl) fun _ => .inl rfl
    · refine formed.layout.adjusted (fun _ => .inl rfl) fun g => .inl ?_
      simp only [Chained.ends?, lookup]
      split
      · next same => rw [same, found]; exact congrArg some (fixed node)
      · rfl

end Linking

end RegisterAllocator.Machine
