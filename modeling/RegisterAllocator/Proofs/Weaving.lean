import RegisterAllocator.Proofs.Applied
import RegisterAllocator.Proofs.Bodies
import RegisterAllocator.Proofs.Placement

/-!
# Spill code in stored code

Carrying out an allocation on a machine puts into the place of each instruction of the function what the allocation says
of it (`Woven`): the loads before it, the instruction itself unless it is taken out, and the stores after it. No other
instruction is touched, and the blocks stay in order (`allocation_woven`).
-/

namespace RegisterAllocator

/-- An instruction whose target has been looked up is the one found with the target put back. -/
theorem Inst.eq_mapTarget {τ τ' : Type} {find : τ → Except Fault τ'} {name : τ' → τ} {inst : Inst τ} {inst' : Inst τ'}
    (back : ∀ target target', find target = .ok target' → name target' = target)
    (found : inst.mapTargetM find = .ok inst') : inst = inst'.mapTarget name := by
  cases inst with
  | jump target =>
    simp only [mapTargetM, bind_eq_ok, pure_eq_ok] at found
    obtain ⟨target', located, rfl⟩ := found
    exact congrArg jump (back target target' located).symm
  | branch op rs1 rs2 target =>
    simp only [mapTargetM, bind_eq_ok, pure_eq_ok] at found
    obtain ⟨target', located, rfl⟩ := found
    exact congrArg (branch op rs1 rs2) (back target target' located).symm
  | _ =>
    cases found
    rfl

/-- Sequences in which each item is replaced by a piece, after one piece has changed. -/
theorem flatMap_update {ν κ : Type} [DecidableEq ν] [DecidableEq κ] {seq : κ → List ν} {container : κ}
    {pre post : List ν} {node : ν} (split : seq container = pre ++ node :: post) (nodup : (seq container).Nodup)
    (only : ∀ other, node ∈ seq other → other = container) (piece : ν → List ν) (handles : List ν) :
    (fun other => (seq other).flatMap (Function.update piece node handles)) =
      Function.update (fun other => (seq other).flatMap piece) container
        (pre.flatMap piece ++ handles ++ post.flatMap piece) := by
  have elsewhere {list : List ν} (absent : node ∉ list) :
      list.flatMap (Function.update piece node handles) = list.flatMap piece := by
    refine List.flatMap_congr fun other member => Function.update_of_ne ?_ _ _
    rintro rfl
    exact absent member
  funext other
  by_cases same : other = container
  · subst same
    rw [split] at nodup
    obtain ⟨-, rest, apart⟩ := List.nodup_append.mp nodup
    have before : node ∉ pre := fun member => apart node member node List.mem_cons_self rfl
    have after : node ∉ post := (List.nodup_cons.mp rest).1
    rw [Function.update_self, split, List.flatMap_append, List.flatMap_cons, Function.update_self, elsewhere before,
      elsewhere after, List.append_assoc]
  · rw [Function.update_of_ne same, elsewhere fun member => same (only other member)]

def SpillStep.record (node : FuncNode) : SpillStep → FuncNode
  | .grow => { node with frame := node.frame + 8 }
  | .reload _ | .writeBack _ => node

namespace Machine

/-- Handles of instructions that are the given ones, with positions in place of blocks. -/
def Holds (m : Machine) (name : Nat → BlockId) (ids : List InstId) (insts : List (Inst Nat)) : Prop :=
  List.Forall₂ (fun i inst => m.inst i = .ok (inst.mapTarget name)) ids insts

theorem Holds.append {m : Machine} {name : Nat → BlockId} {ids ids' : List InstId} {insts insts' : List (Inst Nat)}
    (first : m.Holds name ids insts) (second : m.Holds name ids' insts') :
    m.Holds name (ids ++ ids') (insts ++ insts') :=
  List.rel_append first second

theorem Holds.kept {m m' : Machine} {name : Nat → BlockId} {ids : List InstId} {insts : List (Inst Nat)}
    (holds : m.Holds name ids insts) (keeps : ∀ j ∈ ids, ∀ inst, m.inst j = .ok inst → m'.inst j = .ok inst) :
    m'.Holds name ids insts := by
  induction holds with
  | nil => exact .nil
  | cons first _ ih =>
    exact .cons (keeps _ List.mem_cons_self _ first) (ih fun j member => keeps j (List.mem_cons_of_mem _ member))

/-- What stands in the place of an instruction: new instructions before and after it, and itself unless it is gone. -/
structure Stands (start m : Machine) (name : Nat → BlockId) (i : InstId) (gone : Prop) (p : Patch)
    (lead trail : List InstId) : Prop where
  inst : ¬gone → m.inst i = .ok (p.inst.mapTarget name)
  before : m.Holds name lead p.before
  after : m.Holds name trail p.after
  new : ∀ j ∈ lead ++ trail, start.insts.get? j.slot = none

def piece (lead trail : InstId → List InstId) (gone : List InstId) (i : InstId) : List InstId :=
  lead i ++ (if i ∈ gone then [] else [i]) ++ trail i

/-- A machine in which every instruction of the function `f` has been replaced as its patch says. The code and the
layout are those of the machine at the start. -/
structure Woven (start : Machine) (code : BlockId → List InstId) (layout : FuncId → List BlockId) (f : FuncId)
    (name : Nat → BlockId) (patch : InstId → Patch) (gone : List InstId) (lead trail : InstId → List InstId)
    (m : Machine) : Prop where
  formed : m.Formed (fun b => (code b).flatMap (piece lead trail gone)) layout
  stands : ∀ i ∈ (layout f).flatMap code, Stands start m name i (i ∈ gone) (patch i) (lead i) (trail i)
  others : ∀ i ∉ (layout f).flatMap code, lead i = [] ∧ trail i = [] ∧ i ∉ gone ∧
    ∀ inst, start.inst i = .ok inst → m.inst i = .ok inst
  labels : ∀ b : BlockId, (m.blocks.get? b.slot).map BlockNode.label = (start.blocks.get? b.slot).map BlockNode.label
  funcs : ∀ g : FuncId, (m.funcs.get? g.slot).isSome = (start.funcs.get? g.slot).isSome
  otherFuncs : ∀ g : FuncId, g ≠ f → m.funcs.get? g.slot = start.funcs.get? g.slot

variable {start m m' : Machine} {code : BlockId → List InstId} {layout : FuncId → List BlockId} {f : FuncId}
  {name : Nat → BlockId} {patch : InstId → Patch} {gone : List InstId} {lead trail : InstId → List InstId} {i : InstId}
  {body : Body}

theorem Formed.known (formed : start.Formed code layout) {b : BlockId} (member : i ∈ code b) :
    start.insts.get? i.slot ≠ none := by
  obtain ⟨_, _, _, found⟩ := formed.code.exists_links member
  obtain ⟨node, stored, -⟩ := Option.map_eq_some_iff.mp found
  rw [stored]
  exact Option.some_ne_none node

theorem woven_self (formed : start.Formed code layout) (stored : ∀ i ∈ (layout f).flatMap code,
    ∃ inst, patch i = .ofInst inst ∧ start.inst i = .ok (inst.mapTarget name)) :
    Woven start code layout f name patch [] (fun _ => []) (fun _ => []) start := by
  have single : piece (fun _ => []) (fun _ => []) [] = fun i => [i] := by
    funext i
    simp [piece]
  refine ⟨by simpa [single] using formed, fun i member => ?_, fun _ _ => ⟨rfl, rfl, by simp, fun _ => id⟩, fun _ => rfl,
    fun _ => rfl, fun _ _ => rfl⟩
  obtain ⟨inst, same, found⟩ := stored i member
  rw [same]
  exact ⟨fun _ => found, .nil, .nil, by simp⟩

/-- The instructions around one of the function are none of the function's own. -/
theorem Woven.new_ne (formed : start.Formed code layout)
    (woven : Woven start code layout f name patch gone lead trail m) (member : i ∈ (layout f).flatMap code)
    {j k : InstId} (around : j ∈ lead i ++ trail i) (own : k ∈ (layout f).flatMap code) : j ≠ k := by
  rintro rfl
  obtain ⟨b, -, inB⟩ := List.mem_flatMap.mp own
  exact formed.known inB ((woven.stands i member).new j around)

/-- An instruction and what stands in its place may change if nothing else does. -/
theorem Woven.changed (formed : start.Formed code layout)
    (woven : Woven start code layout f name patch gone lead trail m) {b : BlockId} (inF : b ∈ layout f)
    {pre post : List InstId} (split : code b = pre ++ i :: post) {p : Patch}
    {gone' l t : List InstId} (same : ∀ j, j ≠ i → (j ∈ gone' ↔ j ∈ gone))
    (formed' : m'.Formed (Function.update (fun b => (code b).flatMap (piece lead trail gone)) b
      (pre.flatMap (piece lead trail gone) ++ (l ++ (if i ∈ gone' then [] else [i]) ++ t) ++
        post.flatMap (piece lead trail gone))) layout)
    (keeps : ∀ j inst, j ≠ i → m.inst j = .ok inst → m'.inst j = .ok inst)
    (stands : Stands start m' name i (i ∈ gone') p l t)
    (labels : ∀ b : BlockId, (m'.blocks.get? b.slot).map BlockNode.label = (m.blocks.get? b.slot).map BlockNode.label)
    (funcs : m'.funcs = m.funcs) :
    Woven start code layout f name (Function.update patch i p) gone' (Function.update lead i l)
      (Function.update trail i t) m' := by
  have inB : i ∈ code b := by simp [split]
  have inCode : i ∈ (layout f).flatMap code := List.mem_flatMap.mpr ⟨b, inF, inB⟩
  -- All changes are at `i`, so every function of handles is updated there and nowhere else.
  have pieces : piece (Function.update lead i l) (Function.update trail i t) gone' =
      Function.update (piece lead trail gone) i (l ++ (if i ∈ gone' then [] else [i]) ++ t) := by
    funext j
    by_cases here : j = i
    · subst here
      simp [piece]
    · simp [piece, here, same j here]
  refine ⟨?_, fun j member => ?_, fun j outside => ?_, fun b => (labels b).trans (woven.labels b),
    fun g => by rw [funcs, woven.funcs], fun g other => by rw [funcs, woven.otherFuncs g other]⟩
  · rw [pieces, flatMap_update split (formed.code.nodup b) fun other inOther => formed.code_disjoint inOther inB]
    exact formed'
  · by_cases here : j = i
    · subst here
      simpa using stands
    · obtain ⟨inst, before, after, new⟩ := woven.stands j member
      have apart (k : InstId) (around : k ∈ lead j ++ trail j) (found : Inst BlockId) (stored : m.inst k = .ok found) :
          m'.inst k = .ok found :=
        keeps k found (woven.new_ne formed member around inCode) stored
      simp only [Function.update_of_ne here, same j here]
      exact ⟨fun stays => keeps j _ here (inst stays),
        before.kept fun k member => apart k (List.mem_append_left _ member),
        after.kept fun k member => apart k (List.mem_append_right _ member), new⟩
  · have differ : j ≠ i := fun here => outside (here ▸ inCode)
    obtain ⟨noLead, noTrail, stays, stored⟩ := woven.others j outside
    simp only [Function.update_of_ne differ, same j differ]
    exact ⟨noLead, noTrail, stays, fun inst found => keeps j inst differ (stored inst found)⟩

theorem exists_split (member : i ∈ (layout f).flatMap code) :
    ∃ b ∈ layout f, ∃ pre post, code b = pre ++ i :: post := by
  obtain ⟨b, inF, inB⟩ := List.mem_flatMap.mp member
  exact ⟨b, inF, List.append_of_mem inB⟩

/-- Where an instruction stands that is not gone. -/
theorem flatMap_piece {b : BlockId} {pre post : List InstId} (split : code b = pre ++ i :: post) (stays : i ∉ gone) :
    (code b).flatMap (piece lead trail gone) = (pre.flatMap (piece lead trail gone) ++ lead i) ++
      i :: (trail i ++ post.flatMap (piece lead trail gone)) := by
  simp [split, piece, stays]

theorem Woven.modified (formed : start.Formed code layout)
    (woven : Woven start code layout f name patch gone lead trail m) (member : i ∈ (layout f).flatMap code)
    (stays : i ∉ gone) (change : Inst BlockId → Inst BlockId) (p : Patch)
    (inst : p.inst.mapTarget name = change ((patch i).inst.mapTarget name)) (before : p.before = (patch i).before)
    (after : p.after = (patch i).after) :
    ∃ m', m.modifyInst i change = .ok m' ∧ m'.funcs = m.funcs ∧
      Woven start code layout f name (Function.update patch i p) gone lead trail m' := by
  obtain ⟨b, inF, pre, post, split⟩ := exists_split member
  have stands := woven.stands i member
  obtain ⟨m', modified, formed', blocks, funcs, insts⟩ := woven.formed.modifyInst (stands.inst stays) change
  have keeps (j : InstId) (found : Inst BlockId) (differ : j ≠ i) (stored : m.inst j = .ok found) :
      m'.inst j = .ok found := by
    rw [inst_eq_ok] at stored ⊢
    rw [insts, if_neg differ, stored]
  have around (j : InstId) (new : j ∈ lead i ++ trail i) (found : Inst BlockId) (stored : m.inst j = .ok found) :
      m'.inst j = .ok found :=
    keeps j found (woven.new_ne formed member new member) stored
  refine ⟨m', modified, funcs, ?_⟩
  have changed : Woven start code layout f name (Function.update patch i p) gone (Function.update lead i (lead i))
      (Function.update trail i (trail i)) m' := by
    refine woven.changed formed inF split (fun _ _ => Iff.rfl) ?_ keeps ⟨fun _ => ?_, ?_, ?_, stands.new⟩
      (fun b => by rw [blocks]) funcs
    · have unchanged : pre.flatMap (piece lead trail gone) ++ (lead i ++ (if i ∈ gone then [] else [i]) ++ trail i) ++
          post.flatMap (piece lead trail gone) = (code b).flatMap (piece lead trail gone) := by
        simp [split, piece]
      rw [unchanged]
      simpa only [Function.update_eq_self] using formed'
    · rw [inst_eq_ok, insts, if_pos rfl, inst]
    · rw [before]
      exact stands.before.kept fun j member => around j (List.mem_append_left _ member)
    · rw [after]
      exact stands.after.kept fun j member => around j (List.mem_append_right _ member)
  simpa only [Function.update_eq_self] using changed

theorem Woven.known (woven : Woven start code layout f name patch [] lead trail m) {j : InstId}
    (unknown : m.insts.get? j.slot = none) : start.insts.get? j.slot = none := by
  have vacant (inst : Inst BlockId) : m.inst j ≠ .ok inst := fun found => by
    rw [inst_eq_ok, unknown] at found
    cases found
  by_cases member : j ∈ (layout f).flatMap code
  · exact absurd ((woven.stands j member).inst (by simp)) (vacant _)
  · cases stored : start.insts.get? j.slot with
    | none => rfl
    | some node =>
      have found : start.inst j = .ok node.inst := inst_eq_ok.mpr (by rw [stored]; rfl)
      exact absurd ((woven.others j member).2.2.2 node.inst found) (vacant _)

theorem Fresh.holds {insts : List (Inst Nat)} {ids : List InstId}
    (fresh : Fresh m m' ids (insts.map (Inst.mapTarget name))) : m'.Holds name ids insts := by
  simpa only [Holds, List.forall₂_map_right_iff] using fresh.stored

theorem Woven.inserted (formed : start.Formed code layout)
    (woven : Woven start code layout f name patch [] lead trail m) {b : BlockId} (inF : b ∈ layout f)
    {pre post : List InstId} (split : code b = pre ++ i :: post) {ids l t : List InstId} {insts : List (Inst BlockId)}
    (fresh : Fresh m m' ids insts) (keeps : Keeps m m') {p : Patch} (inst : p.inst = (patch i).inst)
    (formed' : m'.Formed (Function.update (fun b => (code b).flatMap (piece lead trail [])) b
      (pre.flatMap (piece lead trail []) ++ (l ++ [i] ++ t) ++ post.flatMap (piece lead trail []))) layout)
    (before : m'.Holds name l p.before) (after : m'.Holds name t p.after)
    (around : ∀ j ∈ l ++ t, j ∈ lead i ++ trail i ∨ j ∈ ids) :
    Woven start code layout f name (Function.update patch i p) [] (Function.update lead i l)
      (Function.update trail i t) m' := by
  have stands := woven.stands i (List.mem_flatMap.mpr ⟨b, inF, by simp [split]⟩)
  refine woven.changed formed inF split (fun _ _ => Iff.rfl) (by simpa using formed')
    (fun j found _ stored => keeps.insts j found stored) ⟨fun stays => ?_, before, after, fun j member => ?_⟩
    (fun b => keeps.labels b.slot) keeps.funcs
  · rw [inst]
    exact keeps.insts i _ (stands.inst stays)
  · rcases around j member with old | new
    · exact stands.new j old
    · exact woven.known (fresh.unknown j new)

theorem Woven.insertedBefore (formed : start.Formed code layout)
    (woven : Woven start code layout f name patch [] lead trail m) (member : i ∈ (layout f).flatMap code)
    (insts : List (Inst Nat)) (p : Patch) (inst : p.inst = (patch i).inst)
    (before : p.before = (patch i).before ++ insts) (after : p.after = (patch i).after) :
    ∃ m' lead', m.insertBefore i (insts.map (Inst.mapTarget name)) = .ok m' ∧ m'.funcs = m.funcs ∧
      Woven start code layout f name (Function.update patch i p) [] lead' trail m' := by
  obtain ⟨b, inF, pre, post, split⟩ := exists_split member
  have stands := woven.stands i member
  obtain ⟨m', ids, inserted, formed', fresh, keeps⟩ := woven.formed.insertBefore
    (flatMap_piece split (by simp)) (insts.map (Inst.mapTarget name))
  have changed : Woven start code layout f name (Function.update patch i p) [] (Function.update lead i (lead i ++ ids))
      (Function.update trail i (trail i)) m' := by
    refine woven.inserted formed inF split fresh keeps inst (by simpa using formed') ?_ ?_ fun j member => ?_
    · rw [before]
      exact (stands.before.kept fun j _ => keeps.insts j).append fresh.holds
    · rw [after]
      exact stands.after.kept fun j _ => keeps.insts j
    · simp only [List.mem_append] at member ⊢
      tauto
  exact ⟨m', _, inserted, keeps.funcs, by simpa only [Function.update_eq_self] using changed⟩

theorem Woven.insertedAfter (formed : start.Formed code layout)
    (woven : Woven start code layout f name patch [] lead trail m) (member : i ∈ (layout f).flatMap code)
    (insts : List (Inst Nat)) (p : Patch) (inst : p.inst = (patch i).inst)
    (before : p.before = (patch i).before) (after : p.after = insts ++ (patch i).after) :
    ∃ m' trail', m.insertAfter i (insts.map (Inst.mapTarget name)) = .ok m' ∧ m'.funcs = m.funcs ∧
      Woven start code layout f name (Function.update patch i p) [] lead trail' m' := by
  obtain ⟨b, inF, pre, post, split⟩ := exists_split member
  have stands := woven.stands i member
  obtain ⟨m', ids, inserted, formed', fresh, keeps⟩ := woven.formed.insertAfter
    (flatMap_piece split (by simp)) (insts.map (Inst.mapTarget name))
  have changed : Woven start code layout f name (Function.update patch i p) [] (Function.update lead i (lead i))
      (Function.update trail i (ids ++ trail i)) m' := by
    refine woven.inserted formed inF split fresh keeps inst (by simpa using formed') ?_ ?_ fun j member => ?_
    · rw [before]
      exact stands.before.kept fun j _ => keeps.insts j
    · rw [after]
      exact fresh.holds.append (stands.after.kept fun j _ => keeps.insts j)
    · simp only [List.mem_append] at member ⊢
      tauto
  exact ⟨m', _, inserted, keeps.funcs, by simpa only [Function.update_eq_self] using changed⟩

theorem Woven.removed (formed : start.Formed code layout)
    (woven : Woven start code layout f name patch gone lead trail m) (member : i ∈ (layout f).flatMap code)
    (stays : i ∉ gone) :
    ∃ m', m.removeInst i = .ok m' ∧ Woven start code layout f name patch (i :: gone) lead trail m' := by
  obtain ⟨b, inF, pre, post, split⟩ := exists_split member
  have stands := woven.stands i member
  obtain ⟨m', removed, formed', funcs, labels, insts⟩ := woven.formed.removeInst (flatMap_piece split stays)
  have keeps (j : InstId) (found : Inst BlockId) (differ : j ≠ i) (stored : m.inst j = .ok found) :
      m'.inst j = .ok found := by
    rw [inst_eq_ok] at stored ⊢
    rw [insts j differ, stored]
  have around (j : InstId) (new : j ∈ lead i ++ trail i) (found : Inst BlockId) (stored : m.inst j = .ok found) :
      m'.inst j = .ok found :=
    keeps j found (woven.new_ne formed member new member) stored
  have changed : Woven start code layout f name (Function.update patch i (patch i)) (i :: gone)
      (Function.update lead i (lead i)) (Function.update trail i (trail i)) m' := by
    refine woven.changed formed inF split (fun j differ => by simp [differ]) (by simpa using formed') keeps
      ⟨fun stays => absurd List.mem_cons_self stays, ?_, ?_, stands.new⟩ (fun b => labels b.slot) funcs
    · exact stands.before.kept fun j member => around j (List.mem_append_left _ member)
    · exact stands.after.kept fun j member => around j (List.mem_append_right _ member)
  exact ⟨m', removed, by simpa only [Function.update_eq_self] using changed⟩

/-! ## Carrying out an allocation -/

theorem numbered_eq_ok {ids : List InstId} {number : Nat} :
    numbered ids.toArray number = .ok i ↔ ids[number]? = some i := by
  unfold numbered
  rw [List.getElem?_toArray]
  cases ids[number]? <;> simp

/-- Patches are changed by number, a function of handles at the handle of that number. -/
theorem getElem?_modify_update {ids : List InstId} (nodup : ids.Nodup) {patches : Array Patch}
    (patched : ∀ (n : Nat) i, ids[n]? = some i → patches[n]? = some (patch i)) {number : Nat}
    (located : ids[number]? = some i) (change : Patch → Patch) (n : Nat) (j : InstId) (here : ids[n]? = some j) :
    (patches.modify number change)[n]? = some (Function.update patch i (change (patch i)) j) := by
  rw [Array.getElem?_modify, patched n j here]
  by_cases same : number = n
  · subst same
    rw [located] at here
    cases here
    simp
  · have differ : j ≠ i := by
      rintro rfl
      exact same ((List.getElem?_inj (List.getElem?_eq_some_iff.mp located).1 nodup).mp (located.trans here.symm))
    simp [same, differ]

theorem Woven.exists_modifiedFunc (woven : Woven start code layout f name patch gone lead trail m) {node : FuncNode}
    (stored : m.func f = .ok node) (change : FuncNode → FuncNode)
    (fixed : ∀ node, (change node).layout = node.layout) :
    ∃ m', m.modifyFunc f change = .ok m' ∧ m'.func f = .ok (change node) ∧
      Woven start code layout f name patch gone lead trail m' := by
  obtain ⟨m', modified, formed', insts, blocks, funcs⟩ := woven.formed.modifyFunc stored change fixed
  have same (j : InstId) : m'.inst j = m.inst j := by rw [inst, inst, insts]
  refine ⟨m', modified, func_eq_ok.mpr (by rw [funcs, if_pos rfl]), formed', fun i member => ?_, fun i outside => ?_,
    fun b => by rw [blocks, woven.labels], fun h => ?_, fun h other => by rw [funcs, if_neg other, woven.otherFuncs h other]⟩
  · obtain ⟨inst, before, after, new⟩ := woven.stands i member
    exact ⟨fun stays => (same i).trans (inst stays), before.kept fun j _ => by simp [same],
      after.kept fun j _ => by simp [same], new⟩
  · simpa only [same] using woven.others i outside
  · rw [funcs, ← woven.funcs]
    split
    · next here => rw [here, func_eq_ok.mp stored]; rfl
    · rfl

theorem func_congr {g : FuncId} (funcs : m'.funcs = m.funcs) : m'.func g = m.func g := by rw [func, func, funcs]

/-- A step of a spill plan does to the machine what it does to the patches and to the record of the function. -/
theorem Woven.exists_stepped (formed : start.Formed code layout)
    (woven : Woven start code layout f name patch [] lead trail m) {patches : Array Patch} {step : SpillStep}
    (patched : ∀ (n : Nat) i, ((layout f).flatMap code)[n]? = some i → patches[n]? = some (patch i))
    (inside : ∀ t, step.transfer? = some t → t.number < ((layout f).flatMap code).length) {node : FuncNode}
    (stored : m.func f = .ok node) (room : step = .grow → node.frame.toNat + 8 < UInt64.size) :
    ∃ m' patch' lead' trail', applyStep f ((layout f).flatMap code).toArray m step = .ok m' ∧
      m'.func f = .ok (step.record node) ∧ Woven start code layout f name patch' [] lead' trail' m' ∧
      ∀ (n : Nat) i, ((layout f).flatMap code)[n]? = some i → (step.patch patches)[n]? = some (patch' i) := by
  have renumbered {number : Nat} {i : InstId} (located : ((layout f).flatMap code)[number]? = some i) :=
    getElem?_modify_update (formed.nodup_insts f) patched located
  cases step with
  | grow =>
    have fits : node.frame.toNat + UInt64.toNat 8 < UInt64.size := room rfl
    obtain ⟨m', modified, stored', woven⟩ := woven.exists_modifiedFunc stored
      ({ · with frame := node.frame + 8 }) fun _ => rfl
    refine ⟨m', patch, lead, trail, ?_, stored', woven, patched⟩
    simp only [applyStep, growFrame, stored, ok_bind, extendFrame, if_pos fits, modified]
  | reload t =>
    obtain ⟨i, located⟩ : ∃ i, ((layout f).flatMap code)[t.number]? = some i :=
      ⟨_, List.getElem?_eq_getElem (inside t rfl)⟩
    have member := List.mem_of_getElem? located
    obtain ⟨m₁, modified, funcs₁, woven⟩ := woven.modified formed member (by simp) (·.replaceUse t.reg t.data)
      { patch i with inst := (patch i).inst.replaceUse t.reg t.data } (Inst.mapTarget_mapUses ..) rfl rfl
    obtain ⟨m₂, lead', inserted, funcs₂, woven⟩ := woven.insertedBefore formed member
      (Inst.loadSlot t.data t.address t.offset) ((patch i).reload t) (by simp [Patch.reload]) (by simp [Patch.reload])
      (by simp [Patch.reload])
    rw [Inst.map_mapTarget_loadSlot] at inserted
    rw [Function.update_idem] at woven
    refine ⟨m₂, _, lead', trail, ?_, (func_congr (funcs₂.trans funcs₁)).trans stored, woven,
      renumbered located (·.reload t)⟩
    simp only [applyStep, bind_eq_ok, numbered_eq_ok]
    exact ⟨i, located, m₁, modified, inserted⟩
  | writeBack t =>
    obtain ⟨i, located⟩ : ∃ i, ((layout f).flatMap code)[t.number]? = some i :=
      ⟨_, List.getElem?_eq_getElem (inside t rfl)⟩
    have member := List.mem_of_getElem? located
    obtain ⟨m₁, modified, funcs₁, woven⟩ := woven.modified formed member (by simp) (·.replaceDef t.reg t.data)
      { patch i with inst := (patch i).inst.replaceDef t.reg t.data } (Inst.mapTarget_mapDefs ..) rfl rfl
    obtain ⟨m₂, trail', inserted, funcs₂, woven⟩ := woven.insertedAfter formed member
      (Inst.storeSlot t.data t.address t.offset) ((patch i).writeBack t) (by simp [Patch.writeBack])
      (by simp [Patch.writeBack]) (by simp [Patch.writeBack])
    rw [Inst.map_mapTarget_storeSlot] at inserted
    rw [Function.update_idem] at woven
    refine ⟨m₂, _, lead, trail', ?_, (func_congr (funcs₂.trans funcs₁)).trans stored, woven,
      renumbered located (·.writeBack t)⟩
    simp only [applyStep, bind_eq_ok, numbered_eq_ok]
    exact ⟨i, located, m₁, modified, inserted⟩

theorem Woven.exists_planned (formed : start.Formed code layout)
    (woven : Woven start code layout f name patch [] lead trail m) {patches : Array Patch} {steps : List SpillStep}
    (patched : ∀ (n : Nat) i, ((layout f).flatMap code)[n]? = some i → patches[n]? = some (patch i))
    (inside : ∀ step ∈ steps, ∀ t, step.transfer? = some t → t.number < ((layout f).flatMap code).length)
    {node : FuncNode} (stored : m.func f = .ok node)
    (room : node.frame.toNat + 8 * steps.count .grow < UInt64.size) :
    ∃ m' patch' lead' trail', steps.foldlM (applyStep f ((layout f).flatMap code).toArray) m = .ok m' ∧
      m'.func f = .ok (steps.foldl SpillStep.record node) ∧ Woven start code layout f name patch' [] lead' trail' m' ∧
      ∀ (n : Nat) i, ((layout f).flatMap code)[n]? = some i →
        (steps.foldl SpillStep.patch patches)[n]? = some (patch' i) := by
  induction steps generalizing m patch lead trail patches node with
  | nil => exact ⟨m, patch, lead, trail, rfl, stored, woven, patched⟩
  | cons step rest ih =>
    have space : (step = .grow → node.frame.toNat + 8 < UInt64.size) ∧
        (step.record node).frame.toNat + 8 * rest.count .grow < UInt64.size := by
      rw [List.count_cons] at room
      cases step with
      | grow =>
        simp only [beq_self_eq_true, if_true] at room
        have grown : (node.frame + 8).toNat = node.frame.toNat + 8 := by
          rw [UInt64.toNat_add]
          exact Nat.mod_eq_of_lt (by change node.frame.toNat + 8 < UInt64.size; omega)
        refine ⟨fun _ => by omega, ?_⟩
        rw [SpillStep.record, grown]
        omega
      | reload | writeBack => simpa [SpillStep.record] using room
    obtain ⟨next, _, _, _, first, stored, woven, patched⟩ :=
      woven.exists_stepped formed patched (inside step List.mem_cons_self) stored space.1
    obtain ⟨m', patch', lead', trail', others, stored, woven, patched⟩ :=
      ih woven patched (fun other member => inside other (List.mem_cons_of_mem _ member)) stored space.2
    exact ⟨m', patch', lead', trail', by rw [List.foldlM_cons, first, ok_bind, others], stored, woven, patched⟩

/-- Putting a register in place of another one at instructions does to the machine what it does to the patches. -/
theorem Woven.exists_replaced (formed : start.Formed code layout)
    (woven : Woven start code layout f name patch [] lead trail m) {patches : Array Patch}
    (patched : ∀ (n : Nat) i, ((layout f).flatMap code)[n]? = some i → patches[n]? = some (patch i))
    {numbers : List Nat} (inside : ∀ number ∈ numbers, number < ((layout f).flatMap code).length) (reg : VirtReg)
    (home : PhysReg) :
    ∃ m' patch', numbers.foldlM (fun m number => do
        m.modifyInst (← numbered ((layout f).flatMap code).toArray number) (·.replaceReg reg home)) m = .ok m' ∧
      m'.funcs = m.funcs ∧ Woven start code layout f name patch' [] lead trail m' ∧
      ∀ (n : Nat) i, ((layout f).flatMap code)[n]? = some i →
        (numbers.foldl (fun patches number => patches.modify number (·.replaceReg reg home)) patches)[n]? =
          some (patch' i) := by
  induction numbers generalizing m patch patches with
  | nil => exact ⟨m, patch, rfl, rfl, woven, patched⟩
  | cons number rest ih =>
    obtain ⟨here, inside⟩ := List.forall_mem_cons.mp inside
    obtain ⟨i, located⟩ : ∃ i, ((layout f).flatMap code)[number]? = some i := ⟨_, List.getElem?_eq_getElem here⟩
    have member := List.mem_of_getElem? located
    obtain ⟨next, modified, funcs, woven⟩ := woven.modified formed member (by simp) (·.replaceReg reg home)
      ((patch i).replaceReg reg home)
      (by simp [Patch.replaceReg, Inst.replaceReg, Inst.replaceUse, Inst.replaceDef, Inst.mapTarget_mapDefs,
        Inst.mapTarget_mapUses]) rfl rfl
    obtain ⟨m', patch', others, funcs', woven, patched⟩ := ih woven
      (getElem?_modify_update (formed.nodup_insts f) patched located (·.replaceReg reg home)) inside
    refine ⟨m', patch', ?_, funcs'.trans funcs, woven, patched⟩
    rw [List.foldlM_cons, numbered_eq_ok.mpr located, ok_bind, modified, ok_bind, others]

theorem Woven.exists_placed (formed : start.Formed code layout) (plain : body = .ofBlocks body.blocks)
    (length : ((layout f).flatMap code).length = body.insts.length)
    (woven : Woven start code layout f name patch [] lead trail m) {patches : Array Patch}
    (patched : ∀ (n : Nat) i, ((layout f).flatMap code)[n]? = some i → patches[n]? = some (patch i))
    {rows : List (Web × PhysReg)} (inside : ∀ row ∈ rows, ∀ k ∈ row.1.numbers, k < body.insts.length)
    {node : FuncNode} (stored : m.func f = .ok node) :
    ∃ m' patch', rows.foldlM (fun m row => m.placeWeb f ((layout f).flatMap code).toArray row.1 row.2) m = .ok m' ∧
      Woven start code layout f name patch' [] lead trail m' ∧
      ∀ (n : Nat) i, ((layout f).flatMap code)[n]? = some i →
        (rows.foldl (fun patches row => Allocation.placeWeb body patches row.1 row.2) patches)[n]? =
          some (patch' i) := by
  induction rows generalizing m patch patches node with
  | nil => exact ⟨m, patch, rfl, woven, patched⟩
  | cons row rest ih =>
    obtain ⟨w, home⟩ := row
    obtain ⟨here, inside⟩ := List.forall_mem_cons.mp inside
    obtain ⟨replaced, patch, replace_ok, funcs, woven, patched⟩ :=
      woven.exists_replaced formed patched (length ▸ here) w.reg home
    rw [← Allocation.placeWeb_eq plain here] at patched
    obtain ⟨next, saved, stored, woven⟩ := woven.exists_modifiedFunc ((func_congr funcs).trans stored)
      (fun node => { node with saved := placeSaved home node.saved }) fun _ => rfl
    obtain ⟨m', patch', others, woven, patched⟩ := ih woven patched inside stored
    refine ⟨m', patch', ?_, woven, patched⟩
    rw [List.foldlM_cons, placeWeb, replace_ok, ok_bind, addSaved, saved, ok_bind, others]

theorem Woven.exists_dropped (formed : start.Formed code layout)
    (woven : Woven start code layout f name patch gone lead trail m) {drops : List (Nat × Reg)}
    (nodup : (drops.map Prod.fst).Nodup)
    (inside : ∀ number ∈ drops.map Prod.fst, ∃ i, ((layout f).flatMap code)[number]? = some i ∧ i ∉ gone) :
    ∃ m' gone', drops.foldlM (fun m (number, _) => do
        m.removeInst (← numbered ((layout f).flatMap code).toArray number)) m = .ok m' ∧
      Woven start code layout f name patch gone' lead trail m' ∧
      ∀ i, i ∈ gone' ↔ i ∈ gone ∨ ∃ number ∈ drops.map Prod.fst, ((layout f).flatMap code)[number]? = some i := by
  induction drops generalizing m gone with
  | nil => exact ⟨m, gone, rfl, woven, by simp⟩
  | cons drop rest ih =>
    obtain ⟨number, reg⟩ := drop
    obtain ⟨absent, nodup⟩ := List.nodup_cons.mp nodup
    obtain ⟨i, located, stays⟩ := inside number List.mem_cons_self
    obtain ⟨next, removed, woven⟩ := woven.removed formed (List.mem_of_getElem? located) stays
    obtain ⟨m', gone', others, woven, members⟩ := ih woven nodup fun other member => by
      obtain ⟨j, here, stays⟩ := inside other (List.mem_cons_of_mem _ member)
      refine ⟨j, here, List.not_mem_cons_of_ne_of_not_mem ?_ stays⟩
      -- No instruction has two numbers, and no number is dropped twice.
      rintro rfl
      have same := (List.getElem?_inj (List.getElem?_eq_some_iff.mp located).1 (formed.nodup_insts f)).mp
        (located.trans here.symm)
      exact absent (same ▸ member)
    refine ⟨m', gone', ?_, woven, fun j => ?_⟩
    · rw [List.foldlM_cons]
      dsimp only
      rw [numbered_eq_ok.mpr located, ok_bind, removed, ok_bind, others]
    · rw [members, List.mem_cons, List.map_cons, List.exists_mem_cons_iff, located, Option.some.injEq, eq_comm]
      tauto

def nameAt (layout : List BlockId) (position : Nat) : BlockId := layout[position]?.getD ⟨0⟩

theorem Shows.holds {all : List BlockId} (nodup : all.Nodup) {ids : List InstId} {b : BlockId} {block : Block}
    (shown : Shows m all ids b block) : m.Holds (nameAt all) ids block.insts := by
  refine shown.insts.imp fun i inst ⟨stored, found, targeted⟩ => ?_
  have back (target : BlockId) (position : Nat) (located : Machine.position all target = .ok position) :
      nameAt all position = target := by
    rw [position_eq_ok nodup] at located
    rw [nameAt, located]
    rfl
  rw [found, Inst.eq_mapTarget back targeted]

theorem Formed.holds_body (formed : m.Formed code layout) {body : Body} (found : m.body f = .ok body) :
    List.Forall₂ (fun b block => m.Holds (nameAt (layout f)) (code b) block.insts) (layout f) body.blocks ∧
      m.Holds (nameAt (layout f)) ((layout f).flatMap code) body.insts := by
  have blocks := (formed.body_shows found).2.2.imp fun b block shown => shown.holds (formed.layout.nodup f)
  exact ⟨blocks, List.rel_flatMap blocks fun _ _ holds => holds⟩

end Machine

namespace Allocation

variable {a : Allocation}

theorem mem_drops {n : Nat} : n ∈ a.drops.map Prod.fst ↔ ∃ p, a.patches[n]? = some p ∧ (a.dropped? p).isSome := by
  simp only [drops, List.mem_map, List.mem_filterMap, List.mem_zipIdx_iff_getElem?, Prod.exists, Option.map_eq_some_iff,
    Prod.mk.injEq, Option.isSome_iff_exists]
  constructor
  · rintro ⟨number, reg, ⟨p, _, located, _, dropped, rfl, rfl⟩, rfl⟩
    exact ⟨p, located, _, dropped⟩
  · rintro ⟨p, located, reg, dropped⟩
    exact ⟨n, reg, ⟨p, n, located, reg, dropped, rfl, rfl⟩, rfl⟩

theorem make_drops_lt {config : Config} {body : Body} {frame : UInt64} (plain : body = .ofBlocks body.blocks)
    (complete : (make config body frame).plan.ending = .complete) :
    ∀ number ∈ (make config body frame).drops.map Prod.fst, number < body.insts.length := by
  intro number member
  obtain ⟨p, inPatches, -⟩ := mem_drops.mp member
  have size := make_size_patches plain complete
  rw [getElem?_patches plain size] at inPatches
  rw [← size, ← size_placed]
  exact (Array.getElem?_eq_some_iff.mp inPatches).1

theorem drops_nodup : (a.drops.map Prod.fst).Nodup := by
  have numbers : a.drops.map Prod.fst = (a.patches.zipIdx.filter fun row => (a.dropped? row.1).isSome).map Prod.snd := by
    unfold drops
    induction a.patches.zipIdx with
    | nil => rfl
    | cons first rest ih => cases dropped : a.dropped? first.1 <;> simp [dropped, ih]
  rw [numbers]
  exact (List.nodup_zipIdx_map_snd a.patches).sublist (List.filter_sublist.map Prod.snd)

end Allocation

namespace Machine

variable {start m : Machine} {code : BlockId → List InstId} {layout : FuncId → List BlockId} {f : FuncId} {body : Body}

theorem Woven.layout_ok {name : Nat → BlockId} {patch : InstId → Patch} {gone : List InstId}
    {lead trail : InstId → List InstId} (woven : Woven start code layout f name patch gone lead trail m)
    {node : FuncNode} (stored : start.func f = .ok node) : m.layout f = .ok (layout f) := by
  refine Chain.toList_linked woven.formed.layout ?_
  have known := woven.funcs f
  rw [func_eq_ok.mp stored] at known
  simpa [Chained.ends?] using known

theorem Formed.exists_woven (formed : start.Formed code layout) (found : start.body f = .ok body) :
    ∃ patch, (∀ (n : Nat) i, ((layout f).flatMap code)[n]? = some i →
        (body.insts.map Patch.ofInst).toArray[n]? = some (patch i)) ∧
      Woven start code layout f (nameAt (layout f)) patch [] (fun _ => []) (fun _ => []) start := by
  have nodup := formed.nodup_insts f
  have holds := (formed.holds_body found).2
  -- No handle occurs twice, so what is known by number is a function of the handle.
  obtain ⟨patch, patched⟩ : ∃ patch : InstId → Patch, ∀ (n : Nat) i, ((layout f).flatMap code)[n]? = some i →
      (body.insts.map Patch.ofInst).toArray[n]? = some (patch i) := by
    refine ⟨fun i => ((body.insts.map Patch.ofInst)[((layout f).flatMap code).idxOf i]?).getD (.ofInst (.ret [])),
      fun n i located => ?_⟩
    obtain ⟨inst, inBody, -⟩ := forall₂_getElem? holds located
    have place : ((layout f).flatMap code).idxOf i = n := by
      obtain ⟨bound, rfl⟩ := List.getElem?_eq_some_iff.mp located
      exact nodup.idxOf_getElem n bound
    simp [place, inBody]
  refine ⟨patch, patched, woven_self formed fun i member => ?_⟩
  obtain ⟨n, located⟩ := List.mem_iff_getElem?.mp member
  obtain ⟨inst, inBody, stored⟩ := forall₂_getElem? holds located
  have here := patched n i located
  rw [List.getElem?_toArray, List.getElem?_map, inBody, Option.map_some, Option.some.injEq] at here
  exact ⟨inst, here.symm, stored⟩

/-- An allocation with a complete plan can be carried out, and it leaves a machine in which every instruction is
replaced as the allocation says. -/
theorem Formed.exists_allocated (formed : start.Formed code layout) (found : start.body f = .ok body)
    {node : FuncNode} (stored : start.func f = .ok node) {config : Config}
    (complete : (Allocation.make config body node.frame).plan.ending = .complete) :
    ∃ planned m, start.applyPlan f ((layout f).flatMap code).toArray (Allocation.make config body node.frame).plan =
        .ok planned ∧
      planned.applyResult f ((layout f).flatMap code).toArray (Allocation.make config body node.frame) = .ok m ∧
      ∃ patch gone lead trail, Woven start code layout f (nameAt (layout f)) patch gone lead trail m ∧
        ∀ (n : Nat) i, ((layout f).flatMap code)[n]? = some i →
          (Allocation.make config body node.frame).patches[n]? = some (patch i) ∧
          (i ∈ gone ↔ ((Allocation.make config body node.frame).dropped? (patch i)).isSome) := by
  have plain := formed.body_eq found
  have nodup := formed.nodup_insts f
  have length : ((layout f).flatMap code).length = body.insts.length := (formed.holds_body found).2.length_eq
  have spans := LiveRanges.spans_ofBody body
  have once := @spills_nodup config body node.frame
  have patches : (Allocation.make config body node.frame).plan.patches =
      (Allocation.make config body node.frame).plan.steps.foldl SpillStep.patch (body.insts.map .ofInst).toArray :=
    SpillPlan.make_patches plain spans once complete
  have numbered := Allocation.getElem?_patches (a := Allocation.make config body node.frame) plain
    (make_size_patches plain complete)
  have steps : ∀ step ∈ (Allocation.make config body node.frame).plan.steps, ∀ t, step.transfer? = some t →
      t.number < body.insts.length :=
    fun step member t moves => SpillPlan.make_number_lt plain spans once complete member moves
  have room : node.frame.toNat + 8 * (Allocation.make config body node.frame).plan.steps.count .grow < UInt64.size := by
    obtain ⟨size, grows⟩ := SpillPlan.make_frame complete
    rw [show (Allocation.make config body node.frame).plan.steps.count .grow = _ from grows, ← size]
    exact UInt64.toNat_lt _
  have rows := fun row => @homed_inside config body node.frame row
  have drops := Allocation.make_drops_lt plain complete
  have same : (Allocation.make config body node.frame).body = body := rfl
  rw [← length] at steps drops
  generalize Allocation.make config body node.frame = a at *
  obtain ⟨patch, patched, woven⟩ := formed.exists_woven found
  -- The steps of the plan, the replacements and the removals, as they are applied.
  obtain ⟨planned, patch, lead, trail, steps_ok, stored, woven, patched⟩ :=
    woven.exists_planned formed patched steps stored room
  rw [← patches] at patched
  obtain ⟨placed, patch, placed_ok, woven, patched⟩ := woven.exists_placed formed plain length patched rows stored
  obtain ⟨m, gone, drop_ok, woven, members⟩ := woven.exists_dropped formed Allocation.drops_nodup fun number member =>
    ⟨_, List.getElem?_eq_getElem (drops number member), by simp⟩
  have final (n : Nat) (i : InstId) (located : ((layout f).flatMap code)[n]? = some i) :
      a.patches[n]? = some (patch i) := by
    rw [numbered, Allocation.placed, same]
    exact patched n i located
  refine ⟨planned, m, steps_ok, ?_, _, gone, lead, trail, woven, fun n i located => ⟨final n i located, ?_⟩⟩
  · rw [applyResult]
    exact bind_eq_ok.mpr ⟨placed, placed_ok, drop_ok⟩
  · rw [members]
    simp only [List.not_mem_nil, false_or, Allocation.mem_drops]
    constructor
    · rintro ⟨number, ⟨p, inPatches, dropped⟩, here⟩
      have same := (List.getElem?_inj (List.getElem?_eq_some_iff.mp located).1 nodup).mp (located.trans here.symm)
      subst same
      rw [final _ i located] at inPatches
      cases inPatches
      exact dropped
    · intro dropped
      exact ⟨n, ⟨_, final n i located, dropped⟩, located⟩

/-- A successful allocation leaves a machine in which every instruction is replaced as the allocation says. -/
theorem allocation_woven (formed : start.Formed code layout) (found : start.body f = .ok body) {node : FuncNode}
    (stored : start.func f = .ok node) {config : Config} {planned : Machine}
    (complete : (Allocation.make config body node.frame).plan.ending = .complete)
    (plan_ok : start.applyPlan f ((layout f).flatMap code).toArray (Allocation.make config body node.frame).plan =
      .ok planned)
    (result_ok : planned.applyResult f ((layout f).flatMap code).toArray (Allocation.make config body node.frame) =
      .ok m) :
    ∃ patch gone lead trail, Woven start code layout f (nameAt (layout f)) patch gone lead trail m ∧
      ∀ (n : Nat) i, ((layout f).flatMap code)[n]? = some i →
        (Allocation.make config body node.frame).patches[n]? = some (patch i) ∧
        (i ∈ gone ↔ ((Allocation.make config body node.frame).dropped? (patch i)).isSome) := by
  obtain ⟨_, _, plan_ok', result_ok', woven⟩ := formed.exists_allocated found stored complete
  cases plan_ok.symm.trans plan_ok'
  cases result_ok.symm.trans result_ok'
  exact woven

end Machine

end RegisterAllocator
