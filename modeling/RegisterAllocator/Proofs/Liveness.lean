import Mathlib.Algebra.Order.BigOperators.Group.List
import Mathlib.Algebra.Order.Ring.Nat
import Mathlib.Data.List.Perm.Subperm
import Mathlib.Data.List.Forall2
import RegisterAllocator.Proofs.Ranges
import RegisterAllocator.Proofs.Reachability

/-!
# The equations of block liveness

The passes over the blocks come to rest, so the live registers of a body solve the equations of liveness
(`mem_ins`, `mem_outs`): a register is live at the end of a block if it is live at the start of a successor, and live at
the start if it is live there when the block runs from its first instruction to its last. The successors that the passes
look at are those of the flow graph for blocks that can be reached and those of the block for others; they are the same
blocks (`Body.mem_flowSuccs`).
-/

namespace RegisterAllocator

/-! ## Sets of registers by inclusion -/

namespace RegSet

theorem nodup (s : RegSet) : s.toList.Nodup := s.ascending.imp fun less same => by
  rw [same] at less
  exact Nat.lt_irrefl _ less

theorem size_le {s t : RegSet} (sub : ∀ r ∈ s, r ∈ t) : s.size ≤ t.size :=
  (List.subperm_of_subset s.nodup sub).length_le

theorem eq_of_size_le {s t : RegSet} (sub : ∀ r ∈ s, r ∈ t) (size : t.size ≤ s.size) : s = t := by
  have perm : s.toList.Perm t.toList := (List.subperm_of_subset s.nodup sub).perm_of_length_le size
  have same : s.toList = t.toList := perm.eq_of_pairwise (fun a b _ _ ab ba => by omega) s.ascending t.ascending
  cases s
  cases t
  simpa using same

theorem ext {s t : RegSet} (same : ∀ r, r ∈ s ↔ r ∈ t) : s = t :=
  eq_of_size_le (fun r => (same r).mp) (size_le fun r => (same r).mpr)

end RegSet

/-! ## Summaries of blocks -/

section

variable {τ : Type} {tracked : Reg → Bool} {reg : Reg}

theorem liveBefore_iff {out : Prop} {insts : List (Inst τ)} :
    LiveBefore reg out insts ↔ LiveBefore reg False insts ∨ out ∧ ∀ inst ∈ insts, reg ∉ inst.defs := by
  induction insts with
  | nil => simp [LiveBefore]
  | cons inst rest ih =>
    simp only [LiveBefore, List.forall_mem_cons, ih]
    tauto

theorem LiveBefore.mono {out out' : Prop} {insts : List (Inst τ)} (more : out → out')
    (alive : LiveBefore reg out insts) : LiveBefore reg out' insts := by
  rw [liveBefore_iff] at alive ⊢
  exact alive.imp_right fun ⟨live, kept⟩ => ⟨more live, kept⟩

theorem LiveBefore.read {out : Prop} {insts : List (Inst τ)} (alive : LiveBefore reg out insts) :
    (∃ inst ∈ insts, reg ∈ inst.uses) ∨ out := by
  induction insts with
  | nil => exact .inr alive
  | cons inst rest ih =>
    rcases alive with reads | ⟨-, alive⟩
    · exact .inl ⟨inst, List.mem_cons_self, reads⟩
    · exact (ih alive).imp_left fun ⟨other, inRest, reads⟩ => ⟨other, List.mem_cons_of_mem _ inRest, reads⟩

namespace Summary

theorem mem_followed {regs : List Reg} : reg ∈ followed tracked regs ↔ reg ∈ regs ∧ tracked reg = true := by
  unfold followed
  rw [RegSet.mem_insertAll, List.mem_filter]
  exact or_iff_right (RegSet.not_mem_empty reg)

theorem mem_uses {insts : List (Inst τ)} :
    reg ∈ (ofInsts tracked insts).uses ↔ tracked reg = true ∧ LiveBefore reg False insts := by
  induction insts with
  | nil => simp [ofInsts, LiveBefore]
  | cons inst rest ih =>
    simp only [ofInsts, LiveBefore, RegSet.mem_union, RegSet.mem_diff, mem_followed, ih]
    tauto

theorem mem_defs {insts : List (Inst τ)} :
    reg ∈ (ofInsts tracked insts).defs ↔ tracked reg = true ∧ ∃ inst ∈ insts, reg ∈ inst.defs := by
  induction insts with
  | nil => simp [ofInsts]
  | cons inst rest ih =>
    simp only [ofInsts, RegSet.mem_union, mem_followed, ih, List.exists_mem_cons_iff]
    tauto

theorem mem_transfer {insts : List (Inst τ)} {out : RegSet} (followed : ∀ r ∈ out, tracked r = true) :
    reg ∈ (ofInsts tracked insts).transfer out ↔ tracked reg = true ∧ LiveBefore reg (reg ∈ out) insts := by
  rw [transfer, RegSet.mem_union, RegSet.mem_diff, mem_uses, mem_defs, @liveBefore_iff _ _ (reg ∈ out)]
  have := followed reg
  grind

theorem transfer_mono {s : Summary} {out out' : RegSet} (more : ∀ r ∈ out, r ∈ out') (member : reg ∈ s.transfer out) :
    reg ∈ s.transfer out' := by
  simp only [transfer, RegSet.mem_union, RegSet.mem_diff] at member ⊢
  exact member.imp_right (And.imp_left (more reg))

end Summary

end

/-! ## Passes -/

namespace LiveIns

def live (ins : LiveIns) (position : Nat) : RegSet := ins[position]?.getD ∅

theorem mem_out {ins : LiveIns} {succs : List Nat} {reg : Reg} :
    reg ∈ ins.out succs ↔ ∃ position ∈ succs, reg ∈ ins.live position := by
  have fold (start : RegSet) : reg ∈ succs.foldl (fun live position => live.union (ins.live position)) start ↔
      reg ∈ start ∨ ∃ position ∈ succs, reg ∈ ins.live position := by
    induction succs generalizing start with
    | nil => simp
    | cons position rest ih =>
      rw [List.foldl_cons, ih, RegSet.mem_union, List.exists_mem_cons_iff, or_assoc]
  exact (fold ∅).trans (or_iff_right (RegSet.not_mem_empty reg))

theorem live_set {ins : LiveIns} {position other : Nat} {regs : RegSet} (known : position < ins.size) :
    live (ins.setIfInBounds position regs) other = if other = position then regs else ins.live other := by
  by_cases same : other = position
  · subst same
    simp [live, known]
  · simp [live, same, Array.getElem?_setIfInBounds_ne (Ne.symm same)]

theorem size_pass (position : Nat) (rows : List FlowRow) (ins : LiveIns) :
    (ins.pass position rows).size = ins.size := by
  induction rows generalizing position with
  | nil => rfl
  | cons row rest ih =>
    rw [pass, Array.size_setIfInBounds]
    exact ih (position + 1)

theorem pass_untouched {position other : Nat} {rows : List FlowRow} {ins : LiveIns} (before : other < position) :
    (ins.pass position rows)[other]? = ins[other]? := by
  induction rows generalizing position with
  | nil => rfl
  | cons row rest ih =>
    rw [pass, Array.getElem?_setIfInBounds_ne (by omega)]
    exact ih (by omega)

/-- A pass that changes nothing solves the equations of its rows. -/
theorem pass_fixed {position : Nat} {rows : List FlowRow} {ins : LiveIns} (size : position + rows.length ≤ ins.size)
    (fixed : ins.pass position rows = ins) {place : Nat} {row : FlowRow} (located : rows[place]? = some row) :
    ins.live (position + place) = row.summary.transfer (ins.out row.succs) := by
  induction rows generalizing position place with
  | nil => cases located
  | cons first rest ih =>
    rw [List.length_cons] at size
    have settled : ins.pass (position + 1) rest = ins := by
      apply Array.ext_getElem?
      intro other
      by_cases same : other = position
      · rw [same, pass_untouched (Nat.lt_succ_self position)]
      · conv_rhs => rw [← fixed, pass]
        rw [Array.getElem?_setIfInBounds_ne (Ne.symm same)]
    cases place with
    | zero =>
      cases located
      have here := congrArg (fun ins => live ins position) fixed
      simp only [pass, settled] at here
      rw [live_set (by omega), if_pos rfl] at here
      exact here.symm
    | succ place =>
      have := ih (by omega) settled located
      rwa [Nat.add_assoc, Nat.add_comm 1 place] at this

/-- Sets of known registers that a pass can only make larger. -/
structure Rising (rows : List FlowRow) (known : RegSet) (ins : LiveIns) : Prop where
  size : ins.size = rows.length
  within : ∀ position, ∀ reg ∈ ins.live position, reg ∈ known
  rising : ∀ position row, rows[position]? = some row → ∀ reg ∈ ins.live position,
    reg ∈ row.summary.transfer (ins.out row.succs)

variable {rows : List FlowRow} {known : RegSet} {ins : LiveIns}

theorem out_mono {ins' : LiveIns} (more : ∀ position, ∀ reg ∈ ins.live position, reg ∈ ins'.live position)
    {succs : List Nat} {reg : Reg} (member : reg ∈ ins.out succs) : reg ∈ ins'.out succs := by
  obtain ⟨position, succ, member⟩ := mem_out.mp member
  exact mem_out.mpr ⟨position, succ, more position reg member⟩

/-- Solving one equation keeps the sets rising and makes no set smaller. -/
theorem Rising.solved (rises : Rising rows known ins) {position : Nat} {row : FlowRow}
    (located : rows[position]? = some row) (uses : ∀ reg ∈ row.summary.uses, reg ∈ known) :
    Rising rows known (ins.setIfInBounds position (row.summary.transfer (ins.out row.succs))) ∧
      ∀ other, ∀ reg ∈ ins.live other,
        reg ∈ live (ins.setIfInBounds position (row.summary.transfer (ins.out row.succs))) other := by
  have inside : position < ins.size := by
    rw [rises.size]
    exact (List.getElem?_eq_some_iff.mp located).1
  have grows (other : Nat) (reg : Reg) (member : reg ∈ ins.live other) :
      reg ∈ live (ins.setIfInBounds position (row.summary.transfer (ins.out row.succs))) other := by
    rw [live_set inside]
    split
    · next same =>
      subst same
      exact rises.rising other row located reg member
    · exact member
  refine ⟨⟨by simpa using rises.size, fun other reg member => ?_, fun other otherRow found reg member => ?_⟩, grows⟩
  · rw [live_set inside] at member
    split at member
    · simp only [Summary.transfer, RegSet.mem_union, RegSet.mem_diff, mem_out] at member
      rcases member with member | ⟨⟨succ, -, member⟩, -⟩
      · exact uses reg member
      · exact rises.within succ reg member
    · exact rises.within other reg member
  -- The other equations see larger sets on their right-hand side, which is all that rising asks for.
  · refine Summary.transfer_mono (fun _ => out_mono grows) ?_
    rw [live_set inside] at member
    split at member
    · next same =>
      subst same
      rw [located] at found
      cases found
      exact member
    · exact rises.rising other otherRow found reg member

theorem Rising.passed (uses : ∀ row ∈ rows, ∀ reg ∈ row.summary.uses, reg ∈ known) (rises : Rising rows known ins)
    {position : Nat} {rest : List FlowRow} (suffix : rows.drop position = rest) :
    Rising rows known (ins.pass position rest) ∧
      ∀ other, ∀ reg ∈ ins.live other, reg ∈ live (ins.pass position rest) other := by
  induction rest generalizing position with
  | nil => exact ⟨rises, fun _ _ member => member⟩
  | cons row rest ih =>
    have located : rows[position]? = some row := by
      have := congrArg List.head? suffix
      rwa [List.head?_drop] at this
    have tail : rows.drop (position + 1) = rest := by
      rw [← List.tail_drop, suffix]
      rfl
    obtain ⟨rises, grows⟩ := ih tail
    obtain ⟨solved, grown⟩ := rises.solved located (uses row (List.mem_of_getElem? located))
    exact ⟨solved, fun other reg member => grown other reg (grows other reg member)⟩

/-! ## The passes come to rest -/

def total (ins : LiveIns) : Nat := (ins.toList.map RegSet.size).sum

theorem sum_size_lt {as bs : List RegSet} (sub : List.Forall₂ (fun a b : RegSet => ∀ r ∈ a, r ∈ b) as bs) :
    (as.map RegSet.size).sum ≤ (bs.map RegSet.size).sum ∧
      (as ≠ bs → (as.map RegSet.size).sum < (bs.map RegSet.size).sum) := by
  induction sub with
  | nil => simp
  | @cons a b as bs first _ ih =>
    simp only [List.map_cons, List.sum_cons]
    have size := RegSet.size_le first
    refine ⟨by omega, fun differ => ?_⟩
    by_cases same : a = b
    · have := ih.2 fun tails => differ (by rw [same, tails])
      omega
    · have : a.size < b.size := by
        by_contra above
        exact same (RegSet.eq_of_size_le first (by omega))
      omega

theorem total_lt {ins' : LiveIns} (size : ins.size = ins'.size)
    (more : ∀ position, ∀ reg ∈ ins.live position, reg ∈ ins'.live position) (differ : ins ≠ ins') :
    ins.total < ins'.total := by
  refine (sum_size_lt (List.forall₂_iff_get.mpr ⟨by simpa using size, fun i inside inside' r member => ?_⟩)).2
    fun same => differ (Array.toList_inj.mp same)
  have grown := more i r
  simp only [Array.length_toList] at inside inside'
  simp only [live, Array.getElem?_eq_getElem inside, Array.getElem?_eq_getElem inside', Option.getD_some] at grown
  simpa using grown (by simpa using member)

theorem Rising.total_le (rises : Rising rows known ins) : ins.total ≤ rows.length * known.size := by
  have bound (size : Nat) (member : size ∈ ins.toList.map RegSet.size) : size ≤ known.size := by
    obtain ⟨regs, inIns, rfl⟩ := List.mem_map.mp member
    obtain ⟨position, located⟩ := List.mem_iff_getElem?.mp inIns
    rw [Array.getElem?_toList] at located
    refine RegSet.size_le fun reg found => rises.within position reg ?_
    rwa [live, located]
  have := List.sum_le_card_nsmul _ _ bound
  simpa [total, rises.size] using this

theorem settle_fixed (uses : ∀ row ∈ rows, ∀ reg ∈ row.summary.uses, reg ∈ known) (rises : Rising rows known ins)
    {fuel : Nat} (enough : rows.length * known.size < ins.total + fuel) :
    (settle rows fuel ins).pass 0 rows = settle rows fuel ins ∧ Rising rows known (settle rows fuel ins) := by
  induction fuel generalizing ins with
  | zero =>
    have := rises.total_le
    omega
  | succ fuel ih =>
    unfold settle
    dsimp only
    split
    · next same => exact ⟨same, rises⟩
    · next differ =>
      obtain ⟨passed, grows⟩ := rises.passed uses (List.drop_zero (l := rows))
      refine ih passed ?_
      have := total_lt (size_pass 0 rows ins).symm grows fun same => differ same.symm
      omega

end LiveIns

/-! ## Successors -/

namespace Body

variable {body : Body} {position succ : Nat} {succs : List Nat}

theorem mem_graph_succs (nonempty : 0 < body.size) {node next : (body.graph nonempty).Node} :
    next ∈ (body.graph nonempty).succs node ↔ next.val ∈ body.succs node.val := by
  have row : (body.graph nonempty).succs node = (body.succs node.val).filterMap (FlowGraph.node? body.size) := by
    have inside : node.val < body.size := node.isLt
    simp [graph, FlowGraph.ofLists, inside]
  have named {succ : Nat} : FlowGraph.node? body.size succ = some next ↔ next.val = succ := by
    unfold FlowGraph.node?
    split
    · exact Option.some_inj.trans (Fin.ext_iff.trans eq_comm)
    · next outside => exact ⟨nofun, fun same => absurd (same ▸ next.isLt) outside⟩
  rw [row]
  refine List.mem_filterMap.trans ⟨?_, fun member => ⟨next.val, member, named.mpr rfl⟩⟩
  rintro ⟨succ, member, found⟩
  rwa [named.mp found]

theorem length_flowSuccs (body : Body) : body.flowSuccs.length = body.size := by
  unfold flowSuccs
  split
  · exact (List.length_map _).trans List.length_finRange
  · next empty => exact (Nat.eq_zero_of_not_pos empty).symm

/-- Whether a block can be reached or not, the passes look at its successors. -/
theorem mem_flowSuccs (found : body.flowSuccs[position]? = some succs) :
    (∀ succ ∈ succs, succ ∈ body.succs position) ∧ ∀ succ ∈ body.succs position, succ < body.size → succ ∈ succs := by
  unfold flowSuccs at found
  split at found
  · next nonempty =>
    rw [List.getElem?_map, Option.map_eq_some_iff] at found
    obtain ⟨node, here, row⟩ := found
    have number : node.val = position := by
      obtain ⟨-, rfl⟩ := List.getElem?_eq_some_iff.mp here
      simp [FlowGraph.nodes]
    subst number
    split at row
    · next nexts explored =>
      have listed : nexts = (body.graph nonempty).distinctSuccs node := by
        rw [FlowGraph.Reachable.succs?, Option.ite_none_right_eq_some] at explored
        exact (Option.some.inj explored.2).symm.trans (by simp [FlowGraph.explore])
      subst row listed
      refine ⟨fun succ member => ?_, fun succ member inside => ?_⟩
      · obtain ⟨next, edge, rfl⟩ := List.mem_map.mp member
        exact (mem_graph_succs nonempty).mp (FlowGraph.mem_distinctSuccs.mp edge)
      · refine List.mem_map.mpr ⟨⟨succ, inside⟩, ?_, rfl⟩
        exact FlowGraph.mem_distinctSuccs.mpr ((mem_graph_succs nonempty).mpr member)
    · subst row
      exact ⟨fun _ member => member, fun _ member _ => member⟩
  · cases found

end Body

/-- Positions behind the last block have nothing live, so it does not matter whether they are looked at. -/
theorem LiveIns.out_flowSuccs {ins : LiveIns} {body : Body} {position : Nat} {succs : List Nat}
    (size : ins.size = body.size) (found : body.flowSuccs[position]? = some succs) :
    ins.out succs = ins.out (body.succs position) := by
  obtain ⟨sub, sup⟩ := Body.mem_flowSuccs found
  refine RegSet.ext fun reg => ?_
  rw [mem_out, mem_out]
  constructor
  · rintro ⟨succ, member, live⟩
    exact ⟨succ, sub succ member, live⟩
  · rintro ⟨succ, member, live⟩
    refine ⟨succ, sup succ member ?_, live⟩
    by_contra outside
    rw [LiveIns.live, Array.getElem?_eq_none (by omega)] at live
    exact RegSet.not_mem_empty reg live

/-! ## The equations -/

namespace Liveness

variable {tracked : Reg → Bool} {body : Body} {position : Nat}

def used (tracked : Reg → Bool) (body : Body) : RegSet :=
  RegSet.insertAll ∅ ((body.insts.flatMap Inst.uses).filter tracked)

theorem mem_used {reg : Reg} :
    reg ∈ used tracked body ↔ tracked reg = true ∧ ∃ inst ∈ body.insts, reg ∈ inst.uses := by
  rw [used, RegSet.mem_insertAll, List.mem_filter, List.mem_flatMap, or_iff_right (RegSet.not_mem_empty reg), and_comm]

theorem rows_eq_some {row : FlowRow} : (rows tracked body)[position]? = some row ↔ ∃ block succs,
    body.blocks[position]? = some block ∧ body.flowSuccs[position]? = some succs ∧
      row = ⟨.ofInsts tracked block.insts, succs⟩ := by
  simp only [rows, List.getElem?_map, Option.map_eq_some_iff, List.getElem?_zip_eq_some, Prod.exists]
  constructor
  · rintro ⟨block, succs, ⟨located, found⟩, rfl⟩
    exact ⟨block, succs, located, found, rfl⟩
  · rintro ⟨block, succs, located, found, rfl⟩
    exact ⟨block, succs, ⟨located, found⟩, rfl⟩

theorem length_rows (tracked : Reg → Bool) (body : Body) : (rows tracked body).length = body.size := by
  rw [rows, List.length_map, List.length_zip, Body.length_flowSuccs]
  exact Nat.min_self _

theorem flowSuccs_isSome {block : Block} (located : body.blocks[position]? = some block) :
    ∃ succs, body.flowSuccs[position]? = some succs := by
  have inside : position < body.flowSuccs.length := by
    rw [Body.length_flowSuccs]
    exact (List.getElem?_eq_some_iff.mp located).1
  exact ⟨_, List.getElem?_eq_getElem inside⟩

theorem rows_uses : ∀ row ∈ rows tracked body, ∀ reg ∈ row.summary.uses, reg ∈ used tracked body := by
  intro row member reg used
  obtain ⟨position, located⟩ := List.mem_iff_getElem?.mp member
  obtain ⟨block, succs, found, -, rfl⟩ := rows_eq_some.mp located
  obtain ⟨follows, alive⟩ := Summary.mem_uses.mp used
  obtain ⟨inst, inBlock, reads⟩ := alive.read.resolve_right id
  exact mem_used.mpr ⟨follows, inst, List.mem_flatMap.mpr ⟨block, List.mem_of_getElem? found, inBlock⟩, reads⟩

def settled (tracked : Reg → Bool) (body : Body) : LiveIns :=
  .settle (rows tracked body) (body.size * (regs tracked body).size + 1) (Array.replicate body.size ∅)

theorem settled_fixed (tracked : Reg → Bool) (body : Body) :
    (settled tracked body).pass 0 (rows tracked body) = settled tracked body ∧
      LiveIns.Rising (rows tracked body) (used tracked body) (settled tracked body) := by
  have empty (position : Nat) : LiveIns.live (Array.replicate body.size ∅) position = ∅ := by
    simp only [LiveIns.live, Array.getElem?_replicate]
    split <;> rfl
  have size := length_rows tracked body
  have fewer : (used tracked body).size ≤ (regs tracked body).size := RegSet.size_le fun reg member => by
    obtain ⟨follows, inst, inBody, reads⟩ := mem_used.mp member
    exact mem_regs.mpr ⟨follows, inst, inBody, .inl reads⟩
  have bound := Nat.mul_le_mul_left body.size fewer
  refine LiveIns.settle_fixed rows_uses ⟨by simp [size], ?_, ?_⟩ (by rw [size]; omega)
  · intro position reg member
    rw [empty] at member
    exact absurd member (RegSet.not_mem_empty reg)
  · intro position row _ reg member
    rw [empty] at member
    exact absurd member (RegSet.not_mem_empty reg)

theorem getElem?_ins : (ofBody tracked body).ins[position]? = (settled tracked body)[position]? := by
  simp [ofBody, settled]

theorem size_settled (tracked : Reg → Bool) (body : Body) : (settled tracked body).size = body.size :=
  (settled_fixed tracked body).2.size.trans (length_rows tracked body)

theorem getElem?_outs : (ofBody tracked body).outs[position]? = body.blocks[position]?.map fun _ =>
    (settled tracked body).out (body.succs position) := by
  have row : (ofBody tracked body).outs[position]? = (rows tracked body)[position]?.map fun row =>
      (settled tracked body).out row.succs := List.getElem?_map ..
  rw [row]
  cases located : body.blocks[position]? with
  | none =>
    have outside : (rows tracked body).length ≤ position := by
      rw [length_rows]
      exact List.getElem?_eq_none_iff.mp located
    rw [List.getElem?_eq_none outside]
    rfl
  | some block =>
    obtain ⟨succs, found⟩ := flowSuccs_isSome located
    rw [rows_eq_some.mpr ⟨block, succs, located, found, rfl⟩]
    exact congrArg some (LiveIns.out_flowSuccs (size_settled tracked body) found)

theorem mem_outs {out : RegSet} (located : (ofBody tracked body).outs[position]? = some out) {reg : Reg} :
    reg ∈ out ↔ ∃ succ ∈ body.succs position, ∃ regs, (ofBody tracked body).ins[succ]? = some regs ∧ reg ∈ regs := by
  rw [getElem?_outs, Option.map_eq_some_iff] at located
  obtain ⟨block, -, rfl⟩ := located
  simp only [LiveIns.mem_out, getElem?_ins, LiveIns.live]
  refine exists_congr fun succ => and_congr_right fun _ => ?_
  cases (settled tracked body)[succ]? <;> simp

theorem used_of_outs {out : RegSet} (located : (ofBody tracked body).outs[position]? = some out) {reg : Reg}
    (member : reg ∈ out) : reg ∈ used tracked body := by
  obtain ⟨succ, -, regs, found, member⟩ := (mem_outs located).mp member
  refine (settled_fixed tracked body).2.within succ reg ?_
  rw [getElem?_ins] at found
  rwa [LiveIns.live, found]

theorem tracked_of_outs {out : RegSet} (located : (ofBody tracked body).outs[position]? = some out) {reg : Reg}
    (member : reg ∈ out) : tracked reg = true :=
  (mem_used.mp (used_of_outs located member)).1

/-- A register is live at the start of a block if it is when the block runs from its first instruction to its last. -/
theorem mem_ins {block : Block} {regs out : RegSet} (located : body.blocks[position]? = some block)
    (ins : (ofBody tracked body).ins[position]? = some regs) (outs : (ofBody tracked body).outs[position]? = some out)
    {reg : Reg} : reg ∈ regs ↔ tracked reg = true ∧ LiveBefore reg (reg ∈ out) block.insts := by
  obtain ⟨fixed, rises⟩ := settled_fixed tracked body
  obtain ⟨succs, found⟩ := flowSuccs_isSome located
  have equation := LiveIns.pass_fixed (by rw [rises.size]; omega) fixed
    (rows_eq_some.mpr ⟨block, succs, located, found, rfl⟩)
  rw [LiveIns.out_flowSuccs (size_settled tracked body) found] at equation
  rw [← Summary.mem_transfer fun _ => tracked_of_outs outs]
  rw [getElem?_ins] at ins
  rw [getElem?_outs, located, Option.map_some, Option.some.injEq] at outs
  rw [Nat.zero_add, LiveIns.live, ins, Option.getD_some] at equation
  rw [equation, outs]

theorem ins_isSome {block : Block} (located : body.blocks[position]? = some block) :
    ∃ regs out, (ofBody tracked body).ins[position]? = some regs ∧
      (ofBody tracked body).outs[position]? = some out := by
  have size : position < (settled tracked body).size := by
    rw [size_settled]
    exact (List.getElem?_eq_some_iff.mp located).1
  exact ⟨_, _, by rw [getElem?_ins, Array.getElem?_eq_getElem size], by rw [getElem?_outs, located]; rfl⟩

end Liveness

namespace Body

variable {body : Body} {reg : Reg}

def LiveIn (body : Body) (position : Nat) (reg : Reg) : Prop :=
  ∃ regs, (Liveness.ofBody Reg.isTracked body).ins[position]? = some regs ∧ reg ∈ regs

def LiveOut (body : Body) (position : Nat) (reg : Reg) : Prop :=
  ∃ regs, (Liveness.ofBody Reg.isTracked body).outs[position]? = some regs ∧ reg ∈ regs

theorem liveOut_of_succ {position succ : Nat} {block : Block} (located : body.blocks[position]? = some block)
    (follows : succ ∈ body.succs position) (live : body.LiveIn succ reg) : body.LiveOut position reg := by
  obtain ⟨-, out, -, outs⟩ : ∃ regs out, (Liveness.ofBody Reg.isTracked body).ins[position]? = some regs ∧ _ :=
    Liveness.ins_isSome located
  exact ⟨out, outs, (Liveness.mem_outs outs).mpr ⟨succ, follows, live⟩⟩

theorem liveIn_of_liveBefore {position : Nat} {block : Block} (located : body.blocks[position]? = some block)
    (tracked : reg.isTracked = true) (live : LiveBefore reg (body.LiveOut position reg) block.insts) :
    body.LiveIn position reg := by
  obtain ⟨regs, out, ins, outs⟩ : ∃ regs out, (Liveness.ofBody Reg.isTracked body).ins[position]? = some regs ∧ _ :=
    Liveness.ins_isSome located
  refine ⟨regs, ins, (Liveness.mem_ins located ins outs).mpr ⟨tracked, live.mono ?_⟩⟩
  rintro ⟨other, found, member⟩
  rw [outs] at found
  cases found
  exact member

theorem read_of_live {position : Nat} {block : Block} (located : body.blocks[position]? = some block)
    {pre post : List (Inst Nat)} (split : block.insts = pre ++ post)
    (live : LiveBefore reg (body.LiveOut position reg) post) : ∃ inst ∈ body.insts, reg ∈ inst.uses := by
  rcases live.read with ⟨inst, inPost, reads⟩ | ⟨out, outs, member⟩
  · refine ⟨inst, List.mem_flatMap.mpr ⟨block, List.mem_of_getElem? located, ?_⟩, reads⟩
    rw [split]
    exact List.mem_append_right _ inPost
  · exact (Liveness.mem_used.mp (Liveness.used_of_outs outs member)).2

end Body

end RegisterAllocator
