import RegisterAllocator.Proofs.Liveness
import RegisterAllocator.Proofs.Loaded

/-!
# Block liveness along paths

A register is live at the start of a block exactly if a path of blocks leads from there to one that reads it before
writing it, and no block before that one writes it (`liveness_exact_along_paths`). The passes find the least solution
of the equations: every set that a pass writes is within any family of sets that the equations do not lead out of,
and what paths reach is such a family.
-/

namespace RegisterAllocator

/-- Some instruction reads the register, and none before it writes it. -/
def Exposed {τ : Type} (reg : Reg) (insts : List (Inst τ)) : Prop :=
  ∃ before inst after, insts = before ++ inst :: after ∧ reg ∈ inst.uses ∧ ∀ earlier ∈ before, reg ∉ earlier.defs

theorem liveBefore_iff_exposed {τ : Type} {reg : Reg} {insts : List (Inst τ)} :
    LiveBefore reg False insts ↔ Exposed reg insts := by
  induction insts with
  | nil =>
    constructor
    · exact False.elim
    · rintro ⟨before, inst, after, cut, -⟩
      simp at cut
  | cons first rest ih =>
    constructor
    · rintro (reads | ⟨kept, alive⟩)
      · exact ⟨[], first, rest, rfl, reads, by simp⟩
      · obtain ⟨before, inst, after, rfl, reads, unwritten⟩ := ih.mp alive
        exact ⟨first :: before, inst, after, rfl, reads, List.forall_mem_cons.mpr ⟨kept, unwritten⟩⟩
    · rintro ⟨before, inst, after, cut, reads, unwritten⟩
      cases before with
      | nil =>
        cases cut
        exact .inl reads
      | cons _ before =>
        obtain ⟨rfl, rfl⟩ := List.cons_eq_cons.mp cut
        obtain ⟨kept, unwritten⟩ := List.forall_mem_cons.mp unwritten
        exact .inr ⟨kept, ih.mpr ⟨before, inst, after, rfl, reads, unwritten⟩⟩

/-! ## The least solution -/

namespace LiveIns

variable {rows : List FlowRow} {ins : LiveIns} {bound : Nat → Reg → Prop}

/-- The equations of rows do not lead out of a family of sets. -/
def Closed (rows : List FlowRow) (bound : Nat → Reg → Prop) : Prop :=
  ∀ position row, rows[position]? = some row → ∀ reg, reg ∈ row.summary.uses ∨
    (∃ succ ∈ row.succs, bound succ reg) ∧ reg ∉ row.summary.defs → bound position reg

def Within (ins : LiveIns) (bound : Nat → Reg → Prop) : Prop :=
  ∀ position, ∀ reg ∈ ins.live position, bound position reg

theorem Within.passed (closed : Closed rows bound) (within : ins.Within bound) {position : Nat} {rest : List FlowRow}
    (suffix : rows.drop position = rest) : Within (ins.pass position rest) bound := by
  -- a pass writes the sets of the last rows first, so the rows behind this one are within the family already
  induction rest generalizing position with
  | nil => exact within
  | cons row rest ih =>
    have located : rows[position]? = some row := by
      have := congrArg List.head? suffix
      rwa [List.head?_drop] at this
    have tail : rows.drop (position + 1) = rest := by
      rw [← List.tail_drop, suffix]
      rfl
    have within' := ih tail
    intro other reg member
    rw [pass] at member
    by_cases inside : position < (ins.pass (position + 1) rest).size
    · rw [live_set inside] at member
      split at member
      · next same =>
        subst same
        apply closed other row located
        rw [Summary.transfer, RegSet.mem_union, RegSet.mem_diff, mem_out] at member
        apply member.imp_right
        rintro ⟨⟨succ, follows, alive⟩, kept⟩
        exact ⟨⟨succ, follows, within' succ reg alive⟩, kept⟩
      · exact within' other reg member
    · rw [Array.setIfInBounds, dif_neg inside] at member
      exact within' other reg member

theorem Within.settled (closed : Closed rows bound) (within : ins.Within bound) (fuel : Nat) :
    Within (settle rows fuel ins) bound := by
  induction fuel generalizing ins with
  | zero => exact within
  | succ fuel ih =>
    unfold settle
    dsimp only
    split
    · exact within
    · exact ih (within.passed closed List.drop_zero)

end LiveIns

theorem Liveness.settled_within {tracked : Reg → Bool} {body : Body} {bound : Nat → Reg → Prop}
    (closed : LiveIns.Closed (rows tracked body) bound) : (settled tracked body).Within bound := by
  apply LiveIns.Within.settled closed
  intro position reg member
  have empty : LiveIns.live (Array.replicate body.size ∅) position = ∅ := by
    simp only [LiveIns.live, Array.getElem?_replicate]
    split <;> rfl
  rw [empty] at member
  exact absurd member (RegSet.not_mem_empty reg)

/-! ## Paths of blocks -/

namespace Machine

variable {m : Machine} {reg : Reg} {b c : BlockId}

def Exposes (m : Machine) (reg : Reg) (b : BlockId) : Prop :=
  ∃ insts, m.blockInsts b = .ok insts ∧ Exposed reg insts

def Defines (m : Machine) (reg : Reg) (b : BlockId) : Prop :=
  ∃ insts, m.blockInsts b = .ok insts ∧ ∃ inst ∈ insts, reg ∈ inst.defs

def Follows (m : Machine) (b c : BlockId) : Prop := ∃ succs, m.succs b = .ok succs ∧ c ∈ succs

/-- A path of blocks leads from `b` to one that reads the register before writing it, and no block before that one
writes the register. -/
def LiveAlong (m : Machine) (reg : Reg) (b : BlockId) : Prop :=
  ∃ through last, (through ++ [last]).head? = some b ∧ (through ++ [last]).IsChain m.Follows ∧
    (∀ c ∈ through, ¬ m.Defines reg c) ∧ m.Exposes reg last

theorem Exposes.liveAlong (exposes : m.Exposes reg b) : m.LiveAlong reg b :=
  ⟨[], b, rfl, .singleton b, by simp, exposes⟩

theorem LiveAlong.step (alive : m.LiveAlong reg c) (follows : m.Follows b c) (kept : ¬ m.Defines reg b) :
    m.LiveAlong reg b := by
  obtain ⟨through, last, first, chain, unwritten, exposes⟩ := alive
  refine ⟨b :: through, last, rfl, ?_, List.forall_mem_cons.mpr ⟨kept, unwritten⟩, exposes⟩
  rw [List.cons_append, List.isChain_cons]
  refine ⟨fun next head => ?_, chain⟩
  rw [first] at head
  cases head
  exact follows

theorem LiveAlong.induction {inside : BlockId → Prop} (alive : m.LiveAlong reg b)
    (exposed : ∀ b, m.Exposes reg b → inside b)
    (closed : ∀ b c, m.Follows b c → ¬ m.Defines reg b → inside c → inside b) : inside b := by
  obtain ⟨through, last, first, chain, unwritten, exposes⟩ := alive
  induction through generalizing b with
  | nil =>
    cases first
    exact exposed last exposes
  | cons here through ih =>
    cases first
    obtain ⟨kept, unwritten⟩ := List.forall_mem_cons.mp unwritten
    rw [List.cons_append, List.isChain_cons] at chain
    obtain ⟨next, head⟩ : ∃ next, (through ++ [last]).head? = some next := by
      cases through <;> exact ⟨_, rfl⟩
    exact closed here next (chain.1 next head) kept (ih head chain.2 unwritten)

variable {code : BlockId → List InstId} {layout : FuncId → List BlockId} {f : FuncId} {body : Body}

/-- What a block of a body has to do with the stored block at its position. -/
structure Renders (m : Machine) (layout : List BlockId) (body : Body) (position : Nat) (b : BlockId) (block : Block) :
    Prop where
  located : body.blocks[position]? = some block
  insts : ∃ insts, m.blockInsts b = .ok insts ∧
    List.Forall₂ (fun inst' inst => inst'.uses = inst.uses ∧ inst'.defs = inst.defs) block.insts insts
  succs : ∃ succs, m.succs b = .ok succs ∧
    List.Forall₂ (fun c place => layout[place]? = some c) succs (body.succs position)

theorem Formed.renders (formed : m.Formed code layout) (found : m.body f = .ok body) {position : Nat}
    (located : (layout f)[position]? = some b) : ∃ block, Renders m (layout f) body position b block := by
  have shows := (formed.body_shows found).2.2
  have nodup := formed.layout.nodup f
  obtain ⟨block, place, shown⟩ := forall₂_getElem? shows located
  obtain ⟨insts, read, targeted⟩ := forall₂_factor shown.insts
  have coded : m.code b = .ok (code b) := formed.code_ok (List.mem_of_getElem? located)
  simp only [Machine.body, bind_eq_ok, pure_eq_ok, mapM_eq_ok] at found
  obtain ⟨blocks, laid, _, -, _, -, _, -, _, -, _, -, exits, left, whole⟩ := found
  rw [formed.layout_eq laid] at left
  obtain ⟨exit, exited, next, leaves, located'⟩ := forall₂_getElem? left located
  have exited : body.exits[position]? = some exit := by
    rw [← whole]
    exact exited
  refine ⟨block, place, ⟨insts, ?_, ?_⟩, insts.flatMap Inst.targets ++ next.toList, ?_, ?_⟩
  · rw [blockInsts, coded, ok_bind]
    exact mapM_eq_ok.mpr read
  · exact targeted.imp fun _ _ same => ⟨(Inst.retargeted same).uses, (Inst.retargeted same).defs⟩
  · have targets : (code b).mapM (fun i => Inst.targets <$> m.inst i) = .ok (insts.map Inst.targets) := by
      rw [mapM_eq_ok, List.forall₂_map_right_iff]
      exact read.imp fun i inst known => map_eq_ok.mpr ⟨inst, known, rfl⟩
    simp only [Machine.succs, coded, ok_bind, targets, leaves]
    rfl
  · simp only [Body.succs, place, Option.map_some, Option.getD_some, exited, Option.join_some]
    apply List.rel_append
    · apply List.rel_flatten
      rw [List.forall₂_map_left_iff, List.forall₂_map_right_iff]
      refine targeted.flip.imp fun inst inst' same => ?_
      exact (Inst.retargeted same).targets.imp fun c k known => (position_eq_ok nodup).mp known
    · cases next with
      | none =>
        cases located'
        exact .nil
      | some c =>
        simp only [Option.mapM_some, map_eq_ok] at located'
        obtain ⟨k, known, rfl⟩ := located'
        exact .cons ((position_eq_ok nodup).mp known) .nil

namespace Renders

variable {blocks : List BlockId} {position : Nat} {block : Block}

theorem exposes_iff (renders : Renders m blocks body position b block) :
    m.Exposes reg b ↔ LiveBefore reg False block.insts := by
  obtain ⟨insts, read, same⟩ := renders.insts
  have alike : LiveBefore reg False block.insts ↔ LiveBefore reg False insts := by
    clear read
    generalize block.insts = shown at same
    induction same with
    | nil => rfl
    | cons first _ ih => simp only [LiveBefore, first.1, first.2, ih]
  rw [alike, liveBefore_iff_exposed, Exposes, read]
  constructor
  · rintro ⟨_, known, exposed⟩
    cases known
    exact exposed
  · exact fun exposed => ⟨insts, rfl, exposed⟩

theorem defines_iff (renders : Renders m blocks body position b block) :
    m.Defines reg b ↔ ∃ inst ∈ block.insts, reg ∈ inst.defs := by
  obtain ⟨insts, read, same⟩ := renders.insts
  rw [Defines, read]
  constructor
  · rintro ⟨_, known, inst, member, writes⟩
    cases known
    obtain ⟨inst', inBlock, -, defs⟩ := forall₂_mem_right same member
    exact ⟨inst', inBlock, defs ▸ writes⟩
  · rintro ⟨inst', inBlock, writes⟩
    obtain ⟨inst, member, -, defs⟩ := forall₂_mem_right same.flip inBlock
    exact ⟨insts, rfl, inst, member, defs ▸ writes⟩

theorem follows_iff (renders : Renders m blocks body position b block) :
    m.Follows b c ↔ ∃ place ∈ body.succs position, blocks[place]? = some c := by
  obtain ⟨succs, read, same⟩ := renders.succs
  rw [Follows, read]
  constructor
  · rintro ⟨_, known, member⟩
    cases known
    obtain ⟨place, inSuccs, located⟩ := forall₂_mem_right same.flip member
    exact ⟨place, inSuccs, located⟩
  · rintro ⟨place, inSuccs, located⟩
    obtain ⟨c', member, located'⟩ := forall₂_mem_right same inSuccs
    rw [located] at located'
    cases located'
    exact ⟨succs, rfl, member⟩

theorem succ_located (renders : Renders m blocks body position b block) {place : Nat}
    (follows : place ∈ body.succs position) : ∃ c, blocks[place]? = some c := by
  obtain ⟨succs, -, same⟩ := renders.succs
  obtain ⟨c, -, located⟩ := forall₂_mem_right same follows
  exact ⟨c, located⟩

end Renders

/-! ## Live registers and paths -/

section Paths

variable {tracked : Reg → Bool} {position : Nat} {ins out : RegSet} (formed : m.Formed code layout)
  (found : m.body f = .ok body) (located : (layout f)[position]? = some b)
  (inside : (Liveness.ofBody tracked body).ins[position]? = some ins)

include formed found located inside

theorem Formed.mem_ins (outside : (Liveness.ofBody tracked body).outs[position]? = some out) :
    reg ∈ ins ↔ tracked reg = true ∧ (m.Exposes reg b ∨ reg ∈ out ∧ ¬ m.Defines reg b) := by
  obtain ⟨block, renders⟩ := formed.renders found located
  rw [Liveness.mem_ins renders.located inside outside, liveBefore_iff, renders.exposes_iff, renders.defines_iff]
  simp only [not_exists, not_and]

/-- The live registers are in every family of sets that the equations do not lead out of. -/
theorem Formed.ins_least {other : BlockId → Set Reg}
    (closed : ∀ b ∈ layout f, ∀ reg, tracked reg = true →
      m.Exposes reg b ∨ (∃ c, m.Follows b c ∧ reg ∈ other c) ∧ ¬ m.Defines reg b → reg ∈ other b)
    (member : reg ∈ ins) : reg ∈ other b := by
  -- the family at a position is that of the block laid out there; only tracked registers get into a set at all
  have within : (Liveness.settled tracked body).Within fun place reg =>
      tracked reg = true ∧ ∀ c, (layout f)[place]? = some c → reg ∈ other c := by
    apply Liveness.settled_within
    intro place row here reg flows
    obtain ⟨block', succs, known, looked, rfl⟩ := Liveness.rows_eq_some.mp here
    have follows : tracked reg = true := by
      rcases flows with uses | ⟨⟨_, -, follows, -⟩, -⟩
      · exact (Summary.mem_uses.mp uses).1
      · exact follows
    refine ⟨follows, fun c stands => closed c (List.mem_of_getElem? stands) reg follows ?_⟩
    obtain ⟨block, renders⟩ := formed.renders found stands
    rw [renders.located] at known
    cases known
    rcases flows with uses | ⟨⟨succ, inSuccs, -, flows⟩, kept⟩
    · exact .inl (renders.exposes_iff.mpr (Summary.mem_uses.mp uses).2)
    · have inSuccs := (Body.mem_flowSuccs looked).1 succ inSuccs
      obtain ⟨d, stands'⟩ := renders.succ_located inSuccs
      refine .inr ⟨⟨d, renders.follows_iff.mpr ⟨succ, inSuccs, stands'⟩, flows d stands'⟩, fun defines => kept ?_⟩
      exact Summary.mem_defs.mpr ⟨follows, renders.defines_iff.mp defines⟩
  rw [Liveness.getElem?_ins] at inside
  refine (within position reg ?_).2 b located
  rw [LiveIns.live, inside]
  exact member

end Paths

theorem Formed.live_sets (formed : m.Formed code layout) (found : m.body f = .ok body) (tracked : Reg → Bool)
    {position : Nat} (located : (layout f)[position]? = some b) :
    ∃ ins out, (Liveness.ofBody tracked body).ins[position]? = some ins ∧
      (Liveness.ofBody tracked body).outs[position]? = some out := by
  obtain ⟨block, renders⟩ := formed.renders found located
  exact Liveness.ins_isSome renders.located

theorem Formed.mem_ins_of_liveAlong (formed : m.Formed code layout) (found : m.body f = .ok body)
    {tracked : Reg → Bool} (follows : tracked reg = true) (alive : m.LiveAlong reg b) :
    ∀ (position : Nat) (ins : RegSet), (layout f)[position]? = some b →
      (Liveness.ofBody tracked body).ins[position]? = some ins → reg ∈ ins := by
  apply alive.induction
  · intro b exposes position ins located inside
    obtain ⟨_, out, -, outside⟩ := formed.live_sets found tracked located
    exact (formed.mem_ins found located inside outside).mpr ⟨follows, .inl exposes⟩
  · intro b c leads kept alive position ins located inside
    obtain ⟨_, out, -, outside⟩ := formed.live_sets found tracked located
    obtain ⟨block, renders⟩ := formed.renders found located
    obtain ⟨succ, inSuccs, located'⟩ := renders.follows_iff.mp leads
    obtain ⟨regs, _, inside', -⟩ := formed.live_sets found tracked located'
    refine (formed.mem_ins found located inside outside).mpr ⟨follows, .inr ⟨?_, kept⟩⟩
    exact (Liveness.mem_outs outside).mpr ⟨succ, inSuccs, regs, inside', alive succ regs located' inside'⟩

theorem Formed.mem_ins_iff_liveAlong (formed : m.Formed code layout) (found : m.body f = .ok body)
    {tracked : Reg → Bool} {position : Nat} {ins : RegSet} (located : (layout f)[position]? = some b)
    (inside : (Liveness.ofBody tracked body).ins[position]? = some ins) :
    reg ∈ ins ↔ tracked reg = true ∧ m.LiveAlong reg b := by
  obtain ⟨_, out, -, outside⟩ := formed.live_sets found tracked located
  constructor
  · intro member
    refine ⟨((formed.mem_ins found located inside outside).mp member).1, ?_⟩
    have closed : ∀ b ∈ layout f, ∀ reg, tracked reg = true → m.Exposes reg b ∨
        (∃ c, m.Follows b c ∧ reg ∈ { reg | m.LiveAlong reg c }) ∧ ¬ m.Defines reg b →
        reg ∈ { reg | m.LiveAlong reg b } := by
      rintro c - reg - (exposes | ⟨⟨d, follows, alive⟩, kept⟩)
      · exact exposes.liveAlong
      · exact LiveAlong.step alive follows kept
    exact formed.ins_least found located inside closed member
  · rintro ⟨follows, alive⟩
    exact formed.mem_ins_of_liveAlong found follows alive position ins located inside

/-- All branches of the blocks lead to one of them. -/
def SelfContained (m : Machine) (layout : List BlockId) : Prop :=
  ∀ b ∈ layout, ∀ insts, m.blockInsts b = .ok insts → ∀ inst ∈ insts, ∀ target ∈ inst.targets, target ∈ layout

theorem Formed.closed_of_selfContained (formed : m.Formed code layout) (contained : m.SelfContained (layout f)) :
    m.Closed code (layout f) := by
  intro b member i inCode
  obtain ⟨insts, read⟩ : ∃ insts, (code b).mapM m.inst = .ok insts :=
    exists_mapM_eq_ok fun i inCode => formed.inst_ok inCode
  obtain ⟨inst, inInsts, known⟩ := forall₂_mem_right (mapM_eq_ok.mp read).flip inCode
  refine ⟨inst, known, contained b member insts ?_ inst inInsts⟩
  rw [blockInsts, formed.code_ok member, ok_bind]
  exact read

theorem body_of_no_blocks (laid : m.layout f = .ok []) : m.body f = .error .noEntryBlock := by
  simp only [Machine.body, flowGraph, laid, ok_bind]
  rfl

/-- The machine that a source is read into: each function that has code is laid out in its own blocks. -/
theorem Loaded.selfContained (loaded : m.Loaded code layout) {node : FuncNode} (known : m.func f = .ok node)
    (internal : node.external = false) :
    ∃ blocks, m.layout f = .ok blocks ∧ blocks ≠ [] ∧ m.SelfContained blocks := by
  have laid := loaded.formed.layout_ok known
  have ready := loaded.ready_of_func known internal
  refine ⟨layout f, laid, ready.filled, fun b member insts read inst inInsts => ?_⟩
  rw [blockInsts, loaded.formed.code_ok member, ok_bind, mapM_eq_ok] at read
  obtain ⟨i, inCode, stored⟩ := forall₂_mem_right read inInsts
  obtain ⟨inst', stored', -, targets⟩ := ready.insts b member i inCode
  rw [stored] at stored'
  cases stored'
  exact targets

end Machine

/-- The live registers of blocks laid out in a machine are those of paths: a tracked register is live-in exactly if it
is live along a path, live-out is the union of live-in over the successors, and live-in is the least solution of its
equation. -/
structure Liveness.FollowsPaths (live : Liveness) (m : Machine) (layout : List BlockId) (tracked : Reg → Bool) :
    Prop where
  blocks : ∀ (position : Nat) (b : BlockId), layout[position]? = some b →
    ∃ (ins out : RegSet) (succs : List BlockId), live.ins[position]? = some ins ∧ live.outs[position]? = some out ∧
      m.succs b = .ok succs ∧
      (∀ reg, reg ∈ ins ↔ tracked reg = true ∧ m.LiveAlong reg b) ∧
      (∀ reg, reg ∈ out ↔ ∃ c ∈ succs, ∃ (place : Nat) (regs : RegSet), layout[place]? = some c ∧
        live.ins[place]? = some regs ∧ reg ∈ regs) ∧
      ∀ reg, reg ∈ ins ↔ tracked reg = true ∧ (m.Exposes reg b ∨ reg ∈ out ∧ ¬ m.Defines reg b)
  least : ∀ other : BlockId → Set Reg,
    (∀ b ∈ layout, ∀ reg, tracked reg = true →
      m.Exposes reg b ∨ (∃ c, m.Follows b c ∧ reg ∈ other c) ∧ ¬ m.Defines reg b → reg ∈ other b) →
    ∀ (position : Nat) (b : BlockId) (ins : RegSet), layout[position]? = some b → live.ins[position]? = some ins →
      ∀ reg ∈ ins, reg ∈ other b

theorem Machine.Formed.followsPaths {m : Machine} {code : BlockId → List InstId} {layout : FuncId → List BlockId}
    {f : FuncId} {body : Body} (formed : m.Formed code layout) (found : m.body f = .ok body) (tracked : Reg → Bool) :
    (Liveness.ofBody tracked body).FollowsPaths m (layout f) tracked := by
  refine ⟨fun position b located => ?_, fun other closed position b ins located inside reg member => ?_⟩
  · obtain ⟨ins, out, inside, outside⟩ := formed.live_sets found tracked located
    obtain ⟨block, renders⟩ := formed.renders found located
    obtain ⟨succs, follows, places⟩ := renders.succs
    refine ⟨ins, out, succs, inside, outside, follows, fun reg => ?_, fun reg => ?_, fun reg => ?_⟩
    · exact formed.mem_ins_iff_liveAlong found located inside
    · rw [Liveness.mem_outs outside]
      constructor
      · rintro ⟨place, inSuccs, regs, inside', member⟩
        obtain ⟨c, inSuccs', located'⟩ := forall₂_mem_right places inSuccs
        exact ⟨c, inSuccs', place, regs, located', inside', member⟩
      · rintro ⟨c, inSuccs', place, regs, located', inside', member⟩
        obtain ⟨place', inSuccs, known⟩ := forall₂_mem_right places.flip inSuccs'
        -- a block is laid out in one place only
        have unique : place' = place := by
          have bound := (List.getElem?_eq_some_iff.mp known).1
          exact (List.getElem?_inj bound (formed.layout.nodup f)).mp (known.trans located'.symm)
        subst unique
        exact ⟨place', inSuccs, regs, inside', member⟩
    · exact formed.mem_ins found located inside outside
  · exact formed.ins_least found located inside closed member

/-- Block liveness is liveness along paths. In a machine whose chains are sequences, let all branches of a function
lead to its own blocks: if the function has an entry, the analysis comes to rest with the liveness of paths, for the
registers that any predicate tracks. Every function of a source text that has code is such a function. -/
theorem liveness_exact_along_paths :
    (∀ {m : Machine} {f : FuncId} {layout : List BlockId}, m.WellFormed → m.layout f = .ok layout →
      m.SelfContained layout →
      (layout = [] → m.body f = .error .noEntryBlock) ∧
      (layout ≠ [] → ∃ body, m.body f = .ok body ∧ ∀ tracked : Reg → Bool,
        (Liveness.ofBody tracked body).FollowsPaths m layout tracked ∧
        LiveIns.pass 0 (Liveness.rows tracked body) (Liveness.ofBody tracked body).ins.toArray =
          (Liveness.ofBody tracked body).ins.toArray)) ∧
    ∀ {source : String} {m : Machine}, Source.read source = .ok m → m.WellFormed ∧
      ∀ f node, m.func f = .ok node → node.external = false →
        ∃ layout, m.layout f = .ok layout ∧ layout ≠ [] ∧ m.SelfContained layout := by
  refine ⟨fun {m f blocks} wellFormed laid contained => ⟨?_, fun filled => ?_⟩, fun {source m} read => ⟨?_, ?_⟩⟩
  · rintro rfl
    exact Machine.body_of_no_blocks laid
  · obtain ⟨code, layout, formed⟩ := wellFormed
    have same := formed.layout_eq laid
    subst same
    obtain ⟨body, found⟩ := formed.body_ok (formed.closed_of_selfContained contained) laid filled
    refine ⟨body, found, fun tracked => ⟨formed.followsPaths found tracked, ?_⟩⟩
    exact (Liveness.settled_fixed tracked body).1
  · exact Source.read_wellFormed read
  · obtain ⟨code, layout, loaded⟩ := Source.read_loaded read
    exact fun f node known internal => loaded.selfContained known internal

/-- A loop that counts down, in front of it a block that control never gets to. -/
def countdown : String :=
  ".func f\nli $r0, 9\nj t\nu:\nadd $r0, $r0, $r1\nt:\naddi $r0, $r0, -1\nbnez $r0, t\nret\n"

/-- In that function a register is live at the start of the block that control never gets to, and the count is not
live at the entry. -/
theorem countdown_live_along_paths :
    ∃ m layout body entry skipped, Source.read countdown = .ok m ∧ m.WellFormed ∧ m.layout ⟨0⟩ = .ok layout ∧
      m.SelfContained layout ∧ m.body ⟨0⟩ = .ok body ∧ layout[0]? = some entry ∧ layout[1]? = some skipped ∧
      m.LiveAlong (.virt ⟨1, .general⟩) skipped ∧ ¬ m.LiveAlong (.virt ⟨0, .general⟩) entry := by
  have run : (do
      let m ← (Source.read countdown).toOption
      let node ← (m.func ⟨0⟩).toOption
      let layout ← (m.layout ⟨0⟩).toOption
      let body ← (m.body ⟨0⟩).toOption
      let entry ← layout[0]?
      let skipped ← layout[1]?
      let first ← (Liveness.ofBody Reg.isTracked body).ins[0]?
      let second ← (Liveness.ofBody Reg.isTracked body).ins[1]?
      return decide (node.external = false ∧ Reg.virt ⟨0, .general⟩ ∉ first ∧ Reg.virt ⟨1, .general⟩ ∈ second)) =
        some true := by
    decide +kernel
  simp only [bind, Option.bind_eq_some_iff, toOption_eq_some, pure, Option.some.injEq, decide_eq_true_eq] at run
  obtain ⟨m, read, node, known, layout, laid, body, found, entry, atEntry, skipped, atSkipped, first, firstIns, second,
    secondIns, internal, absent, present⟩ := run
  obtain ⟨wellFormed, ready⟩ := liveness_exact_along_paths.2 read
  obtain ⟨layout', laid', filled, contained⟩ := ready _ node known internal
  rw [laid] at laid'
  cases laid'
  obtain ⟨body', found', exact'⟩ := (liveness_exact_along_paths.1 wellFormed laid contained).2 filled
  rw [found] at found'
  cases found'
  obtain ⟨paths, -⟩ := exact' Reg.isTracked
  refine ⟨m, layout, body, entry, skipped, read, wellFormed, laid, contained, found, atEntry, atSkipped, ?_, ?_⟩
  · obtain ⟨ins, _, _, inside, -, -, alive, -⟩ := paths.blocks 1 skipped atSkipped
    rw [secondIns] at inside
    cases inside
    exact ((alive _).mp present).2
  · obtain ⟨ins, _, _, inside, -, -, alive, -⟩ := paths.blocks 0 entry atEntry
    rw [firstIns] at inside
    cases inside
    exact fun along => absent ((alive _).mpr ⟨rfl, along⟩)

end RegisterAllocator
