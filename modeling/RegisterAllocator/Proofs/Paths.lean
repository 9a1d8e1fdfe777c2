import RegisterAllocator.Proofs.Bodies
import RegisterAllocator.Proofs.Liveness
import RegisterAllocator.Proofs.Loaded
import RegisterAllocator.Proofs.Sharing

/-!
# Paths and live ranges

Control goes from instruction to instruction: on to the next one in layout order, or from a branch, wherever in its
block it stands, to the start of the target. A register is needed after an instruction if a path from there reads it
before it writes it. The live ranges take a block for a stretch of code that is left at its end. They cover the points
where a register is needed if and only if no branch leaves its block with a register that the rest of the block
overwrites (`ranges_cover_paths_iff`); a branch in the middle of a block can do so (`branch_value_uncovered`).
-/

namespace RegisterAllocator

theorem Inst.defs_of_target {τ : Type} {inst : Inst τ} {target : τ} (leads : target ∈ inst.targets) :
    inst.defs = [] := by
  cases inst with
  | jump | branch => rfl
  | _ => cases leads

namespace Body

/-- Control may go from the instruction with number `n` to the one with number `n'`. -/
def Flows (body : Body) (n n' : Nat) : Prop :=
  ∃ inst, body.insts[n]? = some inst ∧
    (inst.fallsThrough = true ∧ n' = n + 1 ∨ ∃ target ∈ inst.targets, n' = body.firstNumber target)

/-- A path that starts with the instruction numbered `n` reads a register before it writes it. -/
inductive ReadsFrom (body : Body) (reg : Reg) : Nat → Prop
  | here {n : Nat} {inst : Inst Nat} : body.insts[n]? = some inst → reg ∈ inst.uses → ReadsFrom body reg n
  | later {n n' : Nat} {inst : Inst Nat} : body.insts[n]? = some inst → reg ∉ inst.defs → body.Flows n n' →
      ReadsFrom body reg n' → ReadsFrom body reg n

/-- A path that leaves the instruction numbered `n` reads a register before it writes it. -/
def NeededAfter (body : Body) (n : Nat) (reg : Reg) : Prop := ∃ n', body.Flows n n' ∧ body.ReadsFrom reg n'

/-- The instruction numbered `n` stands in a block and lies in a live range of the register in that block. -/
def Covers (body : Body) (n : Nat) (reg : Reg) : Prop :=
  ∃ (position : Nat) (block : Block), body.blocks[position]? = some block ∧ body.firstNumber position ≤ n ∧
    n < body.firstNumber position + block.insts.length ∧
    ∃ r ∈ (liveRanges body).ranges reg, r.block = position ∧ r.start ≤ n ∧ n ≤ r.stop

/-- A branch leads to where a register is needed that neither the branch reads nor the rest of its block before it is
written there. -/
def Hides (body : Body) (reg : Reg) : Prop :=
  ∃ (position : Nat) (block : Block) (pre : List (Inst Nat)) (inst : Inst Nat) (post : List (Inst Nat)) (target : Nat),
    body.blocks[position]? = some block ∧ block.insts = pre ++ inst :: post ∧ target ∈ inst.targets ∧
    body.ReadsFrom reg (body.firstNumber target) ∧ reg ∉ inst.uses ∧ ¬LiveBefore reg True post

/-! ## Paths and liveness at block ends -/

/-- Control goes from the end of a block to the next one, and branches lead to blocks. -/
structure Laid (body : Body) : Prop where
  exits : body.exits = (List.range body.size).map (Block.exit? body.blocks)
  targets : ∀ block ∈ body.blocks, ∀ inst ∈ block.insts, ∀ target ∈ inst.targets, target < body.size

variable {body : Body} {reg : Reg}

theorem target_mem_succs {position target : Nat} {block : Block} {inst : Inst Nat}
    (located : body.blocks[position]? = some block) (inBlock : inst ∈ block.insts) (leads : target ∈ inst.targets) :
    target ∈ body.succs position := by
  simp only [succs, located, Option.map_some, Option.getD_some, List.mem_append, Block.targets, List.mem_flatMap]
  exact .inl ⟨inst, inBlock, leads⟩

theorem Laid.next_mem_succs (laid : body.Laid) {position : Nat} {block : Block}
    (located : body.blocks[position]? = some block) (falls : block.fallsThrough = true)
    (more : position + 1 < body.size) : position + 1 ∈ body.succs position := by
  have bound : position < body.size := (List.getElem?_eq_some_iff.mp located).1
  have exit : body.exits[position]? = some (some (position + 1)) := by
    rw [laid.exits, List.getElem?_map, List.getElem?_range bound, Option.map_some, Machine.exit?_eq located,
      if_pos ⟨falls, more⟩]
  simp [succs, exit]

/-- What a path from the start of a block needs is live there, given what it needs within blocks. The first instruction
at or after the start may stand behind empty blocks. -/
theorem Laid.liveIn_of_first (laid : body.Laid) (tracked : reg.isTracked = true) {position n : Nat}
    (bound : position < body.size) (first : n = body.firstNumber position) (inside : n < body.insts.length)
    (alive : ∀ place block pre inst post, body.blocks[place]? = some block → block.insts = pre ++ inst :: post →
      n = body.firstNumber place + pre.length → LiveBefore reg (body.LiveOut place reg) (inst :: post)) :
    body.LiveIn position reg := by
  obtain ⟨block, located⟩ : ∃ block, body.blocks[position]? = some block := ⟨_, List.getElem?_eq_getElem bound⟩
  apply liveIn_of_liveBefore located tracked
  cases code : block.insts with
  | cons inst post => exact alive position block [] inst post located code (by simpa using first)
  | nil =>
    have same : n = body.firstNumber (position + 1) := by simp [firstNumber_succ located, code, first]
    have more : position + 1 < body.size := by
      by_contra last
      have final : position + 1 = body.size := by omega
      rw [final, firstNumber_size] at same
      omega
    have falls : block.fallsThrough = true := by simp [Block.fallsThrough, code]
    exact liveOut_of_succ located (laid.next_mem_succs located falls more)
      (laid.liveIn_of_first tracked more same inside alive)
termination_by body.size - position

theorem ReadsFrom.lt_length {n : Nat} (reads : body.ReadsFrom reg n) : n < body.insts.length := by
  cases reads with
  | here found => exact (List.getElem?_eq_some_iff.mp found).1
  | later found => exact (List.getElem?_eq_some_iff.mp found).1

theorem ReadsFrom.reader {n : Nat} (reads : body.ReadsFrom reg n) : ∃ inst ∈ body.insts, reg ∈ inst.uses := by
  induction reads with
  | here found uses => exact ⟨_, List.mem_of_getElem? found, uses⟩
  | later _ _ _ _ ih => exact ih

/-- If control may go from an instruction to one from which a register is needed, the register is live behind it in its
own block, unless the block hides that. -/
theorem Laid.alive_after (laid : body.Laid) (tracked : reg.isTracked = true) (open' : ¬body.Hides reg) {n n' : Nat}
    (flows : body.Flows n n') (reads : body.ReadsFrom reg n')
    (alive : ∀ place block pre inst post, body.blocks[place]? = some block → block.insts = pre ++ inst :: post →
      n' = body.firstNumber place + pre.length → LiveBefore reg (body.LiveOut place reg) (inst :: post))
    {position : Nat} {block : Block} {pre post : List (Inst Nat)} {inst : Inst Nat}
    (located : body.blocks[position]? = some block) (split : block.insts = pre ++ inst :: post)
    (number : n = body.firstNumber position + pre.length) :
    reg ∈ inst.uses ∨ LiveBefore reg (body.LiveOut position reg) post := by
  obtain ⟨other, found, flow⟩ := flows
  rw [number, getElem?_insts located split] at found
  cases found
  rcases flow with ⟨falls, rfl⟩ | ⟨target, leads, rfl⟩
  · refine .inr ?_
    cases post with
    | cons next post => exact alive position block (pre ++ [inst]) next post located (by simp [split]) (by simp; omega)
    | nil =>
      -- The last instruction of the block leads to the next block, which there is as the path reads on.
      have first : n + 1 = body.firstNumber (position + 1) := by
        rw [firstNumber_succ located, number, split]
        simp
        omega
      have more : position + 1 < body.size := by
        have bound : position < body.size := (List.getElem?_eq_some_iff.mp located).1
        by_contra last
        have final : position + 1 = body.size := by omega
        rw [final, firstNumber_size] at first
        have := reads.lt_length
        omega
      have ends : block.fallsThrough = true := by simp [Block.fallsThrough, split, falls]
      exact liveOut_of_succ located (laid.next_mem_succs located ends more)
        (laid.liveIn_of_first tracked more first reads.lt_length alive)
  · by_cases uses : reg ∈ inst.uses
    · exact .inl uses
    · have inBlock : inst ∈ block.insts := by simp [split]
      have bound := laid.targets block (List.mem_of_getElem? located) inst inBlock target leads
      have live : body.LiveOut position reg := liveOut_of_succ located (target_mem_succs located inBlock leads)
        (laid.liveIn_of_first tracked bound rfl reads.lt_length alive)
      refine .inr (LiveBefore.mono (fun _ => live) (?_ : LiveBefore reg True post))
      -- All that can stop the value in the rest of the block is a write, and then the branch hides it.
      by_contra overwritten
      exact open' ⟨position, block, pre, inst, post, target, located, split, leads, reads, uses, overwritten⟩

/-- What a path needs is live where the path starts, unless a block hides it. -/
theorem Laid.alive_of_reads (laid : body.Laid) (tracked : reg.isTracked = true) (open' : ¬body.Hides reg) {n : Nat}
    (reads : body.ReadsFrom reg n) {position : Nat} {block : Block} {pre post : List (Inst Nat)} {inst : Inst Nat}
    (located : body.blocks[position]? = some block) (split : block.insts = pre ++ inst :: post)
    (number : n = body.firstNumber position + pre.length) :
    LiveBefore reg (body.LiveOut position reg) (inst :: post) := by
  induction reads generalizing position block pre inst post with
  | here found uses =>
    rw [number, getElem?_insts located split] at found
    cases found
    exact .inl uses
  | later found kept flows reads ih =>
    rw [number, getElem?_insts located split] at found
    cases found
    rcases laid.alive_after tracked open' flows reads (fun _ _ _ _ _ => ih) located split number with uses | live
    · exact .inl uses
    · exact .inr ⟨kept, live⟩

/-! ## Covered instructions -/

theorem ranges_eq (tracked : reg.isTracked = true) (named : ∃ inst ∈ body.insts, reg ∈ inst.uses ∨ reg ∈ inst.defs) :
    (liveRanges body).ranges reg = LiveRanges.ofReg body (Liveness.ofBody Reg.isTracked body).outs reg := by
  rw [LiveRanges.ranges_ofBody, if_pos (Liveness.mem_regs.mpr ⟨tracked, named⟩)]

/-- The instructions that live ranges cover are those that have to do with the register or before whose successor in the
block the register is live. -/
theorem covers_iff (tracked : reg.isTracked = true) (named : ∃ inst ∈ body.insts, reg ∈ inst.uses ∨ reg ∈ inst.defs)
    {position n : Nat} {block : Block} {pre post : List (Inst Nat)} {inst : Inst Nat}
    (located : body.blocks[position]? = some block) (split : block.insts = pre ++ inst :: post)
    (number : n = body.firstNumber position + pre.length) :
    body.Covers n reg ↔ reg ∈ inst.uses ∨ reg ∈ inst.defs ∨ LiveBefore reg (body.LiveOut position reg) post := by
  obtain ⟨-, out, -, outs⟩ : ∃ regs out, (Liveness.ofBody Reg.isTracked body).ins[position]? = some regs ∧ _ :=
    Liveness.ins_isSome located
  have liveOut : body.LiveOut position reg ↔ reg ∈ out := by
    simp [LiveOut, outs]
  have length : block.insts.length = pre.length + post.length + 1 := by simp [split]; omega
  rw [liveOut, ← LiveRanges.ofReg_covers_iff located outs split, ← number,
    ← ranges_eq tracked named]
  constructor
  · rintro ⟨place, block', located', low, high, r, member, here, covers⟩
    have same : place = position :=
      place_unique located' located low (by omega) high (by omega : n < _ + block.insts.length)
    exact ⟨r, member, same ▸ here, covers⟩
  · rintro ⟨r, member, here, covers⟩
    exact ⟨position, block, located, by omega, by omega, r, member, here, covers⟩

theorem Laid.covers_paths_iff (laid : body.Laid) (tracked : reg.isTracked = true) :
    (∀ n, body.NeededAfter n reg → body.Covers n reg) ↔ ¬body.Hides reg := by
  constructor
  · rintro covers ⟨position, block, pre, inst, post, target, located, split, leads, reads, unused, overwritten⟩
    obtain ⟨reader, inBody, uses⟩ := reads.reader
    have needed : body.NeededAfter (body.firstNumber position + pre.length) reg :=
      ⟨_, ⟨inst, getElem?_insts located split, .inr ⟨target, leads, rfl⟩⟩, reads⟩
    have unwritten : reg ∉ inst.defs := by simp [Inst.defs_of_target leads]
    rcases (covers_iff tracked ⟨reader, inBody, .inl uses⟩ located split rfl).mp (covers _ needed) with
      uses | writes | live
    · exact unused uses
    · exact unwritten writes
    · exact overwritten (live.mono fun _ => trivial)
  · rintro open' n ⟨n', flows, reads⟩
    obtain ⟨reader, inBody, uses⟩ := reads.reader
    have ⟨inst, found, _⟩ := flows
    obtain ⟨position, block, pre, post, located, split, number⟩ := exists_place found
    rw [covers_iff tracked ⟨reader, inBody, .inl uses⟩ located split number]
    rcases laid.alive_after tracked open' flows reads (fun _ _ _ _ _ => laid.alive_of_reads tracked open' reads)
      located split number with uses | live
    · exact .inl uses
    · exact .inr (.inr live)

end Body

theorem Machine.WellFormed.body_laid {m : Machine} {f : FuncId} {body : Body} (formed : m.WellFormed)
    (found : m.body f = .ok body) : body.Laid := by
  obtain ⟨code, layout, formed⟩ := formed
  exact ⟨congrArg Body.exits (formed.body_eq found), formed.targets_lt found⟩

/-- The live ranges of a register in a function that is read cover every instruction after which a path needs the
register, if and only if no branch leads to where the register is needed past a write to it in the branch's block. -/
theorem ranges_cover_paths_iff {source : String} {m : Machine} {f : FuncId} {body : Body} {reg : Reg}
    (read : Source.read source = .ok m) (found : m.body f = .ok body) (tracked : reg.isTracked = true) :
    (∀ n, body.NeededAfter n reg → body.Covers n reg) ↔ ¬body.Hides reg :=
  ((Source.read_wellFormed read).body_laid found).covers_paths_iff tracked

/-- A function that branches with a value in `$r0` and overwrites it behind the branch. -/
def branchedWith : String := ".func f\nli $r0, 1\nbeqz a0, t\nli $r0, 2\nj t\nt:\nmv a0, $r0\nret a0\n"

def branchedBody : Body :=
  let value : Reg := .virt ⟨0, .general⟩
  let argument : Reg := .phys (.x 10)
  .ofBlocks [
    { label := "f", insts := [.li value 1, .branch .beq argument (.phys .zero) 1, .li value 2, .jump 1] },
    { label := "t", insts := [.immediate .addi argument value .zero, .ret [.x 10]] }]

theorem branchedWith_read : ∃ m, Source.read branchedWith = .ok m ∧ m.body ⟨0⟩ = .ok branchedBody := by
  have run : (do
      let m ← (Source.read branchedWith).toOption
      let body ← (m.body ⟨0⟩).toOption
      return decide (body = branchedBody)) = some true := by
    decide +kernel
  simp only [bind, Option.bind_eq_some_iff, toOption_eq_some, pure, Option.some.injEq, decide_eq_true_eq] at run
  obtain ⟨m, read, body, found, rfl⟩ := run
  exact ⟨m, read, found⟩

theorem branched_value_hidden :
    ∃ m, Source.read branchedWith = .ok m ∧ m.body ⟨0⟩ = .ok branchedBody ∧
      branchedBody.Hides (.virt ⟨0, .general⟩) ∧
      ¬∀ n, branchedBody.NeededAfter n (.virt ⟨0, .general⟩) → branchedBody.Covers n (.virt ⟨0, .general⟩) := by
  obtain ⟨m, read, found⟩ := branchedWith_read
  have hides : branchedBody.Hides (.virt ⟨0, .general⟩) := by
    refine ⟨0, _, [_], _, [_, _], 1, rfl, rfl, List.mem_singleton.mpr rfl, .here rfl (by decide), by decide, ?_⟩
    rintro (uses | ⟨kept, -⟩)
    · revert uses
      decide
    · exact kept (by decide)
  refine ⟨m, read, found, hides, fun covers => ?_⟩
  exact (ranges_cover_paths_iff read found rfl).mp covers hides

/-- A value that is read behind a branch in the middle of a block need not be in a live range at the branch. -/
theorem branch_value_uncovered :
    ¬∀ (source : String) (m : Machine) (f : FuncId) (body : Body) (n : Nat) (reg : Reg),
      Source.read source = .ok m → m.body f = .ok body → reg.isTracked = true → body.NeededAfter n reg →
        body.Covers n reg := by
  intro covers
  obtain ⟨m, read, found⟩ := branchedWith_read
  have needed : branchedBody.NeededAfter 1 (.virt ⟨0, .general⟩) :=
    ⟨4, ⟨_, rfl, .inr ⟨1, List.mem_singleton.mpr rfl, rfl⟩⟩, .here rfl (by decide)⟩
  obtain ⟨_, _, -, -, -, r, member, -, start, stop⟩ := covers _ m _ _ 1 _ read found rfl needed
  have outside : ∀ r ∈ (liveRanges branchedBody).ranges (.virt ⟨0, .general⟩), ¬(r.start ≤ 1 ∧ 1 ≤ r.stop) := by
    decide +kernel
  exact outside r member ⟨start, stop⟩

end RegisterAllocator
