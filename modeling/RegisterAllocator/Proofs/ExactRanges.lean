import Mathlib.Data.List.Pairwise
import RegisterAllocator.Proofs.PathLiveness
import RegisterAllocator.Proofs.Paths

/-!
# Exact live ranges

Liveness at the end of a block fixes, instruction by instruction and backwards, what is live before and behind each
instruction of the block. The live ranges of a register are exactly that liveness cut at the writes
(`LiveRanges.Exact`): they cover the instructions that have to do with the register, two of them meet at most in an
instruction that reads the old value and writes the new one, and they count what they cover.
-/

namespace RegisterAllocator

variable {τ τ' : Type} {reg : Reg}

/-- The number of instructions from number `first` to number `last`, both included, that read or write a register. -/
def touches (reg : Reg) (insts : List (Inst τ)) (first last : Nat) : Nat :=
  ((insts.drop first).take (last + 1 - first)).countP fun inst => reg ∈ inst.uses ∨ reg ∈ inst.defs

/-- The instruction numbered `n` both reads and writes a register. -/
def Rewrites (reg : Reg) (insts : List (Inst τ)) (n : Nat) : Prop :=
  ∃ inst, insts[n]? = some inst ∧ reg ∈ inst.uses ∧ reg ∈ inst.defs

def LiveRange.Covers (r : LiveRange) (n : Nat) : Prop := r.start ≤ n ∧ n ≤ r.stop

/-- Two ranges of a register share at most one number, that of an instruction which reads and writes the register. -/
def LiveRange.Meet (reg : Reg) (insts : List (Inst τ)) (a b : LiveRange) : Prop :=
  ∀ n, a.Covers n → b.Covers n → Rewrites reg insts n ∧ ∀ n', a.Covers n' → b.Covers n' → n' = n

/-- The number of the first instruction of the block at a position, instructions being numbered through. -/
def entryNumber (code : List (List (Inst τ))) (position : Nat) : Nat := (code.take position).flatten.length

def blockBounds (code : List (List (Inst τ))) (position : Nat) (insts : List (Inst τ)) : Option (Nat × Nat) :=
  if insts = [] then none else some (entryNumber code position, entryNumber code position + insts.length - 1)

/-- The ranges of a register are exact for blocks of instructions, given what is live at the end of each block. -/
structure LiveRanges.Exact (code : List (List (Inst τ))) (outs : List RegSet) (reg : Reg) (ranges : List LiveRange) :
    Prop where
  within : ∀ r ∈ ranges, ∃ insts entry exit, code[r.block]? = some insts ∧
    blockBounds code r.block insts = some (entry, exit) ∧ entry ≤ r.start ∧ r.start ≤ r.stop ∧ r.stop ≤ exit
  covered : ∀ (position : Nat) (insts : List (Inst τ)) (out : RegSet), code[position]? = some insts →
    outs[position]? = some out → ∀ (k : Nat) (inst : Inst τ), insts[k]? = some inst →
      ((∃ r ∈ ranges, r.block = position ∧ r.Covers (entryNumber code position + k)) ↔
        LiveBefore reg (reg ∈ out) (insts.drop k) ∨ LiveBefore reg (reg ∈ out) (insts.drop (k + 1)) ∨ reg ∈ inst.defs)
  starts : ∀ r ∈ ranges, r.start = entryNumber code r.block ∨
    ∃ inst, code.flatten[r.start]? = some inst ∧ reg ∈ inst.defs
  meet : ranges.Pairwise (LiveRange.Meet reg code.flatten)
  counts : ∀ r ∈ ranges, r.count = touches reg code.flatten r.start r.stop
  sorted : ranges.Pairwise fun a b => a.start ≤ b.start

/-! ## Counting -/

theorem touches_succ_self (reg : Reg) (insts : List (Inst τ)) (n : Nat) : touches reg insts (n + 1) n = 0 := by
  simp [touches]

theorem touches_step {insts : List (Inst τ)} {inst : Inst τ} {n last : Nat} (here : insts[n]? = some inst)
    (le : n ≤ last) :
    touches reg insts n last =
      touches reg insts (n + 1) last + if reg ∈ inst.uses ∨ reg ∈ inst.defs then 1 else 0 := by
  obtain ⟨bound, rfl⟩ := List.getElem?_eq_some_iff.mp here
  have length : last + 1 - n = (last + 1 - (n + 1)) + 1 := by omega
  rw [touches, List.drop_eq_getElem_cons bound, length, List.take_succ_cons, List.countP_cons]
  simp only [decide_eq_true_eq]
  rfl

/-! ## The scan of a block

The instructions that are scanned are a segment of those that are numbered through: from `number` on they are `insts`
and what stands behind the block. -/

namespace LiveRanges

variable {all insts behind : List (Inst τ)} {block number last : Nat} {live : Option OpenRange}

theorem segment_cons {inst : Inst τ} {rest : List (Inst τ)} (segment : all.drop number = inst :: rest ++ behind) :
    all[number]? = some inst ∧ all.drop (number + 1) = rest ++ behind := by
  constructor
  · have := congrArg List.head? segment
    rwa [List.head?_drop] at this
  · rw [← List.tail_drop, segment]
    rfl

/-- A read opens a range unless one passes through; what passes through counts a read. -/
theorem scan_cons_opens {inst : Inst τ} {rest : List (Inst τ)} {o : OpenRange}
    (found : (scan reg block number live (inst :: rest)).1 = some o) :
    reg ∈ inst.uses ∧ (reg ∈ inst.defs ∨ (scan reg block (number + 1) live rest).1 = none) ∧ o = ⟨number, 1⟩ ∨
      reg ∉ inst.defs ∧ ∃ after, (scan reg block (number + 1) live rest).1 = some after ∧ o.stop = after.stop ∧
        o.count = after.count + if reg ∈ inst.uses then 1 else 0 := by
  by_cases writes : reg ∈ inst.defs <;> by_cases reads : reg ∈ inst.uses <;>
    cases after : (scan reg block (number + 1) live rest).1 <;> grind [scan, OpenRange.read]

theorem scan_starts (segment : all.drop number = insts ++ behind) {r : LiveRange}
    (member : r ∈ (scan reg block number live insts).2) : ∃ inst, all[r.start]? = some inst ∧ reg ∈ inst.defs := by
  induction insts generalizing number with
  | nil => cases member
  | cons inst rest ih =>
    obtain ⟨here, segment⟩ := segment_cons segment
    rcases mem_scan_cons.mp member with ⟨writes, rfl⟩ | member
    · rw [(closed_stop ..).1]
      exact ⟨inst, here, writes⟩
    · exact ih segment member

/-- Open ranges count from the start of the scan, closed ones from their own start. -/
theorem scan_counts (segment : all.drop number = insts ++ behind) (size : number + insts.length = last + 1)
    (reach : ∀ r, live = some r → r.stop = last ∧ r.count = 0) :
    (∀ o, (scan reg block number live insts).1 = some o → o.count = touches reg all number o.stop) ∧
      ∀ r ∈ (scan reg block number live insts).2, r.count = touches reg all r.start r.stop := by
  induction insts generalizing number with
  | nil =>
    rw [List.length_nil] at size
    refine ⟨fun o found => ?_, fun r member => by cases member⟩
    obtain ⟨stop, count⟩ := reach o found
    have first : number = o.stop + 1 := by omega
    rw [count, first, touches_succ_self]
  | cons inst rest ih =>
    rw [List.length_cons] at size
    obtain ⟨here, segment⟩ := segment_cons segment
    obtain ⟨opened, closed⟩ := ih segment (by omega)
    obtain ⟨low, -⟩ := @scan_within _ reg block (number + 1) last live rest (by omega) fun r found => (reach r found).1
    have only : touches reg all number number = if reg ∈ inst.uses ∨ reg ∈ inst.defs then 1 else 0 := by
      rw [touches_step here (Nat.le_refl number), touches_succ_self, Nat.zero_add]
    -- what is open behind the instruction reaches at least up to it
    have through (o : OpenRange) (found : (scan reg block (number + 1) live rest).1 = some o) :
        touches reg all number o.stop = o.count + if reg ∈ inst.uses ∨ reg ∈ inst.defs then 1 else 0 := by
      have bound := (low o found).1
      rw [touches_step here (by omega), opened o found]
    constructor
    · intro o found
      rcases scan_cons_opens found with ⟨reads, -, rfl⟩ | ⟨kept, after, found, stop, count⟩
      · rw [only, if_pos (.inl reads)]
      · simp [stop, count, through after found, kept]
    · intro r member
      rcases mem_scan_cons.mp member with ⟨writes, rfl⟩ | member
      · cases after : (scan reg block (number + 1) live rest).1 with
        | none => simp [OpenRange.closed, only, writes]
        | some o => simp [OpenRange.closed, through o after, writes]
      · exact closed r member

/-- One range ends before another starts, or where it starts if the instruction there reads and writes the register. -/
def Clear (reg : Reg) (insts : List (Inst τ)) (stop start : Nat) : Prop :=
  stop < start ∨ stop = start ∧ Rewrites reg insts start

theorem scan_clear (segment : all.drop number = insts ++ behind) (size : number + insts.length = last + 1)
    (reach : ∀ r, live = some r → r.stop = last ∧ r.count = 0) :
    (∀ o, (scan reg block number live insts).1 = some o →
      ∀ r ∈ (scan reg block number live insts).2, Clear reg all o.stop r.start) ∧
    (scan reg block number live insts).2.Pairwise fun a b => a.start < b.start ∧ Clear reg all a.stop b.start := by
  induction insts generalizing number with
  | nil =>
    refine ⟨fun o found r member => ?_, .nil⟩
    cases member
  | cons inst rest ih =>
    rw [List.length_cons] at size
    obtain ⟨here, segment⟩ := segment_cons segment
    obtain ⟨opened, closed⟩ := ih segment (by omega)
    have later (r : LiveRange) (member : r ∈ (scan reg block (number + 1) live rest).2) : number < r.start :=
      ((scan_within (by omega) fun r found => (reach r found).1).2 r member).2.1
    constructor
    · intro o found r member
      rcases mem_scan_cons.mp member with ⟨writes, rfl⟩ | member
      · rcases scan_cons_opens found with ⟨reads, -, rfl⟩ | ⟨kept, -⟩
        · rw [(closed_stop ..).1]
          exact .inr ⟨rfl, inst, here, reads, writes⟩
        · exact absurd writes kept
      · rcases scan_cons_opens found with ⟨-, -, rfl⟩ | ⟨-, after, found, stop, -⟩
        · exact .inl (later r member)
        · rw [stop]
          exact opened after found r member
    · by_cases writes : reg ∈ inst.defs
      · simp only [scan, writes, if_true, List.pairwise_cons]
        refine ⟨fun r member => ?_, closed⟩
        obtain ⟨start, -, ⟨-, stop⟩ | ⟨after, found, stop⟩⟩ :=
          closed_stop block number (scan reg block (number + 1) live rest).1
        · rw [start, stop]
          exact ⟨later r member, .inl (later r member)⟩
        · rw [start, stop]
          exact ⟨later r member, opened after found r member⟩
      · simpa only [scan, writes, if_false] using closed

/-! ## The ranges of a block -/

end LiveRanges

namespace LiveRange

theorem place_perm (r : LiveRange) (list : List LiveRange) : (r.place list).Perm (r :: list) := by
  induction list with
  | nil => exact .refl _
  | cons first rest ih =>
    unfold place
    split
    · exact (ih.cons first).trans (.swap ..)
    · exact .refl _

theorem place_sorted {r : LiveRange} {list : List LiveRange} (sorted : list.Pairwise fun a b => a.start ≤ b.start) :
    (r.place list).Pairwise fun a b => a.start ≤ b.start := by
  induction list with
  | nil => exact List.pairwise_singleton ..
  | cons first rest ih =>
    obtain ⟨least, sorted'⟩ := List.pairwise_cons.mp sorted
    unfold place
    split
    · next le =>
      refine List.pairwise_cons.mpr ⟨fun s member => ?_, ih sorted'⟩
      rcases mem_place.mp member with rfl | member
      · exact le
      · exact least s member
    · next less =>
      refine List.pairwise_cons.mpr ⟨fun s member => ?_, sorted⟩
      rcases List.mem_cons.mp member with rfl | member
      · omega
      · have := least s member
        omega

theorem Meet.symm {insts : List (Inst τ)} {a b : LiveRange} (meet : Meet reg insts a b) : Meet reg insts b a := by
  intro n inB inA
  obtain ⟨rewrites, only⟩ := meet n inA inB
  exact ⟨rewrites, fun n' inB' inA' => only n' inA' inB'⟩

theorem meet_of_clear {insts : List (Inst τ)} {a b : LiveRange} (clear : LiveRanges.Clear reg insts a.stop b.start) :
    Meet reg insts a b := by
  intro n inA inB
  unfold Covers at *
  rcases clear with less | ⟨same, rewrites⟩
  · omega
  · have here : n = b.start := by omega
    exact ⟨here ▸ rewrites, fun n' inA' inB' => by omega⟩

end LiveRange

namespace LiveRanges

section Block

variable {all insts behind : List (Inst τ)} {block first : Nat} {liveOut : Bool}
  (segment : all.drop first = insts ++ behind)

theorem atExit_reaches (r : OpenRange) (found : atExit first liveOut insts = some r) :
    r.stop = first + insts.length - 1 ∧ r.count = 0 := by
  refine ⟨atExit_stop found, ?_⟩
  cases liveOut with
  | false => cases found
  | true =>
    cases found
    rfl

include segment

theorem inBlock_starts {r : LiveRange} (member : r ∈ inBlock reg block first liveOut insts) :
    r.start = first ∨ ∃ inst, all[r.start]? = some inst ∧ reg ∈ inst.defs := by
  have nonempty : insts ≠ [] := fun empty => by simp [empty, inBlock] at member
  rcases (mem_inBlock nonempty).mp member with member | ⟨o, -, rfl⟩
  · exact .inr (scan_starts segment member)
  · exact .inl rfl

theorem inBlock_counts {r : LiveRange} (member : r ∈ inBlock reg block first liveOut insts) :
    r.count = touches reg all r.start r.stop := by
  have nonempty : insts ≠ [] := fun empty => by simp [empty, inBlock] at member
  have length := List.length_pos_iff.mpr nonempty
  have size : first + insts.length = first + insts.length - 1 + 1 := by omega
  obtain ⟨opened, closed⟩ := @scan_counts _ reg all insts behind block first _ (atExit first liveOut insts) segment size
    atExit_reaches
  rcases (mem_inBlock nonempty).mp member with member | ⟨o, found, rfl⟩
  · exact closed r member
  · exact opened o found

theorem inBlock_meet_sorted :
    (inBlock reg block first liveOut insts).Pairwise (LiveRange.Meet reg all) ∧
      (inBlock reg block first liveOut insts).Pairwise fun a b => a.start ≤ b.start := by
  by_cases nonempty : insts = []
  · simp [nonempty, inBlock]
  have length := List.length_pos_iff.mpr nonempty
  have size : first + insts.length = first + insts.length - 1 + 1 := by omega
  obtain ⟨opened, closed⟩ := @scan_clear _ reg all insts behind block first _ (atExit first liveOut insts) segment size
    atExit_reaches
  have meet : List.Pairwise (LiveRange.Meet reg all) _ := closed.imp fun both => LiveRange.meet_of_clear both.2
  have sorted : List.Pairwise (fun a b : LiveRange => a.start ≤ b.start) _ := closed.imp fun both => both.1.le
  rcases @inBlock_cases _ reg block first liveOut insts nonempty with ⟨-, shape⟩ | ⟨o, found, shape⟩
  · rw [shape]
    exact ⟨meet, sorted⟩
  · rw [shape]
    refine ⟨(LiveRange.place_perm _ _).symm.pairwise ?_ LiveRange.Meet.symm, LiveRange.place_sorted sorted⟩
    refine List.pairwise_cons.mpr ⟨fun r member => ?_, meet⟩
    exact LiveRange.meet_of_clear (opened o found r member)

end Block

end LiveRanges

/-! ## The ranges of a body -/

section Body

variable {body : Body} {outs : List RegSet}

theorem Body.entryNumber_eq (body : Body) (position : Nat) :
    entryNumber (body.blocks.map Block.insts) position = body.firstNumber position := by
  rw [entryNumber, Body.firstNumber_eq, ← List.map_take, List.flatMap_def]

theorem Body.flatten_insts (body : Body) : (body.blocks.map Block.insts).flatten = body.insts :=
  (List.flatMap_def ..).symm

theorem Body.drop_insts {position : Nat} {block : Block} (located : body.blocks[position]? = some block) :
    body.insts.drop (body.firstNumber position) =
      block.insts ++ (body.blocks.drop (position + 1)).flatMap Block.insts := by
  obtain ⟨bound, rfl⟩ := List.getElem?_eq_some_iff.mp located
  rw [Body.firstNumber_eq, Body.insts]
  conv_lhs => rw [← List.take_append_drop position body.blocks, List.flatMap_append]
  rw [List.take_append_drop, List.drop_left, List.drop_eq_getElem_cons bound, List.flatMap_cons]

namespace LiveRanges

/-- What holds of the ranges in each block and of any range that ends before another starts holds of all ranges of a
register in order. -/
theorem pairwise_ofReg {R : LiveRange → LiveRange → Prop}
    (inside : ∀ position block out, body.blocks[position]? = some block → outs[position]? = some out →
      (inBlock reg position (body.firstNumber position) (out.contains reg) block.insts).Pairwise R)
    (across : ∀ a b : LiveRange, a.Proper → b.Proper → a.stop < b.start → R a b) :
    (ofReg body outs reg).Pairwise R := by
  rw [ofReg, List.pairwise_flatMap]
  constructor
  · intro item member
    obtain ⟨k, found⟩ := List.mem_iff_getElem?.mp member
    obtain ⟨block, out, located, liveOut, rfl⟩ := getElem?_zip_outs found
    exact inside k block out located liveOut
  · rw [List.pairwise_iff_getElem]
    intro i j inI inJ less
    obtain ⟨_, _, locatedI, -, itemI⟩ := getElem?_zip_outs (List.getElem?_eq_getElem inI)
    obtain ⟨_, _, -, -, itemJ⟩ := getElem?_zip_outs (List.getElem?_eq_getElem inJ)
    rw [itemI, itemJ]
    intro a inA b inB
    obtain ⟨-, -, properA, stopA⟩ := inBlock_within inA
    obtain ⟨-, startB, properB, -⟩ := inBlock_within inB
    apply across a b properA properB
    -- the numbers of one block end where those of the next begin
    rw [← Body.firstNumber_succ locatedI] at stopA
    have := body.firstNumber_mono (show i + 1 ≤ j from less)
    omega

theorem blockBounds_eq_some {code : List (List (Inst τ))} {position : Nat} {insts : List (Inst τ)}
    (nonempty : insts ≠ []) :
    blockBounds code position insts =
      some (entryNumber code position, entryNumber code position + insts.length - 1) := if_neg nonempty

theorem ofReg_exact : Exact (body.blocks.map Block.insts) outs reg (ofReg body outs reg) := by
  constructor
  case within =>
    intro r member
    obtain ⟨position, block, out, located, -, member⟩ := mem_ofReg.mp member
    obtain ⟨rfl, start, proper, stop⟩ := inBlock_within member
    have nonempty : block.insts ≠ [] := fun empty => by simp [empty, inBlock] at member
    refine ⟨block.insts, _, _, by simp [located], blockBounds_eq_some nonempty, ?_, proper, ?_⟩
    · rwa [Body.entryNumber_eq]
    · rw [Body.entryNumber_eq]
      omega
  case covered =>
    intro position insts out located liveOut k inst here
    simp only [List.getElem?_map, Option.map_eq_some_iff] at located
    obtain ⟨block, located, rfl⟩ := located
    obtain ⟨bound, rfl⟩ := List.getElem?_eq_some_iff.mp here
    have split : block.insts = block.insts.take k ++ block.insts[k] :: block.insts.drop (k + 1) := by simp
    have length : (block.insts.take k).length = k := List.length_take_of_le (Nat.le_of_lt bound)
    have covers := @ofReg_covers_iff body outs reg position block out _ _ _ located liveOut split
    rw [length] at covers
    rw [Body.entryNumber_eq, List.drop_eq_getElem_cons bound]
    refine covers.trans ?_
    simp only [LiveBefore]
    tauto
  case starts =>
    intro r member
    obtain ⟨position, block, out, located, -, member⟩ := mem_ofReg.mp member
    rw [(inBlock_within member).1, Body.entryNumber_eq, Body.flatten_insts]
    exact inBlock_starts (Body.drop_insts located) member
  case counts =>
    intro r member
    obtain ⟨position, block, out, located, -, member⟩ := mem_ofReg.mp member
    rw [Body.flatten_insts]
    exact inBlock_counts (Body.drop_insts located) member
  case meet =>
    rw [Body.flatten_insts]
    apply pairwise_ofReg
    · exact fun position block out located _ => (inBlock_meet_sorted (Body.drop_insts located)).1
    · exact fun a b _ _ less => LiveRange.meet_of_clear (.inl less)
  case sorted =>
    apply pairwise_ofReg
    · exact fun position block out located _ => (inBlock_meet_sorted (Body.drop_insts located)).2
    · intro a b proper _ less
      unfold LiveRange.Proper at proper
      omega

theorem exact_nil (code : List (List (Inst τ))) (outs : List RegSet)
    (unnamed : ∀ insts ∈ code, ∀ inst ∈ insts, reg ∉ inst.uses ∧ reg ∉ inst.defs) (dead : ∀ out ∈ outs, reg ∉ out) :
    Exact code outs reg [] := by
  constructor
  case covered =>
    intro position insts out located liveOut k inst here
    have named := unnamed insts (List.mem_of_getElem? located)
    have nowhere (n : Nat) : ¬LiveBefore reg (reg ∈ out) (insts.drop n) := by
      intro alive
      rcases alive.read with ⟨other, member, reads⟩ | live
      · exact (named other (List.mem_of_mem_drop member)).1 reads
      · exact dead out (List.mem_of_getElem? liveOut) live
    have kept := (named inst (List.mem_of_getElem? here)).2
    simp [nowhere, kept]
  all_goals simp

theorem ranges_exact {tracked : Reg → Bool} (follows : tracked reg = true) :
    Exact (body.blocks.map Block.insts) (Liveness.ofBody tracked body).outs reg ((ofBody tracked body).ranges reg) := by
  rw [ranges_ofBody]
  split
  · exact ofReg_exact
  · next unknown =>
    simp only [Liveness.mem_regs, follows, true_and, not_exists, not_and, not_or] at unknown
    refine exact_nil _ _ (fun insts member inst inInsts => ?_) fun out member live => ?_
    · obtain ⟨block, inBody, rfl⟩ := List.mem_map.mp member
      exact unknown inst (List.mem_flatMap.mpr ⟨block, inBody, inInsts⟩)
    · obtain ⟨position, located⟩ := List.mem_iff_getElem?.mp member
      obtain ⟨-, inst, inBody, reads⟩ := Liveness.mem_used.mp (Liveness.used_of_outs located live)
      exact (unknown inst inBody).1 reads

end LiveRanges

end Body

/-! ## Instructions that name the same registers -/

/-- Two instructions read the same registers and write the same ones. -/
def Inst.Alike (inst : Inst τ) (inst' : Inst τ') : Prop := inst.uses = inst'.uses ∧ inst.defs = inst'.defs

section Alike

variable {insts : List (Inst τ)} {insts' : List (Inst τ')} {code : List (List (Inst τ))} {code' : List (List (Inst τ'))}

theorem liveBefore_alike (alike : List.Forall₂ Inst.Alike insts insts') {out : Prop} :
    LiveBefore reg out insts ↔ LiveBefore reg out insts' := by
  induction alike with
  | nil => rfl
  | cons first _ ih => simp only [LiveBefore, first.1, first.2, ih]

theorem countP_alike (alike : List.Forall₂ Inst.Alike insts insts') :
    (insts.countP fun inst => reg ∈ inst.uses ∨ reg ∈ inst.defs) =
      insts'.countP fun inst => reg ∈ inst.uses ∨ reg ∈ inst.defs := by
  induction alike with
  | nil => rfl
  | cons first _ ih => simp only [List.countP_cons, first.1, first.2, ih]

theorem rewrites_alike (alike : List.Forall₂ Inst.Alike insts insts') {n : Nat} (rewrites : Rewrites reg insts n) :
    Rewrites reg insts' n := by
  obtain ⟨inst, here, reads, writes⟩ := rewrites
  obtain ⟨inst', here', uses, defs⟩ := forall₂_getElem? alike here
  exact ⟨inst', here', uses ▸ reads, defs ▸ writes⟩

theorem entryNumber_alike (alike : List.Forall₂ (List.Forall₂ Inst.Alike) code code') (position : Nat) :
    entryNumber code position = entryNumber code' position :=
  (List.rel_flatten (List.forall₂_take position alike)).length_eq

theorem blockBounds_alike (alike : List.Forall₂ (List.Forall₂ Inst.Alike) code code') (position : Nat)
    (same : List.Forall₂ Inst.Alike insts insts') :
    blockBounds code position insts = blockBounds code' position insts' := by
  rw [blockBounds, blockBounds, entryNumber_alike alike, same.length_eq]
  cases same <;> simp

/-- Exactness sees only which registers instructions read and write. -/
theorem LiveRanges.Exact.alike {outs : List RegSet} {ranges : List LiveRange} (exact' : Exact code outs reg ranges)
    (alike : List.Forall₂ (List.Forall₂ Inst.Alike) code code') : Exact code' outs reg ranges := by
  have flat : List.Forall₂ Inst.Alike code.flatten code'.flatten := List.rel_flatten alike
  constructor
  case within =>
    intro r member
    obtain ⟨insts, entry, exit, located, bounds, inside⟩ := exact'.within r member
    obtain ⟨insts', located', same⟩ := forall₂_getElem? alike located
    exact ⟨insts', entry, exit, located', blockBounds_alike alike r.block same ▸ bounds, inside⟩
  case covered =>
    intro position insts' out located' liveOut k inst' here'
    obtain ⟨insts, located, same⟩ := forall₂_getElem? alike.flip located'
    obtain ⟨inst, here, -, defs⟩ := forall₂_getElem? same.flip here'
    rw [← entryNumber_alike alike, ← liveBefore_alike (List.forall₂_drop k same),
      ← liveBefore_alike (List.forall₂_drop (k + 1) same), ← defs]
    exact exact'.covered position insts out located liveOut k inst here
  case starts =>
    intro r member
    rw [← entryNumber_alike alike]
    apply (exact'.starts r member).imp_right
    rintro ⟨inst, here, writes⟩
    obtain ⟨inst', here', -, defs⟩ := forall₂_getElem? flat here
    exact ⟨inst', here', defs ▸ writes⟩
  case meet =>
    refine exact'.meet.imp fun meet n inA inB => ?_
    obtain ⟨rewrites, only⟩ := meet n inA inB
    exact ⟨rewrites_alike flat rewrites, only⟩
  case counts =>
    intro r member
    rw [exact'.counts r member]
    exact countP_alike (List.forall₂_take _ (List.forall₂_drop _ flat))
  case sorted => exact exact'.sorted

end Alike

/-! ## The ranges of a stored function -/

/-- Live ranges are exact for blocks of instructions: what is live at the start of a block is what is live before its
first instruction, and the ranges of each tracked register are exact. -/
structure LiveRanges.ExactFor (live : LiveRanges) (code : List (List (Inst τ))) (tracked : Reg → Bool) : Prop where
  entries : ∀ (position : Nat) (insts : List (Inst τ)), code[position]? = some insts →
    ∃ ins out, live.liveness.ins[position]? = some ins ∧ live.liveness.outs[position]? = some out ∧
      ∀ reg, reg ∈ ins ↔ tracked reg = true ∧ LiveBefore reg (reg ∈ out) insts
  ranges : ∀ reg, tracked reg = true → Exact code live.liveness.outs reg (live.ranges reg)

theorem LiveRanges.bounds_eq {body : Body} {code : List (List (Inst τ))}
    (alike : List.Forall₂ (List.Forall₂ Inst.Alike) (body.blocks.map Block.insts) code) :
    bounds body = code.mapIdx (blockBounds code) := by
  apply List.ext_getElem?
  intro position
  rw [bounds, List.getElem?_map, Body.getElem?_numbered, List.getElem?_mapIdx, Option.map_map]
  cases located : body.blocks[position]? with
  | none =>
    have beyond : code.length ≤ position := by
      have := List.getElem?_eq_none_iff.mp located
      rwa [← List.length_map, alike.length_eq] at this
    rw [List.getElem?_eq_none beyond]
    rfl
  | some block =>
    obtain ⟨insts, located', same⟩ := forall₂_getElem? alike (by rw [List.getElem?_map, located]; rfl)
    rw [located', Option.map_some, Option.map_some, ← blockBounds_alike alike position same]
    simp [blockBounds, Body.entryNumber_eq]

namespace Machine

variable {m : Machine} {code : BlockId → List InstId} {layout : FuncId → List BlockId} {f : FuncId} {body : Body}

theorem Formed.insts_alike (formed : m.Formed code layout) (found : m.body f = .ok body) :
    ∃ insts, (layout f).mapM m.blockInsts = .ok insts ∧ ((layout f).flatMap code).mapM m.inst = .ok insts.flatten ∧
      List.Forall₂ (List.Forall₂ Inst.Alike) (body.blocks.map Block.insts) insts := by
  have shows := (formed.body_shows found).2.2
  obtain ⟨insts, read⟩ : ∃ insts, (layout f).mapM m.blockInsts = .ok insts := by
    apply exists_mapM_eq_ok
    intro b member
    obtain ⟨position, located⟩ := List.mem_iff_getElem?.mp member
    obtain ⟨_, renders⟩ := formed.renders found located
    obtain ⟨insts, read, -⟩ := renders.insts
    exact ⟨insts, read⟩
  have stored : List.Forall₂ (fun b insts => List.Forall₂ (fun i inst => m.inst i = .ok inst) (code b) insts)
      (layout f) insts := by
    refine (mapM_eq_ok.mp read).imp fun b insts read => ?_
    simp only [blockInsts, bind_eq_ok, mapM_eq_ok] at read
    obtain ⟨ids, coded, stored⟩ := read
    exact formed.code_eq coded ▸ stored
  refine ⟨insts, read, ?_, ?_⟩
  · rw [mapM_eq_ok, List.flatMap_def]
    exact List.rel_flatten (List.forall₂_map_left_iff.mpr stored)
  · rw [List.forall₂_map_left_iff]
    refine (forall₂_comp shows.flip stored).imp fun block insts both => ?_
    obtain ⟨b, shown, stored⟩ := both
    refine (forall₂_comp shown.insts.flip stored).imp fun inst inst' both => ?_
    obtain ⟨i, ⟨known, here, targeted⟩, here'⟩ := both
    rw [here] at here'
    cases here'
    exact ⟨(Inst.retargeted targeted).uses, (Inst.retargeted targeted).defs⟩

theorem Formed.exactFor (formed : m.Formed code layout) (found : m.body f = .ok body) :
    ∃ insts ids, (layout f).mapM m.blockInsts = .ok insts ∧ m.instList f = .ok ids ∧ ids.mapM m.inst = .ok insts.flatten ∧
      LiveRanges.bounds body = insts.mapIdx (blockBounds insts) ∧
      ∀ tracked : Reg → Bool, (LiveRanges.ofBody tracked body).ExactFor insts tracked := by
  obtain ⟨insts, read, numbered, alike⟩ := formed.insts_alike found
  refine ⟨insts, _, read, (formed.body_shows found).2.1, numbered, LiveRanges.bounds_eq alike, fun tracked => ⟨?_, ?_⟩⟩
  · intro position code located
    obtain ⟨shown, located', same⟩ := forall₂_getElem? alike.flip located
    rw [List.getElem?_map, Option.map_eq_some_iff] at located'
    obtain ⟨block, located', rfl⟩ := located'
    obtain ⟨ins, out, inside, outside⟩ := @Liveness.ins_isSome tracked body position block located'
    refine ⟨ins, out, inside, outside, fun reg => ?_⟩
    rw [← liveBefore_alike same]
    exact Liveness.mem_ins located' inside outside
  · exact fun reg follows => (LiveRanges.ranges_exact follows).alike alike

end Machine

/-- Live ranges are exact within blocks. In a machine whose chains are sequences, let all branches of a function lead to
its own blocks: if the function has an entry, its instructions are numbered in layout order, and the live ranges of
every register that any predicate tracks are exact for them. Every function of a source text that has code is such a
function. -/
theorem live_ranges_exact_within_blocks :
    (∀ {m : Machine} {f : FuncId} {layout : List BlockId}, m.WellFormed → m.layout f = .ok layout →
      m.SelfContained layout →
      (layout = [] → m.body f = .error .noEntryBlock) ∧
      (layout ≠ [] → ∃ body insts ids, m.body f = .ok body ∧ layout.mapM m.blockInsts = .ok insts ∧
        m.instList f = .ok ids ∧ ids.mapM m.inst = .ok insts.flatten ∧
        LiveRanges.bounds body = insts.mapIdx (blockBounds insts) ∧
        ∀ tracked : Reg → Bool, (LiveRanges.ofBody tracked body).ExactFor insts tracked)) ∧
    ∀ {source : String} {m : Machine}, Source.read source = .ok m → m.WellFormed ∧
      ∀ f node, m.func f = .ok node → node.external = false →
        ∃ layout, m.layout f = .ok layout ∧ layout ≠ [] ∧ m.SelfContained layout := by
  refine ⟨fun {m f blocks} wellFormed laid contained => ⟨?_, fun filled => ?_⟩, fun {source m} read => ⟨?_, ?_⟩⟩
  · rintro rfl
    exact Machine.body_of_no_blocks laid
  · obtain ⟨code, layout, formed⟩ := wellFormed
    have same := formed.layout_eq laid
    subst same
    obtain ⟨body, found⟩ := formed.body_ok (formed.closed_of_selfContained contained) laid filled
    obtain ⟨insts, ids, exact'⟩ := formed.exactFor found
    exact ⟨body, insts, ids, found, exact'⟩
  · exact Source.read_wellFormed read
  · obtain ⟨code, layout, loaded⟩ := Source.read_loaded read
    exact fun f node known internal => loaded.selfContained known internal

/-- In the loop that counts down the count has two equal ranges at the instruction of the middle block, which reads the
old count and writes the new one, and the longer range of the last block stands before the shorter one. -/
theorem countdown_ranges_exact :
    ∃ (m : Machine) (layout : List BlockId) (body : Body) (insts : List (List (Inst BlockId))),
      Source.read countdown = .ok m ∧ m.WellFormed ∧ m.layout ⟨0⟩ = .ok layout ∧ m.SelfContained layout ∧
      m.body ⟨0⟩ = .ok body ∧ layout.mapM m.blockInsts = .ok insts ∧
      (LiveRanges.ofBody Reg.isTracked body).ranges (.virt ⟨0, .general⟩) =
        [⟨0, 0, 1, 1⟩, ⟨1, 2, 2, 1⟩, ⟨1, 2, 2, 1⟩, ⟨2, 3, 5, 2⟩, ⟨2, 3, 3, 1⟩] ∧
      (LiveRanges.ofBody Reg.isTracked body).ExactFor insts Reg.isTracked ∧
      Rewrites (.virt ⟨0, .general⟩) insts.flatten 2 ∧ touches (.virt ⟨0, .general⟩) insts.flatten 3 5 = 2 := by
  have run : (do
      let m ← (Source.read countdown).toOption
      let node ← (m.func ⟨0⟩).toOption
      let body ← (m.body ⟨0⟩).toOption
      return decide (node.external = false ∧
        (LiveRanges.ofBody Reg.isTracked body).ranges (.virt ⟨0, .general⟩) =
          [⟨0, 0, 1, 1⟩, ⟨1, 2, 2, 1⟩, ⟨1, 2, 2, 1⟩, ⟨2, 3, 5, 2⟩, ⟨2, 3, 3, 1⟩])) = some true := by
    decide +kernel
  simp only [bind, Option.bind_eq_some_iff, toOption_eq_some, pure, Option.some.injEq, decide_eq_true_eq] at run
  obtain ⟨m, read, node, known, body, found, internal, ranges⟩ := run
  obtain ⟨wellFormed, ready⟩ := live_ranges_exact_within_blocks.2 read
  obtain ⟨layout, laid, filled, contained⟩ := ready _ node known internal
  obtain ⟨body', insts, _, found', inBlocks, -, -, -, exactFor⟩ :=
    (live_ranges_exact_within_blocks.1 wellFormed laid contained).2 filled
  rw [found] at found'
  cases found'
  have exact' := (exactFor Reg.isTracked).ranges (.virt ⟨0, .general⟩) rfl
  rw [ranges] at exact'
  refine ⟨m, layout, body, insts, read, wellFormed, laid, contained, found, inBlocks, ranges, exactFor Reg.isTracked,
    ?_, ?_⟩
  · have meet := (List.pairwise_cons.mp (List.pairwise_cons.mp exact'.meet).2).1 ⟨1, 2, 2, 1⟩ (by simp)
    exact (meet 2 (by simp [LiveRange.Covers]) (by simp [LiveRange.Covers])).1
  · exact (exact'.counts ⟨2, 3, 5, 2⟩ (by simp)).symm

end RegisterAllocator
