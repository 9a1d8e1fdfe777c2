import RegisterAllocator.Proofs.Liveness

/-!
# The scan for all registers at once

The live ranges of a body are found by one backward scan of each block, which follows all registers at once and keeps
what it finds in two maps. What it finds for one register is what a scan for that register alone finds
(`RangeScan.found_scan`), latest first; sorted by start they are the ranges of the register (`LiveRanges.table_ofBody`).
-/

namespace RegisterAllocator

variable {τ : Type}

theorem nodup_eraseDups {α : Type} [DecidableEq α] (list : List α) : list.eraseDups.Nodup := by
  induction list using List.reverseRecOn with
  | nil => exact .nil
  | append_singleton list a ih =>
    rw [List.eraseDups_append]
    by_cases member : a ∈ list
    · simpa [List.removeAll, member] using ih
    · have apart : ∀ b ∈ list, b ≠ a := fun b inside same => member (same ▸ inside)
      simpa [List.removeAll, member, List.eraseDups_cons, List.nodup_append, ih] using apart

/-! ## Sorting -/

namespace LiveRange

theorem place_append {r : LiveRange} {earlier list : List LiveRange} (before : ∀ a ∈ earlier, a.start ≤ r.start) :
    r.place (earlier ++ list) = earlier ++ r.place list := by
  induction earlier with
  | nil => rfl
  | cons a earlier ih =>
    obtain ⟨here, before⟩ := List.forall_mem_cons.mp before
    rw [List.cons_append, place, if_pos here, ih before]
    rfl

theorem place_of_lt {r : LiveRange} {list : List LiveRange} (behind : ∀ a ∈ list, r.start < a.start) :
    r.place list = r :: list := by
  cases list with
  | nil => rfl
  | cons a list => rw [place, if_neg (Nat.not_le.mpr (behind a List.mem_cons_self))]

theorem mem_sort {r : LiveRange} {list : List LiveRange} : r ∈ sort list ↔ r ∈ list := by
  induction list using List.reverseRecOn with
  | nil => rfl
  | append_singleton list a ih =>
    rw [sort, List.foldl_append, List.foldl_cons, List.foldl_nil, mem_place, ← sort, ih, List.mem_append,
      List.mem_singleton, or_comm]

theorem sort_append {first second : List LiveRange} (order : ∀ a ∈ first, ∀ b ∈ second, a.start ≤ b.start) :
    sort (first ++ second) = sort first ++ sort second := by
  induction second using List.reverseRecOn with
  | nil => simp [sort]
  | append_singleton second b ih =>
    have last (list : List LiveRange) : sort (list ++ [b]) = b.place (sort list) := by
      rw [sort, List.foldl_append]
      rfl
    rw [← List.append_assoc, last, last, ih fun a inA c inC => order a inA c (List.mem_append_left _ inC)]
    exact place_append fun a inA => order a (mem_sort.mp inA) b (by simp)

theorem sort_flatten {groups : List (List LiveRange)}
    (order : groups.Pairwise fun xs ys => ∀ a ∈ xs, ∀ b ∈ ys, a.start ≤ b.start) :
    sort groups.flatten = (groups.map sort).flatten := by
  induction groups with
  | nil => rfl
  | cons group rest ih =>
    obtain ⟨first, order⟩ := List.pairwise_cons.mp order
    rw [List.flatten_cons, sort_append, ih order, List.map_cons, List.flatten_cons]
    intro a inA b inB
    obtain ⟨ys, member, inB⟩ := List.mem_flatten.mp inB
    exact first ys member a inA b inB

/-- Ranges that were found from the last to the first. -/
theorem sort_reverse {list : List LiveRange} (order : list.Pairwise fun a b => a.start < b.start) :
    sort list.reverse = list := by
  induction list with
  | nil => rfl
  | cons a list ih =>
    obtain ⟨first, order⟩ := List.pairwise_cons.mp order
    rw [List.reverse_cons, sort, List.foldl_append, ← sort, ih order]
    exact place_of_lt first

end LiveRange

/-! ## One register of the scan -/

namespace RangeScan

variable {s : RangeScan} {reg other : Reg} {block number : Nat} {tracked : Reg → Bool}

def found (s : RangeScan) (reg : Reg) : Option OpenRange × List LiveRange :=
  (s.pending.find? reg, (s.ranges.find? reg).getD [])

theorem found_push (s : RangeScan) (reg : Reg) (r : LiveRange) (other : Reg) : (s.push reg r).found other =
    ((s.found other).1, if other = reg then (s.found other).2 ++ [r] else (s.found other).2) := by
  by_cases same : other = reg <;> simp [found, push, same]

theorem found_write (s : RangeScan) (reg other : Reg) : (s.write block number reg).found other =
    if other = reg then (none, (s.found other).2 ++ [OpenRange.closed block number (s.found other).1])
    else s.found other := by
  by_cases same : other = reg <;> simp [found, write, push, same]

theorem found_read (s : RangeScan) (reg other : Reg) : (s.read number reg).found other =
    if other = reg then (some (OpenRange.read number (s.found other).1), (s.found other).2) else s.found other := by
  by_cases same : other = reg <;> simp [found, read, same]

theorem found_foldl {step : RangeScan → Reg → RangeScan}
    (change : Option OpenRange × List LiveRange → Option OpenRange × List LiveRange)
    (single : ∀ s reg other, (step s reg).found other = if other = reg then change (s.found other) else s.found other)
    {regs : List Reg} (once : regs.Nodup) (s : RangeScan) (other : Reg) :
    (regs.foldl step s).found other = if other ∈ regs then change (s.found other) else s.found other := by
  induction regs generalizing s with
  | nil => rfl
  | cons reg regs ih =>
    obtain ⟨fresh, once⟩ := List.nodup_cons.mp once
    rw [List.foldl_cons, ih once, single]
    by_cases same : other = reg
    · subst same
      simp [fresh]
    · simp [same]

theorem found_pass (s : RangeScan) (inst : Inst τ) (number : Nat) (other : Reg) :
    (s.pass tracked block inst number).found other =
      let between := if tracked other = true ∧ other ∈ inst.defs then
        (none, (s.found other).2 ++ [OpenRange.closed block number (s.found other).1]) else s.found other
      if tracked other = true ∧ other ∈ inst.uses then (some (OpenRange.read number between.1), between.2)
      else between := by
  have listed (regs : List Reg) : other ∈ (regs.filter tracked).eraseDups ↔ tracked other = true ∧ other ∈ regs := by
    rw [List.mem_eraseDups, List.mem_filter, and_comm]
  rw [pass, found_foldl (fun seen => (some (OpenRange.read number seen.1), seen.2)) found_read (nodup_eraseDups _),
    found_foldl (fun seen => (none, seen.2 ++ [OpenRange.closed block number seen.1])) found_write (nodup_eraseDups _)]
  simp only [listed]

/-- The scan finds for a register that is followed what a scan for that register alone finds. -/
theorem found_scan (follows : tracked reg = true) (insts : List (Inst τ)) (number : Nat) (s : RangeScan) :
    ((insts.zipIdx number).foldr (fun (inst, number) s => s.pass tracked block inst number) s).found reg =
      let (live, ranges) := LiveRanges.scan reg block number (s.found reg).1 insts
      (live, (s.found reg).2 ++ ranges.reverse) := by
  induction insts generalizing number with
  | nil => simp [LiveRanges.scan]
  | cons inst rest ih =>
    rw [List.zipIdx_cons, List.foldr_cons, found_pass, ih]
    by_cases writes : reg ∈ inst.defs <;> by_cases reads : reg ∈ inst.uses <;>
      simp [LiveRanges.scan, follows, writes, reads]

/-- The scan finds nothing for a register that is not followed. -/
theorem found_scan_untracked (apart : tracked reg = false) (insts : List (Inst τ)) (number : Nat) (s : RangeScan) :
    ((insts.zipIdx number).foldr (fun (inst, number) s => s.pass tracked block inst number) s).found reg =
      s.found reg := by
  induction insts generalizing number with
  | nil => rfl
  | cons inst rest ih =>
    rw [List.zipIdx_cons, List.foldr_cons, found_pass, ih]
    simp [apart]

/-! ## Blocks -/

theorem find?_atExit (out : RegSet) (o : OpenRange) (reg : Reg) :
    (out.toList.foldl (fun pending reg => pending.insert reg o) ∅ : RegMap OpenRange).find? reg =
      if reg ∈ out then some o else none := by
  have fold (regs : List Reg) (start : RegMap OpenRange) :
      (regs.foldl (fun pending reg => pending.insert reg o) start).find? reg =
        if reg ∈ regs then some o else start.find? reg := by
    induction regs generalizing start with
    | nil => rfl
    | cons first regs ih =>
      rw [List.foldl_cons, ih, RegMap.find?_insert]
      by_cases member : reg ∈ regs <;> by_cases same : reg = first <;> simp [member, same]
  simpa using fold out.toList ∅

theorem found_flush (range : OpenRange → LiveRange) (s : RangeScan) (reg : Reg) :
    ((s.pending.rows.foldl (fun s (reg, r) => s.push reg (range r)) s).found reg).2 =
      (s.found reg).2 ++ ((s.found reg).1.map range).toList := by
  have fold (rows : List (Reg × OpenRange)) (s : RangeScan) :
      ((rows.foldl (fun s (reg, r) => s.push reg (range r)) s).found reg).2 =
        (s.found reg).2 ++ (rows.filter (·.1 = reg)).map fun row => range row.2 := by
    induction rows generalizing s with
    | nil => simp
    | cons row rows ih =>
      rw [List.foldl_cons, ih, found_push]
      by_cases same : row.1 = reg
      · simp [same]
      · simp [same, Ne.symm same]
  have single (rows : List (Reg × OpenRange)) (ascending : rows.Pairwise fun a b => a.1.key < b.1.key) :
      rows.filter (·.1 = reg) = (rows.find? (·.1 = reg)).toList := by
    induction rows with
    | nil => rfl
    | cons row rows ih =>
      obtain ⟨least, ascending⟩ := List.pairwise_cons.mp ascending
      by_cases same : row.1 = reg
      · have none : rows.filter (·.1 = reg) = [] := by
          refine List.filter_eq_nil_iff.mpr fun other member again => ?_
          have less := least other member
          rw [same, of_decide_eq_true again] at less
          exact Nat.lt_irrefl _ less
        simp [same, none]
      · simp [same, ih ascending]
  rw [fold, single _ s.pending.ascending]
  cases first : s.pending.rows.find? (·.1 = reg) <;> simp [found, RegMap.find?, first]

/-- The range that is open at the start of a block. -/
def atEntry (position first : Nat) (r : OpenRange) : LiveRange :=
  { block := position, start := first, stop := r.stop, count := r.count }

/-- The ranges of a register in a block in the order in which the scan finds them. -/
def inOrder (reg : Reg) (position first : Nat) (liveOut : Bool) (insts : List (Inst τ)) : List LiveRange :=
  if insts.isEmpty then []
  else
    let (live, ranges) := LiveRanges.scan reg position first (LiveRanges.atExit first liveOut insts) insts
    ranges.reverse ++ (live.map (atEntry position first)).toList

theorem find?_block {position first : Nat} {out : RegSet} (insts : List (Inst τ)) (ranges : RegMap (List LiveRange))
    (follows : ∀ reg ∈ out, tracked reg = true) :
    ((RangeScan.block tracked position first out insts ranges).find? reg).getD [] = (ranges.find? reg).getD [] ++
      if tracked reg then inOrder reg position first (out.contains reg) insts else [] := by
  unfold RangeScan.block inOrder
  split
  · simp
  · refine (found_flush (atEntry position first) _ reg).trans ?_
    cases tracks : tracked reg with
    | true =>
      rw [found_scan tracks]
      simp [found, find?_atExit, LiveRanges.atExit]
    | false =>
      have outside : reg ∉ out := fun member => by simp [follows reg member] at tracks
      rw [found_scan_untracked tracks]
      simp [found, find?_atExit, outside]

theorem find?_blocks {items : List (((Nat × Block) × RegSet) × Nat)}
    (follows : ∀ item ∈ items, ∀ reg ∈ item.1.2, tracked reg = true) (ranges : RegMap (List LiveRange)) :
    ((items.foldl (fun ranges (((first, block), out), position) =>
      RangeScan.block tracked position first out block.insts ranges) ranges).find? reg).getD [] =
    (ranges.find? reg).getD [] ++ if tracked reg then items.flatMap fun (((first, block), out), position) =>
      inOrder reg position first (out.contains reg) block.insts else [] := by
  induction items generalizing ranges with
  | nil => simp
  | cons item items ih =>
    obtain ⟨here, follows⟩ := List.forall_mem_cons.mp follows
    rw [List.foldl_cons, ih follows, find?_block _ _ here]
    split <;> simp

/-- A register with a row has a range. -/
def Filled (ranges : RegMap (List LiveRange)) : Prop := ∀ reg, ranges.find? reg ≠ some []

theorem Filled.push (filled : Filled s.ranges) (reg : Reg) (r : LiveRange) : Filled (s.push reg r).ranges := by
  intro other
  by_cases same : other = reg
  · simp [RangeScan.push, same]
  · simpa [RangeScan.push, same] using filled other

theorem Filled.foldl {α : Type} {step : RangeScan → α → RangeScan}
    (single : ∀ s a, Filled s.ranges → Filled (step s a).ranges) (filled : Filled s.ranges) (list : List α) :
    Filled (list.foldl step s).ranges := by
  induction list generalizing s with
  | nil => exact filled
  | cons a list ih => exact ih (single s a filled)

theorem Filled.inBlock {ranges : RegMap (List LiveRange)} (filled : Filled ranges) (position first : Nat) (out : RegSet)
    (insts : List (Inst τ)) : Filled (RangeScan.block tracked position first out insts ranges) := by
  have passed (s : RangeScan) (filled : Filled s.ranges) (inst : Inst τ) (number : Nat) :
      Filled (s.pass tracked position inst number).ranges := by
    have writes (s : RangeScan) (reg : Reg) (filled : Filled s.ranges) : Filled (s.write position number reg).ranges :=
      Filled.push (s := { s with pending := s.pending.erase reg }) filled _ _
    have reads (s : RangeScan) (reg : Reg) (filled : Filled s.ranges) : Filled (s.read number reg).ranges := filled
    exact Filled.foldl reads (Filled.foldl writes filled _) _
  unfold RangeScan.block
  split
  · exact filled
  · refine Filled.foldl (fun _ _ filled => filled.push _ _) ?_ _
    induction insts.zipIdx first with
    | nil => exact filled
    | cons item items ih => exact passed _ ih item.1 item.2

theorem Filled.inBody (body : Body) (outs : List RegSet) : Filled (RangeScan.body tracked body outs) := by
  unfold RangeScan.body
  have blocks (items : List (((Nat × Block) × RegSet) × Nat)) (ranges : RegMap (List LiveRange))
      (filled : Filled ranges) : Filled (items.foldl (fun ranges (((first, block), out), position) =>
        RangeScan.block tracked position first out block.insts ranges) ranges) := by
    induction items generalizing ranges with
    | nil => exact filled
    | cons item items ih => exact ih _ (filled.inBlock _ _ _ _)
  exact blocks _ _ fun reg => by simp

theorem mem_inOrder {position first : Nat} {liveOut : Bool} {insts : List (Inst τ)} {r : LiveRange} :
    r ∈ inOrder reg position first liveOut insts ↔ r ∈ LiveRanges.inBlock reg position first liveOut insts := by
  by_cases empty : insts = []
  · simp [inOrder, LiveRanges.inBlock, empty]
  · rw [LiveRanges.mem_inBlock empty]
    simp only [inOrder, List.isEmpty_iff, empty, if_false, List.mem_append, List.mem_reverse, Option.mem_toList,
      Option.map_eq_some_iff, atEntry]
    exact or_congr_right (exists_congr fun o => and_congr_right fun _ => eq_comm)

/-- A scan closes at most one range of a register at an instruction. -/
theorem scan_ascends (reg : Reg) (block number : Nat) (live : Option OpenRange) (insts : List (Inst τ)) :
    (∀ r ∈ (LiveRanges.scan reg block number live insts).2, number ≤ r.start) ∧
      (LiveRanges.scan reg block number live insts).2.Pairwise fun a b => a.start < b.start := by
  induction insts generalizing number with
  | nil => exact ⟨nofun, .nil⟩
  | cons inst rest ih =>
    obtain ⟨later, ascends⟩ := ih (number + 1)
    have start := (LiveRanges.closed_stop block number (LiveRanges.scan reg block (number + 1) live rest).1).1
    constructor
    · intro r member
      rcases LiveRanges.mem_scan_cons.mp member with ⟨-, rfl⟩ | member
      · exact start.ge
      · exact Nat.le_of_succ_le (later r member)
    · by_cases writes : reg ∈ inst.defs
      · simp only [LiveRanges.scan, writes, if_true]
        refine List.pairwise_cons.mpr ⟨fun r member => ?_, ascends⟩
        rw [start]
        exact later r member
      · simpa [LiveRanges.scan, writes] using ascends

theorem sort_inOrder (reg : Reg) (position first : Nat) (liveOut : Bool) (insts : List (Inst τ)) :
    LiveRange.sort (inOrder reg position first liveOut insts) =
      LiveRanges.inBlock reg position first liveOut insts := by
  by_cases empty : insts = []
  · simp [inOrder, LiveRanges.inBlock, empty, LiveRange.sort]
  · obtain ⟨-, ascends⟩ := scan_ascends reg position first (LiveRanges.atExit first liveOut insts) insts
    have closed := LiveRange.sort_reverse ascends
    rcases @LiveRanges.inBlock_cases _ reg position first liveOut insts empty with ⟨none, same⟩ | ⟨o, opened, same⟩
    · rw [same]
      simpa [inOrder, empty, none] using closed
    · rw [same]
      unfold LiveRange.sort at closed ⊢
      simp [inOrder, empty, opened, closed, atEntry]

end RangeScan

/-! ## Bodies -/

namespace LiveRanges

variable {tracked : Reg → Bool} {body : Body} {outs : List RegSet} {reg : Reg}

theorem getElem?_zip_outs {k : Nat} {item : ((Nat × Block) × RegSet) × Nat}
    (found : (body.numbered.zip outs).zipIdx[k]? = some item) :
    ∃ block out, body.blocks[k]? = some block ∧ outs[k]? = some out ∧
      item = (((body.firstNumber k, block), out), k) := by
  simp only [List.getElem?_zipIdx, Option.map_eq_some_iff, Nat.zero_add] at found
  obtain ⟨⟨⟨first, block⟩, out⟩, found, rfl⟩ := found
  simp only [List.getElem?_zip_eq_some, Body.getElem?_numbered, Option.map_eq_some_iff, Prod.mk.injEq] at found
  obtain ⟨⟨_, located, rfl, rfl⟩, liveOut⟩ := found
  exact ⟨_, out, located, liveOut, rfl⟩

theorem sort_found (body : Body) (outs : List RegSet) (reg : Reg) :
    LiveRange.sort ((body.numbered.zip outs).zipIdx.flatMap fun (((first, block), out), position) =>
      RangeScan.inOrder reg position first (out.contains reg) block.insts) = ofReg body outs reg := by
  rw [List.flatMap_def, LiveRange.sort_flatten, List.map_map, ofReg, List.flatMap_def]
  · congr 1
    refine List.map_congr_left fun item _ => ?_
    exact RangeScan.sort_inOrder ..
  · rw [List.pairwise_map, List.pairwise_iff_getElem]
    intro i j inI inJ less
    obtain ⟨_, _, locatedI, -, itemI⟩ := getElem?_zip_outs (List.getElem?_eq_getElem inI)
    obtain ⟨_, _, -, -, itemJ⟩ := getElem?_zip_outs (List.getElem?_eq_getElem inJ)
    rw [itemI, itemJ]
    intro a inA b inB
    obtain ⟨-, -, proper, stop⟩ := inBlock_within (RangeScan.mem_inOrder.mp inA)
    obtain ⟨-, start, -, -⟩ := inBlock_within (RangeScan.mem_inOrder.mp inB)
    -- the numbers of one block end where those of the next begin
    rw [← Body.firstNumber_succ locatedI] at stop
    have order := body.firstNumber_mono (show i + 1 ≤ j from less)
    unfold LiveRange.Proper at proper
    omega

theorem ofReg_ne_nil (follows : tracked reg = true) :
    ofReg body (Liveness.ofBody tracked body).outs reg ≠ [] ↔ reg ∈ Liveness.regs tracked body := by
  rw [Liveness.mem_regs]
  constructor
  · intro nonempty
    obtain ⟨r, member⟩ := List.exists_mem_of_ne_nil _ nonempty
    obtain ⟨position, block, out, located, liveOut, member⟩ := mem_ofReg.mp member
    refine ⟨follows, ?_⟩
    obtain ⟨-, start, proper, stop⟩ := inBlock_within member
    unfold LiveRange.Proper at proper
    -- the instruction at the start of the range
    have inside : r.start - body.firstNumber position < block.insts.length := by omega
    have split := List.take_append_drop (r.start - body.firstNumber position) block.insts
    rw [List.drop_eq_getElem_cons inside] at split
    have length : (block.insts.take (r.start - body.firstNumber position)).length =
        r.start - body.firstNumber position := List.length_take_of_le inside.le
    rw [← split] at member
    have inBody (inst : Inst Nat) (inBlock : inst ∈ block.insts) : inst ∈ body.insts :=
      List.mem_flatMap.mpr ⟨block, List.mem_of_getElem? located, inBlock⟩
    rcases inBlock_covers member (by omega) (by omega) with reads | writes | alive
    · exact ⟨_, inBody _ (List.getElem_mem inside), .inl reads⟩
    · exact ⟨_, inBody _ (List.getElem_mem inside), .inr writes⟩
    · rcases alive.read with ⟨inst, later, reads⟩ | out
      · exact ⟨inst, inBody _ (List.mem_of_mem_drop later), .inl reads⟩
      · obtain ⟨-, inst, inside, reads⟩ := Liveness.mem_used.mp (Liveness.used_of_outs liveOut (by simpa using out))
        exact ⟨inst, inside, .inl reads⟩
  · rintro ⟨-, inst, inBody, touched⟩ none
    obtain ⟨block, inBlocks, inBlock⟩ := List.mem_flatMap.mp inBody
    obtain ⟨position, located⟩ := List.mem_iff_getElem?.mp inBlocks
    obtain ⟨pre, post, split⟩ := List.append_of_mem inBlock
    obtain ⟨-, out, -, liveOut⟩ : ∃ regs out, (Liveness.ofBody tracked body).ins[position]? = some regs ∧ _ :=
      Liveness.ins_isSome located
    have covered := (ofReg_covers_iff located liveOut split).mpr (touched.imp_right .inl)
    rw [none] at covered
    obtain ⟨r, member, -⟩ := covered
    cases member

def scanned (tracked : Reg → Bool) (body : Body) : RegMap (List LiveRange) :=
  RangeScan.body tracked body (Liveness.ofBody tracked body).outs

theorem sort_scanned (tracked : Reg → Bool) (body : Body) (reg : Reg) :
    LiveRange.sort (((scanned tracked body).find? reg).getD []) =
      if tracked reg then ofReg body (Liveness.ofBody tracked body).outs reg else [] := by
  have follows : ∀ item ∈ (body.numbered.zip (Liveness.ofBody tracked body).outs).zipIdx,
      ∀ reg ∈ item.1.2, tracked reg = true := by
    intro item member reg live
    obtain ⟨k, found⟩ := List.mem_iff_getElem?.mp member
    obtain ⟨block, out, -, liveOut, rfl⟩ := getElem?_zip_outs found
    exact Liveness.tracked_of_outs liveOut live
  rw [scanned, RangeScan.body, RangeScan.find?_blocks follows, RegMap.find?_empty, Option.getD_none, List.nil_append]
  split
  · exact sort_found ..
  · rfl

theorem mem_scanned_iff {reg : Reg} :
    reg ∈ (scanned tracked body).rows.map Prod.fst ↔ reg ∈ Liveness.regs tracked body := by
  have row : reg ∈ (scanned tracked body).rows.map Prod.fst ↔ ∃ r, r ∈ ((scanned tracked body).find? reg).getD [] := by
    rw [List.mem_map]
    constructor
    · rintro ⟨row, member, rfl⟩
      have value : (scanned tracked body).find? row.1 = some row.2 := RegMap.find?_eq_some.mpr member
      rw [value]
      refine List.exists_mem_of_ne_nil _ fun empty => RangeScan.Filled.inBody body _ row.1 (value.trans ?_)
      exact congrArg some empty
    · rintro ⟨r, member⟩
      cases value : (scanned tracked body).find? reg with
      | none => simp [value] at member
      | some list => exact ⟨(reg, list), RegMap.find?_eq_some.mp value, rfl⟩
  have sorted := sort_scanned tracked body reg
  simp only [row, ← @LiveRange.mem_sort _ (((scanned tracked body).find? reg).getD []), sorted]
  split
  · next tracks =>
    rw [← ofReg_ne_nil tracks]
    exact ⟨fun ⟨_, member⟩ => List.ne_nil_of_mem member, List.exists_mem_of_ne_nil _⟩
  · next apart => simp [Liveness.mem_regs, apart]

/-- The table of live ranges, register by register. -/
theorem table_ofBody (tracked : Reg → Bool) (body : Body) :
    (ofBody tracked body).table = (Liveness.regs tracked body).toList.map fun reg =>
      (reg, ofReg body (Liveness.ofBody tracked body).outs reg) := by
  have ascending : ((scanned tracked body).rows.map Prod.fst).Pairwise fun a b => a.key < b.key :=
    List.pairwise_map.mpr (scanned tracked body).ascending
  have keys : (⟨_, ascending⟩ : RegSet) = Liveness.regs tracked body := RegSet.ext fun _ => mem_scanned_iff
  rw [← keys]
  refine (List.map_congr_left fun row member => ?_).trans (List.map_map ..).symm
  have value : (scanned tracked body).find? row.1 = some row.2 := RegMap.find?_eq_some.mpr member
  have tracks := (Liveness.mem_regs.mp (mem_scanned_iff.mp (List.mem_map_of_mem member))).1
  have sorted := sort_scanned tracked body row.1
  rw [value, Option.getD_some, if_pos tracks] at sorted
  exact Prod.ext rfl sorted

theorem lookup_table {α β : Type} [DecidableEq α] (keys : List α) (value : α → β) (key : α) :
    (keys.map fun key => (key, value key)).lookup key = if key ∈ keys then some (value key) else none := by
  induction keys with
  | nil => rfl
  | cons first rest ih =>
    by_cases same : key = first
    · simp [same]
    · have differ : (key == first) = false := by simpa using same
      simp [List.lookup_cons, differ, ih, same]

theorem ranges_ofBody (tracked : Reg → Bool) (body : Body) (reg : Reg) :
    (ofBody tracked body).ranges reg = if reg ∈ Liveness.regs tracked body then
      ofReg body (Liveness.ofBody tracked body).outs reg else [] := by
  simp only [ranges, table_ofBody, lookup_table, RegSet.mem_toList]
  split <;> rfl

theorem ranges_proper {tracked : Reg → Bool} {body : Body} {reg : Reg} {r : LiveRange}
    (member : r ∈ (ofBody tracked body).ranges reg) : r.Proper := by
  rw [ranges_ofBody] at member
  split at member
  · exact ofReg_proper member
  · cases member

/-! ## What ranges go over -/

/-- The ranges of virtual registers go over every instruction that names the register, and over instructions only. -/
structure Spans (live : LiveRanges) (body : Body) : Prop where
  covers : ∀ (n : Nat) inst (v : VirtReg), body.insts[n]? = some inst → .virt v ∈ inst.uses ∨ .virt v ∈ inst.defs →
    ∃ r ∈ live.ranges v, n ∈ r.numbers
  within : ∀ (v : VirtReg), ∀ r ∈ live.ranges v, ∀ n ∈ r.numbers, n < body.insts.length

theorem mem_numbers {r : LiveRange} {n : Nat} : n ∈ r.numbers ↔ r.start ≤ n ∧ n ≤ r.stop := by
  rw [LiveRange.numbers, List.mem_range'_1]
  omega

theorem spans_ofBody (body : Body) : (ofBody Reg.isTracked body).Spans body where
  covers n inst v located touched := by
    obtain ⟨position, block, pre, post, inBody, split, rfl⟩ := Body.exists_place located
    obtain ⟨-, out, -, liveOut⟩ :
        ∃ regs out, (Liveness.ofBody Reg.isTracked body).ins[position]? = some regs ∧ _ := Liveness.ins_isSome inBody
    obtain ⟨r, member, -, covers⟩ := (ofReg_covers_iff inBody liveOut split).mpr (touched.imp_right .inl)
    refine ⟨r, ?_, mem_numbers.mpr covers⟩
    rw [ranges_ofBody, if_pos (Liveness.mem_regs.mpr ⟨rfl, inst, List.mem_of_getElem? located, touched⟩)]
    exact member
  within v r member n inRange := by
    rw [ranges_ofBody] at member
    split at member
    · obtain ⟨position, block, out, inBody, -, member⟩ := mem_ofReg.mp member
      have stop := (inBlock_within member).2.2.2
      have inside := (mem_numbers.mp inRange).2
      have last := body.firstNumber_mono (List.getElem?_eq_some_iff.mp inBody).1
      rw [Nat.succ_eq_add_one, Body.firstNumber_succ inBody, ← Body.size, body.firstNumber_size] at last
      omega
    · cases member

end LiveRanges

end RegisterAllocator
