import Mathlib.Algebra.Ring.Nat
import Mathlib.Data.List.Basic
import RegisterAllocator.Liveness.Ranges

/-!
# Live ranges and liveness

A block runs from its first instruction to its last, so what is live at its end fixes what is live before each of its
instructions (`LiveBefore`). The ranges that a backward scan finds for one register (`LiveRanges.ofReg`) are compared with
that: a point at which a register is live lies in a range (`scan_through`), and a range has no instruction that the
register has nothing to do with (`scan_covers`). Two registers whose ranges do not conflict never hold their values at the
same time (`conflict_of_write`, `conflict_of_reads`).
-/

namespace RegisterAllocator

variable {τ : Type}

/-- Whether a register is live before instructions that run in order, `out` being whether it is live behind them. -/
def LiveBefore (reg : Reg) (out : Prop) : List (Inst τ) → Prop
  | [] => out
  | inst :: rest => reg ∈ inst.uses ∨ reg ∉ inst.defs ∧ LiveBefore reg out rest

namespace LiveRange

def Proper (r : LiveRange) : Prop := r.start ≤ r.stop

theorem conflicts_symm {a b : LiveRange} (ha : a.Proper) (hb : b.Proper) : a.conflicts b = b.conflicts a := by
  unfold Proper at ha hb
  apply Bool.eq_iff_iff.mpr
  simp only [conflicts, Bool.or_eq_true, Bool.and_eq_true, decide_eq_true_eq]
  omega

theorem anyConflict_eq_false {as bs : List LiveRange} :
    anyConflict as bs = false ↔ ∀ a ∈ as, ∀ b ∈ bs, a.conflicts b = false := by
  simp only [anyConflict, List.any_eq_false, Bool.not_eq_true]

theorem anyConflict_symm {as bs : List LiveRange} (ha : ∀ a ∈ as, a.Proper) (hb : ∀ b ∈ bs, b.Proper) :
    anyConflict as bs = anyConflict bs as := by
  have half (xs ys : List LiveRange) (hx : ∀ x ∈ xs, x.Proper) (hy : ∀ y ∈ ys, y.Proper)
      (apart : anyConflict xs ys = false) : anyConflict ys xs = false := by
    rw [anyConflict_eq_false] at apart ⊢
    intro y inY x inX
    rw [conflicts_symm (hy y inY) (hx x inX)]
    exact apart x inX y inY
  cases found : anyConflict bs as with
  | false => exact half bs as hb ha found
  | true =>
    cases other : anyConflict as bs with
    | true => rfl
    | false => rw [half as bs ha hb other] at found; cases found

theorem mem_place {r s : LiveRange} {list : List LiveRange} : s ∈ r.place list ↔ s = r ∨ s ∈ list := by
  induction list with
  | nil => simp [place]
  | cons first rest ih =>
    unfold place
    split
    · simp only [List.mem_cons, ih]
      tauto
    · simp only [List.mem_cons]

end LiveRange

namespace LiveRanges

/-! ## The scan for one register -/

/-- Scan instructions backwards for a register. The first has number `number`, and `live` is open behind the last. The
result is what is open before the first, and the closed ranges by start. -/
def scan (reg : Reg) (block : Nat) : Nat → Option OpenRange → List (Inst τ) → Option OpenRange × List LiveRange
  | _, live, [] => (live, [])
  | number, live, inst :: rest =>
    let (after, ranges) := scan reg block (number + 1) live rest
    let (between, ranges) :=
      if reg ∈ inst.defs then (none, OpenRange.closed block number after :: ranges) else (after, ranges)
    (if reg ∈ inst.uses then some (OpenRange.read number between) else between, ranges)

def inBlock (reg : Reg) (block first : Nat) (liveOut : Bool) (insts : List (Inst τ)) : List LiveRange :=
  if insts.isEmpty then []
  else
    let atExit := if liveOut then some ⟨first + insts.length - 1, 0⟩ else none
    match scan reg block first atExit insts with
    | (none, ranges) => ranges
    | (some r, ranges) => LiveRange.place { block, start := first, stop := r.stop, count := r.count } ranges

def ofReg (body : Body) (outs : List RegSet) (reg : Reg) : List LiveRange :=
  (body.numbered.zip outs).zipIdx.flatMap fun (((first, block), out), position) =>
    inBlock reg position first (out.contains reg) block.insts

theorem scan_isSome {reg : Reg} {block number : Nat} {live : Option OpenRange} {insts : List (Inst τ)} :
    (scan reg block number live insts).1.isSome ↔ LiveBefore reg live.isSome insts := by
  induction insts generalizing number with
  | nil => rfl
  | cons inst rest ih =>
    by_cases reads : reg ∈ inst.uses
    · simp [scan, LiveBefore, reads]
    · by_cases writes : reg ∈ inst.defs
      · simp [scan, LiveBefore, reads, writes]
      · simpa [scan, LiveBefore, reads, writes] using @ih (number + 1)

theorem mem_scan_cons {reg : Reg} {block number : Nat} {live : Option OpenRange} {inst : Inst τ}
    {rest : List (Inst τ)} {r : LiveRange} :
    r ∈ (scan reg block number live (inst :: rest)).2 ↔
      reg ∈ inst.defs ∧ r = OpenRange.closed block number (scan reg block (number + 1) live rest).1 ∨
        r ∈ (scan reg block (number + 1) live rest).2 := by
  by_cases writes : reg ∈ inst.defs <;> simp [scan, writes]

theorem scan_cons_open {reg : Reg} {block number : Nat} {live : Option OpenRange} {inst : Inst τ}
    {rest : List (Inst τ)} {o : OpenRange} (found : (scan reg block number live (inst :: rest)).1 = some o) :
    reg ∈ inst.uses ∧ o.stop = number ∨
      reg ∉ inst.defs ∧ ∃ after, (scan reg block (number + 1) live rest).1 = some after ∧ o.stop = after.stop := by
  by_cases writes : reg ∈ inst.defs <;> by_cases reads : reg ∈ inst.uses <;>
    cases after : (scan reg block (number + 1) live rest).1 <;>
    grind [scan, OpenRange.read]

theorem scan_cons_passes {reg : Reg} {block number : Nat} {live : Option OpenRange} {inst : Inst τ}
    {rest : List (Inst τ)} {after : OpenRange} (kept : reg ∉ inst.defs)
    (found : (scan reg block (number + 1) live rest).1 = some after) :
    ∃ o, (scan reg block number live (inst :: rest)).1 = some o ∧ o.stop = after.stop := by
  by_cases reads : reg ∈ inst.uses <;> simp [scan, kept, reads, found, OpenRange.read]

theorem closed_stop (block number : Nat) (live : Option OpenRange) :
    (OpenRange.closed block number live).start = number ∧ (OpenRange.closed block number live).block = block ∧
      (live = none ∧ (OpenRange.closed block number live).stop = number ∨
        ∃ after, live = some after ∧ (OpenRange.closed block number live).stop = after.stop) := by
  cases live <;> simp [OpenRange.closed]

/-- Ranges lie between the first instruction of the scan and the last, and an open one reaches the first. -/
theorem scan_within {reg : Reg} {block number last : Nat} {live : Option OpenRange} {insts : List (Inst τ)}
    (size : number + insts.length = last + 1) (reach : ∀ r, live = some r → r.stop = last) :
    (∀ o, (scan reg block number live insts).1 = some o →
      number ≤ o.stop + 1 ∧ o.stop ≤ last ∧ (insts ≠ [] → number ≤ o.stop)) ∧
    ∀ r ∈ (scan reg block number live insts).2,
      r.block = block ∧ number ≤ r.start ∧ r.Proper ∧ r.stop ≤ last := by
  unfold LiveRange.Proper
  induction insts generalizing number with
  | nil =>
    rw [List.length_nil] at size
    refine ⟨fun o found => ?_, fun r member => by simp [scan] at member⟩
    have stop := reach o found
    exact ⟨by omega, by omega, fun nonempty => absurd rfl nonempty⟩
  | cons inst rest ih =>
    rw [List.length_cons] at size
    obtain ⟨opened, closed⟩ := @ih (number + 1) (by omega)
    constructor
    · intro o found
      rcases scan_cons_open found with ⟨_, stop⟩ | ⟨_, after, found, stop⟩
      · omega
      · obtain ⟨lower, upper, _⟩ := opened after found
        omega
    · intro r member
      rcases mem_scan_cons.mp member with ⟨_, rfl⟩ | member
      · obtain ⟨start, owner, ⟨_, stop⟩ | ⟨after, found, stop⟩⟩ :=
          closed_stop block number (scan reg block (number + 1) live rest).1
        · omega
        · obtain ⟨lower, upper, _⟩ := opened after found
          omega
      · have bounds := closed r member
        omega

/-- A register that is live behind instructions which do not write it has an open range before them. -/
theorem scan_open_through {reg : Reg} {block number last : Nat} {live : Option OpenRange}
    {mid post : List (Inst τ)} (size : number + (mid ++ post).length = last + 1)
    (reach : ∀ r, live = some r → r.stop = last) (kept : ∀ inst ∈ mid, reg ∉ inst.defs)
    (alive : LiveBefore reg live.isSome post) :
    ∃ o, (scan reg block number live (mid ++ post)).1 = some o ∧
      number + mid.length ≤ o.stop + 1 ∧ (post ≠ [] → number + mid.length ≤ o.stop) := by
  induction mid generalizing number with
  | nil =>
    obtain ⟨o, found⟩ := Option.isSome_iff_exists.mp (scan_isSome.mpr alive)
    obtain ⟨lower, _, strict⟩ := (scan_within size reach).1 o found
    exact ⟨o, found, lower, strict⟩
  | cons inst mid ih =>
    simp only [List.cons_append, List.length_cons] at size ⊢
    obtain ⟨after, found, bound, strict⟩ := @ih (number + 1) (by omega)
      fun other member => kept other (List.mem_cons_of_mem _ member)
    obtain ⟨o, opened, stop⟩ := scan_cons_passes (kept inst List.mem_cons_self) found
    refine ⟨o, opened, by omega, fun nonempty => ?_⟩
    have := strict nonempty
    omega

/-- A register that is live behind `mid`, which does not write it, has a range that goes through `mid`: it starts
before it or is still open at the start of the scan. -/
theorem scan_through {reg : Reg} {block number last : Nat} {live : Option OpenRange}
    {pre mid post : List (Inst τ)} (size : number + (pre ++ (mid ++ post)).length = last + 1)
    (reach : ∀ r, live = some r → r.stop = last) (kept : ∀ inst ∈ mid, reg ∉ inst.defs)
    (alive : LiveBefore reg live.isSome post) :
    ∃ stop, number + pre.length + mid.length ≤ stop + 1 ∧ (post ≠ [] → number + pre.length + mid.length ≤ stop) ∧
      ((∃ r ∈ (scan reg block number live (pre ++ (mid ++ post))).2, r.start < number + pre.length ∧ r.stop = stop) ∨
        ∃ o, (scan reg block number live (pre ++ (mid ++ post))).1 = some o ∧ o.stop = stop) := by
  induction pre generalizing number with
  | nil =>
    rw [List.nil_append] at size ⊢
    obtain ⟨o, found, bound, strict⟩ := scan_open_through size reach kept alive
    exact ⟨o.stop, bound, strict, .inr ⟨o, found, rfl⟩⟩
  | cons inst pre ih =>
    simp only [List.cons_append, List.length_cons] at size ⊢
    obtain ⟨stop, bound, strict, cases⟩ := @ih (number + 1) (by omega)
    refine ⟨stop, by omega, fun nonempty => by have := strict nonempty; omega, ?_⟩
    rcases cases with ⟨r, member, start, rfl⟩ | ⟨after, found, rfl⟩
    · exact .inl ⟨r, mem_scan_cons.mpr (.inr member), by omega, rfl⟩
    · by_cases writes : reg ∈ inst.defs
      · refine .inl ⟨_, mem_scan_cons.mpr (.inl ⟨writes, rfl⟩), ?_, ?_⟩
        · simp only [closed_stop]
          omega
        · simp [found, OpenRange.closed]
      · exact .inr (scan_cons_passes writes found)

theorem scan_write {reg : Reg} {block number : Nat} {live : Option OpenRange} {pre post : List (Inst τ)}
    {inst : Inst τ} (writes : reg ∈ inst.defs) :
    ∃ r ∈ (scan reg block number live (pre ++ inst :: post)).2, r.start = number + pre.length := by
  induction pre generalizing number with
  | nil => exact ⟨_, mem_scan_cons.mpr (.inl ⟨writes, rfl⟩), (closed_stop ..).1⟩
  | cons other pre ih =>
    obtain ⟨r, member, start⟩ := @ih (number + 1)
    refine ⟨r, mem_scan_cons.mpr (.inr member), ?_⟩
    rw [List.length_cons]
    omega

/-- At each instruction of a range the register is read, written or live behind it. -/
theorem scan_covers {reg : Reg} {block number last : Nat} {live : Option OpenRange} {pre post : List (Inst τ)}
    {inst : Inst τ} (size : number + (pre ++ inst :: post).length = last + 1)
    (reach : ∀ r, live = some r → r.stop = last) :
    (∀ o, (scan reg block number live (pre ++ inst :: post)).1 = some o → number + pre.length ≤ o.stop →
      reg ∈ inst.uses ∨ reg ∈ inst.defs ∨ LiveBefore reg live.isSome post) ∧
    ∀ r ∈ (scan reg block number live (pre ++ inst :: post)).2,
      r.start ≤ number + pre.length → number + pre.length ≤ r.stop →
        reg ∈ inst.uses ∨ reg ∈ inst.defs ∨ LiveBefore reg live.isSome post := by
  induction pre generalizing number with
  | nil =>
    simp only [List.nil_append, List.length_cons, List.length_nil, Nat.add_zero] at size ⊢
    -- Ranges that are closed behind the instruction start behind it.
    have tail : (∀ r ∈ (scan reg block (number + 1) live post).2, number + 1 ≤ r.start) :=
      fun r member => ((scan_within (by omega) reach).2 r member).2.1
    constructor
    · intro o found _
      rcases scan_cons_open found with ⟨reads, _⟩ | ⟨_, after, opened, _⟩
      · exact .inl reads
      · exact .inr (.inr (scan_isSome.mp (by rw [opened]; rfl)))
    · intro r member start _
      rcases mem_scan_cons.mp member with ⟨writes, _⟩ | member
      · exact .inr (.inl writes)
      · have := tail r member
        omega
  | cons other pre ih =>
    simp only [List.cons_append, List.length_cons] at size ⊢
    obtain ⟨opened, closed⟩ := @ih (number + 1) (by omega)
    constructor
    · intro o found bound
      rcases scan_cons_open found with ⟨_, stop⟩ | ⟨_, after, found, stop⟩
      · omega
      · exact opened after found (by omega)
    · intro r member start bound
      rcases mem_scan_cons.mp member with ⟨_, rfl⟩ | member
      · obtain ⟨_, _, ⟨_, stop⟩ | ⟨after, found, stop⟩⟩ :=
          closed_stop block number (scan reg block (number + 1) live (pre ++ inst :: post)).1
        · omega
        · exact opened after found (by omega)
      · exact closed r member (by omega) (by omega)

/-! ## The ranges in a block -/

/-- The range that is open behind the last instruction of a block. -/
def atExit (first : Nat) (liveOut : Bool) (insts : List (Inst τ)) : Option OpenRange :=
  if liveOut then some ⟨first + insts.length - 1, 0⟩ else none

theorem atExit_isSome {first : Nat} {liveOut : Bool} {insts : List (Inst τ)} :
    (atExit first liveOut insts).isSome = liveOut := by
  cases liveOut <;> rfl

theorem atExit_stop {first : Nat} {liveOut : Bool} {insts : List (Inst τ)} {r : OpenRange}
    (found : atExit first liveOut insts = some r) : r.stop = first + insts.length - 1 := by
  cases liveOut <;> simp only [atExit, if_true, Bool.false_eq_true, if_false, Option.some.injEq, reduceCtorEq] at found
  rw [← found]

/-- What is open at the start of a block is put in front of its closed ranges, up to those that start there too. -/
theorem inBlock_cases {reg : Reg} {block first : Nat} {liveOut : Bool} {insts : List (Inst τ)} (nonempty : insts ≠ []) :
    (scan reg block first (atExit first liveOut insts) insts).1 = none ∧
      inBlock reg block first liveOut insts = (scan reg block first (atExit first liveOut insts) insts).2 ∨
    ∃ o, (scan reg block first (atExit first liveOut insts) insts).1 = some o ∧
      inBlock reg block first liveOut insts = LiveRange.place { block, start := first, stop := o.stop, count := o.count }
        (scan reg block first (atExit first liveOut insts) insts).2 := by
  simp only [inBlock, atExit, List.isEmpty_iff, nonempty, if_false]
  generalize scan reg block first _ insts = outcome
  obtain ⟨opened, ranges⟩ := outcome
  cases opened with
  | none => exact .inl ⟨rfl, rfl⟩
  | some o => exact .inr ⟨o, rfl, rfl⟩

theorem mem_inBlock {reg : Reg} {block first : Nat} {liveOut : Bool} {insts : List (Inst τ)} {r : LiveRange}
    (nonempty : insts ≠ []) :
    r ∈ inBlock reg block first liveOut insts ↔
      r ∈ (scan reg block first (atExit first liveOut insts) insts).2 ∨
        ∃ o, (scan reg block first (atExit first liveOut insts) insts).1 = some o ∧
          r = { block, start := first, stop := o.stop, count := o.count } := by
  rcases @inBlock_cases _ reg block first liveOut insts nonempty with ⟨found, shape⟩ | ⟨o, found, shape⟩
  · simp [shape, found]
  · simp [shape, found, LiveRange.mem_place, or_comm]

theorem inBlock_within {reg : Reg} {block first : Nat} {liveOut : Bool} {insts : List (Inst τ)} {r : LiveRange}
    (member : r ∈ inBlock reg block first liveOut insts) :
    r.block = block ∧ first ≤ r.start ∧ r.Proper ∧ r.stop < first + insts.length := by
  by_cases nonempty : insts = []
  · rw [nonempty] at member
    cases member
  have length := List.length_pos_iff.mpr nonempty
  have size : first + insts.length = first + insts.length - 1 + 1 := by omega
  obtain ⟨opened, closed⟩ : _ ∧ ∀ r ∈ (scan reg block first (atExit first liveOut insts) insts).2, _ :=
    scan_within size fun _ => atExit_stop
  rcases (mem_inBlock nonempty).mp member with member | ⟨o, found, rfl⟩
  · obtain ⟨owner, start, proper, stop⟩ := closed r member
    exact ⟨owner, start, proper, by omega⟩
  · obtain ⟨_, upper, lower⟩ := opened o found
    exact ⟨rfl, Nat.le_refl first, lower nonempty, by simp only; omega⟩

theorem inBlock_through {reg : Reg} {block first : Nat} {liveOut : Bool} {pre mid post : List (Inst τ)}
    (nonempty : pre ++ (mid ++ post) ≠ []) (kept : ∀ inst ∈ mid, reg ∉ inst.defs)
    (alive : LiveBefore reg (liveOut = true) post) :
    ∃ r ∈ inBlock reg block first liveOut (pre ++ (mid ++ post)),
      (r.start < first + pre.length ∨ r.start = first) ∧ first + pre.length + mid.length ≤ r.stop + 1 ∧
        (post ≠ [] → first + pre.length + mid.length ≤ r.stop) := by
  have length := List.length_pos_iff.mpr nonempty
  have alive : LiveBefore reg ((atExit first liveOut (pre ++ (mid ++ post))).isSome = true) post := by
    rwa [atExit_isSome]
  have size : first + (pre ++ (mid ++ post)).length = first + (pre ++ (mid ++ post)).length - 1 + 1 := by omega
  obtain ⟨stop, bound, strict, ⟨r, member, start, rfl⟩ | ⟨o, found, rfl⟩⟩ :=
    scan_through size (fun _ => atExit_stop) kept alive
  · exact ⟨r, (mem_inBlock nonempty).mpr (.inl member), .inl start, bound, strict⟩
  · exact ⟨_, (mem_inBlock nonempty).mpr (.inr ⟨o, found, rfl⟩), .inr rfl, bound, strict⟩

theorem inBlock_write {reg : Reg} {block first : Nat} {liveOut : Bool} {pre post : List (Inst τ)} {inst : Inst τ}
    (writes : reg ∈ inst.defs) :
    ∃ r ∈ inBlock reg block first liveOut (pre ++ inst :: post), r.start = first + pre.length := by
  obtain ⟨r, member, start⟩ := scan_write writes
  exact ⟨r, (mem_inBlock (by simp)).mpr (.inl member), start⟩

theorem inBlock_read {reg : Reg} {block first : Nat} {liveOut : Bool} {pre post : List (Inst τ)} {inst : Inst τ}
    (reads : reg ∈ inst.uses) :
    ∃ r ∈ inBlock reg block first liveOut (pre ++ inst :: post),
      (r.start < first + pre.length ∨ r.start = first) ∧ first + pre.length ≤ r.stop := by
  obtain ⟨r, member, start, _, strict⟩ : ∃ r ∈ inBlock reg block first liveOut (pre ++ ([] ++ inst :: post)), _ :=
    inBlock_through (by simp) (by simp) (.inl reads)
  exact ⟨r, member, start, strict (by simp)⟩

theorem inBlock_covers {reg : Reg} {block first : Nat} {liveOut : Bool} {pre post : List (Inst τ)} {inst : Inst τ}
    {r : LiveRange} (member : r ∈ inBlock reg block first liveOut (pre ++ inst :: post))
    (lower : r.start ≤ first + pre.length) (upper : first + pre.length ≤ r.stop) :
    reg ∈ inst.uses ∨ reg ∈ inst.defs ∨ LiveBefore reg (liveOut = true) post := by
  have nonempty : pre ++ inst :: post ≠ [] := by simp
  have length := List.length_pos_iff.mpr nonempty
  have size : first + (pre ++ inst :: post).length = first + (pre ++ inst :: post).length - 1 + 1 := by omega
  obtain ⟨opened, closed⟩ : _ ∧ ∀ r ∈ (scan reg block first (atExit first liveOut _) (pre ++ inst :: post)).2, _ :=
    scan_covers size fun _ => atExit_stop
  rw [atExit_isSome] at opened closed
  rcases (mem_inBlock nonempty).mp member with member | ⟨o, found, rfl⟩
  · exact closed r member lower upper
  · exact opened o found upper

/-- The instructions that ranges cover are those that have to do with the register or behind which it is live. -/
theorem inBlock_covers_iff {reg : Reg} {block first : Nat} {liveOut : Bool} {pre post : List (Inst τ)} {inst : Inst τ} :
    (∃ r ∈ inBlock reg block first liveOut (pre ++ inst :: post),
      r.start ≤ first + pre.length ∧ first + pre.length ≤ r.stop) ↔
    reg ∈ inst.uses ∨ reg ∈ inst.defs ∨ LiveBefore reg (liveOut = true) post := by
  constructor
  · rintro ⟨r, member, lower, upper⟩
    exact inBlock_covers member lower upper
  · intro relevant
    -- A write starts a range here, a read ends one, and otherwise one passes through.
    by_cases writes : reg ∈ inst.defs
    · obtain ⟨r, member, start⟩ : ∃ r ∈ inBlock reg block first liveOut (pre ++ inst :: post), _ :=
        inBlock_write writes
      have proper : r.start ≤ r.stop := (inBlock_within member).2.2.1
      exact ⟨r, member, by omega, by omega⟩
    by_cases uses : reg ∈ inst.uses
    · obtain ⟨r, member, start, stop⟩ : ∃ r ∈ inBlock reg block first liveOut (pre ++ inst :: post), _ :=
        inBlock_read uses
      exact ⟨r, member, by omega, by omega⟩
    obtain ⟨r, member, start, stop, -⟩ : ∃ r ∈ inBlock reg block first liveOut (pre ++ ([inst] ++ post)), _ :=
      inBlock_through (by simp) (by simpa using writes) ((relevant.resolve_left uses).resolve_left writes)
    simp only [List.length_singleton] at stop
    exact ⟨r, member, by omega, by omega⟩

theorem conflict_of_write {a b : Reg} {block first : Nat} {outA outB : Bool} {pre post : List (Inst τ)}
    {inst : Inst τ} (writes : a ∈ inst.defs) (kept : b ∉ inst.defs) (alive : LiveBefore b (outB = true) post) :
    LiveRange.anyConflict (inBlock a block first outA (pre ++ inst :: post))
      (inBlock b block first outB (pre ++ inst :: post)) = true := by
  obtain ⟨ra, memberA, startA⟩ : ∃ r ∈ inBlock a block first outA (pre ++ inst :: post), _ := inBlock_write writes
  obtain ⟨rb, memberB, startB, boundB, strictB⟩ :
      ∃ r ∈ inBlock b block first outB (pre ++ ([inst] ++ post)), _ :=
    inBlock_through (by simp) (by simpa using kept) alive
  obtain ⟨_, _, properA, stopA⟩ := inBlock_within memberA
  obtain ⟨_, lowerB, properB, stopB⟩ := inBlock_within memberB
  simp only [LiveRange.anyConflict, List.any_eq_true]
  refine ⟨ra, memberA, rb, memberB, ?_⟩
  simp only [LiveRange.conflicts, Bool.or_eq_true, Bool.and_eq_true, decide_eq_true_eq]
  simp only [LiveRange.Proper, List.length_append, List.length_cons, List.length_nil] at *
  cases post with
  | nil =>
    simp only [List.length_nil] at *
    omega
  | cons =>
    have := strictB (by simp)
    omega

theorem conflict_of_reads {a b : Reg} {block first : Nat} {outA outB : Bool} {pre post : List (Inst τ)}
    {inst : Inst τ} (readsA : a ∈ inst.uses) (readsB : b ∈ inst.uses) :
    LiveRange.anyConflict (inBlock a block first outA (pre ++ inst :: post))
      (inBlock b block first outB (pre ++ inst :: post)) = true := by
  obtain ⟨ra, memberA, startA, stopA⟩ : ∃ r ∈ inBlock a block first outA (pre ++ inst :: post), _ :=
    inBlock_read readsA
  obtain ⟨rb, memberB, startB, stopB⟩ : ∃ r ∈ inBlock b block first outB (pre ++ inst :: post), _ :=
    inBlock_read readsB
  have lowerA := (inBlock_within memberA).2.1
  have lowerB := (inBlock_within memberB).2.1
  simp only [LiveRange.anyConflict, List.any_eq_true]
  refine ⟨ra, memberA, rb, memberB, ?_⟩
  simp only [LiveRange.conflicts, Bool.or_eq_true, Bool.and_eq_true, decide_eq_true_eq]
  omega

end LiveRanges

/-! ## The ranges in a body -/

namespace Body

def firstNumber (body : Body) (position : Nat) : Nat :=
  ((body.blocks.take position).map fun block => block.insts.length).sum

theorem getElem?_numbered (body : Body) (position : Nat) :
    body.numbered[position]? = body.blocks[position]?.map fun block => (body.firstNumber position, block) := by
  have go (first : Nat) (blocks : List Block) (position : Nat) :
      (numbered.go first blocks)[position]? = blocks[position]?.map fun block =>
        (first + ((blocks.take position).map fun block => block.insts.length).sum, block) := by
    induction blocks generalizing first position with
    | nil => simp [numbered.go]
    | cons block rest ih =>
      cases position with
      | zero => simp [numbered.go]
      | succ position => simp [numbered.go, ih, Nat.add_assoc]
  simpa [numbered, firstNumber] using go 0 body.blocks position

theorem firstNumber_eq (body : Body) (position : Nat) :
    body.firstNumber position = ((body.blocks.take position).flatMap Block.insts).length := by
  rw [firstNumber, List.length_flatMap]

theorem firstNumber_succ {body : Body} {position : Nat} {block : Block}
    (located : body.blocks[position]? = some block) :
    body.firstNumber (position + 1) = body.firstNumber position + block.insts.length := by
  simp only [firstNumber, List.take_add_one, located]
  simp

theorem firstNumber_mono (body : Body) {p q : Nat} (le : p ≤ q) : body.firstNumber p ≤ body.firstNumber q := by
  have longer : body.blocks.take q = body.blocks.take p ++ (body.blocks.take q).drop p := by
    conv_lhs => rw [← List.take_append_drop p (body.blocks.take q), List.take_take, Nat.min_eq_left le]
  rw [firstNumber_eq, firstNumber_eq, longer, List.flatMap_append, List.length_append]
  omega

/-- The number of an instruction decides in which block it stands. -/
theorem place_unique {body : Body} {p q n : Nat} {block block' : Block} (inP : body.blocks[p]? = some block)
    (inQ : body.blocks[q]? = some block') (lowP : body.firstNumber p ≤ n) (lowQ : body.firstNumber q ≤ n)
    (highP : n < body.firstNumber p + block.insts.length) (highQ : n < body.firstNumber q + block'.insts.length) :
    p = q := by
  rw [← firstNumber_succ inP] at highP
  rw [← firstNumber_succ inQ] at highQ
  rcases Nat.lt_trichotomy p q with less | same | more
  · have := body.firstNumber_mono (show p + 1 ≤ q from less)
    omega
  · exact same
  · have := body.firstNumber_mono (show q + 1 ≤ p from more)
    omega

theorem firstNumber_size (body : Body) : body.firstNumber body.size = body.insts.length := by
  rw [firstNumber_eq, size, List.take_length, insts]

theorem getElem?_insts {body : Body} {position : Nat} {block : Block} {pre post : List (Inst Nat)} {inst : Inst Nat}
    (located : body.blocks[position]? = some block) (split : block.insts = pre ++ inst :: post) :
    body.insts[body.firstNumber position + pre.length]? = some inst := by
  obtain ⟨bound, found⟩ := List.getElem?_eq_some_iff.mp located
  have parts : body.blocks = body.blocks.take position ++ block :: body.blocks.drop (position + 1) := by
    rw [← found]
    simp
  have code : body.insts = (body.blocks.take position).flatMap Block.insts ++
      (pre ++ inst :: post ++ (body.blocks.drop (position + 1)).flatMap Block.insts) := by
    rw [insts]
    conv_lhs => rw [parts]
    rw [List.flatMap_append, List.flatMap_cons, split]
  rw [code, firstNumber_eq, List.getElem?_append_right (by omega)]
  simp

theorem exists_place {body : Body} {n : Nat} {inst : Inst Nat} (found : body.insts[n]? = some inst) :
    ∃ position block pre post, body.blocks[position]? = some block ∧ block.insts = pre ++ inst :: post ∧
      n = body.firstNumber position + pre.length := by
  have go (blocks : List Block) (n : Nat) (found : (blocks.flatMap Block.insts)[n]? = some inst) :
      ∃ position block pre post, blocks[position]? = some block ∧ block.insts = pre ++ inst :: post ∧
        n = ((blocks.take position).flatMap Block.insts).length + pre.length := by
    induction blocks generalizing n with
    | nil => cases found
    | cons first rest ih =>
      rw [List.flatMap_cons, List.getElem?_append] at found
      split at found
      · next inside =>
        obtain ⟨bound, rfl⟩ := List.getElem?_eq_some_iff.mp found
        refine ⟨0, first, first.insts.take n, first.insts.drop (n + 1), rfl, by simp, ?_⟩
        simp
        omega
      · next beyond =>
        obtain ⟨position, block, pre, post, located, split, number⟩ := ih _ found
        refine ⟨position + 1, block, pre, post, located, split, ?_⟩
        rw [List.take_succ_cons, List.flatMap_cons, List.length_append]
        omega
  obtain ⟨position, block, pre, post, located, split, number⟩ := go body.blocks n found
  exact ⟨position, block, pre, post, located, split, by rw [firstNumber_eq, number]⟩

end Body

namespace LiveRanges

theorem mem_ofReg {body : Body} {outs : List RegSet} {reg : Reg} {r : LiveRange} :
    r ∈ ofReg body outs reg ↔ ∃ position block out, body.blocks[position]? = some block ∧ outs[position]? = some out ∧
      r ∈ inBlock reg position (body.firstNumber position) (out.contains reg) block.insts := by
  simp only [ofReg, List.mem_flatMap, List.mem_zipIdx_iff_getElem?, List.getElem?_zip_eq_some,
    Body.getElem?_numbered, Prod.exists, Option.map_eq_some_iff, Prod.mk.injEq]
  constructor
  · rintro ⟨first, block, out, position, ⟨⟨_, located, rfl, rfl⟩, outs⟩, member⟩
    exact ⟨position, _, out, located, outs, member⟩
  · rintro ⟨position, block, out, located, outs, member⟩
    exact ⟨_, block, out, position, ⟨⟨block, located, rfl, rfl⟩, outs⟩, member⟩

theorem ofReg_proper {body : Body} {outs : List RegSet} {reg : Reg} {r : LiveRange} (member : r ∈ ofReg body outs reg) :
    r.Proper := by
  obtain ⟨_, _, _, _, _, member⟩ := mem_ofReg.mp member
  exact (inBlock_within member).2.2.1

theorem ofReg_covers_iff {body : Body} {outs : List RegSet} {reg : Reg} {position : Nat} {block : Block} {out : RegSet}
    {pre post : List (Inst Nat)} {inst : Inst Nat} (located : body.blocks[position]? = some block)
    (liveOut : outs[position]? = some out) (split : block.insts = pre ++ inst :: post) :
    (∃ r ∈ ofReg body outs reg, r.block = position ∧ r.start ≤ body.firstNumber position + pre.length ∧
      body.firstNumber position + pre.length ≤ r.stop) ↔
    reg ∈ inst.uses ∨ reg ∈ inst.defs ∨ LiveBefore reg (reg ∈ out) post := by
  have alive : reg ∈ out ↔ out.contains reg = true := by simp
  rw [alive, ← @inBlock_covers_iff _ reg position (body.firstNumber position) _ pre, ← split]
  constructor
  · rintro ⟨r, member, here, covers⟩
    obtain ⟨place, block', out', located', liveOut', member⟩ := mem_ofReg.mp member
    rw [(inBlock_within member).1] at here
    subst here
    rw [located] at located'
    rw [liveOut] at liveOut'
    cases located'
    cases liveOut'
    exact ⟨r, member, covers⟩
  · rintro ⟨r, member, covers⟩
    exact ⟨r, mem_ofReg.mpr ⟨_, _, _, located, liveOut, member⟩, (inBlock_within member).1, covers⟩

theorem anyConflict_ofReg {body : Body} {outs : List RegSet} {a b : Reg} {position : Nat} {block : Block} {out : RegSet}
    (located : body.blocks[position]? = some block) (liveOut : outs[position]? = some out)
    (conflict : LiveRange.anyConflict
      (inBlock a position (body.firstNumber position) (out.contains a) block.insts)
      (inBlock b position (body.firstNumber position) (out.contains b) block.insts) = true) :
    LiveRange.anyConflict (ofReg body outs a) (ofReg body outs b) = true := by
  simp only [LiveRange.anyConflict, List.any_eq_true] at conflict ⊢
  obtain ⟨ra, memberA, rb, memberB, conflict⟩ := conflict
  exact ⟨ra, mem_ofReg.mpr ⟨_, _, _, located, liveOut, memberA⟩, rb,
    mem_ofReg.mpr ⟨_, _, _, located, liveOut, memberB⟩, conflict⟩

end LiveRanges

theorem Liveness.mem_regs {tracked : Reg → Bool} {body : Body} {reg : Reg} :
    reg ∈ regs tracked body ↔ tracked reg = true ∧ ∃ inst ∈ body.insts, reg ∈ inst.uses ∨ reg ∈ inst.defs := by
  have fold (insts : List (Inst Nat)) (found : RegSet) :
      reg ∈ insts.foldl (fun found inst => found.insertAll ((inst.uses ++ inst.defs).filter tracked)) found ↔
        reg ∈ found ∨ tracked reg = true ∧ ∃ inst ∈ insts, reg ∈ inst.uses ∨ reg ∈ inst.defs := by
    induction insts generalizing found with
    | nil => simp
    | cons inst rest ih =>
      simp only [List.foldl_cons, ih, RegSet.mem_insertAll, List.mem_filter, List.mem_append, List.exists_mem_cons_iff]
      rw [or_assoc, and_comm, ← and_or_left]
  simpa [regs] using fold body.insts ∅

end RegisterAllocator
