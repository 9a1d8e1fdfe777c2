import RegisterAllocator.Proofs.Applied
import RegisterAllocator.Proofs.RangeScan
import RegisterAllocator.Proofs.Search
import RegisterAllocator.Source.Reader

/-!
# No illegal sharing

Two webs that hold the same register are never live together, in every state that the search passes through
(`search_keeps_registers_apart`), so the assignment that an allocation returns never puts two values that are needed at
the same time into one register, nor a value over one that the code itself keeps there.
-/

namespace RegisterAllocator

/-! ## The problem of a body -/

section

variable (config : Config) (body : Body) (frame : UInt64)

/-- The live ranges by which registers are allocated. -/
abbrev liveRanges : LiveRanges := .ofBody Reg.isTracked body

theorem webs_toList : (Allocation.make config body frame).problem.webs.toList =
    (liveRanges body).table.filterMap fun (reg, ranges) => reg.virt?.map fun reg =>
      { reg, ranges,
        weight := Web.weigh (body.blockWeights config.loopWeight) (Hints.ofInsts body.insts) reg ranges } :=
  rfl

variable {config body frame}

theorem web_ranges {web : Nat} {w : Web} (known : (Allocation.make config body frame).problem.webs[web]? = some w) :
    w.ranges = (liveRanges body).ranges w.reg := by
  rw [← Array.getElem?_toList, webs_toList] at known
  obtain ⟨⟨reg, ranges⟩, row, found⟩ := List.mem_filterMap.mp (List.mem_of_getElem? known)
  rw [LiveRanges.table_ofBody, List.mem_map] at row
  obtain ⟨_, member, same⟩ := row
  cases same
  cases reg with
  | phys _ => cases found
  | virt v =>
    cases found
    exact ((LiveRanges.ranges_ofBody _ _ _).trans (if_pos member)).symm

theorem problem_ranges {web : Nat} {w : Web} (known : (Allocation.make config body frame).problem.webs[web]? = some w) :
    (Allocation.make config body frame).problem.ranges web = (liveRanges body).ranges w.reg := by
  simp [Problem.ranges, known, web_ranges known]

theorem problem_proper : (Allocation.make config body frame).problem.Proper := by
  intro web r member
  cases known : (Allocation.make config body frame).problem.webs[web]? with
  | none => simp [Problem.ranges, known] at member
  | some w =>
    rw [problem_ranges known] at member
    exact LiveRanges.ranges_proper member

theorem webs_regs : (Allocation.make config body frame).problem.webs.toList.map Web.reg =
    (Liveness.regs Reg.isTracked body).toList.filterMap Reg.virt? := by
  rw [webs_toList, List.map_filterMap, LiveRanges.table_ofBody, List.filterMap_map]
  congr 1
  funext reg
  cases reg <;> rfl

theorem webs_nodup : ((Allocation.make config body frame).problem.webs.toList.map Web.reg).Nodup := by
  rw [webs_regs]
  refine List.Nodup.filterMap ?_ ((Liveness.regs Reg.isTracked body).ascending.imp fun {a b} less same => ?_)
  · intro a b v inA inB
    cases a <;> cases b <;> simp_all [Reg.virt?]
  · rw [same] at less
    exact Nat.lt_irrefl _ less

theorem lookup_fixed (table : List (Reg × List LiveRange)) (reg : PhysReg) :
    (table.filter fun (other, _) => !other.isVirt).lookup (.phys reg) = table.lookup (.phys reg) := by
  induction table with
  | nil => rfl
  | cons first rest ih =>
    obtain ⟨other, ranges⟩ := first
    cases other with
    | virt v =>
      have differ : (Reg.phys reg == Reg.virt v) = false := by simp
      simpa [Reg.isVirt, List.lookup_cons, differ] using ih
    | phys other =>
      by_cases same : reg = other
      · simp [Reg.isVirt, same]
      · have differ : (Reg.phys reg == Reg.phys other) = false := by simpa using same
        simpa [Reg.isVirt, List.lookup_cons, differ] using ih

theorem blocked_eq {web : Nat} {reg : PhysReg} :
    (Allocation.make config body frame).problem.blocked web reg = (reg.isFixed && LiveRange.anyConflict
      ((Allocation.make config body frame).problem.ranges web) ((liveRanges body).ranges reg)) := by
  have fixed : (Allocation.make config body frame).problem.fixedRanges.lookup (.phys reg) =
      (liveRanges body).table.lookup (.phys reg) := lookup_fixed _ _
  rw [Problem.blocked, LiveRanges.ranges, fixed]

/-- A register is handed out to virtual registers of a file: it is among the first of the file, as many as the limit
says. -/
def HandedOut (config : Config) (file : RegFile) (reg : PhysReg) : Prop :=
  reg.file = file ∧ ∃ place, (PhysReg.allocatableIn file)[place]? = some reg ∧
    ∀ limit, config.registerLimit = some limit → place < limit

theorem handedOut_of_allowed {file : RegFile} {reg : PhysReg}
    (allowed : reg ∈ (Allocation.make config body frame).problem.allowed file) : HandedOut config file reg := by
  have limit : (Allocation.make config body frame).problem.limit = config.registerLimit := rfl
  have inFile : reg ∈ PhysReg.allocatableIn file → reg.file = file := fun member => by
    simpa using (List.mem_filter.mp member).2
  unfold Problem.allowed at allowed
  rw [limit] at allowed
  split at allowed
  · next count found =>
    refine ⟨inFile (List.mem_of_mem_take allowed), ?_⟩
    obtain ⟨place, located⟩ := List.mem_iff_getElem?.mp allowed
    rw [List.getElem?_take] at located
    split at located
    · next below =>
      refine ⟨place, located, fun limit same => ?_⟩
      rw [found] at same
      cases same
      exact below
    · cases located
  · next found =>
    obtain ⟨place, located⟩ := List.mem_iff_getElem?.mp allowed
    exact ⟨inFile allowed, place, located, fun limit same => by rw [found] at same; cases same⟩

/-! ## Exclusive use of registers -/

/-- In a state of the search webs share no register that they need at the same time, and the books about who holds
which register and who waits agree. -/
structure Exclusive (a : Allocation) (s : SearchState) : Prop where
  apart : ∀ v w reg, v ≠ w → s.home? v = some reg → s.home? w = some reg →
    LiveRange.anyConflict (a.problem.ranges v) (a.problem.ranges w) = false
  clear : ∀ v reg, s.home? v = some reg → reg.isFixed = true →
    LiveRange.anyConflict (a.problem.ranges v) (a.live.ranges reg) = false ∧
      LiveRange.anyConflict (a.live.ranges reg) (a.problem.ranges v) = false
  handedOut : ∀ v reg, s.home? v = some reg →
    ∃ w, a.problem.webs[v]? = some w ∧ HandedOut a.config w.reg.file reg
  occupants : ∀ reg, (s.occupants reg).Nodup ∧ ∀ v, v ∈ s.occupants reg ↔ s.home? v = some reg
  waiting : ∀ v, s.queue.countP (·.web = v) = (if s.home? v = none ∧ s.stage v ≠ .done then 1 else 0) ∧
    (s.isQueued v = true ↔ s.home? v = none ∧ s.stage v ≠ .done)

theorem exclusive_of_sound {s : SearchState}
    (sound : SearchState.Sound (Allocation.make config body frame).problem none s) :
    Exclusive (Allocation.make config body frame) s := by
  have waits (v : Nat) : v ∈ s.queue.map Ticket.web ↔ s.home? v = none ∧ s.stage v ≠ .done := by
    rw [sound.queued v]
    simp
  refine ⟨?_, ?_, ?_, fun reg => ⟨sound.occupantsOnce reg, sound.occupants reg⟩, ?_⟩
  · intro v w reg differ homeV homeW
    exact sound.apart v w reg homeV homeW differ
  · intro v reg home fixed
    obtain ⟨w, known, -, clear⟩ := sound.fits v reg home
    rw [blocked_eq, fixed, Bool.true_and] at clear
    refine ⟨clear, (LiveRange.anyConflict_symm ?_ (problem_proper v)).trans clear⟩
    exact fun _ => LiveRanges.ranges_proper
  · intro v reg home
    obtain ⟨w, known, allowed, -⟩ := sound.fits v reg home
    exact ⟨w, known, handedOut_of_allowed allowed⟩
  · intro v
    refine ⟨?_, (sound.marked v).trans (waits v)⟩
    have count : s.queue.countP (·.web = v) = (s.queue.map Ticket.web).count v := by
      rw [List.count, List.countP_map]
      rfl
    rw [count, sound.queuedOnce.count]
    simp only [waits v]

/-- An assignment gives no two virtual registers that are live together the same register, no virtual register one that
is itself live together with it, and only registers that are handed out to its file. -/
structure Separates (config : Config) (live : LiveRanges) (assignment : VirtMap PhysReg) : Prop where
  apart : ∀ v w reg, v ≠ w → (v, reg) ∈ assignment → (w, reg) ∈ assignment →
    LiveRange.anyConflict (live.ranges v) (live.ranges w) = false
  clear : ∀ v reg, (v, reg) ∈ assignment → reg.isFixed = true →
    LiveRange.anyConflict (live.ranges v) (live.ranges reg) = false ∧
      LiveRange.anyConflict (live.ranges reg) (live.ranges v) = false
  handedOut : ∀ v reg, (v, reg) ∈ assignment → HandedOut config v.file reg

theorem mem_homed {a : Allocation} {w : Web} {reg : PhysReg} :
    (w, reg) ∈ a.homed ↔ ∃ web, a.problem.webs[web]? = some w ∧ a.search.home? web = some reg := by
  simp only [Allocation.homed, Problem.homed, List.mem_filterMap, List.mem_zipIdx_iff_getElem?, Prod.exists,
    Option.map_eq_some_iff, Prod.mk.injEq, Array.getElem?_toList]
  constructor
  · rintro ⟨_, web, known, _, home, rfl, rfl⟩
    exact ⟨web, known, home⟩
  · rintro ⟨web, known, home⟩
    exact ⟨w, web, known, reg, home, rfl, rfl⟩

theorem mem_assignment_iff {a : Allocation} {v : VirtReg} {reg : PhysReg} :
    (v, reg) ∈ a.assignment ↔ ∃ w, (w, reg) ∈ a.homed ∧ w.reg = v := by
  simp only [Allocation.assignment, Problem.assignment, List.mem_map, Prod.exists, Prod.mk.injEq]
  constructor
  · rintro ⟨w, _, member, same, rfl⟩
    exact ⟨w, member, same⟩
  · rintro ⟨w, member, same⟩
    exact ⟨w, reg, member, same, rfl⟩

theorem mem_assignment {a : Allocation} {v : VirtReg} {reg : PhysReg} :
    (v, reg) ∈ a.assignment ↔ ∃ web w, a.problem.webs[web]? = some w ∧ w.reg = v ∧ a.search.home? web = some reg := by
  rw [mem_assignment_iff]
  constructor
  · rintro ⟨w, member, same⟩
    obtain ⟨web, known, home⟩ := mem_homed.mp member
    exact ⟨web, w, known, same, home⟩
  · rintro ⟨web, w, known, same, home⟩
    exact ⟨w, mem_homed.mpr ⟨web, known, home⟩, same⟩

theorem separates_of_exclusive
    (exclusive : Exclusive (Allocation.make config body frame) (Allocation.make config body frame).search) :
    Separates config (liveRanges body) (Allocation.make config body frame).assignment := by
  refine ⟨?_, ?_, ?_⟩
  · intro v w reg differ inV inW
    obtain ⟨webV, _, knownV, rfl, homeV⟩ := mem_assignment.mp inV
    obtain ⟨webW, _, knownW, rfl, homeW⟩ := mem_assignment.mp inW
    rw [← problem_ranges knownV, ← problem_ranges knownW]
    refine exclusive.apart webV webW reg (fun same => differ ?_) homeV homeW
    rw [same, knownW] at knownV
    cases knownV
    rfl
  · intro v reg inV fixed
    obtain ⟨web, _, known, rfl, home⟩ := mem_assignment.mp inV
    rw [← problem_ranges known]
    exact exclusive.clear web reg home fixed
  · intro v reg inV
    obtain ⟨web, w, known, rfl, home⟩ := mem_assignment.mp inV
    obtain ⟨other, known', handed⟩ := exclusive.handedOut web reg home
    rw [known] at known'
    cases known'
    exact handed

theorem make_separates : Separates config (liveRanges body) (Allocation.make config body frame).assignment :=
  separates_of_exclusive (exclusive_of_sound ((SearchState.finish_reachable _).sound problem_proper))

end

/-- Whatever code is allocated and however, webs hold registers exclusively in every state that the search passes
through, and so do the virtual registers of a machine's function in the assignment that is returned for it. -/
theorem search_keeps_registers_apart (config : Config) :
    (∀ body frame s, SearchState.Reachable (Allocation.make config body frame).problem s →
      Exclusive (Allocation.make config body frame) s) ∧
    ∀ (m : Machine) f body done choice, m.body f = .ok body → m.allocate config f = .ok done →
      done.outcome = .ok choice → Separates config (liveRanges body) choice.assignment := by
  refine ⟨fun body frame s reached => exclusive_of_sound (reached.sound problem_proper), ?_⟩
  intro m f body done choice body_ok allocated success
  obtain ⟨node, -, ⟨-, -, rfl⟩ | ⟨other, _, _, other_ok, -, -, -, -, rfl⟩⟩ := Machine.allocate_ok allocated success
  · exact ⟨fun _ _ _ _ member _ => (nomatch member), fun _ _ member _ => (nomatch member),
      fun _ _ member => (nomatch member)⟩
  · rw [body_ok] at other_ok
    cases other_ok
    exact make_separates

/-- A function that adds two constants. -/
def sumOfTwo : String := ".func f\nli $r0, 1\nli $r1, 2\nadd $r2, $r0, $r1\nmv a0, $r2\nret a0\n"

/-- The summands are live together and so are in different registers; the sum shares the register of the first. -/
theorem sum_registers_apart :
    ∃ m body done choice, Source.read sumOfTwo = .ok m ∧ m.body ⟨0⟩ = .ok body ∧ m.allocate {} ⟨0⟩ = .ok done ∧
      done.outcome = .ok choice ∧ (⟨0, .general⟩, .x 10) ∈ choice.assignment ∧
      (⟨1, .general⟩, .x 11) ∈ choice.assignment ∧ (⟨2, .general⟩, .x 10) ∈ choice.assignment ∧
      LiveRange.anyConflict ((liveRanges body).ranges (.virt ⟨0, .general⟩))
        ((liveRanges body).ranges (.virt ⟨1, .general⟩)) = true ∧
      (⟨1, .general⟩, .x 10) ∉ choice.assignment ∧
      Exclusive (Allocation.make {} body 0) (Allocation.make {} body 0).search ∧
      Separates {} (liveRanges body) choice.assignment := by
  have run : (do
      let m ← (Source.read sumOfTwo).toOption
      let body ← (m.body ⟨0⟩).toOption
      let done ← (m.allocate {} ⟨0⟩).toOption
      let choice ← done.outcome.toOption
      return decide (((⟨0, .general⟩, .x 10) : VirtReg × PhysReg) ∈ choice.assignment ∧
        ((⟨1, .general⟩, .x 11) : VirtReg × PhysReg) ∈ choice.assignment ∧
        ((⟨2, .general⟩, .x 10) : VirtReg × PhysReg) ∈ choice.assignment ∧
        LiveRange.anyConflict ((liveRanges body).ranges (.virt ⟨0, .general⟩))
          ((liveRanges body).ranges (.virt ⟨1, .general⟩)) = true)) = some true := by
    decide +kernel
  simp only [bind, Option.bind_eq_some_iff, toOption_eq_some, pure, Option.some.injEq, decide_eq_true_eq] at run
  obtain ⟨m, read, body, body_ok, done, allocated, choice, success, first, second, sum, conflict⟩ := run
  obtain ⟨exclusive, separates⟩ := search_keeps_registers_apart {}
  have separate := separates m ⟨0⟩ body done choice body_ok allocated success
  refine ⟨m, body, done, choice, read, body_ok, allocated, success, first, second, sum, conflict, fun shared => ?_,
    exclusive body 0 _ (SearchState.finish_reachable _), separate⟩
  rw [separate.apart _ _ _ (by decide) first shared] at conflict
  cases conflict

end RegisterAllocator
