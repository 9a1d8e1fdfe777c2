import Mathlib.Algebra.Order.BigOperators.Group.List
import Mathlib.Data.List.Perm.Subperm
import RegisterAllocator.Proofs.Placement

/-!
# Progress of the search

Each step of the search serves one web, and what it does shows in the counts (`Tally`): a register is given or given
up, and a web that has got none goes to the stack in two further steps. A web is evicted at most as often as its file
has registers, so the steps are bounded and the queue drains (`finish_drained`); then the counts add up
(`search_drains_in_balance`).
-/

namespace RegisterAllocator

/-- The changes of stage that a step can make. -/
inductive Stage.Moves : Stage → Stage → Prop where
  | stays (stage : Stage) : Moves stage stage
  | assigned : Moves .fresh .assign
  | freshDemoted : Moves .fresh .split
  | demoted : Moves .assign .split
  | unsplit : Moves .split .spill
  | spilled : Moves .spill .done

def Decision.evicts (web : Nat) : Decision → Bool
  | .evict other _ => other = web
  | _ => false

namespace Problem

variable {p : Problem}

theorem allowed_sublist (p : Problem) (file : RegFile) : (p.allowed file).Sublist (PhysReg.allocatableIn file) := by
  unfold allowed
  split
  · exact List.take_sublist _ _
  · exact .refl _

theorem file_of_allowed {file : RegFile} {reg : PhysReg} (allowed : reg ∈ p.allowed file) : reg.file = file := by
  simpa using (List.mem_filter.mp ((p.allowed_sublist file).mem allowed)).2

theorem length_candidates (hints : Hints) (reg : VirtReg) :
    (p.candidates hints reg).length = (p.allowed reg.file).length := by
  have handed : ∀ file, (PhysReg.allocatableIn file).Nodup := fun file => by cases file <;> decide
  have once := (handed reg.file).sublist (p.allowed_sublist reg.file)
  simp only [candidates]
  split
  · next hint _ =>
    split
    · next allowed =>
      have rest : (p.allowed reg.file).filter (· ≠ hint) = (p.allowed reg.file).erase hint := by
        rw [once.erase_eq_filter]
        congr 1
        funext other
        rw [bne, Bool.eq_iff_iff]
        simp
      rw [List.length_cons, rest, List.length_erase_add_one allowed]
    · rfl
  · rfl

/-- The number of registers that are handed out, in the file that has more of them. -/
def allowance (p : Problem) : Nat := max (p.allowed .general).length (p.allowed .float).length

theorem length_allowed_le (p : Problem) (file : RegFile) : (p.allowed file).length ≤ p.allowance := by
  cases file with
  | general => exact Nat.le_max_left ..
  | float => exact Nat.le_max_right ..

theorem allowance_le (p : Problem) : p.allowance ≤ PhysReg.allocatable.length := by
  have each (file : RegFile) : (p.allowed file).length ≤ PhysReg.allocatable.length :=
    ((p.allowed_sublist file).trans List.filter_sublist).length_le
  exact Nat.max_le.mpr ⟨each .general, each .float⟩

end Problem

theorem Ticket.pop?_eq_none {queue : List Ticket} (empty : pop? queue = none) : queue = [] := by
  cases queue with
  | nil => rfl
  | cons first rest =>
    unfold pop? at empty
    split at empty
    · cases empty
    · split at empty <;> cases empty

namespace SearchState

variable {p : Problem} {s t : SearchState} {web n : Nat}

/-! ## What a step does -/

/-- What becomes of a state when a web that has left the queue is served. -/
inductive Serves (p : Problem) (s : SearchState) (web : Nat) : SearchState → Prop where
  | assigned (reg : PhysReg) (w : Web) (known : p.webs[web]? = some w)
      (waiting : s.stage web = .fresh ∨ s.stage web = .assign) (allowed : reg ∈ p.allowed w.reg.file)
      (evictable : ∀ rival ∈ s.rivals p web reg, s.evictionCount rival < (p.candidates s.hints w.reg).length) :
      Serves p s web (((s.rivals p web reg).foldl (evict p · reg) s).assign p web reg)
  | demoted (waiting : s.stage web = .fresh ∨ s.stage web = .assign) : Serves p s web (s.demote p web)
  | advanced (split : s.stage web = .split) : Serves p s web (s.advance p web .spill)
  | spilled (spill : s.stage web = .spill) :
      Serves p s web ({ s with stages := s.stages.setIfInBounds web .done }.note (.spill web))

theorem attempt_serves (sound : Sound p (some web) s) (waiting : s.stage web = .fresh ∨ s.stage web = .assign) :
    Serves p s web (s.attempt p web) := by
  obtain ⟨w, located⟩ := sound.located
  rcases attempt_cases located with ⟨reg, candidate, -, evictable, result⟩ | result
  · rw [result]
    exact .assigned reg w located waiting (p.mem_candidates candidate) evictable
  · rw [result]
    exact .demoted waiting

theorem step_serves (sound : Sound p none s) (next : s.step? p = some t) :
    ∃ web u, s.dequeue? = some (web, u) ∧ Sound p (some web) u ∧ Serves p u web t := by
  obtain ⟨-, web, u, found, rfl⟩ := step?_eq_some.mp next
  have served := sound.dequeued found
  refine ⟨web, u, found, served, ?_⟩
  unfold serve
  cases stage : u.stage web with
  | fresh => exact attempt_serves served (.inl stage)
  | assign => exact attempt_serves served (.inr stage)
  | split => exact .advanced stage
  | spill => exact .spilled stage
  | done => exact absurd stage (served.idle _ rfl).2

/-! ## Counts -/

def counts (s : SearchState) : Stats := Stats.ofDecisions s.decisions

def stageCount (s : SearchState) (stage : Stage) : Nat := s.stages.toList.count stage

def homeCount (s : SearchState) : Nat := s.homes.toList.countP Option.isSome

theorem counts_congr (same : t.trace = s.trace) : t.counts = s.counts := by
  rw [counts, counts, decisions, same, decisions]

theorem counts_note (s : SearchState) (decision : Decision) : (s.note decision).counts =
    match decision with
    | .assign .. => { s.counts with attempts := s.counts.attempts + 1 }
    | .evict .. => { s.counts with evictions := s.counts.evictions + 1 }
    | .demote _ => { s.counts with attempts := s.counts.attempts + 1, demotions := s.counts.demotions + 1 }
    | .spill _ => { s.counts with spilled := s.counts.spilled + 1 } := by
  cases decision <;> simp [counts, decisions, note, Stats.ofDecisions]

theorem stageCount_set (known : web < s.stages.size) {new : Stage} (stages : t.stages = s.stages.setIfInBounds web new)
    (stage : Stage) : t.stageCount stage + (if s.stage web = stage then 1 else 0) =
      s.stageCount stage + if new = stage then 1 else 0 := by
  have bound : web < s.stages.toList.length := by simpa using known
  have old : s.stages.toList[web] = s.stage web := by simp [SearchState.stage, known]
  have counted : s.stage web = stage → 0 < s.stages.toList.count stage := by
    rintro rfl
    rw [← old]
    exact List.count_pos_iff.mpr (List.getElem_mem bound)
  rw [stageCount, stageCount, stages, Array.toList_setIfInBounds, List.count_set bound, old]
  simp only [beq_iff_eq]
  by_cases here : s.stage web = stage
  · have := counted here
    rw [if_pos here]
    omega
  · rw [if_neg here]
    omega

/-- A web that is not done changes its stage: what that does to the numbers of webs that have no register. -/
theorem stageCounts_set (going : s.stage web ≠ .done) {new : Stage}
    (stages : t.stages = s.stages.setIfInBounds web new) :
    (t.stageCount .split + (if s.stage web = .split then 1 else 0) =
      s.stageCount .split + if new = .split then 1 else 0) ∧
    (t.stageCount .spill + (if s.stage web = .spill then 1 else 0) =
      s.stageCount .spill + if new = .spill then 1 else 0) ∧
    t.stageCount .done = s.stageCount .done + if new = .done then 1 else 0 := by
  have count := stageCount_set (known_of_stage going) stages
  have done := count .done
  rw [if_neg going, Nat.add_zero] at done
  exact ⟨count .split, count .spill, done⟩

theorem sum_stageCount (s : SearchState) : s.stageCount .fresh + s.stageCount .assign + s.stageCount .split +
    s.stageCount .spill + s.stageCount .done = s.stages.size := by
  rw [← Array.length_toList]
  unfold stageCount
  induction s.stages.toList with
  | nil => rfl
  | cons first rest ih =>
    cases first <;> simp <;> omega

theorem homeCount_set (known : web < s.homes.size) {home : Option PhysReg}
    (homes : t.homes = s.homes.setIfInBounds web home) :
    t.homeCount + (if (s.home? web).isSome then 1 else 0) = s.homeCount + if home.isSome then 1 else 0 := by
  have bound : web < s.homes.toList.length := by simpa using known
  have old : s.homes.toList[web] = s.home? web := by simp [home?, known]
  have counted : (s.home? web).isSome → 0 < s.homes.toList.countP Option.isSome := by
    intro holds
    exact List.countP_pos_iff.mpr ⟨_, List.getElem_mem bound, old ▸ holds⟩
  rw [homeCount, homeCount, homes, Array.toList_setIfInBounds, List.countP_set bound, old]
  by_cases here : (s.home? web).isSome
  · have := counted here
    rw [if_pos here]
    omega
  · rw [if_neg here]
    omega

theorem homeCount_eq (s : SearchState) :
    s.homeCount = (List.range s.homes.size).countP fun web => (s.home? web).isSome := by
  have all : s.homes.toList = (List.range s.homes.size).map s.home? := by
    apply List.ext_getElem
    · simp
    · intro k bound _
      simp [home?, show k < s.homes.size by simpa using bound]
  rw [homeCount, all, List.countP_map]
  rfl

theorem stageCount_eq (s : SearchState) (stage : Stage) :
    s.stageCount stage = (List.range s.stages.size).countP fun web => s.stage web = stage := by
  have all : s.stages.toList = (List.range s.stages.size).map s.stage := by
    apply List.ext_getElem
    · simp
    · intro k bound _
      simp [SearchState.stage, show k < s.stages.size by simpa using bound]
  rw [stageCount, all, List.count, List.countP_map]
  rfl

/-! ## Books -/

/-- The books about evictions: how often a web has been evicted, which is at most as often as its file has registers. -/
structure Capped (p : Problem) (s : SearchState) : Prop where
  size : s.evictions.size = p.webs.size
  total : s.counts.evictions = s.evictions.toList.sum
  each : ∀ web, s.trace.countP (Decision.evicts web) = s.evictionCount web
  capped : ∀ web w, p.webs[web]? = some w → s.evictionCount web ≤ (p.allowed w.reg.file).length

/-- Decisions that evict no web leave the books about evictions as they are. -/
theorem Capped.kept (books : Capped p s) (evictions : t.evictions = s.evictions)
    (trace : t.trace = s.trace ∨ ∃ decision, (∀ web reg, decision ≠ .evict web reg) ∧ t.trace = decision :: s.trace) :
    Capped p t := by
  have total : t.counts.evictions = s.counts.evictions := by
    rcases trace with same | ⟨decision, other, grown⟩
    · rw [counts_congr same]
    · rw [counts_congr (s := s.note decision) grown, counts_note]
      cases decision with
      | evict web reg => exact absurd rfl (other web reg)
      | _ => rfl
  have each (web : Nat) : t.trace.countP (Decision.evicts web) = s.trace.countP (Decision.evicts web) := by
    rcases trace with same | ⟨decision, other, grown⟩
    · rw [same]
    · rw [grown]
      cases decision with
      | evict web reg => exact absurd rfl (other web reg)
      | _ => rfl
  have same (web : Nat) : t.evictionCount web = s.evictionCount web := by rw [evictionCount, evictions, evictionCount]
  refine ⟨by rw [evictions, books.size], by rw [total, books.total, evictions], fun web => ?_, fun web w known => ?_⟩
  · rw [each, books.each, same]
  · rw [same]
    exact books.capped web w known

@[simp] theorem enqueue_evictions (p : Problem) (s : SearchState) (web : Nat) :
    (s.enqueue p web).evictions = s.evictions := by
  unfold enqueue
  split <;> rfl

theorem trace_evict (reg : PhysReg) : (s.evict p reg web).trace = .evict web reg :: s.trace := by simp [evict, note]

theorem counts_evict (reg : PhysReg) :
    (s.evict p reg web).counts = { s.counts with evictions := s.counts.evictions + 1 } :=
  (counts_congr (s := s.note (.evict web reg)) (trace_evict reg)).trans (s.counts_note _)

theorem evictionCount_evict (known : web < s.evictions.size) (reg : PhysReg) (other : Nat) :
    (s.evict p reg web).evictionCount other = s.evictionCount other + if other = web then 1 else 0 := by
  by_cases same : other = web
  · subst same
    simp [evictionCount, evict, note, known]
  · simp [evictionCount, evict, note, same, Array.getElem?_setIfInBounds_ne (Ne.symm same)]

theorem Capped.evicted (books : Capped p s) {w : Web} (known : p.webs[web]? = some w)
    (room : s.evictionCount web < (p.allowed w.reg.file).length) (reg : PhysReg) : Capped p (s.evict p reg web) := by
  have bound : web < s.evictions.size := by
    rw [books.size]
    exact (Array.getElem?_eq_some_iff.mp known).1
  refine ⟨?_, ?_, fun other => ?_, fun other w' known' => ?_⟩
  · simpa [evict, note] using books.size
  · have bound' : web < s.evictions.toList.length := by simpa using bound
    have old : s.evictions.toList[web] = s.evictionCount web := by simp [evictionCount, bound]
    have before := List.sum_set s.evictions.toList web s.evictions.toList[web]
    have after := List.sum_set s.evictions.toList web (s.evictionCount web + 1)
    rw [List.set_getElem_self, if_pos bound', old] at before
    rw [if_pos bound', ← Array.toList_setIfInBounds] at after
    have total := books.total
    have grown : (s.evict p reg web).evictions = s.evictions.setIfInBounds web (s.evictionCount web + 1) := by
      simp [evict, note]
    rw [counts_evict, grown]
    dsimp only
    omega
  · rw [trace_evict, List.countP_cons, books.each, evictionCount_evict bound]
    simp [Decision.evicts, eq_comm]
  · rw [evictionCount_evict bound]
    split
    · next same =>
      rw [same, known] at known'
      cases known'
      rw [same]
      omega
    · exact books.capped other w' known'

/-- The books about the webs that have been served: what became of them, and in which stage that left them. -/
structure Tally (p : Problem) (served : Nat) (s : SearchState) : Prop where
  steps : served = s.counts.attempts + s.stageCount .spill + s.stageCount .done + s.counts.spilled
  attempts : s.counts.attempts = s.homeCount + s.counts.evictions + s.counts.demotions
  demotions : s.counts.demotions = s.stageCount .split + s.stageCount .spill + s.stageCount .done
  spills : s.counts.spilled = s.stageCount .done
  onStack : ∀ web, web ∈ SearchState.spilled s.trace ↔ web < p.webs.size ∧ s.stage web = .done

theorem Tally.evicted (tally : Tally p n s) {reg : PhysReg} (holds : s.home? web = some reg) :
    Tally p n (s.evict p reg web) := by
  have homes : (s.evict p reg web).homeCount + 1 = s.homeCount := by
    simpa [holds] using homeCount_set (known_of_home holds) (homes_evict (p := p) reg)
  have count (stage : Stage) : (s.evict p reg web).stageCount stage = s.stageCount stage := by
    rw [stageCount, stages_evict, stageCount]
  refine ⟨?_, ?_, ?_, ?_, fun other => ?_⟩
  · simpa only [counts_evict, count] using tally.steps
  · simp only [counts_evict]
    have := tally.attempts
    omega
  · simpa only [counts_evict, count] using tally.demotions
  · simpa only [counts_evict, count] using tally.spills
  · have trace : SearchState.spilled (s.evict p reg web).trace = SearchState.spilled s.trace := by
      rw [trace_evict]
      rfl
    rw [trace, tally.onStack other, stage_evict]

/-- Evicting the rivals for a register keeps the books: each has been evicted fewer times than its file has registers,
which are also those of the web that takes the register. -/
theorem evictAll_books {served : Option Nat} (sound : Sound p served s) (tally : Tally p n s) (books : Capped p s)
    {reg : PhysReg} {rivals : List Nat} (once : rivals.Nodup) (hold : ∀ rival ∈ rivals, s.home? rival = some reg)
    (room : ∀ rival ∈ rivals, s.evictionCount rival < (p.allowed reg.file).length) :
    Tally p n (rivals.foldl (evict p · reg) s) ∧ Capped p (rivals.foldl (evict p · reg) s) := by
  induction rivals generalizing s with
  | nil => exact ⟨tally, books⟩
  | cons rival rest ih =>
    obtain ⟨absent, once⟩ := List.nodup_cons.mp once
    have holds := hold rival List.mem_cons_self
    obtain ⟨w, known, allowed, -⟩ := sound.fits rival reg holds
    have bound : rival < s.evictions.size := by
      rw [books.size]
      exact (Array.getElem?_eq_some_iff.mp known).1
    have space := room rival List.mem_cons_self
    rw [p.file_of_allowed allowed] at space
    refine ih (sound.evicted holds) (tally.evicted holds) (books.evicted known space reg) once ?_ ?_
    · intro other member
      refine (home?_evict_eq_some (known_of_home holds)).mpr ⟨hold other (List.mem_cons_of_mem _ member), ?_⟩
      rintro rfl
      exact absent member
    · intro other member
      have differ : other ≠ rival := fun same => absent (same ▸ member)
      rw [evictionCount_evict bound, if_neg differ]
      exact room other (List.mem_cons_of_mem _ member)

theorem Tally.onStack_kept (tally : Tally p n s) {stage : Stage} (stages : t.stages = s.stages.setIfInBounds web stage)
    (trace : SearchState.spilled t.trace = SearchState.spilled s.trace) (before : s.stage web ≠ .done)
    (after : stage ≠ .done) (other : Nat) :
    other ∈ SearchState.spilled t.trace ↔ other < p.webs.size ∧ t.stage other = .done := by
  have now : t.stage other = if other = web then stage else s.stage other := by
    rw [SearchState.stage, stages]
    exact stage_set (known_of_stage before)
  rw [trace, tally.onStack other, now]
  split
  · next same => simp [same, before, after]
  · rfl

theorem Tally.assigned (tally : Tally p n s) (waiting : s.stage web = .fresh ∨ s.stage web = .assign)
    (free : s.home? web = none) (known : web < s.homes.size) (reg : PhysReg) :
    Tally p (n + 1) (s.assign p web reg) := by
  have going : s.stage web ≠ .done := by rcases waiting with stage | stage <;> simp [stage]
  have counts : (s.assign p web reg).counts = { s.counts with attempts := s.counts.attempts + 1 } :=
    (counts_congr rfl).trans (s.counts_note (.assign web reg))
  have stages : (s.assign p web reg).stages = s.stages.setIfInBounds web .assign := rfl
  have homes : (s.assign p web reg).homeCount = s.homeCount + 1 := by
    have taken : (s.assign p web reg).homes = s.homes.setIfInBounds web (some reg) := rfl
    simpa [free] using homeCount_set known taken
  obtain ⟨split, spill, done⟩ := stageCounts_set going stages
  have onStack := tally.onStack_kept stages rfl going (by decide)
  obtain ⟨steps, attempts, demotions, spills, -⟩ := tally
  rcases waiting with stage | stage <;> simp only [stage, reduceCtorEq, if_false] at split spill done <;>
    refine ⟨?_, ?_, ?_, ?_, onStack⟩ <;> simp only [counts, homes] <;> omega

theorem Tally.demoted (tally : Tally p n s) (waiting : s.stage web = .fresh ∨ s.stage web = .assign) :
    Tally p (n + 1) (s.demote p web) := by
  have going : s.stage web ≠ .done := by rcases waiting with stage | stage <;> simp [stage]
  have trace : (s.demote p web).trace = .demote web :: s.trace := by simp [demote, advance, note]
  have counts : (s.demote p web).counts =
      { s.counts with attempts := s.counts.attempts + 1, demotions := s.counts.demotions + 1 } :=
    (counts_congr trace).trans (s.counts_note (.demote web))
  have stages : (s.demote p web).stages = s.stages.setIfInBounds web .split := by simp [demote, advance, note]
  have homes : (s.demote p web).homeCount = s.homeCount := by simp [homeCount, demote, advance, note]
  obtain ⟨split, spill, done⟩ := stageCounts_set going stages
  have onStack := tally.onStack_kept stages (by rw [trace]; rfl) going (by decide)
  obtain ⟨steps, attempts, demotions, spills, -⟩ := tally
  rcases waiting with stage | stage <;> simp only [stage, reduceCtorEq, if_true, if_false] at split spill done <;>
    refine ⟨?_, ?_, ?_, ?_, onStack⟩ <;> simp only [counts, homes] <;> omega

theorem Tally.advanced (tally : Tally p n s) (stage : s.stage web = .split) :
    Tally p (n + 1) (s.advance p web .spill) := by
  have going : s.stage web ≠ .done := by simp [stage]
  have trace : (s.advance p web .spill).trace = s.trace := by simp [advance]
  have counts : (s.advance p web .spill).counts = s.counts := counts_congr trace
  have stages : (s.advance p web .spill).stages = s.stages.setIfInBounds web .spill := by simp [advance]
  have homes : (s.advance p web .spill).homeCount = s.homeCount := by simp [homeCount, advance]
  obtain ⟨split, spill, done⟩ := stageCounts_set going stages
  have onStack := tally.onStack_kept stages (by rw [trace]) going (by decide)
  obtain ⟨steps, attempts, demotions, spills, -⟩ := tally
  simp only [stage, reduceCtorEq, if_true, if_false] at split spill done
  refine ⟨?_, ?_, ?_, ?_, onStack⟩ <;> simp only [counts, homes] <;> omega

theorem Tally.spilled (tally : Tally p n s) (known : web < p.webs.size) (stage : s.stage web = .spill) :
    Tally p (n + 1) ({ s with stages := s.stages.setIfInBounds web .done }.note (.spill web)) := by
  generalize result : ({ s with stages := s.stages.setIfInBounds web .done }.note (.spill web)) = t
  have going : s.stage web ≠ .done := by simp [stage]
  have counts : t.counts = { s.counts with spilled := s.counts.spilled + 1 } := by
    rw [← result]
    exact (counts_note _ _).trans rfl
  have stages : t.stages = s.stages.setIfInBounds web .done := by rw [← result, note]
  have homes : t.homeCount = s.homeCount := by rw [← result]; rfl
  obtain ⟨split, spill, done⟩ := stageCounts_set going stages
  have onStack (other : Nat) : other ∈ SearchState.spilled t.trace ↔ other < p.webs.size ∧ t.stage other = .done := by
    have trace : SearchState.spilled t.trace = web :: SearchState.spilled s.trace := by rw [← result]; rfl
    have now : t.stage other = if other = web then .done else s.stage other := by
      rw [SearchState.stage, stages]
      exact stage_set (known_of_stage going)
    rw [trace, List.mem_cons, tally.onStack other, now]
    split
    · next same => simp [same, known]
    · next differ => simp [differ]
  obtain ⟨steps, attempts, demotions, spills, -⟩ := tally
  simp only [stage, reduceCtorEq, if_true, if_false] at split spill done
  refine ⟨?_, ?_, ?_, ?_, onStack⟩ <;> simp only [counts, homes] <;> omega

/-! ## Steps -/

/-- Serving a web keeps the books and adds one to the webs served. -/
theorem Serves.books (sound : Sound p (some web) s) (tally : Tally p n s) (books : Capped p s)
    (serves : Serves p s web t) : Tally p (n + 1) t ∧ Capped p t := by
  cases serves with
  | assigned reg w known waiting allowed evictable =>
    obtain ⟨once, hold⟩ := sound.rivals_hold web reg
    have room : ∀ rival ∈ s.rivals p web reg, s.evictionCount rival < (p.allowed reg.file).length := by
      intro rival member
      rw [p.file_of_allowed allowed, ← p.length_candidates s.hints]
      exact evictable rival member
    obtain ⟨tally, books⟩ := evictAll_books sound tally books once hold room
    have kept := (sound.evictedAll once hold).1
    refine ⟨tally.assigned ?_ (kept.idle web rfl).1 (kept.homes ▸ kept.known) reg,
      books.kept rfl (.inr ⟨.assign web reg, by simp, rfl⟩)⟩
    rw [SearchState.stage, (evictAll_steady reg _).2]
    exact waiting
  | demoted waiting =>
    refine ⟨tally.demoted waiting, books.kept ?_ (.inr ⟨.demote web, by simp, ?_⟩)⟩ <;> simp [demote, advance, note]
  | advanced split =>
    exact ⟨tally.advanced split, books.kept (by simp [advance]) (.inl (by simp [advance]))⟩
  | spilled spill =>
    exact ⟨tally.spilled sound.known spill, books.kept rfl (.inr ⟨.spill web, by simp, rfl⟩)⟩

theorem Serves.moves (serves : Serves p s web t) (other : Nat) : (s.stage other).Moves (t.stage other) := by
  obtain ⟨stage, stages, moves⟩ : ∃ stage, t.stages = s.stages.setIfInBounds web stage ∧
      (s.stage web).Moves stage := by
    cases serves with
    | assigned reg w known waiting allowed evictable =>
      have stages := (@evictAll_steady p s reg (s.rivals p web reg)).2
      refine ⟨.assign, congrArg (·.setIfInBounds web .assign) stages, ?_⟩
      rcases waiting with stage | stage <;> rw [stage]
      · exact .assigned
      · exact .stays _
    | demoted waiting =>
      refine ⟨.split, by simp [demote, advance, note], ?_⟩
      rcases waiting with stage | stage <;> rw [stage]
      · exact .freshDemoted
      · exact .demoted
    | advanced split => exact ⟨.spill, by simp [advance], split ▸ .unsplit⟩
    | spilled spill => exact ⟨.done, rfl, spill ▸ .spilled⟩
  by_cases same : other = web
  · subst same
    by_cases known : other < s.stages.size
    · have now : t.stage other = stage := by simp [SearchState.stage, stages, known]
      rw [now]
      exact moves
    · have outside : t.stage other = s.stage other := by simp [SearchState.stage, stages, known]
      rw [outside]
      exact .stays _
  · have kept : t.stage other = s.stage other := by
      simp [SearchState.stage, stages, Array.getElem?_setIfInBounds_ne (Ne.symm same)]
    rw [kept]
    exact .stays _

/-- The states of the search with the number of webs served on the way. -/
inductive Reaches (p : Problem) : Nat → SearchState → Prop where
  | start : Reaches p 0 (start p)
  | step {n : Nat} {s t : SearchState} : Reaches p n s → s.step? p = some t → Reaches p (n + 1) t

theorem Reaches.reachable (reached : Reaches p n s) : Reachable p s := by
  induction reached with
  | start => exact .start
  | step _ next ih => exact ih.step next

theorem start_books (p : Problem) : Tally p 0 (start p) ∧ Capped p (start p) := by
  have kept (webs : List Nat) (s : SearchState) : (webs.foldl (enqueue p) s).evictions = s.evictions := by
    induction webs generalizing s with
    | nil => rfl
    | cons web rest ih => simpa using ih (s.enqueue p web)
  have evictions := kept (List.range p.webs.size) (blank p)
  obtain ⟨homes, -, stages, trace, -⟩ := enqueueAll_kept p (List.range p.webs.size) (blank p)
  rw [← start_eq, blank] at evictions homes stages trace
  have counts : (start p).counts = {} := by simp [counts, decisions, trace, Stats.ofDecisions]
  have count (stage : Stage) (new : stage ≠ .fresh) : (start p).stageCount stage = 0 := by
    simp [stageCount, stages, List.count_replicate, new.symm]
  have none (web : Nat) : (start p).evictionCount web = 0 := by
    rw [evictionCount, evictions, Array.getElem?_replicate]
    split <;> rfl
  have split := count .split (by decide)
  have spill := count .spill (by decide)
  have done := count .done (by decide)
  refine ⟨⟨?_, ?_, ?_, ?_, fun web => ?_⟩, ⟨?_, ?_, fun web => ?_, fun web w known => ?_⟩⟩
  · simp [counts, spill, done]
  · simp [counts, homeCount, homes, List.countP_replicate]
  · simp [counts, split, spill, done]
  · simp [counts, done]
  · have fresh : web < p.webs.size → (start p).stage web ≠ .done := by
      intro known
      rw [SearchState.stage, stages, Array.getElem?_replicate, if_pos known]
      decide
    simpa [trace, SearchState.spilled] using fresh
  · simp [evictions]
  · simp [counts, evictions]
  · simp [trace, none]
  · simp [none]

theorem Reaches.books (proper : p.Proper) (reached : Reaches p n s) : Tally p n s ∧ Capped p s := by
  induction reached with
  | start => exact start_books p
  | step reached next ih =>
    obtain ⟨tally, books⟩ := ih
    obtain ⟨web, u, found, sound, serves⟩ := step_serves (reached.reachable.sound proper) next
    obtain ⟨ticket, rest, -, -, rfl⟩ := dequeue?_eq_some.mp found
    exact serves.books sound ⟨tally.steps, tally.attempts, tally.demotions, tally.spills, tally.onStack⟩
      ⟨books.size, books.total, books.each, books.capped⟩

/-! ## The end of the search -/

theorem homeCount_le (sound : Sound p none s) : s.homeCount ≤ s.stageCount .assign := by
  rw [stageCount_eq, homeCount_eq, sound.stages, sound.homes]
  refine List.countP_mono_left fun web _ holds => ?_
  obtain ⟨reg, home⟩ := Option.isSome_iff_exists.mp holds
  simpa using sound.holding web reg home

theorem Capped.total_le (books : Capped p s) : s.counts.evictions ≤ p.webs.size * p.allowance := by
  have each : ∀ count ∈ s.evictions.toList, count ≤ p.allowance := by
    intro count member
    obtain ⟨web, bound, rfl⟩ := List.getElem_of_mem member
    rw [Array.length_toList] at bound
    have known : web < p.webs.size := books.size ▸ bound
    have capped := books.capped web p.webs[web] (Array.getElem?_eq_getElem known)
    simp only [evictionCount, Array.getElem?_eq_getElem bound, Option.getD_some] at capped
    rw [Array.getElem_toList]
    exact capped.trans (p.length_allowed_le _)
  rw [books.total, ← books.size, ← Array.length_toList]
  simpa using List.sum_le_card_nsmul _ _ each

theorem Reaches.bounded (proper : p.Proper) (reached : Reaches p n s) : n ≤ p.webs.size * (p.allowance + 3) := by
  obtain ⟨⟨steps, attempts, demotions, spills, -⟩, books⟩ := reached.books proper
  have sound := reached.reachable.sound proper
  have homes := homeCount_le sound
  have evictions := books.total_le
  have all := s.sum_stageCount
  rw [sound.stages] at all
  rw [Nat.mul_add]
  omega

theorem home_of_drained (sound : Sound p none s) (empty : s.queue = []) (going : s.stage web ≠ .done) :
    ∃ reg, s.home? web = some reg := by
  by_contra free
  have waits := (sound.queued web).mpr ⟨Option.eq_none_iff_forall_ne_some.mpr fun reg home => free ⟨reg, home⟩, going,
    nofun⟩
  simp [empty] at waits

theorem drained (sound : Sound p none s) (empty : s.queue = []) : s.stageCount .fresh = 0 ∧ s.stageCount .split = 0 ∧
    s.stageCount .spill = 0 ∧ s.stageCount .assign = s.homeCount := by
  have none {stage : Stage} (other : stage ≠ .assign) (going : stage ≠ .done) : s.stageCount stage = 0 := by
    rw [stageCount_eq, List.countP_eq_zero]
    intro web _ here
    rw [decide_eq_true_eq] at here
    obtain ⟨reg, home⟩ := home_of_drained sound empty (here ▸ going)
    exact other (here.symm.trans (sound.holding web reg home))
  refine ⟨none (by decide) (by decide), none (by decide) (by decide), none (by decide) (by decide), ?_⟩
  refine le_antisymm ?_ (homeCount_le sound)
  rw [stageCount_eq, homeCount_eq, sound.stages, sound.homes]
  refine List.countP_mono_left fun web _ here => ?_
  rw [decide_eq_true_eq] at here
  exact Option.isSome_iff_exists.mpr (home_of_drained sound empty (by simp [here]))

theorem Reaches.run (reached : Reaches p n s) (fuel : Nat) : ∃ k, Reaches p (n + k) (run p fuel s) ∧
    (k = fuel ∨ (SearchState.run p fuel s).step? p = none) := by
  induction fuel generalizing n s with
  | zero => exact ⟨0, reached, .inl rfl⟩
  | succ fuel ih =>
    unfold SearchState.run
    split
    · next stuck => exact ⟨0, reached, .inr stuck⟩
    · next found =>
      obtain ⟨k, reached, ending⟩ := ih (reached.step found)
      refine ⟨k + 1, ?_, ?_⟩
      · rwa [Nat.add_assoc, Nat.add_comm 1] at reached
      · exact ending.imp (congrArg (· + 1)) id

theorem step?_eq_none (sound : Sound p none s) (stuck : s.step? p = none) : s.queue = [] := by
  simp only [step?, sound.fault, Option.isSome_none, Bool.false_eq_true, if_false, dequeue?, Option.map_eq_none_iff]
    at stuck
  exact Ticket.pop?_eq_none stuck

theorem finish_drained (proper : p.Proper) : ∃ n, Reaches p n (finish p) ∧ (finish p).queue = [] := by
  obtain ⟨k, reached, ending⟩ := (Reaches.start (p := p)).run (p.webs.size * (PhysReg.allocatable.length + 3) + 1)
  refine ⟨0 + k, reached, ?_⟩
  have bound := reached.bounded proper
  have more := Nat.mul_le_mul_left p.webs.size (Nat.add_le_add_right p.allowance_le 3)
  rcases ending with used | stuck
  · omega
  · exact step?_eq_none (reached.reachable.sound proper) stuck

theorem length_assignment (sound : Sound p none s) : (p.assignment s).length = s.homeCount := by
  rw [Problem.assignment, Problem.homed, List.length_map, List.length_filterMap_eq_countP, homeCount_eq, sound.homes,
    ← Array.length_toList, List.range_eq_range', ← List.zipIdx_map_snd 0, List.countP_map]
  simp only [Option.isSome_map]
  rfl

theorem counts_spilled (s : SearchState) : s.counts.spilled = (spilled s.trace).length := by
  rw [counts, decisions]
  induction s.trace with
  | nil => rfl
  | cons decision rest ih =>
    cases decision <;> simp_all [Stats.ofDecisions, spilled]

theorem finish_balanced (proper : p.Proper) : ∃ n, Reaches p n (finish p) ∧ (finish p).queue = [] ∧
    n = (finish p).counts.attempts + 2 * (finish p).counts.spilled ∧
    (finish p).counts.attempts = p.webs.size + (finish p).counts.evictions ∧
    (finish p).counts.demotions = (finish p).counts.spilled ∧
    (p.assignment (finish p)).length + (finish p).counts.spilled = p.webs.size := by
  obtain ⟨n, reached, empty⟩ := finish_drained proper
  have sound := reached.reachable.sound proper
  obtain ⟨⟨steps, attempts, demotions, spills, -⟩, -⟩ := reached.books proper
  obtain ⟨fresh, split, spill, homes⟩ := drained sound empty
  have all := (finish p).sum_stageCount
  rw [sound.stages] at all
  have assigned := length_assignment sound
  exact ⟨n, reached, empty, by omega, by omega, by omega, by omega⟩

theorem Reaches.known_of_spilled (proper : p.Proper) (reached : Reaches p n s) (onStack : web ∈ spilled s.trace) :
    web < p.webs.size :=
  (((reached.books proper).1.onStack web).mp onStack).1

end SearchState

/-! ## Balances -/

/-- What holds after `n` webs have been served. -/
structure Progress (p : Problem) (n : Nat) (s : SearchState) : Prop where
  bounded : n ≤ p.webs.size * (p.allowance + 3)
  faultless : s.fault = none
  queuedOnce : (s.queue.map Ticket.web).Nodup
  unfinished : ∀ ticket rest, Ticket.pop? s.queue = some (ticket, rest) → s.stage ticket.web ≠ .done
  moves : ∀ t, s.step? p = some t → ∀ web, (s.stage web).Moves (t.stage web)
  evictions : ∀ web w, p.webs[web]? = some w → s.trace.countP (Decision.evicts web) ≤ (p.allowed w.reg.file).length

/-- The counts of an allocation agree with each other and with what was chosen. -/
structure Balanced (choice : Choice) : Prop where
  attempts : choice.stats.attempts = choice.stats.webs + choice.stats.evictions
  demotions : choice.stats.demotions = choice.stats.spilled
  spilled : choice.stats.spilled = choice.slots.length
  slotsOnce : (choice.slots.map Prod.fst).Nodup
  assigned : choice.stats.assigned = choice.assignment.length
  assignedOnce : (choice.assignment.map Prod.fst).Nodup
  webs : choice.stats.assigned + choice.stats.spilled = choice.stats.webs

theorem progress_of_reaches {p : Problem} (proper : p.Proper) {n : Nat} {s : SearchState}
    (reached : SearchState.Reaches p n s) : Progress p n s := by
  have sound := reached.reachable.sound proper
  refine ⟨reached.bounded proper, sound.fault, sound.queuedOnce, ?_, ?_, ?_⟩
  · intro ticket rest popped
    exact ((sound.dequeued (SearchState.dequeue?_eq_some.mpr ⟨ticket, rest, popped, rfl, rfl⟩)).idle _ rfl).2
  · intro t next
    obtain ⟨web, u, found, -, serves⟩ := SearchState.step_serves sound next
    obtain ⟨ticket, rest, -, -, rfl⟩ := SearchState.dequeue?_eq_some.mp found
    exact serves.moves
  · intro web w known
    have books := (reached.books proper).2
    rw [books.each]
    exact books.capped web w known

section

variable {config : Config} {body : Body} {frame : UInt64}

theorem length_spills : ((Allocation.make config body frame).problem.spills
    (Allocation.make config body frame).search.decisions).length =
      (Allocation.make config body frame).stats.spilled := by
  obtain ⟨n, reached, -⟩ := SearchState.finish_drained (@problem_proper config body frame)
  have spilled : (Allocation.make config body frame).stats.spilled = _ := SearchState.counts_spilled _
  rw [spilled, spills_eq, List.filterMap_reverse, List.length_reverse, List.length_filterMap_eq_countP,
    List.countP_eq_length]
  intro web member
  have known := reached.known_of_spilled problem_proper member
  rw [Option.isSome_map, Array.getElem?_eq_getElem known]
  rfl

theorem plan_slots (complete : (Allocation.make config body frame).plan.ending = .complete) :
    (Allocation.make config body frame).plan.slots.map Prod.fst =
      (Allocation.make config body frame).problem.spills (Allocation.make config body frame).search.decisions :=
  SpillPlan.make_slots complete

theorem slots_perm (complete : (Allocation.make config body frame).plan.ending = .complete) :
    ((Allocation.make config body frame).slots.map Prod.fst).Perm
      ((Allocation.make config body frame).problem.spills (Allocation.make config body frame).search.decisions) := by
  have once : ((Allocation.make config body frame).plan.slots.map Prod.fst).Nodup :=
    plan_slots complete ▸ @spills_nodup config body frame
  exact ((VirtMap.ofList_perm once).map Prod.fst).trans (.of_eq (plan_slots complete))

theorem search_balanced (config : Config) (body : Body) (frame : UInt64) :
    ∃ n, SearchState.Reaches (Allocation.make config body frame).problem n (Allocation.make config body frame).search ∧
      (Allocation.make config body frame).search.queue = [] ∧
      n = (Allocation.make config body frame).stats.attempts + 2 * (Allocation.make config body frame).stats.spilled ∧
      (Allocation.make config body frame).stats.attempts =
        (Allocation.make config body frame).stats.webs + (Allocation.make config body frame).stats.evictions ∧
      (Allocation.make config body frame).stats.demotions = (Allocation.make config body frame).stats.spilled ∧
      (Allocation.make config body frame).stats.assigned + (Allocation.make config body frame).stats.spilled =
        (Allocation.make config body frame).stats.webs := by
  have balanced := SearchState.finish_balanced (@problem_proper config body frame)
  rw [show SearchState.finish (Allocation.make config body frame).problem =
    (Allocation.make config body frame).search from rfl] at balanced
  -- The counts are the same for any allocation; what it was made from would only be unfolded.
  generalize Allocation.make config body frame = a at balanced ⊢
  exact balanced

theorem make_balanced (complete : (Allocation.make config body frame).plan.ending = .complete) :
    Balanced (Allocation.make config body frame).choice := by
  obtain ⟨n, -, -, -, attempts, demotions, webs⟩ := search_balanced config body frame
  have slots := slots_perm complete
  have slotsOnce := slots.nodup_iff.mpr spills_nodup
  have assignedOnce := @assignment_nodup config body frame
  have spilled := calc (Allocation.make config body frame).stats.spilled
    _ = _ := length_spills.symm
    _ = ((Allocation.make config body frame).slots.map Prod.fst).length := slots.length_eq.symm
    _ = (Allocation.make config body frame).slots.length := List.length_map _
  generalize Allocation.make config body frame = a at *
  exact ⟨attempts, demotions, spilled, slotsOnce, rfl, assignedOnce, webs⟩

end

/-- Whatever code is allocated and however, the search makes progress with every web it serves and ends with an empty
queue, and the counts of an allocation that succeeds are in balance. -/
theorem search_drains_in_balance (config : Config) :
    (∀ body frame n s, SearchState.Reaches (Allocation.make config body frame).problem n s →
      Progress (Allocation.make config body frame).problem n s) ∧
    (∀ body frame, ∃ n, SearchState.Reaches (Allocation.make config body frame).problem n
      (Allocation.make config body frame).search ∧ (Allocation.make config body frame).search.queue = [] ∧
      n = (Allocation.make config body frame).stats.attempts +
        2 * (Allocation.make config body frame).stats.spilled) ∧
    ∀ (m : Machine) f done choice, m.allocate config f = .ok done → done.outcome = .ok choice →
      Balanced choice ∧ ∀ node body, m.func f = .ok node → node.layout.head ≠ none → m.body f = .ok body →
        choice.stats = (Allocation.make config body node.frame).stats := by
  refine ⟨fun body frame n s reached => progress_of_reaches problem_proper reached, fun body frame => ?_, ?_⟩
  · obtain ⟨n, reached, empty, steps, -⟩ := search_balanced config body frame
    exact ⟨n, reached, empty, steps⟩
  · intro m f done choice allocated success
    obtain ⟨node, found, ⟨bare, -, rfl⟩ | ⟨body, _, _, body_ok, -, complete, -, -, rfl⟩⟩ :=
      Machine.allocate_ok allocated success
    · refine ⟨⟨rfl, rfl, rfl, .nil, rfl, .nil, rfl⟩, fun other _ found' filled => ?_⟩
      rw [found] at found'
      cases found'
      exact absurd bare filled
    · refine ⟨make_balanced complete, fun other body' found' _ body_ok' => ?_⟩
      rw [found] at found'
      rw [body_ok] at body_ok'
      cases found'
      cases body_ok'
      rfl

/-- A function that needs two registers where one is handed out: the value that is used more takes it from the other
one, which goes to the stack. -/
def pressed : String := ".func f\nli $r0, 1\nli $r1, 2\nadd $r1, $r1, $r0\nmv a0, $r1\nret a0\n"

theorem pressed_search_in_balance :
    ∃ m node body done choice, Source.read pressed = .ok m ∧ m.func ⟨0⟩ = .ok node ∧ m.body ⟨0⟩ = .ok body ∧
      m.allocate { registerLimit := some 1 } ⟨0⟩ = .ok done ∧ done.outcome = .ok choice ∧
      choice.stats.evictions = 1 ∧ choice.stats.spilled = 1 ∧ Balanced choice ∧
      SearchState.Reaches (Allocation.make { registerLimit := some 1 } body node.frame).problem 5
        (Allocation.make { registerLimit := some 1 } body node.frame).search ∧
      Progress (Allocation.make { registerLimit := some 1 } body node.frame).problem 5
        (Allocation.make { registerLimit := some 1 } body node.frame).search := by
  have run : (do
      let m ← (Source.read pressed).toOption
      let node ← (m.func ⟨0⟩).toOption
      let body ← (m.body ⟨0⟩).toOption
      let done ← (m.allocate { registerLimit := some 1 } ⟨0⟩).toOption
      let choice ← done.outcome.toOption
      return decide (node.layout.head ≠ none ∧ choice.stats.evictions = 1 ∧ choice.stats.spilled = 1 ∧
        choice.stats.attempts = 3)) = some true := by
    decide +kernel
  simp only [bind, Option.bind_eq_some_iff, toOption_eq_some, pure, Option.some.injEq, decide_eq_true_eq] at run
  obtain ⟨m, read, node, found, body, body_ok, done, allocated, choice, success, filled, evicted, spilled, tried⟩ := run
  obtain ⟨progress, ends, balance⟩ := search_drains_in_balance { registerLimit := some 1 }
  obtain ⟨balanced, stats⟩ := balance m ⟨0⟩ done choice allocated success
  obtain ⟨n, reached, -, steps⟩ := ends body node.frame
  rw [← stats node body found filled body_ok, tried, spilled] at steps
  subst steps
  exact ⟨m, node, body, done, choice, read, found, body_ok, allocated, success, evicted, spilled, balanced, reached,
    progress _ _ _ _ reached⟩

end RegisterAllocator
