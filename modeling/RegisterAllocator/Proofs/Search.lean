import Mathlib.Data.List.Nodup
import Mathlib.Data.List.Perm.Basic
import RegisterAllocator.Allocation.Search
import RegisterAllocator.Proofs.Ranges

/-!
# The states of the search

What the search keeps from its start to its end (`Sound`): a web holds at most one register, one that it may get, and
shares it only with webs that are never live together with it; and the webs that wait are those that hold no register
and are not on the stack, each once. Both are written down twice, and the two entries agree. While a web is served it
neither waits nor holds a register, so the invariant names the web that is being served, if there is one.
-/

namespace RegisterAllocator

namespace Ticket

theorem pop?_perm {queue rest : List Ticket} {ticket : Ticket} (found : pop? queue = some (ticket, rest)) :
    queue.Perm (ticket :: rest) := by
  induction queue generalizing ticket rest with
  | nil => cases found
  | cons first others ih =>
    unfold pop? at found
    split at found
    · next none =>
      cases found
      cases others with
      | nil => exact .refl _
      | cons second others =>
        unfold pop? at none
        split at none
        · cases none
        · split at none <;> cases none
    · next served left popped =>
      split at found <;> cases found
      · exact .refl _
      · exact (List.Perm.cons first (ih popped)).trans (.swap ..)

end Ticket

namespace Problem

/-- Whether the ranges of every web end no sooner than they start. -/
def Proper (p : Problem) : Prop := ∀ web, ∀ r ∈ p.ranges web, r.Proper

theorem interfere_comm {p : Problem} (proper : p.Proper) (v w : Nat) : p.interfere v w = p.interfere w v :=
  LiveRange.anyConflict_symm (proper v) (proper w)

/-- A web may hold a register that is handed out to its file and is not itself live in the ranges of the web. -/
def Fits (p : Problem) (web : Nat) (reg : PhysReg) : Prop :=
  ∃ w, p.webs[web]? = some w ∧ reg ∈ p.allowed w.reg.file ∧ p.blocked web reg = false

theorem mem_candidates {p : Problem} {hints : Hints} {reg : VirtReg} {candidate : PhysReg}
    (member : candidate ∈ p.candidates hints reg) : candidate ∈ p.allowed reg.file := by
  simp only [candidates] at member
  split at member
  · split at member
    · next allowed =>
      rcases List.mem_cons.mp member with rfl | member
      · exact allowed
      · exact List.mem_of_mem_filter member
    · exact member
  · exact member

end Problem

theorem Occupancy.webs_update (o : Occupancy) (reg : PhysReg) (change : List Nat → List Nat) (other : PhysReg) :
    (o.update reg change).webs other = if other = reg then change (o.webs reg) else o.webs other := by
  induction o with
  | nil => by_cases same : other = reg <;> simp [update, webs, same]
  | cons first rest ih =>
    obtain ⟨here, held⟩ := first
    unfold update
    by_cases same : reg = here
    · subst same
      by_cases asked : other = reg <;> simp [webs, asked]
    · by_cases asked : other = here
      · subst asked
        simp [webs, same, Ne.symm same]
      · simp [webs, same, asked, ih]

namespace SearchState

/-! ## What a state keeps -/

/-- What holds of a search state in which the web `served`, if any, is being served. -/
structure Sound (p : Problem) (served : Option Nat) (s : SearchState) : Prop where
  stages : s.stages.size = p.webs.size
  homes : s.homes.size = p.webs.size
  fits : ∀ web reg, s.home? web = some reg → p.Fits web reg
  holding : ∀ web reg, s.home? web = some reg → s.stage web = .assign
  apart : ∀ v w reg, s.home? v = some reg → s.home? w = some reg → v ≠ w → p.interfere v w = false
  occupantsOnce : ∀ reg, (s.occupants reg).Nodup
  occupants : ∀ reg web, web ∈ s.occupants reg ↔ s.home? web = some reg
  queuedOnce : (s.queue.map Ticket.web).Nodup
  queued : ∀ web, web ∈ s.queue.map Ticket.web ↔ s.home? web = none ∧ s.stage web ≠ .done ∧ served ≠ some web
  marked : ∀ web, s.isQueued web = true ↔ web ∈ s.queue.map Ticket.web
  idle : ∀ web, served = some web → s.home? web = none ∧ s.stage web ≠ .done
  fault : s.fault = none

theorem stage_set {s : SearchState} {web other : Nat} {stage : Stage} (known : web < s.stages.size) :
    ({ s with stages := s.stages.setIfInBounds web stage } : SearchState).stage other =
      if other = web then stage else s.stage other := by
  by_cases same : other = web
  · subst same
    simp [SearchState.stage, known]
  · simp [SearchState.stage, same, Array.getElem?_setIfInBounds_ne (Ne.symm same)]

theorem known_of_stage {s : SearchState} {web : Nat} (going : s.stage web ≠ .done) : web < s.stages.size := by
  by_contra outside
  have absent : s.stages[web]? = none := Array.getElem?_eq_none (by omega)
  exact going (by simp [SearchState.stage, absent])

theorem home?_set {s t : SearchState} {web : Nat} {home : Option PhysReg} (known : web < s.homes.size)
    (homes : t.homes = s.homes.setIfInBounds web home) (other : Nat) :
    t.home? other = if other = web then home else s.home? other := by
  by_cases same : other = web
  · subst same
    simp [home?, homes, known]
  · simp [home?, homes, same, Array.getElem?_setIfInBounds_ne (Ne.symm same)]

theorem occupants_update {s t : SearchState} {reg : PhysReg} (change : List Nat → List Nat)
    (occupancy : t.occupancy = s.occupancy.update reg change) (other : PhysReg) :
    t.occupants other = if other = reg then change (s.occupants reg) else s.occupants other := by
  rw [SearchState.occupants, occupancy, Occupancy.webs_update]
  rfl

theorem ticket_web (p : Problem) (s : SearchState) (web : Nat) : (s.ticket p web).web = web := by
  unfold ticket
  split <;> rfl

section Enqueue

variable (p : Problem) (s : SearchState) (web : Nat)

@[simp] theorem enqueue_homes : (s.enqueue p web).homes = s.homes := by
  unfold enqueue
  split <;> rfl

@[simp] theorem enqueue_occupancy : (s.enqueue p web).occupancy = s.occupancy := by
  unfold enqueue
  split <;> rfl

@[simp] theorem enqueue_trace : (s.enqueue p web).trace = s.trace := by
  unfold enqueue
  split <;> rfl

@[simp] theorem enqueue_stages : (s.enqueue p web).stages = s.stages := by
  unfold enqueue
  split <;> rfl

@[simp] theorem enqueue_fault : (s.enqueue p web).fault = s.fault := by
  unfold enqueue
  split <;> rfl

variable {p s web}

theorem enqueue_new (absent : s.isQueued web = false) :
    s.enqueue p web = { s with queued := web :: s.queued, queue := s.queue ++ [s.ticket p web] } := by
  rw [enqueue, absent]
  rfl

theorem enqueue_queue (absent : s.isQueued web = false) :
    (s.enqueue p web).queue.map Ticket.web = s.queue.map Ticket.web ++ [web] := by
  simp [enqueue_new absent, ticket_web]

theorem enqueue_isQueued (absent : s.isQueued web = false) (other : Nat) :
    (s.enqueue p web).isQueued other = true ↔ other = web ∨ s.isQueued other = true := by
  simp [enqueue_new absent, isQueued]

end Enqueue

/-! ## What each operation keeps -/

variable {p : Problem} {s : SearchState} {web : Nat}

theorem Sound.known (sound : Sound p (some web) s) : web < p.webs.size := by
  rw [← sound.stages]
  exact known_of_stage (sound.idle web rfl).2

theorem dequeue?_eq_some {t : SearchState} : s.dequeue? = some (web, t) ↔
    ∃ ticket rest, Ticket.pop? s.queue = some (ticket, rest) ∧ ticket.web = web ∧
      t = { s with queue := rest, queued := s.queued.filter (· ≠ ticket.web) } := by
  simp only [dequeue?, Option.map_eq_some_iff, Prod.exists, Prod.mk.injEq]
  constructor
  · rintro ⟨ticket, rest, popped, same, rest_eq⟩
    exact ⟨ticket, rest, popped, same, rest_eq.symm⟩
  · rintro ⟨ticket, rest, popped, same, rest_eq⟩
    exact ⟨ticket, rest, popped, same, rest_eq.symm⟩

theorem Sound.dequeued (sound : Sound p none s) {t : SearchState} (found : s.dequeue? = some (web, t)) :
    Sound p (some web) t := by
  obtain ⟨ticket, rest, popped, rfl, rfl⟩ := dequeue?_eq_some.mp found
  have perm : (s.queue.map Ticket.web).Perm (ticket.web :: rest.map Ticket.web) :=
    (Ticket.pop?_perm popped).map Ticket.web
  obtain ⟨absent, once⟩ := List.nodup_cons.mp (perm.nodup sound.queuedOnce)
  refine { sound with queuedOnce := once, queued := fun web => ?_, marked := fun web => ?_, idle := fun web same => ?_ }
  · have queued := sound.queued web
    rw [perm.mem_iff, List.mem_cons] at queued
    change _ ↔ s.home? web = none ∧ s.stage web ≠ .done ∧ _
    by_cases same : web = ticket.web
    · subst same
      simp [absent]
    · have differ : ticket.web ≠ web := fun h => same h.symm
      simpa [same, differ] using queued
  · have marked := sound.marked web
    rw [perm.mem_iff, List.mem_cons] at marked
    by_cases same : web = ticket.web
    · subst same
      simp [isQueued, absent]
    · simpa [isQueued, same] using marked
  · cases same
    have queued := (sound.queued ticket.web).mp (perm.mem_iff.mpr List.mem_cons_self)
    exact ⟨queued.1, queued.2.1⟩

theorem Sound.not_isQueued {served : Option Nat} (sound : Sound p served s)
    (absent : web ∉ s.queue.map Ticket.web) : s.isQueued web = false :=
  Bool.eq_false_iff.mpr fun waits => absent ((sound.marked web).mp waits)

theorem Sound.enqueued (sound : Sound p (some web) s) : Sound p none (s.enqueue p web) := by
  obtain ⟨free, going⟩ := sound.idle web rfl
  have absent : web ∉ s.queue.map Ticket.web := fun member => ((sound.queued web).mp member).2.2 rfl
  have unmarked := sound.not_isQueued absent
  have queue := enqueue_queue (p := p) unmarked
  have marked := enqueue_isQueued (p := p) unmarked
  rw [enqueue_new unmarked] at queue marked ⊢
  refine { sound with
    queuedOnce := ?_, queued := fun other => ?_, marked := fun other => ?_, idle := fun _ h => nomatch h }
  · rw [queue]
    simpa using sound.queuedOnce.concat absent
  · rw [queue, List.mem_append, List.mem_singleton, sound.queued other]
    change _ ↔ s.home? other = none ∧ s.stage other ≠ .done ∧ _
    by_cases same : other = web
    · subst same
      simp [free, going]
    · have differ : web ≠ other := fun h => same h.symm
      simp [same, differ]
  · rw [marked, queue, sound.marked, List.mem_append, List.mem_singleton, or_comm]

/-- The web that is served holds no register, so its stage says nothing about the webs that hold one. -/
theorem Sound.holding_set (sound : Sound p (some web) s) (stage : Stage) {other : Nat} {reg : PhysReg}
    (held : s.home? other = some reg) :
    ({ s with stages := s.stages.setIfInBounds web stage } : SearchState).stage other = .assign := by
  rw [stage_set (known_of_stage (sound.idle web rfl).2), if_neg]
  · exact sound.holding other reg held
  · rintro rfl
    cases (sound.idle other rfl).1.symm.trans held

theorem Sound.restaged (sound : Sound p (some web) s) {stage : Stage} (going : stage ≠ .done) :
    Sound p (some web) { s with stages := s.stages.setIfInBounds web stage } := by
  have known := known_of_stage (sound.idle web rfl).2
  refine { sound with
    stages := by simpa using sound.stages, holding := fun _ _ held => sound.holding_set stage held
    queued := fun other => ?_, idle := fun other same => ?_ }
  · rw [stage_set known]
    change other ∈ s.queue.map Ticket.web ↔ s.home? other = none ∧ _
    rw [sound.queued other]
    by_cases same : other = web
    · simp [same]
    · simp [same]
  · cases same
    rw [stage_set known, if_pos rfl]
    exact ⟨(sound.idle web rfl).1, going⟩

theorem Sound.advanced (sound : Sound p (some web) s) {stage : Stage} (going : stage ≠ .done) :
    Sound p none (s.advance p web stage) :=
  (sound.restaged going).enqueued

theorem Sound.noted {served : Option Nat} (sound : Sound p served s) (decision : Decision) :
    Sound p served (s.note decision) :=
  { sound with }

theorem Sound.demoted (sound : Sound p (some web) s) : Sound p none (s.demote p web) :=
  (sound.noted _).advanced (by decide)

theorem Sound.spilled (sound : Sound p (some web) s) :
    Sound p none ({ s with stages := s.stages.setIfInBounds web .done }.note (.spill web)) := by
  have known := known_of_stage (sound.idle web rfl).2
  apply Sound.noted
  refine { sound with
    stages := by simpa using sound.stages, holding := fun _ _ held => sound.holding_set .done held
    queued := fun other => ?_, idle := fun _ h => nomatch h }
  change other ∈ s.queue.map Ticket.web ↔ s.home? other = none ∧ _
  rw [stage_set known, sound.queued other]
  by_cases same : other = web
  · simp [same]
  · have differ : web ≠ other := fun h => same h.symm
    simp [same, differ]

theorem Sound.home?_assign (sound : Sound p (some web) s) (reg : PhysReg) (other : Nat) :
    (s.assign p web reg).home? other = if other = web then some reg else s.home? other :=
  home?_set (sound.homes ▸ sound.known) rfl other

theorem occupants_assign (reg other : PhysReg) : (s.assign p web reg).occupants other =
    if other = reg then s.occupants reg ++ [web] else s.occupants other :=
  occupants_update (· ++ [web]) rfl other

theorem Sound.apart_assign (sound : Sound p (some web) s) (proper : p.Proper) {reg : PhysReg}
    (free : ∀ other, s.home? other = some reg → p.interfere web other = false) {v w : Nat} {shared : PhysReg}
    (inV : (s.assign p web reg).home? v = some shared) (inW : (s.assign p web reg).home? w = some shared)
    (differ : v ≠ w) : p.interfere v w = false := by
  rw [sound.home?_assign] at inV inW
  -- Of two webs that hold the register one was there before, and it was free of conflicts with the new one.
  split at inV <;> split at inW
  · next sameV sameW => exact absurd (sameV.trans sameW.symm) differ
  · next sameV _ =>
    cases inV
    rw [sameV]
    exact free w inW
  · next _ sameW =>
    cases inW
    rw [sameW, p.interfere_comm proper]
    exact free v inV
  · exact sound.apart v w shared inV inW differ

theorem Sound.nodup_occupants_assign (sound : Sound p (some web) s) (reg other : PhysReg) :
    ((s.assign p web reg).occupants other).Nodup := by
  have outside : web ∉ s.occupants reg := by
    rw [sound.occupants, (sound.idle web rfl).1]
    exact nofun
  rw [occupants_assign]
  split
  · simpa using (sound.occupantsOnce reg).concat outside
  · exact sound.occupantsOnce other

theorem Sound.mem_occupants_assign (sound : Sound p (some web) s) (reg other : PhysReg) (v : Nat) :
    v ∈ (s.assign p web reg).occupants other ↔ (s.assign p web reg).home? v = some other := by
  rw [occupants_assign, sound.home?_assign]
  by_cases here : other = reg
  · subst here
    rw [if_pos rfl, List.mem_append, List.mem_singleton, sound.occupants]
    split
    · next same => simp [same]
    · next differ => simp [differ]
  · rw [if_neg here, sound.occupants]
    split
    · next same => simp [same, (sound.idle web rfl).1, Ne.symm here]
    · rfl

/-- A web takes a register: it is written down with the web and among the occupants of the register. -/
theorem Sound.assigned (sound : Sound p (some web) s) (proper : p.Proper) {reg : PhysReg} (fits : p.Fits web reg)
    (free : ∀ other, s.home? other = some reg → p.interfere web other = false) :
    Sound p none (s.assign p web reg) := by
  have home := sound.home?_assign reg
  have stage (other : Nat) : (s.assign p web reg).stage other = if other = web then .assign else s.stage other :=
    stage_set (known_of_stage (sound.idle web rfl).2)
  constructor
  case stages => simpa [assign, note] using sound.stages
  case homes => simpa [assign, note] using sound.homes
  case fits =>
    intro other otherReg holds
    rw [home] at holds
    split at holds
    · next same =>
      cases holds
      rw [same]
      exact fits
    · exact sound.fits other otherReg holds
  case holding =>
    intro other otherReg holds
    rw [home] at holds
    rw [stage]
    split at holds
    · next same => rw [if_pos same]
    · next differ =>
      rw [if_neg differ]
      exact sound.holding other otherReg holds
  case apart => exact fun _ _ _ => sound.apart_assign proper free
  case occupantsOnce => exact sound.nodup_occupants_assign reg
  case occupants => exact sound.mem_occupants_assign reg
  case queuedOnce => exact sound.queuedOnce
  case queued =>
    intro other
    change other ∈ s.queue.map Ticket.web ↔ _
    rw [home, stage, sound.queued other]
    by_cases same : other = web
    · simp [same]
    · have differ : web ≠ other := fun h => same h.symm
      simp [same, differ]
  case marked => exact sound.marked
  case idle => exact fun _ h => nomatch h
  case fault => exact sound.fault

theorem homes_evict (reg : PhysReg) : (s.evict p reg web).homes = s.homes.setIfInBounds web none := by
  simp [evict, note]

theorem home?_evict (known : web < s.homes.size) (reg : PhysReg) (other : Nat) :
    (s.evict p reg web).home? other = if other = web then none else s.home? other :=
  home?_set known (homes_evict reg) other

theorem home?_evict_eq_some (known : web < s.homes.size) {reg otherReg : PhysReg} {other : Nat} :
    (s.evict p reg web).home? other = some otherReg ↔ s.home? other = some otherReg ∧ other ≠ web := by
  rw [home?_evict known]
  split
  · next same => simp [same]
  · next differ => simp [differ]

theorem stages_evict (reg : PhysReg) : (s.evict p reg web).stages = s.stages := by simp [evict, note]

theorem known_of_home {reg : PhysReg} (holds : s.home? web = some reg) : web < s.homes.size := by
  by_contra outside
  have absent : s.homes[web]? = none := Array.getElem?_eq_none (by omega)
  rw [home?, absent] at holds
  cases holds

theorem occupants_evict (reg other : PhysReg) : (s.evict p reg web).occupants other =
    if other = reg then (s.occupants reg).filter (· ≠ web) else s.occupants other :=
  occupants_update _ (by simp [evict, note]) other

theorem stage_evict (reg : PhysReg) (other : Nat) : (s.evict p reg web).stage other = s.stage other := by
  rw [SearchState.stage, SearchState.stage, stages_evict]

section Evict

variable {served : Option Nat} {reg : PhysReg}

theorem Sound.nodup_occupants_evict (sound : Sound p served s) (web : Nat) (reg other : PhysReg) :
    ((s.evict p reg web).occupants other).Nodup := by
  rw [occupants_evict]
  split
  · exact (sound.occupantsOnce reg).filter _
  · exact sound.occupantsOnce other

theorem Sound.mem_occupants_evict (sound : Sound p served s) (holds : s.home? web = some reg) (other : PhysReg)
    (v : Nat) : v ∈ (s.evict p reg web).occupants other ↔ (s.evict p reg web).home? v = some other := by
  rw [occupants_evict, home?_evict_eq_some (known_of_home holds)]
  by_cases here : other = reg
  · subst here
    rw [if_pos rfl, List.mem_filter, sound.occupants, decide_eq_true_eq]
  · rw [if_neg here, sound.occupants]
    refine ⟨fun held => ⟨held, ?_⟩, And.left⟩
    -- A web holds one register only, so the one that is evicted holds no other one.
    rintro rfl
    cases holds.symm.trans held
    exact here rfl

theorem Sound.notMem_queue (sound : Sound p served s) (holds : s.home? web = some reg) :
    web ∉ s.queue.map Ticket.web := by
  rw [sound.queued web, holds]
  exact nofun

theorem Sound.queue_evict (sound : Sound p served s) (holds : s.home? web = some reg) :
    (s.evict p reg web).queue.map Ticket.web = s.queue.map Ticket.web ++ [web] := by
  unfold evict
  exact enqueue_queue (sound.not_isQueued (sound.notMem_queue holds))

theorem Sound.isQueued_evict (sound : Sound p served s) (holds : s.home? web = some reg) (other : Nat) :
    (s.evict p reg web).isQueued other = true ↔ other ∈ (s.evict p reg web).queue.map Ticket.web := by
  have unmarked := sound.not_isQueued (sound.notMem_queue holds)
  have marked : (s.evict p reg web).isQueued other = true ↔ other = web ∨ s.isQueued other = true := by
    unfold evict
    exact (enqueue_isQueued (by exact unmarked) other).trans Iff.rfl
  rw [marked, sound.queue_evict holds, sound.marked, List.mem_append, List.mem_singleton, or_comm]

/-- A web loses its register: it is struck off with the web and among the occupants of the register, and it waits. -/
theorem Sound.evicted (sound : Sound p served s) (holds : s.home? web = some reg) :
    Sound p served (s.evict p reg web) := by
  have known := known_of_home holds
  have home := home?_evict (p := p) known reg
  have still {other : Nat} {otherReg : PhysReg} (held : (s.evict p reg web).home? other = some otherReg) :
      s.home? other = some otherReg := ((home?_evict_eq_some known).mp held).1
  have idle : served ≠ some web := fun same => by cases (sound.idle web same).1.symm.trans holds
  constructor
  case stages => rw [stages_evict, sound.stages]
  case homes => simpa [homes_evict] using sound.homes
  case fits => exact fun other otherReg held => sound.fits other otherReg (still held)
  case holding =>
    intro other otherReg held
    rw [stage_evict]
    exact sound.holding other otherReg (still held)
  case apart => exact fun v w otherReg inV inW => sound.apart v w otherReg (still inV) (still inW)
  case occupantsOnce => exact sound.nodup_occupants_evict web reg
  case occupants => exact sound.mem_occupants_evict holds
  case queuedOnce =>
    rw [sound.queue_evict holds]
    simpa using sound.queuedOnce.concat (sound.notMem_queue holds)
  case queued =>
    intro other
    rw [sound.queue_evict holds, stage_evict, home, List.mem_append, List.mem_singleton, sound.queued other]
    by_cases same : other = web
    · subst same
      simp [sound.holding other reg holds, idle]
    · simp [same]
  case marked => exact sound.isQueued_evict holds
  case idle =>
    intro other same
    rw [stage_evict, home]
    refine ⟨?_, (sound.idle other same).2⟩
    split
    · rfl
    · exact (sound.idle other same).1
  case fault => simpa [evict, note] using sound.fault

end Evict

theorem Sound.evictedAll {served : Option Nat} (sound : Sound p served s) {reg : PhysReg} {rivals : List Nat}
    (once : rivals.Nodup) (hold : ∀ rival ∈ rivals, s.home? rival = some reg) :
    Sound p served (rivals.foldl (evict p · reg) s) ∧ ∀ other otherReg,
      (rivals.foldl (evict p · reg) s).home? other = some otherReg ↔
        s.home? other = some otherReg ∧ other ∉ rivals := by
  induction rivals generalizing s with
  | nil => exact ⟨sound, by simp⟩
  | cons rival rest ih =>
    obtain ⟨absent, once⟩ := List.nodup_cons.mp once
    have holds := hold rival List.mem_cons_self
    have known := known_of_home holds
    have others : ∀ other ∈ rest, (s.evict p reg rival).home? other = some reg := by
      intro other member
      refine (home?_evict_eq_some known).mpr ⟨hold other (List.mem_cons_of_mem _ member), ?_⟩
      rintro rfl
      exact absent member
    obtain ⟨kept, held⟩ := ih (sound.evicted holds) once others
    refine ⟨kept, fun other otherReg => ?_⟩
    rw [List.foldl_cons, held, home?_evict_eq_some known, List.mem_cons]
    tauto

/-! ## What a step can do -/

theorem offer?_eq_some {cap : Nat} {reg : PhysReg} {offer : Offer} (found : s.offer? p web cap reg = some offer) :
    offer.reg = reg ∧ offer.rivals = s.rivals p web reg ∧ p.blocked web reg = false ∧
      ∀ rival ∈ s.rivals p web reg, s.evictionCount rival < cap := by
  simp only [offer?] at found
  split at found
  · cases found
  · next clear =>
    split at found
    · cases found
    · next evictable =>
      cases found
      refine ⟨rfl, rfl, by simpa using clear, fun rival member => ?_⟩
      simpa using evictable ∘ List.any_eq_true.mpr ∘ fun capped => ⟨rival, member, capped⟩

/-- A step that keeps the best so far or takes the next ends with the first best or with one of the list. -/
theorem foldl_chosen {α : Type} {choose : Option α → α → Option α}
    (keeps : ∀ best a, choose best a = best ∨ choose best a = some a) {as : List α} {best : Option α} {chosen : α}
    (found : as.foldl choose best = some chosen) : best = some chosen ∨ chosen ∈ as := by
  induction as generalizing best with
  | nil => exact .inl found
  | cons first rest ih =>
    rcases ih found with here | later
    · rcases keeps best first with kept | taken
      · exact .inl (kept ▸ here)
      · cases taken.symm.trans here
        exact .inr List.mem_cons_self
    · exact .inr (List.mem_cons_of_mem _ later)

theorem cheapest?_mem {cap : Nat} {regs : List PhysReg} {offer : Offer}
    (found : s.cheapest? p web cap regs = some offer) : ∃ reg ∈ regs, s.offer? p web cap reg = some offer := by
  have chosen : none = some offer ∨ offer ∈ regs.filterMap (s.offer? p web cap) := by
    refine foldl_chosen (fun best next => ?_) found
    cases best with
    | none => exact .inr rfl
    | some held =>
      dsimp only
      split_ifs
      · exact .inr rfl
      · exact .inl rfl
  rcases chosen with absurd | member
  · cases absurd
  · obtain ⟨reg, candidate, offered⟩ := List.mem_filterMap.mp member
    exact ⟨reg, candidate, offered⟩

/-- An attempt gives the web a candidate register from which its rivals, if any, are evicted, or demotes it. -/
theorem attempt_cases {w : Web} (known : p.webs[web]? = some w) :
    (∃ reg ∈ p.candidates s.hints w.reg, p.blocked web reg = false ∧
      (∀ rival ∈ s.rivals p web reg, s.evictionCount rival < (p.candidates s.hints w.reg).length) ∧
      s.attempt p web = ((s.rivals p web reg).foldl (evict p · reg) s).assign p web reg) ∨
    s.attempt p web = s.demote p web := by
  unfold attempt
  simp only [known]
  split
  · next reg found =>
    have free := List.find?_some found
    rw [Bool.and_eq_true, Bool.not_eq_true', List.isEmpty_iff] at free
    refine .inl ⟨reg, List.mem_of_find?_eq_some found, free.1, ?_, ?_⟩ <;> simp [free.2]
  · split
    · exact .inr rfl
    · next offer cheapest =>
      split
      · obtain ⟨reg, candidate, offered⟩ := cheapest?_mem cheapest
        obtain ⟨rfl, rivals, clear, evictable⟩ := offer?_eq_some offered
        exact .inl ⟨offer.reg, candidate, clear, evictable, by rw [rivals]⟩
      · exact .inr rfl

theorem Sound.located (sound : Sound p (some web) s) : ∃ w, p.webs[web]? = some w :=
  ⟨_, Array.getElem?_eq_getElem sound.known⟩

theorem Sound.rivals_hold {served : Option Nat} (sound : Sound p served s) (web : Nat) (reg : PhysReg) :
    (s.rivals p web reg).Nodup ∧ ∀ rival ∈ s.rivals p web reg, s.home? rival = some reg :=
  ⟨(sound.occupantsOnce reg).filter _, fun rival member => (sound.occupants reg rival).mp (List.mem_of_mem_filter member)⟩

theorem Sound.attempted (sound : Sound p (some web) s) (proper : p.Proper) : Sound p none (s.attempt p web) := by
  obtain ⟨w, located⟩ := sound.located
  rcases attempt_cases located with ⟨reg, candidate, clear, -, result⟩ | result
  · rw [result]
    obtain ⟨once, hold⟩ := sound.rivals_hold web reg
    obtain ⟨kept, held⟩ := sound.evictedAll once hold
    refine kept.assigned proper ⟨_, located, p.mem_candidates candidate, clear⟩ fun other holds => ?_
    obtain ⟨holds, stays⟩ := (held other reg).mp holds
    by_contra conflict
    exact stays (List.mem_filter.mpr ⟨(sound.occupants reg other).mpr holds, by simpa using conflict⟩)
  · rw [result]
    exact sound.demoted

theorem step?_eq_some {t : SearchState} :
    s.step? p = some t ↔ s.fault = none ∧ ∃ web u, s.dequeue? = some (web, u) ∧ u.serve p web = t := by
  rw [step?]
  cases fault : s.fault with
  | none => simp
  | some fault => simp

theorem Sound.stepped {t : SearchState} (sound : Sound p none s) (proper : p.Proper) (next : s.step? p = some t) :
    Sound p none t := by
  obtain ⟨-, web, u, found, rfl⟩ := step?_eq_some.mp next
  have served := sound.dequeued found
  unfold serve
  cases stage : u.stage web with
  | fresh => exact served.attempted proper
  | assign => exact served.attempted proper
  | split => exact served.advanced (by decide)
  | spill => exact served.spilled
  | done => exact absurd stage (served.idle _ rfl).2

/-- Webs that do not wait and are told apart come to wait in order. -/
theorem enqueueAll (p : Problem) {webs : List Nat} (once : (s.queue.map Ticket.web ++ webs).Nodup)
    (marked : ∀ web, s.isQueued web = true ↔ web ∈ s.queue.map Ticket.web) :
    (webs.foldl (enqueue p) s).queue.map Ticket.web = s.queue.map Ticket.web ++ webs ∧
      ∀ web, (webs.foldl (enqueue p) s).isQueued web = true ↔
        web ∈ (webs.foldl (enqueue p) s).queue.map Ticket.web := by
  induction webs generalizing s with
  | nil => exact ⟨by simp, marked⟩
  | cons web rest ih =>
    have unmarked : s.isQueued web = false := by
      rw [Bool.eq_false_iff, ne_eq, marked]
      exact fun member => (List.nodup_append.mp once).2.2 web member web List.mem_cons_self rfl
    have queue := enqueue_queue (p := p) unmarked
    obtain ⟨waits, agree⟩ := @ih (s.enqueue p web) (by simpa [queue] using once) fun other => by
      rw [enqueue_isQueued unmarked, queue, marked, List.mem_append, List.mem_singleton, or_comm]
    exact ⟨by simp [waits, queue], agree⟩

theorem enqueueAll_kept (p : Problem) (webs : List Nat) (s : SearchState) :
    (webs.foldl (enqueue p) s).homes = s.homes ∧ (webs.foldl (enqueue p) s).occupancy = s.occupancy ∧
      (webs.foldl (enqueue p) s).stages = s.stages ∧ (webs.foldl (enqueue p) s).trace = s.trace ∧
      (webs.foldl (enqueue p) s).fault = s.fault := by
  induction webs generalizing s with
  | nil => exact ⟨rfl, rfl, rfl, rfl, rfl⟩
  | cons web rest ih => simpa using ih (s.enqueue p web)

def blank (p : Problem) : SearchState :=
  { stages := Array.replicate p.webs.size .fresh, homes := Array.replicate p.webs.size none
    evictions := Array.replicate p.webs.size 0, hints := p.hints }

theorem start_eq (p : Problem) : start p = (List.range p.webs.size).foldl (enqueue p) (blank p) := rfl

theorem start_sound (p : Problem) : Sound p none (start p) := by
  have once : ((blank p).queue.map Ticket.web ++ List.range p.webs.size).Nodup := by
    simpa [blank] using List.nodup_range
  obtain ⟨queue, marked⟩ := enqueueAll p once (by simp [blank, isQueued])
  obtain ⟨homes, occupancy, stages, -, fault⟩ := enqueueAll_kept p (List.range p.webs.size) (blank p)
  rw [← start_eq] at queue marked homes occupancy stages fault
  have stage (web : Nat) : (start p).stage web ≠ .done ↔ web < p.webs.size := by
    rw [SearchState.stage, stages, blank, Array.getElem?_replicate]
    split <;> simp_all
  have home (web : Nat) : (start p).home? web = none := by
    rw [home?, homes, blank, Array.getElem?_replicate]
    split <;> rfl
  have occupants (reg : PhysReg) : (start p).occupants reg = [] := by
    rw [SearchState.occupants, occupancy]
    rfl
  constructor
  case stages => simp [stages, blank]
  case homes => simp [homes, blank]
  case fits => simp [home]
  case holding => simp [home]
  case apart => simp [home]
  case occupantsOnce => simp [occupants]
  case occupants => simp [occupants, home]
  case queuedOnce =>
    rw [queue]
    simpa [blank] using List.nodup_range
  case queued =>
    intro web
    rw [queue, home, stage]
    simp [blank]
  case marked => exact marked
  case idle => exact fun _ h => nomatch h
  case fault => simp [fault, blank]

/-- The states that the search passes through. -/
inductive Reachable (p : Problem) : SearchState → Prop where
  | start : Reachable p (start p)
  | step {s t : SearchState} : Reachable p s → s.step? p = some t → Reachable p t

theorem Reachable.sound (proper : p.Proper) (reached : Reachable p s) : Sound p none s := by
  induction reached with
  | start => exact start_sound p
  | step _ next ih => exact ih.stepped proper next

theorem Reachable.run (reached : Reachable p s) (fuel : Nat) : Reachable p (run p fuel s) := by
  induction fuel generalizing s with
  | zero => exact reached
  | succ fuel ih =>
    unfold SearchState.run
    split
    · exact reached
    · next found => exact ih (reached.step found)

theorem finish_reachable (p : Problem) : Reachable p (finish p) := Reachable.start.run _

/-! ## Webs on the stack -/

def spilled (decisions : List Decision) : List Nat :=
  decisions.filterMap fun decision =>
    match decision with
    | .spill web => some web
    | _ => none

/-- A state keeps what another has decided: no further web has gone to the stack, and none has come back. -/
structure Steady (s t : SearchState) : Prop where
  trace : spilled t.trace = spilled s.trace
  done : ∀ web, s.stage web = .done → t.stage web = .done

theorem Steady.restaged {stage : Stage} {t : SearchState} (going : s.stage web ≠ .done)
    (trace : spilled t.trace = spilled s.trace) (stages : t.stages = s.stages.setIfInBounds web stage) :
    Steady s t := by
  refine ⟨trace, fun other finished => ?_⟩
  have differ : other ≠ web := fun same => going (same ▸ finished)
  have stage : t.stage other = s.stage other := by
    simp [SearchState.stage, stages, Array.getElem?_setIfInBounds_ne (Ne.symm differ)]
  rw [stage, finished]

theorem advance_steady {stage : Stage} (going : s.stage web ≠ .done) : Steady s (s.advance p web stage) :=
  .restaged going (by simp [advance]) (show _ = s.stages.setIfInBounds web stage by simp [advance])

theorem evictAll_steady (reg : PhysReg) (rivals : List Nat) :
    spilled (rivals.foldl (evict p · reg) s).trace = spilled s.trace ∧
      (rivals.foldl (evict p · reg) s).stages = s.stages := by
  induction rivals generalizing s with
  | nil => exact ⟨rfl, rfl⟩
  | cons rival rest ih =>
    obtain ⟨trace, stages⟩ := @ih (s.evict p reg rival)
    exact ⟨trace.trans (by simp [evict, note, spilled]), stages.trans (by simp [evict, note])⟩

theorem attempt_steady (going : s.stage web ≠ .done) : Steady s (s.attempt p web) := by
  cases known : p.webs[web]? with
  | none =>
    simp only [attempt, known]
    exact ⟨rfl, fun _ finished => finished⟩
  | some w =>
    rcases attempt_cases known with ⟨reg, -, -, -, result⟩ | result
    · obtain ⟨trace, stages⟩ := @evictAll_steady p s reg (s.rivals p web reg)
      rw [result]
      exact .restaged going trace (congrArg (·.setIfInBounds web .assign) stages)
    · rw [result]
      exact .restaged going (by simp [demote, advance, note, spilled])
        (show _ = s.stages.setIfInBounds web .split by simp [demote, advance, note])

theorem Steady.dequeued {t u : SearchState} (found : s.dequeue? = some (web, u)) (steady : Steady u t) : Steady s t := by
  obtain ⟨ticket, rest, -, -, rfl⟩ := dequeue?_eq_some.mp found
  exact ⟨steady.trace, steady.done⟩

/-- A step sends no web to the stack, or one that has not been sent there. -/
theorem step_spills {t : SearchState} (next : s.step? p = some t) :
    Steady s t ∨ ∃ web, s.stage web ≠ .done ∧ t.stage web = .done ∧ spilled t.trace = web :: spilled s.trace ∧
      ∀ other, s.stage other = .done → t.stage other = .done := by
  obtain ⟨-, web, u, found, rfl⟩ := step?_eq_some.mp next
  unfold serve
  cases stage : u.stage web with
  | fresh => exact .inl (.dequeued found (attempt_steady (by simp [stage])))
  | assign => exact .inl (.dequeued found (attempt_steady (by simp [stage])))
  | split => exact .inl (.dequeued found (advance_steady (by simp [stage])))
  | spill =>
    obtain ⟨ticket, rest, -, rfl, rfl⟩ := dequeue?_eq_some.mp found
    have here : s.stage ticket.web = .spill := stage
    have going : s.stage ticket.web ≠ .done := by simp [here]
    have after (other : Nat) : SearchState.stage (note { s with
        queue := rest, queued := s.queued.filter (· ≠ ticket.web)
        stages := s.stages.setIfInBounds ticket.web .done } (.spill ticket.web)) other =
        if other = ticket.web then .done else s.stage other :=
      stage_set (s := s) (known_of_stage going)
    refine .inr ⟨ticket.web, going, by rw [after, if_pos rfl], rfl, fun other done => ?_⟩
    rw [after]
    split
    · rfl
    · exact done
  | done => exact .inl (.dequeued found ⟨rfl, fun _ done => done⟩)

/-- No web is sent to the stack twice, and one that has been sent there stays. -/
theorem Reachable.spilledOnce (reached : Reachable p s) :
    (spilled s.trace).Nodup ∧ ∀ web ∈ spilled s.trace, s.stage web = .done := by
  induction reached with
  | start =>
    have empty : (SearchState.start p).trace = [] := (enqueueAll_kept p _ (blank p)).2.2.2.1
    simp [empty, spilled]
  | @step s t reached next ih =>
    obtain ⟨once, done⟩ := ih
    rcases step_spills next with ⟨trace, kept⟩ | ⟨web, going, here, trace, kept⟩
    · rw [trace]
      exact ⟨once, fun other member => kept other (done other member)⟩
    · rw [trace]
      refine ⟨List.nodup_cons.mpr ⟨fun member => going (done web member), once⟩, fun other member => ?_⟩
      rcases List.mem_cons.mp member with rfl | member
      · exact here
      · exact kept other (done other member)

end SearchState

end RegisterAllocator
