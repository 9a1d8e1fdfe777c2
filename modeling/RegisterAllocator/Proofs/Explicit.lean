import RegisterAllocator.Proofs.Sharing
import RegisterAllocator.Source.Reader

/-!
# Registers that the code names

Code may name physical registers itself. Where such a register is live is respected for the argument and temporary
registers: no value that the allocator puts there is live at the same time (`assigned_clear_of_explicit`). The
callee-saved registers are handed out without looking at where the code uses them; code that names one may find a
virtual register in it (`explicit_callee_saved_shared`).
-/

namespace RegisterAllocator

/-- The ranges over which the code itself keeps values in a register, found by following it like a virtual one. -/
def explicitRanges (body : Body) (reg : PhysReg) : List LiveRange :=
  (LiveRanges.ofBody (fun other => other.isTracked || other = .phys reg) body).ranges reg

def Body.Names (body : Body) (reg : PhysReg) : Prop :=
  ∃ inst ∈ body.insts, .phys reg ∈ inst.uses ∨ .phys reg ∈ inst.defs

theorem explicitRanges_of_fixed {body : Body} {reg : PhysReg} (fixed : reg.isFixed = true) :
    explicitRanges body reg = (liveRanges body).ranges reg := by
  have same : (fun other : Reg => other.isTracked || decide (other = .phys reg)) = Reg.isTracked := by
    funext other
    by_cases here : other = .phys reg
    · simp [here, Reg.isTracked, fixed]
    · simp [here]
  rw [explicitRanges, same]

theorem explicitRanges_of_not_named {body : Body} {reg : PhysReg} (unnamed : ¬body.Names reg) :
    explicitRanges body reg = [] := by
  rw [explicitRanges, LiveRanges.ranges_ofBody, if_neg]
  exact fun member => unnamed (Liveness.mem_regs.mp member).2

theorem fixed_of_handedOut {config : Config} {file : RegFile} {reg : PhysReg} (handed : HandedOut config file reg)
    (clobbered : reg ∉ PhysReg.calleeSaved) : reg.isFixed = true := by
  have all : ∀ reg ∈ PhysReg.allocatable, reg ∉ PhysReg.calleeSaved → reg.isFixed = true := by decide
  obtain ⟨-, place, located, -⟩ := handed
  exact all reg (List.mem_of_mem_filter (List.mem_of_getElem? located)) clobbered

/-- A virtual register is never live together with the register that it got, where the code keeps a value of its own in
that register, unless the code names a callee-saved register. -/
theorem assigned_clear_of_explicit {m : Machine} {f : FuncId} {body : Body} {config : Config} {done : Machine.Allocated}
    {choice : Choice} (body_ok : m.body f = .ok body) (allocated : m.allocate config f = .ok done)
    (success : done.outcome = .ok choice) {v : VirtReg} {reg : PhysReg} (assigned : (v, reg) ∈ choice.assignment)
    (spared : reg ∉ PhysReg.calleeSaved ∨ ¬body.Names reg) :
    LiveRange.anyConflict ((liveRanges body).ranges v) (explicitRanges body reg) = false ∧
      LiveRange.anyConflict (explicitRanges body reg) ((liveRanges body).ranges v) = false := by
  obtain ⟨node, -, ⟨-, -, rfl⟩ | ⟨other, _, _, other_ok, -, -, -, -, rfl⟩⟩ := Machine.allocate_ok allocated success
  · cases assigned
  rw [body_ok] at other_ok
  cases other_ok
  have separates : Separates config (liveRanges body) (Allocation.make config body node.frame).assignment :=
    make_separates
  rcases spared with clobbered | unnamed
  · have fixed := fixed_of_handedOut (separates.handedOut v reg assigned) clobbered
    rw [explicitRanges_of_fixed fixed]
    exact separates.clear v reg assigned fixed
  · rw [explicitRanges_of_not_named unnamed]
    simp [LiveRange.anyConflict]

/-- A function that copies a constant out of `a0` and doubles the copy. -/
def constantDoubled : String := ".func f\nli a0, 5\nmv $r0, a0\nadd a1, $r0, $r0\nret a1\n"

/-- The copy is put into `a0` itself, whose explicit range ends where that of the copy starts. -/
theorem copy_clear_of_argument :
    ∃ m body done choice, Source.read constantDoubled = .ok m ∧ m.body ⟨0⟩ = .ok body ∧
      m.allocate {} ⟨0⟩ = .ok done ∧ done.outcome = .ok choice ∧ (⟨0, .general⟩, .x 10) ∈ choice.assignment ∧
      .x 10 ∉ PhysReg.calleeSaved ∧ explicitRanges body (.x 10) = [⟨0, 0, 1, 2⟩] ∧
      (liveRanges body).ranges (.virt ⟨0, .general⟩) = [⟨0, 1, 2, 2⟩] ∧
      LiveRange.anyConflict ((liveRanges body).ranges (.virt ⟨0, .general⟩)) (explicitRanges body (.x 10)) = false := by
  have run : (do
      let m ← (Source.read constantDoubled).toOption
      let body ← (m.body ⟨0⟩).toOption
      let done ← (m.allocate {} ⟨0⟩).toOption
      let choice ← done.outcome.toOption
      return decide (((⟨0, .general⟩, .x 10) : VirtReg × PhysReg) ∈ choice.assignment ∧
        explicitRanges body (.x 10) = [⟨0, 0, 1, 2⟩] ∧
        (liveRanges body).ranges (.virt ⟨0, .general⟩) = [⟨0, 1, 2, 2⟩])) = some true := by
    decide +kernel
  simp only [bind, Option.bind_eq_some_iff, toOption_eq_some, pure, Option.some.injEq, decide_eq_true_eq] at run
  obtain ⟨m, read, body, body_ok, done, allocated, choice, success, assigned, explicit, live⟩ := run
  have saved : .x 10 ∉ PhysReg.calleeSaved := by decide
  exact ⟨m, body, done, choice, read, body_ok, allocated, success, assigned, saved, explicit, live,
    (assigned_clear_of_explicit body_ok allocated success assigned (.inl saved)).1⟩

/-- A function that reads `s1` twice and changes a copy of it in between. -/
def copiedTwice : String := ".func f\nmv $r0, s1\naddi $r0, $r0, 1\nadd a0, $r0, s1\nret a0\n"

/-- The copy of a callee-saved register is put into the register itself, though the code reads it again later. -/
theorem explicit_callee_saved_shared :
    ¬∀ (source : String) (m : Machine) (f : FuncId) (body : Body) (config : Config) (done : Machine.Allocated)
      (choice : Choice) (v : VirtReg) (reg : PhysReg),
      Source.read source = .ok m → m.body f = .ok body → m.allocate config f = .ok done → done.outcome = .ok choice →
      (v, reg) ∈ choice.assignment → reg.isAllocatable = true →
      LiveRange.anyConflict ((liveRanges body).ranges v) (explicitRanges body reg) = false := by
  intro never
  have run : (do
      let m ← (Source.read copiedTwice).toOption
      let body ← (m.body ⟨0⟩).toOption
      let done ← (m.allocate {} ⟨0⟩).toOption
      let choice ← done.outcome.toOption
      return decide (((⟨0, .general⟩, .x 9) : VirtReg × PhysReg) ∈ choice.assignment ∧
        LiveRange.anyConflict ((liveRanges body).ranges (.virt ⟨0, .general⟩)) (explicitRanges body (.x 9)) = true)) =
      some true := by
    decide +kernel
  simp only [bind, Option.bind_eq_some_iff, toOption_eq_some, pure, Option.some.injEq, decide_eq_true_eq] at run
  obtain ⟨m, read, body, body_ok, done, allocated, choice, success, assigned, conflict⟩ := run
  rw [never _ _ _ _ _ _ _ _ _ read body_ok allocated success assigned rfl] at conflict
  cases conflict

end RegisterAllocator
