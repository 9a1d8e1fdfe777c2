import RegisterAllocator.Allocation.Apply
import RegisterAllocator.Proofs.Outcome

/-!
# Successful allocations

What a machine goes through when the registers of a function are allocated with success (`allocate_ok`).
-/

namespace RegisterAllocator.Machine

variable {m : Machine} {config : Config} {f : FuncId} {done : Allocated} {choice : Choice}

theorem allocate_ok (allocated : m.allocate config f = .ok done) (success : done.outcome = .ok choice) :
    ∃ node, m.func f = .ok node ∧
      (node.layout.head = none ∧ done.machine = m ∧ choice = {} ∨
        ∃ body ids planned, m.body f = .ok body ∧ m.instList f = .ok ids ∧
          (Allocation.make config body node.frame).plan.ending = .complete ∧
          m.applyPlan f ids.toArray (Allocation.make config body node.frame).plan = .ok planned ∧
          planned.applyResult f ids.toArray (Allocation.make config body node.frame) = .ok done.machine ∧
          choice = {
            assignment := (Allocation.make config body node.frame).assignment
            slots := (Allocation.make config body node.frame).slots
            stats := (Allocation.make config body node.frame).stats }) := by
  simp only [allocate, bind_eq_ok] at allocated
  obtain ⟨node, found, allocated⟩ := allocated
  refine ⟨node, found, ?_⟩
  split at allocated
  · next bare =>
    cases allocated
    cases success
    exact .inl ⟨Option.isNone_iff_eq_none.mp bare, rfl, rfl⟩
  · simp only [bind_eq_ok] at allocated
    obtain ⟨body, body_ok, ids, ids_ok, allocated⟩ := allocated
    split at allocated
    · cases allocated
    · simp only [carryOut, bind_eq_ok] at allocated
      obtain ⟨planned, plan_ok, allocated⟩ := allocated
      split at allocated
      · cases allocated
      · cases allocated
      · cases allocated
        cases success
      · next ending =>
        simp only [bind_eq_ok, pure_eq_ok] at allocated
        obtain ⟨machine, result_ok, rfl⟩ := allocated
        cases success
        exact .inr ⟨body, ids, planned, body_ok, ids_ok, ending, plan_ok, result_ok, rfl⟩

end RegisterAllocator.Machine
