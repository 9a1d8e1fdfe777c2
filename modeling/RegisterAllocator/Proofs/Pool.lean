import Mathlib.Data.List.Basic
import RegisterAllocator.Pool

/-!
# Pools as partial maps

A pool is a partial map from slots to values (`Pool.get?`). If its list of vacant slots is right (`Pool.Sound`), a new
value gets a slot that named nothing (`get?_nextSlot`), and each operation changes the map in one slot only.
-/

namespace RegisterAllocator.Pool

variable {α : Type} {p : Pool α} {i j : Nat} {a : α}

/-- The vacant slots are listed, each once. -/
structure Sound (p : Pool α) : Prop where
  nodup : p.vacant.Nodup
  vacant : ∀ i, i ∈ p.vacant ↔ i < p.capacity ∧ p.get? i = none

theorem empty_sound : ({} : Pool α).Sound := ⟨.nil, fun i => by simp [capacity]⟩

theorem lt_capacity (known : (p.get? i).isSome) : i < p.capacity := by
  unfold get? at known
  by_contra outside
  rw [Array.getElem?_eq_none (by unfold capacity at outside; omega)] at known
  cases known

theorem get_eq_ok : p.get i = .ok a ↔ p.get? i = some a := by
  unfold get
  cases p.get? i <;> simp

theorem contains_eq : p.contains i = (p.get? i).isSome := rfl

/-! ## Insertion -/

theorem Sound.get?_nextSlot (sound : p.Sound) : p.get? p.nextSlot = none := by
  unfold nextSlot
  cases vacant : p.vacant with
  | nil => simp [get?]
  | cons first rest => exact ((sound.vacant first).mp (by simp [vacant])).2

theorem Sound.get?_insert (sound : p.Sound) (a : α) (i : Nat) :
    (p.insert a).get? i = if i = p.nextSlot then some a else p.get? i := by
  unfold insert insertWith
  cases vacant : p.vacant with
  | nil =>
    have next : p.nextSlot = p.slots.size := by simp [nextSlot, vacant]
    rw [next]
    simp only [get?, Array.getElem?_push]
    split <;> rfl
  | cons first rest =>
    have next : p.nextSlot = first := by simp [nextSlot, vacant]
    have bound : first < p.slots.size := ((sound.vacant first).mp (by simp [vacant])).1
    rw [next]
    simp only [get?, Array.getElem?_setIfInBounds, bound, if_true]
    grind

theorem Sound.insert (sound : p.Sound) (a : α) : (p.insert a).Sound := by
  have lookup := sound.get?_insert a
  cases vacant : p.vacant with
  | nil =>
    have size : (p.insert a).capacity = p.capacity + 1 := by simp [Pool.insert, insertWith, vacant, capacity]
    have list : (p.insert a).vacant = [] := by simp [Pool.insert, insertWith, vacant]
    have next : p.nextSlot = p.capacity := by simp [nextSlot, vacant, capacity]
    refine ⟨by simp [list], fun i => ?_⟩
    have old := sound.vacant i
    rw [lookup, list, size, next]
    rw [vacant] at old
    grind
  | cons first rest =>
    have size : (p.insert a).capacity = p.capacity := by simp [Pool.insert, insertWith, vacant, capacity]
    have list : (p.insert a).vacant = rest := by simp [Pool.insert, insertWith, vacant]
    have next : p.nextSlot = first := by simp [nextSlot, vacant]
    have nodup := sound.nodup
    rw [vacant] at nodup
    refine ⟨by rw [list]; exact (List.nodup_cons.mp nodup).2, fun i => ?_⟩
    have old := sound.vacant i
    rw [lookup, list, size, next]
    rw [vacant] at old
    grind

/-! ## Replacement and release -/

theorem get?_set : (p.set i a).get? j = if j = i then (p.get? i).map fun _ => a else p.get? j := by
  unfold set
  split
  · next known =>
    rw [contains_eq] at known
    have bound := lt_capacity known
    obtain ⟨old, found⟩ := Option.isSome_iff_exists.mp known
    unfold capacity at bound
    simp only [get?, Array.getElem?_setIfInBounds, bound, if_true, eq_comm]
    unfold get? at found
    split
    · rw [found]
      rfl
    · rfl
  · next vacant =>
    rw [contains_eq, Bool.not_eq_true, Option.isSome_eq_false_iff, Option.isNone_iff_eq_none] at vacant
    split
    · next same => rw [same, vacant]; rfl
    · rfl

theorem vacant_set : (p.set i a).vacant = p.vacant := by unfold Pool.set; split <;> rfl

theorem Sound.set (sound : p.Sound) (i : Nat) (a : α) : (p.set i a).Sound := by
  have list : (p.set i a).vacant = p.vacant := vacant_set
  have size : (p.set i a).capacity = p.capacity := by unfold Pool.set capacity; split <;> simp
  refine ⟨by rw [list]; exact sound.nodup, fun j => ?_⟩
  rw [list, size, get?_set, sound.vacant]
  by_cases same : j = i
  · rw [if_pos same, Option.map_eq_none_iff, same]
  · rw [if_neg same]

theorem modify_eq_ok {change : α → α} {q : Pool α} :
    p.modify i change = .ok q ↔ ∃ a, p.get? i = some a ∧ p.set i (change a) = q := by
  unfold modify
  cases found : p.get? i with
  | none => simp [get, found, bind, Except.bind]
  | some a => simp [get, found, bind, Except.bind, pure, Except.pure]

theorem erase_eq_ok {q : Pool α} : p.erase i = .ok q ↔ (p.get? i).isSome ∧
    q = { slots := p.slots.setIfInBounds i none, vacant := p.vacant ++ [i] } := by
  unfold erase
  rw [contains_eq]
  split
  · next known => simp [known, eq_comm]
  · next vacant => simp [vacant]

theorem get?_erase {q : Pool α} (erased : p.erase i = .ok q) : q.get? j = if j = i then none else p.get? j := by
  obtain ⟨known, rfl⟩ := erase_eq_ok.mp erased
  have bound := lt_capacity known
  unfold capacity at bound
  simp only [get?, Array.getElem?_setIfInBounds, bound, if_true, eq_comm]
  split <;> rfl

theorem Sound.erase {q : Pool α} (sound : p.Sound) (erased : p.erase i = .ok q) : q.Sound := by
  have lookup (j : Nat) := get?_erase (j := j) erased
  obtain ⟨known, rfl⟩ := erase_eq_ok.mp erased
  have bound := lt_capacity known
  have old := sound.vacant
  have nodup := sound.nodup
  refine ⟨?_, fun j => ?_⟩
  · have fresh : i ∉ p.vacant := fun listed => by
      rw [((old i).mp listed).2] at known
      cases known
    grind
  · rw [lookup]
    have := old j
    simp only [capacity, Array.size_setIfInBounds, List.mem_append, List.mem_singleton] at *
    grind

theorem mem_toList : (i, a) ∈ p.toList ↔ p.get? i = some a := by
  simp only [toList, List.mem_filterMap, List.mem_range, Option.map_eq_some_iff, Prod.mk.injEq]
  constructor
  · rintro ⟨_, -, _, found, rfl, rfl⟩
    exact found
  · intro found
    exact ⟨i, lt_capacity (by rw [found]; rfl), a, found, rfl, rfl⟩

theorem map_fst_toList (p : Pool α) :
    p.toList.map Prod.fst = (List.range p.capacity).filter fun i => (p.get? i).isSome := by
  rw [toList, capacity]
  induction List.range p.slots.size with
  | nil => rfl
  | cons i rest ih => cases found : p.get? i <;> simp [found, ih]

theorem toList_nodup (p : Pool α) : (p.toList.map Prod.fst).Nodup := by
  rw [map_fst_toList]
  exact List.nodup_range.filter _

/-- If no slot is vacant, a new value is listed last. -/
theorem map_fst_toList_insert (full : p.vacant = []) (a : α) :
    (p.insert a).vacant = [] ∧ (p.insert a).toList.map Prod.fst = p.toList.map Prod.fst ++ [p.nextSlot] := by
  have pushed : p.insert a = { p with slots := p.slots.push (some a) } := by simp [Pool.insert, insertWith, full]
  have next : p.nextSlot = p.slots.size := by simp [nextSlot, full]
  refine ⟨by rw [pushed]; exact full, ?_⟩
  have size : (p.insert a).capacity = p.capacity + 1 := by simp [pushed, capacity]
  have old : ∀ i ∈ List.range p.capacity, ((p.insert a).get? i).isSome = (p.get? i).isSome := by
    intro i inside
    rw [pushed, get?, get?, Array.getElem?_push_lt (List.mem_range.mp inside)]
    rw [Array.getElem?_eq_getElem (List.mem_range.mp inside)]
  have new : ((p.insert a).get? p.capacity).isSome = true := by simp [pushed, get?, capacity]
  rw [map_fst_toList, map_fst_toList, size, List.range_succ, List.filter_append, List.filter_congr old,
    List.filter_singleton, new, next]
  rfl

theorem map_fst_toList_congr {q : Pool α} (same : ∀ i, (q.get? i).isSome = (p.get? i).isSome) :
    q.toList.map Prod.fst = p.toList.map Prod.fst := by
  have beyond (r : Pool α) (n : Nat) (more : r.capacity ≤ n) :
      (List.range n).filter (fun i => (r.get? i).isSome) = r.toList.map Prod.fst := by
    rw [map_fst_toList]
    induction more with
    | refl => rfl
    | @step n outside ih =>
      have vacant : (r.get? n).isSome = false := by
        by_contra known
        rw [Bool.not_eq_false] at known
        exact Nat.not_lt.mpr outside (lt_capacity known)
      rw [List.range_succ, List.filter_append, ih, List.filter_singleton, vacant]
      exact List.append_nil _
  rw [← beyond q (max q.capacity p.capacity) (Nat.le_max_left ..), ← beyond p _ (Nat.le_max_right q.capacity p.capacity)]
  simp only [same]

end RegisterAllocator.Pool
