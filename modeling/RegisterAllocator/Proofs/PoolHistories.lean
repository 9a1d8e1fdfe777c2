import Mathlib.Data.Set.Card
import RegisterAllocator.Proofs.ChainEdits
import RegisterAllocator.Proofs.Pool

/-!
# Pools and their past

What a pool holds can be told from what has happened to its slots (`Pool.Tracks`): a slot is occupied if it was filled
last and vacant if it was released last, and the vacant slots wait for new values in the order of their release. That
holds after every sequence of operations, those that are refused included (`Pool.slots_recycled`).
-/

namespace RegisterAllocator.Pool

variable {α : Type} {p q : Pool α} {i j : Nat} {a : α}

/-! ## Events -/

/-- What happens to a slot. -/
inductive Event (α : Type) where
  | filled (i : Nat) (a : α)
  | released (i : Nat)

namespace Event

variable {past later : List (Event α)}

def slot : Event α → Nat
  | filled i _ | released i => i

def last? (past : List (Event α)) (i : Nat) : Option (Event α) := (past.filter (·.slot = i)).getLast?

/-- The slots that were released and not filled since, in the order of their release. -/
def idle : List (Event α) → List Nat
  | [] => []
  | filled .. :: later => idle later
  | released i :: later => if i ∈ later.map slot then idle later else i :: idle later

theorem last?_concat (past : List (Event α)) (event : Event α) (i : Nat) :
    last? (past ++ [event]) i = if event.slot = i then some event else last? past i := by
  unfold last?
  rw [List.filter_append]
  by_cases same : event.slot = i <;> simp [same]

theorem idle_concat (past : List (Event α)) (event : Event α) :
    idle (past ++ [event]) = (idle past).filter (· ≠ event.slot) ++ idle [event] := by
  induction past with
  | nil => rfl
  | cons first later ih =>
    cases first with
    | filled => exact ih
    | released j =>
      simp only [List.cons_append, idle, List.map_append, List.map_cons, List.map_nil, List.mem_append,
        List.mem_singleton, ih]
      by_cases again : j ∈ later.map slot
      · rw [if_pos (.inl again), if_pos again]
      · rw [if_neg again]
        by_cases same : j = event.slot
        · rw [if_pos (.inr same), List.filter_cons_of_neg (by simpa using same)]
        · rw [if_neg (not_or.mpr ⟨again, same⟩), List.filter_cons_of_pos (by simpa using same), List.cons_append]

end Event

open Event (last? idle)
open InPlace (look write Follows follows_write)

/-! ## What a pool has to do with its past -/

/-- A pool as its past made it. -/
structure Tracks (p : Pool α) (past : List (Event α)) : Prop where
  sound : p.Sound
  lookup : ∀ i a, p.get? i = some a ↔ last? past i = some (.filled i a)
  vacant : p.vacant = idle past
  slots : ∀ i, i < p.capacity ↔ i ∈ past.map Event.slot

theorem insertWith_eq (p : Pool α) (f : Nat → α) : p.insertWith f = p.insert (f p.nextSlot) := by
  unfold insert insertWith nextSlot
  cases p.vacant <;> rfl

theorem vacant_insert (p : Pool α) (a : α) : (p.insert a).vacant = p.vacant.tail := by
  cases list : p.vacant <;> simp [insert, insertWith, list]

theorem Sound.lt_capacity_insert (sound : p.Sound) : i < (p.insert a).capacity ↔ i < p.capacity ∨ i = p.nextSlot := by
  unfold Pool.insert insertWith nextSlot
  cases list : p.vacant with
  | nil =>
    simp only [capacity, Array.size_push, List.headD_nil]
    omega
  | cons first rest =>
    have inside : first < p.capacity := ((sound.vacant first).mp (by simp [list])).1
    simp only [capacity, Array.size_setIfInBounds, List.headD_cons] at inside ⊢
    omega

theorem Sound.length_vacant (sound : p.Sound) : p.vacant.length + p.toList.length = p.capacity := by
  have split : (p.vacant ++ p.toList.map Prod.fst).Perm (List.range p.capacity) := by
    have apart : (p.vacant ++ p.toList.map Prod.fst).Nodup := by
      rw [List.nodup_append]
      refine ⟨sound.nodup, p.toList_nodup, ?_⟩
      rintro i vacant _ occupied rfl
      rw [map_fst_toList, List.mem_filter, ((sound.vacant i).mp vacant).2] at occupied
      cases occupied.2
    rw [List.perm_ext_iff_of_nodup apart List.nodup_range]
    intro i
    rw [List.mem_append, sound.vacant, map_fst_toList, List.mem_filter, List.mem_range]
    cases p.get? i <;> simp
  simpa using split.length_eq

theorem Sound.size_eq (sound : p.Sound) : p.size = { i | (p.get? i).isSome }.ncard := by
  have counted := sound.length_vacant
  have listed : { i | (p.get? i).isSome } = ((p.toList.map Prod.fst).toFinset : Set Nat) := by
    ext i
    rw [Set.mem_ofPred_eq, List.coe_toFinset, Set.mem_ofPred_eq, map_fst_toList, List.mem_filter, List.mem_range]
    exact ⟨fun occupied => ⟨lt_capacity occupied, occupied⟩, And.right⟩
  rw [listed, Set.ncard_coe_finset, List.toFinset_card_of_nodup p.toList_nodup, List.length_map, size]
  unfold capacity at counted
  omega

theorem toList_ascending (p : Pool α) : p.toList.Pairwise fun x y => x.1 < y.1 := by
  rw [← List.pairwise_map, map_fst_toList]
  exact List.pairwise_lt_range.filter _

namespace Tracks

variable {past : List (Event α)}

theorem empty : ({} : Pool α).Tracks [] where
  sound := empty_sound
  lookup i a := by simp [last?, get?]
  vacant := rfl
  slots i := by simp [capacity]

/-- The slot that the next value takes was released longest ago; if none is vacant, it is the first that is new. -/
theorem nextSlot_eq (tracks : p.Tracks past) : p.nextSlot = (idle past).headD p.capacity := by
  rw [← tracks.vacant]
  rfl

theorem insert (tracks : p.Tracks past) (a : α) : (p.insert a).Tracks (past ++ [.filled p.nextSlot a]) where
  sound := tracks.sound.insert a
  lookup i b := by
    rw [tracks.sound.get?_insert, Event.last?_concat]
    by_cases same : i = p.nextSlot
    · simp [same, Event.slot]
    · rw [if_neg same, tracks.lookup, Event.slot, if_neg (Ne.symm same)]
  vacant := by
    -- the slots that still wait are those after the first, which are all others
    have once := tracks.sound.nodup
    rw [vacant_insert, Event.idle_concat, ← tracks.vacant]
    cases list : p.vacant with
    | nil => rfl
    | cons first rest =>
      rw [list] at once
      have others : ∀ j ∈ rest, j ≠ first := fun j member same => (List.nodup_cons.mp once).1 (same ▸ member)
      simp only [nextSlot, list, List.headD_cons, Event.slot, List.tail_cons, idle, List.append_nil]
      rw [List.filter_cons_of_neg (by simp), List.filter_eq_self.mpr (by simpa using others)]
  slots i := by
    rw [tracks.sound.lt_capacity_insert, tracks.slots, List.map_append, List.mem_append]
    simp [Event.slot]

theorem erase (tracks : p.Tracks past) (erased : p.erase i = .ok q) : q.Tracks (past ++ [.released i]) where
  sound := tracks.sound.erase erased
  lookup j b := by
    rw [get?_erase erased, Event.last?_concat]
    by_cases same : j = i
    · simp [same, Event.slot]
    · rw [if_neg same, tracks.lookup, Event.slot, if_neg (Ne.symm same)]
  vacant := by
    obtain ⟨known, rfl⟩ := erase_eq_ok.mp erased
    -- an occupied slot did not wait before
    have fresh : ∀ j ∈ p.vacant, j ≠ i := by
      rintro j vacant rfl
      rw [((tracks.sound.vacant j).mp vacant).2] at known
      cases known
    rw [Event.idle_concat, ← tracks.vacant, Event.slot, List.filter_eq_self.mpr (by simpa using fresh)]
    rfl
  slots j := by
    obtain ⟨known, rfl⟩ := erase_eq_ok.mp erased
    have inside := (tracks.slots i).mp (lt_capacity known)
    have before := tracks.slots j
    simp only [capacity, Array.size_setIfInBounds, List.map_append, List.mem_append, List.map_cons, List.map_nil,
      List.mem_singleton, Event.slot] at before ⊢
    rw [before]
    exact ⟨.inl, fun known => known.elim id fun same => same ▸ inside⟩

end Tracks

/-! ## Sequences of operations -/

/-- `Pool.erase`, write by write. -/
def eraseInPlace (i : Nat) : EStateM Fault (Pool α) Unit := do
  look fun p => if p.contains i then .ok () else .error .releasedTwice
  write fun p => .ok { p with slots := p.slots.setIfInBounds i none }
  write fun p => .ok { p with vacant := p.vacant ++ [i] }

theorem eraseInPlace_follows (i : Nat) : Follows (eraseInPlace i) fun p : Pool α => p.erase i := by
  have steps : Follows (eraseInPlace (α := α) i) _ :=
    .look fun _ => .bind (follows_write _) fun _ => follows_write _
  convert steps using 2 with p
  unfold erase
  by_cases known : p.contains i = true
  · rw [if_pos known, if_pos known]
    rfl
  · rw [if_neg known, if_neg known]
    rfl

inductive Operation (α : Type) where
  | insert (a : α)
  | insertWith (f : Nat → α)
  | erase (i : Nat)

namespace Operation

/-- Carry out an operation. It gives what has happened to a slot, and leaves the pool as far as it got if it faults. -/
def inPlace : Operation α → EStateM Fault (Pool α) (Event α)
  | insert a => modifyGet fun p => (.filled p.nextSlot a, p.insert a)
  | insertWith f => modifyGet fun p => (.filled p.nextSlot (f p.nextSlot), p.insertWith f)
  | erase i => do
    eraseInPlace i
    return .released i

def content? : Operation α → Option (Nat → α)
  | insert a => some fun _ => a
  | insertWith f => some f
  | erase _ => none

theorem fills (p : Pool α) {op : Operation α} {f : Nat → α} (content : op.content? = some f) :
    op.inPlace.run p = .ok (.filled p.nextSlot (f p.nextSlot)) (p.insert (f p.nextSlot)) := by
  cases op with
  | insert a =>
    cases content
    rfl
  | insertWith g =>
    cases content
    rw [← insertWith_eq]
    rfl
  | erase i => cases content

theorem releases (erased : p.erase i = .ok q) : (erase i).inPlace.run p = .ok (.released i) q := by
  have ran : eraseInPlace i p = .ok () q := (eraseInPlace_follows i).ok erased
  simp only [inPlace, EStateM.run, bind, EStateM.bind, ran]
  rfl

theorem refuses (vacant : p.get? i = none) : (erase i).inPlace.run p = .error .releasedTwice p := by
  have ran : eraseInPlace i p = .error .releasedTwice p := by
    simp only [eraseInPlace, bind, EStateM.bind, look, contains, vacant]
    rfl
  simp only [inPlace, EStateM.run, bind, EStateM.bind, ran]

end Operation

/-- A pool and its past, oldest first. -/
structure Logged (α : Type) where
  pool : Pool α := {}
  past : List (Event α) := []

def Logged.perform (l : Logged α) (op : Operation α) : Logged α :=
  match op.inPlace.run l.pool with
  | .ok event p => { pool := p, past := l.past ++ [event] }
  | .error _ p => { l with pool := p }

/-- An empty pool after operations, some of which may have been refused. -/
def logged (ops : List (Operation α)) : Logged α := ops.foldl Logged.perform {}

theorem erase_of_occupied (known : p.get? i ≠ none) : ∃ q, p.erase i = .ok q :=
  ⟨_, erase_eq_ok.mpr ⟨Option.isSome_iff_ne_none.mpr known, rfl⟩⟩

theorem erase_of_vacant (vacant : p.get? i = none) : p.erase i = .error .releasedTwice := by
  simp [erase, contains, vacant]

theorem Tracks.perform {l : Logged α} (tracks : l.pool.Tracks l.past) (op : Operation α) :
    (l.perform op).pool.Tracks (l.perform op).past := by
  unfold Logged.perform
  cases content : op.content? with
  | some f =>
    rw [op.fills l.pool content]
    exact tracks.insert _
  | none =>
    cases op with
    | insert a => cases content
    | insertWith f => cases content
    | erase i =>
      by_cases vacant : l.pool.get? i = none
      · rw [Operation.refuses vacant]
        exact tracks
      · obtain ⟨q, erased⟩ := erase_of_occupied vacant
        rw [Operation.releases erased]
        exact tracks.erase erased

theorem logged_tracks (ops : List (Operation α)) : (logged ops).pool.Tracks (logged ops).past := by
  have run (l : Logged α) (tracks : l.pool.Tracks l.past) :
      (ops.foldl Logged.perform l).pool.Tracks (ops.foldl Logged.perform l).past := by
    induction ops generalizing l with
    | nil => exact tracks
    | cons op rest ih => exact ih (l.perform op) (tracks.perform op)
  exact run {} .empty

/-- Slots are recycled in the order of their release. After every sequence of operations the vacant slots are listed
once each, the values are counted, looked up by what happened last to their slots and listed in slot order. A new value
takes the slot released longest ago, or the next new one, and no other value changes; a slot can be released if it is
occupied, and otherwise nothing is written. -/
theorem slots_recycled (ops : List (Operation α)) :
    let p := (logged ops).pool
    let past := (logged ops).past
    (p.vacant = idle past ∧ p.vacant.Nodup ∧ ∀ i, i ∈ p.vacant ↔ i < p.capacity ∧ p.get? i = none) ∧
    (p.vacant.length ≤ p.capacity ∧ p.size = { i | (p.get? i).isSome }.ncard) ∧
    (∀ i a, p.get? i = some a ↔ last? past i = some (.filled i a)) ∧
    (p.toList.Pairwise (fun x y => x.1 < y.1) ∧ ∀ i a, (i, a) ∈ p.toList ↔ p.get? i = some a) ∧
    (∀ (op : Operation α) f, op.content? = some f → ∃ i q, op.inPlace.run p = .ok (.filled i (f i)) q ∧
      ((idle past).head? = some i ∨ idle past = [] ∧ ∀ j, j < i ↔ j ∈ past.map Event.slot) ∧
      p.get? i = none ∧ ∀ j, q.get? j = if j = i then some (f i) else p.get? j) ∧
    ∀ i,
      (p.get? i ≠ none → ∃ q, p.erase i = .ok q ∧ (Operation.erase i).inPlace.run p = .ok (.released i) q ∧
        ∀ j, q.get? j = if j = i then none else p.get? j) ∧
      (p.get? i = none → p.erase i = .error .releasedTwice ∧
        (Operation.erase i).inPlace.run p = .error .releasedTwice p) := by
  intro p past
  have tracks : p.Tracks past := logged_tracks ops
  have sound := tracks.sound
  have counted := sound.length_vacant
  refine ⟨⟨tracks.vacant, sound.nodup, sound.vacant⟩, ⟨by omega, sound.size_eq⟩, tracks.lookup,
    ⟨p.toList_ascending, fun i a => mem_toList⟩, fun op f content => ?_, fun i => ⟨fun known => ?_, fun vacant => ?_⟩⟩
  · refine ⟨p.nextSlot, _, op.fills p content, ?_, sound.get?_nextSlot, sound.get?_insert _⟩
    rw [tracks.nextSlot_eq]
    cases waiting : idle past with
    | nil => exact .inr ⟨rfl, tracks.slots⟩
    | cons first rest => exact .inl rfl
  · obtain ⟨q, erased⟩ := erase_of_occupied known
    exact ⟨q, erased, Operation.releases erased, fun j => get?_erase erased⟩
  · exact ⟨erase_of_vacant vacant, Operation.refuses vacant⟩

/-- Two slots are released, one of them twice and one that was never filled, and then a value comes in. -/
def recycling : List (Operation Nat) :=
  [.insert 5, .insert 6, .insertWith (100 * ·), .erase 1, .erase 0, .erase 1, .erase 9, .insert 8]

/-- The new value is found under the old number of another, and the next one takes the slot that waits. -/
theorem recycling_recycled :
    (logged recycling).pool.toList = [(1, 8), (2, 200)] ∧ last? (logged recycling).past 1 = some (.filled 1 8) ∧
      (logged recycling).pool.size = { i | ((logged recycling).pool.get? i).isSome }.ncard ∧
      (∃ q, (Operation.insert 7).inPlace.run (logged recycling).pool = .ok (.filled 0 7) q ∧ q.get? 1 = some 8) ∧
      (Operation.erase 0).inPlace.run (logged recycling).pool = .error .releasedTwice (logged recycling).pool := by
  obtain ⟨-, ⟨-, size⟩, lookup, -, insertion, release⟩ := slots_recycled recycling
  have found : (logged recycling).pool.get? 1 = some 8 := by decide
  refine ⟨by decide, (lookup 1 8).mp found, size, ?_, ((release 0).2 (by decide)).2⟩
  obtain ⟨i, q, ran, turn, -, others⟩ := insertion (.insert 7) (fun _ => 7) rfl
  have waiting : idle (logged recycling).past = [0] := by decide
  rw [waiting] at turn
  rcases turn with first | ⟨none, -⟩
  · cases first
    refine ⟨q, ran, ?_⟩
    rw [others 1]
    exact found
  · cases none

end RegisterAllocator.Pool
