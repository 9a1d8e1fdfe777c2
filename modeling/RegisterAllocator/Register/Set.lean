import RegisterAllocator.Register.Basic

/-!
# Sets of registers

A set of registers is kept as its members in ascending order, so two sets are equal exactly when they have the same
members, and listing a set needs no sorting.
-/

namespace RegisterAllocator

/-- A finite set of registers, as its members in ascending order. -/
structure RegSet where
  toList : List Reg
  ascending : toList.Pairwise fun a b => a.key < b.key
deriving DecidableEq

namespace RegSet

def place (r : Reg) : List Reg → List Reg
  | [] => [r]
  | first :: rest =>
    if r.key < first.key then r :: first :: rest
    else if first.key < r.key then first :: place r rest
    else first :: rest

theorem mem_place {r s : Reg} {list : List Reg} : s ∈ place r list ↔ s = r ∨ s ∈ list := by
  induction list with
  | nil => simp [place]
  | cons first rest ih =>
    unfold place
    split
    · simp
    · split
      · simp [ih]; grind
      · have same : r = first := Reg.key_injective (by omega)
        simp [same]

theorem ascending_place {r : Reg} {list : List Reg} (h : list.Pairwise fun a b => a.key < b.key) :
    (place r list).Pairwise fun a b => a.key < b.key := by
  induction list with
  | nil => simp [place]
  | cons first rest ih =>
    obtain ⟨least, tail⟩ := List.pairwise_cons.mp h
    unfold place
    split
    · next below =>
      refine List.pairwise_cons.mpr ⟨fun s member => ?_, h⟩
      rcases List.mem_cons.mp member with rfl | member
      · exact below
      · exact Nat.lt_trans below (least s member)
    · split
      · next above =>
        refine List.pairwise_cons.mpr ⟨fun s member => ?_, ih tail⟩
        rcases mem_place.mp member with rfl | member
        · exact above
        · exact least s member
      · exact h

def empty : RegSet := ⟨[], .nil⟩

instance : EmptyCollection RegSet := ⟨empty⟩
instance : Inhabited RegSet := ⟨empty⟩
instance : Membership Reg RegSet := ⟨fun s r => r ∈ s.toList⟩
instance (r : Reg) (s : RegSet) : Decidable (r ∈ s) := inferInstanceAs (Decidable (r ∈ s.toList))

def contains (s : RegSet) (r : Reg) : Bool := decide (r ∈ s)

def insert (s : RegSet) (r : Reg) : RegSet := ⟨place r s.toList, ascending_place s.ascending⟩

def insertAll (s : RegSet) (regs : List Reg) : RegSet := regs.foldl insert s

def union (s t : RegSet) : RegSet := s.insertAll t.toList

def diff (s t : RegSet) : RegSet :=
  ⟨s.toList.filter (!t.contains ·), s.ascending.filter _⟩

def size (s : RegSet) : Nat := s.toList.length

@[simp] theorem mem_toList {s : RegSet} {r : Reg} : r ∈ s.toList ↔ r ∈ s := Iff.rfl

@[simp] theorem not_mem_empty (r : Reg) : r ∉ (∅ : RegSet) := List.not_mem_nil

@[simp] theorem contains_iff {s : RegSet} {r : Reg} : s.contains r = true ↔ r ∈ s := by
  simp [contains]

@[simp] theorem mem_insert {s : RegSet} {r q : Reg} : q ∈ s.insert r ↔ q = r ∨ q ∈ s :=
  mem_place

@[simp] theorem mem_insertAll {s : RegSet} {regs : List Reg} {q : Reg} :
    q ∈ s.insertAll regs ↔ q ∈ s ∨ q ∈ regs := by
  induction regs generalizing s with
  | nil => simp [insertAll]
  | cons r rest ih =>
    have step : s.insertAll (r :: rest) = (s.insert r).insertAll rest := rfl
    rw [step, ih, mem_insert]
    simp only [List.mem_cons]
    grind

@[simp] theorem mem_union {s t : RegSet} {q : Reg} : q ∈ s.union t ↔ q ∈ s ∨ q ∈ t := by
  simp [union]

@[simp] theorem mem_diff {s t : RegSet} {q : Reg} : q ∈ s.diff t ↔ q ∈ s ∧ q ∉ t := by
  change q ∈ s.toList.filter _ ↔ _
  simp [List.mem_filter, contains]

end RegSet

end RegisterAllocator
