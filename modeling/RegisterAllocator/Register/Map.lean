import RegisterAllocator.Register.Basic

/-!
# Maps from registers

A map is kept as its rows in ascending order of their registers, so that listing it needs no sorting.
-/

namespace RegisterAllocator

/-- A finite map from virtual registers, as its rows in ascending order. -/
abbrev VirtMap (α : Type) := List (VirtReg × α)

namespace VirtMap

variable {α : Type}

def find? (m : VirtMap α) (r : VirtReg) : Option α :=
  match m with
  | [] => none
  | (key, value) :: rest => if key = r then some value else find? rest r

def has (m : VirtMap α) (r : VirtReg) : Bool := (find? m r).isSome

def insert (m : VirtMap α) (r : VirtReg) (a : α) : VirtMap α :=
  match m with
  | [] => [(r, a)]
  | (key, value) :: rest =>
    if r.key < key.key then (r, a) :: (key, value) :: rest
    else if key = r then (r, a) :: rest
    else (key, value) :: insert rest r a

/-- A map from rows; of two rows of one register the later one counts. -/
def ofList (rows : List (VirtReg × α)) : VirtMap α :=
  rows.foldl (fun m (r, a) => m.insert r a) []

end VirtMap

/-- A finite map from registers, as its rows in ascending order. -/
structure RegMap (α : Type) where
  rows : List (Reg × α)
  ascending : rows.Pairwise fun a b => a.1.key < b.1.key

namespace RegMap

variable {α : Type} {r q : Reg} {a b : α}

def find? (m : RegMap α) (r : Reg) : Option α := (m.rows.find? (·.1 = r)).map Prod.snd

def place (r : Reg) (a : α) : List (Reg × α) → List (Reg × α)
  | [] => [(r, a)]
  | (key, value) :: rest =>
    if r.key < key.key then (r, a) :: (key, value) :: rest
    else if key = r then (r, a) :: rest
    else (key, value) :: place r a rest

theorem mem_place {rows : List (Reg × α)} (ascending : rows.Pairwise fun a b => a.1.key < b.1.key) :
    (q, b) ∈ place r a rows ↔ q = r ∧ b = a ∨ q ≠ r ∧ (q, b) ∈ rows := by
  induction rows with
  | nil => simp [place]
  | cons first rest ih =>
    obtain ⟨key, value⟩ := first
    obtain ⟨least, tail⟩ := List.pairwise_cons.mp ascending
    -- a row of `r` itself can only stand in front
    have later (c : α) (member : (r, c) ∈ rest) : key.key < r.key := least _ member
    unfold place
    split
    · next below =>
      have absent : key ≠ r := fun same => by rw [same] at below; omega
      have none (c : α) : (r, c) ∉ rest := fun member => by have := later c member; omega
      grind
    · next above =>
      split
      · next same =>
        have none (c : α) : (r, c) ∉ rest := fun member => by
          have := later c member
          rw [same] at this
          omega
        grind
      · next differ => grind

theorem ascending_place {rows : List (Reg × α)} (ascending : rows.Pairwise fun a b => a.1.key < b.1.key) :
    (place r a rows).Pairwise fun a b => a.1.key < b.1.key := by
  induction rows with
  | nil => simp [place]
  | cons first rest ih =>
    obtain ⟨key, value⟩ := first
    obtain ⟨least, tail⟩ := List.pairwise_cons.mp ascending
    unfold place
    split
    · next below =>
      refine List.pairwise_cons.mpr ⟨fun row member => ?_, ascending⟩
      rcases List.mem_cons.mp member with rfl | member
      · exact below
      · exact Nat.lt_trans below (least row member)
    · next above =>
      split
      · next same => exact List.pairwise_cons.mpr ⟨same ▸ least, tail⟩
      · next differ =>
        refine List.pairwise_cons.mpr ⟨fun row member => ?_, ih tail⟩
        rcases (mem_place tail).mp member with ⟨here, -⟩ | ⟨-, member⟩
        · have apart : key.key ≠ r.key := fun same => differ (Reg.key_injective same)
          rw [here]
          dsimp only
          omega
        · exact least row member

def empty : RegMap α := ⟨[], .nil⟩

instance : EmptyCollection (RegMap α) := ⟨empty⟩

def insert (m : RegMap α) (r : Reg) (a : α) : RegMap α := ⟨place r a m.rows, ascending_place m.ascending⟩

def erase (m : RegMap α) (r : Reg) : RegMap α := ⟨m.rows.filter (·.1 ≠ r), m.ascending.filter _⟩

theorem find?_eq_some {m : RegMap α} : m.find? r = some a ↔ (r, a) ∈ m.rows := by
  obtain ⟨rows, ascending⟩ := m
  simp only [find?]
  induction rows with
  | nil => simp
  | cons first rest ih =>
    obtain ⟨key, value⟩ := first
    obtain ⟨least, tail⟩ := List.pairwise_cons.mp ascending
    by_cases same : key = r
    · subst same
      have none : (key, a) ∉ rest := fun member => Nat.lt_irrefl key.key (least (key, a) member)
      simp [none, eq_comm]
    · rw [List.find?_cons_of_neg (by simpa using same), ih tail]
      simp [Ne.symm same]

@[simp] theorem find?_empty (r : Reg) : (∅ : RegMap α).find? r = none := rfl

@[simp] theorem find?_insert (m : RegMap α) : (m.insert r a).find? q = if q = r then some a else m.find? q := by
  ext b
  rw [find?_eq_some, insert, mem_place m.ascending]
  split
  · next same => simp [same, eq_comm]
  · next differ => simp [differ, find?_eq_some]

@[simp] theorem find?_erase (m : RegMap α) : (m.erase r).find? q = if q = r then none else m.find? q := by
  ext b
  rw [find?_eq_some, erase, List.mem_filter]
  split
  · next same => simp [same]
  · next differ => simp [differ, find?_eq_some]

end RegMap

end RegisterAllocator
