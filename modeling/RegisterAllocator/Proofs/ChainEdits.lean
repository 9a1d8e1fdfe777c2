import Mathlib.Data.Set.Basic
import RegisterAllocator.Proofs.Chain

/-!
# Edits of chains

The operations on chains as edits of sequences. An edit is allowed if the nodes and containers that it names are stored,
the node that comes in is in no chain and the node that it is put next to is in one. An allowed edit changes the
sequences as it says (`Edit.apply`), and all others fault before anything is written. For the latter the operations are
also run record by record on a store that keeps what has been written when a later step faults (`Edit.inPlace`).
-/

namespace RegisterAllocator

/-! ## Running in place -/

namespace InPlace

variable {σ α : Type}

def look (f : σ → Except Fault α) : EStateM Fault σ α := fun s =>
  match f s with
  | .ok a => .ok a s
  | .error fault => .error fault s

def write (f : σ → Except Fault σ) : EStateM Fault σ Unit := fun s =>
  match f s with
  | .ok t => .ok () t
  | .error fault => .error fault s

def writeAny {β : Type} (which : Option β) (f : β → σ → Except Fault σ) : EStateM Fault σ Unit :=
  match which with
  | some b => write (f b)
  | none => pure ()

/-- A run in place ends as a function says, apart from the store that it leaves when it faults. -/
def Follows (x : EStateM Fault σ Unit) (f : σ → Except Fault σ) : Prop := ∀ s,
  match x.run s with
  | .ok _ t => f s = .ok t
  | .error fault _ => f s = .error fault

theorem follows_write (f : σ → Except Fault σ) : Follows (write f) f := by
  intro s
  simp only [EStateM.run, write]
  cases f s <;> rfl

theorem follows_throw (fault : Fault) : Follows (throw fault : EStateM Fault σ Unit) fun _ => .error fault :=
  fun _ => rfl

theorem follows_writeAny {β : Type} (which : Option β) (f : β → σ → Except Fault σ) :
    Follows (writeAny which f) fun s => match which with
      | some b => f b s
      | none => pure s := by
  cases which with
  | none => exact fun _ => rfl
  | some b => exact follows_write (f b)

theorem Follows.look {f : σ → Except Fault α} {x : α → EStateM Fault σ Unit} {g : α → σ → Except Fault σ}
    (rest : ∀ a, Follows (x a) (g a)) : Follows (InPlace.look f >>= x) fun s => f s >>= fun a => g a s := by
  intro s
  simp only [EStateM.run, bind, EStateM.bind, InPlace.look, Except.bind]
  cases found : f s with
  | error => simp
  | ok a => exact rest a s

theorem Follows.bind {x : EStateM Fault σ Unit} {y : Unit → EStateM Fault σ Unit} {f g : σ → Except Fault σ}
    (first : Follows x f) (rest : ∀ u, Follows (y u) g) : Follows (x >>= y) fun s => f s >>= g := by
  intro s
  have here := first s
  simp only [EStateM.run, Bind.bind, EStateM.bind, Except.bind] at here ⊢
  cases ran : x s with
  | error =>
    rw [ran] at here
    simp [here]
  | ok _ t =>
    rw [ran] at here
    simp only [here]
    exact rest () t

theorem Follows.ok {x : EStateM Fault σ Unit} {f : σ → Except Fault σ} (follows : Follows x f) {s t : σ}
    (done : f s = .ok t) : x.run s = .ok () t := by
  have here := follows s
  cases ran : x.run s with
  | error =>
    rw [ran] at here
    cases here.symm.trans done
  | ok _ t' =>
    rw [ran] at here
    cases here.symm.trans done
    rfl

theorem Follows.error {x : EStateM Fault σ Unit} {f : σ → Except Fault σ} (follows : Follows x f) {s t : σ}
    {fault : Fault} (failed : x.run s = .error fault t) : f s = .error fault := by
  have here := follows s
  rwa [failed] at here

theorem bind_error {x : EStateM Fault σ Unit} {s t : σ} {fault : Fault} (failed : x.run s = .error fault t)
    (rest : Unit → EStateM Fault σ Unit) : (x >>= rest).run s = .error fault t := by
  simp only [EStateM.run, Bind.bind, EStateM.bind] at failed ⊢
  rw [failed]

end InPlace

namespace Chain

open RegisterAllocator.InPlace (look write writeAny Follows follows_throw follows_write follows_writeAny)

variable {σ ν κ : Type} [Chained σ ν κ]

namespace InPlace

/-- `Chain.insertAfter`, record by record. -/
def insertAfter (κ : Type) [Chained σ ν κ] (anchor node : ν) : EStateM Fault σ Unit := do
  let place : Links ν κ ← look (links · anchor)
  match place.owner with
  | none => throw .looseAnchorAfter
  | some owner =>
    let loose : Links ν κ ← look (links · node)
    if loose.owner.isSome then throw .alreadyOwned
    else
      match place.next with
      | some next =>
        write (relink (κ := κ) · next ({ · with prev := some node }))
        write (relink (κ := κ) · node ({ · with next := some next }))
      | none => write (reframe · owner ({ · with tail := some node }))
      write (relink (κ := κ) · node ({ · with prev := some anchor }))
      write (relink (κ := κ) · anchor ({ · with next := some node }))
      write (relink · node ({ · with owner := some owner }))

def insertBefore (κ : Type) [Chained σ ν κ] (anchor node : ν) : EStateM Fault σ Unit := do
  let place : Links ν κ ← look (links · anchor)
  match place.owner with
  | none => throw .looseAnchorBefore
  | some owner =>
    let loose : Links ν κ ← look (links · node)
    if loose.owner.isSome then throw .alreadyOwned
    else
      match place.prev with
      | some prev =>
        write (relink (κ := κ) · prev ({ · with next := some node }))
        write (relink (κ := κ) · node ({ · with prev := some prev }))
      | none => write (reframe · owner ({ · with head := some node }))
      write (relink (κ := κ) · node ({ · with next := some anchor }))
      write (relink (κ := κ) · anchor ({ · with prev := some node }))
      write (relink · node ({ · with owner := some owner }))

def pushOnly (container : κ) (node : ν) : EStateM Fault σ Unit := do
  write (reframe · container ({ · with head := some node }))
  write (reframe · container ({ · with tail := some node }))
  write (relink · node ({ · with owner := some container }))

def pushFront (container : κ) (node : ν) : EStateM Fault σ Unit := do
  let loose : Links ν κ ← look (links · node)
  if loose.owner.isSome then throw .alreadyLinked
  else
    let found : Ends ν ← look (ends · container)
    match found.head with
    | some head => insertBefore κ head node
    | none => pushOnly container node

def pushBack (container : κ) (node : ν) : EStateM Fault σ Unit := do
  let loose : Links ν κ ← look (links · node)
  if loose.owner.isSome then throw .alreadyLinked
  else
    let found : Ends ν ← look (ends · container)
    match found.tail with
    | some tail => insertAfter κ tail node
    | none => pushOnly container node

def unlink (κ : Type) [Chained σ ν κ] [DecidableEq ν] (node : ν) : EStateM Fault σ Unit := do
  let place : Links ν κ ← look (links · node)
  writeAny place.prev fun prev s => relink (κ := κ) s prev ({ · with next := place.next })
  writeAny place.next fun next s => relink (κ := κ) s next ({ · with prev := place.prev })
  writeAny place.owner fun owner s => reframe s owner (·.without node place)
  write (relink · node fun _ => ({} : Links ν κ))

theorem insertAfter_follows (anchor node : ν) :
    Follows (insertAfter κ anchor node) fun s : σ => Chain.insertAfter (κ := κ) s anchor node := by
  apply Follows.look
  intro place
  dsimp only
  cases place.owner with
  | none => exact follows_throw _
  | some owner =>
    apply Follows.look
    intro loose
    split
    · exact follows_throw _
    · cases place.next with
      | none =>
        exact .bind (follows_write _) fun _ => .bind (follows_write _) fun _ => .bind (follows_write _) fun _ =>
          follows_write _
      | some next =>
        exact .bind (follows_write _) fun _ => .bind (follows_write _) fun _ => .bind (follows_write _) fun _ =>
          .bind (follows_write _) fun _ => follows_write _

theorem insertBefore_follows (anchor node : ν) :
    Follows (insertBefore κ anchor node) fun s : σ => Chain.insertBefore (κ := κ) s anchor node := by
  apply Follows.look
  intro place
  dsimp only
  cases place.owner with
  | none => exact follows_throw _
  | some owner =>
    apply Follows.look
    intro loose
    split
    · exact follows_throw _
    · cases place.prev with
      | none =>
        exact .bind (follows_write _) fun _ => .bind (follows_write _) fun _ => .bind (follows_write _) fun _ =>
          follows_write _
      | some prev =>
        exact .bind (follows_write _) fun _ => .bind (follows_write _) fun _ => .bind (follows_write _) fun _ =>
          .bind (follows_write _) fun _ => follows_write _

theorem pushOnly_follows (container : κ) (node : ν) :
    Follows (pushOnly container node) fun s : σ => Chain.pushOnly s container node :=
  .bind (follows_write _) fun _ => .bind (follows_write _) fun _ => follows_write _

theorem pushFront_follows (container : κ) (node : ν) :
    Follows (pushFront container node) fun s : σ => Chain.pushFront s container node := by
  apply Follows.look
  intro loose
  split
  · exact follows_throw _
  · apply Follows.look
    intro found
    cases found.head with
    | none => exact pushOnly_follows container node
    | some head => exact insertBefore_follows head node

theorem pushBack_follows (container : κ) (node : ν) :
    Follows (pushBack container node) fun s : σ => Chain.pushBack s container node := by
  apply Follows.look
  intro loose
  split
  · exact follows_throw _
  · apply Follows.look
    intro found
    cases found.tail with
    | none => exact pushOnly_follows container node
    | some tail => exact insertAfter_follows tail node

theorem unlink_follows [DecidableEq ν] (node : ν) :
    Follows (unlink κ node) fun s : σ => Chain.unlink (κ := κ) s node := by
  apply Follows.look
  intro place
  cases place.prev <;> cases place.next <;> cases place.owner <;>
    exact .bind (follows_writeAny _ _) fun _ => .bind (follows_writeAny _ _) fun _ =>
      .bind (follows_writeAny _ _) fun _ => follows_write _

end InPlace

/-! ## Edits of sequences -/

inductive Edit (ν κ : Type) where
  | pushFront (container : κ) (node : ν)
  | pushBack (container : κ) (node : ν)
  | insertAfter (anchor node : ν)
  | insertBefore (anchor node : ν)
  | unlink (node : ν)

namespace Edit

/-- What an edit asks for, given the nodes and containers that are stored: that which comes in is in no sequence, and
that which it is put next to is in one. -/
def Allowed (nodes : Set ν) (containers : Set κ) (seq : κ → List ν) : Edit ν κ → Prop
  | pushFront container node | pushBack container node =>
    container ∈ containers ∧ node ∈ nodes ∧ ∀ other, node ∉ seq other
  | insertAfter anchor node | insertBefore anchor node =>
    (∃ container, anchor ∈ seq container) ∧ node ∈ nodes ∧ ∀ other, node ∉ seq other
  | unlink node => node ∈ nodes

variable [DecidableEq ν]

def run (s : σ) : Edit ν κ → Except Fault σ
  | pushFront container node => Chain.pushFront s container node
  | pushBack container node => Chain.pushBack s container node
  | insertAfter anchor node => Chain.insertAfter (κ := κ) s anchor node
  | insertBefore anchor node => Chain.insertBefore (κ := κ) s anchor node
  | unlink node => Chain.unlink (κ := κ) s node

def inPlace : Edit ν κ → EStateM Fault σ Unit
  | pushFront container node => InPlace.pushFront container node
  | pushBack container node => InPlace.pushBack container node
  | insertAfter anchor node => InPlace.insertAfter κ anchor node
  | insertBefore anchor node => InPlace.insertBefore κ anchor node
  | unlink node => InPlace.unlink κ node

theorem follows (edit : Edit ν κ) : Follows edit.inPlace fun s : σ => edit.run s := by
  cases edit with
  | pushFront container node => exact InPlace.pushFront_follows container node
  | pushBack container node => exact InPlace.pushBack_follows container node
  | insertAfter anchor node => exact InPlace.insertAfter_follows anchor node
  | insertBefore anchor node => exact InPlace.insertBefore_follows anchor node
  | unlink node => exact InPlace.unlink_follows node

variable [DecidableEq κ]

/-- What an edit does to the sequences. -/
def apply (seq : κ → List ν) : Edit ν κ → κ → List ν
  | pushFront container node => Function.update seq container (node :: seq container)
  | pushBack container node => Function.update seq container (seq container ++ [node])
  | insertAfter anchor node => fun container =>
    (seq container).flatMap fun other => if other = anchor then [anchor, node] else [other]
  | insertBefore anchor node => fun container =>
    (seq container).flatMap fun other => if other = anchor then [node, anchor] else [other]
  | unlink node => fun container => (seq container).erase node

end Edit

section Refinement

variable {s t : σ} {seq : κ → List ν}

theorem Linked.mem_unique (linked : Linked s seq) {node : ν} {container other : κ} (here : node ∈ seq container)
    (there : node ∈ seq other) : other = container := by
  obtain ⟨_, _, _, stands⟩ := linked.exists_links here
  exact (Option.some.inj ((linked.owner_eq stands).mpr there)).symm

theorem Linked.owner_eq_none (linked : Linked s seq) {node : ν} {place : Links ν κ}
    (found : Chained.links? s node = some place) : place.owner = none ↔ ∀ container, node ∉ seq container := by
  constructor
  · intro loose container member
    rw [(linked.owner_eq found).mpr member] at loose
    cases loose
  · intro absent
    rw [linked.loose node place found absent]

theorem Linked.loose_of_not_mem (linked : Linked s seq) {node : ν} (known : (Chained.links? (κ := κ) s node).isSome)
    (absent : ∀ container, node ∉ seq container) : Chained.links? s node = some ({} : Links ν κ) := by
  obtain ⟨place, found⟩ := Option.isSome_iff_exists.mp known
  rw [found, linked.loose node place found absent]

def nodes (ν κ : Type) [Chained σ ν κ] (s : σ) : Set ν := { node | (Chained.links? (κ := κ) s node).isSome }

def containers (ν κ : Type) [Chained σ ν κ] (s : σ) : Set κ :=
  { container | (Chained.ends? (ν := ν) s container).isSome }

/-! ## Edits that are not allowed -/

theorem lookLinks_ok {node : ν} {place : Links ν κ} (found : Chained.links? s node = some place)
    (rest : Links ν κ → EStateM Fault σ Unit) : (look (links · node) >>= rest).run s = (rest place).run s := by
  simp only [EStateM.run, bind, EStateM.bind, look, links_eq_ok.mpr found]

theorem lookLinks_vacant {node : ν} (vacant : Chained.links? (κ := κ) s node = none)
    (rest : Links ν κ → EStateM Fault σ Unit) :
    (look (links · node) >>= rest).run s = .error .vacantSlot s := by
  simp only [EStateM.run, bind, EStateM.bind, look, links, vacant]

theorem lookEnds_vacant {container : κ} (vacant : Chained.ends? (ν := ν) s container = none)
    (rest : Ends ν → EStateM Fault σ Unit) :
    (look (ends · container) >>= rest).run s = .error .vacantSlot s := by
  simp only [EStateM.run, bind, EStateM.bind, look, ends, vacant]

/-- The check that a node which comes in is in no chain, as the operations make it. -/
def checked (κ : Type) [Chained σ ν κ] (node : ν) (taken : Fault) (rest : EStateM Fault σ Unit) :
    EStateM Fault σ Unit := do
  let loose : Links ν κ ← look (links · node)
  if loose.owner.isSome then throw taken else rest

theorem checked_ok (linked : Linked s seq) {node : ν} (known : node ∈ nodes ν κ s)
    (absent : ∀ other, node ∉ seq other) (taken : Fault) (rest : EStateM Fault σ Unit) :
    (checked κ node taken rest).run s = rest.run s :=
  lookLinks_ok (linked.loose_of_not_mem known absent) _

theorem checked_refused (linked : Linked s seq) {node : ν}
    (refused : ¬(node ∈ nodes ν κ s ∧ ∀ other, node ∉ seq other)) (taken : Fault) (rest : EStateM Fault σ Unit) :
    ∃ fault, (checked κ node taken rest).run s = .error fault s := by
  cases found : Chained.links? (κ := κ) s node with
  | none => exact ⟨.vacantSlot, lookLinks_vacant found _⟩
  | some place =>
    have owned : place.owner.isSome := by
      rw [Option.isSome_iff_ne_none]
      intro loose
      exact refused ⟨Option.isSome_iff_exists.mpr ⟨place, found⟩, (linked.owner_eq_none found).mp loose⟩
    refine ⟨taken, (lookLinks_ok found _).trans ?_⟩
    rw [if_pos owned]
    rfl

theorem anchor_refused (linked : Linked s seq) {anchor node : ν} (loose taken : Fault)
    (rest : Links ν κ → κ → EStateM Fault σ Unit)
    (refused : ¬((∃ container, anchor ∈ seq container) ∧ node ∈ nodes ν κ s ∧ ∀ other, node ∉ seq other)) :
    ∃ fault, (look (links · anchor) >>= fun place : Links ν κ => match place.owner with
      | none => throw loose
      | some owner => checked κ node taken (rest place owner)).run s = .error fault s := by
  cases found : Chained.links? (κ := κ) s anchor with
  | none => exact ⟨.vacantSlot, lookLinks_vacant found _⟩
  | some place =>
    rw [lookLinks_ok found]
    cases owned : place.owner with
    | none => exact ⟨loose, rfl⟩
    | some owner =>
      apply checked_refused linked
      exact fun allowed => refused ⟨⟨owner, (linked.owner_eq found).mp owned⟩, allowed⟩

theorem container_refused (linked : Linked s seq) {container : κ} {node : ν} (taken : Fault)
    (rest : Ends ν → EStateM Fault σ Unit)
    (refused : ¬(container ∈ containers ν κ s ∧ node ∈ nodes ν κ s ∧ ∀ other, node ∉ seq other)) :
    ∃ fault, (checked κ node taken (look (ends · container) >>= rest)).run s = .error fault s := by
  by_cases allowed : node ∈ nodes ν κ s ∧ ∀ other, node ∉ seq other
  · have missing : container ∉ containers ν κ s := fun stored => refused ⟨stored, allowed⟩
    have vacant : Chained.ends? (ν := ν) s container = none := by simpa [containers] using missing
    rw [checked_ok linked allowed.1 allowed.2]
    exact ⟨.vacantSlot, lookEnds_vacant vacant rest⟩
  · exact checked_refused linked allowed _ _

variable [DecidableEq ν]

theorem Edit.inPlace_refused (linked : Linked s seq) {edit : Edit ν κ}
    (refused : ¬ edit.Allowed (nodes ν κ s) (containers ν κ s) seq) :
    ∃ fault, edit.inPlace.run s = .error fault s := by
  cases edit with
  | pushFront container node => exact container_refused linked _ _ refused
  | pushBack container node => exact container_refused linked _ _ refused
  | insertAfter anchor node => exact anchor_refused linked _ _ _ refused
  | insertBefore anchor node => exact anchor_refused linked _ _ _ refused
  | unlink node =>
    have vacant : Chained.links? (κ := κ) s node = none := by simpa [Allowed, nodes] using refused
    exact ⟨.vacantSlot, lookLinks_vacant vacant _⟩

/-! ## Edits that are allowed -/

omit [Chained σ ν κ] in
theorem flatMap_of_not_mem {list new : List ν} {anchor : ν} (absent : anchor ∉ list) :
    (list.flatMap fun other => if other = anchor then new else [other]) = list := by
  have each : ∀ other ∈ list, (if other = anchor then new else [other]) = [other] := by
    rintro other member
    rw [if_neg]
    rintro rfl
    exact absent member
  rw [List.flatMap_congr each, List.flatMap_singleton']

variable [DecidableEq κ]

/-- A sequence is replaced around one of its nodes, which no other sequence has. -/
theorem Linked.update_eq (linked : Linked s seq) {container : κ} {pre post : List ν} {anchor : ν}
    (split : seq container = pre ++ anchor :: post) (new : List ν) :
    Function.update seq container (pre ++ new ++ post) =
      fun container => (seq container).flatMap fun other => if other = anchor then new else [other] := by
  have nodup := linked.nodup container
  have member : anchor ∈ seq container := by simp [split]
  funext other
  by_cases here : other = container
  · subst here
    rw [split] at nodup
    have notPre : anchor ∉ pre := by grind
    have notPost : anchor ∉ post := by grind
    rw [Function.update_self, split, List.flatMap_append, List.flatMap_cons, flatMap_of_not_mem notPre,
      flatMap_of_not_mem notPost, if_pos rfl, List.append_assoc]
  · rw [Function.update_of_ne here, flatMap_of_not_mem fun there => here (linked.mem_unique member there)]

theorem Linked.update_erase (linked : Linked s seq) {container : κ} {pre post : List ν} {node : ν}
    (split : seq container = pre ++ node :: post) :
    Function.update seq container (pre ++ post) = fun container => (seq container).erase node := by
  have nodup := linked.nodup container
  have member : node ∈ seq container := by simp [split]
  funext other
  by_cases here : other = container
  · subst here
    rw [split] at nodup
    have notPre : node ∉ pre := by grind
    rw [Function.update_self, split, List.erase_append_right _ notPre, List.erase_cons_head]
  · rw [Function.update_of_ne here, List.erase_of_not_mem fun there => here (linked.mem_unique member there)]

/-- The sequence that a container stands for: its nodes from front to back. -/
def sequence (s : σ) (container : κ) : List ν := (toList s container).toOption.getD []

variable [LawfulChained σ ν κ]

theorem sequence_eq (linked : Linked s seq) : sequence s = seq := by
  funext container
  unfold sequence
  by_cases stored : (Chained.ends? (ν := ν) s container).isSome
  · rw [toList_linked linked stored]
    rfl
  · have empty : seq container = [] := by
      by_contra nonempty
      exact stored (linked.stored container nonempty)
    have vacant : Chained.ends? (ν := ν) s container = none := by simpa using stored
    have fault : toList (ν := ν) s container = .error .vacantSlot := by
      simp only [toList, Cursor.start, ends, vacant]
      rfl
    rw [fault, empty]
    rfl

theorem Edits.nodes_eq (edits : Edits ν κ s t) : nodes ν κ t = nodes ν κ s := by
  induction edits with
  | refl => rfl
  | links node place _ ih =>
    rw [← ih]
    ext other
    simp only [nodes, Set.mem_ofPred_eq, LawfulChained.links_setLinks]
    split
    · next same => rw [Option.isSome_map, same]
    · rfl
  | ends container found _ ih =>
    rw [← ih]
    ext other
    simp only [nodes, Set.mem_ofPred_eq, LawfulChained.links_setEnds]

theorem Edits.containers_eq (edits : Edits ν κ s t) : containers ν κ t = containers ν κ s := by
  induction edits with
  | refl => rfl
  | links node place _ ih =>
    rw [← ih]
    ext other
    simp only [containers, Set.mem_ofPred_eq, LawfulChained.ends_setLinks]
  | ends container found _ ih =>
    rw [← ih]
    ext other
    simp only [containers, Set.mem_ofPred_eq, LawfulChained.ends_setEnds]
    split
    · next same => rw [Option.isSome_map, same]
    · rfl

theorem Edit.run_ok (linked : Linked s seq) {edit : Edit ν κ}
    (allowed : edit.Allowed (nodes ν κ s) (containers ν κ s) seq) :
    ∃ t, edit.run s = .ok t ∧ Linked t (edit.apply seq) ∧ Edits ν κ s t := by
  cases edit with
  | pushFront container node =>
    obtain ⟨stored, known, absent⟩ := allowed
    obtain ⟨t, done, inserted⟩ := pushFront_inserted linked stored (linked.loose_of_not_mem known absent)
    exact ⟨t, done, inserted.linked linked rfl absent, inserted.edits⟩
  | pushBack container node =>
    obtain ⟨stored, known, absent⟩ := allowed
    obtain ⟨t, done, inserted⟩ := pushBack_inserted linked stored (linked.loose_of_not_mem known absent)
    exact ⟨t, done, inserted.linked linked (List.append_nil _).symm absent, inserted.edits⟩
  | insertAfter anchor node =>
    obtain ⟨⟨container, member⟩, known, absent⟩ := allowed
    obtain ⟨pre, post, split⟩ := List.append_of_mem member
    obtain ⟨t, done, inserted⟩ := insertAfter_inserted linked split (linked.loose_of_not_mem known absent)
    have linked' := inserted.linked linked (by simp [split]) absent
    have around : pre ++ [anchor] ++ node :: post = pre ++ [anchor, node] ++ post := by simp
    rw [around, linked.update_eq split] at linked'
    exact ⟨t, done, linked', inserted.edits⟩
  | insertBefore anchor node =>
    obtain ⟨⟨container, member⟩, known, absent⟩ := allowed
    obtain ⟨pre, post, split⟩ := List.append_of_mem member
    obtain ⟨t, done, inserted⟩ := insertBefore_inserted linked split (linked.loose_of_not_mem known absent)
    have linked' := inserted.linked linked split absent
    have around : pre ++ node :: anchor :: post = pre ++ [node, anchor] ++ post := by simp
    rw [around, linked.update_eq split] at linked'
    exact ⟨t, done, linked', inserted.edits⟩
  | unlink node =>
    by_cases inside : ∃ container, node ∈ seq container
    · obtain ⟨container, member⟩ := inside
      obtain ⟨pre, post, split⟩ := List.append_of_mem member
      obtain ⟨t, done, removed⟩ := unlink_removed linked split
      have linked' := removed.linked linked split
      rw [linked.update_erase split] at linked'
      exact ⟨t, done, linked', removed.edits⟩
    · have absent : ∀ container, node ∉ seq container := fun container member => inside ⟨container, member⟩
      obtain ⟨t, done, edits, links, ends⟩ := unlink_loose (linked.loose_of_not_mem allowed absent)
      refine ⟨t, done, ?_, edits⟩
      have same : (Edit.unlink node).apply seq = seq := funext fun container => List.erase_of_not_mem (absent container)
      rw [same]
      exact linked.adjusted (fun other => .inl (links other)) fun container => .inl (ends container)

end Refinement

end Chain

end RegisterAllocator
