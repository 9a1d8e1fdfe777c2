import Mathlib.Data.List.Basic
import Mathlib.Data.List.Induction
import Mathlib.Logic.Function.Basic
import RegisterAllocator.Chain.Basic
import RegisterAllocator.Proofs.Outcome

/-!
# Chains as sequences

A store of chains stands for a sequence of nodes in each container (`Chain.Linked`). Linking a node puts it between two
parts of a sequence (`insertBefore_inserted`, `insertAfter_inserted`, `pushBack_inserted`), unlinking takes it out
(`unlink_removed`), and traversal lists the sequence (`toList_linked`). The operations change nothing but links and ends
(`Edits`), so what else a store keeps is as before.
-/

namespace RegisterAllocator

/-- A store in which a record that is replaced is the only one that changes. -/
class LawfulChained (σ ν κ : Type) [DecidableEq ν] [DecidableEq κ] [Chained σ ν κ] : Prop where
  links_setLinks : ∀ (s : σ) (node other : ν) (place : Links ν κ),
    Chained.links? (κ := κ) (Chained.setLinks s node place) other =
      if other = node then (Chained.links? (κ := κ) s node).map fun _ => place else Chained.links? (κ := κ) s other
  links_setEnds : ∀ (s : σ) (container : κ) (found : Ends ν) (other : ν),
    Chained.links? (κ := κ) (Chained.setEnds s container found) other = Chained.links? (κ := κ) s other
  ends_setLinks : ∀ (s : σ) (node : ν) (place : Links ν κ) (container : κ),
    Chained.ends? (ν := ν) (Chained.setLinks s node place) container = Chained.ends? s container
  ends_setEnds : ∀ (s : σ) (container other : κ) (found : Ends ν),
    Chained.ends? (ν := ν) (Chained.setEnds s container found) other =
      if other = container then (Chained.ends? (ν := ν) s container).map fun _ => found
      else Chained.ends? (ν := ν) s other
  /-- A store has room for no more nodes than it says. -/
  room : ∀ (s : σ) (nodes : List ν), nodes.Nodup → (∀ node ∈ nodes, (Chained.links? (κ := κ) s node).isSome) →
    nodes.length ≤ Chained.capacity ν κ s

namespace Chain

variable {σ ν κ : Type} [Chained σ ν κ]

/-- A store that comes from another by replacing links and ends. -/
inductive Edits (ν κ : Type) [Chained σ ν κ] : σ → σ → Prop
  | refl (s : σ) : Edits ν κ s s
  | links {s t : σ} (node : ν) (place : Links ν κ) : Edits ν κ s t → Edits ν κ s (Chained.setLinks t node place)
  | ends {s t : σ} (container : κ) (found : Ends ν) : Edits ν κ s t → Edits ν κ s (Chained.setEnds t container found)

/-- Each container of a store holds a sequence of nodes, and each node is in one sequence or in none. -/
structure Linked (s : σ) (seq : κ → List ν) : Prop where
  ends : ∀ container found, Chained.ends? s container = some found →
    found = { head := (seq container).head?, tail := (seq container).getLast? }
  stored : ∀ container, seq container ≠ [] → (Chained.ends? (ν := ν) s container).isSome
  links : ∀ container pre node post, seq container = pre ++ node :: post →
    Chained.links? s node = some { next := post.head?, prev := pre.getLast?, owner := some container }
  nodup : ∀ container, (seq container).Nodup
  loose : ∀ node place, Chained.links? s node = some place → (∀ container, node ∉ seq container) →
    place = ({} : Links ν κ)

theorem links_eq_ok {s : σ} {node : ν} {place : Links ν κ} :
    links s node = .ok place ↔ Chained.links? s node = some place := by
  unfold links
  cases Chained.links? (κ := κ) s node <;> simp

theorem ends_eq_ok {s : σ} {container : κ} {found : Ends ν} :
    ends s container = .ok found ↔ Chained.ends? s container = some found := by
  unfold ends
  cases Chained.ends? (ν := ν) s container <;> simp

def relinked (s : σ) (node : ν) (change : Links ν κ → Links ν κ) : σ :=
  match Chained.links? s node with
  | some place => Chained.setLinks s node (change place)
  | none => s

def reframed (s : σ) (container : κ) (change : Ends ν → Ends ν) : σ :=
  match Chained.ends? s container with
  | some found => Chained.setEnds s container (change found)
  | none => s

theorem relink_eq {s : σ} {node : ν} (known : (Chained.links? (κ := κ) s node).isSome)
    (change : Links ν κ → Links ν κ) : relink s node change = .ok (relinked s node change) := by
  obtain ⟨place, found⟩ := Option.isSome_iff_exists.mp known
  rw [relink, relinked, links_eq_ok.mpr found, found]
  rfl

theorem reframe_eq {s : σ} {container : κ} (known : (Chained.ends? (ν := ν) s container).isSome)
    (change : Ends ν → Ends ν) : reframe s container change = .ok (reframed s container change) := by
  obtain ⟨found, stored⟩ := Option.isSome_iff_exists.mp known
  rw [reframe, reframed, ends_eq_ok.mpr stored, stored]
  rfl

theorem Edits.relinked {s t : σ} (edits : Edits ν κ s t) (node : ν) (change : Links ν κ → Links ν κ) :
    Edits ν κ s (relinked t node change) := by
  unfold Chain.relinked
  split
  · exact .links _ _ edits
  · exact edits

theorem Edits.reframed {s t : σ} (edits : Edits ν κ s t) (container : κ) (change : Ends ν → Ends ν) :
    Edits ν κ s (reframed t container change) := by
  unfold Chain.reframed
  split
  · exact .ends _ _ edits
  · exact edits

theorem Edits.relink {s t u : σ} (edits : Edits ν κ s t) {node : ν} {change : Links ν κ → Links ν κ}
    (ran : relink t node change = .ok u) : Edits ν κ s u := by
  simp only [Chain.relink, bind_eq_ok, pure_eq_ok] at ran
  obtain ⟨_, -, rfl⟩ := ran
  exact .links _ _ edits

theorem Edits.reframe {s t u : σ} (edits : Edits ν κ s t) {container : κ} {change : Ends ν → Ends ν}
    (ran : reframe t container change = .ok u) : Edits ν κ s u := by
  simp only [Chain.reframe, bind_eq_ok, pure_eq_ok] at ran
  obtain ⟨_, -, rfl⟩ := ran
  exact .ends _ _ edits

theorem insertAfter_edits {s t : σ} {anchor node : ν} (ran : insertAfter (κ := κ) s anchor node = .ok t) :
    Edits ν κ s t := by
  simp only [insertAfter, bind_eq_ok] at ran
  obtain ⟨place, -, ran⟩ := ran
  cases owned : place.owner with
  | none => simp [owned] at ran
  | some owner =>
    simp only [owned, bind_eq_ok] at ran
    obtain ⟨loose, -, ran⟩ := ran
    split at ran
    · cases ran
    · cases next : place.next with
      | none =>
        simp only [next, bind_eq_ok] at ran
        obtain ⟨_, framed, _, first, _, second, third⟩ := ran
        exact ((((Edits.refl s).reframe framed).relink first).relink second).relink third
      | some right =>
        simp only [next, bind_eq_ok] at ran
        obtain ⟨_, before, _, after, _, first, _, second, third⟩ := ran
        exact (((((Edits.refl s).relink before).relink after).relink first).relink second).relink third

theorem insertBefore_edits {s t : σ} {anchor node : ν} (ran : insertBefore (κ := κ) s anchor node = .ok t) :
    Edits ν κ s t := by
  simp only [insertBefore, bind_eq_ok] at ran
  obtain ⟨place, -, ran⟩ := ran
  cases owned : place.owner with
  | none => simp [owned] at ran
  | some owner =>
    simp only [owned, bind_eq_ok] at ran
    obtain ⟨loose, -, ran⟩ := ran
    split at ran
    · cases ran
    · cases prev : place.prev with
      | none =>
        simp only [prev, bind_eq_ok] at ran
        obtain ⟨_, framed, _, first, _, second, third⟩ := ran
        exact ((((Edits.refl s).reframe framed).relink first).relink second).relink third
      | some left =>
        simp only [prev, bind_eq_ok] at ran
        obtain ⟨_, before, _, after, _, first, _, second, third⟩ := ran
        exact (((((Edits.refl s).relink before).relink after).relink first).relink second).relink third

theorem pushBack_edits {s t : σ} {container : κ} {node : ν} (ran : pushBack s container node = .ok t) :
    Edits ν κ s t := by
  simp only [pushBack, bind_eq_ok] at ran
  obtain ⟨loose, -, ran⟩ := ran
  split at ran
  · cases ran
  · simp only [bind_eq_ok] at ran
    obtain ⟨found, -, ran⟩ := ran
    split at ran
    · exact insertAfter_edits ran
    · simp only [pushOnly, bind_eq_ok] at ran
      obtain ⟨_, head, _, tail, owner⟩ := ran
      exact (((Edits.refl s).reframe head).reframe tail).relink owner

theorem unlink_edits [DecidableEq ν] {s t : σ} {node : ν} (ran : unlink (κ := κ) s node = .ok t) : Edits ν κ s t := by
  simp only [unlink, bind_eq_ok] at ran
  obtain ⟨⟨next, prev, owner⟩, -, ran⟩ := ran
  have start := @Edits.refl σ ν κ _ s
  -- each of the three records is changed if there is one, and then the node's own
  cases prev <;> cases next <;> cases owner <;> simp only [bind_eq_ok, pure_eq_ok] at ran
  · obtain ⟨_, rfl, _, rfl, _, rfl, last⟩ := ran
    exact start.relink last
  · obtain ⟨_, rfl, _, rfl, _, framed, last⟩ := ran
    exact (start.reframe framed).relink last
  · obtain ⟨_, rfl, _, right, _, rfl, last⟩ := ran
    exact (start.relink right).relink last
  · obtain ⟨_, rfl, _, right, _, framed, last⟩ := ran
    exact ((start.relink right).reframe framed).relink last
  · obtain ⟨_, left, _, rfl, _, rfl, last⟩ := ran
    exact (start.relink left).relink last
  · obtain ⟨_, left, _, rfl, _, framed, last⟩ := ran
    exact ((start.relink left).reframe framed).relink last
  · obtain ⟨_, left, _, right, _, rfl, last⟩ := ran
    exact ((start.relink left).relink right).relink last
  · obtain ⟨_, left, _, right, _, framed, last⟩ := ran
    exact (((start.relink left).relink right).reframe framed).relink last

namespace Linked

variable {s : σ} {seq : κ → List ν}

theorem exists_links (linked : Linked s seq) {container : κ} {node : ν} (member : node ∈ seq container) :
    ∃ pre post, seq container = pre ++ node :: post ∧
      Chained.links? s node = some { next := post.head?, prev := pre.getLast?, owner := some container } := by
  obtain ⟨pre, post, split⟩ := List.append_of_mem member
  exact ⟨pre, post, split, linked.links container pre node post split⟩

theorem owner_eq (linked : Linked s seq) {container : κ} {node : ν} {place : Links ν κ}
    (found : Chained.links? s node = some place) : place.owner = some container ↔ node ∈ seq container := by
  constructor
  · intro owned
    by_contra absent
    by_cases inside : ∃ other, node ∈ seq other
    · obtain ⟨other, member⟩ := inside
      obtain ⟨_, _, _, stands⟩ := linked.exists_links member
      rw [found] at stands
      cases stands
      cases owned
      exact absent member
    · rw [linked.loose node place found fun other member => inside ⟨other, member⟩] at owned
      cases owned
  · intro member
    obtain ⟨_, _, _, stands⟩ := linked.exists_links member
    rw [found] at stands
    cases stands
    rfl

theorem not_mem_of_loose (linked : Linked s seq) {node : ν} (loose : Chained.links? s node = some ({} : Links ν κ))
    (container : κ) : node ∉ seq container := fun member => by
  have owned := (linked.owner_eq loose).mpr member
  cases owned

theorem ends_of_mem (linked : Linked s seq) {container : κ} {node : ν} (member : node ∈ seq container) :
    Chained.ends? s container = some { head := (seq container).head?, tail := (seq container).getLast? } := by
  obtain ⟨found, stored⟩ := Option.isSome_iff_exists.mp (linked.stored container (List.ne_nil_of_mem member))
  rw [stored, linked.ends container found stored]

/-- A store in which only nodes of no sequence and empty containers have come in or gone. -/
theorem adjusted {t : σ} (linked : Linked s seq)
    (links : ∀ node, Chained.links? (κ := κ) t node = Chained.links? s node ∨ (∀ container, node ∉ seq container) ∧
      ∀ place, Chained.links? t node = some place → place = ({} : Links ν κ))
    (ends : ∀ container, Chained.ends? (ν := ν) t container = Chained.ends? s container ∨ seq container = [] ∧
      ∀ found, Chained.ends? t container = some found → found = ({} : Ends ν)) : Linked t seq := by
  refine ⟨fun container found stored => ?_, fun container nonempty => ?_, fun container pre node post split => ?_,
    linked.nodup, fun node place found absent => ?_⟩
  · rcases ends container with same | ⟨empty, bare⟩
    · exact linked.ends container found (same ▸ stored)
    · rw [bare found stored, empty]
      rfl
  · rcases ends container with same | ⟨empty, -⟩
    · exact same ▸ linked.stored container nonempty
    · exact absurd empty nonempty
  · rcases links node with same | ⟨outside, -⟩
    · exact same ▸ linked.links container pre node post split
    · exact absurd (by simp [split]) (outside container)
  · rcases links node with same | ⟨-, bare⟩
    · exact linked.loose node place (same ▸ found) absent
    · exact bare place found

end Linked

/-- The nodes next to the point where a node is put in or taken out are nodes of the sequence. -/
theorem not_beside {pre post : List ν} {other : ν} (apart : other ∉ pre ++ post) :
    pre.getLast? ≠ some other ∧ post.head? ≠ some other :=
  ⟨fun last => apart (List.mem_append_left _ (List.mem_of_getLast? last)),
    fun first => apart (List.mem_append_right _ (List.mem_of_head? first))⟩

section Splicing

variable [DecidableEq κ] {s t : σ} {seq : κ → List ν}

/-- The sequence of one container is replaced: nodes of neither sequence keep their links, nodes that are taken out get
loose, and nodes that come in were loose. -/
theorem Linked.replaced (linked : Linked s seq) {container : κ} {new : List ν}
    (ends_here : Chained.ends? t container = some { head := new.head?, tail := new.getLast? })
    (ends_other : ∀ other, other ≠ container → Chained.ends? (ν := ν) t other = Chained.ends? s other)
    (nodup : new.Nodup)
    (placed : ∀ pre node post, new = pre ++ node :: post →
      Chained.links? t node = some { next := post.head?, prev := pre.getLast?, owner := some container })
    (kept : ∀ node, node ∉ seq container → node ∉ new → Chained.links? (κ := κ) t node = Chained.links? s node)
    (left : ∀ node ∈ seq container, node ∉ new → Chained.links? t node = some ({} : Links ν κ))
    (entered : ∀ node ∈ new, node ∉ seq container → ∀ other, node ∉ seq other) :
    Linked t (Function.update seq container new) := by
  -- Each property is that of the old sequences away from the container, and given at the container.
  refine ⟨fun other found stored => ?_, fun other nonempty => ?_, fun other pre node post split => ?_,
    fun other => ?_, fun node place found absent => ?_⟩
  · by_cases here : other = container
    · subst here
      rw [ends_here] at stored
      rw [Function.update_self]
      exact (Option.some.inj stored).symm
    · rw [ends_other other here] at stored
      rw [Function.update_of_ne here]
      exact linked.ends other found stored
  · by_cases here : other = container
    · rw [here, ends_here]
      rfl
    · rw [Function.update_of_ne here] at nonempty
      rw [ends_other other here]
      exact linked.stored other nonempty
  · by_cases here : other = container
    · subst here
      rw [Function.update_self] at split
      exact placed pre node post split
    · rw [Function.update_of_ne here] at split
      have stands := linked.links other pre node post split
      have member : node ∈ seq other := by simp [split]
      have outside : node ∉ seq container := fun inside =>
        here (Option.some.inj ((linked.owner_eq stands).mpr inside))
      rw [kept node outside fun inside => entered node inside outside other member]
      exact stands
  · by_cases here : other = container
    · rw [here, Function.update_self]
      exact nodup
    · rw [Function.update_of_ne here]
      exact linked.nodup other
  · have outside : node ∉ new := by simpa using absent container
    by_cases inside : node ∈ seq container
    · rw [left node inside outside] at found
      exact (Option.some.inj found).symm
    · rw [kept node inside outside] at found
      refine linked.loose node place found fun other member => ?_
      by_cases here : other = container
      · exact inside (here ▸ member)
      · have elsewhere := absent other
        rw [Function.update_of_ne here] at elsewhere
        exact elsewhere member

variable [DecidableEq ν]

/-! ## Putting a node in -/

/-- The store `t` is `s` with a loose node put between two parts of a sequence. -/
structure Inserted (s t : σ) (container : κ) (pre : List ν) (node : ν) (post : List ν) : Prop where
  edits : Edits ν κ s t
  links : ∀ other, Chained.links? (κ := κ) t other =
    if other = node then some { next := post.head?, prev := pre.getLast?, owner := some container }
    else if pre.getLast? = some other then (Chained.links? s other).map ({ · with next := some node })
    else if post.head? = some other then (Chained.links? s other).map ({ · with prev := some node })
    else Chained.links? s other
  ends : ∀ other, Chained.ends? (ν := ν) t other =
    if other = container then some { head := (pre ++ node :: post).head?, tail := (pre ++ node :: post).getLast? }
    else Chained.ends? s other

namespace Inserted

variable {container : κ} {pre post : List ν} {node : ν}

theorem links_of_not_mem (inserted : Inserted s t container pre node post) {other : ν} (differ : other ≠ node)
    (apart : other ∉ pre ++ post) : Chained.links? (κ := κ) t other = Chained.links? s other := by
  rw [inserted.links, if_neg differ, if_neg (not_beside apart).1, if_neg (not_beside apart).2]

theorem links_of_before (inserted : Inserted s t container pre node post) (linked : Linked s seq)
    (split : seq container = pre ++ post) (fresh : node ∉ pre ++ post) {first mid : List ν} {other : ν}
    (located : pre = first ++ other :: mid) :
    Chained.links? t other =
      some { next := (mid ++ node :: post).head?, prev := first.getLast?, owner := some container } := by
  subst located
  have nodup : (first ++ other :: mid ++ post).Nodup := split ▸ linked.nodup container
  have old := linked.links container first other (mid ++ post) (by simp [split])
  have differ : other ≠ node := by grind
  have notFirst : post.head? ≠ some other := (not_beside (by grind : other ∉ [] ++ post)).2
  rw [inserted.links, if_neg differ, if_neg notFirst, old]
  rcases List.eq_nil_or_concat' mid with rfl | ⟨mid, last, rfl⟩
  · simp
  · have notLast : last ≠ other := by grind
    simp [List.getLast?_cons, notLast]

theorem links_of_after (inserted : Inserted s t container pre node post) (linked : Linked s seq)
    (split : seq container = pre ++ post) (fresh : node ∉ pre ++ post) {mid last : List ν} {other : ν}
    (located : post = mid ++ other :: last) :
    Chained.links? t other =
      some { next := last.head?, prev := (pre ++ node :: mid).getLast?, owner := some container } := by
  subst located
  have nodup : (pre ++ (mid ++ other :: last)).Nodup := split ▸ linked.nodup container
  have old := linked.links container (pre ++ mid) other last (by simp [split])
  have differ : other ≠ node := by grind
  have notLast : pre.getLast? ≠ some other := (not_beside (by grind : other ∉ pre ++ [])).1
  rw [inserted.links, if_neg differ, if_neg notLast, old]
  cases mid with
  | nil => simp
  | cons second mid =>
    have notFirst : second ≠ other := by grind
    simp [notFirst]

theorem linked (inserted : Inserted s t container pre node post) (linked : Linked s seq)
    (split : seq container = pre ++ post) (loose : ∀ other, node ∉ seq other) :
    Linked t (Function.update seq container (pre ++ node :: post)) := by
  have fresh : node ∉ pre ++ post := split ▸ loose container
  have nodup : (pre ++ post).Nodup := split ▸ linked.nodup container
  refine linked.replaced ?_ ?_ ?_ ?_ ?_ ?_ ?_
  · rw [inserted.ends, if_pos rfl]
  · exact fun other differ => by rw [inserted.ends, if_neg differ]
  · grind
  · intro before other after place
    rcases List.append_eq_append_iff.mp place with ⟨mid, rfl, rest⟩ | ⟨mid, located, rest⟩
    · cases mid with
      | nil =>
        obtain ⟨rfl, rfl⟩ := List.cons.inj rest
        rw [List.append_nil, inserted.links, if_pos rfl]
      | cons first mid =>
        obtain ⟨rfl, located⟩ := List.cons.inj rest
        exact inserted.links_of_after linked split fresh located
    · cases mid with
      | nil =>
        obtain ⟨rfl, rfl⟩ := List.cons.inj rest
        rw [inserted.links, if_pos rfl, located, List.append_nil]
      | cons first mid =>
        obtain ⟨rfl, rfl⟩ := List.cons.inj rest
        exact inserted.links_of_before linked split fresh located
  · intro other outside absent
    exact inserted.links_of_not_mem (by grind) (split ▸ outside)
  · grind
  · intro other member outside
    have same : other = node := by grind
    exact same ▸ loose

end Inserted

/-! ## Taking a node out -/

/-- The store `t` is `s` with a node taken out from between two parts of a sequence. -/
structure Removed (s t : σ) (container : κ) (pre : List ν) (node : ν) (post : List ν) : Prop where
  edits : Edits ν κ s t
  links : ∀ other, Chained.links? (κ := κ) t other =
    if other = node then some {}
    else if pre.getLast? = some other then (Chained.links? s other).map ({ · with next := post.head? })
    else if post.head? = some other then (Chained.links? s other).map ({ · with prev := pre.getLast? })
    else Chained.links? s other
  ends : ∀ other, Chained.ends? (ν := ν) t other =
    if other = container then some { head := (pre ++ post).head?, tail := (pre ++ post).getLast? }
    else Chained.ends? s other

namespace Removed

variable {container : κ} {pre post : List ν} {node : ν}

theorem links_of_before (removed : Removed s t container pre node post) (linked : Linked s seq)
    (split : seq container = pre ++ node :: post) {first mid : List ν} {other : ν}
    (located : pre = first ++ other :: mid) :
    Chained.links? t other =
      some { next := (mid ++ post).head?, prev := first.getLast?, owner := some container } := by
  subst located
  have nodup : (first ++ other :: mid ++ node :: post).Nodup := split ▸ linked.nodup container
  have old := linked.links container first other (mid ++ node :: post) (by simp [split])
  have differ : other ≠ node := by grind
  have notFirst : post.head? ≠ some other := (not_beside (by grind : other ∉ [] ++ post)).2
  rw [removed.links, if_neg differ, if_neg notFirst, old]
  rcases List.eq_nil_or_concat' mid with rfl | ⟨mid, last, rfl⟩
  · simp
  · have notLast : last ≠ other := by grind
    simp [List.getLast?_cons, notLast]

theorem links_of_after (removed : Removed s t container pre node post) (linked : Linked s seq)
    (split : seq container = pre ++ node :: post) {mid last : List ν} {other : ν}
    (located : post = mid ++ other :: last) :
    Chained.links? t other =
      some { next := last.head?, prev := (pre ++ mid).getLast?, owner := some container } := by
  subst located
  have nodup : (pre ++ node :: (mid ++ other :: last)).Nodup := split ▸ linked.nodup container
  have old := linked.links container (pre ++ node :: mid) other last (by simp [split])
  have differ : other ≠ node := by grind
  have notLast : pre.getLast? ≠ some other := (not_beside (by grind : other ∉ pre ++ [])).1
  rw [removed.links, if_neg differ, if_neg notLast, old]
  cases mid with
  | nil => simp
  | cons second mid =>
    have notFirst : second ≠ other := by grind
    simp [notFirst]

theorem linked (removed : Removed s t container pre node post) (linked : Linked s seq)
    (split : seq container = pre ++ node :: post) : Linked t (Function.update seq container (pre ++ post)) := by
  have nodup : (pre ++ node :: post).Nodup := split ▸ linked.nodup container
  refine linked.replaced ?_ ?_ ?_ ?_ ?_ ?_ ?_
  · rw [removed.ends, if_pos rfl]
  · exact fun other differ => by rw [removed.ends, if_neg differ]
  · grind
  · intro before other after place
    rcases List.append_eq_append_iff.mp place with ⟨mid, rfl, located⟩ | ⟨mid, located, rest⟩
    · exact removed.links_of_after linked split located
    · cases mid with
      | nil =>
        rw [List.append_nil] at located
        have beside := removed.links_of_after linked split (show post = [] ++ other :: after from rest.symm)
        rw [beside, located, List.append_nil]
      | cons first mid =>
        obtain ⟨rfl, rfl⟩ := List.cons.inj rest
        exact removed.links_of_before linked split located
  · intro other outside absent
    have differ : other ≠ node := by grind
    rw [removed.links, if_neg differ, if_neg (not_beside absent).1, if_neg (not_beside absent).2]
  · intro other member outside
    have same : other = node := by grind
    rw [removed.links, if_pos same]
  · grind

end Removed

end Splicing

/-! ## The operations -/

section Operations

variable [DecidableEq ν] [DecidableEq κ] [LawfulChained σ ν κ] {s : σ} {seq : κ → List ν}

theorem links_relinked (s : σ) (node other : ν) (change : Links ν κ → Links ν κ) :
    Chained.links? (relinked s node change) other =
      if other = node then (Chained.links? s node).map change else Chained.links? s other := by
  unfold relinked
  split
  · next place found => simp [LawfulChained.links_setLinks, found]
  · next missing =>
    split
    · next same => simp [same, missing]
    · rfl

theorem ends_relinked (s : σ) (node : ν) (container : κ) (change : Links ν κ → Links ν κ) :
    Chained.ends? (ν := ν) (relinked s node change) container = Chained.ends? s container := by
  unfold relinked
  split
  · exact LawfulChained.ends_setLinks ..
  · rfl

theorem links_reframed (s : σ) (container : κ) (node : ν) (change : Ends ν → Ends ν) :
    Chained.links? (κ := κ) (reframed s container change) node = Chained.links? s node := by
  unfold reframed
  split
  · exact LawfulChained.links_setEnds ..
  · rfl

theorem ends_reframed (s : σ) (container other : κ) (change : Ends ν → Ends ν) :
    Chained.ends? (reframed s container change) other =
      if other = container then (Chained.ends? s container).map change else Chained.ends? s other := by
  unfold reframed
  split
  · next found stored => simp [LawfulChained.ends_setEnds, stored]
  · next missing =>
    split
    · next same => simp [same, missing]
    · rfl

theorem isSome_links_relinked (s : σ) (node other : ν) (change : Links ν κ → Links ν κ) :
    (Chained.links? (κ := κ) (relinked s node change) other).isSome = (Chained.links? (κ := κ) s other).isSome := by
  rw [links_relinked]
  split
  · next same => rw [Option.isSome_map, same]
  · rfl

theorem isSome_ends_reframed (s : σ) (container other : κ) (change : Ends ν → Ends ν) :
    (Chained.ends? (ν := ν) (reframed s container change) other).isSome = (Chained.ends? (ν := ν) s other).isSome := by
  rw [ends_reframed]
  split
  · next same => rw [Option.isSome_map, same]
  · rfl

theorem insertBefore_inserted (linked : Linked s seq) {container : κ} {pre post : List ν} {anchor node : ν}
    (split : seq container = pre ++ anchor :: post) (loose : Chained.links? s node = some ({} : Links ν κ)) :
    ∃ t, insertBefore (κ := κ) s anchor node = .ok t ∧ Inserted s t container pre node (anchor :: post) := by
  have member : anchor ∈ seq container := by simp [split]
  have place := linked.links container pre anchor post split
  have stored := linked.ends_of_mem member
  have fresh := linked.not_mem_of_loose loose container
  have nodup := linked.nodup container
  rw [split] at fresh nodup stored
  rcases List.eq_nil_or_concat' pre with rfl | ⟨pre, prev, rfl⟩
  · rw [List.getLast?_nil] at place
    simp only [insertBefore, links_eq_ok.mpr place, links_eq_ok.mpr loose, ok_bind, Option.isSome_none,
      Option.isSome_some, reframe_eq, stored, relink_eq, isSome_links_relinked, links_reframed, loose, place, if_false,
      Bool.false_eq_true]
    refine ⟨_, rfl, ((((Edits.refl s).reframed _ _).relinked _ _).relinked _ _).relinked _ _, fun other => ?_,
      fun other => ?_⟩
    · simp only [links_relinked, links_reframed, List.getLast?_nil, List.head?_cons]
      grind
    · simp only [ends_relinked, ends_reframed, stored, List.nil_append]
      grind
  · rw [List.getLast?_concat] at place
    have before := linked.links container pre prev (anchor :: post) (by simp [split])
    simp only [insertBefore, links_eq_ok.mpr place, links_eq_ok.mpr loose, ok_bind, Option.isSome_none,
      Option.isSome_some, relink_eq, isSome_links_relinked, loose, place, before, if_false, Bool.false_eq_true]
    refine ⟨_, rfl, (((((Edits.refl s).relinked _ _).relinked _ _).relinked _ _).relinked _ _).relinked _ _,
      fun other => ?_, fun other => ?_⟩
    · have notAnchor : anchor ≠ node := by grind
      have notPrev : prev ≠ node ∧ prev ≠ anchor := by grind
      simp only [links_relinked, List.getLast?_concat, List.head?_cons, notAnchor, notAnchor.symm, notPrev.1.symm,
        notPrev.2.symm, if_true, if_false, loose, Option.map_some, Option.some.injEq, eq_comm]
      grind
    · simp only [ends_relinked]
      split
      · next here => simp [here, stored]
      · rfl

theorem insertAfter_inserted (linked : Linked s seq) {container : κ} {pre post : List ν} {anchor node : ν}
    (split : seq container = pre ++ anchor :: post) (loose : Chained.links? s node = some ({} : Links ν κ)) :
    ∃ t, insertAfter (κ := κ) s anchor node = .ok t ∧ Inserted s t container (pre ++ [anchor]) node post := by
  have member : anchor ∈ seq container := by simp [split]
  have place := linked.links container pre anchor post split
  have stored := linked.ends_of_mem member
  have fresh := linked.not_mem_of_loose loose container
  have nodup := linked.nodup container
  rw [split] at fresh nodup stored
  have notAnchor : anchor ≠ node := by grind
  cases post with
  | nil =>
    rw [List.head?_nil] at place
    simp only [insertAfter, links_eq_ok.mpr place, links_eq_ok.mpr loose, ok_bind, Option.isSome_none,
      Option.isSome_some, reframe_eq, stored, relink_eq, isSome_links_relinked, links_reframed, loose, place, if_false,
      Bool.false_eq_true]
    refine ⟨_, rfl, ((((Edits.refl s).reframed _ _).relinked _ _).relinked _ _).relinked _ _, fun other => ?_,
      fun other => ?_⟩
    · simp only [links_relinked, links_reframed, List.getLast?_concat, List.head?_nil]
      grind
    · simp only [ends_relinked, ends_reframed, stored]
      split
      · next here => simp
      · rfl
  | cons next post =>
    have after := linked.links container (pre ++ [anchor]) next post (by simp [split])
    rw [List.head?_cons] at place
    simp only [insertAfter, links_eq_ok.mpr place, links_eq_ok.mpr loose, ok_bind, Option.isSome_none,
      Option.isSome_some, relink_eq, isSome_links_relinked, loose, place, after, if_false, Bool.false_eq_true]
    refine ⟨_, rfl, (((((Edits.refl s).relinked _ _).relinked _ _).relinked _ _).relinked _ _).relinked _ _,
      fun other => ?_, fun other => ?_⟩
    · have notNext : next ≠ node ∧ next ≠ anchor := by grind
      simp only [links_relinked, List.getLast?_concat, List.head?_cons, notAnchor, notAnchor.symm, notNext.1.symm,
        notNext.2.symm, if_true, if_false, loose, Option.map_some, Option.some.injEq, eq_comm]
      grind
    · simp only [ends_relinked]
      split
      · next here => simp [here, stored]
      · rfl

theorem pushBack_inserted (linked : Linked s seq) {container : κ} {node : ν}
    (stored : (Chained.ends? (ν := ν) s container).isSome) (loose : Chained.links? s node = some ({} : Links ν κ)) :
    ∃ t, pushBack s container node = .ok t ∧ Inserted s t container (seq container) node [] := by
  obtain ⟨found, stored⟩ := Option.isSome_iff_exists.mp stored
  have whole := linked.ends container found stored
  rcases List.eq_nil_or_concat' (seq container) with empty | ⟨pre, last, split⟩
  · rw [empty] at whole ⊢
    subst whole
    simp only [pushBack, pushOnly, links_eq_ok.mpr loose, ok_bind, Option.isSome_none, ends_eq_ok.mpr stored,
      List.head?_nil, List.getLast?_nil, reframe_eq, isSome_ends_reframed, relink_eq, links_reframed,
      Option.isSome_some, loose, stored, if_false, Bool.false_eq_true]
    refine ⟨_, rfl, (((Edits.refl s).reframed _ _).reframed _ _).relinked _ _, fun other => ?_, fun other => ?_⟩
    · simp only [links_relinked, links_reframed, List.getLast?_nil, List.head?_nil]
      grind
    · simp only [ends_relinked, ends_reframed, stored]
      split
      · next here => simp
      · rfl
  · rw [split] at whole ⊢
    subst whole
    rw [List.getLast?_concat] at stored
    simp only [pushBack, links_eq_ok.mpr loose, ok_bind, Option.isSome_none, ends_eq_ok.mpr stored, if_false,
      Bool.false_eq_true]
    exact insertAfter_inserted linked split loose

theorem pushFront_inserted (linked : Linked s seq) {container : κ} {node : ν}
    (stored : (Chained.ends? (ν := ν) s container).isSome) (loose : Chained.links? s node = some ({} : Links ν κ)) :
    ∃ t, pushFront s container node = .ok t ∧ Inserted s t container [] node (seq container) := by
  obtain ⟨found, stored⟩ := Option.isSome_iff_exists.mp stored
  have whole := linked.ends container found stored
  cases split : seq container with
  | nil =>
    -- an empty container takes a node at the front as it takes one at the back
    have same : pushFront s container node = pushBack s container node := by
      rw [split] at whole
      subst whole
      simp only [pushFront, pushBack, links_eq_ok.mpr loose, ok_bind, ends_eq_ok.mpr stored]
      rfl
    rw [same, ← split]
    simpa [split] using pushBack_inserted linked (Option.isSome_iff_exists.mpr ⟨_, stored⟩) loose
  | cons head rest =>
    rw [split] at whole
    subst whole
    rw [List.head?_cons] at stored
    simp only [pushFront, links_eq_ok.mpr loose, ok_bind, Option.isSome_none, ends_eq_ok.mpr stored, if_false,
      Bool.false_eq_true]
    exact insertBefore_inserted linked split loose

omit [DecidableEq κ] [LawfulChained σ ν κ] [Chained σ ν κ] in
theorem ends_without {pre post : List ν} {node : ν} (nodup : (pre ++ node :: post).Nodup) (owner : Option κ) :
    Ends.without { head := (pre ++ node :: post).head?, tail := (pre ++ node :: post).getLast? } node
      { next := post.head?, prev := pre.getLast?, owner } =
        { head := (pre ++ post).head?, tail := (pre ++ post).getLast? } := by
  have head : (pre ++ node :: post).head? = some node ↔ pre = [] := by
    cases pre <;> grind
  have tail : (pre ++ node :: post).getLast? = some node ↔ post = [] := by
    rcases List.eq_nil_or_concat' post with rfl | ⟨post, last, rfl⟩ <;> grind
  simp only [Ends.without, head, tail, Ends.mk.injEq]
  constructor
  · cases pre <;> simp
  · rcases List.eq_nil_or_concat' post with rfl | ⟨post, last, rfl⟩ <;> simp [List.getLast?_cons]

theorem unlink_removed (linked : Linked s seq) {container : κ} {pre post : List ν} {node : ν}
    (split : seq container = pre ++ node :: post) :
    ∃ t, unlink (κ := κ) s node = .ok t ∧ Removed s t container pre node post := by
  have member : node ∈ seq container := by simp [split]
  have place := linked.links container pre node post split
  have stored := linked.ends_of_mem member
  have nodup := linked.nodup container
  rw [split] at nodup stored
  have known {other : ν} (inside : other ∈ pre ++ node :: post) : (Chained.links? (κ := κ) s other).isSome := by
    obtain ⟨_, _, _, found⟩ := linked.exists_links (split ▸ inside)
    rw [found]
    rfl
  have knownPrev : ∀ prev, pre.getLast? = some prev → (Chained.links? (κ := κ) s prev).isSome := fun prev last =>
    known (List.mem_append_left _ (List.mem_of_getLast? last))
  have knownNext : ∀ next, post.head? = some next → (Chained.links? (κ := κ) s next).isSome := fun next first =>
    known (List.mem_append_right _ (List.mem_cons_of_mem _ (List.mem_of_head? first)))
  have without := ends_without nodup (some container)
  -- four cases, by whether the node has neighbours
  have apart : ∀ prev next, pre.getLast? = some prev → post.head? = some next → prev ≠ next := by
    intro prev next last first
    have inPre := List.mem_of_getLast? last
    have inPost := List.mem_of_head? first
    grind
  generalize last : pre.getLast? = prev at place knownPrev without apart
  generalize first : post.head? = next at place knownNext without apart
  cases prev <;> cases next
  all_goals
    simp only [unlink, links_eq_ok.mpr place, ok_bind, pure_bind, relink_eq, isSome_links_relinked, knownPrev,
      knownNext, reframe_eq, ends_relinked, stored, Option.isSome_some, links_reframed, place]
    refine ⟨_, rfl, ?_, fun other => ?_, fun other => ?_⟩
  case none.none.refine_1 => exact ((Edits.refl s).reframed _ _).relinked _ _
  case none.some.refine_1 => exact (((Edits.refl s).relinked _ _).reframed _ _).relinked _ _
  case some.none.refine_1 => exact (((Edits.refl s).relinked _ _).reframed _ _).relinked _ _
  case some.some.refine_1 => exact ((((Edits.refl s).relinked _ _).relinked _ _).reframed _ _).relinked _ _
  case none.none.refine_3 | none.some.refine_3 | some.none.refine_3 | some.some.refine_3 =>
    simp only [ends_relinked, ends_reframed, stored, Option.map_some, without]
  all_goals
    simp only [links_relinked, links_reframed, last, first, place]
    grind

theorem unlink_loose {node : ν} (loose : Chained.links? s node = some ({} : Links ν κ)) :
    ∃ t, unlink (κ := κ) s node = .ok t ∧ Edits ν κ s t ∧
      (∀ other : ν, Chained.links? (κ := κ) t other = Chained.links? s other) ∧
      ∀ container : κ, Chained.ends? (ν := ν) t container = Chained.ends? s container := by
  refine ⟨relinked s node fun _ => ({} : Links ν κ), ?_, (Edits.refl s).relinked _ _, fun other => ?_, fun container => ?_⟩
  · simp only [unlink, links_eq_ok.mpr loose, ok_bind, pure_bind]
    exact relink_eq (by simp [loose]) _
  · rw [links_relinked]
    split
    · next same => simp [same, loose]
    · rfl
  · exact ends_relinked ..

end Operations

/-! ## Traversal -/

section Traversal

variable [DecidableEq ν] {s : σ} {seq : κ → List ν}

theorem drain_none (κ : Type) [Chained σ ν κ] (s : σ) (fuel : Nat) (back : Option ν) :
    Cursor.drain (Cursor.next κ s) fuel ⟨none, back⟩ = .ok [] := by
  cases fuel <;> rfl

theorem drain_linked (linked : Linked s seq) {container : κ} {pre rest : List ν} {fuel : Nat}
    (split : seq container = pre ++ rest) (enough : rest.length ≤ fuel) :
    Cursor.drain (Cursor.next κ s) fuel ⟨rest.head?, (seq container).getLast?⟩ = .ok rest := by
  induction rest generalizing pre fuel with
  | nil => exact drain_none κ s fuel _
  | cons node rest ih =>
    obtain ⟨fuel, rfl⟩ : ∃ k, fuel = k + 1 := ⟨fuel - 1, by rw [List.length_cons] at enough; omega⟩
    have place := linked.links container pre node rest split
    have nodup := linked.nodup container
    simp only [Cursor.drain, Cursor.next, List.head?_cons]
    by_cases last : (seq container).getLast? = some node
    · have final : rest = [] := by
        rcases List.eq_nil_or_concat' rest with rfl | ⟨rest, other, rfl⟩
        · rfl
        · rw [split] at last nodup
          grind
      rw [if_pos last, final]
      simp only [ok_bind, drain_none]
      rfl
    · have tail := @ih (pre ++ [node]) fuel (by simp [split]) (Nat.le_of_succ_le_succ enough)
      simp only [if_neg last, links_eq_ok.mpr place, ok_bind, pure_bind, tail]
      rfl

theorem Linked.length_le [DecidableEq κ] [LawfulChained σ ν κ] (linked : Linked s seq) (container : κ) :
    (seq container).length ≤ Chained.capacity ν κ s :=
  LawfulChained.room s (seq container) (linked.nodup container) fun node member => by
    obtain ⟨_, _, _, place⟩ := linked.exists_links member
    rw [place]
    rfl

theorem toList_linked [DecidableEq κ] [LawfulChained σ ν κ] (linked : Linked s seq) {container : κ}
    (stored : (Chained.ends? (ν := ν) s container).isSome) : toList s container = .ok (seq container) := by
  obtain ⟨found, stored⟩ := Option.isSome_iff_exists.mp stored
  have whole := linked.ends container found stored
  subst whole
  simp only [toList, Cursor.start, ends_eq_ok.mpr stored, ok_bind, pure_bind]
  exact drain_linked linked (List.nil_append _).symm (Nat.le_succ_of_le (linked.length_le container))

theorem following_linked [DecidableEq κ] [LawfulChained σ ν κ] (linked : Linked s seq) (container : κ) :
    following κ s (seq container).head? = .ok (seq container) := by
  have go {pre rest : List ν} {fuel : Nat} (split : seq container = pre ++ rest) (enough : rest.length ≤ fuel) :
      following.go κ s fuel rest.head? = .ok rest := by
    induction rest generalizing pre fuel with
    | nil => cases fuel <;> rfl
    | cons node rest ih =>
      obtain ⟨fuel, rfl⟩ : ∃ k, fuel = k + 1 := ⟨fuel - 1, by rw [List.length_cons] at enough; omega⟩
      have place := linked.links container pre node rest split
      have tail := @ih (pre ++ [node]) fuel (by simp [split]) (Nat.le_of_succ_le_succ enough)
      simp only [following.go, List.head?_cons, links_eq_ok.mpr place, ok_bind, tail]
      rfl
  exact go (List.nil_append _).symm (linked.length_le container)

theorem drainBack_linked (linked : Linked s seq) {container : κ} {rest post : List ν} {fuel : Nat}
    (split : seq container = rest ++ post) (enough : rest.length ≤ fuel) :
    Cursor.drain (Cursor.nextBack κ s) fuel ⟨(seq container).head?, rest.getLast?⟩ = .ok rest.reverse := by
  induction rest using List.reverseRecOn generalizing post fuel with
  | nil => cases fuel <;> rfl
  | append_singleton rest node ih =>
    obtain ⟨fuel, rfl⟩ : ∃ k, fuel = k + 1 := ⟨fuel - 1, by simp at enough; omega⟩
    have place := linked.links container rest node post (by simp [split])
    have nodup := linked.nodup container
    simp only [Cursor.drain, Cursor.nextBack, List.getLast?_concat]
    by_cases first : (seq container).head? = some node
    · have final : rest = [] := by
        cases rest with
        | nil => rfl
        | cons other rest =>
          rw [split] at first nodup
          grind
      rw [if_pos first, final]
      cases fuel <;> rfl
    · have tail := @ih (node :: post) fuel (by simp [split]) (by simpa using enough)
      simp only [if_neg first, links_eq_ok.mpr place, ok_bind, pure_bind, tail, List.reverse_concat]
      rfl

theorem toListBack_linked [DecidableEq κ] [LawfulChained σ ν κ] (linked : Linked s seq) {container : κ}
    (stored : (Chained.ends? (ν := ν) s container).isSome) :
    toListBack s container = .ok (seq container).reverse := by
  obtain ⟨found, stored⟩ := Option.isSome_iff_exists.mp stored
  have whole := linked.ends container found stored
  subst whole
  simp only [toListBack, Cursor.start, ends_eq_ok.mpr stored, ok_bind, pure_bind]
  exact drainBack_linked linked (List.append_nil _).symm (Nat.le_succ_of_le (linked.length_le container))

end Traversal

end Chain

end RegisterAllocator
