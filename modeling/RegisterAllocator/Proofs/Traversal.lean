import RegisterAllocator.Proofs.Sequences

/-!
# Traversal from both ends

A traversal deals out the sequence of a container (`Chain.Holds`), each node once and to the side that asks for it. Its
two nodes are always the ends of what is left of the sequence (`Chain.Cursor.over`), so nothing is repeated or lost
where the sides meet, in whatever order they ask (`Chain.traversal_from_both_ends`).
-/

namespace RegisterAllocator.Chain

/-! ## Dealing out a list -/

namespace Side

variable {α : Type} {sides : List Side} {list : List α}

def item? : Side → List α → Option α
  | front, list => list.head?
  | back, list => list.getLast?

def remove : Side → List α → List α
  | front, list => list.tail
  | back, list => list.dropLast

/-- The items of a list, taken from the sides given. -/
def deal : List Side → List α → List (Option α)
  | [], _ => []
  | side :: sides, list => side.item? list :: deal sides (side.remove list)

def leave : List Side → List α → List α
  | [], list => list
  | side :: sides, list => leave sides (side.remove list)

/-- The items that one side was given. -/
def taken (side : Side) (sides : List Side) (answers : List (Option α)) : List α :=
  (sides.zip answers).filterMap fun (asked, answer) => if asked = side then answer else none

theorem item?_eq_none {side : Side} : side.item? list = none ↔ list = [] := by
  cases side with
  | front => exact List.head?_eq_none_iff
  | back => exact List.getLast?_eq_none_iff

theorem remove_isInfix (side : Side) (list : List α) : side.remove list <:+: list := by
  cases side with
  | front => exact (List.tail_suffix list).isInfix
  | back => exact (List.dropLast_prefix list).isInfix

theorem leave_append (sides later : List Side) (list : List α) :
    leave (sides ++ later) list = leave later (leave sides list) := by
  induction sides generalizing list with
  | nil => rfl
  | cons side sides ih => exact ih _

theorem leave_nil (sides : List Side) : leave sides ([] : List α) = [] := by
  induction sides with
  | nil => rfl
  | cons side sides ih => cases side <;> exact ih

theorem length_deal (sides : List Side) (list : List α) : (deal sides list).length = sides.length := by
  induction sides generalizing list with
  | nil => rfl
  | cons side sides ih => exact congrArg Nat.succ (ih _)

theorem take_deal (k : Nat) (sides : List Side) (list : List α) :
    (deal sides list).take k = deal (sides.take k) list := by
  induction k generalizing sides list with
  | zero => rfl
  | succ k ih =>
    cases sides with
    | nil => rfl
    | cons side sides => exact congrArg (side.item? list :: ·) (ih sides _)

theorem getElem?_deal (k : Nat) (sides : List Side) (list : List α) :
    (deal sides list)[k]? = sides[k]?.map fun side => side.item? (leave (sides.take k) list) := by
  induction k generalizing sides list with
  | zero => cases sides <;> rfl
  | succ k ih =>
    cases sides with
    | nil => rfl
    | cons side sides => exact ih sides _

/-- What the front was given, what is left and what the back was given make up the list. -/
theorem deal_split (sides : List Side) (list : List α) :
    taken .front sides (deal sides list) ++ leave sides list ++ (taken .back sides (deal sides list)).reverse =
      list := by
  induction sides generalizing list with
  | nil => simp [taken, leave, deal]
  | cons side sides ih =>
    have rest := ih (side.remove list)
    cases side with
    | front =>
      cases list with
      | nil => exact rest
      | cons first others => exact congrArg (first :: ·) rest
    | back =>
      rcases List.eq_nil_or_concat' list with rfl | ⟨others, last, rfl⟩
      · exact rest
      · simp only [remove, List.dropLast_concat] at rest
        simpa [taken, deal, leave, item?, remove] using congrArg (· ++ [last]) rest

end Side

/-! ## The nodes of a traversal -/

variable {σ ν κ : Type} [Chained σ ν κ] {s : σ} {container : κ} {xs rest : List ν}

/-- A container holds a list of nodes, whatever else is stored. -/
structure Holds (s : σ) (container : κ) (xs : List ν) : Prop where
  ends : Chained.ends? s container = some { head := xs.head?, tail := xs.getLast? }
  links : ∀ pre node post, xs = pre ++ node :: post →
    Chained.links? s node = some { next := post.head?, prev := pre.getLast?, owner := some container }
  nodup : xs.Nodup

theorem Linked.holds {seq : κ → List ν} (linked : Linked s seq)
    (stored : (Chained.ends? (ν := ν) s container).isSome) : Holds s container (seq container) := by
  obtain ⟨found, stored⟩ := Option.isSome_iff_exists.mp stored
  refine ⟨?_, linked.links container, linked.nodup container⟩
  rw [stored, linked.ends container found stored]

/-- The traversal of what is left of a list. -/
def Cursor.over (rest : List ν) : Cursor ν := ⟨rest.head?, rest.getLast?⟩

variable [DecidableEq ν]

theorem Holds.next (holds : Holds s container xs) (within : rest <:+: xs) :
    (Cursor.over rest).next κ s = .ok (rest.head?.map fun node => (node, .over rest.tail)) := by
  obtain ⟨pre, post, rfl⟩ := within
  have once := holds.nodup
  cases rest with
  | nil => rfl
  | cons node rest =>
    have place := holds.links pre node (rest ++ post) (by simp)
    rcases List.eq_nil_or_concat' rest with rfl | ⟨middle, last, rfl⟩
    · simp [Cursor.next, Cursor.over]
    · have apart : last ≠ node := by
        rintro rfl
        grind
      have tail : (node :: (middle ++ [last])).getLast? = some last := by simp [List.getLast?_cons]
      have head : (middle ++ [last] ++ post).head? = (middle ++ [last]).head? := by
        rw [List.head?_append_of_ne_nil _ (by simp)]
      simp only [Cursor.next, Cursor.over, List.head?_cons, tail, Option.some.injEq, apart, if_false,
        links_eq_ok.mpr place, ok_bind, head, List.tail_cons]
      simp [pure, Except.pure]

theorem Holds.nextBack (holds : Holds s container xs) (within : rest <:+: xs) :
    (Cursor.over rest).nextBack κ s = .ok (rest.getLast?.map fun node => (node, .over rest.dropLast)) := by
  obtain ⟨pre, post, rfl⟩ := within
  have once := holds.nodup
  rcases List.eq_nil_or_concat' rest with rfl | ⟨rest, node, rfl⟩
  · rfl
  · have place := holds.links (pre ++ rest) node post (by simp)
    cases rest with
    | nil => simp [Cursor.nextBack, Cursor.over]
    | cons first middle =>
      have apart : first ≠ node := by
        rintro rfl
        grind
      have head : (first :: middle ++ [node]).head? = some first := rfl
      have tail : (pre ++ first :: middle).getLast? = (first :: middle).getLast? := by
        rw [List.getLast?_append_of_ne_nil _ (by simp)]
      simp only [Cursor.nextBack, Cursor.over, List.getLast?_concat, head, Option.some.injEq, apart, if_false,
        links_eq_ok.mpr place, ok_bind, tail, List.dropLast_concat]
      rfl

theorem Holds.pull (holds : Holds s container xs) (within : rest <:+: xs) (side : Side) :
    (Cursor.over rest).pull κ s side = .ok ((side.item? rest).map fun node => (node, .over (side.remove rest))) := by
  cases side with
  | front => exact holds.next within
  | back => exact holds.nextBack within

theorem Holds.pulls (holds : Holds s container xs) (within : rest <:+: xs) (sides : List Side) :
    Cursor.pulls κ s sides (.over rest) = .ok (Side.deal sides rest) := by
  induction sides generalizing rest with
  | nil => rfl
  | cons side sides ih =>
    have later := ih ((side.remove_isInfix rest).trans within)
    rw [Cursor.pulls, holds.pull within side, ok_bind]
    cases item : side.item? rest with
    | none =>
      -- an exhausted traversal stays where it is
      have empty := Side.item?_eq_none.mp item
      subst empty
      have same : side.remove ([] : List ν) = [] := by cases side <;> rfl
      rw [same] at later
      simp only [Option.map_none, later, ok_bind, Side.deal, item, same]
      rfl
    | some node =>
      simp only [Option.map_some, later, ok_bind, Side.deal, item]
      rfl

/-- A traversal may be asked from both sides in any order. After any number of calls the front has been given the first
nodes and the back the last ones, in the order in which they asked; a call is answered with no node exactly when all
have been given, and so are all calls after it. -/
theorem traversal_from_both_ends (holds : Holds s container xs) (sides : List Side) :
    ∃ answers, (Cursor.start s container >>= Cursor.pulls κ s sides) = .ok answers ∧ answers.length = sides.length ∧
      ∀ k,
        let fronts := Side.taken .front (sides.take k) (answers.take k)
        let backs := Side.taken .back (sides.take k) (answers.take k)
        fronts <+: xs ∧ backs.reverse <:+ xs ∧ fronts.length + backs.length ≤ xs.length ∧
        (k < sides.length → (answers[k]? = some none ↔ fronts.length + backs.length = xs.length)) ∧
        (fronts.length + backs.length = xs.length → ∀ l, k ≤ l → l < sides.length → answers[l]? = some none) := by
  have begun : Cursor.start s container = .ok (Cursor.over xs) := by
    rw [Cursor.start, ends_eq_ok.mpr holds.ends, ok_bind]
    rfl
  refine ⟨Side.deal sides xs, ?_, Side.length_deal sides xs, ?_⟩
  · rw [begun, ok_bind]
    exact holds.pulls List.infix_rfl sides
  · intro k fronts backs
    have split : fronts ++ Side.leave (sides.take k) xs ++ backs.reverse = xs := by
      have dealt := Side.deal_split (sides.take k) xs
      rw [← Side.take_deal] at dealt
      exact dealt
    have total := congrArg List.length split
    rw [List.length_append, List.length_append, List.length_reverse] at total
    have count : fronts.length + backs.length = xs.length ↔ Side.leave (sides.take k) xs = [] := by
      rw [← List.length_eq_zero_iff]
      omega
    have none_iff (l : Nat) (asked : l < sides.length) :
        (Side.deal sides xs)[l]? = some none ↔ Side.leave (sides.take l) xs = [] := by
      rw [Side.getElem?_deal, List.getElem?_eq_getElem asked, Option.map_some, Option.some.injEq, Side.item?_eq_none]
    refine ⟨⟨_, (List.append_assoc ..).symm.trans split⟩, ⟨_, split⟩, by omega, fun asked => ?_,
      fun all l later asked => ?_⟩
    · rw [none_iff k asked, count]
    · -- what is left after more calls is left of nothing
      rw [none_iff l asked, ← List.take_append_drop k (sides.take l), List.take_take, Nat.min_eq_left later,
        Side.leave_append, count.mp all, Side.leave_nil]

/-- A block of four instructions that were linked out of order. -/
def queued : List Machine.Operation :=
  [.addFunc "f" false, .addBlock "f", .layout (.pushBack ⟨0⟩ ⟨0⟩), .addInst (.ret []), .addInst (.ret []),
    .addInst (.ret []), .addInst (.ret []), .code (.pushBack ⟨0⟩ ⟨2⟩), .code (.pushFront ⟨0⟩ ⟨1⟩),
    .code (.pushBack ⟨0⟩ ⟨0⟩), .code (.insertAfter ⟨1⟩ ⟨3⟩)]

theorem queued_holds : Holds (Machine.build queued) (⟨0⟩ : BlockId) ([⟨1⟩, ⟨3⟩, ⟨2⟩, ⟨0⟩] : List InstId) := by
  obtain ⟨_, _, formed⟩ := Machine.build_wellFormed queued
  have code : (Machine.build queued).shape.code ⟨0⟩ = [⟨1⟩, ⟨3⟩, ⟨2⟩, ⟨0⟩] := by decide +kernel
  have stored : (Chained.ends? (ν := InstId) (Machine.build queued) (⟨0⟩ : BlockId)).isSome = true := by decide +kernel
  exact code ▸ formed.sequenced.code.holds stored

/-- The sides meet in the middle, and both find nothing afterwards. -/
theorem queued_traversed :
    ∃ answers : List (Option InstId), (Cursor.start (Machine.build queued) (⟨0⟩ : BlockId) >>=
        Cursor.pulls BlockId (Machine.build queued) [.back, .front, .back, .front, .front, .back]) = .ok answers ∧
      Side.taken .front [.back, .front, .back, .front] (answers.take 4) = [⟨1⟩, ⟨3⟩] ∧
      Side.taken .back [.back, .front, .back, .front] (answers.take 4) = [⟨0⟩, ⟨2⟩] ∧
      answers[4]? = some none ∧ answers[5]? = some none := by
  obtain ⟨answers, ran, -, each⟩ :=
    traversal_from_both_ends queued_holds [.back, .front, .back, .front, .front, .back]
  have given : (Cursor.start (Machine.build queued) (⟨0⟩ : BlockId) >>=
      Cursor.pulls BlockId (Machine.build queued) [.back, .front, .back, .front, .front, .back]) =
        .ok [some ⟨0⟩, some ⟨1⟩, some ⟨2⟩, some (⟨3⟩ : InstId), none, none] := by decide +kernel
  rw [given] at ran
  cases ran
  obtain ⟨-, -, -, -, exhausted⟩ := each 4
  exact ⟨_, given, by decide, by decide, exhausted (by decide) 4 (by decide) (by decide),
    exhausted (by decide) 5 (by decide) (by decide)⟩

end RegisterAllocator.Chain
