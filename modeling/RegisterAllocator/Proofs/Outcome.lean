import Mathlib.Data.List.Forall2
import RegisterAllocator.Fault

/-!
# Outcomes

How a computation that may fail is taken apart: a success of a sequence is a success of each of its steps.
-/

namespace RegisterAllocator

variable {ε α β : Type}

theorem bind_eq_ok {x : Except ε α} {f : α → Except ε β} {b : β} :
    (x >>= f) = .ok b ↔ ∃ a, x = .ok a ∧ f a = .ok b := by
  cases x <;> simp [bind, Except.bind]

theorem bind_eq_error {x : Except ε α} {f : α → Except ε β} {e : ε} :
    (x >>= f) = .error e ↔ x = .error e ∨ ∃ a, x = .ok a ∧ f a = .error e := by
  cases x <;> simp [bind, Except.bind]

theorem ok_bind (a : α) (f : α → Except ε β) : (Except.ok a >>= f) = f a := rfl

theorem pure_eq_ok {a b : α} : (pure a : Except ε α) = .ok b ↔ a = b := by
  simp [pure, Except.pure]

theorem map_eq_ok {x : Except ε α} {f : α → β} {b : β} : f <$> x = .ok b ↔ ∃ a, x = .ok a ∧ f a = b := by
  cases x <;> simp [Functor.map, Except.map]

theorem mapM_eq_ok {f : α → Except ε β} {as : List α} {bs : List β} :
    as.mapM f = .ok bs ↔ List.Forall₂ (fun a b => f a = .ok b) as bs := by
  induction as generalizing bs with
  | nil =>
    rw [List.mapM_nil, pure_eq_ok]
    exact ⟨fun same => same ▸ .nil, fun all => by cases all; rfl⟩
  | cons a as ih =>
    simp only [List.mapM_cons, bind_eq_ok, pure_eq_ok]
    constructor
    · rintro ⟨b, first, bs, rest, rfl⟩
      exact .cons first (ih.mp rest)
    · rintro (_ | ⟨first, rest⟩)
      exact ⟨_, first, _, ih.mpr rest, rfl⟩

theorem mapM_eq_some {f : α → Option β} {as : List α} {bs : List β} :
    as.mapM f = some bs ↔ List.Forall₂ (fun a b => f a = some b) as bs := by
  induction as generalizing bs with
  | nil =>
    rw [List.mapM_nil, Option.pure_def, Option.some.injEq]
    exact ⟨fun same => same ▸ .nil, fun all => by cases all; rfl⟩
  | cons a as ih =>
    simp only [List.mapM_cons, Option.bind_eq_bind, Option.bind_eq_some_iff, Option.pure_def, Option.some.injEq]
    constructor
    · rintro ⟨b, first, bs, rest, rfl⟩
      exact .cons first (ih.mp rest)
    · rintro (_ | ⟨first, rest⟩)
      exact ⟨_, first, _, ih.mpr rest, rfl⟩

theorem mapM_eq_error {f : α → Except ε β} {as : List α} {e : ε} (failed : as.mapM f = .error e) :
    ∃ a ∈ as, f a = .error e := by
  induction as with
  | nil => cases failed
  | cons a as ih =>
    rw [List.mapM_cons, bind_eq_error] at failed
    rcases failed with first | ⟨b, -, failed⟩
    · exact ⟨a, List.mem_cons_self, first⟩
    · rcases bind_eq_error.mp failed with rest | ⟨bs, -, failed⟩
      · obtain ⟨other, member, failed⟩ := ih rest
        exact ⟨other, List.mem_cons_of_mem _ member, failed⟩
      · cases failed

theorem exists_mapM_eq_ok {f : α → Except ε β} {as : List α} (each : ∀ a ∈ as, ∃ b, f a = .ok b) :
    ∃ bs, as.mapM f = .ok bs := by
  induction as with
  | nil => exact ⟨[], rfl⟩
  | cons a as ih =>
    obtain ⟨b, first⟩ := each a List.mem_cons_self
    obtain ⟨bs, rest⟩ := ih fun other member => each other (List.mem_cons_of_mem _ member)
    exact ⟨b :: bs, mapM_eq_ok.mpr (.cons first (mapM_eq_ok.mp rest))⟩

theorem mapM_congr {f g : α → Except ε β} {as : List α} (same : ∀ a ∈ as, f a = g a) : as.mapM f = as.mapM g := by
  induction as with
  | nil => rfl
  | cons a as ih =>
    rw [List.mapM_cons, List.mapM_cons, same a List.mem_cons_self,
      ih fun other member => same other (List.mem_cons_of_mem _ member)]

theorem mapM_bind {γ : Type} {f : α → Except ε β} {as : List α} {bs : List β}
    (all : List.Forall₂ (fun a b => f a = .ok b) as bs) (g : β → Except ε γ) :
    as.mapM (fun a => f a >>= g) = bs.mapM g := by
  induction all with
  | nil => rfl
  | cons first _ ih => rw [List.mapM_cons, List.mapM_cons, ih, first, ok_bind]

theorem exists_foldlM_eq_ok {step : β → α → Except ε β} {as : List α} (each : ∀ a ∈ as, ∀ s, ∃ t, step s a = .ok t)
    (s : β) : ∃ t, as.foldlM step s = .ok t := by
  induction as generalizing s with
  | nil => exact ⟨s, rfl⟩
  | cons a as ih =>
    obtain ⟨next, first⟩ := each a List.mem_cons_self s
    obtain ⟨t, rest⟩ := ih (fun other member => each other (List.mem_cons_of_mem _ member)) next
    exact ⟨t, by rw [List.foldlM_cons, first, ok_bind, rest]⟩

theorem toOption_eq_some {x : Except ε α} {a : α} : x.toOption = some a ↔ x = .ok a := by
  cases x <;> simp [Except.toOption]

/-! ## Lists that correspond item by item -/

theorem forall₂_comp {α β γ : Type} {R : α → β → Prop} {S : β → γ → Prop} {as : List α} {bs : List β} {cs : List γ}
    (first : List.Forall₂ R as bs) (second : List.Forall₂ S bs cs) :
    List.Forall₂ (fun a c => ∃ b, R a b ∧ S b c) as cs := by
  induction first generalizing cs with
  | nil => cases second; exact .nil
  | cons head _ ih =>
    cases second with
    | cons head' tail' => exact .cons ⟨_, head, head'⟩ (ih tail')

theorem forall₂_factor {α β γ : Type} {R : α → γ → Prop} {S : β → γ → Prop} {as : List α} {bs : List β}
    (all : List.Forall₂ (fun a b => ∃ c, R a c ∧ S b c) as bs) : ∃ cs, List.Forall₂ R as cs ∧ List.Forall₂ S bs cs := by
  induction all with
  | nil => exact ⟨[], .nil, .nil⟩
  | cons first _ ih =>
    obtain ⟨c, left, right⟩ := first
    obtain ⟨cs, lefts, rights⟩ := ih
    exact ⟨c :: cs, .cons left lefts, .cons right rights⟩

/-- Lists that correspond item by item do so part by part if the parts have the same lengths. -/
theorem forall₂_flatMap {α β γ δ : Type} {R : γ → δ → Prop} {g : α → List γ} {h : β → List δ} {as : List α}
    {bs : List β} (lengths : List.Forall₂ (fun a b => (g a).length = (h b).length) as bs)
    (all : List.Forall₂ R (as.flatMap g) (bs.flatMap h)) :
    List.Forall₂ (fun a b => List.Forall₂ R (g a) (h b)) as bs := by
  induction lengths with
  | nil => exact .nil
  | @cons a b as bs first _ ih =>
    rw [List.flatMap_cons, List.flatMap_cons] at all
    have head := List.forall₂_take_append _ _ _ all
    have tail := List.forall₂_drop_append _ _ _ all
    rw [← first] at head tail
    rw [List.take_left] at head
    rw [List.drop_left] at tail
    exact .cons head (ih tail)

theorem forall₂_getElem? {α β : Type} {R : α → β → Prop} {as : List α} {bs : List β} (all : List.Forall₂ R as bs)
    {k : Nat} {a : α} (located : as[k]? = some a) : ∃ b, bs[k]? = some b ∧ R a b := by
  obtain ⟨bound, rfl⟩ := List.getElem?_eq_some_iff.mp located
  have bound' : k < bs.length := all.length_eq ▸ bound
  exact ⟨bs[k], List.getElem?_eq_getElem bound', all.get bound bound'⟩

theorem forall₂_mem_left {α β : Type} {R : α → β → Prop} {as : List α} {bs : List β} (all : List.Forall₂ R as bs)
    {a : α} (member : a ∈ as) : ∃ b ∈ bs, R a b := by
  obtain ⟨k, located⟩ := List.mem_iff_getElem?.mp member
  obtain ⟨b, here, related⟩ := forall₂_getElem? all located
  exact ⟨b, List.mem_of_getElem? here, related⟩

theorem forall₂_imp_mem {α β : Type} {R S : α → β → Prop} {as : List α} {bs : List β} (all : List.Forall₂ R as bs)
    (each : ∀ a ∈ as, ∀ b, R a b → S a b) : List.Forall₂ S as bs := by
  induction all with
  | nil => exact .nil
  | cons head _ ih =>
    exact .cons (each _ List.mem_cons_self _ head) (ih fun a member => each a (List.mem_cons_of_mem _ member))

theorem forall₂_mem_right {α β : Type} {R : α → β → Prop} {as : List α} {bs : List β} (all : List.Forall₂ R as bs)
    {b : β} (member : b ∈ bs) : ∃ a ∈ as, R a b := by
  obtain ⟨k, bound, rfl⟩ := List.mem_iff_getElem.mp member
  have bound' : k < as.length := all.length_eq ▸ bound
  exact ⟨as[k], List.getElem_mem bound', all.get bound' bound⟩

end RegisterAllocator
