import Mathlib.Data.List.Forall2

/-!
Chains of steps that can fail: what it means for a chain to succeed, and to fail, and when two
chains come out alike.
-/

namespace Shorthand

variable {ε α β : Type} {x : Except ε α}

/-- A chain succeeds if both of its steps do. -/
theorem bind_eq_ok_iff {f : α → Except ε β} {b : β} :
    x >>= f = .ok b ↔ ∃ a, x = .ok a ∧ f a = .ok b := by
  cases x with
  | error e =>
    constructor
    · intro h
      cases h
    · rintro ⟨a, ⟨⟩, -⟩
  | ok a =>
    constructor
    · intro h
      exact ⟨a, rfl, h⟩
    · rintro ⟨_, ⟨⟩, h⟩
      exact h

/-- The fault of a chain is that of its first step, or that of the second one behind a first that
succeeds. -/
theorem bind_eq_error_iff {f : α → Except ε β} {e : ε} :
    x >>= f = .error e ↔ x = .error e ∨ ∃ a, x = .ok a ∧ f a = .error e := by
  cases x with
  | error e' =>
    constructor
    · rintro ⟨⟩
      exact Or.inl rfl
    · rintro (⟨⟨⟩⟩ | ⟨a, ⟨⟩, -⟩)
      rfl
  | ok a =>
    constructor
    · intro h
      exact Or.inr ⟨a, rfl, h⟩
    · rintro (⟨⟨⟩⟩ | ⟨_, ⟨⟩, h⟩)
      exact h

theorem map_eq_ok_iff {f : α → β} {b : β} : x.map f = .ok b ↔ ∃ a, x = .ok a ∧ f a = b := by
  cases x with
  | error e =>
    constructor
    · intro h
      cases h
    · rintro ⟨a, ⟨⟩, -⟩
  | ok a =>
    constructor
    · rintro ⟨⟩
      exact ⟨a, rfl, rfl⟩
    · rintro ⟨_, ⟨⟩, rfl⟩
      rfl

theorem map_eq_error_iff {f : α → β} {e : ε} : x.map f = .error e ↔ x = .error e := by
  cases x with
  | error e' =>
    constructor <;>
    · rintro ⟨⟩
      rfl
  | ok a => constructor <;> rintro ⟨⟩

/-- The fault of a chain over a list is that of its first member that has one. -/
theorem mapM_eq_error_iff {f : α → Except ε β} {xs : List α} {e : ε} :
    xs.mapM f = .error e ↔ ∃ before x after, xs = before ++ x :: after ∧
      (∀ y ∈ before, ∃ b, f y = .ok b) ∧ f x = .error e := by
  -- By induction on the list: the fault is at its head, or behind a head that succeeds.
  induction xs with
  | nil =>
    constructor
    · rintro ⟨⟩
    · rintro ⟨before, x, after, hnil, -⟩
      simp at hnil
  | cons x xs ih =>
    rw [List.mapM_cons]
    simp only [bind_eq_error_iff, ih]
    constructor
    · rintro (hx | ⟨b, hb, ⟨before, y, after, rfl, hbefore, hy⟩ | ⟨_, -, ⟨⟩⟩⟩)
      · exact ⟨[], x, xs, rfl, by simp, hx⟩
      · refine ⟨x :: before, y, after, rfl, fun z hz => ?_, hy⟩
        rcases List.mem_cons.1 hz with rfl | hz
        · exact ⟨b, hb⟩
        · exact hbefore z hz
    · rintro ⟨before, y, after, hxs, hbefore, hy⟩
      cases before with
      | nil =>
        obtain ⟨rfl, rfl⟩ := List.cons.inj hxs
        exact Or.inl hy
      | cons z before =>
        obtain ⟨rfl, rfl⟩ := List.cons.inj hxs
        obtain ⟨b, hb⟩ := hbefore x List.mem_cons_self
        exact Or.inr ⟨b, hb, Or.inl
          ⟨before, y, after, rfl, fun w hw => hbefore w (List.mem_cons_of_mem x hw), hy⟩⟩

/-- A chain over a list succeeds if each member does, and its results are theirs in order. -/
theorem mapM_eq_ok_iff {f : α → Except ε β} {xs : List α} {ys : List β} :
    xs.mapM f = .ok ys ↔ List.Forall₂ (fun x y => f x = .ok y) xs ys := by
  induction xs generalizing ys with
  | nil =>
    rw [List.mapM_nil, List.forall₂_nil_left_iff]
    exact ⟨fun h => (Except.ok.inj h).symm, fun h => congrArg Except.ok h.symm⟩
  | cons x xs ih =>
    rw [List.mapM_cons, List.forall₂_cons_left_iff]
    simp only [bind_eq_ok_iff, ih]
    constructor
    · rintro ⟨y, hy, zs, hzs, ⟨⟩⟩
      exact ⟨y, zs, hy, hzs, rfl⟩
    · rintro ⟨y, zs, hy, hzs, rfl⟩
      exact ⟨y, hy, zs, hzs, rfl⟩

/-- What is made of every result can as well be made of all of them in the end. -/
theorem mapM_map {γ : Type} (f : α → Except ε β) (g : β → γ) (xs : List α) :
    (xs.mapM fun x => (f x).map g) = (xs.mapM f).map (List.map g) := by
  induction xs with
  | nil => rfl
  | cons x xs ih =>
    rw [List.mapM_cons, List.mapM_cons, ih]
    cases f x with
    | error e => rfl
    | ok b => cases xs.mapM f <;> rfl

section Members

variable {f : α → Except ε β} {xs : List α} {ys : List β}

/-- Every result of a chain over a list comes from a member of the list. -/
theorem exists_of_mem_mapM (h : xs.mapM f = .ok ys) {y : β} (hy : y ∈ ys) :
    ∃ x ∈ xs, f x = .ok y := by
  have hall := mapM_eq_ok_iff.1 h
  clear h
  induction hall with
  | nil => cases hy
  | @cons x z xs ys hx _ ih =>
    rcases List.mem_cons.1 hy with rfl | hy
    · exact ⟨x, List.mem_cons_self, hx⟩
    · obtain ⟨w, hw, hread⟩ := ih hy
      exact ⟨w, List.mem_cons_of_mem x hw, hread⟩

theorem exists_ok_of_mem (h : xs.mapM f = .ok ys) {x : α} (hx : x ∈ xs) : ∃ y, f x = .ok y := by
  have hall := mapM_eq_ok_iff.1 h
  clear h
  induction hall with
  | nil => cases hx
  | @cons z y xs ys hz _ ih =>
    rcases List.mem_cons.1 hx with rfl | hx
    · exact ⟨y, hz⟩
    · exact ih hx

/-- A chain over a list succeeds if and only if each member does. -/
theorem exists_mapM_iff : (∃ ys, xs.mapM f = .ok ys) ↔ ∀ x ∈ xs, ∃ y, f x = .ok y := by
  refine ⟨fun ⟨ys, hys⟩ x hx => exists_ok_of_mem hys hx, fun h => ?_⟩
  induction xs with
  | nil => exact ⟨[], rfl⟩
  | cons x xs ih =>
    obtain ⟨y, hy⟩ := h x List.mem_cons_self
    obtain ⟨ys, hys⟩ := ih fun z hz => h z (List.mem_cons_of_mem x hz)
    refine ⟨y :: ys, ?_⟩
    rw [List.mapM_cons, hy, hys]
    rfl

end Members

/-! ## Two chains -/

/-- Two chains that come out alike: with one fault, or with results that `r` relates. -/
inductive Agree (r : α → α → Prop) : Except ε α → Except ε α → Prop
  | ok {a b : α} (h : r a b) : Agree r (.ok a) (.ok b)
  | error (e : ε) : Agree r (.error e) (.error e)

/-- Three lists that `r` relates member by member. -/
inductive Members {γ : Type} (r : γ → α → α → Prop) : List γ → List α → List α → Prop
  | nil : Members r [] [] []
  | cons {x : γ} {a b : α} {xs : List γ} {as bs : List α} (h : r x a b)
      (hrest : Members r xs as bs) : Members r (x :: xs) (a :: as) (b :: bs)

namespace Agree

variable {r : α → α → Prop} {s : β → β → Prop} {y : Except ε α}

theorem refl (hr : ∀ a, r a a) (x : Except ε α) : Agree r x x := by
  cases x with
  | error e => exact .error e
  | ok a => exact .ok (hr a)

theorem mono {r' : α → α → Prop} (h : Agree r x y) (hr : ∀ a b, r a b → r' a b) :
    Agree r' x y := by
  cases h with
  | error e => exact .error e
  | ok h => exact .ok (hr _ _ h)

/-- Chains agree if their first steps do, and their second steps do behind results that are related.
-/
theorem bind {f g : α → Except ε β} (h : Agree r x y)
    (hfg : ∀ a b, r a b → Agree s (f a) (g b)) : Agree s (x >>= f) (y >>= g) := by
  cases h with
  | error e => exact .error e
  | ok h => exact hfg _ _ h

theorem mapM {γ : Type} {r : γ → α → α → Prop} {f g : γ → Except ε α}
    (h : ∀ x, Agree (r x) (f x) (g x)) (xs : List γ) :
    Agree (Members r xs) (xs.mapM f) (xs.mapM g) := by
  induction xs with
  | nil => exact .ok .nil
  | cons x xs ih =>
    rw [List.mapM_cons, List.mapM_cons]
    exact (h x).bind fun a b hab => ih.bind fun as bs hrest => .ok (.cons hab hrest)

/-- Chains over one list agree if they do at each of its members. -/
theorem forall₂_mapM {γ : Type} {f g : γ → Except ε α} {xs : List γ}
    (h : ∀ x ∈ xs, Agree r (f x) (g x)) : Agree (List.Forall₂ r) (xs.mapM f) (xs.mapM g) := by
  induction xs with
  | nil => exact .ok .nil
  | cons x xs ih =>
    rw [List.mapM_cons, List.mapM_cons]
    refine (h x List.mem_cons_self).bind fun a b hab => ?_
    refine (ih fun y hy => h y (List.mem_cons_of_mem x hy)).bind fun as bs hrest => ?_
    exact .ok (.cons hab hrest)

theorem map {f g : α → β} (h : Agree r x y) (hfg : ∀ a b, r a b → s (f a) (g b)) :
    Agree s (x.map f) (y.map g) := by
  cases h with
  | error e => exact .error e
  | ok h => exact .ok (hfg _ _ h)

/-- What does not tell related results apart makes the two chains equal. -/
theorem map_eq {f : α → β} (h : Agree r x y) (hf : ∀ a b, r a b → f a = f b) :
    x.map f = y.map f := by
  cases h with
  | error e => rfl
  | ok h => exact congrArg Except.ok (hf _ _ h)

theorem eq (h : Agree r x y) (hr : ∀ a b, r a b → a = b) : x = y := by
  cases h with
  | error e => rfl
  | ok h => exact congrArg Except.ok (hr _ _ h)

end Agree

end Shorthand
