import Mathlib.Data.List.Forall2

/-!
# Lists of results

A list is gone through with a function that may fail; the whole has a result if every part has one.

* `forall₂_of_mapM_eq_ok`, `exists_mapM_eq_ok_iff`, `mapM_eq_error_iff`;
* `exists_foldlM_eq_ok_iff`, `foldlM_mapError_eq_ok_iff`, `run_mapM_cons`;
* `forall₂_of_mapM_eq_some`, `exists_mapM_eq_some`: functions that fail without an error;
* `rel_of_exists`, `rel_bind`: functions whose results are related;
* `Guarded`: results that are there under a condition, and what is made of them;
* `exists_map_eq_ok_iff`, `exists_mapError_eq_ok_iff` and the like for errors.
-/

namespace ParserGen

variable {α β ε : Type} {f : α → Except ε β} {xs : List α} {e : ε}

/-! ### Lists -/

theorem forall₂_of_mapM_eq_ok {ys : List β} (h : xs.mapM f = .ok ys) :
    List.Forall₂ (fun x y => f x = .ok y) xs ys := by
  induction xs generalizing ys with
  | nil =>
    obtain rfl : [] = ys := Except.ok.inj h
    exact .nil
  | cons x xs ih =>
    rw [List.mapM_cons] at h
    cases hx : f x with
    | error e => rw [hx] at h; cases h
    | ok y =>
      cases hxs : xs.mapM f with
      | error e => rw [hx, hxs] at h; cases h
      | ok ys' =>
        rw [hx, hxs] at h
        obtain rfl : y :: ys' = ys := Except.ok.inj h
        exact .cons hx (ih hxs)

/-- The first error is the error of the whole list. -/
theorem mapM_eq_error_iff :
    xs.mapM f = .error e ↔ ∃ (i : Nat) (x : α), xs[i]? = some x ∧ f x = .error e ∧
      ∀ j < i, ∀ y, xs[j]? = some y → ∃ z, f y = .ok z := by
  induction xs with
  | nil =>
    constructor
    · intro h
      cases h
    · rintro ⟨i, x, hx, -, -⟩
      simp at hx
  | cons x xs ih =>
    rw [List.mapM_cons]
    cases hx : f x with
    | error e' =>
      show Except.error e' = .error e ↔ _
      constructor
      · intro h
        exact ⟨0, x, rfl, hx.trans (congrArg Except.error (Except.error.inj h)),
          fun j hj => by omega⟩
      · rintro ⟨i, y, hy, he, hbefore⟩
        cases i with
        | zero =>
          obtain rfl : x = y := Option.some.inj hy
          exact congrArg Except.error (Except.error.inj (hx.symm.trans he))
        | succ i =>
          obtain ⟨z, hz⟩ := hbefore 0 (Nat.succ_pos i) x rfl
          rw [hx] at hz
          cases hz
    | ok z =>
      have hrest : (do let y ← xs.mapM f; pure (z :: y) : Except ε (List β)) = .error e ↔
          xs.mapM f = .error e := by
        cases xs.mapM f with
        | error e' => exact Iff.rfl
        | ok ys => exact ⟨fun h => (by cases h), fun h => (by cases h)⟩
      refine hrest.trans (ih.trans ⟨?_, ?_⟩)
      · rintro ⟨i, y, hy, he, hbefore⟩
        refine ⟨i + 1, y, hy, he, fun j hj w hw => ?_⟩
        cases j with
        | zero =>
          obtain rfl : x = w := Option.some.inj hw
          exact ⟨z, hx⟩
        | succ j => exact hbefore j (by omega) w hw
      · rintro ⟨i, y, hy, he, hbefore⟩
        cases i with
        | zero =>
          obtain rfl : x = y := Option.some.inj hy
          rw [hx] at he
          cases he
        | succ i => exact ⟨i, y, hy, he, fun j hj w hw => hbefore (j + 1) (by omega) w hw⟩

theorem exists_mapM_eq_ok_iff : (∃ ys, xs.mapM f = .ok ys) ↔ ∀ x ∈ xs, ∃ y, f x = .ok y := by
  constructor
  · rintro ⟨ys, hys⟩ x hx
    obtain ⟨i, hi, rfl⟩ := List.mem_iff_getElem.1 hx
    have hall := forall₂_of_mapM_eq_ok hys
    exact ⟨_, hall.get hi (by rw [← hall.length_eq]; exact hi)⟩
  · intro h
    cases hxs : xs.mapM f with
    | ok ys => exact ⟨ys, rfl⟩
    | error e =>
      obtain ⟨i, x, hx, he, -⟩ := mapM_eq_error_iff.1 hxs
      obtain ⟨y, hy⟩ := h x (List.mem_of_getElem? hx)
      rw [he] at hy
      cases hy

/-- A fold has a result if each of its steps has one, whatever it starts from. -/
theorem exists_foldlM_eq_ok_iff {g : β → α → Except ε β} {P : α → Prop}
    (hstep : ∀ b x, (∃ b', g b x = .ok b') ↔ P x) (b : β) :
    (∃ b', xs.foldlM g b = .ok b') ↔ ∀ x ∈ xs, P x := by
  induction xs generalizing b with
  | nil => exact ⟨fun _ x hx => absurd hx List.not_mem_nil, fun _ => ⟨b, rfl⟩⟩
  | cons x xs ih =>
    rw [List.foldlM_cons, List.forall_mem_cons, ← hstep b x]
    cases hx : g b x with
    | error e => exact ⟨fun ⟨_, h⟩ => (by cases h), fun ⟨⟨_, h⟩, _⟩ => (by cases h)⟩
    | ok b' => exact (ih b').trans ⟨fun h => ⟨⟨b', rfl⟩, h⟩, And.right⟩

/-- How errors are told does not matter where there are none. -/
theorem foldlM_mapError_eq_ok_iff {ε' : Type} {g : β → α → Except ε β} (tell : α → ε → ε')
    {b b' : β} :
    xs.foldlM (fun b x => (g b x).mapError (tell x)) b = .ok b' ↔ xs.foldlM g b = .ok b' := by
  induction xs generalizing b with
  | nil =>
    constructor
    · exact fun h => congrArg Except.ok (Except.ok.inj h)
    · exact fun h => congrArg Except.ok (Except.ok.inj h)
  | cons x xs ih =>
    rw [List.foldlM_cons, List.foldlM_cons]
    cases g b x with
    | error e => exact ⟨fun h => (by cases h), fun h => (by cases h)⟩
    | ok b'' => exact ih

/-- A function with a state goes through a list. -/
theorem run_mapM_cons {σ : Type} {g : α → StateM σ β} {x : α} {y : β} {ys : List β} {s s' s'' : σ}
    (hx : (g x).run s = (y, s')) (hxs : (xs.mapM g).run s' = (ys, s'')) :
    ((x :: xs).mapM g).run s = (y :: ys, s'') := by
  rw [List.mapM_cons, StateT.run_bind, hx]
  show (List.mapM g xs >>= fun ys => pure (y :: ys)).run s' = _
  rw [StateT.run_bind, hxs]
  rfl

/-! ### Lists without errors -/

section Option

variable {f : α → Option β}

theorem forall₂_of_mapM_eq_some {ys : List β} (h : xs.mapM f = some ys) :
    List.Forall₂ (fun x y => f x = some y) xs ys := by
  induction xs generalizing ys with
  | nil =>
    obtain rfl : [] = ys := Option.some.inj h
    exact .nil
  | cons x xs ih =>
    rw [List.mapM_cons] at h
    obtain ⟨y, hy, h⟩ := Option.bind_eq_some_iff.1 h
    obtain ⟨ys', hys, he⟩ := Option.bind_eq_some_iff.1 h
    obtain rfl : y :: ys' = ys := Option.some.inj he
    exact .cons hy (ih hys)

theorem exists_mapM_eq_some (h : ∀ x ∈ xs, ∃ y, f x = some y) : ∃ ys, xs.mapM f = some ys := by
  induction xs with
  | nil => exact ⟨[], rfl⟩
  | cons x xs ih =>
    obtain ⟨y, hy⟩ := h x List.mem_cons_self
    obtain ⟨ys, hys⟩ := ih fun z hz => h z (List.mem_cons_of_mem _ hz)
    refine ⟨y :: ys, ?_⟩
    rw [List.mapM_cons, hy, hys]
    rfl

end Option

/-! ### Related results -/

section Rel

variable {γ δ : Type} {R : α → β → Prop} {S : γ → δ → Prop} {x : Option α} {y : Option β}

/-- Two results are related if the first one has a counterpart, and none is missing. -/
theorem rel_of_exists (h : ∀ a, x = some a → ∃ b, y = some b ∧ R a b)
    (h' : ∀ b, y = some b → ∃ a, x = some a) : Option.Rel R x y := by
  cases x with
  | some a =>
    obtain ⟨b, rfl, hab⟩ := h a rfl
    exact .some hab
  | none =>
    cases y with
    | none => exact .none
    | some b =>
      obtain ⟨a, ha⟩ := h' b rfl
      cases ha

theorem rel_mono {S : α → β → Prop} (h : Option.Rel R x y) (hRS : ∀ a b, R a b → S a b) :
    Option.Rel S x y := by
  cases h with
  | none => exact .none
  | some hab => exact .some (hRS _ _ hab)

theorem exists_of_rel {a : α} (h : Option.Rel R x y) (hx : x = some a) :
    ∃ b, y = some b ∧ R a b := by
  subst hx
  cases h with
  | some hab => exact ⟨_, rfl, hab⟩

theorem isSome_eq_of_rel (h : Option.Rel R x y) : x.isSome = y.isSome := by
  cases h <;> rfl

theorem rel_map {f : α → γ} {f' : β → δ} (h : Option.Rel R x y)
    (hf : ∀ a b, R a b → S (f a) (f' b)) : Option.Rel S (x.map f) (y.map f') := by
  cases h with
  | none => exact .none
  | some hab => exact .some (hf _ _ hab)

theorem rel_bind {f : α → Option γ} {f' : β → Option δ} (h : Option.Rel R x y)
    (hf : ∀ a b, R a b → Option.Rel S (f a) (f' b)) : Option.Rel S (x.bind f) (y.bind f') := by
  cases h with
  | none => exact .none
  | some hab => exact hf _ _ hab

end Rel

/-! ### Results under a condition -/

/-- A result that is there just if a condition holds. -/
def Guarded {α : Type} (x : Option α) (p : Prop) (a : α) : Prop := ∀ a', x = some a' ↔ p ∧ a = a'

namespace Guarded

variable {α β : Type} {x : Option α} {y : Option β} {p q : Prop} {a : α} {b : β}

theorem ite (p : Prop) [Decidable p] (a : α) : Guarded (if p then some a else none) p a := by
  intro a'
  split
  · next hp => exact ⟨fun h => ⟨hp, Option.some.inj h⟩, fun h => congrArg some h.2⟩
  · next hp => exact ⟨fun h => (by cases h), fun h => absurd h.1 hp⟩

theorem congr (h : Guarded x p a) (hpq : p ↔ q) : Guarded x q a := fun a' =>
  (h a').trans (and_congr_left' hpq)

theorem map (h : Guarded x p a) (f : α → β) : Guarded (x.map f) p (f a) := by
  intro b
  rw [Option.map_eq_some_iff]
  constructor
  · rintro ⟨a', ha, rfl⟩
    obtain ⟨hp, rfl⟩ := (h a').1 ha
    exact ⟨hp, rfl⟩
  · rintro ⟨hp, rfl⟩
    exact ⟨a, (h a).2 ⟨hp, rfl⟩, rfl⟩

theorem bind (h : Guarded x p a) (f : α → Option β) (hf : p → Guarded (f a) q b) :
    Guarded (x.bind f) (p ∧ q) b := by
  intro b'
  rw [Option.bind_eq_some_iff]
  constructor
  · rintro ⟨a', ha, hb⟩
    obtain ⟨hp, rfl⟩ := (h a').1 ha
    obtain ⟨hq, rfl⟩ := (hf hp b').1 hb
    exact ⟨⟨hp, hq⟩, rfl⟩
  · rintro ⟨⟨hp, hq⟩, rfl⟩
    exact ⟨a, (h a).2 ⟨hp, rfl⟩, (hf hp b).2 ⟨hq, rfl⟩⟩

/-- A list has a result just if the condition holds of all its members. -/
theorem mapM {f : α → Option β} {p : α → Prop} {g : α → β} (h : ∀ x, Guarded (f x) (p x) (g x))
    (xs : List α) : Guarded (xs.mapM f) (∀ x ∈ xs, p x) (xs.map g) := by
  induction xs with
  | nil => exact fun ys => ⟨fun h => ⟨by simp, Option.some.inj h⟩, fun h => congrArg some h.2⟩
  | cons x xs ih =>
    simp only [List.mapM_cons, bind_pure_comp]
    exact ((h x).bind _ fun _ => ih.map (g x :: ·)).congr List.forall_mem_cons.symm

theorem eq_of_iff {y : Option α} {b : α} (hx : Guarded x p a) (hy : Guarded y q b) (hpq : p ↔ q)
    (hab : p → a = b) : x = y := by
  refine Option.ext fun a' => (hx a').trans (Iff.trans ?_ (hy a').symm)
  constructor
  · rintro ⟨hp, rfl⟩
    exact ⟨hpq.1 hp, (hab hp).symm⟩
  · rintro ⟨hq, rfl⟩
    exact ⟨hpq.2 hq, hab (hpq.2 hq)⟩

theorem rel {R : α → β → Prop} (hx : Guarded x p a) (hy : Guarded y q b) (hpq : p ↔ q)
    (hR : p → R a b) : Option.Rel R x y := by
  refine rel_of_exists (fun a' ha => ?_) fun b' hb => ?_
  · obtain ⟨hp, rfl⟩ := (hx a').1 ha
    exact ⟨b, (hy b).2 ⟨hpq.1 hp, rfl⟩, hR hp⟩
  · exact ⟨a, (hx a).2 ⟨hpq.2 ((hy b').1 hb).1, rfl⟩⟩

end Guarded

/-! ### Single results -/

variable {ε' : Type} {x : Except ε α}

theorem map_eq_error_iff {h : α → β} : x.map h = .error e ↔ x = .error e := by
  cases x with
  | error e' =>
    exact ⟨fun he => congrArg _ (Except.error.inj he), fun he => congrArg _ (Except.error.inj he)⟩
  | ok a => exact ⟨fun he => (by cases he), fun he => (by cases he)⟩

theorem exists_map_eq_ok_iff {h : α → β} : (∃ b, x.map h = .ok b) ↔ ∃ a, x = .ok a := by
  cases x with
  | error e => exact ⟨fun ⟨_, hb⟩ => (by cases hb), fun ⟨_, ha⟩ => (by cases ha)⟩
  | ok a => exact ⟨fun _ => ⟨a, rfl⟩, fun _ => ⟨_, rfl⟩⟩

theorem mapError_eq_error_iff {h : ε → ε'} {e' : ε'} :
    x.mapError h = .error e' ↔ ∃ e, x = .error e ∧ e' = h e := by
  cases x with
  | error e =>
    constructor
    · exact fun he => ⟨e, rfl, (Except.error.inj he).symm⟩
    · rintro ⟨_, he, rfl⟩
      rw [Except.error.inj he]
      rfl
  | ok a => exact ⟨fun he => (by cases he), fun ⟨_, he, _⟩ => (by cases he)⟩

theorem exists_mapError_eq_ok_iff {h : ε → ε'} : (∃ a, x.mapError h = .ok a) ↔ ∃ a, x = .ok a := by
  cases x with
  | error e => exact ⟨fun ⟨_, ha⟩ => (by cases ha), fun ⟨_, ha⟩ => (by cases ha)⟩
  | ok a => exact ⟨fun _ => ⟨a, rfl⟩, fun _ => ⟨a, rfl⟩⟩

end ParserGen
