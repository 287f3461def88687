/-
Inversion rules for computations that stop with an error.

A function of a C program that may leave by `exit` or `abort` is an `Except`
here, and every proof about one takes a chain of binds apart: from a result it
wants the intermediate values, from an error it wants the step that raised it.
Those two rules are the first half of the interface, with their counterparts for a
map over a list. The second half is `Avoids`, for the other kind of statement about
such a run: one error never happens, and what is returned is good. Nothing in this
file knows what the error type is.
-/
import Mathlib.Tactic

set_option autoImplicit false

namespace ExceptRules

variable {ε α β : Type}

@[simp] theorem ok_bind (a : α) (f : α → Except ε β) : (Except.ok a >>= f) = f a := rfl

@[simp] theorem error_bind (e : ε) (f : α → Except ε β) :
    (Except.error e >>= f) = .error e := rfl

@[simp] theorem pure_eq_ok (a : α) : (pure a : Except ε α) = .ok a := rfl

@[simp] theorem throw_eq_error (e : ε) : (throw e : Except ε α) = .error e := rfl

/-- A bind returns exactly when both halves do. -/
theorem bind_eq_ok {x : Except ε α} {f : α → Except ε β} {b : β} :
    (x >>= f) = .ok b ↔ ∃ a, x = .ok a ∧ f a = .ok b := by
  cases x with
  | error e => simp
  | ok a => simp

/-- A bind stops exactly when its first half stops, or returns a value on which
the second half does. -/
theorem bind_eq_error {x : Except ε α} {f : α → Except ε β} {e : ε} :
    (x >>= f) = .error e ↔ x = .error e ∨ ∃ a, x = .ok a ∧ f a = .error e := by
  cases x with
  | error e' => simp
  | ok a => simp

/-- Two sequences with the same first half agree if they do on what it returns. -/
theorem bind_congr_ok {x : Except ε α} {f g : α → Except ε β} (h : ∀ a, x = .ok a → f a = g a) :
    (x >>= f) = (x >>= g) := by
  cases x with
  | error e => rfl
  | ok a => exact h a rfl

/-! ## Maps over a list -/

section Map

variable {f : α → Except ε β}

/-- A map returns exactly the lists of what its steps return. -/
theorem mapM_eq_ok {xs : List α} {ys : List β} :
    xs.mapM f = .ok ys ↔ List.Forall₂ (fun x y => f x = .ok y) xs ys := by
  induction xs generalizing ys with
  | nil =>
    rw [List.mapM_nil, pure_eq_ok, Except.ok.injEq, List.forall₂_nil_left_iff, eq_comm]
  | cons x xs ih =>
    rw [List.mapM_cons]
    simp only [bind_eq_ok, pure_eq_ok, Except.ok.injEq, ih, List.forall₂_cons_left_iff]
    constructor
    · rintro ⟨y, hy, ys, hys, rfl⟩
      exact ⟨y, ys, hy, hys, rfl⟩
    · rintro ⟨y, ys, hy, hys, rfl⟩
      exact ⟨y, hy, ys, hys, rfl⟩

/-- A map returns exactly when each of its steps does. -/
theorem mapM_returns {xs : List α} : (∃ ys, xs.mapM f = .ok ys) ↔ ∀ x ∈ xs, ∃ y, f x = .ok y := by
  constructor
  · rintro ⟨ys, h⟩ x hx
    obtain ⟨i, hi, rfl⟩ := List.getElem_of_mem hx
    have hsteps := mapM_eq_ok.mp h
    exact ⟨_, hsteps.get hi (hsteps.length_eq ▸ hi)⟩
  · intro h
    induction xs with
    | nil => exact ⟨[], rfl⟩
    | cons x xs ih =>
      obtain ⟨y, hy⟩ := h x (List.mem_cons_self ..)
      obtain ⟨ys, hys⟩ := ih fun x' hx' => h x' (List.mem_cons_of_mem _ hx')
      exact ⟨y :: ys, mapM_eq_ok.mpr (.cons hy (mapM_eq_ok.mp hys))⟩

/-- A map over the same list in another order returns the same results in another order. -/
theorem mapM_perm {xs xs' : List α} {ys : List β} (h : xs.mapM f = .ok ys) (hperm : xs.Perm xs') :
    ∃ ys', xs'.mapM f = .ok ys' ∧ ys.Perm ys' := by
  obtain ⟨ys', hsteps, hys⟩ := List.perm_comp_forall₂ hperm.symm (mapM_eq_ok.mp h)
  exact ⟨ys', mapM_eq_ok.mpr hsteps, hys.symm⟩

/-- A map that does not return stops with an error. -/
theorem mapM_error_iff {xs : List α} : (∃ e, xs.mapM f = .error e) ↔ ∃ x ∈ xs, ∃ e, f x = .error e := by
  have hstops : ∀ {γ : Type} (x : Except ε γ), (∃ e, x = .error e) ↔ ¬ ∃ a, x = .ok a := by
    intro γ x
    cases x <;> simp
  simp only [hstops, mapM_returns, not_forall, exists_prop]

/-- A map stops the way the first of its steps does that stops. -/
theorem mapM_eq_error {xs : List α} {e : ε} : xs.mapM f = .error e
    ↔ ∃ ys x zs, xs = ys ++ x :: zs ∧ (∀ y ∈ ys, ∃ b, f y = .ok b) ∧ f x = .error e := by
  induction xs with
  | nil => simp
  | cons x xs ih =>
    rw [List.mapM_cons, bind_eq_error]
    constructor
    · rintro (hx | ⟨b, hb, hrest⟩)
      · exact ⟨[], x, xs, rfl, by simp, hx⟩
      · have htail : xs.mapM f = .error e := by
          rcases bind_eq_error.mp hrest with htail | ⟨bs, -, hpure⟩
          · exact htail
          · cases hpure
        obtain ⟨ys, x', zs, rfl, hys, hx'⟩ := ih.mp htail
        exact ⟨x :: ys, x', zs, rfl, List.forall_mem_cons.mpr ⟨⟨b, hb⟩, hys⟩, hx'⟩
    · rintro ⟨ys, x', zs, hsplit, hys, hx'⟩
      rcases List.cons_eq_append_iff.mp hsplit with ⟨rfl, hcons⟩ | ⟨ys', rfl, rfl⟩
      · cases hcons
        exact .inl hx'
      · obtain ⟨⟨b, hb⟩, hys⟩ := List.forall_mem_cons.mp hys
        refine .inr ⟨b, hb, ?_⟩
        rw [ih.mpr ⟨ys', x', zs, rfl, hys, hx'⟩, error_bind]

/-- A map gives every result by one of its steps. -/
theorem mapM_mem {xs : List α} {ys : List β} (h : xs.mapM f = .ok ys) {y : β} (hy : y ∈ ys) :
    ∃ x ∈ xs, f x = .ok y := by
  have hsteps := mapM_eq_ok.mp h
  obtain ⟨i, hi, rfl⟩ := List.getElem_of_mem hy
  have hx : i < xs.length := hsteps.length_eq ▸ hi
  exact ⟨xs[i], List.getElem_mem hx, hsteps.get hx hi⟩

/-- A map seen through `g` is the plain map of what its steps come to. -/
theorem mapM_map {γ : Type} {g : β → γ} {k : α → γ} {xs : List α}
    (hstep : ∀ x ∈ xs, ∀ y, f x = .ok y → g y = k x) {ys : List β} (h : xs.mapM f = .ok ys) :
    ys.map g = xs.map k := by
  have hsteps := mapM_eq_ok.mp h
  apply List.ext_getElem
  · rw [List.length_map, List.length_map, hsteps.length_eq]
  · intro i hi hi'
    rw [List.getElem_map, List.getElem_map]
    exact hstep _ (List.getElem_mem _) _
      (hsteps.get (by simpa using hi') (by simpa using hi))

end Map

/-! ## Runs that avoid one error -/

/-- `x` does not stop with `e`, and what it returns satisfies `Q`. -/
def Avoids (e : ε) (Q : α → Prop) (x : Except ε α) : Prop :=
  x ≠ .error e ∧ ∀ a, x = .ok a → Q a

@[simp] theorem avoids_ok {e : ε} {Q : α → Prop} {a : α} : Avoids e Q (.ok a) ↔ Q a := by
  simp [Avoids]

@[simp] theorem avoids_error {e e' : ε} {Q : α → Prop} :
    Avoids e Q (.error e' : Except ε α) ↔ e' ≠ e := by
  simp [Avoids]

/-- A chain of binds avoids an error when each step does after the steps before it. -/
theorem bind_ne_error {e : ε} {x : Except ε α} {f : α → Except ε β} (hx : x ≠ .error e)
    (hf : ∀ a, x = .ok a → f a ≠ .error e) : (x >>= f) ≠ .error e := by
  intro h
  rcases bind_eq_error.mp h with hx' | ⟨a, ha, hfa⟩
  · exact hx hx'
  · exact hf a ha hfa

/-- The rule of sequencing; the second half may use what the first returned. -/
theorem Avoids.bind {e : ε} {Q : β → Prop} {x : Except ε α} {f : α → Except ε β}
    (hx : x ≠ .error e) (hf : ∀ a, x = .ok a → Avoids e Q (f a)) : Avoids e Q (x >>= f) := by
  refine ⟨bind_ne_error hx fun a ha => (hf a ha).1, fun b hb => ?_⟩
  obtain ⟨a, ha, hfa⟩ := bind_eq_ok.mp hb
  exact (hf a ha).2 b hfa

end ExceptRules
