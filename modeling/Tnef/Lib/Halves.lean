/-
A fold over a state of two halves.

If every input goes to one half of the state only, a run over a list of inputs is two runs
side by side: one over the inputs of the first half, which is a pure computation, and one over
those of the second, which has effects (`foldlM_halves`). How the inputs of the two kinds
follow each other is of no consequence where the run returns.
-/
import Tnef.Lib.Stateful

set_option autoImplicit false

namespace Stateful

open ExceptRules

variable {ε ω α σ β γ : Type}

/-- A state is its two halves. -/
structure Halves (left : σ → β) (right : σ → γ) : Prop where
  ext : ∀ s s', left s = left s' → right s = right s' → s = s'
  exists_both : ∀ b c, ∃ s, left s = b ∧ right s = c

/-- A step takes its input to the half it belongs to. -/
def Splits (p : α → Bool) (left : σ → β) (right : σ → γ) (step : σ → α → Act ε ω σ)
    (f : β → α → Except ε β) (g : γ → α → Act ε ω γ) : Prop :=
  ∀ a s s' w w', exec (step s a) w = (.ok s', w')
    ↔ if p a then f (left s) a = .ok (left s') ∧ right s' = right s ∧ w' = w
      else exec (g (right s) a) w = (.ok (right s'), w') ∧ left s' = left s

variable {p : α → Bool} {left : σ → β} {right : σ → γ} {step : σ → α → Act ε ω σ}
  {f : β → α → Except ε β} {g : γ → α → Act ε ω γ}

/-- **A run that returns is two runs side by side.** -/
theorem foldlM_halves (hσ : Halves left right) (hstep : Splits p left right step f g) (as : List α) :
    ∀ {s s' : σ} {w w' : ω}, exec (as.foldlM step s) w = (.ok s', w')
      ↔ (as.filter p).foldlM f (left s) = .ok (left s')
        ∧ exec ((as.filter fun a => !p a).foldlM g (right s)) w = (.ok (right s'), w') := by
  induction as with
  | nil =>
    intro s s' w w'
    simp only [List.filter_nil, List.foldlM_nil, exec_pure, pure_eq_ok, Prod.mk.injEq,
      Except.ok.injEq]
    constructor
    · rintro ⟨rfl, rfl⟩
      exact ⟨rfl, rfl, rfl⟩
    · rintro ⟨hleft, hright, rfl⟩
      exact ⟨hσ.ext s s' hleft hright, rfl⟩
  | cons a as ih =>
    intro s s' w w'
    rw [List.foldlM_cons, exec_bind_eq_ok]
    simp only [ih, hstep a s]
    by_cases hp : p a = true
    · simp only [hp, List.filter_cons_of_pos, if_true, Bool.not_true, Bool.false_eq_true,
        not_false_eq_true, List.filter_cons_of_neg, List.foldlM_cons, bind_eq_ok]
      constructor
      · rintro ⟨s₁, w₁, ⟨hone, hright, rfl⟩, hleft, hrest⟩
        rw [hright] at hrest
        exact ⟨⟨_, hone, hleft⟩, hrest⟩
      · rintro ⟨⟨b, hone, hleft⟩, hrest⟩
        obtain ⟨s₁, rfl, hright⟩ := hσ.exists_both b (right s)
        exact ⟨s₁, w, ⟨hone, hright, rfl⟩, hleft, hright ▸ hrest⟩
    · simp only [hp, Bool.false_eq_true, not_false_eq_true, List.filter_cons_of_neg, if_false,
        Bool.not_false, List.filter_cons_of_pos, List.foldlM_cons, exec_bind_eq_ok]
      constructor
      · rintro ⟨s₁, w₁, ⟨hone, hsame⟩, hleft, hrest⟩
        rw [hsame] at hleft
        exact ⟨hleft, _, w₁, hone, hrest⟩
      · rintro ⟨hleft, c, w₁, hone, hrest⟩
        obtain ⟨s₁, hsame, rfl⟩ := hσ.exists_both (left s) c
        exact ⟨s₁, w₁, ⟨hone, hsame⟩, hsame.symm ▸ hleft, hrest⟩

/-- Tests in front of the steps do not touch the state. -/
theorem foldlM_tests {step : σ → α → Act ε ω σ} {test : α → Except ε Unit} (as : List α) :
    ∀ {s s' : σ} {w w' : ω},
    exec (as.foldlM (fun s a => lift (test a) >>= fun _ => step s a) s) w = (.ok s', w')
      ↔ (∀ a ∈ as, test a = .ok ()) ∧ exec (as.foldlM step s) w = (.ok s', w') := by
  induction as with
  | nil =>
    intro s s' w w'
    simp only [List.not_mem_nil, false_imp_iff, implies_true, true_and]
    exact Iff.rfl
  | cons a as ih =>
    intro s s' w w'
    rw [List.foldlM_cons, List.foldlM_cons, exec_bind_eq_ok, exec_bind_eq_ok, List.forall_mem_cons]
    simp only [ih]
    cases htest : test a with
    | error e =>
      constructor
      · rintro ⟨s₁, w₁, hone, -⟩
        cases hone
      · rintro ⟨⟨h, -⟩, -⟩
        cases h
    | ok u =>
      simp only [lift_ok, pure_bind, true_and]
      constructor
      · rintro ⟨s₁, w₁, hone, htests, hrest⟩
        exact ⟨htests, s₁, w₁, hone, hrest⟩
      · rintro ⟨htests, s₁, w₁, hone, hrest⟩
        exact ⟨s₁, w₁, hone, htests, hrest⟩

end Stateful
