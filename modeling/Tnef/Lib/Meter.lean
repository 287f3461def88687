/-
Lists that are carried out one member after another, up to the first that is refused.

Whether a member is accepted may depend on what the ones before it have put out. `spent`
adds up what the members charge on the way, the refused one included; `spent_lt_iff` takes
such a total apart into one bound for each member that is come to, so that a limit on a
running counter is a condition on the list.
-/
import Mathlib.Tactic

set_option autoImplicit false

namespace Meter

variable {α : Type}

/-- What a stretch of the list weighs. -/
def total (weight : α → ℕ) (us : List α) : ℕ := (us.map weight).sum

/-- Nothing weighs nothing. -/
@[simp] theorem total_nil (weight : α → ℕ) : total weight [] = 0 := rfl

/-- The weights add up. -/
@[simp] theorem total_cons (weight : α → ℕ) (u : α) (us : List α) :
    total weight (u :: us) = weight u + total weight us := by
  rw [total, List.map_cons, List.sum_cons, total]

/-- Every member is accepted, with `n` put out before the first one. -/
def Accepted (passes : ℕ → α → Prop) (out : α → ℕ) : ℕ → List α → Prop
  | _, [] => True
  | n, u :: us => passes n u ∧ Accepted passes out (n + out u) us

section Spent

variable (passes : ℕ → α → Prop) [∀ n u, Decidable (passes n u)] (out : α → ℕ)

/-- What is charged until a member is refused, or to the end. -/
def spent (charge : ℕ → α → ℕ) : ℕ → List α → ℕ
  | _, [] => 0
  | n, u :: us => charge n u + if passes n u then spent charge (n + out u) us else 0

variable {passes out} {charge : ℕ → α → ℕ}

/-- Behind a member that is accepted the list goes on. -/
theorem spent_of_passes {n : ℕ} {u : α} {us : List α} (h : passes n u) :
    spent passes out charge n (u :: us) = charge n u + spent passes out charge (n + out u) us := by
  rw [spent, if_pos h]

/-- Behind one that is refused nothing is charged. -/
theorem spent_of_refused {n : ℕ} {u : α} {us : List α} (h : ¬ passes n u) :
    spent passes out charge n (u :: us) = charge n u := by
  rw [spent, if_neg h, Nat.add_zero]

/-- The first member is charged in any case. -/
theorem charge_le_spent {n : ℕ} {u : α} {us : List α} :
    charge n u ≤ spent passes out charge n (u :: us) := Nat.le_add_right _ _

section Bound

variable {weight : α → ℕ} {bound : ℕ}

/-- The bound at each member, with `k` charged and `n` put out before the first. -/
theorem add_spent_lt_iff (hweight : ∀ n u, passes n u → charge n u = weight u) (us : List α) :
    ∀ {k n : ℕ},
    k + spent passes out charge n us < bound ↔ k < bound
      ∧ ∀ pre u, pre ++ [u] <+: us → Accepted passes out n pre →
        k + total weight pre + charge (n + total out pre) u < bound := by
  induction us with
  | nil =>
    intro k n
    refine ⟨fun h => ⟨h, ?_⟩, fun h => h.1⟩
    intro pre u hpre
    exact absurd (List.prefix_nil.mp hpre) (by simp)
  | cons v us ih =>
    intro k n
    constructor
    · intro h
      have hfirst := charge_le_spent.trans_lt ((Nat.le_add_left _ k).trans_lt h)
      refine ⟨by omega, ?_⟩
      -- the first member is come to with nothing before it, the others behind it
      rintro (_ | ⟨w, pre⟩) u hpre haccepted
      · obtain ⟨rfl, -⟩ := List.cons_prefix_cons.mp hpre
        have hle : charge n u ≤ spent passes out charge n (u :: us) := charge_le_spent
        simp only [total_nil, Nat.add_zero]
        omega
      · obtain ⟨rfl, hrest⟩ := List.cons_prefix_cons.mp hpre
        obtain ⟨hpass, haccepted⟩ := haccepted
        rw [spent_of_passes hpass, hweight _ _ hpass, ← Nat.add_assoc] at h
        have hlater := (ih.mp h).2 pre u hrest haccepted
        rwa [total_cons, total_cons, ← Nat.add_assoc, ← Nat.add_assoc]
    · rintro ⟨-, hall⟩
      have hhere : k + charge n v < bound := by
        have hnow := hall [] v (List.prefix_append _ _) trivial
        rwa [total_nil, total_nil, Nat.add_zero, Nat.add_zero] at hnow
      -- what follows counts only if the first member is accepted
      by_cases hpass : passes n v
      · rw [spent_of_passes hpass, hweight _ _ hpass, ← Nat.add_assoc]
        rw [hweight _ _ hpass] at hhere
        refine ih.mpr ⟨hhere, ?_⟩
        intro pre u hpre haccepted
        have hlater := hall (v :: pre) u (List.cons_prefix_cons.mpr ⟨rfl, hpre⟩) ⟨hpass, haccepted⟩
        rwa [total_cons, total_cons, ← Nat.add_assoc, ← Nat.add_assoc] at hlater
      · rwa [spent_of_refused hpass]

/-- **A bound on the total is a bound at every member that is come to.** -/
theorem spent_lt_iff (hweight : ∀ n u, passes n u → charge n u = weight u) (hbound : 0 < bound)
    {n : ℕ} {us : List α} : spent passes out charge n us < bound
      ↔ ∀ pre u, pre ++ [u] <+: us → Accepted passes out n pre →
        total weight pre + charge (n + total out pre) u < bound := by
  rw [← Nat.zero_add (spent passes out charge n us), add_spent_lt_iff hweight]
  simp only [Nat.zero_add, hbound, true_and]

end Bound

end Spent

end Meter
