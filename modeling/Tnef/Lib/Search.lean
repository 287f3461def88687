/-
Counting up to the first number that is free.

`Reached` are the numbers a `do ... while (taken n)` loop comes to, with an exact counter,
and `Found` is where it ends: at the least number that is not taken. Which numbers are
taken is arbitrary. Where they are taken because names made of them are in a finite set,
`exists_free_of_card` counts how far the search can get.
-/
import Mathlib.Tactic

set_option autoImplicit false

namespace Search

/-- A number the loop comes to when it starts at `first`. -/
inductive Reached (taken : ℕ → Prop) (first : ℕ) : ℕ → Prop
  | start : Reached taken first first
  | next {n : ℕ} : Reached taken first n → taken n → Reached taken first (n + 1)

/-- The number the loop ends at. -/
structure Found (taken : ℕ → Prop) (first n : ℕ) : Prop where
  reached : Reached taken first n
  free : ¬ taken n

variable {taken : ℕ → Prop} {first n : ℕ}

theorem reached_iff :
    Reached taken first n ↔ first ≤ n ∧ ∀ k, first ≤ k → k < n → taken k := by
  constructor
  · intro h
    induction h with
    | start => exact ⟨le_rfl, fun k hle hlt => absurd hlt (not_lt.mpr hle)⟩
    | @next n _ htaken ih =>
      refine ⟨Nat.le_succ_of_le ih.1, fun k hle hlt => ?_⟩
      rcases Nat.lt_succ_iff_lt_or_eq.mp hlt with hlt | rfl
      · exact ih.2 k hle hlt
      · exact htaken
  · rintro ⟨hle, hbefore⟩
    induction n, hle using Nat.le_induction with
    | base => exact .start
    | succ n hle ih =>
      refine .next (ih fun k hk hlt => hbefore k hk ?_) (hbefore n hle n.lt_succ_self)
      exact Nat.lt_succ_of_lt hlt

/-- **The loop ends at the least free number.** -/
theorem found_iff_isLeast : Found taken first n ↔ IsLeast {n | first ≤ n ∧ ¬ taken n} n := by
  constructor
  · rintro ⟨hreached, hfree⟩
    obtain ⟨hle, hbefore⟩ := reached_iff.mp hreached
    refine ⟨⟨hle, hfree⟩, ?_⟩
    rintro k ⟨hk, hkfree⟩
    by_contra hlt
    -- the loop goes past taken numbers only
    exact hkfree (hbefore k hk (not_le.mp hlt))
  · rintro ⟨⟨hle, hfree⟩, hleast⟩
    refine ⟨reached_iff.mpr ⟨hle, fun k hk hlt => ?_⟩, hfree⟩
    by_contra hkfree
    exact absurd (hleast ⟨hk, hkfree⟩) (not_le.mpr hlt)

theorem Found.unique {m : ℕ} (hm : Found taken first m) (hn : Found taken first n) : m = n :=
  (found_iff_isLeast.mp hm).unique (found_iff_isLeast.mp hn)

/-- A free number ends the loop where it stands. -/
theorem Found.here (h : ¬ taken first) : Found taken first first := ⟨.start, h⟩

/-- A taken one sends it on to the next. -/
theorem found_of_taken (h : taken first) : Found taken first n ↔ Found taken (first + 1) n := by
  rw [found_iff_isLeast, found_iff_isLeast]
  have hsame : {n | first ≤ n ∧ ¬ taken n} = {n | first + 1 ≤ n ∧ ¬ taken n} := by
    ext k
    constructor
    · rintro ⟨hle, hfree⟩
      have hne : first ≠ k := fun heq => hfree (heq ▸ h)
      exact ⟨Nat.lt_of_le_of_ne hle hne, hfree⟩
    · rintro ⟨hle, hfree⟩
      exact ⟨Nat.le_of_succ_le hle, hfree⟩
  rw [hsame]

/-- The loop ends below a bound exactly when a number below it is free. -/
theorem exists_found_iff {bound : ℕ} : (∃ n, Found taken first n ∧ n < bound)
    ↔ ∃ n, first ≤ n ∧ n < bound ∧ ¬ taken n := by
  classical
  constructor
  · rintro ⟨n, hfound, hlt⟩
    obtain ⟨⟨hle, hfree⟩, -⟩ := found_iff_isLeast.mp hfound
    exact ⟨n, hle, hlt, hfree⟩
  · rintro ⟨k, hle, hlt, hfree⟩
    have hex : ∃ n, first ≤ n ∧ ¬ taken n := ⟨k, hle, hfree⟩
    refine ⟨Nat.find hex, found_iff_isLeast.mpr ⟨Nat.find_spec hex, fun m hm => ?_⟩, ?_⟩
    · exact Nat.find_min' hex hm
    · exact lt_of_le_of_lt (Nat.find_min' hex ⟨hle, hfree⟩) hlt

/-- Fewer names than there are numbers leave one of them free. -/
theorem exists_free_of_card {α : Type} [DecidableEq α] {name : ℕ → α}
    (hname : Function.Injective name) {used : Finset α} {a b : ℕ} (h : used.card < b - a) :
    ∃ n, a ≤ n ∧ n < b ∧ name n ∉ used := by
  have hcard : ((Finset.Ico a b).image name).card = b - a := by
    rw [Finset.card_image_of_injective _ hname, Nat.card_Ico]
  obtain ⟨x, hx, hfree⟩ := Finset.exists_mem_notMem_of_card_lt_card (hcard ▸ h)
  obtain ⟨n, hn, rfl⟩ := Finset.mem_image.mp hx
  obtain ⟨hle, hlt⟩ := Finset.mem_Ico.mp hn
  exact ⟨n, hle, hlt, hfree⟩

end Search
