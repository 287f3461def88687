/-
LZ77 over a sliding window, and the circular buffer that implements it.

A decoder of this family keeps the whole history in principle and a ring of the
last `N` symbols in practice. `back` reads the history at a distance, `expand`
gives a token list its meaning, and `Ring` says when a circular buffer of `N`
cells holds the end of a history. `Ring.write` is the step lemma: writing the next
symbol at the write position, the history length modulo `N`, keeps the ring.

Cells in front of the history read as a fixed filler `z`. The alphabet, the
filler, and the window size are arbitrary.
-/
import Mathlib.Data.List.GetD
import Mathlib.Tactic

set_option autoImplicit false

namespace Window

variable {α : Type} (z : α)

/-! ## Meaning of a token list -/

/-- The symbol `d` places before the end of the history, `z` in front of it. -/
def back (h : List α) (d : ℕ) : α := h.reverse.getD (d - 1) z

/-- A literal, or a reference to `len` symbols at distance `dist`. -/
inductive Token (α : Type)
  | lit (a : α)
  | ref (dist len : ℕ)
  deriving DecidableEq, Repr

/-- Copying symbol by symbol, so that a copy may run into its own output. -/
def copy (dist : ℕ) : ℕ → List α → List α
  | 0, h => h
  | n + 1, h => copy dist n (h ++ [back z h dist])

/-- The history after one token. -/
def apply (h : List α) : Token α → List α
  | .lit a => h ++ [a]
  | .ref dist len => copy z dist len h

/-- The history after a list of tokens. -/
def expand (h : List α) (toks : List (Token α)) : List α := toks.foldl (apply z) h

variable {z}

theorem expand_lit (h : List α) (a : α) : expand z h [.lit a] = h ++ [a] := rfl

theorem back_append_one (h : List α) (a : α) : back z (h ++ [a]) 1 = a := by
  simp [back]

theorem back_append_succ (h : List α) (a : α) {d : ℕ} (hd : 1 ≤ d) :
    back z (h ++ [a]) (d + 1) = back z h d := by
  obtain ⟨k, rfl⟩ := Nat.exists_eq_add_of_le hd
  simp [back, Nat.add_comm 1 k]

/-- The symbol at a distance, by its position in the history. -/
theorem back_eq (h : List α) {d : ℕ} (hd : 1 ≤ d) :
    some (back z h d) = if d ≤ h.length then h[h.length - d]? else some z := by
  rw [back]
  split_ifs with hle
  · rw [List.getD_eq_getElem _ _ (by rw [List.length_reverse]; omega), List.getElem_reverse,
      List.getElem?_eq_getElem (by omega)]
    congr 2
    omega
  · rw [List.getD_eq_default]
    rw [List.length_reverse]
    omega

theorem copy_length (dist n : ℕ) (h : List α) : (copy z dist n h).length = h.length + n := by
  induction n generalizing h with
  | zero => rfl
  | succ n ih =>
    rw [copy, ih, List.length_append, List.length_singleton]
    omega

/-- A token only adds to the history. -/
theorem isPrefix_copy (dist n : ℕ) (h : List α) : h <+: copy z dist n h := by
  induction n generalizing h with
  | zero => exact List.prefix_rfl
  | succ n ih => exact (List.prefix_append h _).trans (ih _)

/-- **What a copy appends**: symbol `j` is the one `dist` places before it, in the history
with the copy already in it, and the filler in front of the history. -/
theorem copy_getElem? {dist : ℕ} (hd : 1 ≤ dist) (n : ℕ) : ∀ (h : List α) {j : ℕ}, j < n →
    (copy z dist n h)[h.length + j]?
      = if dist ≤ h.length + j then (copy z dist n h)[h.length + j - dist]? else some z := by
  induction n with
  | zero =>
    intro h j hj
    exact absurd hj (Nat.not_lt_zero j)
  | succ n ih =>
    intro h j hj
    rw [copy]
    cases j with
    | zero =>
      -- the first symbol is the one the copy begins with
      have hfirst : (copy z dist n (h ++ [back z h dist]))[h.length]? = some (back z h dist) := by
        obtain ⟨t, ht⟩ := isPrefix_copy (z := z) dist n (h ++ [back z h dist])
        rw [← ht, List.append_assoc, List.getElem?_append_right le_rfl, Nat.sub_self]
        rfl
      rw [Nat.add_zero, hfirst, back_eq h hd]
      split_ifs with hle
      · obtain ⟨t, ht⟩ := isPrefix_copy (z := z) dist n (h ++ [back z h dist])
        rw [← ht, List.append_assoc, List.getElem?_append_left (by omega)]
      · rfl
    | succ j =>
      have hnext := ih (h ++ [back z h dist]) (show j < n by omega)
      rw [List.length_append, List.length_singleton, Nat.add_assoc, Nat.add_comm 1 j] at hnext
      exact hnext

theorem isPrefix_apply (h : List α) (t : Token α) : h <+: apply z h t := by
  cases t with
  | lit a => exact List.prefix_append h [a]
  | ref dist len => exact isPrefix_copy dist len h

theorem isPrefix_expand (h : List α) (toks : List (Token α)) : h <+: expand z h toks := by
  induction toks generalizing h with
  | nil => exact List.prefix_rfl
  | cons t toks ih => exact (isPrefix_apply h t).trans (ih _)

/-! ## The ring -/

/-- `ring` holds the last `N` symbols of `h`: the symbol at distance `d` sits
`d` cells before the write position. -/
structure Ring (N : ℕ) (z : α) (ring h : List α) : Prop where
  length : ring.length = N
  cell : ∀ d, 1 ≤ d → d ≤ N → ring[(h.length + N - d) % N]? = some (back z h d)

/-- A ring of filler behind a short first text. -/
theorem Ring.init {N : ℕ} {h : List α} (hN : h.length ≤ N) :
    Ring N z (h ++ List.replicate (N - h.length) z) h := by
  refine ⟨by simp; omega, fun d hd1 hdN => ?_⟩
  rcases Nat.lt_or_ge h.length d with hlt | hge
  · have hcell : (h.length + N - d) % N = h.length + N - d := Nat.mod_eq_of_lt (by omega)
    rw [hcell, List.getElem?_append_right (by omega),
      List.getElem?_replicate_of_lt (by omega), back, List.getD_eq_default]
    rw [List.length_reverse]
    omega
  · have hcell : (h.length + N - d) % N = h.length - d := by
      rw [show h.length + N - d = h.length - d + N by omega, Nat.add_mod_right]
      exact Nat.mod_eq_of_lt (by omega)
    rw [hcell, List.getElem?_append_left (by omega), back,
      List.getD_eq_getElem _ _ (by rw [List.length_reverse]; omega), List.getElem_reverse,
      List.getElem?_eq_getElem (by omega)]
    congr 2
    omega

/-- Writing the next symbol at the write position. -/
theorem Ring.write {N : ℕ} {ring h : List α} (hr : Ring N z ring h) (hN : 0 < N) (a : α) :
    Ring N z (ring.set (h.length % N) a) (h ++ [a]) := by
  refine ⟨by rw [List.length_set, hr.length], fun d hd1 hdN => ?_⟩
  rw [List.length_append, List.length_singleton]
  obtain ⟨k, rfl⟩ := Nat.exists_eq_add_of_le hd1
  rcases Nat.eq_zero_or_pos k with rfl | hk
  · rw [show h.length + 1 + N - (1 + 0) = h.length + N by omega, Nat.add_mod_right,
      List.getElem?_set_self (by rw [hr.length]; exact Nat.mod_lt _ hN), Nat.add_zero,
      back_append_one]
  · have hcell := hr.cell k hk (by omega)
    have hpos : h.length + 1 + N - (1 + k) = h.length + N - k := by omega
    have hne : h.length % N ≠ (h.length + N - k) % N := by
      intro heq
      -- the two positions are `N - k` apart, which is neither `0` nor a multiple of `N`
      have hdvd : N ∣ (h.length + N - k) - h.length :=
        (Nat.modEq_iff_dvd' (by omega)).mp heq
      have hle := Nat.le_of_dvd (by omega) hdvd
      omega
    rw [hpos, List.getElem?_set_ne hne, hcell, Nat.add_comm 1 k, back_append_succ h a hk]

/-- The cell of the last position in a class modulo `N` holds the symbol there. -/
theorem Ring.getElem?_of_isGreatest {N : ℕ} {ring h : List α} (hr : Ring N z ring h)
    (hN : 0 < N) {i p : ℕ} (hp : IsGreatest {p | p < h.length ∧ p % N = i} p) : ring[i]? = h[p]? := by
  obtain ⟨⟨hlt, rfl⟩, hmax⟩ := hp
  -- one window further on would be a later position of the class
  have hrecent : h.length ≤ p + N := by
    by_contra hgt
    have hlater : p + N ∈ {q | q < h.length ∧ q % N = p % N} :=
      ⟨not_le.mp hgt, Nat.add_mod_right p N⟩
    have hle : p + N ≤ p := hmax hlater
    omega
  have hcell := hr.cell (h.length - p) (by omega) (by omega)
  rw [show h.length + N - (h.length - p) = p + N by omega, Nat.add_mod_right,
    back_eq h (by omega), if_pos (by omega)] at hcell
  rw [hcell]
  congr 1
  omega

/-- A cell no position of the history falls on still holds the filler. -/
theorem Ring.getElem?_of_forall_ne {N : ℕ} {ring h : List α} (hr : Ring N z ring h) {i : ℕ}
    (hi : i < N) (hnone : ∀ p < h.length, p % N ≠ i) : ring[i]? = some z := by
  have hbeyond : h.length ≤ i := by
    by_contra hlt
    exact hnone i (not_le.mp hlt) (Nat.mod_eq_of_lt hi)
  have hcell := hr.cell (h.length + N - i) (by omega) (by omega)
  rw [show h.length + N - (h.length + N - i) = i by omega, Nat.mod_eq_of_lt hi,
    back_eq h (by omega), if_neg (by omega)] at hcell
  exact hcell

/-- Moving the read position of a fixed distance along with the write position. -/
theorem read_pos_succ {N L d : ℕ} (hd : d ≤ N) :
    ((L + N - d) % N + 1) % N = (L + 1 + N - d) % N := by
  rw [Nat.mod_add_mod]
  congr 1
  omega

end Window
