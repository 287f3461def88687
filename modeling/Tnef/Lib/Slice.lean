/-
A block of values lying inside a buffer at an offset.

`At buf i bs` says that `bs` occupies `buf` from offset `i` on. It is the
statement that an encoder and a cursor meet in: the encoder lays blocks down one
after another (`at_append`), and the cursor reads single cells out of them
(`At.getElem?`). Everything is over an arbitrary type.
-/
import Mathlib.Data.List.Basic

set_option autoImplicit false

namespace Slice

variable {α : Type*}

/-- `bs` lies in `buf` at offset `i`. -/
def At (buf : List α) (i : ℕ) (bs : List α) : Prop :=
  ∃ pre post, buf = pre ++ bs ++ post ∧ pre.length = i

/-- The whole buffer is a block at offset `0`. -/
theorem at_zero (buf : List α) : At buf 0 buf := ⟨[], [], by simp, rfl⟩

/-- A block ends inside the buffer. -/
theorem At.le {buf bs : List α} {i : ℕ} (h : At buf i bs) : i + bs.length ≤ buf.length := by
  obtain ⟨pre, post, rfl, rfl⟩ := h
  simp only [List.length_append]
  omega

/-- Two blocks laid down one after another. -/
theorem at_append {buf a b : List α} {i : ℕ} :
    At buf i (a ++ b) ↔ At buf i a ∧ At buf (i + a.length) b := by
  constructor
  · rintro ⟨pre, post, rfl, rfl⟩
    exact ⟨⟨pre, b ++ post, by simp, rfl⟩, ⟨pre ++ a, post, by simp, by simp⟩⟩
  · rintro ⟨⟨pre, post, rfl, rfl⟩, ⟨pre', post', heq, hlen⟩⟩
    have hpre : pre' = pre ++ a := by
      have h := congrArg (List.take (pre.length + a.length)) heq
      rw [← hlen, List.append_assoc pre', List.take_left, hlen, List.take_left' (by simp)] at h
      exact h.symm
    subst hpre
    rw [List.append_assoc (pre ++ a), List.append_cancel_left_eq] at heq
    exact ⟨pre, post', by rw [heq]; simp, rfl⟩

/-- A block of a buffer is a block of any longer one. -/
theorem At.append_right {buf bs : List α} {i : ℕ} (h : At buf i bs) (extra : List α) :
    At (buf ++ extra) i bs := by
  obtain ⟨pre, post, rfl, rfl⟩ := h
  exact ⟨pre, post ++ extra, by simp, rfl⟩

/-- A block of a block is a block. -/
theorem At.trans {buf bs cs : List α} {i k : ℕ} (h : At bs k cs) (hbs : At buf i bs) :
    At buf (i + k) cs := by
  obtain ⟨pre, post, rfl, rfl⟩ := h
  obtain ⟨pre', post', rfl, rfl⟩ := hbs
  exact ⟨pre' ++ pre, post ++ post', by simp, by simp⟩

/-- Cell `k` of a block is cell `i + k` of the buffer. -/
theorem At.getElem? {buf bs : List α} {i k : ℕ} (h : At buf i bs) (hk : k < bs.length) :
    buf[i + k]? = bs[k]? := by
  obtain ⟨pre, post, rfl, rfl⟩ := h
  rw [List.append_assoc, List.getElem?_append_right (Nat.le_add_right _ _),
    Nat.add_sub_cancel_left, List.getElem?_append_left hk]

/-- Cutting a block's length out of the buffer at its offset gives the block. -/
theorem At.take_drop {buf bs : List α} {i : ℕ} (h : At buf i bs) :
    (buf.drop i).take bs.length = bs := by
  obtain ⟨pre, post, rfl, rfl⟩ := h
  rw [List.append_assoc, List.drop_left, List.take_left]

/-- A block as long as the buffer is the buffer. -/
theorem At.eq_of_length {buf bs : List α} (h : At buf 0 bs) (hlen : buf.length = bs.length) :
    buf = bs := by
  have hcut := h.take_drop
  rwa [List.drop_zero, ← hlen, List.take_length] at hcut

/-- Whatever lies between two offsets inside the buffer is a block. -/
theorem at_take_drop (buf : List α) (i n : ℕ) (h : i + n ≤ buf.length) :
    At buf i ((buf.drop i).take n) := by
  refine ⟨buf.take i, buf.drop (i + n), ?_, by rw [List.length_take]; omega⟩
  rw [List.append_assoc, ← List.drop_drop, List.take_append_drop, List.take_append_drop]

/-- A block that ends within the front of a buffer is a block of the front. -/
theorem At.of_append {front back bs : List α} {i : ℕ} (h : At (front ++ back) i bs)
    (hle : i + bs.length ≤ front.length) : At front i bs := by
  have hcut := h.take_drop
  rw [List.drop_append_of_le_length (by omega),
    List.take_append_of_le_length (by rw [List.length_drop]; omega)] at hcut
  rw [← hcut]
  exact at_take_drop front i bs.length hle

end Slice
