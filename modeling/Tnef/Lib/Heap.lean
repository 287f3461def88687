/-
Blocks that are allocated and released.

Every block has a number of its own, which is never given out again, so what a pointer means
does not change: it can be read and released as long as its block is live, and neither
afterwards. `allocs` adds blocks and changes nothing else, and a list of pointers can be
released exactly when they are live and none occurs twice (`releaseAll_returns_iff`). What
the blocks hold is arbitrary.
-/
import Mathlib.Data.List.Nodup
import Mathlib.Tactic

set_option autoImplicit false

namespace HeapModel

/-- The blocks given out so far, by number, and the numbers released, in order. -/
structure Heap (β : Type) where
  blocks : List β := []
  released : List ℕ := []
  released_lt : ∀ p ∈ released, p < blocks.length := by simp
  released_nodup : released.Nodup := by simp

namespace Heap

variable {β : Type}

/-- The number of the next block. -/
def next (h : Heap β) : ℕ := h.blocks.length

def Live (h : Heap β) (p : ℕ) : Prop := p < h.next ∧ p ∉ h.released

instance (h : Heap β) (p : ℕ) : Decidable (h.Live p) := inferInstanceAs (Decidable (_ ∧ _))

/-- What a live block holds. -/
def read (h : Heap β) (p : ℕ) : Option β := if p ∈ h.released then none else h.blocks[p]?

/-- Blocks of their own for the members of `bs`. -/
def allocs (h : Heap β) (bs : List β) : Heap β where
  blocks := h.blocks ++ bs
  released := h.released
  released_lt p hp := by
    have hlt := h.released_lt p hp
    rw [List.length_append]
    omega
  released_nodup := h.released_nodup

/-- A block that is not live is not released. -/
def release (h : Heap β) (p : ℕ) : Option (Heap β) :=
  if hp : h.Live p then some
    { blocks := h.blocks
      released := h.released ++ [p]
      released_lt := by
        intro q hq
        rcases List.mem_append.mp hq with hq | hq
        · exact h.released_lt q hq
        · rw [List.mem_singleton.mp hq]
          exact hp.1
      released_nodup := List.nodup_append.mpr ⟨h.released_nodup, List.nodup_singleton p, by
        rintro q hq r hr rfl
        rw [List.mem_singleton.mp hr] at hq
        exact hp.2 hq⟩ }
  else none

/-- One pointer after the other. -/
def releaseAll (h : Heap β) : List ℕ → Option (Heap β)
  | [] => some h
  | p :: ps => do
    let h ← h.release p
    h.releaseAll ps

/-! ## Allocation -/

section Allocs

variable {h : Heap β} {bs : List β} {p : ℕ}

theorem next_allocs : (h.allocs bs).next = h.next + bs.length := List.length_append

theorem allocs_nil : h.allocs [] = h := by
  simp [allocs]

theorem allocs_allocs (bs' : List β) : (h.allocs bs).allocs bs' = h.allocs (bs ++ bs') := by
  simp [allocs]

/-- A number that has not been given out has not been released. -/
theorem not_released_of_next_le (hp : h.next ≤ p) : p ∉ h.released :=
  fun hmem => absurd (h.released_lt p hmem) (Nat.not_lt_of_le hp)

theorem Live.allocs (hp : h.Live p) : (h.allocs bs).Live p := by
  refine ⟨?_, hp.2⟩
  rw [next_allocs]
  exact Nat.lt_add_right _ hp.1

theorem live_allocs_new {k : ℕ} (hk : k < bs.length) : (h.allocs bs).Live (h.next + k) := by
  have hfresh : h.next + k ∉ h.released := not_released_of_next_le (Nat.le_add_right _ _)
  refine ⟨?_, hfresh⟩
  rw [next_allocs]
  omega

theorem read_allocs (hp : p < h.next) : (h.allocs bs).read p = h.read p := by
  have hblock : (h.blocks ++ bs)[p]? = h.blocks[p]? := List.getElem?_append_left hp
  simp only [read, Heap.allocs, hblock]

theorem read_allocs_new {k : ℕ} (hk : k < bs.length) :
    (h.allocs bs).read (h.next + k) = some bs[k] := by
  have hblock : (h.blocks ++ bs)[h.next + k]? = bs[k]? := by
    rw [next, List.getElem?_append_right (Nat.le_add_right _ _), Nat.add_sub_cancel_left]
  have hfresh : h.next + k ∉ h.released := not_released_of_next_le (Nat.le_add_right _ _)
  simp only [read, Heap.allocs, hfresh, if_false, hblock]
  exact List.getElem?_eq_getElem hk

theorem live_iff_read : h.Live p ↔ ∃ b, h.read p = some b := by
  unfold Live read next
  by_cases hp : p ∈ h.released
  · simp [hp]
  · simp [hp, List.getElem?_eq_some_iff]

/-- What is read is what the block holds. -/
theorem block_of_read {b : β} (hp : h.read p = some b) : h.blocks[p]? = some b := by
  unfold read at hp
  split_ifs at hp
  exact hp

end Allocs

/-! ## Release -/

section Release

variable {h h' : Heap β} {p q : ℕ} {ps : List ℕ}

theorem release_eq_some_iff : h.release p = some h' ↔ h.Live p ∧ h'.blocks = h.blocks
    ∧ h'.released = h.released ++ [p] := by
  unfold release
  split_ifs with hp
  · rw [Option.some.injEq, and_iff_right hp]
    constructor
    · rintro rfl
      exact ⟨rfl, rfl⟩
    · rintro ⟨hblocks, hreleased⟩
      cases h'
      simp only at hblocks hreleased
      subst hblocks hreleased
      rfl
  · simp [hp]

theorem live_release (hr : h.release p = some h') : h'.Live q ↔ h.Live q ∧ q ≠ p := by
  obtain ⟨-, hblocks, hreleased⟩ := release_eq_some_iff.mp hr
  simp only [Live, next, hblocks, hreleased, List.mem_append, List.mem_singleton, not_or, and_assoc]

/-- **What a list of releases leaves behind.** -/
theorem releaseAll_eq_some (ps : List ℕ) : ∀ {h : Heap β}, h.releaseAll ps = some h' →
    h'.blocks = h.blocks ∧ h'.released = h.released ++ ps := by
  induction ps with
  | nil =>
    intro h hr
    cases hr
    exact ⟨rfl, (List.append_nil _).symm⟩
  | cons p ps ih =>
    intro h hr
    obtain ⟨h₁, hone, hrest⟩ := Option.bind_eq_some_iff.mp hr
    obtain ⟨-, hblocks, hreleased⟩ := release_eq_some_iff.mp hone
    obtain ⟨hblocks', hreleased'⟩ := ih hrest
    refine ⟨hblocks'.trans hblocks, ?_⟩
    rw [hreleased', hreleased, List.append_assoc, List.singleton_append]

/-- **A list of pointers can be released** exactly when they are live and all different. -/
theorem releaseAll_returns_iff (ps : List ℕ) : ∀ {h : Heap β},
    (∃ h', h.releaseAll ps = some h') ↔ ps.Nodup ∧ ∀ p ∈ ps, h.Live p := by
  induction ps with
  | nil =>
    intro h
    simp [releaseAll]
  | cons p ps ih =>
    intro h
    rw [List.nodup_cons, List.forall_mem_cons]
    constructor
    · rintro ⟨h', hr⟩
      obtain ⟨h₁, hone, hrest⟩ := Option.bind_eq_some_iff.mp hr
      obtain ⟨hnodup, hlive⟩ := ih.mp ⟨h', hrest⟩
      -- the first pointer is no longer live, so it is not among the others
      refine ⟨⟨fun hmem => ?_, hnodup⟩, (release_eq_some_iff.mp hone).1, fun q hq => ?_⟩
      · exact ((live_release hone).mp (hlive p hmem)).2 rfl
      · exact ((live_release hone).mp (hlive q hq)).1
    · rintro ⟨⟨hnot, hnodup⟩, hp, hlive⟩
      obtain ⟨h₁, hone⟩ : ∃ h₁, h.release p = some h₁ := by
        simp only [release, dif_pos hp]
        exact ⟨_, rfl⟩
      obtain ⟨h', hrest⟩ := ih.mpr ⟨hnodup, fun q hq =>
        (live_release hone).mpr ⟨hlive q hq, fun heq => hnot (heq ▸ hq)⟩⟩
      exact ⟨h', Option.bind_eq_some_iff.mpr ⟨h₁, hone, hrest⟩⟩

/-- A pointer that is not released reads as before. -/
theorem read_releaseAll (hr : h.releaseAll ps = some h') (hq : q ∉ ps) : h'.read q = h.read q := by
  obtain ⟨hblocks, hreleased⟩ := releaseAll_eq_some ps hr
  simp only [read, hblocks, hreleased, List.mem_append, hq, or_false]

theorem read_released (hr : h.releaseAll ps = some h') (hq : q ∈ ps) : h'.read q = none := by
  obtain ⟨-, hreleased⟩ := releaseAll_eq_some ps hr
  rw [read, if_pos (by rw [hreleased]; exact List.mem_append_right _ hq)]

end Release

end Heap

end HeapModel
