/-
Programs with a heap, against programs without.

A pointer is the number of a block together with what was put there, and `cells` is the bag of
the pointers to live blocks. `Refines pre x y post` compares a computation `x` on the heap with a
computation `y` that has no heap: where the blocks of `pre` are live, and whatever else is,
the two end in the same way in the same world, and when they return `x` has turned the blocks of
`pre` into those `post` speaks of and left the others alone. A block that is released twice
or looked at when it is gone stops `x` alone, so what refines does neither, and a block in
neither `pre` nor `post` has been released. The rules take one step of `x` at a time. What the
blocks hold, the errors and the world are arbitrary.
-/
import Mathlib.Algebra.Order.Group.Multiset
import Mathlib.Data.Multiset.Filter
import Mathlib.Data.Multiset.Dedup
import Mathlib.Data.Multiset.Range
import Tnef.Lib.Heap
import Tnef.Lib.Stateful

set_option autoImplicit false

namespace Ownership

open HeapModel Stateful

/-! ## The live blocks -/

/-- A pointer, with what its block was given out for. -/
abbrev Ptr (β : Type) := ℕ × β

abbrev Cells (β : Type) := Multiset (Ptr β)

section Cells

variable {β : Type}

/-- Some blocks, in no order. -/
def bag (ps : List (Ptr β)) : Cells β := ps

@[simp] theorem bag_nil : bag ([] : List (Ptr β)) = 0 := rfl

@[simp] theorem bag_cons (p : Ptr β) (ps : List (Ptr β)) : bag (p :: ps) = {p} + bag ps := by
  rw [Multiset.singleton_add]
  rfl

@[simp] theorem bag_append (ps qs : List (Ptr β)) : bag (ps ++ qs) = bag ps + bag qs :=
  (Multiset.coe_add ..).symm

@[simp] theorem mem_bag {p : Ptr β} {ps : List (Ptr β)} : p ∈ bag ps ↔ p ∈ ps := Multiset.mem_coe

theorem bag_contents (ps : List (Ptr β)) :
    (bag ps).map Prod.snd = (ps.map Prod.snd : List β) := Multiset.map_coe ..

/-- The live blocks of the heap. -/
def cells (h : Heap β) : Cells β :=
  (Multiset.range h.next).filterMap fun p => (h.read p).map fun b => (p, b)

variable {h h' : Heap β} {p : ℕ} {b : β} {cs : Cells β}

theorem mem_cells : (p, b) ∈ cells h ↔ h.read p = some b := by
  unfold cells
  rw [Multiset.mem_filterMap]
  constructor
  · rintro ⟨q, -, hq⟩
    obtain ⟨c, hread, hpair⟩ := Option.map_eq_some_iff.mp hq
    cases hpair
    exact hread
  · intro hread
    have hlt : p < h.next := (Heap.live_iff_read.mpr ⟨b, hread⟩).1
    exact ⟨p, Multiset.mem_range.mpr hlt, Option.map_eq_some_iff.mpr ⟨b, hread, rfl⟩⟩

theorem cells_nodup (h : Heap β) : (cells h).Nodup := by
  refine Multiset.Nodup.filterMap _ (fun p q c hp hq => ?_) (Multiset.nodup_range _)
  obtain ⟨b, -, hpair⟩ := Option.map_eq_some_iff.mp hp
  obtain ⟨b', -, hpair'⟩ := Option.map_eq_some_iff.mp hq
  exact congrArg Prod.fst (hpair.trans hpair'.symm)

theorem cells_empty : cells ({} : Heap β) = 0 := rfl

/-- A new block is one more. -/
theorem cells_allocs (h : Heap β) (b : β) : cells (h.allocs [b]) = {(h.next, b)} + cells h := by
  have hnew : (h.next, b) ∉ cells h := fun hmem =>
    absurd (Heap.live_iff_read.mpr ⟨b, mem_cells.mp hmem⟩).1 (lt_irrefl _)
  rw [Multiset.singleton_add]
  refine (Multiset.Nodup.ext (cells_nodup _) (Multiset.nodup_cons.mpr ⟨hnew, cells_nodup h⟩)).mpr ?_
  rintro ⟨q, c⟩
  rw [Multiset.mem_cons, mem_cells, mem_cells]
  rcases lt_trichotomy q h.next with hlt | rfl | hgt
  · rw [Heap.read_allocs hlt]
    simp [hlt.ne]
  · have hread : (h.allocs [b]).read h.next = some b :=
      @Heap.read_allocs_new _ h [b] 0 (Nat.succ_pos _)
    have hold : h.read h.next ≠ some c := fun hc =>
      absurd (Heap.live_iff_read.mpr ⟨c, hc⟩).1 (lt_irrefl _)
    rw [hread]
    simp [hold, eq_comm]
  · have hnone : ∀ c, (h.allocs [b]).read q ≠ some c := by
      intro c hc
      have hlt := (Heap.live_iff_read.mpr ⟨c, hc⟩).1
      rw [Heap.next_allocs, List.length_singleton] at hlt
      omega
    have hold : h.read q ≠ some c := fun hc =>
      absurd (Heap.live_iff_read.mpr ⟨c, hc⟩).1 (Nat.lt_asymm hgt)
    simp [hnone c, hold, hgt.ne']

/-- A live block can be released, and is one less. -/
theorem release_of_cells (hc : cells h = {(p, b)} + cs) :
    ∃ h', h.release p = some h' ∧ cells h' = cs := by
  have hread : h.read p = some b := mem_cells.mp (by rw [hc]; simp)
  obtain ⟨h', hrel⟩ : ∃ h', h.release p = some h' := by
    simp only [Heap.release, dif_pos (Heap.live_iff_read.mpr ⟨b, hread⟩)]
    exact ⟨_, rfl⟩
  refine ⟨h', hrel, ?_⟩
  have hnodup : ({(p, b)} + cs).Nodup := hc ▸ cells_nodup h
  rw [Multiset.singleton_add, Multiset.nodup_cons] at hnodup
  refine (Multiset.Nodup.ext (cells_nodup h') hnodup.2).mpr ?_
  rintro ⟨q, c⟩
  obtain ⟨-, hblocks, hreleased⟩ := Heap.release_eq_some_iff.mp hrel
  have hother : (q, c) ∈ cells h ↔ (q, c) = (p, b) ∨ (q, c) ∈ cs := by
    rw [hc, Multiset.singleton_add, Multiset.mem_cons]
  rw [mem_cells]
  by_cases hq : q = p
  · subst hq
    have hgone : h'.read q = none := by
      rw [Heap.read, if_pos (by rw [hreleased]; simp)]
    rw [hgone]
    refine iff_of_false (by simp) fun hmem => hnodup.1 ?_
    have hsame : h.read q = some c := mem_cells.mp (hother.mpr (.inr hmem))
    rw [hread] at hsame
    cases hsame
    exact hmem
  · have hsame : h'.read q = h.read q := by
      simp only [Heap.read, hblocks, hreleased, List.mem_append, List.mem_singleton, hq, or_false]
    rw [hsame, ← mem_cells, hother]
    simp [hq]

/-- The blocks of `own`, and others that hold `lost`. -/
def Leaves (own : Cells β) (lost : Multiset β) (cs : Cells β) : Prop :=
  ∃ left : Cells β, cs = own + left ∧ left.map Prod.snd = lost

theorem leaves_nothing (own : Cells β) : Leaves own 0 own := ⟨0, (add_zero own).symm, rfl⟩

end Cells

/-! ## Programs on a heap -/

structure Store (β ω : Type) where
  heap : Heap β := {}
  world : ω

abbrev HAct (ε β ω α : Type) := Act ε (Store β ω) α

section Programs

variable {ε β ω α : Type}

/-- A block of its own for `b`; the number is new. -/
def alloc (b : β) : HAct ε β ω ℕ := do
  let s ← get
  set { s with heap := s.heap.allocs [b] }
  return s.heap.next

/-- Only a live block can be released. -/
def release (fault : ε) (p : Ptr β) : HAct ε β ω Unit := do
  let s ← get
  match s.heap.release p.1 with
  | none => throw fault
  | some heap => set { s with heap := heap }

/-- Only a live block can be looked at, and it has to hold what it was given out for. -/
def touch [DecidableEq β] (fault : ε) (p : Ptr β) : HAct ε β ω Unit := do
  let s ← get
  if s.heap.read p.1 = some p.2 then return () else throw fault

def allocAll : (bs : List β) → HAct ε β ω { ps : List (Ptr β) // ps.map Prod.snd = bs }
  | [] => return ⟨[], rfl⟩
  | b :: bs => do
    let p ← alloc b
    let ps ← allocAll bs
    return ⟨(p, b) :: ps.1, congrArg (b :: ·) ps.2⟩

/-- What happens outside the heap. -/
def onWorld (x : Act ε ω α) : HAct ε β ω α :=
  ExceptT.mk fun s => ((exec x s.world).1, { s with world := (exec x s.world).2 })

end Programs

/-! ## Refinement -/

/-- On the blocks of `pre`, and whatever others there are, `x` ends as `y` does. -/
structure Refines {ε β ω α γ : Type} (pre : Cells β) (x : HAct ε β ω α) (y : Act ε ω γ)
    (post : α → γ → Cells β → Prop) : Prop where
  stops : ∀ {s : Store β ω} {frame e w}, cells s.heap = pre + frame →
    exec y s.world = (.error e, w) → ∃ heap, exec x s = (.error e, ⟨heap, w⟩)
  returns : ∀ {s : Store β ω} {frame c w}, cells s.heap = pre + frame →
    exec y s.world = (.ok c, w) → ∃ a cs heap, exec x s = (.ok a, ⟨heap, w⟩)
      ∧ post a c cs ∧ cells heap = cs + frame

section Rules

variable {ε β ω α α' γ γ' : Type} {pre : Cells β} {x : HAct ε β ω α} {y : Act ε ω γ}
  {f : α → HAct ε β ω α'} {g : γ → Act ε ω γ'} {post post' : α → γ → Cells β → Prop}
  {after : α' → γ' → Cells β → Prop}

theorem refines_pure {a : α} {c : γ} (h : post a c pre) :
    Refines pre (pure a : HAct ε β ω α) (pure c : Act ε ω γ) post where
  stops _ hy := by cases hy
  returns := by
    intro s frame c' w hs hy
    cases hy
    exact ⟨a, pre, s.heap, rfl, h, hs⟩

theorem refines_throw (e : ε) :
    Refines pre (throw e : HAct ε β ω α) (throw e : Act ε ω γ) post where
  stops := by
    intro s frame e' w hs hy
    cases hy
    exact ⟨s.heap, rfl⟩
  returns _ hy := by cases hy

theorem Refines.mono (h : Refines pre x y post) (hpost : ∀ a c cs, post a c cs → post' a c cs) :
    Refines pre x y post' where
  stops := h.stops
  returns hs hy := by
    obtain ⟨a, cs, heap, hx, ha, hheap⟩ := h.returns hs hy
    exact ⟨a, cs, heap, hx, hpost a _ cs ha, hheap⟩

/-- Where `y` only computes, what it has computed is known afterwards. -/
theorem Refines.of_lift {m : Except ε γ} (h : Refines pre x (lift m) post) :
    Refines pre x (lift m) fun a c cs => m = .ok c ∧ post a c cs where
  stops := h.stops
  returns hs hy := by
    obtain ⟨a, cs, heap, hx, ha, hheap⟩ := h.returns hs hy
    exact ⟨a, cs, heap, hx, ⟨congrArg Prod.fst hy, ha⟩, hheap⟩

/-- The blocks can be taken in any order. -/
theorem Refines.of_eq {c : Cells β} (h : Refines c x y post) (heq : pre = c) :
    Refines pre x y post :=
  heq ▸ h

/-- **The frame rule**: what is not asked for stays. -/
theorem Refines.frame (h : Refines pre x y post) (rest : Cells β) :
    Refines (pre + rest) x y fun a c cs => ∃ cs', post a c cs' ∧ cs = cs' + rest where
  stops hs hy := h.stops (hs.trans (add_assoc ..)) hy
  returns hs hy := by
    obtain ⟨a, cs, heap, hx, ha, hheap⟩ := h.returns (hs.trans (add_assoc ..)) hy
    exact ⟨a, cs + rest, heap, hx, ⟨cs, ha, rfl⟩, hheap.trans (add_assoc ..).symm⟩

/-- **One after the other.** -/
theorem Refines.bind (hx : Refines pre x y post)
    (hf : ∀ a c cs, post a c cs → Refines cs (f a) (g c) after) :
    Refines pre (x >>= f) (y >>= g) after where
  stops := by
    intro s frame e w hs hy
    rw [exec_bind] at hy ⊢
    rcases hone : exec y s.world with ⟨e' | c, w'⟩
    · rw [hone] at hy
      cases hy
      obtain ⟨heap, hrun⟩ := hx.stops hs hone
      rw [hrun]
      exact ⟨heap, rfl⟩
    · rw [hone] at hy
      obtain ⟨a, cs, heap, hrun, ha, hheap⟩ := hx.returns hs hone
      rw [hrun]
      exact (hf a c cs ha).stops hheap hy
  returns := by
    intro s frame c w hs hy
    obtain ⟨c', w', hone, hrest⟩ := exec_bind_eq_ok.mp hy
    obtain ⟨a, cs, heap, hrun, ha, hheap⟩ := hx.returns hs hone
    obtain ⟨a', cs', heap', hrun', hafter, hheap'⟩ :=
      (hf a c' cs ha).returns (s := ⟨heap, w'⟩) hheap hrest
    exact ⟨a', cs', heap', exec_bind_eq_ok.mpr ⟨a, _, hrun, hrun'⟩, hafter, hheap'⟩

/-- The first half has blocks of its own, the second gets what the first has made of them and
the rest. -/
theorem Refines.bind_frame {rest : Cells β} (hx : Refines pre x y post)
    (hf : ∀ a c cs, post a c cs → Refines (cs + rest) (f a) (g c) after) :
    Refines (pre + rest) (x >>= f) (y >>= g) after := by
  refine (hx.frame rest).bind ?_
  rintro a c _ ⟨cs, ha, rfl⟩
  exact hf a c cs ha

/-- `x` does more behind what `y` does. -/
theorem Refines.then_frame {rest : Cells β} {f : α → HAct ε β ω α'}
    {after : α' → γ → Cells β → Prop}
    (hx : Refines pre x y post)
    (hf : ∀ a c cs, post a c cs → Refines (cs + rest) (f a) (pure c : Act ε ω γ) after) :
    Refines (pre + rest) (x >>= f) y after := by
  rw [← bind_pure y]
  exact hx.bind_frame hf

/-! ### Steps of the program alone -/

section Steps

variable {z : Act ε ω γ'} {b : β} {p : Ptr β} {fault : ε} {k : Unit → HAct ε β ω α'}

theorem refines_alloc {k : ℕ → HAct ε β ω α'} (h : ∀ p, Refines ({(p, b)} + pre) (k p) z after) :
    Refines pre (alloc b >>= k) z after where
  stops := by
    intro s frame e w hs hz
    have hnew : cells (s.heap.allocs [b]) = {(s.heap.next, b)} + pre + frame := by
      rw [cells_allocs, hs, add_assoc]
    exact (h s.heap.next).stops (s := ⟨s.heap.allocs [b], s.world⟩) hnew hz
  returns := by
    intro s frame c w hs hz
    have hnew : cells (s.heap.allocs [b]) = {(s.heap.next, b)} + pre + frame := by
      rw [cells_allocs, hs, add_assoc]
    exact (h s.heap.next).returns (s := ⟨s.heap.allocs [b], s.world⟩) hnew hz

theorem refines_release (h : Refines pre (k ()) z after) :
    Refines ({p} + pre) (release fault p >>= k) z after := by
  have hstep : ∀ {s : Store β ω} {frame : Cells β}, cells s.heap = {p} + pre + frame →
      ∃ heap, exec (release fault p >>= k) s = exec (k ()) ⟨heap, s.world⟩
        ∧ cells heap = pre + frame := by
    intro s frame hs
    obtain ⟨heap, hrel, hcells⟩ := release_of_cells (hs.trans (add_assoc ..))
    refine ⟨heap, ?_, hcells⟩
    have hrun : exec (release fault p) s = (.ok (), ⟨heap, s.world⟩) := by
      rw [release, exec_get_bind, hrel]
      rfl
    rw [exec_bind, hrun]
  constructor
  · intro s frame e w hs hz
    obtain ⟨heap, hrun, hheap⟩ := hstep hs
    rw [hrun]
    exact h.stops (s := ⟨heap, s.world⟩) hheap hz
  · intro s frame c w hs hz
    obtain ⟨heap, hrun, hheap⟩ := hstep hs
    rw [hrun]
    exact h.returns (s := ⟨heap, s.world⟩) hheap hz

theorem refines_touch [DecidableEq β] (hp : p ∈ pre) (h : Refines pre (k ()) z after) :
    Refines pre (touch fault p >>= k) z after := by
  have hstep : ∀ {s : Store β ω} {frame : Cells β}, cells s.heap = pre + frame →
      exec (touch fault p >>= k) s = exec (k ()) s := by
    intro s frame hs
    have hread : s.heap.read p.1 = some p.2 := by
      rw [← mem_cells, hs]
      exact Multiset.mem_add.mpr (.inl hp)
    have hrun : exec (touch fault p) s = (.ok (), s) := by
      rw [touch, exec_get_bind, if_pos hread]
      rfl
    rw [exec_bind, hrun]
  constructor
  · intro s frame e w hs hz
    rw [hstep hs]
    exact h.stops hs hz
  · intro s frame c w hs hz
    rw [hstep hs]
    exact h.returns hs hz

theorem refines_allocAll {bs : List β}
    {k : { ps : List (Ptr β) // ps.map Prod.snd = bs } → HAct ε β ω α'}
    (h : ∀ ps, Refines (bag ps.1 + pre) (k ps) z after) :
    Refines pre (allocAll bs >>= k) z after := by
  induction bs generalizing pre with
  | nil =>
    rw [allocAll, pure_bind]
    exact (h ⟨[], rfl⟩).of_eq (zero_add pre).symm
  | cons b bs ih =>
    rw [allocAll, bind_assoc]
    refine refines_alloc fun p => ?_
    rw [bind_assoc]
    refine ih fun ps => ?_
    rw [pure_bind]
    refine (h ⟨(p, b) :: ps.1, congrArg (b :: ·) ps.2⟩).of_eq ?_
    rw [bag_cons]
    ac_rfl

/-- Blocks that are all live are released one after the other. -/
theorem refines_releaseAll {ps : List (Ptr β)} (h : Refines pre (k ()) z after) :
    Refines (bag ps + pre) (ps.forM (release fault) >>= k) z after := by
  induction ps with
  | nil => exact h.of_eq (zero_add pre)
  | cons p ps ih =>
    have hcons : (p :: ps).forM (release fault) >>= k
        = release fault p >>= fun _ => (ps.forM (release fault) : HAct ε β ω Unit) >>= k :=
      bind_assoc ..
    rw [hcons]
    refine (refines_release ih).of_eq ?_
    rw [bag_cons, add_assoc]

theorem refines_touchAll [DecidableEq β] {ps : List (Ptr β)} (hps : ∀ p ∈ ps, p ∈ pre)
    (h : Refines pre (k ()) z after) : Refines pre (ps.forM (touch fault) >>= k) z after := by
  induction ps with
  | nil => exact h
  | cons p ps ih =>
    have hcons : (p :: ps).forM (touch fault) >>= k
        = touch fault p >>= fun _ => (ps.forM (touch fault) : HAct ε β ω Unit) >>= k :=
      bind_assoc ..
    rw [hcons]
    exact refines_touch (hps p (List.mem_cons_self ..))
      (ih fun q hq => hps q (List.mem_cons_of_mem _ hq))

end Steps

/-! ### Steps of both -/

theorem refines_onWorld {x : Act ε ω α} {f : α → HAct ε β ω α'} {g : α → Act ε ω γ'}
    (h : ∀ a, Refines pre (f a) (g a) after) : Refines pre (onWorld x >>= f) (x >>= g) after := by
  have hx : Refines pre (onWorld x : HAct ε β ω α) x fun a c cs => a = c ∧ cs = pre := by
    constructor
    · intro s frame e w hs hy
      refine ⟨s.heap, ?_⟩
      show ((exec x s.world).1, _) = _
      rw [hy]
    · intro s frame c w hs hy
      refine ⟨c, pre, s.heap, ?_, ⟨rfl, rfl⟩, hs⟩
      show ((exec x s.world).1, _) = _
      rw [hy]
  refine hx.bind ?_
  rintro a _ _ ⟨rfl, rfl⟩
  exact h a

theorem refines_lift {x : Except ε α} {f : α → HAct ε β ω α'} {g : α → Act ε ω γ'}
    (h : ∀ a, x = .ok a → Refines pre (f a) (g a) after) :
    Refines pre (lift x >>= f) (lift x >>= g) after := by
  cases x with
  | error e => exact refines_throw e
  | ok a =>
    rw [lift_ok, pure_bind, lift_ok, pure_bind]
    exact h a rfl

theorem refines_lift_pure {x : Except ε α} {f : α → HAct ε β ω α'} {after : α' → α → Cells β → Prop}
    (h : ∀ a, x = .ok a → Refines pre (f a) (pure a : Act ε ω α) after) :
    Refines pre (lift x >>= f) (lift x) after := by
  rw [← bind_pure (lift x : Act ε ω α)]
  exact refines_lift h

end Rules

end Ownership
