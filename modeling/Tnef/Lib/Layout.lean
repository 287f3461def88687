/-
Items lying one after another between two offsets.

A format with counted repetition says of one item where it starts and where the
next one does; `Chain` says the same of a list of items. A reader's loop is
compared with it by induction on the list, and an encoder that concatenates its
items produces one (`Chain.of_flatMap`). Items and the meaning of an offset are
arbitrary.
-/
import Tnef.Lib.Slice

set_option autoImplicit false

namespace Layout

variable {α β γ : Type}

/-- The items `xs` stand one after another from `i` to `j`, each where `R` says. -/
inductive Chain (R : ℕ → α → ℕ → Prop) : ℕ → List α → ℕ → Prop
  | nil (i : ℕ) : Chain R i [] i
  | cons {i j k : ℕ} {x : α} {xs : List α} (head : R i x j) (tail : Chain R j xs k) :
    Chain R i (x :: xs) k

variable {R : ℕ → α → ℕ → Prop}

@[simp] theorem chain_nil {i j : ℕ} : Chain R i [] j ↔ j = i := by
  constructor
  · rintro ⟨⟩
    rfl
  · rintro rfl
    exact .nil _

@[simp] theorem chain_cons {i k : ℕ} {x : α} {xs : List α} :
    Chain R i (x :: xs) k ↔ ∃ j, R i x j ∧ Chain R j xs k := by
  constructor
  · rintro (_ | ⟨head, tail⟩)
    exact ⟨_, head, tail⟩
  · rintro ⟨j, head, tail⟩
    exact .cons head tail

/-- A property of offsets that every item hands on holds at the end. -/
theorem Chain.offset {P : ℕ → Prop} {i j : ℕ} {xs : List α} (h : Chain R i xs j) (hi : P i)
    (hstep : ∀ i x j, R i x j → P i → P j) : P j := by
  induction h with
  | nil i => exact hi
  | cons head tail ih => exact ih (hstep _ _ _ head hi)

/-- Every item of a chain stands somewhere. -/
theorem Chain.mem {i j : ℕ} {xs : List α} (h : Chain R i xs j) {x : α} (hx : x ∈ xs) :
    ∃ k l, R k x l := by
  induction h with
  | nil i => exact absurd hx (List.not_mem_nil)
  | cons head tail ih =>
    rcases List.mem_cons.mp hx with rfl | hx
    · exact ⟨_, _, head⟩
    · exact ih hx

/-- A chain whose items stand `d` further on ends `d` further on. -/
theorem Chain.shift {S : ℕ → α → ℕ → Prop} {d i j : ℕ} {xs : List α} (h : Chain R i xs j)
    (hstep : ∀ i x j, R i x j → S (d + i) x (d + j)) : Chain S (d + i) xs (d + j) := by
  induction h with
  | nil i => exact .nil _
  | cons head tail ih => exact .cons (hstep _ _ _ head) ih

/-- Where an offset decides about the item and the next offset, it decides about the chain. -/
theorem Chain.unique (hR : ∀ i x j x' j', R i x j → R i x' j' → x = x' ∧ j = j') {i j : ℕ}
    {xs : List α} (h : Chain R i xs j) : ∀ {xs' : List α} {j' : ℕ}, Chain R i xs' j' →
    xs.length = xs'.length → xs = xs' ∧ j = j' := by
  induction h with
  | nil i =>
    intro xs' j' h' hlen
    rw [List.eq_nil_of_length_eq_zero hlen.symm, chain_nil] at h'
    exact ⟨(List.eq_nil_of_length_eq_zero hlen.symm).symm, h'.symm⟩
  | cons head tail ih =>
    intro xs' j' h' hlen
    match xs', h', hlen with
    | x' :: xs', h', hlen =>
      obtain ⟨k, hhead, htail⟩ := chain_cons.mp h'
      obtain ⟨rfl, rfl⟩ := hR _ _ _ _ _ head hhead
      obtain ⟨rfl, rfl⟩ := ih htail (Nat.succ.inj hlen)
      exact ⟨rfl, rfl⟩

/-- Two kinds of item in one, where each item is of the second kind for a reason of its own. -/
theorem chain_and_iff {S : ℕ → α → ℕ → Prop} {P : α → Prop}
    (hR : ∀ i x j, S i x j ↔ R i x j ∧ P x) {xs : List α} : ∀ {i j : ℕ},
    Chain S i xs j ↔ Chain R i xs j ∧ ∀ x ∈ xs, P x := by
  induction xs with
  | nil =>
    intro i j
    simp
  | cons x xs ih =>
    intro i j
    simp only [chain_cons, hR, ih, List.forall_mem_cons]
    constructor
    · rintro ⟨k, ⟨hx, hPx⟩, hxs, hPxs⟩
      exact ⟨⟨k, hx, hxs⟩, hPx, hPxs⟩
    · rintro ⟨⟨k, hx, hxs⟩, hPx, hPxs⟩
      exact ⟨k, ⟨hx, hPx⟩, hxs, hPxs⟩

/-- Encoded items laid down in a buffer form a chain. `Fits` is what an item needs
for its own encoding to be read back. -/
theorem Chain.of_flatMap {buf : List γ} {enc : β → List γ} {f : β → α} {Fits : β → Prop}
    (hitem : ∀ i x, Fits x → Slice.At buf i (enc x) → R i (f x) (i + (enc x).length))
    {i : ℕ} {xs : List β} (hfits : ∀ x ∈ xs, Fits x) (hat : Slice.At buf i (xs.flatMap enc)) :
    Chain R i (xs.map f) (i + (xs.flatMap enc).length) := by
  induction xs generalizing i with
  | nil => exact .nil i
  | cons x xs ih =>
    rw [List.flatMap_cons, Slice.at_append] at hat
    have hx := hitem i x (hfits x (List.mem_cons_self ..)) hat.1
    have hxs := ih (fun y hy => hfits y (List.mem_cons_of_mem _ hy)) hat.2
    rw [List.flatMap_cons, List.length_append, ← Nat.add_assoc]
    exact .cons hx hxs

end Layout
