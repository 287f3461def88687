/-
Items that go to the first free of the places their name has.

Every name `p` has the places `place p 0`, `place p 1`, ... of which the first `bound` count,
and an item goes to the first that is free, or nowhere. If the places of different names are
different, the items of a name fill the gaps of their places from below in the order they come
in: a place that was free holds the item whose rank among its namesakes is the number of free
places below (`Fill.slots`), and what was there is kept (`Fill.kept`).
-/
import Mathlib.Data.Nat.Nth
import Mathlib.Tactic

set_option autoImplicit false

namespace Slots

variable {π κ β : Type} [DecidableEq π] [DecidableEq κ]

/-- One item. -/
inductive Put (place : π → ℕ → κ) (bound : ℕ) (f : κ → Option β) (x : π × β) : (κ → Option β) → Prop
  | slot (n : ℕ) (hn : n < bound) (hfree : f (place x.1 n) = none)
      (hleast : ∀ m < n, f (place x.1 m) ≠ none) :
      Put place bound f x (Function.update f (place x.1 n) (some x.2))
  | full (htaken : ∀ n < bound, f (place x.1 n) ≠ none) : Put place bound f x f

/-- One item after the other. -/
inductive Fill (place : π → ℕ → κ) (bound : ℕ) (f : κ → Option β) : List (π × β) → (κ → Option β) → Prop
  | nil : Fill place bound f [] f
  | snoc {xs : List (π × β)} {g h : κ → Option β} {x : π × β} (hxs : Fill place bound f xs g)
      (hx : Put place bound g x h) : Fill place bound f (xs ++ [x]) h

/-- The places of the names are all different. -/
def Apart (place : π → ℕ → κ) (names : Set π) : Prop :=
  ∀ p ∈ names, ∀ q ∈ names, ∀ i j, place p i = place q j → p = q ∧ i = j

/-- The items of one name, in order. -/
def itemsOf (p : π) (xs : List (π × β)) : List β := (xs.filter fun x => x.1 = p).map Prod.snd

/-- How many of the places below `n` are free. -/
def gaps (place : π → ℕ → κ) (f : κ → Option β) (p : π) (n : ℕ) : ℕ :=
  Nat.count (fun m => (f (place p m)).isNone = true) n

section Gaps

variable {place : π → ℕ → κ} {bound : ℕ} {f g h : κ → Option β} {p : π}

theorem itemsOf_snoc (xs : List (π × β)) (x : π × β) :
    itemsOf p (xs ++ [x]) = if x.1 = p then itemsOf p xs ++ [x.2] else itemsOf p xs := by
  rw [itemsOf, List.filter_append, List.map_append]
  split_ifs with hp
  · simp [itemsOf, hp]
  · simp [itemsOf, hp]

omit [DecidableEq π] [DecidableEq κ] in
/-- A free place has a rank of its own. -/
theorem gaps_injective {m n : ℕ} (hm : f (place p m) = none) (hn : f (place p n) = none)
    (h : gaps place f p m = gaps place f p n) : m = n :=
  Nat.count_injective (Option.isNone_iff_eq_none.mpr hm) (Option.isNone_iff_eq_none.mpr hn) h

omit [DecidableEq π] [DecidableEq κ] in
/-- Every rank below that of `n` belongs to a free place below `n`. -/
theorem exists_gap {n k : ℕ} (hk : k < gaps place f p n) :
    ∃ m < n, f (place p m) = none ∧ gaps place f p m = k := by
  have hcard := fun hf => hk.trans_le
    (Nat.count_le_card (p := fun m => (f (place p m)).isNone = true) hf n)
  refine ⟨Nat.nth _ k, Nat.nth_lt_of_lt_count hk, ?_, Nat.count_nth hcard⟩
  exact Option.isNone_iff_eq_none.mp (Nat.nth_mem k hcard)

omit [DecidableEq π] in
/-- What was there is kept, and nothing comes to a place that no item has. -/
theorem Fill.kept {xs : List (π × β)} (hfill : Fill place bound f xs g) {q : κ}
    (hq : f q ≠ none ∨ ∀ x ∈ xs, ∀ n < bound, q ≠ place x.1 n) : g q = f q := by
  induction hfill with
  | nil => rfl
  | @snoc xs g h x _ hx ih =>
    have hbefore := ih (hq.imp_right fun hno y hy => hno y (List.mem_append_left _ hy))
    cases hx with
    | full => exact hbefore
    | slot n hn hfree =>
      have hne : q ≠ place x.1 n := by
        rcases hq with hsome | hno
        · rintro rfl
          exact hsome (hbefore.symm.trans hfree)
        · exact hno x (List.mem_append_right _ (List.mem_singleton_self x)) n hn
      rw [Function.update_of_ne hne]
      exact hbefore

/-- **The gaps are filled from below**, in the order of the items. -/
theorem Fill.slots {names : Set π} (hapart : Apart place names) {xs : List (π × β)}
    (hfill : Fill place bound f xs g) (hnames : ∀ x ∈ xs, x.1 ∈ names) (hp : p ∈ names) {n : ℕ}
    (hn : n < bound) (hfree : f (place p n) = none) :
    g (place p n) = (itemsOf p xs)[gaps place f p n]? := by
  induction hfill generalizing p n with
  | nil =>
    rw [hfree]
    rfl
  | @snoc xs g h x _ hx ih =>
    have hxs : ∀ y ∈ xs, y.1 ∈ names := fun y hy => hnames y (List.mem_append_left _ hy)
    have hx1 : x.1 ∈ names := hnames x (List.mem_append_right _ (List.mem_singleton_self x))
    have hbefore := ih hxs hp hn hfree
    cases hx with
    | full htaken =>
      rw [hbefore, itemsOf_snoc]
      split_ifs with hxp
      · -- the place is taken, so its rank is one of the items that came before
        have hsome := htaken n hn
        rw [hxp, hbefore] at hsome
        have hlt : gaps place f p n < (itemsOf p xs).length := by
          by_contra hge
          exact hsome (List.getElem?_eq_none (not_lt.mp hge))
        rw [List.getElem?_append_left hlt]
      · rfl
    | slot k hk hkfree hkleast =>
      rw [itemsOf_snoc]
      by_cases hxp : x.1 = p
      · subst hxp
        rw [if_pos rfl]
        have hkept : f (place x.1 k) = none := by
          by_contra hsome
          exact hsome ((‹Fill place bound f xs g›.kept (.inl hsome)).symm.trans hkfree)
        -- the first free place is the one whose rank is the number of the items before
        have hrank : gaps place f x.1 k = (itemsOf x.1 xs).length := by
          have hnone := ih hxs hx1 hk hkept
          rw [hkfree] at hnone
          have hge : (itemsOf x.1 xs).length ≤ gaps place f x.1 k :=
            List.getElem?_eq_none_iff.mp hnone.symm
          by_contra hne
          obtain ⟨m, hmk, hmfree, hm⟩ := exists_gap (lt_of_le_of_ne hge (Ne.symm hne))
          refine hkleast m hmk ?_
          rw [ih hxs hx1 (hmk.trans hk) hmfree, hm]
          exact List.getElem?_eq_none le_rfl
        by_cases hnk : n = k
        · subst hnk
          rw [Function.update_self, hrank, List.getElem?_concat_length]
        · have hplace : place x.1 n ≠ place x.1 k := fun heq =>
            hnk (hapart x.1 hx1 x.1 hx1 n k heq).2
          have hother : gaps place f x.1 n ≠ (itemsOf x.1 xs).length := by
            rw [← hrank]
            exact fun heq => hnk (gaps_injective hfree hkept heq)
          rw [Function.update_of_ne hplace, hbefore]
          rcases lt_or_gt_of_ne hother with hlt | hgt
          · rw [List.getElem?_append_left hlt]
          · rw [List.getElem?_eq_none hgt.le, List.getElem?_eq_none]
            rw [List.length_append, List.length_singleton]
            exact hgt
      · have hplace : place p n ≠ place x.1 k := fun heq =>
          hxp (hapart p hp x.1 hx1 n k heq).1.symm
        rw [if_neg hxp, Function.update_of_ne hplace]
        exact hbefore

end Gaps

end Slots
