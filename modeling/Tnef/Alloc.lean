/-
`alloc.c`: the overflow-checked allocators and the `--maxsize` limit.

An allocator returns the number of bytes it requests from `malloc`; the callers
use the block through `Buffer`. `malloc` itself is taken to succeed.
-/
import Tnef.Common

set_option autoImplicit false

namespace Tnef

open ExceptRules

/-- The portable `check_mul_overflow`: `none` is the nonzero return, `some` the
product stored through `res`. -/
def check_mul_overflow (a b : ℕ) : Option ℕ :=
  let tmp := a * b % 2 ^ 64
  if a ≠ 0 ∧ tmp / a ≠ b then none else some tmp

def alloc_limit_assert (o : Options) (size : ℕ) : M Unit :=
  if o.alloc_limit ≠ 0 ∧ size > o.alloc_limit then .error (.exit (-1)) else .ok ()

/-- `res + extra`, refused when the sum wraps. -/
def add_extra (res extra : ℕ) : M ℕ :=
  if (res + extra) % 2 ^ 64 < res then .error .abort else .ok ((res + extra) % 2 ^ 64)

/-- `check_mul_overflow` followed by `abort ()` on overflow. -/
def mul_or_abort (num size : ℕ) : M ℕ :=
  match check_mul_overflow num size with
  | none => .error .abort
  | some res => .ok res

def xmalloc (num size extra : ℕ) : M ℕ := do
  let res ← mul_or_abort num size
  add_extra res extra

def checked_xmalloc (o : Options) (num size extra : ℕ) : M ℕ := do
  let res ← mul_or_abort num size
  -- `xmalloc` computes both again
  let _ ← add_extra res extra
  alloc_limit_assert o res
  xmalloc num size extra

def xcalloc (num size extra : ℕ) : M ℕ := do
  let res ← mul_or_abort num size
  add_extra res extra

/-- Unlike `checked_xmalloc`, the sum with `extra` is first checked in `xcalloc`. -/
def checked_xcalloc (o : Options) (num size extra : ℕ) : M ℕ := do
  -- the limit is held against the product, not against the sum with `extra`
  let res ← mul_or_abort num size
  alloc_limit_assert o res
  xcalloc num size extra

/-! ## What a request comes to when nothing wraps -/

theorem alloc_limit_assert_eq (o : Options) (size : ℕ) :
    alloc_limit_assert o size = if o.Admits size then .ok () else .error (.exit (-1)) := by
  have hneg : (o.alloc_limit ≠ 0 ∧ size > o.alloc_limit) ↔ ¬ o.Admits size := by
    unfold Options.Admits
    omega
  simp only [alloc_limit_assert, hneg, ite_not]

theorem mul_or_abort_of_lt {num size : ℕ} (h : num * size < 2 ^ 64) :
    mul_or_abort num size = .ok (num * size) := by
  unfold mul_or_abort check_mul_overflow
  rw [Nat.mod_eq_of_lt h]
  -- the quotient is the other factor again; a zero factor is not divided by
  by_cases hnum : num = 0
  · simp [hnum]
  · have hdiv : num * size / num = size := Nat.mul_div_cancel_left _ (Nat.pos_of_ne_zero hnum)
    simp [hdiv]

theorem add_extra_of_lt {res extra : ℕ} (h : res + extra < 2 ^ 64) :
    add_extra res extra = .ok (res + extra) := by
  unfold add_extra
  rw [Nat.mod_eq_of_lt h, if_neg (by omega)]

theorem xcalloc_of_lt {num size extra : ℕ} (h : num * size + extra < 2 ^ 64) :
    xcalloc num size extra = .ok (num * size + extra) := by
  rw [xcalloc, mul_or_abort_of_lt (by omega), ok_bind, add_extra_of_lt h]

theorem xmalloc_of_lt {num size extra : ℕ} (h : num * size + extra < 2 ^ 64) :
    xmalloc num size extra = .ok (num * size + extra) := xcalloc_of_lt h

/-- A request that fits in `size_t` is refused by the limit or granted exactly. -/
theorem checked_xmalloc_of_lt (o : Options) {num size extra : ℕ}
    (h : num * size + extra < 2 ^ 64) : checked_xmalloc o num size extra
      = if o.Admits (num * size) then .ok (num * size + extra) else .error (.exit (-1)) := by
  rw [checked_xmalloc, mul_or_abort_of_lt (by omega), ok_bind, add_extra_of_lt h, ok_bind,
    alloc_limit_assert_eq, xmalloc_of_lt h]
  split_ifs <;> rfl

theorem checked_xcalloc_of_lt (o : Options) {num size extra : ℕ}
    (h : num * size + extra < 2 ^ 64) : checked_xcalloc o num size extra
      = if o.Admits (num * size) then .ok (num * size + extra) else .error (.exit (-1)) := by
  rw [checked_xcalloc, mul_or_abort_of_lt (by omega), ok_bind, alloc_limit_assert_eq,
    xcalloc_of_lt h]
  split_ifs <;> rfl

theorem checked_xmalloc_eq_ok {o : Options} {num size extra r : ℕ}
    (h : num * size + extra < 2 ^ 64) : checked_xmalloc o num size extra = .ok r
      ↔ o.Admits (num * size) ∧ r = num * size + extra := by
  rw [checked_xmalloc_of_lt o h]
  split_ifs with hlim <;> simp [hlim, eq_comm]

theorem checked_xcalloc_eq_ok {o : Options} {num size extra r : ℕ}
    (h : num * size + extra < 2 ^ 64) : checked_xcalloc o num size extra = .ok r
      ↔ o.Admits (num * size) ∧ r = num * size + extra := by
  rw [checked_xcalloc_of_lt o h]
  split_ifs with hlim <;> simp [hlim, eq_comm]

/-! ## What the limit does to a request of any size -/

/-- The overflow check is exact: a product that does not fit in `size_t` is found out. -/
theorem mul_or_abort_eq_ok {num size r : ℕ} :
    mul_or_abort num size = .ok r ↔ num * size < 2 ^ 64 ∧ r = num * size := by
  by_cases hlt : num * size < 2 ^ 64
  · rw [mul_or_abort_of_lt hlt, Except.ok.injEq, eq_comm, and_iff_right hlt]
  · have hnum : 0 < num := Nat.pos_of_ne_zero fun h => hlt (by simp [h])
    -- what is left of the product is too small to divide back
    have hdiv : num * size % 2 ^ 64 / num ≠ size := by
      intro h
      have hmod : num * size % 2 ^ 64 < num * size :=
        lt_of_lt_of_le (Nat.mod_lt _ (by norm_num)) (by omega)
      have hback := Nat.div_lt_of_lt_mul hmod
      omega
    rw [mul_or_abort, check_mul_overflow, if_pos ⟨hnum.ne', hdiv⟩]
    simp only [reduceCtorEq, hlt, false_and]

theorem checked_xcalloc_lt {o : Options} {num size extra r : ℕ}
    (h : checked_xcalloc o num size extra = .ok r) : num * size < 2 ^ 64 := by
  rw [checked_xcalloc, bind_eq_ok] at h
  obtain ⟨res, hmul, -⟩ := h
  exact (mul_or_abort_eq_ok.mp hmul).1

theorem checked_xmalloc_of_not_admits {o : Options} {num size : ℕ} (h : ¬ o.Admits (num * size))
    (extra : ℕ) : ∃ e, checked_xmalloc o num size extra = .error e := by
  cases hmul : mul_or_abort num size with
  | error e => exact ⟨e, by rw [checked_xmalloc, hmul]; rfl⟩
  | ok res =>
    obtain ⟨-, rfl⟩ := mul_or_abort_eq_ok.mp hmul
    cases hadd : add_extra (num * size) extra with
    | error e => exact ⟨e, by rw [checked_xmalloc, hmul, ok_bind, hadd]; rfl⟩
    | ok sum =>
      refine ⟨.exit (-1), ?_⟩
      rw [checked_xmalloc, hmul, ok_bind, hadd, ok_bind, alloc_limit_assert_eq, if_neg h]
      rfl

theorem checked_xcalloc_of_not_admits {o : Options} {num size : ℕ} (h : ¬ o.Admits (num * size))
    (extra : ℕ) : ∃ e, checked_xcalloc o num size extra = .error e := by
  cases hmul : mul_or_abort num size with
  | error e => exact ⟨e, by rw [checked_xcalloc, hmul]; rfl⟩
  | ok res =>
    obtain ⟨-, rfl⟩ := mul_or_abort_eq_ok.mp hmul
    refine ⟨.exit (-1), ?_⟩
    rw [checked_xcalloc, hmul, ok_bind, alloc_limit_assert_eq, if_neg h]
    rfl

/-- A request within the limit goes the way of the allocator that knows no limit. -/
theorem checked_xmalloc_of_admits {o : Options} {num size : ℕ} (h : o.Admits (num * size))
    (extra : ℕ) : checked_xmalloc o num size extra = xmalloc num size extra := by
  rw [checked_xmalloc, xmalloc]
  cases hmul : mul_or_abort num size with
  | error e => rfl
  | ok res =>
    obtain ⟨-, rfl⟩ := mul_or_abort_eq_ok.mp hmul
    rw [ok_bind, ok_bind, alloc_limit_assert_eq, if_pos h, ok_bind]
    cases hadd : add_extra (num * size) extra with
    | error e => rfl
    | ok sum => rfl

theorem checked_xcalloc_of_admits {o : Options} {num size : ℕ} (h : o.Admits (num * size))
    (extra : ℕ) : checked_xcalloc o num size extra = xcalloc num size extra := by
  rw [checked_xcalloc, xcalloc]
  cases hmul : mul_or_abort num size with
  | error e => rfl
  | ok res =>
    obtain ⟨-, rfl⟩ := mul_or_abort_eq_ok.mp hmul
    rw [ok_bind, ok_bind, alloc_limit_assert_eq, if_pos h, ok_bind]

/-- What one of the two grants, the other does. -/
theorem checked_xmalloc_of_checked_xcalloc {o : Options} {num size extra r : ℕ}
    (h : checked_xcalloc o num size extra = .ok r) : checked_xmalloc o num size extra = .ok r := by
  have hadm : o.Admits (num * size) := by
    by_contra hnot
    obtain ⟨e, he⟩ := checked_xcalloc_of_not_admits hnot extra
    rw [he] at h
    cases h
  rw [checked_xcalloc_of_admits hadm] at h
  rw [checked_xmalloc_of_admits hadm]
  exact h

/-! ## Requests in unbounded integers -/

/-- The wrapped sum is smaller than a summand exactly when the sum does not fit. -/
theorem add_extra_eq_ok {res extra r : ℕ} (hres : res < 2 ^ 64) (hextra : extra < 2 ^ 64) :
    add_extra res extra = .ok r ↔ res + extra < 2 ^ 64 ∧ r = res + extra := by
  by_cases hlt : res + extra < 2 ^ 64
  · rw [add_extra_of_lt hlt, Except.ok.injEq, eq_comm, and_iff_right hlt]
  · -- what is left of the sum has lost 2 ^ 64, which is more than `extra`
    have hwrap : (res + extra) % 2 ^ 64 < res := by omega
    rw [add_extra, if_pos hwrap]
    simp only [reduceCtorEq, hlt, false_and]

theorem xmalloc_eq_ok {num size extra r : ℕ} (hextra : extra < 2 ^ 64) :
    xmalloc num size extra = .ok r ↔ num * size + extra < 2 ^ 64 ∧ r = num * size + extra := by
  rw [xmalloc, bind_eq_ok]
  constructor
  · rintro ⟨res, hmul, hadd⟩
    obtain ⟨hres, rfl⟩ := mul_or_abort_eq_ok.mp hmul
    exact (add_extra_eq_ok hres hextra).mp hadd
  · rintro ⟨hlt, rfl⟩
    have hres : num * size < 2 ^ 64 := by omega
    exact ⟨_, mul_or_abort_eq_ok.mpr ⟨hres, rfl⟩, (add_extra_eq_ok hres hextra).mpr ⟨hlt, rfl⟩⟩

/-- The ways an allocator stops the program. -/
def Stopped (x : M ℕ) : Prop := x = .error .abort ∨ x = .error (.exit (-1))

theorem mul_or_abort_stopped {num size : ℕ} {e : Stop} (h : mul_or_abort num size = .error e) :
    e = .abort := by
  unfold mul_or_abort at h
  split at h <;> cases h
  rfl

theorem add_extra_stopped {res extra : ℕ} {e : Stop} (h : add_extra res extra = .error e) :
    e = .abort := by
  unfold add_extra at h
  split_ifs at h
  cases h
  rfl

theorem xmalloc_stopped {num size extra : ℕ} {e : Stop} (h : xmalloc num size extra = .error e) :
    e = .abort := by
  rcases bind_eq_error.mp h with hmul | ⟨res, -, hadd⟩
  · exact mul_or_abort_stopped hmul
  · exact add_extra_stopped hadd

theorem alloc_limit_assert_stopped {o : Options} {size : ℕ} {e : Stop}
    (h : alloc_limit_assert o size = .error e) : e = .exit (-1) := by
  unfold alloc_limit_assert at h
  split_ifs at h
  cases h
  rfl

/-- A request of the two allocators that know the limit, within it or not. -/
theorem checked_eq_ok {o : Options} {num size extra r : ℕ} (hextra : extra < 2 ^ 64) :
    (checked_xmalloc o num size extra = .ok r
      ↔ (num * size + extra < 2 ^ 64 ∧ o.Admits (num * size)) ∧ r = num * size + extra)
    ∧ (checked_xcalloc o num size extra = .ok r
      ↔ (num * size + extra < 2 ^ 64 ∧ o.Admits (num * size)) ∧ r = num * size + extra) := by
  by_cases hadm : o.Admits (num * size)
  · have hcalloc : xcalloc num size extra = xmalloc num size extra := rfl
    rw [checked_xmalloc_of_admits hadm, checked_xcalloc_of_admits hadm, hcalloc,
      xmalloc_eq_ok hextra]
    simp only [hadm, and_true, and_self]
  · obtain ⟨e, he⟩ := checked_xmalloc_of_not_admits hadm extra
    obtain ⟨e', he'⟩ := checked_xcalloc_of_not_admits hadm extra
    rw [he, he']
    simp only [hadm, reduceCtorEq, and_false, false_and, and_self]

theorem checked_xmalloc_stopped {o : Options} {num size extra : ℕ} {e : Stop}
    (h : checked_xmalloc o num size extra = .error e) : e = .abort ∨ e = .exit (-1) := by
  rcases bind_eq_error.mp h with hmul | ⟨res, -, h⟩
  · exact .inl (mul_or_abort_stopped hmul)
  · rcases bind_eq_error.mp h with hadd | ⟨_, -, h⟩
    · exact .inl (add_extra_stopped hadd)
    · rcases bind_eq_error.mp h with hlim | ⟨_, -, h⟩
      · exact .inr (alloc_limit_assert_stopped hlim)
      · exact .inl (xmalloc_stopped h)

theorem checked_xcalloc_stopped {o : Options} {num size extra : ℕ} {e : Stop}
    (h : checked_xcalloc o num size extra = .error e) : e = .abort ∨ e = .exit (-1) := by
  rcases bind_eq_error.mp h with hmul | ⟨res, -, h⟩
  · exact .inl (mul_or_abort_stopped hmul)
  · rcases bind_eq_error.mp h with hlim | ⟨_, -, h⟩
    · exact .inr (alloc_limit_assert_stopped hlim)
    · exact .inl (xmalloc_stopped h)

/-- An allocator never faults: it stops with `exit` or `abort`. -/
theorem checked_xmalloc_ne_fault (o : Options) (num size extra : ℕ) :
    checked_xmalloc o num size extra ≠ .error .fault := by
  intro h
  rcases checked_xmalloc_stopped h with h | h <;> cases h

theorem checked_xcalloc_ne_fault (o : Options) (num size extra : ℕ) :
    checked_xcalloc o num size extra ≠ .error .fault := by
  intro h
  rcases checked_xcalloc_stopped h with h | h <;> cases h

/-- The allocator requests `n` bytes or stops the program, which it does when `refused`. -/
structure Requests (x : M ℕ) (n : ℕ) (refused : Prop) : Prop where
  exact : x = .ok n ∨ Stopped x
  stops : Stopped x ↔ refused

theorem requests_of {x : M ℕ} {n : ℕ} {refused : Prop} (hok : ∀ r, x = .ok r ↔ ¬ refused ∧ r = n)
    (hstop : ∀ e, x = .error e → e = .abort ∨ e = .exit (-1)) : Requests x n refused := by
  have hnever : ∀ r, x = .ok r → ¬ Stopped x := by
    rintro r rfl (h | h) <;> cases h
  match hx : x with
  | .ok r =>
    obtain ⟨hgranted, rfl⟩ := (hok r).mp rfl
    exact ⟨.inl rfl, iff_of_false (hnever r rfl) hgranted⟩
  | .error e =>
    have hstopped : Stopped (.error e) := (hstop e rfl).imp (congrArg _) (congrArg _)
    refine ⟨.inr hstopped, iff_of_true hstopped ?_⟩
    -- a request that is not refused returns
    by_contra hgranted
    cases (hok n).mpr ⟨hgranted, rfl⟩

/-- **Every request is exact or refused.** Whatever wraps on the way, an allocator requests
`num * size + extra` bytes as computed in unbounded integers, and it stops exactly where
these do not fit in `size_t` or, with a limit, the product is above it. -/
theorem allocators_exact (o : Options) {num size extra : ℕ} (hextra : extra < 2 ^ 64) :
    Requests (xmalloc num size extra) (num * size + extra) (num * size + extra ≥ 2 ^ 64)
    ∧ Requests (xcalloc num size extra) (num * size + extra) (num * size + extra ≥ 2 ^ 64)
    ∧ Requests (checked_xmalloc o num size extra) (num * size + extra)
        (num * size + extra ≥ 2 ^ 64 ∨ (o.alloc_limit ≠ 0 ∧ num * size > o.alloc_limit))
    ∧ Requests (checked_xcalloc o num size extra) (num * size + extra)
        (num * size + extra ≥ 2 ^ 64 ∨ (o.alloc_limit ≠ 0 ∧ num * size > o.alloc_limit)) := by
  have hplain : Requests (xmalloc num size extra) (num * size + extra)
      (num * size + extra ≥ 2 ^ 64) := by
    refine requests_of (fun r => ?_) fun e h => .inl (xmalloc_stopped h)
    rw [xmalloc_eq_ok hextra, ge_iff_le, not_le]
  have hgranted : (num * size + extra < 2 ^ 64 ∧ o.Admits (num * size))
      ↔ ¬ (num * size + extra ≥ 2 ^ 64 ∨ (o.alloc_limit ≠ 0 ∧ num * size > o.alloc_limit)) := by
    -- no limit, or a product within it
    unfold Options.Admits
    omega
  refine ⟨hplain, hplain, ?_, ?_⟩
  · refine requests_of (fun r => ?_) fun e h => checked_xmalloc_stopped h
    rw [(checked_eq_ok hextra).1, hgranted]
  · refine requests_of (fun r => ?_) fun e h => checked_xcalloc_stopped h
    rw [(checked_eq_ok hextra).2, hgranted]

/-- Three times 2 ^ 63, which wraps to 2 ^ 63. -/
theorem allocators_exact_witness :
    Requests (xmalloc 3 (2 ^ 63) 1) (3 * 2 ^ 63 + 1) (3 * 2 ^ 63 + 1 ≥ 2 ^ 64) :=
  (allocators_exact {} (by decide)).1

end Tnef
