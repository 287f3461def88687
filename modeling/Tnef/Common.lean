/-
What every module of the model shares: how a run stops, the program options,
and the bounded heap blocks the functions hand to each other.

A C function that may leave the program is a computation in `M`. Undefined
behaviour is a way of stopping too: an access outside an allocation is `fault`,
so "every access is in range" is the statement that a run does not end in
`fault`, and nothing is assumed about what the bytes beyond a buffer are.

Sizes and cursors are natural numbers. Where the source subtracts or multiplies
`size_t` values and the wrap-around decides what happens, the definition carries
an explicit `2 ^ 64`; where a C `int` holds a length, `toInt` cuts it down.
-/
import Tnef.Lib.Except

set_option autoImplicit false

namespace Tnef

open ExceptRules

/-! ## Stopping -/

/-- The ways a run ends before its function returns. -/
inductive Stop
  /-- `exit (code)`. -/
  | exit (code : ℤ)
  /-- A failed `assert`. -/
  | assertion
  /-- `abort ()`. -/
  | abort
  /-- An access outside an allocation, or to bytes nothing has written. -/
  | fault
  deriving DecidableEq, Repr

abbrev M (α : Type) := Except Stop α

def assert (p : Prop) [Decidable p] : M Unit :=
  if p then .ok () else .error .assertion

theorem assert_eq_ok {p : Prop} [Decidable p] {u : Unit} : assert p = .ok u ↔ p := by
  unfold assert
  split <;> simp [*]

theorem assert_eq_error {p : Prop} [Decidable p] {e : Stop} :
    assert p = .error e ↔ ¬ p ∧ e = .assertion := by
  unfold assert
  split
  · simp [*]
  · simp [*, eq_comm]

theorem assert_ne_fault (p : Prop) [Decidable p] : assert p ≠ .error .fault := by
  unfold assert
  split <;> simp

@[simp] theorem assert_of {p : Prop} [Decidable p] (h : p) : assert p = .ok () :=
  assert_eq_ok.mpr h

/-- The value an `int` holds after a conversion from `size_t`. -/
def toInt (n : ℕ) : ℤ := Int.bmod n (2 ^ 32)

/-! ## Options -/

/-- `g_flags` and `alloc_limit`: the two globals set before parsing starts. Each
Boolean is one bit of the flag word in `options.h`. -/
structure Options where
  verbose : Bool := false
  dbg_out : Bool := false
  list : Bool := false
  paths : Bool := false
  overwrite : Bool := false
  confirm : Bool := false
  numbered : Bool := false
  savebody : Bool := false
  listmime : Bool := false
  checksum_ok : Bool := false
  encode_ok : Bool := false
  cruft_ok : Bool := false
  unix_paths : Bool := false
  absolute_paths : Bool := false
  alloc_limit : ℕ := 0
  deriving DecidableEq, Repr

/-- The limit lets a request of `n` bytes through; `0` is no limit. -/
def Options.Admits (o : Options) (n : ℕ) : Prop := o.alloc_limit = 0 ∨ n ≤ o.alloc_limit

instance (o : Options) (n : ℕ) : Decidable (o.Admits n) := inferInstanceAs (Decidable (_ ∨ _))

/-! ## Heap blocks -/

/-- An allocation of `size` bytes of which the first `bytes.length` have been
written; what lies behind them is indeterminate. -/
structure Buffer where
  size : ℕ
  bytes : List UInt8
  fits : bytes.length ≤ size
  deriving DecidableEq, Repr

namespace Buffer

/-- A block every byte of which has been written. -/
def full (bytes : List UInt8) : Buffer := ⟨bytes.length, bytes, le_rfl⟩

/-- Writing `bytes` from the start of a fresh block of `size` bytes. -/
def fill (size : ℕ) (bytes : List UInt8) : M Buffer :=
  if h : bytes.length ≤ size then .ok ⟨size, bytes, h⟩ else .error .fault

/-- A fresh block of `n` bytes holding the first `n` bytes of `b`
(`malloc (n)` and `memmove`). Indeterminate bytes stay indeterminate. -/
def copy (b : Buffer) (n : ℕ) : M Buffer :=
  if n ≤ b.size then .ok ⟨n, b.bytes.take n, by rw [List.length_take]; omega⟩
  else .error .fault

/-- The `n` bytes a consumer such as `fwrite` reads from the start. -/
def read (b : Buffer) (n : ℕ) : M (List UInt8) :=
  if n ≤ b.bytes.length then .ok (b.bytes.take n) else .error .fault

/-- A terminator lies among the written bytes. -/
def Terminated (b : Buffer) : Prop := 0 ∈ b.bytes

instance (b : Buffer) : Decidable b.Terminated := inferInstanceAs (Decidable (_ ∈ _))

/-- The bytes before the first NUL. -/
def text (b : Buffer) : List UInt8 := b.bytes.takeWhile (· ≠ 0)

/-- Reading the block as a C string: without a terminator the read runs past
what has been written. -/
def c_str (b : Buffer) : M (List UInt8) :=
  if b.Terminated then .ok b.text else .error .fault

end Buffer

/-- A fresh, terminated copy of a C string. -/
def strdup (s : List UInt8) : Buffer := .full (s ++ [0])

@[simp] theorem Buffer.full_bytes (bs : List UInt8) : (Buffer.full bs).bytes = bs := rfl

@[simp] theorem Buffer.full_size (bs : List UInt8) : (Buffer.full bs).size = bs.length := rfl

theorem Buffer.fill_of_le {size : ℕ} {bs : List UInt8} (h : bs.length ≤ size) :
    Buffer.fill size bs = .ok ⟨size, bs, h⟩ := dif_pos h

theorem Buffer.copy_of_le {b : Buffer} {n : ℕ} (h : n ≤ b.size) :
    b.copy n = .ok ⟨n, b.bytes.take n, by rw [List.length_take]; omega⟩ := if_pos h

theorem strdup_terminated (s : List UInt8) : (strdup s).Terminated := by
  simp [strdup, Buffer.Terminated]

end Tnef
