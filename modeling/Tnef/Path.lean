/-
`path.c` and `xstrdup.c`: from the name of an attachment to a path in the file system.

A C string is the list of its bytes without the terminator, and NULL is `none`.
`iscntrl` is that of the C locale, which `main` never leaves. `concat_fname` keeps
lengths in an `int`: a sum of lengths is cut down once, since that is what cutting down
each of them comes to, while an `int` sum that overflows is a fault, and so is copying
into a block that has become too small.
-/
import Tnef.Attr

set_option autoImplicit false

namespace Tnef

open ExceptRules

abbrev slash : UInt8 := 0x2f
abbrev backslash : UInt8 := 0x5c
abbrev dot : UInt8 := 0x2e
abbrev percent : UInt8 := 0x25

/-! ## Strings -/

/-- The index of the last `c`. -/
def rindex (s : List UInt8) (c : UInt8) : Option ℕ :=
  if c ∈ s then some (s.length - 1 - s.reverse.idxOf c) else none

def iscntrl (c : UInt8) : Bool := c < 0x20 ∨ c = 0x7f

def isascii (c : UInt8) : Bool := c < 0x80

def xstrdup (o : Options) (str : Option (List UInt8)) : M (Option (List UInt8)) :=
  match str with
  | none => .ok none
  | some str => do
    alloc_limit_assert o str.length
    return some str

/-! ## Joining two names -/

/-- `while ((len=strlen(filename)) > 0)`, with `len` an `int`. -/
def strip_slashes (filename : List UInt8) : List UInt8 :=
  let len := toInt filename.length
  if 0 < len then
    if filename[(len - 1).toNat]? = some slash then strip_slashes (filename.take (len - 1).toNat)
    else filename
  else filename
termination_by filename.length
decreasing_by
  next hidx =>
    obtain ⟨hlt, -⟩ := List.getElem?_eq_some_iff.mp hidx
    rw [List.length_take]
    omega

/-- `fname1` followed by `fname2`, with a '/' between them where neither has one. -/
def join_fname (fname1 : List UInt8) (fname2 : Option (List UInt8)) : List UInt8 :=
  match fname2 with
  | none => fname1
  | some fname2 =>
    if fname1.getLast? ≠ some slash ∧ fname2.head? ≠ some slash then fname1 ++ slash :: fname2
    else fname1 ++ fname2

/-- `fname1` with something in it: the sum of the lengths is an `int`, and so is the size
requested of the allocator. -/
def concat_nonempty (o : Options) (fname1 : List UInt8) (fname2 : Option (List UInt8)) :
    M (List UInt8) := do
  let len := toInt (fname1.length + (fname2.getD []).length)
  if len + 2 < 2 ^ 31 then
    let size ← checked_xmalloc o ((len + 2) % 2 ^ 64).toNat 1 0
    let _ ← Buffer.fill size (join_fname fname1 fname2 ++ [0])
    return join_fname fname1 fname2
  else
    throw .fault

/-- The two names copied together. An empty `fname1` counts as none; with no `fname2`
either, the `strlen` that follows reads NULL. -/
def copy_fnames (o : Options) (fname1 fname2 : Option (List UInt8)) : M (List UInt8) :=
  match fname1.getD [] with
  | [] => do
    match ← xstrdup o fname2 with
    | none => throw .fault
    | some filename => return filename
  | fname1 => concat_nonempty o fname1 fname2

def concat_fname (o : Options) (fname1 fname2 : Option (List UInt8)) :
    M (Option (List UInt8)) :=
  if fname1 = none ∧ fname2 = none then .ok none
  else do
    let filename ← copy_fnames o fname1 fname2
    if strip_slashes filename = [] then
      return none
    else
      return some (strip_slashes filename)

/-! ## A free number -/

/-- `fname.counter`. -/
def numbered (fname : List UInt8) (counter : ℕ) : List UInt8 :=
  fname ++ dot :: ascii counter.repr

theorem ascii_length (s : String) : (ascii s).length = s.length := by
  rw [ascii, List.length_map, String.length_toList]

theorem numbered_length_le_iff {fname : List UInt8} {counter k : ℕ} (hk : 0 < k) :
    (numbered fname counter).length ≤ fname.length + (k + 1) ↔ counter < 10 ^ k := by
  rw [numbered, List.length_append, List.length_cons, ascii_length, ← Nat.length_repr_le_iff hk]
  omega

/-- The `do ... while (file_exists (tmp))` loop. The block has room for a point, five
digits and a terminator. -/
def find_free_number_loop (file_exists : List UInt8 → Bool) (fname : List UInt8) (counter : ℕ) :
    M (List UInt8) :=
  if _hfits : (numbered fname counter).length + 1 ≤ fname.length + 1 + 5 + 1 then
    if file_exists (numbered fname counter) then
      find_free_number_loop file_exists fname (counter + 1)
    else .ok (numbered fname counter)
  else .error .fault
termination_by 10 ^ 5 - counter
decreasing_by
  have hlen : (numbered fname counter).length ≤ fname.length + (5 + 1) := by omega
  have hlt := (numbered_length_le_iff (by omega)).mp hlen
  omega

def find_free_number (o : Options) (file_exists : List UInt8 → Bool) (fname : List UInt8) :
    M (List UInt8) := do
  let _ ← checked_xmalloc o (fname.length + 1 + 5 + 1) 1 0
  find_free_number_loop file_exists fname 1

/-! ## Sanitizing -/

/-- `\ / : * ? " < > |`. -/
def unsanitary_windows_chars : List UInt8 :=
  [0x5c, 0x2f, 0x3a, 0x2a, 0x3f, 0x22, 0x3c, 0x3e, 0x7c]

/-- A space and `; [ ] { } ( )` with the backquote and the quote. -/
def unsavory_unix_chars : List UInt8 :=
  [0x20, 0x3b, 0x60, 0x27, 0x5b, 0x5d, 0x7b, 0x7d, 0x28, 0x29]

/-- A backslash somewhere, but not at the end; nothing unsanitary, nothing unprintable. -/
def could_be_a_windows_path (fname : List UInt8) : Bool :=
  match rindex fname backslash with
  | none => false
  | some up =>
    if up + 1 = fname.length then false
    else if ∃ up ∈ unsanitary_windows_chars, up ≠ backslash ∧ up ∈ fname then false
    else if ∃ up ∈ fname, iscntrl up then false
    else true

def hex_digits : List UInt8 := ascii "0123456789ABCDEF"

abbrev SLOP : ℕ := 4

/-- The character is kept as it is. -/
def stet (o : Options) (c : UInt8) : Bool :=
  if iscntrl c then false
  else if c ∈ unsanitary_windows_chars then false
  else if o.unix_paths ∧ (¬ isascii c ∨ c ∈ unsavory_unix_chars) then false
  else if c = percent then false
  else true

/-- What a turn of the loop of `sanitize_filename` appends. -/
def sanitize_char (o : Options) (c : UInt8) : List UInt8 :=
  if stet o c then [c]
  else [percent, hex_digits.getD (c >>> 4 &&& 0xf).toNat 0, hex_digits.getD (c &&& 0xf).toNat 0]

def sanitize_filename (o : Options) (fname : List UInt8) : M (List UInt8) :=
  if fname = [] then do
    let _ ← checked_xcalloc o SLOP 1 0
    return []
  else do
    let size ← checked_xcalloc o (3 * fname.length + SLOP) 1 0
    let _ ← Buffer.fill size (fname.flatMap (sanitize_char o) ++ [0])
    return fname.flatMap (sanitize_char o)

/-! ## The path of a name -/

/-- `dir` and `base`, as `munge_fname` splits a name; `none` is NULL. -/
def split_fname (o : Options) (fname : List UInt8) : Option (List UInt8) × List UInt8 :=
  if o.paths then
    match rindex fname backslash, could_be_a_windows_path fname with
    | some p, true =>
      let dir := (fname.take (p + 1)).map fun p => if p = backslash then slash else p
      let base := fname.drop (p + 1)
      -- leading slashes go, and with nothing else in front of the base so does `dir`
      if dir.head? = some slash ∧ ¬ o.absolute_paths then
        match dir.dropWhile (· = slash) with
        | [] => (none, base)
        | dir => (some dir, base)
      else (some dir, base)
    -- not a Windows path: the whole name is the base
    | _, _ => (none, fname)
  else
    (none, fname)

def munge_fname (o : Options) (fname : Option (List UInt8)) : M (Option (List UInt8)) :=
  match fname.getD [] with
  | [] => .ok none
  | fname => do
    let (dir, base) := split_fname o fname
    let base ← sanitize_filename o base
    match ← concat_fname o dir (some base) with
    | some [] => return none
    | p => return p

end Tnef
