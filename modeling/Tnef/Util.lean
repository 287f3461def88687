/-
`util.c` and `util.h`: little-endian reads from a byte buffer, the bounds checks
in front of them, and the UTF-16 to UTF-8 conversion.

A pointer `buf + p` is the pair of the buffer and the offset, and a read at an
offset outside the buffer is `fault`. The `int` counters of `unicode_to_utf8` are
exact integers here.
-/
import Tnef.Common
import Tnef.Lib.Slice
import Tnef.Lib.LittleEndian

set_option autoImplicit false

namespace Tnef

open ExceptRules Slice LittleEndian

/-! ## Reading words -/

/-- `buf[i]`. -/
def rd (buf : List UInt8) (i : ℕ) : M UInt8 :=
  match buf[i]? with
  | some b => .ok b
  | none => .error .fault

def GETINT32 (buf : List UInt8) (p : ℕ) : M UInt32 := do
  let q0 ← rd buf p
  let q1 ← rd buf (p + 1)
  let q2 ← rd buf (p + 2)
  let q3 ← rd buf (p + 3)
  return q0.toUInt32 + (q1.toUInt32 <<< 8) + (q2.toUInt32 <<< 16) + (q3.toUInt32 <<< 24)

def GETINT16 (buf : List UInt8) (p : ℕ) : M UInt16 := do
  let q0 ← rd buf p
  let q1 ← rd buf (p + 1)
  return q0.toUInt16 + (q1.toUInt16 <<< 8)

def CHECKINT32 (a b : ℕ) : M Unit := if a + 4 > b then .error (.exit (-1)) else .ok ()

def CHECKINT16 (a b : ℕ) : M Unit := if a + 2 > b then .error (.exit (-1)) else .ok ()

/-! ## `unicode_to_utf8` -/

/-- The bytes one iteration appends for the 16-bit unit `c`. -/
def utf8_unit (c : UInt32) : List UInt8 :=
  if c ≤ 0x007f then
    [((0x00 : UInt32) ||| ((c &&& 0x007f) >>> 0)).toUInt8]
  -- the source excludes U+07FF itself from the two-byte form
  else if c < 0x07ff then
    [((0xc0 : UInt32) ||| ((c &&& 0x07c0) >>> 6)).toUInt8,
     ((0x80 : UInt32) ||| ((c &&& 0x003f) >>> 0)).toUInt8]
  else
    [((0xe0 : UInt32) ||| ((c &&& 0xf000) >>> 12)).toUInt8,
     ((0x80 : UInt32) ||| ((c &&& 0x0fc0) >>> 6)).toUInt8,
     ((0x80 : UInt32) ||| ((c &&& 0x003f) >>> 0)).toUInt8]

/-- `for (i = 0; i < len - 1; i += 2)`, with `utf8` the `j` bytes written so far. -/
def unicode_to_utf8_loop (len : ℕ) (buf : List UInt8) (p i : ℕ) (utf8 : List UInt8) :
    M (List UInt8) :=
  -- `len - 1` truncates at zero; the caller has seen to `len > 0`
  if i < len - 1 then do
    let c ← GETINT16 buf (p + i)
    unicode_to_utf8_loop len buf p (i + 2) (utf8 ++ utf8_unit c.toUInt32)
  else
    .ok utf8
termination_by len - i

/-- The block is `malloc (3 * len/2 + 1)` bytes; a write past it would be a fault. -/
def unicode_to_utf8 (len : ℕ) (buf : List UInt8) (p : ℕ) : M Buffer := do
  let utf8 ← (if len > 0 then unicode_to_utf8_loop len buf p 0 [] else .ok [] : M _)
  Buffer.fill (3 * len / 2 + 1) (utf8 ++ [0])

/-! ## What the reads return -/

theorem rd_eq_ok {buf : List UInt8} {i : ℕ} {b : UInt8} : rd buf i = .ok b ↔ buf[i]? = some b := by
  unfold rd
  split <;> simp_all

theorem rd_of_at {buf bs : List UInt8} {i k : ℕ} {b : UInt8} (h : At buf i bs)
    (hk : bs[k]? = some b) : rd buf (i + k) = .ok b := by
  rw [rd_eq_ok, h.getElem? (List.getElem?_eq_some_iff.mp hk).1, hk]

theorem rd_of_lt {buf : List UInt8} {i : ℕ} (h : i < buf.length) : rd buf i = .ok buf[i] := by
  rw [rd_eq_ok, List.getElem?_eq_getElem h]

theorem rd_of_le {buf : List UInt8} {i : ℕ} (h : buf.length ≤ i) : rd buf i = .error .fault := by
  unfold rd
  rw [List.getElem?_eq_none h]

/-- A 32-bit word laid down at `i` is what `GETINT32` reads there. -/
theorem GETINT32_of_at {buf : List UInt8} {i : ℕ} {x : UInt32} (h : At buf i (le32 x)) :
    GETINT32 buf i = .ok x := by
  have h0 : rd buf i = .ok x.toUInt8 := rd_of_at (k := 0) h rfl
  have h1 := rd_of_at (k := 1) h rfl
  have h2 := rd_of_at (k := 2) h rfl
  have h3 := rd_of_at (k := 3) h rfl
  simp only [GETINT32, h0, h1, h2, h3, ok_bind, pure_eq_ok]
  exact congrArg Except.ok (ofLe32_le32 x)

theorem GETINT16_of_at {buf : List UInt8} {i : ℕ} {x : UInt16} (h : At buf i (le16 x)) :
    GETINT16 buf i = .ok x := by
  have h0 : rd buf i = .ok x.toUInt8 := rd_of_at (k := 0) h rfl
  have h1 := rd_of_at (k := 1) h rfl
  simp only [GETINT16, h0, h1, ok_bind, pure_eq_ok]
  exact congrArg Except.ok (ofLe16_le16 x)

/-- Four bytes inside the buffer are some word. -/
theorem GETINT32_of_le {buf : List UInt8} {i : ℕ} (h : i + 4 ≤ buf.length) :
    ∃ x, GETINT32 buf i = .ok x ∧ At buf i (le32 x) := by
  refine ⟨ofLe32 buf[i] buf[i + 1] buf[i + 2] buf[i + 3], ?_, ?_⟩
  · simp only [GETINT32, rd_of_lt (show i < buf.length by omega),
      rd_of_lt (show i + 1 < buf.length by omega), rd_of_lt (show i + 2 < buf.length by omega),
      rd_of_lt (show i + 3 < buf.length by omega), ok_bind, pure_eq_ok, ofLe32]
  · have hcut := at_take_drop buf i 4 h
    rw [le32_ofLe32]
    convert hcut using 1
    apply List.ext_getElem (by simp; omega)
    intro k hk _
    rcases k with _ | _ | _ | _ | k
    · simp
    · simp
    · simp
    · simp
    · exact absurd hk (by simp)

theorem GETINT16_of_le {buf : List UInt8} {i : ℕ} (h : i + 2 ≤ buf.length) :
    ∃ x, GETINT16 buf i = .ok x ∧ At buf i (le16 x) := by
  refine ⟨ofLe16 buf[i] buf[i + 1], ?_, ?_⟩
  · simp only [GETINT16, rd_of_lt (show i < buf.length by omega),
      rd_of_lt (show i + 1 < buf.length by omega), ok_bind, pure_eq_ok, ofLe16]
  · have hcut := at_take_drop buf i 2 h
    rw [le16_ofLe16]
    convert hcut using 1
    apply List.ext_getElem (by simp; omega)
    intro k hk _
    rcases k with _ | _ | k
    · simp
    · simp
    · exact absurd hk (by simp)

/-- A word read is a word that lies there. -/
theorem GETINT32_eq_ok {buf : List UInt8} {i : ℕ} {x : UInt32} :
    GETINT32 buf i = .ok x ↔ At buf i (le32 x) := by
  refine ⟨fun h => ?_, GETINT32_of_at⟩
  have hlen : i + 4 ≤ buf.length := by
    -- otherwise the last of the four bytes could not be read
    by_contra hlt
    simp only [GETINT32, bind_eq_ok, rd_eq_ok, List.getElem?_eq_some_iff] at h
    obtain ⟨_, _, _, _, _, _, _, ⟨h3, _⟩, _⟩ := h
    omega
  obtain ⟨y, hy, hat⟩ := GETINT32_of_le hlen
  rw [hy] at h
  cases h
  exact hat

theorem GETINT16_eq_ok {buf : List UInt8} {i : ℕ} {x : UInt16} :
    GETINT16 buf i = .ok x ↔ At buf i (le16 x) := by
  refine ⟨fun h => ?_, GETINT16_of_at⟩
  have hlen : i + 2 ≤ buf.length := by
    by_contra hlt
    simp only [GETINT16, bind_eq_ok, rd_eq_ok, List.getElem?_eq_some_iff] at h
    obtain ⟨_, _, _, ⟨h1, _⟩, _⟩ := h
    omega
  obtain ⟨y, hy, hat⟩ := GETINT16_of_le hlen
  rw [hy] at h
  cases h
  exact hat

theorem CHECKINT32_eq_ok {a b : ℕ} {u : Unit} : CHECKINT32 a b = .ok u ↔ a + 4 ≤ b := by
  unfold CHECKINT32
  split_ifs with h <;> simp <;> omega

theorem CHECKINT16_eq_ok {a b : ℕ} {u : Unit} : CHECKINT16 a b = .ok u ↔ a + 2 ≤ b := by
  unfold CHECKINT16
  split_ifs with h <;> simp <;> omega

theorem CHECKINT32_of_le {a b : ℕ} (h : a + 4 ≤ b) : CHECKINT32 a b = .ok () :=
  CHECKINT32_eq_ok.mpr h

theorem CHECKINT16_of_le {a b : ℕ} (h : a + 2 ≤ b) : CHECKINT16 a b = .ok () :=
  CHECKINT16_eq_ok.mpr h

/-- The checks stop with `exit`, never with a bad access. -/
theorem CHECKINT32_ne_fault (a b : ℕ) : CHECKINT32 a b ≠ .error .fault := by
  unfold CHECKINT32
  split_ifs <;> simp

theorem CHECKINT16_ne_fault (a b : ℕ) : CHECKINT16 a b ≠ .error .fault := by
  unfold CHECKINT16
  split_ifs <;> simp

/-! ## What the conversion returns -/

/-- The conversion of a list of bytes, two at a time; a stray last byte is dropped. -/
def utf8_units : List UInt8 → List UInt8
  | b₀ :: b₁ :: rest => utf8_unit (ofLe16 b₀ b₁).toUInt32 ++ utf8_units rest
  | _ => []

theorem utf8_unit_length_le (c : UInt32) : (utf8_unit c).length ≤ 3 := by
  unfold utf8_unit
  split_ifs <;> simp

/-- Three bytes a unit at most: this is the bound the allocation rests on. -/
theorem utf8_units_length_le (bs : List UInt8) : 2 * (utf8_units bs).length ≤ 3 * bs.length := by
  induction bs using utf8_units.induct with
  | case1 b₀ b₁ rest ih =>
    have hunit := utf8_unit_length_le (ofLe16 b₀ b₁).toUInt32
    simp only [utf8_units, List.length_append, List.length_cons]
    omega
  | case2 bs h =>
    rw [utf8_units]
    · simp
    · exact h

/-- The block `unicode_to_utf8` returns for the bytes `bs`: the text, its
terminator, and the rest of the allocation unwritten. -/
def utf8_block (bs : List UInt8) : Buffer :=
  ⟨3 * bs.length / 2 + 1, utf8_units bs ++ [0], by
    have h := utf8_units_length_le bs
    simp only [List.length_append, List.length_singleton]
    omega⟩

@[simp] theorem utf8_block_bytes (bs : List UInt8) :
    (utf8_block bs).bytes = utf8_units bs ++ [0] := rfl

@[simp] theorem utf8_block_size (bs : List UInt8) :
    (utf8_block bs).size = 3 * bs.length / 2 + 1 := rfl

section Units

variable {bs : List UInt8} {i : ℕ}

/-- The unit at `i` of a block: both of its bytes lie inside. -/
theorem GETINT16_of_block {buf : List UInt8} {p : ℕ} (h : At buf p bs) (hi : i + 1 < bs.length) :
    GETINT16 buf (p + i) = .ok (ofLe16 bs[i] bs[i + 1]) := by
  have h0 := rd_of_at h (List.getElem?_eq_getElem (show i < bs.length by omega))
  have h1 := rd_of_at h (List.getElem?_eq_getElem hi)
  rw [← Nat.add_assoc] at h1
  simp only [GETINT16, h0, h1, ok_bind, pure_eq_ok, ofLe16]

theorem utf8_units_drop (hi : i + 1 < bs.length) : utf8_units (bs.drop i)
    = utf8_unit (ofLe16 bs[i] bs[i + 1]).toUInt32 ++ utf8_units (bs.drop (i + 2)) := by
  rw [List.drop_eq_getElem_cons (show i < bs.length by omega), List.drop_eq_getElem_cons hi,
    utf8_units]

/-- What is left at the end is nothing, or the stray last byte. -/
theorem utf8_units_drop_end (hi : bs.length ≤ i + 1) : utf8_units (bs.drop i) = [] := by
  have hshort : (bs.drop i).length ≤ 1 := by
    rw [List.length_drop]
    omega
  match hd : bs.drop i, hshort with
  | [], _ => simp [utf8_units]
  | [b], _ => simp [utf8_units]

end Units

/-- The loop from index `i` converts the bytes of the block from `i` on. -/
theorem unicode_to_utf8_loop_spec {buf bs : List UInt8} {p : ℕ} (h : At buf p bs)
    (i : ℕ) (utf8 : List UInt8) :
    unicode_to_utf8_loop bs.length buf p i utf8 = .ok (utf8 ++ utf8_units (bs.drop i)) := by
  induction i, utf8 using unicode_to_utf8_loop.induct bs.length with
  | case1 i utf8 hi ih =>
    have hunit : i + 1 < bs.length := by omega
    rw [unicode_to_utf8_loop, if_pos hi, GETINT16_of_block h hunit, ok_bind, ih,
      utf8_units_drop hunit, List.append_assoc]
  | case2 i utf8 hi =>
    rw [unicode_to_utf8_loop, if_neg hi, utf8_units_drop_end (by omega), List.append_nil]

/-- **`unicode_to_utf8`** on a block inside the buffer returns `utf8_block` of it:
every read is inside the block, and the result fits the allocation. -/
theorem unicode_to_utf8_of_at {buf bs : List UInt8} {p : ℕ} (h : At buf p bs) :
    unicode_to_utf8 bs.length buf p = .ok (utf8_block bs) := by
  have hloop : (if bs.length > 0 then unicode_to_utf8_loop bs.length buf p 0 [] else .ok [])
      = (.ok (utf8_units bs) : M (List UInt8)) := by
    by_cases hpos : bs.length > 0
    · rw [if_pos hpos, unicode_to_utf8_loop_spec h 0 [], List.drop_zero, List.nil_append]
    · have hnil : bs = [] := List.length_eq_zero_iff.mp (by omega)
      rw [if_neg hpos, hnil, utf8_units]
      simp
  rw [unicode_to_utf8, hloop, ok_bind]
  exact Buffer.fill_of_le (utf8_block bs).fits

end Tnef
