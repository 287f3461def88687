/-
`mapi_attr.c`: the MAPI property list inside an attMAPIPROPS or attATTACHMENT
attribute.

`mapi_attr_read` is one function of nested loops in the source; it is cut here
along those loops, each with the cursor `idx` passed in and out. The property
list is `none` where the source returns NULL from the middle of the loops.
`mapi_attr_dump`, which the source calls under `--debug`, only prints what has
been stored and is left out; with it the function returns the same
(`mapi_attr_read_dump_eq`).

The cursor is an exact natural number; the one place where the source subtracts
it from `len`, and where it can have run past `len`, wraps as `size_t` does.
-/
import Tnef.Alloc
import Tnef.Util

set_option autoImplicit false

namespace Tnef

open ExceptRules

/-! ## Types -/

abbrev szMAPI_NULL : UInt16 := 0x0001
abbrev szMAPI_SHORT : UInt16 := 0x0002
abbrev szMAPI_INT : UInt16 := 0x0003
abbrev szMAPI_FLOAT : UInt16 := 0x0004
abbrev szMAPI_DOUBLE : UInt16 := 0x0005
abbrev szMAPI_CURRENCY : UInt16 := 0x0006
abbrev szMAPI_APPTIME : UInt16 := 0x0007
abbrev szMAPI_BOOLEAN : UInt16 := 0x000b
abbrev szMAPI_OBJECT : UInt16 := 0x000d
abbrev szMAPI_INT8BYTE : UInt16 := 0x0014
abbrev szMAPI_STRING : UInt16 := 0x001e
abbrev szMAPI_UNICODE_STRING : UInt16 := 0x001f
abbrev szMAPI_SYSTIME : UInt16 := 0x0040
abbrev szMAPI_CLSID : UInt16 := 0x0048
abbrev szMAPI_BINARY : UInt16 := 0x0102

abbrev MULTI_VALUE_FLAG : UInt16 := 0x1000
abbrev GUID_EXISTS_FLAG : UInt16 := 0x8000

abbrev MAPI_RTF_COMPRESSED : UInt32 := 0x1009
abbrev MAPI_BODY_HTML : UInt32 := 0x1013
abbrev MAPI_ATTACH_DATA_OBJ : UInt32 := 0x3701
abbrev MAPI_ATTACH_LONG_FILENAME : UInt32 := 0x3707
abbrev MAPI_ATTACH_MIME_TAG : UInt32 := 0x370e
abbrev MAPI_ATTACH_CONTENT_ID : UInt32 := 0x3712

/-- A GUID as `copy_guid_from_buf` stores it; `data4` is an array of eight. -/
structure GUID where
  data1 : UInt32
  data2 : UInt16
  data3 : UInt16
  data4 : List UInt8
  data4_length : data4.length = 8
  deriving DecidableEq, Repr

/-- The `data` union of a `MAPI_Value`; `zero` is the state `calloc` leaves. -/
inductive MAPI_Data
  | zero
  | buf (b : Buffer)
  | bytes2 (v : UInt16)
  | bytes4 (v : UInt32)
  | bytes8 (v₀ v₁ : UInt32)
  | guid (g : GUID)
  deriving DecidableEq, Repr

structure MAPI_Value where
  len : ℕ := 0
  data : MAPI_Data := .zero
  deriving DecidableEq, Repr

structure VarLenData where
  len : ℕ
  data : Buffer
  deriving DecidableEq, Repr

structure MAPI_Attr where
  type : UInt16
  name : UInt32
  num_values : ℕ := 0
  values : List MAPI_Value := []
  guid : Option GUID := none
  num_names : ℕ := 0
  names : List VarLenData := []
  deriving DecidableEq, Repr

/-- `sizeof` of the types above and of a pointer, on a 64-bit target. -/
abbrev sizeof_ptr : ℕ := 8
abbrev sizeof_GUID : ℕ := 16
abbrev sizeof_VarLenData : ℕ := 16
abbrev sizeof_MAPI_Value : ℕ := 24
abbrev sizeof_MAPI_Attr : ℕ := 48

/-! ## Pieces -/

/-- `(length+3) & ~3`. -/
def pad_to_4byte (length : ℕ) : ℕ := (length + 3) / 4 * 4

/-- `a - b` on `size_t`. -/
def size_sub (a b : ℕ) : ℕ := (a + 2 ^ 64 - b) % 2 ^ 64

/-- The bytes `memmove (_, buf + p, n)` reads. -/
def rd_block (buf : List UInt8) (p n : ℕ) : M (List UInt8) :=
  if p + n ≤ buf.length then .ok ((buf.drop p).take n) else .error .fault

/-- `copy_guid_from_buf (guid, buf + p, len)`, the eight-step loop written out. -/
def copy_guid_from_buf (buf : List UInt8) (p len : ℕ) : M GUID := do
  assert (len ≥ 16)
  CHECKINT32 0 len
  let data1 ← GETINT32 buf p
  CHECKINT16 4 len
  let data2 ← GETINT16 buf (p + 4)
  CHECKINT16 6 len
  let data3 ← GETINT16 buf (p + 6)
  let b0 ← rd buf (p + 8)
  let b1 ← rd buf (p + 9)
  let b2 ← rd buf (p + 10)
  let b3 ← rd buf (p + 11)
  let b4 ← rd buf (p + 12)
  let b5 ← rd buf (p + 13)
  let b6 ← rd buf (p + 14)
  let b7 ← rd buf (p + 15)
  return ⟨data1, data2, data3, [b0, b1, b2, b3, b4, b5, b6, b7], rfl⟩

/-! ## Values -/

/-- The state of the value loop: the cursor, the value array, and the index of
the element `v` points to. -/
structure ValueState where
  idx : ℕ
  values : List MAPI_Value
  v : ℕ
  deriving DecidableEq, Repr

/-- Writing through `v`, then moving the cursor by `adv` and `v` by `step`. -/
def ValueState.store (s : ValueState) (x : MAPI_Value) (adv step : ℕ) : M ValueState :=
  if s.v < s.values.length then .ok ⟨s.idx + adv, s.values.set s.v x, s.v + step⟩
  else .error .fault

/-- The case of strings, objects and binaries: a length, the bytes, padding. -/
def read_buf_value (o : Options) (len : ℕ) (buf : List UInt8) (type : UInt16)
    (s : ValueState) : M ValueState := do
  CHECKINT32 s.idx len
  let vlen ← GETINT32 buf s.idx
  let idx := s.idx + 4
  assert (vlen.toNat + idx ≤ len)
  if type = szMAPI_UNICODE_STRING then
    assert (vlen ≠ 0)
    let b ← unicode_to_utf8 vlen.toNat buf idx
    s.store ⟨vlen.toNat, .buf b⟩ (4 + pad_to_4byte vlen.toNat) 1
  else
    -- one byte more than the length, for a terminator
    let _ ← checked_xmalloc o vlen.toNat 1 1
    let bytes ← rd_block buf idx vlen.toNat
    s.store ⟨vlen.toNat, .buf (.full (bytes ++ [0]))⟩ (4 + pad_to_4byte vlen.toNat) 1

/-- One turn of the value loop: the `switch (a->type)`. Only some cases move `v`. -/
def read_value (o : Options) (len : ℕ) (buf : List UInt8) (type : UInt16)
    (s : ValueState) : M (Option ValueState) :=
  if type = szMAPI_SHORT then do
    CHECKINT16 s.idx len
    let x ← GETINT16 buf s.idx
    return some (← s.store ⟨2, .bytes2 x⟩ 4 0)
  else if type = szMAPI_INT then do
    CHECKINT32 s.idx len
    let x ← GETINT32 buf s.idx
    return some (← s.store ⟨4, .bytes4 x⟩ 4 1)
  else if type = szMAPI_FLOAT ∨ type = szMAPI_BOOLEAN then do
    CHECKINT32 s.idx len
    let x ← GETINT32 buf s.idx
    return some (← s.store ⟨4, .bytes4 x⟩ 4 0)
  else if type = szMAPI_SYSTIME then do
    CHECKINT32 s.idx len
    let x₀ ← GETINT32 buf s.idx
    CHECKINT32 (s.idx + 4) len
    let x₁ ← GETINT32 buf (s.idx + 4)
    return some (← s.store ⟨8, .bytes8 x₀ x₁⟩ 8 1)
  else if type = szMAPI_DOUBLE ∨ type = szMAPI_APPTIME ∨ type = szMAPI_CURRENCY
      ∨ type = szMAPI_INT8BYTE then do
    CHECKINT32 s.idx len
    let x₀ ← GETINT32 buf s.idx
    CHECKINT32 (s.idx + 4) len
    let x₁ ← GETINT32 buf (s.idx + 4)
    return some (← s.store ⟨8, .bytes8 x₀ x₁⟩ 8 0)
  else if type = szMAPI_CLSID then do
    -- no check of its own: the length handed on is `len - idx`
    let g ← copy_guid_from_buf buf s.idx (size_sub len s.idx)
    return some (← s.store ⟨sizeof_GUID, .guid g⟩ sizeof_GUID 0)
  else if type = szMAPI_STRING ∨ type = szMAPI_UNICODE_STRING ∨ type = szMAPI_OBJECT
      ∨ type = szMAPI_BINARY then do
    return some (← read_buf_value o len buf type s)
  else
    -- null, error, unspecified and undefined types
    if o.encode_ok then .ok none else .error (.exit 1)

/-- `for (j = 0; j < num_values; j++)`, with `n` turns to go. -/
def read_values (o : Options) (len : ℕ) (buf : List UInt8) (type : UInt16) :
    ℕ → ValueState → M (Option ValueState)
  | 0, s => .ok (some s)
  | n + 1, s => do
    match ← read_value o len buf type s with
    | none => .ok none
    | some s' => read_values o len buf type n s'

/-! ## Properties -/

/-- The loop over the names of a GUID-named property, with `n` names to go. -/
def read_names (len : ℕ) (buf : List UInt8) :
    ℕ → ℕ → List VarLenData → M (ℕ × List VarLenData)
  | 0, idx, names => .ok (idx, names)
  | n + 1, idx, names => do
    CHECKINT32 idx len
    let nlen ← GETINT32 buf idx
    let idx := idx + 4
    assert (nlen ≠ 0)
    assert (idx + nlen.toNat ≤ len)
    let data ← unicode_to_utf8 nlen.toNat buf idx
    read_names len buf n (idx + pad_to_4byte nlen.toNat) (names ++ [⟨nlen.toNat, data⟩])

/-- The GUID block of a property whose name has bit `0x8000`. -/
def read_guid_block (o : Options) (len : ℕ) (buf : List UInt8) (a : MAPI_Attr) (idx : ℕ) :
    M (MAPI_Attr × ℕ) := do
  let _ ← checked_xmalloc o 1 sizeof_GUID 0
  -- the cursor has just been checked, so `len - idx` does not wrap here
  let guid ← copy_guid_from_buf buf idx (size_sub len idx)
  let idx := idx + sizeof_GUID
  CHECKINT32 idx len
  let num_names ← GETINT32 buf idx
  let idx := idx + 4
  if num_names > 0 then
    let _ ← checked_xcalloc o num_names.toNat sizeof_VarLenData 0
    let (idx, names) ← read_names len buf num_names.toNat idx []
    return ({ a with guid := some guid, num_names := num_names.toNat, names := names }, idx)
  else
    -- a count of zero: the number takes the place of the name
    CHECKINT32 idx len
    let name ← GETINT32 buf idx
    return ({ a with guid := some guid, name := name }, idx + 4)

/-- A property up to its values: type, name and, where there is one, GUID block. -/
def read_header (o : Options) (len : ℕ) (buf : List UInt8) (idx : ℕ) : M (MAPI_Attr × ℕ) := do
  let _ ← checked_xcalloc o 1 sizeof_MAPI_Attr 0
  CHECKINT16 idx len
  let type ← GETINT16 buf idx
  let idx := idx + 2
  CHECKINT16 idx len
  let name ← GETINT16 buf idx
  let idx := idx + 2
  let a : MAPI_Attr := { type := type, name := name.toUInt32 }
  if name &&& GUID_EXISTS_FLAG ≠ 0 then
    read_guid_block o len buf a idx
  else
    return (a, idx)

/-- The types whose value count is stored in the stream. -/
def counted (type : UInt16) : Bool :=
  type &&& MULTI_VALUE_FLAG ≠ 0 ∨ type = szMAPI_STRING ∨ type = szMAPI_UNICODE_STRING
    ∨ type = szMAPI_OBJECT ∨ type = szMAPI_BINARY

def read_num_values (len : ℕ) (buf : List UInt8) (type : UInt16) (idx : ℕ) : M (ℕ × ℕ) :=
  if counted type then do
    CHECKINT32 idx len
    let n ← GETINT32 buf idx
    return (n.toNat, idx + 4)
  else
    .ok (1, idx)

/-- The type with the multi-value flag taken off. -/
def amend_type (type : UInt16) : UInt16 :=
  if type &&& MULTI_VALUE_FLAG ≠ 0 then type - MULTI_VALUE_FLAG else type

/-- A zeroed array of `num_values` values; NULL, here an assertion failure in the
caller, when there are none. -/
def alloc_mapi_values (o : Options) (num_values : ℕ) : M (List MAPI_Value) :=
  if num_values ≠ 0 then do
    let _ ← checked_xcalloc o num_values sizeof_MAPI_Value 0
    return List.replicate num_values {}
  else
    .error .assertion

/-- One turn of the property loop. -/
def read_property (o : Options) (len : ℕ) (buf : List UInt8) (idx : ℕ) :
    M (Option (MAPI_Attr × ℕ)) := do
  let (a, idx) ← read_header o len buf idx
  let (num_values, idx) ← read_num_values len buf a.type idx
  -- the count is looked for under the type as it stands in the stream
  let type := amend_type a.type
  let values ← alloc_mapi_values o num_values
  match ← read_values o len buf type num_values ⟨idx, values, 0⟩ with
  | none => .ok none
  | some s =>
    return some ({ a with type := type, num_values := num_values, values := s.values }, s.idx)

/-- `for (i = 0; i < num_properties; i++)`, with `n` properties to go. -/
def read_properties (o : Options) (len : ℕ) (buf : List UInt8) :
    ℕ → ℕ → List MAPI_Attr → M (Option (List MAPI_Attr))
  | 0, _, attrs => .ok (some attrs)
  | n + 1, idx, attrs => do
    match ← read_property o len buf idx with
    | none => .ok none
    | some (a, idx') => read_properties o len buf n idx' (attrs ++ [a])

/-- The array of `num_properties + 1` pointers, the last of them NULL. -/
def mapi_attr_read (o : Options) (len : ℕ) (buf : List UInt8) :
    M (Option (List (Option MAPI_Attr))) := do
  assert (len > 4)
  let num_properties ← GETINT32 buf 0
  assert (num_properties + 1 ≠ 0)
  let _ ← checked_xmalloc o (num_properties + 1).toNat sizeof_ptr 0
  let attrs ← read_properties o len buf num_properties.toNat 4 []
  return attrs.map fun as => as.map some ++ [none]

/-! ## Blocks -/

theorem rd_block_ne_fault_iff {buf : List UInt8} {p n : ℕ} :
    rd_block buf p n ≠ .error .fault ↔ p + n ≤ buf.length := by
  rw [rd_block]
  split <;> simp [*]

end Tnef
