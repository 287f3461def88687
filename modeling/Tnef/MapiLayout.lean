/-
The property list as a format, and the reader against it.

The relations say which block of a buffer is a name, a header, a value or a
property, what it denotes, and where the next block starts. They mention no
cursor arithmetic except the padding and no check. The `_eq_ok` theorems say that
`mapi_attr_read`'s pieces return exactly what the relations say, so what the
reader accepts is well formed and what is well formed is accepted, as far as the
allocation limit lets it.
-/
import Tnef.MapiAttr
import Tnef.Lib.Layout

set_option autoImplicit false

namespace Tnef

open ExceptRules Slice LittleEndian Layout

/-! ## Blocks and GUIDs -/

theorem rd_block_eq_ok {buf bs : List UInt8} {p n : ℕ} :
    rd_block buf p n = .ok bs ↔ At buf p bs ∧ bs.length = n := by
  rw [rd_block]
  constructor
  · intro h
    split at h
    · next hle =>
      cases h
      exact ⟨at_take_drop buf p n hle, by rw [List.length_take, List.length_drop]; omega⟩
    · cases h
  · rintro ⟨hat, rfl⟩
    rw [if_pos hat.le, hat.take_drop]

theorem unicode_to_utf8_eq_ok {buf : List UInt8} {p n : ℕ} (h : p + n ≤ buf.length) :
    ∃ bs, At buf p bs ∧ bs.length = n ∧ unicode_to_utf8 n buf p = .ok (utf8_block bs) := by
  have hat := at_take_drop buf p n h
  have hlen : ((buf.drop p).take n).length = n := by
    rw [List.length_take, List.length_drop]
    omega
  have hconv := unicode_to_utf8_of_at hat
  rw [hlen] at hconv
  exact ⟨_, hat, hlen, hconv⟩

/-- The sixteen bytes of a GUID. -/
def GUID.bytes (g : GUID) : List UInt8 := le32 g.data1 ++ le16 g.data2 ++ le16 g.data3 ++ g.data4

@[simp] theorem GUID.bytes_length (g : GUID) : g.bytes.length = 16 := by
  simp [GUID.bytes, g.data4_length]

theorem copy_guid_of_at {buf : List UInt8} {p len : ℕ} {g : GUID} (h : At buf p g.bytes)
    (hlen : 16 ≤ len) : copy_guid_from_buf buf p len = .ok g := by
  obtain ⟨d1, d2, d3, d4, h4⟩ := g
  match d4, h4 with
  | [b0, b1, b2, b3, b4, b5, b6, b7], _ =>
    simp only [GUID.bytes, at_append, List.length_append, le32_length, le16_length] at h
    obtain ⟨⟨⟨h1, h2⟩, h3⟩, h8⟩ := h
    have hb0 : rd buf (p + 8) = .ok b0 := rd_of_at (k := 0) h8 rfl
    have hb1 : rd buf (p + 9) = .ok b1 := rd_of_at (k := 1) h8 rfl
    have hb2 : rd buf (p + 10) = .ok b2 := rd_of_at (k := 2) h8 rfl
    have hb3 : rd buf (p + 11) = .ok b3 := rd_of_at (k := 3) h8 rfl
    have hb4 : rd buf (p + 12) = .ok b4 := rd_of_at (k := 4) h8 rfl
    have hb5 : rd buf (p + 13) = .ok b5 := rd_of_at (k := 5) h8 rfl
    have hb6 : rd buf (p + 14) = .ok b6 := rd_of_at (k := 6) h8 rfl
    have hb7 : rd buf (p + 15) = .ok b7 := rd_of_at (k := 7) h8 rfl
    rw [copy_guid_from_buf, assert_of hlen, ok_bind, CHECKINT32_of_le (by omega), ok_bind,
      GETINT32_of_at h1, ok_bind, CHECKINT16_of_le (by omega), ok_bind, GETINT16_of_at h2,
      ok_bind, CHECKINT16_of_le (by omega), ok_bind, GETINT16_of_at h3, ok_bind]
    simp only [hb0, hb1, hb2, hb3, hb4, hb5, hb6, hb7, ok_bind, pure_eq_ok]

/-- Any sixteen bytes inside the buffer are a GUID. -/
theorem exists_guid_at {buf : List UInt8} {p : ℕ} (h : p + 16 ≤ buf.length) :
    ∃ g : GUID, At buf p g.bytes := by
  obtain ⟨x1, -, h1⟩ := @GETINT32_of_le buf p (by omega)
  obtain ⟨x2, -, h2⟩ := @GETINT16_of_le buf (p + 4) (by omega)
  obtain ⟨x3, -, h3⟩ := @GETINT16_of_le buf (p + 6) (by omega)
  have h4 := at_take_drop buf (p + 8) 8 (by omega)
  refine ⟨⟨x1, x2, x3, (buf.drop (p + 8)).take 8, by
    rw [List.length_take, List.length_drop]; omega⟩, ?_⟩
  simp only [GUID.bytes, at_append, List.length_append, le32_length, le16_length]
  exact ⟨⟨⟨h1, h2⟩, h3⟩, h4⟩

/-- With the cursor inside the buffer the length left over is what it says, and
`copy_guid_from_buf` reads a GUID or stops at its first assertion. -/
theorem copy_guid_inside {buf : List UInt8} {p : ℕ} (hp : p ≤ buf.length)
    (hbuf : buf.length < 2 ^ 64) :
    (∃ g, At buf p (GUID.bytes g) ∧ copy_guid_from_buf buf p (size_sub buf.length p) = .ok g)
      ∨ copy_guid_from_buf buf p (size_sub buf.length p) = .error .assertion := by
  have hsub : size_sub buf.length p = buf.length - p := by
    rw [size_sub]
    omega
  rw [hsub]
  by_cases hroom : p + 16 ≤ buf.length
  · obtain ⟨g, hg⟩ := exists_guid_at hroom
    exact .inl ⟨g, hg, copy_guid_of_at hg (by omega)⟩
  · right
    rw [copy_guid_from_buf, assert_eq_error.mpr ⟨by omega, rfl⟩, error_bind]

/-- With the cursor past the end the length left over wraps around, the assertion
holds, and the first read is out of range. -/
theorem copy_guid_outside {buf : List UInt8} {p : ℕ} (hp : buf.length < p)
    (hp' : p ≤ buf.length + 3) :
    copy_guid_from_buf buf p (size_sub buf.length p) = .error .fault := by
  have hsub : 16 ≤ size_sub buf.length p := by
    rw [size_sub]
    omega
  have hread : GETINT32 buf p = .error .fault := by
    rw [GETINT32, rd_of_le hp.le, error_bind]
  rw [copy_guid_from_buf, assert_of hsub, ok_bind, CHECKINT32_of_le (by omega), ok_bind,
    hread, error_bind]

theorem copy_guid_eq_ok {buf : List UInt8} {p : ℕ} {g : GUID} (hbuf : buf.length < 2 ^ 64) :
    copy_guid_from_buf buf p (size_sub buf.length p) = .ok g ↔ At buf p g.bytes := by
  constructor
  · intro h
    by_cases hp : p ≤ buf.length
    · rcases copy_guid_inside hp hbuf with ⟨g', hat, hg'⟩ | herr
      · rw [hg'] at h
        cases h
        exact hat
      · rw [herr] at h
        cases h
    · -- whatever the wrapped length is, the first word cannot be read
      simp only [copy_guid_from_buf, GETINT32, rd_of_le (not_le.mp hp).le, error_bind,
        bind_eq_ok] at h
      simp at h
  · intro h
    have hle := h.le
    rw [GUID.bytes_length] at hle
    refine copy_guid_of_at h ?_
    rw [size_sub]
    omega

/-! ## Values -/

/-- The forms a value has in the stream; each type code has one of them. -/
inductive Shape
  | two
  | four
  | eight
  | guid
  | unicode
  | bytes
  deriving DecidableEq, Repr

def type_shape (type : UInt16) : Option Shape :=
  if type = szMAPI_SHORT then some .two
  else if type = szMAPI_INT then some .four
  else if type = szMAPI_FLOAT ∨ type = szMAPI_BOOLEAN then some .four
  else if type = szMAPI_SYSTIME then some .eight
  else if type = szMAPI_DOUBLE ∨ type = szMAPI_APPTIME ∨ type = szMAPI_CURRENCY
      ∨ type = szMAPI_INT8BYTE then some .eight
  else if type = szMAPI_CLSID then some .guid
  else if type = szMAPI_STRING ∨ type = szMAPI_UNICODE_STRING ∨ type = szMAPI_OBJECT
      ∨ type = szMAPI_BINARY then
    if type = szMAPI_UNICODE_STRING then some .unicode else some .bytes
  else none

/-- How far a value of the type moves `v`; only some cases of the `switch` do. -/
def value_step (type : UInt16) : ℕ :=
  if type = szMAPI_INT ∨ type = szMAPI_SYSTIME ∨ type = szMAPI_STRING
    ∨ type = szMAPI_UNICODE_STRING ∨ type = szMAPI_OBJECT ∨ type = szMAPI_BINARY then 1 else 0

/-- The bytes of one value, with the number of bytes the cursor moves. -/
def read_raw (o : Options) (len : ℕ) (buf : List UInt8) : Shape → ℕ → M (MAPI_Value × ℕ)
  | .two, i => do
    CHECKINT16 i len
    let x ← GETINT16 buf i
    return (⟨2, .bytes2 x⟩, 4)
  | .four, i => do
    CHECKINT32 i len
    let x ← GETINT32 buf i
    return (⟨4, .bytes4 x⟩, 4)
  | .eight, i => do
    CHECKINT32 i len
    let x₀ ← GETINT32 buf i
    CHECKINT32 (i + 4) len
    let x₁ ← GETINT32 buf (i + 4)
    return (⟨8, .bytes8 x₀ x₁⟩, 8)
  | .guid, i => do
    let g ← copy_guid_from_buf buf i (size_sub len i)
    return (⟨sizeof_GUID, .guid g⟩, sizeof_GUID)
  | .unicode, i => do
    CHECKINT32 i len
    let n ← GETINT32 buf i
    assert (n.toNat + (i + 4) ≤ len)
    assert (n ≠ 0)
    let b ← unicode_to_utf8 n.toNat buf (i + 4)
    return (⟨n.toNat, .buf b⟩, 4 + pad_to_4byte n.toNat)
  | .bytes, i => do
    CHECKINT32 i len
    let n ← GETINT32 buf i
    assert (n.toNat + (i + 4) ≤ len)
    let _ ← checked_xmalloc o n.toNat 1 1
    let bs ← rd_block buf (i + 4) n.toNat
    return (⟨n.toNat, .buf (.full (bs ++ [0]))⟩, 4 + pad_to_4byte n.toNat)

/-- The cases of `type_shape`, type by type. -/
theorem type_shape_cases {type : UInt16} {sh : Shape} (h : type_shape type = some sh) :
    (sh = .two ∧ type = szMAPI_SHORT)
      ∨ (sh = .four ∧ (type = szMAPI_INT ∨ type = szMAPI_FLOAT ∨ type = szMAPI_BOOLEAN))
      ∨ (sh = .eight ∧ (type = szMAPI_SYSTIME ∨ type = szMAPI_DOUBLE ∨ type = szMAPI_APPTIME
        ∨ type = szMAPI_CURRENCY ∨ type = szMAPI_INT8BYTE))
      ∨ (sh = .guid ∧ type = szMAPI_CLSID)
      ∨ (sh = .unicode ∧ type = szMAPI_UNICODE_STRING)
      ∨ (sh = .bytes ∧ (type = szMAPI_STRING ∨ type = szMAPI_OBJECT ∨ type = szMAPI_BINARY)) := by
  unfold type_shape at h
  split_ifs at h <;> cases h <;> simp_all

/-- The `switch` reads the value of the type's form and stores it through `v`. -/
theorem read_value_of_shape {o : Options} {len : ℕ} {buf : List UInt8} {type : UInt16}
    {sh : Shape} (h : type_shape type = some sh) (s : ValueState) :
    read_value o len buf type s = read_raw o len buf sh s.idx >>= fun r =>
      s.store r.1 r.2 (value_step type) >>= fun s' => .ok (some s') := by
  -- fourteen types, each with its case of the `switch` and its form
  rcases type_shape_cases h with ⟨rfl, rfl⟩ | ⟨rfl, rfl | rfl | rfl⟩
    | ⟨rfl, rfl | rfl | rfl | rfl | rfl⟩ | ⟨rfl, rfl⟩ | ⟨rfl, rfl⟩ | ⟨rfl, rfl | rfl | rfl⟩ <;>
  simp +decide [read_value, read_buf_value, read_raw, value_step]

/-- A type without a form: the stream is refused, or the list given up. -/
theorem read_value_of_no_shape {o : Options} {len : ℕ} {buf : List UInt8} {type : UInt16}
    (h : type_shape type = none) (s : ValueState) :
    read_value o len buf type s = if o.encode_ok then .ok none else .error (.exit 1) := by
  unfold type_shape at h
  split_ifs at h
  simp [read_value, *]

/-- A value of a form stands at `i`, and the next block at `j`. -/
inductive ValueAt (o : Options) (buf : List UInt8) : Shape → ℕ → MAPI_Value → ℕ → Prop
  | two {i : ℕ} (x : UInt16) (hat : At buf i (le16 x)) :
    ValueAt o buf .two i ⟨2, .bytes2 x⟩ (i + 4)
  | four {i : ℕ} (x : UInt32) (hat : At buf i (le32 x)) :
    ValueAt o buf .four i ⟨4, .bytes4 x⟩ (i + 4)
  | eight {i : ℕ} (x₀ x₁ : UInt32) (hat : At buf i (le32 x₀ ++ le32 x₁)) :
    ValueAt o buf .eight i ⟨8, .bytes8 x₀ x₁⟩ (i + 8)
  | guid {i : ℕ} (g : GUID) (hat : At buf i g.bytes) :
    ValueAt o buf .guid i ⟨sizeof_GUID, .guid g⟩ (i + sizeof_GUID)
  | unicode {i : ℕ} (n : UInt32) (bs : List UInt8) (hlen : bs.length = n.toNat) (hne : n ≠ 0)
    (hat : At buf i (le32 n ++ bs)) :
    ValueAt o buf .unicode i ⟨n.toNat, .buf (utf8_block bs)⟩ (i + (4 + pad_to_4byte n.toNat))
  | bytes {i : ℕ} (n : UInt32) (bs : List UInt8) (hlen : bs.length = n.toNat)
    (hlim : o.Admits n.toNat) (hat : At buf i (le32 n ++ bs)) :
    ValueAt o buf .bytes i ⟨n.toNat, .buf (.full (bs ++ [0]))⟩ (i + (4 + pad_to_4byte n.toNat))

/-- The length word and the block behind it, as the reader takes them. -/
theorem counted_block_at {buf : List UInt8} {i : ℕ} {n : UInt32} {bs : List UInt8} :
    At buf i (le32 n ++ bs) ↔ GETINT32 buf i = .ok n ∧ At buf (i + 4) bs := by
  rw [at_append, le32_length, GETINT32_eq_ok]

theorem grant_eq_ok {o : Options} {n : UInt32} {r : ℕ} :
    checked_xmalloc o n.toNat 1 1 = .ok r ↔ o.Admits n.toNat ∧ r = n.toNat + 1 := by
  have hn := n.toNat_lt
  rw [checked_xmalloc_eq_ok (by omega), Nat.mul_one]

/-- What `read_raw` returns stands in the buffer. -/
theorem valueAt_of_read_raw {o : Options} {buf : List UInt8} (hbuf : buf.length < 2 ^ 64)
    {sh : Shape} {i adv : ℕ} {x : MAPI_Value} (h : read_raw o buf.length buf sh i = .ok (x, adv)) :
    ValueAt o buf sh i x (i + adv) := by
  cases sh with
  | two =>
    simp only [read_raw, bind_eq_ok, GETINT16_eq_ok, pure_eq_ok, Except.ok.injEq,
      Prod.mk.injEq] at h
    obtain ⟨_, -, w, hw, rfl, rfl⟩ := h
    exact .two w hw
  | four =>
    simp only [read_raw, bind_eq_ok, GETINT32_eq_ok, pure_eq_ok, Except.ok.injEq,
      Prod.mk.injEq] at h
    obtain ⟨_, -, w, hw, rfl, rfl⟩ := h
    exact .four w hw
  | eight =>
    simp only [read_raw, bind_eq_ok, GETINT32_eq_ok, pure_eq_ok, Except.ok.injEq,
      Prod.mk.injEq] at h
    obtain ⟨_, -, w₀, hw₀, _, -, w₁, hw₁, rfl, rfl⟩ := h
    exact .eight w₀ w₁ (at_append.mpr ⟨hw₀, hw₁⟩)
  | guid =>
    simp only [read_raw, bind_eq_ok, copy_guid_eq_ok hbuf, pure_eq_ok, Except.ok.injEq,
      Prod.mk.injEq] at h
    obtain ⟨g, hg, rfl, rfl⟩ := h
    exact .guid g hg
  | unicode =>
    simp only [read_raw, bind_eq_ok, assert_eq_ok, pure_eq_ok, Except.ok.injEq,
      Prod.mk.injEq] at h
    obtain ⟨_, -, n, hn, _, hle, _, hne, b, hb, rfl, rfl⟩ := h
    -- the assertion has put the bytes inside the buffer
    obtain ⟨bs, hat, hlen, hconv⟩ := @unicode_to_utf8_eq_ok buf (i + 4) n.toNat (by omega)
    rw [hconv] at hb
    cases hb
    exact .unicode n bs hlen hne (counted_block_at.mpr ⟨hn, hat⟩)
  | bytes =>
    simp only [read_raw, bind_eq_ok, assert_eq_ok, grant_eq_ok, rd_block_eq_ok, pure_eq_ok,
      Except.ok.injEq, Prod.mk.injEq] at h
    obtain ⟨_, -, n, hn, _, -, _, ⟨hlim, -⟩, bs, ⟨hat, hlen⟩, rfl, rfl⟩ := h
    exact .bytes n bs hlen hlim (counted_block_at.mpr ⟨hn, hat⟩)

/-- What stands in the buffer is returned. -/
theorem read_raw_of_valueAt {o : Options} {buf : List UInt8} (hbuf : buf.length < 2 ^ 64)
    {sh : Shape} {i adv : ℕ} {x : MAPI_Value} (h : ValueAt o buf sh i x (i + adv)) :
    read_raw o buf.length buf sh i = .ok (x, adv) := by
  generalize hj : i + adv = j at h
  -- the checks pass because the block ends inside the buffer
  cases h with
  | two w hat =>
    obtain rfl : adv = 4 := by omega
    have hle := hat.le
    rw [le16_length] at hle
    rw [read_raw, CHECKINT16_of_le hle, ok_bind, GETINT16_of_at hat, ok_bind, pure_eq_ok]
  | four w hat =>
    obtain rfl : adv = 4 := by omega
    have hle := hat.le
    rw [le32_length] at hle
    rw [read_raw, CHECKINT32_of_le hle, ok_bind, GETINT32_of_at hat, ok_bind, pure_eq_ok]
  | eight w₀ w₁ hat =>
    obtain rfl : adv = 8 := by omega
    have hle := hat.le
    rw [List.length_append, le32_length, le32_length] at hle
    obtain ⟨hat₀, hat₁⟩ := at_append.mp hat
    rw [le32_length] at hat₁
    rw [read_raw, CHECKINT32_of_le (by omega), ok_bind, GETINT32_of_at hat₀, ok_bind,
      CHECKINT32_of_le (by omega), ok_bind, GETINT32_of_at hat₁, ok_bind, pure_eq_ok]
  | guid g hat =>
    obtain rfl : adv = sizeof_GUID := by omega
    rw [read_raw, (copy_guid_eq_ok hbuf).mpr hat, ok_bind, pure_eq_ok]
  | unicode n bs hlen hne hat =>
    obtain rfl : adv = 4 + pad_to_4byte n.toNat := by omega
    have hle := hat.le
    rw [List.length_append, le32_length] at hle
    obtain ⟨hn, hbs⟩ := counted_block_at.mp hat
    have hconv := unicode_to_utf8_of_at hbs
    rw [hlen] at hconv
    rw [read_raw, CHECKINT32_of_le (by omega), ok_bind, hn, ok_bind, assert_of (by omega),
      ok_bind, assert_of hne, ok_bind, hconv, ok_bind, pure_eq_ok]
  | bytes n bs hlen hlim hat =>
    obtain rfl : adv = 4 + pad_to_4byte n.toNat := by omega
    have hle := hat.le
    rw [List.length_append, le32_length] at hle
    obtain ⟨hn, hbs⟩ := counted_block_at.mp hat
    rw [read_raw, CHECKINT32_of_le (by omega), ok_bind, hn, ok_bind, assert_of (by omega),
      ok_bind, grant_eq_ok.mpr ⟨hlim, rfl⟩, ok_bind, rd_block_eq_ok.mpr ⟨hbs, hlen⟩, ok_bind,
      pure_eq_ok]

/-- **`read_raw` reads exactly the values that stand in the buffer.** -/
theorem read_raw_eq_ok {o : Options} {buf : List UInt8} (hbuf : buf.length < 2 ^ 64) {sh : Shape}
    {i adv : ℕ} {x : MAPI_Value} :
    read_raw o buf.length buf sh i = .ok (x, adv) ↔ ValueAt o buf sh i x (i + adv) :=
  ⟨valueAt_of_read_raw hbuf, read_raw_of_valueAt hbuf⟩

/-! ## The value loop -/

/-- The array after the values `xs` have been stored from index `v` on. -/
def store_values (step : ℕ) (values : List MAPI_Value) (v : ℕ) : List MAPI_Value → List MAPI_Value
  | [] => values
  | x :: xs => store_values step (values.set v x) (v + step) xs

/-- Stored one behind the other, values fill the array in order. -/
theorem store_values_step_one (xs : List MAPI_Value) : ∀ pre : List MAPI_Value,
    store_values 1 (pre ++ List.replicate xs.length ({} : MAPI_Value)) pre.length xs
      = pre ++ xs := by
  induction xs with
  | nil =>
    intro pre
    simp [store_values]
  | cons x xs ih =>
    intro pre
    have hnext := ih (pre ++ [x])
    rw [List.length_append, List.length_singleton] at hnext
    rw [store_values, List.length_cons, List.replicate_succ,
      List.set_append_right _ _ (le_refl _), Nat.sub_self, List.set_cons_zero, List.append_cons,
      hnext, List.append_assoc, List.singleton_append]

theorem value_step_le (type : UInt16) : value_step type ≤ 1 := by
  unfold value_step
  split_ifs <;> omega

/-- One turn of the value loop, with room for the value. -/
theorem read_values_succ {o : Options} {len : ℕ} {buf : List UInt8} {type : UInt16} {sh : Shape}
    (hsh : type_shape type = some sh) {n : ℕ} {s : ValueState} (hroom : s.v < s.values.length) :
    read_values o len buf type (n + 1) s = read_raw o len buf sh s.idx >>= fun r =>
      read_values o len buf type n
        ⟨s.idx + r.2, s.values.set s.v r.1, s.v + value_step type⟩ := by
  have hstore : ∀ x adv, s.store x adv (value_step type)
      = .ok ⟨s.idx + adv, s.values.set s.v x, s.v + value_step type⟩ := by
    intro x adv
    rw [ValueState.store, if_pos hroom]
  rw [read_values, read_value_of_shape hsh]
  simp only [hstore, ok_bind, bind_assoc]

/-- The loop reads a chain of values. The array has room for the turns to go, so no
store is out of range. -/
theorem read_values_eq_ok {o : Options} {buf : List UInt8} (hbuf : buf.length < 2 ^ 64)
    {type : UInt16} {sh : Shape} (hsh : type_shape type = some sh) (n : ℕ) :
    ∀ {s s' : ValueState}, s.v + n ≤ s.values.length →
    (read_values o buf.length buf type n s = .ok (some s') ↔ ∃ xs, xs.length = n
      ∧ Chain (ValueAt o buf sh) s.idx xs s'.idx
      ∧ s'.values = store_values (value_step type) s.values s.v xs
      ∧ s'.v = s.v + n * value_step type) := by
  have hstep := value_step_le type
  induction n with
  | zero =>
    intro s s' _
    rw [read_values, Except.ok.injEq, Option.some.injEq]
    constructor
    · rintro rfl
      exact ⟨[], rfl, .nil _, rfl, by omega⟩
    · rintro ⟨xs, hlen, hchain, hvalues, hv⟩
      obtain rfl := List.length_eq_zero_iff.mp hlen
      obtain ⟨idx, values, v⟩ := s'
      rw [chain_nil] at hchain
      simp only at hchain hvalues hv
      rw [hchain, hvalues, hv, store_values, Nat.zero_mul, Nat.add_zero]
  | succ n ih =>
    intro s s' hroom
    have hnext : ∀ x adv, (⟨s.idx + adv, s.values.set s.v x, s.v + value_step type⟩
        : ValueState).v + n ≤ (s.values.set s.v x).length := by
      intro x adv
      rw [List.length_set]
      show s.v + value_step type + n ≤ _
      omega
    rw [read_values_succ hsh (by omega), bind_eq_ok]
    constructor
    · rintro ⟨⟨x, adv⟩, hx, hrest⟩
      obtain ⟨xs, hlen, hchain, hvalues, hv⟩ := (ih (hnext x adv)).mp hrest
      refine ⟨x :: xs, by rw [List.length_cons, hlen], ?_, hvalues, ?_⟩
      · exact .cons ((read_raw_eq_ok hbuf).mp hx) hchain
      · rw [hv, Nat.succ_mul]
        show s.v + value_step type + _ = _
        omega
    · rintro ⟨xs, hlen, hchain, hvalues, hv⟩
      cases xs with
      | nil => simp at hlen
      | cons x xs =>
        obtain ⟨j, hx, hrest⟩ := chain_cons.mp hchain
        -- every form moves the cursor forward
        obtain ⟨adv, rfl⟩ : ∃ adv, j = s.idx + adv := by
          refine ⟨j - s.idx, ?_⟩
          cases hx <;> omega
        refine ⟨(x, adv), (read_raw_eq_ok hbuf).mpr hx, (ih (hnext x adv)).mpr ?_⟩
        refine ⟨xs, by simpa using hlen, hrest, hvalues, ?_⟩
        rw [hv, Nat.succ_mul]
        show _ = s.v + value_step type + _
        omega

/-- A type without a form never gets past its first value. -/
theorem read_values_shape {o : Options} {len : ℕ} {buf : List UInt8} {type : UInt16} {n : ℕ}
    {s s' : ValueState} (hn : n ≠ 0) (h : read_values o len buf type n s = .ok (some s')) :
    ∃ sh, type_shape type = some sh := by
  rw [← Option.isSome_iff_exists, Option.isSome_iff_ne_none]
  intro hnone
  -- the first turn already stops or gives the list up
  obtain ⟨m, rfl⟩ := Nat.exists_eq_succ_of_ne_zero hn
  rw [read_values, read_value_of_no_shape hnone] at h
  split_ifs at h
  · cases h
  · cases h

/-! ## Names and headers -/

/-- A name stands at `i`: a nonzero length, that many bytes, and padding. -/
inductive NameAt (buf : List UInt8) : ℕ → VarLenData → ℕ → Prop
  | mk {i : ℕ} (n : UInt32) (bs : List UInt8) (hlen : bs.length = n.toNat) (hne : n ≠ 0)
    (hat : At buf i (le32 n ++ bs)) :
    NameAt buf i ⟨n.toNat, utf8_block bs⟩ (i + (4 + pad_to_4byte n.toNat))

/-- A GUID block stands at `i`: a GUID, and behind it a zero word and a number, or a
count and that many names. It completes the property `a`. -/
inductive GuidBlockAt (o : Options) (buf : List UInt8) (a : MAPI_Attr) : ℕ → MAPI_Attr → ℕ → Prop
  | numbered {i : ℕ} (g : GUID) (id : UInt32) (hlim : o.Admits sizeof_GUID)
    (hat : At buf i (g.bytes ++ le32 0 ++ le32 id)) :
    GuidBlockAt o buf a i { a with guid := some g, name := id } (i + 24)
  | named {i j : ℕ} (g : GUID) (k : UInt32) (names : List VarLenData)
    (hlim : o.Admits sizeof_GUID) (hat : At buf i (g.bytes ++ le32 k)) (hk : k ≠ 0)
    (hlim' : o.Admits (k.toNat * sizeof_VarLenData)) (hlen : names.length = k.toNat)
    (hnames : Chain (NameAt buf) (i + 20) names j) :
    GuidBlockAt o buf a i { a with guid := some g, num_names := k.toNat, names := names } j

/-- A property's type and name stand at `i`; with bit `0x8000` in the name, a GUID block
follows. -/
inductive HeaderAt (o : Options) (buf : List UInt8) : ℕ → MAPI_Attr → ℕ → Prop
  | plain {i : ℕ} (type name : UInt16) (hlim : o.Admits sizeof_MAPI_Attr)
    (hat : At buf i (le16 type ++ le16 name)) (hname : name &&& GUID_EXISTS_FLAG = 0) :
    HeaderAt o buf i { type := type, name := name.toUInt32 } (i + 4)
  | guid {i j : ℕ} {a : MAPI_Attr} (type name : UInt16) (hlim : o.Admits sizeof_MAPI_Attr)
    (hat : At buf i (le16 type ++ le16 name)) (hname : name &&& GUID_EXISTS_FLAG ≠ 0)
    (hblock : GuidBlockAt o buf { type := type, name := name.toUInt32 } (i + 4) a j) :
    HeaderAt o buf i a j

/-- The loop over the names reads a chain of names. -/
theorem read_names_eq_ok {buf : List UInt8} (n : ℕ) : ∀ {i j : ℕ} {names names' : List VarLenData},
    read_names buf.length buf n i names = .ok (j, names')
      ↔ ∃ xs, xs.length = n ∧ Chain (NameAt buf) i xs j ∧ names' = names ++ xs := by
  induction n with
  | zero =>
    intro i j names names'
    rw [read_names, Except.ok.injEq, Prod.mk.injEq]
    constructor
    · rintro ⟨rfl, rfl⟩
      exact ⟨[], rfl, .nil _, by simp⟩
    · rintro ⟨xs, hlen, hchain, rfl⟩
      obtain rfl := List.length_eq_zero_iff.mp hlen
      rw [chain_nil] at hchain
      exact ⟨hchain.symm, by simp⟩
  | succ n ih =>
    intro i j names names'
    rw [read_names]
    constructor
    · intro h
      simp only [bind_eq_ok, assert_eq_ok] at h
      obtain ⟨_, -, w, hw, _, hne, _, hle, b, hb, hrest⟩ := h
      obtain ⟨bs, hat, hlen, hconv⟩ := @unicode_to_utf8_eq_ok buf (i + 4) w.toNat hle
      rw [hconv] at hb
      cases hb
      obtain ⟨xs, hxs, hchain, rfl⟩ := ih.mp hrest
      refine ⟨⟨w.toNat, utf8_block bs⟩ :: xs, by rw [List.length_cons, hxs], ?_, by simp⟩
      -- the count and the bytes make up one block
      have hname := NameAt.mk w bs hlen hne (counted_block_at.mpr ⟨hw, hat⟩)
      rw [← Nat.add_assoc] at hname
      exact .cons hname hchain
    · rintro ⟨xs, hlen, hchain, rfl⟩
      cases xs with
      | nil => simp at hlen
      | cons x xs =>
        obtain ⟨j', ⟨w, bs, hbs, hne, hat⟩, hrest⟩ := chain_cons.mp hchain
        have hle := hat.le
        rw [List.length_append, le32_length] at hle
        obtain ⟨hw, hat'⟩ := counted_block_at.mp hat
        -- the other way the block gives the length check and the conversion
        have hconv := unicode_to_utf8_of_at hat'
        rw [hbs] at hconv
        rw [CHECKINT32_of_le (by omega), ok_bind, hw, ok_bind, assert_of hne, ok_bind,
          assert_of (by omega), ok_bind, hconv, ok_bind, Nat.add_assoc]
        exact ih.mpr ⟨xs, by simpa using hlen, hrest, by simp⟩

theorem names_size_lt (k : UInt32) : k.toNat * sizeof_VarLenData + 0 < 2 ^ 64 := by
  have hlt := k.toNat_lt
  show k.toNat * 16 + 0 < 2 ^ 64
  omega

/-- The GUID block that is read stands in the buffer: a count of zero is followed by a
number, any other by that many names. -/
theorem guidBlockAt_of_read {o : Options} {buf : List UInt8}
    (hbuf : buf.length < 2 ^ 64) {a a' : MAPI_Attr} {i j : ℕ}
    (h : read_guid_block o buf.length buf a i = .ok (a', j)) : GuidBlockAt o buf a i a' j := by
  rw [read_guid_block] at h
  simp only [bind_eq_ok, checked_xmalloc_eq_ok (show 1 * sizeof_GUID + 0 < 2 ^ 64 by decide),
    copy_guid_eq_ok hbuf, GETINT32_eq_ok] at h
  obtain ⟨_, ⟨hlim, -⟩, g, hg, _, -, k, hk, h⟩ := h
  -- a count of zero stands for a number in place of the names
  by_cases hpos : k > 0
  · have hsize := names_size_lt k
    simp only [if_pos hpos, bind_eq_ok, checked_xcalloc_eq_ok hsize, pure_eq_ok,
      Except.ok.injEq] at h
    obtain ⟨_, ⟨hlim', -⟩, ⟨j', names⟩, hnames, heq⟩ := h
    cases heq
    obtain ⟨xs, hlen, hchain, rfl⟩ := (read_names_eq_ok k.toNat).mp hnames
    refine .named g k _ hlim (at_append.mpr ⟨hg, by rw [GUID.bytes_length]; exact hk⟩) ?_ hlim'
      hlen hchain
    exact (UInt32.pos_iff_ne_zero).mp hpos
  · have hzero : k = 0 := by
      by_contra hne
      exact hpos (UInt32.pos_iff_ne_zero.mpr hne)
    simp only [if_neg hpos, bind_eq_ok, GETINT32_eq_ok, pure_eq_ok, Except.ok.injEq] at h
    obtain ⟨_, -, id, hid, heq⟩ := h
    cases heq
    rw [hzero] at hk
    refine .numbered g id hlim (at_append.mpr ⟨at_append.mpr ⟨hg, ?_⟩, ?_⟩)
    · rw [GUID.bytes_length]
      exact hk
    · rw [List.length_append, GUID.bytes_length, le32_length]
      exact hid

/-- The GUID block that stands in the buffer is read. -/
theorem read_of_guidBlockAt {o : Options} {buf : List UInt8} (hbuf : buf.length < 2 ^ 64)
    {a a' : MAPI_Attr} {i j : ℕ} (h : GuidBlockAt o buf a i a' j) :
    read_guid_block o buf.length buf a i = .ok (a', j) := by
  rw [read_guid_block]
  cases h with
  | numbered g id hlim hat =>
    have hle := hat.le
    obtain ⟨hat', hid⟩ := at_append.mp hat
    obtain ⟨hg, hk⟩ := at_append.mp hat'
    simp only [List.length_append, GUID.bytes_length, le32_length] at hle hk hid
    rw [(checked_xmalloc_eq_ok (by decide)).mpr ⟨hlim, rfl⟩, ok_bind,
      (copy_guid_eq_ok hbuf).mpr hg, ok_bind]
    simp only [sizeof_GUID]
    rw [CHECKINT32_of_le (by omega), ok_bind, GETINT32_of_at hk, ok_bind, if_neg (by decide),
      CHECKINT32_of_le (by omega), ok_bind, GETINT32_of_at hid, ok_bind, pure_eq_ok]
  | named g k names hlim hat hk hlim' hlen hnames =>
    have hle := hat.le
    obtain ⟨hg, hcount⟩ := at_append.mp hat
    simp only [List.length_append, GUID.bytes_length, le32_length] at hle hcount
    have hsize := names_size_lt k
    have hread : read_names buf.length buf k.toNat (i + 20) [] = .ok (_, [] ++ names) :=
      (read_names_eq_ok k.toNat).mpr ⟨names, hlen, hnames, rfl⟩
    rw [(checked_xmalloc_eq_ok (by decide)).mpr ⟨hlim, rfl⟩, ok_bind,
      (copy_guid_eq_ok hbuf).mpr hg, ok_bind]
    simp only [sizeof_GUID]
    rw [CHECKINT32_of_le (by omega), ok_bind, GETINT32_of_at hcount, ok_bind,
      if_pos (UInt32.pos_iff_ne_zero.mpr hk), (checked_xcalloc_eq_ok hsize).mpr ⟨hlim', rfl⟩,
      ok_bind, hread, ok_bind, pure_eq_ok]
    rfl

theorem read_guid_block_eq_ok {o : Options} {buf : List UInt8} (hbuf : buf.length < 2 ^ 64)
    {a a' : MAPI_Attr} {i j : ℕ} :
    read_guid_block o buf.length buf a i = .ok (a', j) ↔ GuidBlockAt o buf a i a' j :=
  ⟨guidBlockAt_of_read hbuf, read_of_guidBlockAt hbuf⟩

/-- **`read_header` reads exactly the headers that stand in the buffer.** -/
theorem read_header_eq_ok {o : Options} {buf : List UInt8} (hbuf : buf.length < 2 ^ 64)
    {a : MAPI_Attr} {i j : ℕ} :
    read_header o buf.length buf i = .ok (a, j) ↔ HeaderAt o buf i a j := by
  have hsize : 1 * sizeof_MAPI_Attr + 0 < 2 ^ 64 := by decide
  rw [read_header]
  constructor
  · intro h
    simp only [bind_eq_ok, checked_xcalloc_eq_ok hsize, GETINT16_eq_ok] at h
    obtain ⟨_, ⟨hlim, -⟩, _, -, type, htype, _, -, name, hname, h⟩ := h
    have hat : At buf i (le16 type ++ le16 name) := at_append.mpr ⟨htype, hname⟩
    by_cases hflag : name &&& GUID_EXISTS_FLAG ≠ 0
    · rw [if_pos hflag] at h
      exact .guid type name hlim hat hflag ((read_guid_block_eq_ok hbuf).mp h)
    · rw [if_neg hflag] at h
      cases h
      exact .plain type name hlim hat (not_not.mp hflag)
  · intro h
    -- both kinds of header begin with the same two words
    have hread : ∀ {type name : UInt16}, At buf i (le16 type ++ le16 name) →
        CHECKINT16 i buf.length = .ok ()
          ∧ GETINT16 buf i = .ok type ∧ CHECKINT16 (i + 2) buf.length = .ok ()
          ∧ GETINT16 buf (i + 2) = .ok name := by
      intro type name hat
      have hle := hat.le
      obtain ⟨htype, hname⟩ := at_append.mp hat
      rw [List.length_append, le16_length, le16_length] at hle
      exact ⟨CHECKINT16_of_le (by omega), GETINT16_of_at htype, CHECKINT16_of_le (by omega),
        GETINT16_of_at hname⟩
    cases h with
    | plain type name hlim hat hflag =>
      obtain ⟨h₁, h₂, h₃, h₄⟩ := hread hat
      rw [(checked_xcalloc_eq_ok hsize).mpr ⟨hlim, rfl⟩, ok_bind, h₁, ok_bind, h₂, ok_bind]
      simp only
      rw [h₃, ok_bind, h₄, ok_bind, if_neg (not_not.mpr hflag), pure_eq_ok]
    | guid type name hlim hat hflag hblock =>
      obtain ⟨h₁, h₂, h₃, h₄⟩ := hread hat
      rw [(checked_xcalloc_eq_ok hsize).mpr ⟨hlim, rfl⟩, ok_bind, h₁, ok_bind, h₂, ok_bind]
      simp only
      rw [h₃, ok_bind, h₄, ok_bind, if_pos hflag]
      exact (read_guid_block_eq_ok hbuf).mpr hblock

/-! ## Properties -/

/-- The number of values: stored, or one. -/
def CountAt (buf : List UInt8) (type : UInt16) (i n j : ℕ) : Prop :=
  if counted type then ∃ w : UInt32, At buf i (le32 w) ∧ n = w.toNat ∧ j = i + 4
  else n = 1 ∧ j = i

theorem read_num_values_eq_ok {buf : List UInt8} {type : UInt16} {i n j : ℕ} :
    read_num_values buf.length buf type i = .ok (n, j) ↔ CountAt buf type i n j := by
  unfold read_num_values CountAt
  by_cases hcounted : counted type
  · rw [if_pos hcounted, if_pos hcounted]
    constructor
    · intro h
      simp only [bind_eq_ok, GETINT32_eq_ok, pure_eq_ok, Except.ok.injEq, Prod.mk.injEq] at h
      obtain ⟨_, -, w, hw, rfl, rfl⟩ := h
      exact ⟨w, hw, rfl, rfl⟩
    · rintro ⟨w, hw, rfl, rfl⟩
      have hle := hw.le
      rw [le32_length] at hle
      rw [CHECKINT32_of_le hle, ok_bind, GETINT32_of_at hw, ok_bind, pure_eq_ok]
  · rw [if_neg hcounted, if_neg hcounted, Except.ok.injEq, Prod.mk.injEq, eq_comm,
      @eq_comm _ i]

/-- The array after all values have been stored. -/
def value_array (type : UInt16) (xs : List MAPI_Value) : List MAPI_Value :=
  store_values (value_step type) (List.replicate xs.length {}) 0 xs

/-- A property stands at `i`: a header, the number of values, and the values. -/
def PropertyAt (o : Options) (buf : List UInt8) (i : ℕ) (a : MAPI_Attr) (j : ℕ) : Prop :=
  ∃ h i₁ i₂ xs sh, HeaderAt o buf i h i₁ ∧ CountAt buf h.type i₁ xs.length i₂ ∧ xs ≠ []
    ∧ o.Admits (xs.length * sizeof_MAPI_Value) ∧ type_shape (amend_type h.type) = some sh
    ∧ Chain (ValueAt o buf sh) i₂ xs j
    ∧ a = { h with type := amend_type h.type, num_values := xs.length,
                   values := value_array (amend_type h.type) xs }

/-- The values of a binary property, or an object: blocks of the bytes in the stream, each
with a NUL behind it, as many as the count says. -/
theorem PropertyAt.blocks {o : Options} {buf : List UInt8} {i j : ℕ} {a : MAPI_Attr}
    (h : PropertyAt o buf i a j) (htype : a.type = szMAPI_BINARY ∨ a.type = szMAPI_OBJECT) :
    a.num_values = a.values.length
      ∧ ∀ v ∈ a.values, ∃ bs, v = ⟨bs.length, .buf (.full (bs ++ [0]))⟩ := by
  obtain ⟨hd, i₁, i₂, xs, sh, -, -, -, -, hsh, hchain, rfl⟩ := h
  have hstep : value_step (amend_type hd.type) = 1 ∧ type_shape (amend_type hd.type) = some .bytes := by
    rcases htype with htype | htype
    · rw [show amend_type hd.type = szMAPI_BINARY from htype]
      decide
    · rw [show amend_type hd.type = szMAPI_OBJECT from htype]
      decide
  obtain rfl : sh = .bytes := Option.some.inj (hsh.symm.trans hstep.2)
  have harray : value_array (amend_type hd.type) xs = xs := by
    rw [value_array, hstep.1]
    exact store_values_step_one xs []
  refine ⟨by simp only [harray], ?_⟩
  simp only [harray]
  intro v hv
  obtain ⟨k, l, hval⟩ := hchain.mem hv
  cases hval with
  | bytes n bs hlen hlim hat => exact ⟨bs, by rw [hlen]⟩

/-- A property has values. -/
theorem PropertyAt.num_values_ne {o : Options} {buf : List UInt8} {i j : ℕ} {a : MAPI_Attr}
    (h : PropertyAt o buf i a j) : a.num_values ≠ 0 := by
  obtain ⟨hd, i₁, i₂, xs, sh, -, -, hne, -, -, -, rfl⟩ := h
  exact fun hzero => hne (List.length_eq_zero_iff.mp hzero)

theorem countAt_lt {buf : List UInt8} {type : UInt16} {i n j : ℕ} (h : CountAt buf type i n j) :
    n < 2 ^ 32 := by
  unfold CountAt at h
  split at h
  · obtain ⟨w, -, rfl, -⟩ := h
    exact w.toNat_lt
  · omega

theorem alloc_mapi_values_eq_ok {o : Options} {n : ℕ} (hn : n < 2 ^ 32) {vs : List MAPI_Value} :
    alloc_mapi_values o n = .ok vs
      ↔ n ≠ 0 ∧ o.Admits (n * sizeof_MAPI_Value) ∧ vs = List.replicate n {} := by
  have hsize : n * sizeof_MAPI_Value + 0 < 2 ^ 64 := by
    show n * 24 + 0 < 2 ^ 64
    omega
  unfold alloc_mapi_values
  by_cases hzero : n ≠ 0
  · rw [if_pos hzero]
    simp only [bind_eq_ok, checked_xcalloc_eq_ok hsize, pure_eq_ok, Except.ok.injEq, hzero,
      not_false_eq_true, ne_eq, true_and]
    constructor
    · rintro ⟨_, ⟨hlim, -⟩, rfl⟩
      exact ⟨hlim, rfl⟩
    · rintro ⟨hlim, rfl⟩
      exact ⟨_, ⟨hlim, rfl⟩, rfl⟩
  · rw [if_neg hzero]
    simp [hzero]

/-- **`read_property` reads exactly the properties that stand in the buffer.** -/
theorem read_property_eq_ok {o : Options} {buf : List UInt8} (hbuf : buf.length < 2 ^ 64)
    {i j : ℕ} {a : MAPI_Attr} :
    read_property o buf.length buf i = .ok (some (a, j)) ↔ PropertyAt o buf i a j := by
  rw [read_property]
  constructor
  · intro h
    simp only [bind_eq_ok] at h
    obtain ⟨⟨hd, i₁⟩, hheader, ⟨n, i₂⟩, hcount, vs, halloc, r, hvalues, hr⟩ := h
    have hcount' := read_num_values_eq_ok.mp hcount
    obtain ⟨hne, hlim, rfl⟩ := (alloc_mapi_values_eq_ok (countAt_lt hcount')).mp halloc
    -- only a list of values that is read whole makes a property
    match r, hr with
    | some s, hr =>
      cases hr
      obtain ⟨sh, hsh⟩ := read_values_shape hne hvalues
      obtain ⟨xs, rfl, hchain, harray, -⟩ :=
        (read_values_eq_ok hbuf hsh n (by simp)).mp hvalues
      refine ⟨hd, i₁, i₂, xs, sh, (read_header_eq_ok hbuf).mp hheader, hcount', ?_, hlim, hsh,
        hchain, ?_⟩
      · rintro rfl
        exact hne rfl
      · rw [harray]
        rfl
  · rintro ⟨hd, i₁, i₂, xs, sh, hheader, hcount, hne, hlim, hsh, hchain, rfl⟩
    -- a property has a value, so there is an array to fill
    have hpos : xs.length ≠ 0 := fun h => hne (List.length_eq_zero_iff.mp h)
    have hvalues : read_values o buf.length buf (amend_type hd.type) xs.length
        ⟨i₂, List.replicate xs.length {}, 0⟩ = .ok (some ⟨j, value_array (amend_type hd.type) xs,
          0 + xs.length * value_step (amend_type hd.type)⟩) :=
      (read_values_eq_ok hbuf hsh xs.length (by simp)).mpr ⟨xs, rfl, hchain, rfl, rfl⟩
    rw [(read_header_eq_ok hbuf).mpr hheader, ok_bind]
    simp only
    rw [read_num_values_eq_ok.mpr hcount, ok_bind]
    simp only
    rw [(alloc_mapi_values_eq_ok (countAt_lt hcount)).mpr ⟨hpos, hlim, rfl⟩, ok_bind, hvalues,
      ok_bind]
    rfl

/-- **A run over `n` properties returns exactly the chains of `n` properties.** -/
theorem read_properties_eq_ok {o : Options} {buf : List UInt8} (hbuf : buf.length < 2 ^ 64) (n : ℕ) :
    ∀ {i : ℕ} {attrs attrs' : List MAPI_Attr},
    read_properties o buf.length buf n i attrs = .ok (some attrs')
      ↔ ∃ xs j, xs.length = n ∧ Chain (PropertyAt o buf) i xs j ∧ attrs' = attrs ++ xs := by
  induction n with
  | zero =>
    intro i attrs attrs'
    rw [read_properties, Except.ok.injEq, Option.some.injEq]
    constructor
    · rintro rfl
      exact ⟨[], i, rfl, .nil i, (List.append_nil _).symm⟩
    · rintro ⟨xs, j, hlen, -, rfl⟩
      rw [List.length_eq_zero_iff.mp hlen, List.append_nil]
  | succ n ih =>
    intro i attrs attrs'
    rw [read_properties, bind_eq_ok]
    constructor
    · rintro ⟨r, hr, hrest⟩
      match r, hrest with
      | some (a, i'), hrest =>
        obtain ⟨xs, j, hlen, hchain, rfl⟩ := ih.mp hrest
        refine ⟨a :: xs, j, by rw [List.length_cons, hlen], ?_, by simp⟩
        exact .cons ((read_property_eq_ok hbuf).mp hr) hchain
    · rintro ⟨xs, j, hlen, hchain, rfl⟩
      cases xs with
      | nil => simp at hlen
      | cons a xs =>
        obtain ⟨i', ha, hrest⟩ := chain_cons.mp hchain
        refine ⟨some (a, i'), (read_property_eq_ok hbuf).mpr ha, ?_⟩
        exact ih.mpr ⟨xs, j, by simpa using hlen, hrest, by simp⟩

theorem attrs_size_lt (n : UInt32) : n.toNat * sizeof_ptr + 0 < 2 ^ 64 := by
  have hlt := n.toNat_lt
  show n.toNat * 8 + 0 < 2 ^ 64
  omega

end Tnef
