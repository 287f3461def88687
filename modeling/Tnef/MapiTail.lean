/-
A byte behind the property list.

`attr_read` puts a NUL behind the data of an attribute, and `mapi_attr_read` is given
the length without it. It reads the same with the byte as without: every read is
checked against the length, or, where a GUID is taken from beyond the end, lies beyond
the byte too. So what has been said of buffers of exactly `len` bytes holds of `attr->buf`.
-/
import Tnef.MapiLayout
import Tnef.Attr

set_option autoImplicit false

namespace Tnef

open ExceptRules Slice

variable {data : List UInt8} {t : UInt8} {i n : ℕ}

/-! ## Reads inside the data -/

/-- In front of the end the byte behind it cannot be told. -/
theorem rd_tail (h : i < data.length) : rd (data ++ [t]) i = rd data i := by
  unfold rd
  rw [List.getElem?_append_left h]

/-- Likewise for a word that lies inside, -/
theorem GETINT32_tail (h : i + 4 ≤ data.length) :
    GETINT32 (data ++ [t]) i = GETINT32 data i := by
  unfold GETINT32
  rw [rd_tail (by omega), rd_tail (by omega), rd_tail (by omega), rd_tail (by omega)]

/-- for half a word, -/
theorem GETINT16_tail (h : i + 2 ≤ data.length) :
    GETINT16 (data ++ [t]) i = GETINT16 data i := by
  unfold GETINT16
  rw [rd_tail (by omega), rd_tail (by omega)]

/-- A checked word, whatever is done with it. -/
theorem checked32_tail {α : Type} (f : UInt32 → M α) :
    (CHECKINT32 i data.length >>= fun _ => GETINT32 (data ++ [t]) i >>= f)
      = (CHECKINT32 i data.length >>= fun _ => GETINT32 data i >>= f) := by
  by_cases h : i + 4 ≤ data.length
  · rw [GETINT32_tail h]
  · rw [CHECKINT32, if_pos (by omega), error_bind, error_bind]

/-- and for half a word behind its check, which keeps it inside. -/
theorem checked16_tail {α : Type} (f : UInt16 → M α) :
    (CHECKINT16 i data.length >>= fun _ => GETINT16 (data ++ [t]) i >>= f)
      = (CHECKINT16 i data.length >>= fun _ => GETINT16 data i >>= f) := by
  by_cases h : i + 2 ≤ data.length
  · rw [GETINT16_tail h]
  · rw [CHECKINT16, if_pos (by omega), error_bind, error_bind]

/-- A block that ends inside is the same block. -/
theorem rd_block_tail (h : i + n ≤ data.length) :
    rd_block (data ++ [t]) i n = rd_block data i n := by
  unfold rd_block
  rw [if_pos h, if_pos (by rw [List.length_append, List.length_singleton]; omega),
    List.drop_append_of_le_length (by omega),
    List.take_append_of_le_length (by rw [List.length_drop]; omega)]

/-- Text is converted from a block, so it comes out the same. -/
theorem unicode_to_utf8_tail (h : i + n ≤ data.length) :
    unicode_to_utf8 n (data ++ [t]) i = unicode_to_utf8 n data i := by
  have hat : At data i ((data.drop i).take n) := at_take_drop data i n h
  have hlen : ((data.drop i).take n).length = n := by
    rw [List.length_take, List.length_drop]
    omega
  have h₁ := unicode_to_utf8_of_at hat
  have h₂ := unicode_to_utf8_of_at (hat.append_right [t])
  rw [hlen] at h₁ h₂
  rw [h₁, h₂]

/-! ## GUIDs

Here the check is against what `len - idx` wraps to, and a cursor beyond the end passes it. -/

/-- From beyond the end already the first word is missing, with the byte as without. -/
theorem copy_guid_tail : copy_guid_from_buf (data ++ [t]) i (size_sub data.length i)
    = copy_guid_from_buf data i (size_sub data.length i) := by
  by_cases hin : i + 16 ≤ data.length
  · unfold copy_guid_from_buf
    rw [GETINT32_tail (by omega), GETINT16_tail (by omega), GETINT16_tail (by omega),
      rd_tail (by omega), rd_tail (by omega), rd_tail (by omega), rd_tail (by omega),
      rd_tail (by omega), rd_tail (by omega), rd_tail (by omega), rd_tail (by omega)]
  · by_cases hle : i ≤ data.length
    · have hshort : ¬ size_sub data.length i ≥ 16 := by
        unfold size_sub
        omega
      unfold copy_guid_from_buf
      rw [assert, if_neg hshort, error_bind, error_bind]
    · -- from beyond the end, the first word is beyond the extra byte as well
      have hfault : ∀ buf : List UInt8, buf.length ≤ i → GETINT32 buf i = .error .fault := by
        intro buf hbuf
        rw [GETINT32, rd_of_le hbuf, error_bind]
      unfold copy_guid_from_buf
      rw [hfault data (by omega), hfault (data ++ [t]) (by rw [List.length_append, List.length_singleton]; omega),
        error_bind, error_bind]

/-! ## Values, names, properties -/

/-- The bytes of a value have been checked against `len`. -/
theorem read_buf_value_tail (o : Options) (type : UInt16) (s : ValueState) :
    read_buf_value o data.length (data ++ [t]) type s = read_buf_value o data.length data type s := by
  unfold read_buf_value
  rw [checked32_tail]
  congr 1
  funext _
  congr 1
  funext vlen
  simp only
  -- past the assertion the bytes lie inside the data
  by_cases hin : vlen.toNat + (s.idx + 4) ≤ data.length
  · rw [unicode_to_utf8_tail (by omega), rd_block_tail (by omega)]
  · rw [assert, if_neg hin, error_bind, error_bind]

/-- A value of any type: every type has its check. -/
theorem read_value_tail (o : Options) (type : UInt16) (s : ValueState) :
    read_value o data.length (data ++ [t]) type s = read_value o data.length data type s := by
  unfold read_value
  simp only [checked16_tail, checked32_tail, copy_guid_tail, read_buf_value_tail]

/-- All values of a property, by induction on their number. -/
theorem read_values_tail (o : Options) (type : UInt16) (k : ℕ) : ∀ s : ValueState,
    read_values o data.length (data ++ [t]) type k s = read_values o data.length data type k s := by
  induction k with
  | zero =>
    intro s
    rfl
  | succ k ih =>
    intro s
    simp only [read_values, read_value_tail, ih]

/-- The names of a property that is named by strings, by induction on their number. -/
theorem read_names_tail (k : ℕ) : ∀ (i : ℕ) (names : List VarLenData),
    read_names data.length (data ++ [t]) k i names = read_names data.length data k i names := by
  induction k with
  | zero =>
    intro i names
    rfl
  | succ k ih =>
    intro i names
    simp only [read_names, checked32_tail, ih]
    congr 1
    funext _
    congr 1
    funext nlen
    congr 1
    funext _
    by_cases hin : i + 4 + nlen.toNat ≤ data.length
    · rw [unicode_to_utf8_tail hin]
    · rw [assert, if_neg hin, error_bind, error_bind]

/-- Type, tag and name of a property. -/
theorem read_header_tail (o : Options) (i : ℕ) :
    read_header o data.length (data ++ [t]) i = read_header o data.length data i := by
  unfold read_header read_guid_block
  simp only [checked16_tail, checked32_tail, copy_guid_tail, read_names_tail]

/-- The count, which is a word of its own for some types only. -/
theorem read_num_values_tail (type : UInt16) (i : ℕ) :
    read_num_values data.length (data ++ [t]) type i = read_num_values data.length data type i := by
  unfold read_num_values
  simp only [checked32_tail]

/-- One property, part by part. -/
theorem read_property_tail (o : Options) (i : ℕ) :
    read_property o data.length (data ++ [t]) i = read_property o data.length data i := by
  unfold read_property
  simp only [read_header_tail, read_num_values_tail, read_values_tail]

/-- All of them, by induction on their number. -/
theorem read_properties_tail (o : Options) (k : ℕ) : ∀ (i : ℕ) (attrs : List MAPI_Attr),
    read_properties o data.length (data ++ [t]) k i attrs
      = read_properties o data.length data k i attrs := by
  induction k with
  | zero =>
    intro i attrs
    rfl
  | succ k ih =>
    intro i attrs
    simp only [read_properties, read_property_tail, ih]

/-- **The byte behind the data makes no difference.** -/
theorem mapi_attr_read_tail (o : Options) (data : List UInt8) (t : UInt8) :
    mapi_attr_read o data.length (data ++ [t]) = mapi_attr_read o data.length data := by
  unfold mapi_attr_read
  by_cases hlen : data.length > 4
  · rw [GETINT32_tail (by omega)]
    simp only [read_properties_tail]
  · rw [assert, if_neg hlen, error_bind, error_bind]

/-- So an attribute's list is what its data make it, without the NUL behind them. -/
theorem mapi_attr_read_attr (o : Options) (attr : Attr) :
    mapi_attr_read o attr.len attr.buf = mapi_attr_read o attr.data.length attr.data :=
  mapi_attr_read_tail o attr.data 0

/-- The list read from an attribute: properties that stand in its data, and the NULL
pointer behind them. -/
theorem mapi_attr_read_properties {o : Options} {attr : Attr} {attrs : List (Option MAPI_Attr)}
    (h : mapi_attr_read o attr.len attr.buf = .ok (some attrs)) :
    ∃ as : List MAPI_Attr, attrs = as.map some ++ [none] ∧ ∀ a ∈ as, ∃ i j, PropertyAt o attr.data i a j := by
  have hdata : attr.data.length < 2 ^ 64 := lt_trans attr.fits (by decide)
  rw [mapi_attr_read_attr] at h
  simp only [mapi_attr_read, bind_eq_ok, pure_eq_ok, Except.ok.injEq] at h
  obtain ⟨_, -, n, -, _, -, _, -, r, hread, hattrs⟩ := h
  obtain ⟨as, rfl, rfl⟩ := Option.map_eq_some_iff.mp hattrs
  obtain ⟨xs, j, -, hchain, hxs⟩ := (read_properties_eq_ok hdata _).mp hread
  rw [List.nil_append] at hxs
  subst hxs
  exact ⟨as, rfl, fun a ha => hchain.mem ha⟩

end Tnef
