/-
Where `mapi_attr_read` reads outside its buffer.

Every read stands behind a check of the cursor against `len`, except in
`copy_guid_from_buf`, which is handed `len - idx` and trusts it. Padding behind a
name may leave the cursor up to three bytes past `len`, and the only block that can
follow a name without a check in between is the single value of a `szMAPI_CLSID`
property. `mapi_attr_read_safe_iff` says that this is the only way to go wrong.
-/
import Tnef.MapiLayout

set_option autoImplicit false

namespace Tnef

open ExceptRules Slice LittleEndian Layout

/-! ## Reads behind a check -/

theorem GETINT32_ne_fault {buf : List UInt8} {i : ℕ} (h : i + 4 ≤ buf.length) :
    GETINT32 buf i ≠ .error .fault := by
  obtain ⟨x, hx, -⟩ := GETINT32_of_le h
  rw [hx]
  simp

theorem GETINT16_ne_fault {buf : List UInt8} {i : ℕ} (h : i + 2 ≤ buf.length) :
    GETINT16 buf i ≠ .error .fault := by
  obtain ⟨x, hx, -⟩ := GETINT16_of_le h
  rw [hx]
  simp

/-- A checked word: neither the check nor the read behind it faults. -/
theorem checked32_ne_fault {α : Type} {buf : List UInt8} {i : ℕ} {f : UInt32 → M α}
    (hf : ∀ x, i + 4 ≤ buf.length → GETINT32 buf i = .ok x → f x ≠ .error .fault) :
    (CHECKINT32 i buf.length >>= fun _ => GETINT32 buf i >>= f) ≠ .error .fault := by
  refine bind_ne_error (CHECKINT32_ne_fault _ _) fun _ hcheck => ?_
  have hle := CHECKINT32_eq_ok.mp hcheck
  exact bind_ne_error (GETINT32_ne_fault hle) fun x hx => hf x hle hx

theorem checked16_ne_fault {α : Type} {buf : List UInt8} {i : ℕ} {f : UInt16 → M α}
    (hf : ∀ x, i + 2 ≤ buf.length → GETINT16 buf i = .ok x → f x ≠ .error .fault) :
    (CHECKINT16 i buf.length >>= fun _ => GETINT16 buf i >>= f) ≠ .error .fault := by
  refine bind_ne_error (CHECKINT16_ne_fault _ _) fun _ hcheck => ?_
  have hle := CHECKINT16_eq_ok.mp hcheck
  exact bind_ne_error (GETINT16_ne_fault hle) fun x hx => hf x hle hx

theorem unicode_to_utf8_ne_fault {buf : List UInt8} {p n : ℕ} (h : p + n ≤ buf.length) :
    unicode_to_utf8 n buf p ≠ .error .fault := by
  obtain ⟨bs, -, -, hconv⟩ := unicode_to_utf8_eq_ok h
  rw [hconv]
  simp

theorem copy_guid_ne_fault {buf : List UInt8} {p : ℕ} (hp : p ≤ buf.length)
    (hbuf : buf.length < 2 ^ 64) :
    copy_guid_from_buf buf p (size_sub buf.length p) ≠ .error .fault := by
  rcases copy_guid_inside hp hbuf with ⟨g, -, hg⟩ | herr
  · rw [hg]
    simp
  · rw [herr]
    simp

/-! ## Values -/

/-- A GUID wants the cursor inside the buffer; the other values check it themselves. -/
theorem read_raw_ne_fault {o : Options} {buf : List UInt8} (hbuf : buf.length < 2 ^ 64)
    {sh : Shape} {i : ℕ} (hi : sh = .guid → i ≤ buf.length) :
    read_raw o buf.length buf sh i ≠ .error .fault := by
  cases sh with
  | two => exact checked16_ne_fault fun _ _ _ => by simp
  | four => exact checked32_ne_fault fun _ _ _ => by simp
  | eight => exact checked32_ne_fault fun _ _ _ => checked32_ne_fault fun _ _ _ => by simp
  | guid => exact bind_ne_error (copy_guid_ne_fault (hi rfl) hbuf) fun _ _ => by simp
  | unicode =>
    refine checked32_ne_fault fun n _ _ => ?_
    refine bind_ne_error (assert_ne_fault _) fun _ hassert => ?_
    have hle := assert_eq_ok.mp hassert
    refine bind_ne_error (assert_ne_fault _) fun _ _ => ?_
    exact bind_ne_error (unicode_to_utf8_ne_fault (by omega)) fun _ _ => by simp
  | bytes =>
    refine checked32_ne_fault fun n _ _ => ?_
    refine bind_ne_error (assert_ne_fault _) fun _ hassert => ?_
    have hle := assert_eq_ok.mp hassert
    refine bind_ne_error (checked_xmalloc_ne_fault _ _ _ _) fun _ _ => ?_
    exact bind_ne_error (rd_block_ne_fault_iff.mpr (by omega)) fun _ _ => by simp

/-- Once the first value is read a GUID's successor starts inside the buffer again. -/
theorem read_values_ne_fault {o : Options} {buf : List UInt8} (hbuf : buf.length < 2 ^ 64)
    {type : UInt16} {sh : Shape} (hsh : type_shape type = some sh) (n : ℕ) :
    ∀ {s : ValueState}, s.v + n ≤ s.values.length → (sh = .guid → s.idx ≤ buf.length) →
    read_values o buf.length buf type n s ≠ .error .fault := by
  have hstep := value_step_le type
  induction n with
  | zero =>
    intro s _ _
    simp [read_values]
  | succ n ih =>
    intro s hroom hidx
    rw [read_values_succ hsh (by omega)]
    refine bind_ne_error (read_raw_ne_fault hbuf hidx) ?_
    rintro ⟨x, adv⟩ hr
    refine ih ?_ ?_
    · rw [List.length_set]
      show s.v + value_step type + n ≤ _
      omega
    · rintro rfl
      have hvalue := (read_raw_eq_ok hbuf).mp hr
      simp only
      generalize s.idx + adv = j at hvalue ⊢
      cases hvalue with
      | guid g hat =>
        have hle := hat.le
        rwa [GUID.bytes_length] at hle

/-! ## Headers -/

theorem read_names_ne_fault {buf : List UInt8} (n : ℕ) : ∀ {i : ℕ} {names : List VarLenData},
    read_names buf.length buf n i names ≠ .error .fault := by
  induction n with
  | zero =>
    intro i names
    simp [read_names]
  | succ n ih =>
    intro i names
    refine checked32_ne_fault fun w _ _ => ?_
    refine bind_ne_error (assert_ne_fault _) fun _ _ => ?_
    refine bind_ne_error (assert_ne_fault _) fun _ hassert => ?_
    exact bind_ne_error (unicode_to_utf8_ne_fault (assert_eq_ok.mp hassert)) fun _ _ => ih

theorem read_guid_block_ne_fault {o : Options} {buf : List UInt8} (hbuf : buf.length < 2 ^ 64)
    {a : MAPI_Attr} {i : ℕ} (hi : i ≤ buf.length) :
    read_guid_block o buf.length buf a i ≠ .error .fault := by
  refine bind_ne_error (checked_xmalloc_ne_fault _ _ _ _) fun _ _ => ?_
  refine bind_ne_error (copy_guid_ne_fault hi hbuf) fun _ _ => ?_
  refine checked32_ne_fault fun k _ _ => ?_
  split
  · refine bind_ne_error (checked_xcalloc_ne_fault _ _ _ _) fun _ _ => ?_
    exact bind_ne_error (read_names_ne_fault _) fun _ _ => by simp
  · exact checked32_ne_fault fun _ _ _ => by simp

theorem read_header_ne_fault {o : Options} {buf : List UInt8} (hbuf : buf.length < 2 ^ 64)
    {i : ℕ} : read_header o buf.length buf i ≠ .error .fault := by
  refine bind_ne_error (checked_xcalloc_ne_fault _ _ _ _) fun _ _ => ?_
  refine checked16_ne_fault fun type _ _ => ?_
  refine checked16_ne_fault fun name hle _ => ?_
  simp only
  split
  · exact read_guid_block_ne_fault hbuf (by omega)
  · simp

/-- The padding of a last name is all a header can reach past the buffer. -/
theorem HeaderAt.end_le {o : Options} {buf : List UInt8} {i j : ℕ} {a : MAPI_Attr}
    (h : HeaderAt o buf i a j) : j ≤ buf.length + 3 := by
  cases h with
  | plain type name hlim hat hname =>
    have hle := hat.le
    rw [List.length_append, le16_length, le16_length] at hle
    omega
  | guid type name hlim hat hname hblock =>
    cases hblock with
    | numbered g id hlim hat =>
      have hle := hat.le
      simp only [List.length_append, GUID.bytes_length, le32_length] at hle
      omega
    | named g k names hlim hat hk hlim' hlen hnames =>
      have hle := hat.le
      simp only [List.length_append, GUID.bytes_length, le32_length] at hle
      -- a name ends inside the buffer, and its padding is three bytes at most
      refine hnames.offset (P := fun p => p ≤ buf.length + 3) (by omega) ?_
      rintro p x q ⟨n, bs, hbs, -, hname⟩ -
      have hin := hname.le
      rw [List.length_append, le32_length] at hin
      unfold pad_to_4byte
      omega

/-! ## Properties -/

/-- At `i` stands the header of a property with one GUID value, and the header's last
name is padded past the end of the buffer. -/
def CutClsid (o : Options) (buf : List UInt8) (i : ℕ) : Prop :=
  ∃ a j, HeaderAt o buf i a j ∧ a.type = szMAPI_CLSID ∧ o.Admits sizeof_MAPI_Value
    ∧ buf.length < j

theorem uncounted_guid {type : UInt16} (hcounted : counted type = false)
    (hsh : type_shape (amend_type type) = some .guid) : type = szMAPI_CLSID := by
  have hmulti : ¬ type &&& MULTI_VALUE_FLAG ≠ 0 := by
    intro hflag
    simp [counted, hflag] at hcounted
  rw [amend_type, if_neg hmulti] at hsh
  -- of the six forms, the fourth is the GUID
  rcases type_shape_cases hsh with ⟨h, -⟩ | ⟨h, -⟩ | ⟨h, -⟩ | ⟨-, h⟩ | ⟨h, -⟩ | ⟨h, -⟩
  · cases h
  · cases h
  · cases h
  · exact h
  · cases h
  · cases h

theorem read_num_values_ne_fault {buf : List UInt8} {type : UInt16} {i : ℕ} :
    read_num_values buf.length buf type i ≠ .error .fault := by
  unfold read_num_values
  split
  · exact checked32_ne_fault fun _ _ _ => by simp
  · simp

theorem alloc_mapi_values_ne_fault (o : Options) (n : ℕ) :
    alloc_mapi_values o n ≠ .error .fault := by
  unfold alloc_mapi_values
  split
  · exact bind_ne_error (checked_xcalloc_ne_fault _ _ _ _) fun _ _ => by simp
  · simp

/-- A type without a form stops at its first value or gives the list up. -/
theorem read_values_no_shape_ne_fault {o : Options} {len : ℕ} {buf : List UInt8} {type : UInt16}
    (hsh : type_shape type = none) (n : ℕ) (s : ValueState) :
    read_values o len buf type n s ≠ .error .fault := by
  cases n with
  | zero => simp [read_values]
  | succ n =>
    rw [read_values, read_value_of_no_shape hsh]
    by_cases hencode : o.encode_ok
    · rw [if_pos hencode, ok_bind]
      simp
    · rw [if_neg hencode, error_bind]
      simp

/-- **One property faults exactly when it is a cut GUID property.** -/
theorem read_property_fault_iff {o : Options} {buf : List UInt8} (hbuf : buf.length < 2 ^ 64)
    {i : ℕ} : read_property o buf.length buf i = .error .fault ↔ CutClsid o buf i := by
  rw [read_property]
  constructor
  · intro h
    rcases bind_eq_error.mp h with herr | ⟨⟨a, j⟩, hheader, h⟩
    · exact absurd herr (read_header_ne_fault hbuf)
    rcases bind_eq_error.mp h with herr | ⟨⟨n, i₂⟩, hcount, h⟩
    · exact absurd herr read_num_values_ne_fault
    rcases bind_eq_error.mp h with herr | ⟨vs, halloc, h⟩
    · exact absurd herr (alloc_mapi_values_ne_fault o n)
    rcases bind_eq_error.mp h with herr | ⟨r, -, h⟩
    · have hcount' := read_num_values_eq_ok.mp hcount
      obtain ⟨-, hlim, rfl⟩ := (alloc_mapi_values_eq_ok (countAt_lt hcount')).mp halloc
      -- only the values are left to go wrong, and of these only a GUID
      cases hsh : type_shape (amend_type a.type) with
      | none => exact absurd herr (read_values_no_shape_ne_fault hsh _ _)
      | some sh =>
        by_contra hcut
        refine read_values_ne_fault hbuf hsh n (by simp) ?_ herr
        rintro rfl
        unfold CountAt at hcount'
        by_cases hcounted : counted a.type
        · -- the count has been checked, so the cursor is inside the buffer
          rw [if_pos hcounted] at hcount'
          obtain ⟨w, hw, -, rfl⟩ := hcount'
          have hle := hw.le
          rwa [le32_length] at hle
        · rw [if_neg hcounted] at hcount'
          -- an uncounted GUID follows its header directly
          obtain ⟨rfl, rfl⟩ := hcount'
          by_contra hout
          refine hcut ⟨a, i₂, (read_header_eq_ok hbuf).mp hheader, ?_, ?_, not_le.mp hout⟩
          · exact uncounted_guid (by simpa using hcounted) hsh
          · rwa [Nat.one_mul] at hlim
    · cases r with
      | none => cases h
      | some s => cases h
  · rintro ⟨a, j, hheader, htype, hlim, hout⟩
    have hcount : read_num_values buf.length buf a.type j = .ok (1, j) := by
      rw [htype]
      rfl
    have halloc : alloc_mapi_values o 1 = .ok (List.replicate 1 {}) :=
      (alloc_mapi_values_eq_ok (by decide)).mpr ⟨one_ne_zero, by rwa [Nat.one_mul], rfl⟩
    have hsh : type_shape (amend_type a.type) = some .guid := by
      rw [htype]
      rfl
    rw [(read_header_eq_ok hbuf).mpr hheader, ok_bind]
    simp only
    rw [hcount, ok_bind]
    simp only
    rw [halloc, ok_bind, read_values_succ hsh (by simp), read_raw,
      copy_guid_outside hout hheader.end_le]
    rfl

/-! ## The whole list -/

/-- The reader gets past `k` of its `n` properties, which end at `i`. -/
theorem read_properties_skip {o : Options} {buf : List UInt8} (hbuf : buf.length < 2 ^ 64)
    {xs : List MAPI_Attr} : ∀ {n i j : ℕ} {attrs : List MAPI_Attr},
    Chain (PropertyAt o buf) i xs j → xs.length ≤ n →
    read_properties o buf.length buf n i attrs
      = read_properties o buf.length buf (n - xs.length) j (attrs ++ xs) := by
  induction xs with
  | nil =>
    intro n i j attrs hchain _
    rw [chain_nil] at hchain
    rw [hchain, List.append_nil, List.length_nil, Nat.sub_zero]
  | cons a xs ih =>
    intro n i j attrs hchain hlen
    obtain ⟨i', ha, hrest⟩ := chain_cons.mp hchain
    rw [List.length_cons] at hlen
    obtain ⟨m, rfl⟩ : ∃ m, n = m + 1 := ⟨n - 1, by omega⟩
    rw [read_properties, (read_property_eq_ok hbuf).mpr ha, ok_bind, List.length_cons,
      Nat.add_sub_add_right, List.append_cons]
    exact ih hrest (by omega)

/-- The run faults exactly when a cut GUID property comes up before it ends. -/
theorem read_properties_fault_iff {o : Options} {buf : List UInt8} (hbuf : buf.length < 2 ^ 64)
    (n : ℕ) : ∀ {i : ℕ} {attrs : List MAPI_Attr},
    read_properties o buf.length buf n i attrs = .error .fault
      ↔ ∃ xs j, xs.length < n ∧ Chain (PropertyAt o buf) i xs j ∧ CutClsid o buf j := by
  induction n with
  | zero =>
    intro i attrs
    simp [read_properties]
  | succ n ih =>
    intro i attrs
    constructor
    · intro h
      rw [read_properties] at h
      rcases bind_eq_error.mp h with herr | ⟨r, hr, h⟩
      · exact ⟨[], i, Nat.succ_pos n, .nil i, (read_property_fault_iff hbuf).mp herr⟩
      · rcases r with _ | ⟨a, i'⟩
        · cases h
        · obtain ⟨xs, j, hlen, hchain, hcut⟩ := ih.mp h
          refine ⟨a :: xs, j, by rw [List.length_cons]; omega, ?_, hcut⟩
          exact .cons ((read_property_eq_ok hbuf).mp hr) hchain
    · rintro ⟨xs, j, hlen, hchain, hcut⟩
      rw [read_properties_skip hbuf hchain hlen.le]
      obtain ⟨m, hm⟩ : ∃ m, n + 1 - xs.length = m + 1 := ⟨n - xs.length, by omega⟩
      rw [hm, read_properties, (read_property_fault_iff hbuf).mpr hcut, error_bind]

theorem return_attrs_fault_iff {x : M (Option (List MAPI_Attr))} :
    (x >>= fun attrs => pure (attrs.map fun as => as.map some ++ [none])) = .error .fault
      ↔ x = .error .fault := by
  cases x with
  | error e => rw [error_bind, Except.error.injEq, Except.error.injEq]
  | ok a => simp

/-- A property list whose first `k` properties can be read, with the next one of the
list a cut GUID property. -/
def CutClsidList (o : Options) (buf : List UInt8) : Prop :=
  ∃ (count : UInt32) (attrs : List MAPI_Attr) (j : ℕ), At buf 0 (le32 count) ∧ count + 1 ≠ 0
    ∧ o.Admits ((count + 1).toNat * sizeof_ptr) ∧ attrs.length < count.toNat
    ∧ Chain (PropertyAt o buf) 4 attrs j ∧ CutClsid o buf j

/-- **`mapi_attr_read` reads inside its buffer exactly when no GUID property is cut.** -/
theorem mapi_attr_read_safe_iff (o : Options) {buf : List UInt8} (hlen : 4 < buf.length)
    (hbuf : buf.length < 2 ^ 64) :
    mapi_attr_read o buf.length buf ≠ .error .fault ↔ ¬ CutClsidList o buf := by
  obtain ⟨count, hcount, hat⟩ := @GETINT32_of_le buf 0 (by omega)
  have huniq : ∀ c : UInt32, At buf 0 (le32 c) → c = count := by
    intro c hc
    exact Except.ok.inj ((GETINT32_of_at hc).symm.trans hcount)
  rw [not_iff_not, mapi_attr_read, assert_of hlen, ok_bind, hcount, ok_bind]
  -- a count of 2 ^ 32 - 1 or a limit below the array stops the run before any property
  by_cases hzero : count + 1 ≠ 0
  · rw [assert_of hzero, ok_bind]
    by_cases hlim : o.Admits ((count + 1).toNat * sizeof_ptr)
    · rw [(checked_xmalloc_eq_ok (attrs_size_lt _)).mpr ⟨hlim, rfl⟩, ok_bind,
        return_attrs_fault_iff, read_properties_fault_iff hbuf]
      constructor
      · rintro ⟨xs, j, hlen, hchain, hcut⟩
        exact ⟨count, xs, j, hat, hzero, hlim, hlen, hchain, hcut⟩
      · rintro ⟨c, xs, j, hc, -, -, hlen, hchain, hcut⟩
        obtain rfl := huniq c hc
        exact ⟨xs, j, hlen, hchain, hcut⟩
    · rw [checked_xmalloc_of_lt o (attrs_size_lt _), if_neg hlim, error_bind]
      constructor
      · intro h
        cases h
      · rintro ⟨c, xs, j, hc, -, hlim', -⟩
        obtain rfl := huniq c hc
        exact absurd hlim' hlim
  · rw [assert_eq_error.mpr ⟨hzero, rfl⟩, error_bind]
    constructor
    · intro h
      cases h
    · rintro ⟨c, xs, j, hc, hzero', -⟩
      obtain rfl := huniq c hc
      exact absurd hzero' hzero

/-- One property with one integer value. -/
theorem mapi_attr_read_safe_iff_witness :
    mapi_attr_read {} 12 [1, 0, 0, 0, 3, 0, 1, 0, 7, 0, 0, 0] ≠ .error .fault
      ↔ ¬ CutClsidList {} [1, 0, 0, 0, 3, 0, 1, 0, 7, 0, 0, 0] :=
  @mapi_attr_read_safe_iff {} [1, 0, 0, 0, 3, 0, 1, 0, 7, 0, 0, 0] (by decide) (by decide)

/-- One GUID property with a name of one byte at the very end of the buffer: the cursor
is three past the end when the value is copied. -/
theorem mapi_attr_read_cut :
    ¬ ∀ (o : Options) (buf : List UInt8), 4 < buf.length → buf.length < 2 ^ 64 →
      mapi_attr_read o buf.length buf ≠ .error .fault := by
  intro h
  have hfault := h {} ([1, 0, 0, 0, 0x48, 0, 0, 0x80] ++ List.replicate 16 0
    ++ [1, 0, 0, 0, 1, 0, 0, 0, 65]) (by decide) (by decide)
  revert hfault
  decide +kernel

end Tnef
