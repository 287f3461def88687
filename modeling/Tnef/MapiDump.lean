/-
`mapi_attr.c` under `--debug`: `mapi_attr_dump`, in the middle of the value loop.

After every value the whole property is printed, the values that have not been read yet
included. The text is left out; what is kept is what the dump reads, and that it can stop.
It never does: the names and the stored blocks are terminated, a block is as long as it
says, and a value not read yet has length zero and a NULL pointer, which `printf` prints as
`(null)`. So `mapi_attr_read` with the dump is `mapi_attr_read` without it.
-/
import Tnef.Attr
import Tnef.MapiLayout

set_option autoImplicit false

namespace Tnef

open ExceptRules Slice LittleEndian

/-! ## The dump -/

/-- `write_string (stdout, values[i].data.buf)`. -/
def write_string : MAPI_Data → M Unit
  -- the NULL pointer of a value that has not been read yet
  | .zero => .ok ()
  | .buf b => do let _ ← b.c_str
  | _ => .error .fault

/-- `for (x = 0; x < values[i].len; x++)`, printing `values[i].data.buf[x]`. -/
def write_binary (v : MAPI_Value) : M Unit :=
  match v.data with
  | .buf b => dump_bytes b.bytes v.len 0
  | _ => if v.len = 0 then .ok () else .error .fault

/-- The `switch (attr->type)`. -/
def dump_value (type : UInt16) (v : MAPI_Value) : M Unit :=
  if type = szMAPI_STRING ∨ type = szMAPI_UNICODE_STRING then write_string v.data
  else if type = szMAPI_OBJECT ∨ type = szMAPI_BINARY then write_binary v
  else
    -- members of the union itself
    .ok ()

def mapi_attr_dump (a : MAPI_Attr) : M Unit := do
  a.names.forM fun name => do let _ ← name.data.c_str
  (a.values.take a.num_values).forM (dump_value a.type)

/-! ## `mapi_attr_read` with the dump -/

/-- The value loop of `read_values`, as it stands in the source. -/
def read_values_dump (o : Options) (len : ℕ) (buf : List UInt8) (a : MAPI_Attr) :
    ℕ → ValueState → M (Option ValueState)
  | 0, s => .ok (some s)
  | n + 1, s => do
    match ← read_value o len buf a.type s with
    | none => .ok none
    | some s' => do
      if o.dbg_out then
        mapi_attr_dump { a with values := s'.values }
      read_values_dump o len buf a n s'

def read_property_dump (o : Options) (len : ℕ) (buf : List UInt8) (idx : ℕ) :
    M (Option (MAPI_Attr × ℕ)) := do
  let (a, idx) ← read_header o len buf idx
  let (num_values, idx) ← read_num_values len buf a.type idx
  let type := amend_type a.type
  let values ← alloc_mapi_values o num_values
  match ← read_values_dump o len buf { a with type := type, num_values := num_values } num_values
      ⟨idx, values, 0⟩ with
  | none => .ok none
  | some s =>
    return some ({ a with type := type, num_values := num_values, values := s.values }, s.idx)

def read_properties_dump (o : Options) (len : ℕ) (buf : List UInt8) :
    ℕ → ℕ → List MAPI_Attr → M (Option (List MAPI_Attr))
  | 0, _, attrs => .ok (some attrs)
  | n + 1, idx, attrs => do
    match ← read_property_dump o len buf idx with
    | none => .ok none
    | some (a, idx') => read_properties_dump o len buf n idx' (attrs ++ [a])

def mapi_attr_read_dump (o : Options) (len : ℕ) (buf : List UInt8) :
    M (Option (List (Option MAPI_Attr))) := do
  assert (len > 4)
  let num_properties ← GETINT32 buf 0
  assert (num_properties + 1 ≠ 0)
  let _ ← checked_xmalloc o (num_properties + 1).toNat sizeof_ptr 0
  let attrs ← read_properties_dump o len buf num_properties.toNat 4 []
  return attrs.map fun as => as.map some ++ [none]

/-! ## What can be printed -/

theorem dump_bytes_of_le {buf : List UInt8} {len : ℕ} (h : len ≤ buf.length) (i : ℕ) :
    dump_bytes buf len i = .ok () := by
  induction i using dump_bytes.induct len with
  | case1 i hi ih =>
    rw [dump_bytes, if_pos hi, rd_of_lt (by omega), ok_bind]
    exact ih
  | case2 i hi => rw [dump_bytes, if_neg hi]

theorem c_str_of_terminated {b : Buffer} (h : b.Terminated) : b.c_str = .ok b.text := if_pos h

theorem unicode_to_utf8_terminated {len p : ℕ} {buf : List UInt8} {b : Buffer}
    (h : unicode_to_utf8 len buf p = .ok b) : b.Terminated := by
  rw [unicode_to_utf8, bind_eq_ok] at h
  obtain ⟨utf8, -, hfill⟩ := h
  unfold Buffer.fill at hfill
  split at hfill
  · cases hfill
    exact List.mem_append_right _ (List.mem_singleton_self _)
  · cases hfill

/-- A value that the dump gets past. -/
def Printable (type : UInt16) (v : MAPI_Value) : Prop := dump_value type v = .ok ()

/-- A value that has not been read yet. -/
theorem printable_zero (type : UInt16) : Printable type {} := by
  unfold Printable dump_value
  split_ifs <;> rfl

theorem printable_string {type : UInt16} {v : MAPI_Value} {b : Buffer}
    (htype : type = szMAPI_STRING ∨ type = szMAPI_UNICODE_STRING) (hdata : v.data = .buf b)
    (hb : b.Terminated) : Printable type v := by
  rw [Printable, dump_value, if_pos htype, hdata, write_string, c_str_of_terminated hb]
  rfl

theorem printable_binary {type : UInt16} {v : MAPI_Value} {b : Buffer}
    (htype : type = szMAPI_OBJECT ∨ type = szMAPI_BINARY) (hdata : v.data = .buf b)
    (hlen : v.len ≤ b.bytes.length) : Printable type v := by
  have hother : ¬ (type = szMAPI_STRING ∨ type = szMAPI_UNICODE_STRING) := by
    rcases htype with rfl | rfl <;> decide
  rw [Printable, dump_value, if_neg hother, if_pos htype, write_binary, hdata]
  exact dump_bytes_of_le hlen 0

/-- What the reader stores can be printed: a block has its length, and a NUL behind it. -/
theorem read_raw_printable {o : Options} {len : ℕ} {buf : List UInt8} {type : UInt16} {sh : Shape}
    (hsh : type_shape type = some sh) {i adv : ℕ} {x : MAPI_Value}
    (h : read_raw o len buf sh i = .ok (x, adv)) : Printable type x := by
  rcases type_shape_cases hsh with ⟨rfl, rfl⟩ | ⟨rfl, rfl | rfl | rfl⟩
    | ⟨rfl, rfl | rfl | rfl | rfl | rfl⟩ | ⟨rfl, rfl⟩ | ⟨rfl, htype⟩ | ⟨rfl, htype⟩
  case inr.inr.inr.inr.inl =>
    simp only [read_raw, bind_eq_ok, pure_eq_ok, Except.ok.injEq, Prod.mk.injEq] at h
    obtain ⟨_, -, n, -, _, -, _, -, b, hb, rfl, -⟩ := h
    exact printable_string (.inr htype) rfl (unicode_to_utf8_terminated hb)
  case inr.inr.inr.inr.inr =>
    simp only [read_raw, bind_eq_ok, pure_eq_ok, Except.ok.injEq, Prod.mk.injEq] at h
    obtain ⟨_, -, n, -, _, -, _, -, bs, hbs, rfl, -⟩ := h
    obtain ⟨-, hlen⟩ := rd_block_eq_ok.mp hbs
    rcases htype with htype | htype
    · exact printable_string (.inl htype) rfl (List.mem_append_right _ (List.mem_singleton_self _))
    · refine printable_binary htype rfl ?_
      show n.toNat ≤ (bs ++ [0]).length
      rw [List.length_append]
      omega
  all_goals rfl

/-- One turn of the value loop keeps every value printable. -/
theorem read_value_printable {o : Options} {len : ℕ} {buf : List UInt8} {type : UInt16}
    {s s' : ValueState} (hs : ∀ v ∈ s.values, Printable type v)
    (h : read_value o len buf type s = .ok (some s')) : ∀ v ∈ s'.values, Printable type v := by
  cases hsh : type_shape type with
  | none =>
    rw [read_value_of_no_shape hsh] at h
    split at h <;> cases h
  | some sh =>
    rw [read_value_of_shape hsh] at h
    simp only [bind_eq_ok, Except.ok.injEq, Option.some.injEq] at h
    obtain ⟨⟨x, adv⟩, hraw, s₁, hstore, rfl⟩ := h
    unfold ValueState.store at hstore
    split at hstore
    · cases hstore
      intro v hv
      rcases List.mem_or_eq_of_mem_set hv with hv | rfl
      · exact hs v hv
      · exact read_raw_printable hsh hraw
    · cases hstore

/-- The names of a property are C strings. -/
def NamesPrintable (a : MAPI_Attr) : Prop := ∀ name ∈ a.names, name.data.Terminated

theorem read_names_printable {len : ℕ} {buf : List UInt8} (n : ℕ) :
    ∀ {idx : ℕ} {names : List VarLenData} {r : ℕ × List VarLenData},
    (∀ name ∈ names, name.data.Terminated) → read_names len buf n idx names = .ok r →
    ∀ name ∈ r.2, name.data.Terminated := by
  induction n with
  | zero =>
    intro idx names r hnames h
    cases h
    exact hnames
  | succ n ih =>
    intro idx names r hnames h
    simp only [read_names, bind_eq_ok] at h
    obtain ⟨_, -, nlen, -, _, -, _, -, data, hdata, h⟩ := h
    apply ih _ h
    intro name hname
    rcases List.mem_append.mp hname with hname | hname
    · exact hnames name hname
    · rw [List.mem_singleton.mp hname]
      exact unicode_to_utf8_terminated hdata

theorem read_header_printable {o : Options} {len idx idx' : ℕ} {buf : List UInt8} {a : MAPI_Attr}
    (h : read_header o len buf idx = .ok (a, idx')) : NamesPrintable a := by
  simp only [read_header, bind_eq_ok] at h
  obtain ⟨_, -, _, -, type, -, _, -, name, -, h⟩ := h
  split_ifs at h
  · simp only [read_guid_block, bind_eq_ok] at h
    obtain ⟨_, -, guid, -, _, -, num_names, -, h⟩ := h
    split_ifs at h
    · simp only [bind_eq_ok, pure_eq_ok, Except.ok.injEq, Prod.mk.injEq] at h
      obtain ⟨_, -, r, hr, rfl, -⟩ := h
      exact read_names_printable _ (by simp) hr
    · simp only [bind_eq_ok, pure_eq_ok, Except.ok.injEq, Prod.mk.injEq] at h
      obtain ⟨_, -, id, -, rfl, -⟩ := h
      simp [NamesPrintable]
  · cases h
    simp [NamesPrintable]

theorem forM_ok {α : Type} {f : α → M Unit} {xs : List α} (h : ∀ x ∈ xs, f x = .ok ()) :
    xs.forM f = .ok () := by
  induction xs with
  | nil => rfl
  | cons x xs ih =>
    show (f x >>= fun _ => xs.forM f) = .ok ()
    rw [h x (List.mem_cons_self ..), ok_bind]
    exact ih fun y hy => h y (List.mem_cons_of_mem _ hy)

theorem mapi_attr_dump_of_printable {a : MAPI_Attr} (hnames : NamesPrintable a)
    (hvalues : ∀ v ∈ a.values, Printable a.type v) : mapi_attr_dump a = .ok () := by
  have hfirst : (a.names.forM fun name => (do let _ ← name.data.c_str : M Unit)) = .ok () := by
    apply forM_ok
    intro name hname
    rw [c_str_of_terminated (hnames name hname)]
    rfl
  rw [mapi_attr_dump, hfirst, ok_bind]
  exact forM_ok fun v hv => hvalues v (List.mem_of_mem_take hv)

/-! ## The dump changes nothing -/

theorem read_values_dump_eq (o : Options) (len : ℕ) (buf : List UInt8) {a : MAPI_Attr}
    (hnames : NamesPrintable a) (n : ℕ) : ∀ s : ValueState,
    (∀ v ∈ s.values, Printable a.type v) →
    read_values_dump o len buf a n s = read_values o len buf a.type n s := by
  induction n with
  | zero =>
    intro s _
    rfl
  | succ n ih =>
    intro s hs
    rw [read_values_dump, read_values]
    apply bind_congr_ok
    intro r hr
    rcases r with _ | s'
    · rfl
    · have hs' := read_value_printable hs hr
      have hdump : mapi_attr_dump { a with values := s'.values } = .ok () :=
        mapi_attr_dump_of_printable hnames hs'
      have hrest := ih s' hs'
      by_cases hdbg : o.dbg_out = true
      · simp only [if_pos hdbg]
        rw [hdump, ok_bind]
        exact hrest
      · simp only [if_neg hdbg]
        exact hrest

theorem read_property_dump_eq (o : Options) (len : ℕ) (buf : List UInt8) (idx : ℕ) :
    read_property_dump o len buf idx = read_property o len buf idx := by
  rw [read_property_dump, read_property]
  apply bind_congr_ok
  rintro ⟨a, idx₁⟩ hheader
  apply bind_congr_ok
  rintro ⟨num_values, idx₂⟩ -
  apply bind_congr_ok
  intro values halloc
  have hzero : ∀ v ∈ values, Printable (amend_type a.type) v := by
    unfold alloc_mapi_values at halloc
    split at halloc
    · simp only [bind_eq_ok, pure_eq_ok, Except.ok.injEq] at halloc
      obtain ⟨_, -, rfl⟩ := halloc
      intro v hv
      rw [List.eq_of_mem_replicate hv]
      exact printable_zero _
    · cases halloc
  have hheader' : NamesPrintable a := read_header_printable hheader
  have hnames : NamesPrintable { a with type := amend_type a.type, num_values := num_values } :=
    hheader'
  have hloop := read_values_dump_eq o len buf hnames num_values ⟨idx₂, values, 0⟩ hzero
  generalize read_values_dump o len buf
    { a with type := amend_type a.type, num_values := num_values } num_values ⟨idx₂, values, 0⟩
      = r at hloop ⊢
  subst hloop
  rfl

theorem read_properties_dump_eq (o : Options) (len : ℕ) (buf : List UInt8) (n : ℕ) :
    ∀ (idx : ℕ) (attrs : List MAPI_Attr),
    read_properties_dump o len buf n idx attrs = read_properties o len buf n idx attrs := by
  induction n with
  | zero =>
    intro idx attrs
    rfl
  | succ n ih =>
    intro idx attrs
    rw [read_properties_dump, read_properties, read_property_dump_eq]
    apply bind_congr_ok
    intro r _
    rcases r with _ | ⟨a, idx'⟩
    · rfl
    · exact ih idx' (attrs ++ [a])

/-- **The dump of the properties changes nothing.** -/
theorem mapi_attr_read_dump_eq (o : Options) (len : ℕ) (buf : List UInt8) :
    mapi_attr_read_dump o len buf = mapi_attr_read o len buf := by
  rw [mapi_attr_read_dump, mapi_attr_read]
  simp only [read_properties_dump_eq]

end Tnef
