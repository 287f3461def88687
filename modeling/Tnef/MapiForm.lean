/-
Properties by their bytes alone.

`FormAt` is the form of a property, whatever the allocation limit and however many values
it has, none included. An `Entry` is a byte string of that form, its padding taken as it
comes. Where it lies in a list does not matter, and `mapi_attr_read` either reads all entries
of a list or stops: it stops for a property without values, for one whose requests the limit
refuses, and for the array of pointers (`mapi_attr_read_entries`).
-/
import Tnef.MapiTail

set_option autoImplicit false

namespace Tnef

open ExceptRules Slice LittleEndian Layout

/-! ## The form and the limit -/

/-- A property stands at `i`, and what follows it at `j`. -/
def FormAt (buf : List UInt8) (i : ℕ) (a : MAPI_Attr) (j : ℕ) : Prop :=
  ∃ h i₁ i₂ xs sh, HeaderAt {} buf i h i₁ ∧ CountAt buf h.type i₁ xs.length i₂
    ∧ type_shape (amend_type h.type) = some sh ∧ Chain (ValueAt {} buf sh) i₂ xs j
    ∧ a = { h with type := amend_type h.type, num_values := xs.length,
                   values := value_array (amend_type h.type) xs }

/-- The requests that reading a property makes. -/
structure MAPI_Attr.Granted (o : Options) (a : MAPI_Attr) : Prop where
  attr : o.Admits sizeof_MAPI_Attr
  guid : a.guid ≠ none → o.Admits sizeof_GUID
  names : o.Admits (a.num_names * sizeof_VarLenData)
  values : o.Admits (a.num_values * sizeof_MAPI_Value)
  value : type_shape a.type = some .bytes → ∀ v ∈ a.values, o.Admits v.len

theorem admits_unlimited (n : ℕ) : ({} : Options).Admits n := .inl rfl

theorem guidBlockAt_iff {o : Options} {buf : List UInt8} {a a' : MAPI_Attr} {i j : ℕ}
    (hnames : a.num_names = 0) :
    GuidBlockAt o buf a i a' j ↔ GuidBlockAt {} buf a i a' j
      ∧ (a'.guid ≠ none → o.Admits sizeof_GUID) ∧ o.Admits (a'.num_names * sizeof_VarLenData) := by
  constructor
  · intro h
    cases h with
    | numbered g id hlim hat =>
      refine ⟨.numbered g id (admits_unlimited _) hat, fun _ => hlim, .inr ?_⟩
      simp [hnames]
    | named g k names hlim hat hk hlim' hlen hchain =>
      exact ⟨.named g k names (admits_unlimited _) hat hk (admits_unlimited _) hlen hchain,
        fun _ => hlim, hlim'⟩
  · rintro ⟨h, hlim, hlim'⟩
    cases h with
    | numbered g id _ hat => exact .numbered g id (hlim (by simp)) hat
    | named g k names _ hat hk _ hlen hchain =>
      exact .named g k names (hlim (by simp)) hat hk hlim' hlen hchain

theorem headerAt_iff {o : Options} {buf : List UInt8} {h : MAPI_Attr} {i j : ℕ} :
    HeaderAt o buf i h j ↔ HeaderAt {} buf i h j ∧ o.Admits sizeof_MAPI_Attr
      ∧ (h.guid ≠ none → o.Admits sizeof_GUID) ∧ o.Admits (h.num_names * sizeof_VarLenData) := by
  constructor
  · intro hat
    cases hat with
    | plain type name hlim hat hname =>
      refine ⟨.plain type name (admits_unlimited _) hat hname, hlim, fun hne => absurd rfl hne, .inr ?_⟩
      simp
    | guid type name hlim hat hname hblock =>
      obtain ⟨hblock', hguid, hnames⟩ := (guidBlockAt_iff rfl).mp hblock
      exact ⟨.guid type name (admits_unlimited _) hat hname hblock', hlim, hguid, hnames⟩
  · rintro ⟨hat, hlim, hguid, hnames⟩
    cases hat with
    | plain type name _ hat hname => exact .plain type name hlim hat hname
    | guid type name _ hat hname hblock =>
      exact .guid type name hlim hat hname ((guidBlockAt_iff rfl).mpr ⟨hblock, hguid, hnames⟩)

theorem valueAt_iff {o : Options} {buf : List UInt8} {sh : Shape} (i : ℕ) (x : MAPI_Value) (j : ℕ) :
    ValueAt o buf sh i x j ↔ ValueAt {} buf sh i x j ∧ (sh = .bytes → o.Admits x.len) := by
  constructor
  · intro h
    cases h with
    | two x hat => exact ⟨.two x hat, nofun⟩
    | four x hat => exact ⟨.four x hat, nofun⟩
    | eight x₀ x₁ hat => exact ⟨.eight x₀ x₁ hat, nofun⟩
    | guid g hat => exact ⟨.guid g hat, nofun⟩
    | unicode n bs hlen hne hat => exact ⟨.unicode n bs hlen hne hat, nofun⟩
    | bytes n bs hlen hlim hat => exact ⟨.bytes n bs hlen (admits_unlimited _) hat, fun _ => hlim⟩
  · rintro ⟨h, hlim⟩
    cases h with
    | two x hat => exact .two x hat
    | four x hat => exact .four x hat
    | eight x₀ x₁ hat => exact .eight x₀ x₁ hat
    | guid g hat => exact .guid g hat
    | unicode n bs hlen hne hat => exact .unicode n bs hlen hne hat
    | bytes n bs hlen _ hat => exact .bytes n bs hlen (hlim rfl) hat

/-- The values of a string, an object or a binary are stored one behind the other. -/
theorem value_array_of_bytes {type : UInt16} (h : type_shape type = some .bytes)
    (xs : List MAPI_Value) : value_array type xs = xs := by
  have hstep : value_step type = 1 := by
    rcases type_shape_cases h with ⟨hsh, -⟩ | ⟨hsh, -⟩ | ⟨hsh, -⟩ | ⟨hsh, -⟩ | ⟨hsh, -⟩
      | ⟨-, rfl | rfl | rfl⟩
    · cases hsh
    · cases hsh
    · cases hsh
    · cases hsh
    · cases hsh
    · rfl
    · rfl
    · rfl
  rw [value_array, hstep]
  exact store_values_step_one xs []

/-- **A property that is read** has the form of one, has values, and is within the limit. -/
theorem propertyAt_iff {o : Options} {buf : List UInt8} {i j : ℕ} {a : MAPI_Attr} :
    PropertyAt o buf i a j ↔ FormAt buf i a j ∧ a.num_values ≠ 0 ∧ a.Granted o := by
  constructor
  · rintro ⟨h, i₁, i₂, xs, sh, hheader, hcount, hne, hlim, hsh, hchain, rfl⟩
    obtain ⟨hheader', hattr, hguid, hnames⟩ := headerAt_iff.mp hheader
    obtain ⟨hchain', hvalue⟩ := (chain_and_iff valueAt_iff).mp hchain
    refine ⟨⟨h, i₁, i₂, xs, sh, hheader', hcount, hsh, hchain', rfl⟩, ?_, hattr, hguid, hnames, hlim, ?_⟩
    · exact fun hzero => hne (List.length_eq_zero_iff.mp hzero)
    · intro hbytes v hv
      simp only at hbytes hv
      rw [value_array_of_bytes hbytes] at hv
      exact hvalue v hv (Option.some.inj (hsh.symm.trans hbytes))
  · rintro ⟨⟨h, i₁, i₂, xs, sh, hheader, hcount, hsh, hchain, rfl⟩, hne, hattr, hguid, hnames, hlim,
      hvalue⟩
    refine ⟨h, i₁, i₂, xs, sh, headerAt_iff.mpr ⟨hheader, hattr, hguid, hnames⟩, hcount, ?_, hlim, hsh,
      (chain_and_iff valueAt_iff).mpr ⟨hchain, ?_⟩, rfl⟩
    · rintro rfl
      exact hne rfl
    · rintro v hv rfl
      apply hvalue hsh v
      simp only
      rwa [value_array_of_bytes hsh]

/-! ## Each offset has one property -/

section Unique

variable {buf : List UInt8} (hbuf : buf.length < 2 ^ 64)

include hbuf

theorem headerAt_unique {i j j' : ℕ} {h h' : MAPI_Attr} (hat : HeaderAt {} buf i h j)
    (hat' : HeaderAt {} buf i h' j') : h = h' ∧ j = j' := by
  have hread := (read_header_eq_ok hbuf).mpr hat
  rw [(read_header_eq_ok hbuf).mpr hat'] at hread
  cases hread
  exact ⟨rfl, rfl⟩

theorem valueAt_unique {sh : Shape} (i : ℕ) (x : MAPI_Value) (j : ℕ) (x' : MAPI_Value) (j' : ℕ)
    (hat : ValueAt {} buf sh i x j) (hat' : ValueAt {} buf sh i x' j') : x = x' ∧ j = j' := by
  -- every form moves the cursor forward
  have hforward : ∀ {x j}, ValueAt {} buf sh i x j → ∃ adv, j = i + adv := by
    intro x j h
    refine ⟨j - i, ?_⟩
    cases h <;> omega
  obtain ⟨adv, rfl⟩ := hforward hat
  obtain ⟨adv', rfl⟩ := hforward hat'
  have hread := (read_raw_eq_ok hbuf).mpr hat
  rw [(read_raw_eq_ok hbuf).mpr hat'] at hread
  cases hread
  exact ⟨rfl, rfl⟩

omit hbuf in
theorem countAt_unique {type : UInt16} {i n j n' j' : ℕ} (hat : CountAt buf type i n j)
    (hat' : CountAt buf type i n' j') : n = n' ∧ j = j' := by
  have hread := read_num_values_eq_ok.mpr hat
  rw [read_num_values_eq_ok.mpr hat'] at hread
  cases hread
  exact ⟨rfl, rfl⟩

theorem formAt_unique {i j j' : ℕ} {a a' : MAPI_Attr} (hat : FormAt buf i a j)
    (hat' : FormAt buf i a' j') : a = a' ∧ j = j' := by
  obtain ⟨h, i₁, i₂, xs, sh, hheader, hcount, hsh, hchain, rfl⟩ := hat
  obtain ⟨h', i₁', i₂', xs', sh', hheader', hcount', hsh', hchain', rfl⟩ := hat'
  obtain ⟨rfl, rfl⟩ := headerAt_unique hbuf hheader hheader'
  obtain ⟨hlen, rfl⟩ := countAt_unique hcount hcount'
  obtain rfl : sh = sh' := Option.some.inj (hsh.symm.trans hsh')
  obtain ⟨rfl, rfl⟩ := hchain.unique (valueAt_unique hbuf) hchain' hlen
  exact ⟨rfl, rfl⟩

end Unique

/-! ## Elsewhere in a list -/

section Shift

variable {buf bs : List UInt8} {d : ℕ} (hbs : At buf d bs)

include hbs

theorem nameAt_shift (i : ℕ) (x : VarLenData) (j : ℕ) (h : NameAt bs i x j) :
    NameAt buf (d + i) x (d + j) := by
  obtain ⟨n, cs, hlen, hne, hat⟩ := h
  have hname := NameAt.mk n cs hlen hne (hat.trans hbs)
  rwa [Nat.add_assoc] at hname

theorem guidBlockAt_shift {a a' : MAPI_Attr} {i j : ℕ} (h : GuidBlockAt {} bs a i a' j) :
    GuidBlockAt {} buf a (d + i) a' (d + j) := by
  cases h with
  | numbered g id hlim hat =>
    have hblock := GuidBlockAt.numbered (a := a) g id hlim (hat.trans hbs)
    rwa [Nat.add_assoc] at hblock
  | named g k names hlim hat hk hlim' hlen hchain =>
    have hchain' := hchain.shift (nameAt_shift hbs)
    rw [← Nat.add_assoc] at hchain'
    exact .named g k names hlim (hat.trans hbs) hk hlim' hlen hchain'

theorem headerAt_shift {h : MAPI_Attr} {i j : ℕ} (hat : HeaderAt {} bs i h j) :
    HeaderAt {} buf (d + i) h (d + j) := by
  cases hat with
  | plain type name hlim hat hname =>
    have hheader := HeaderAt.plain type name hlim (hat.trans hbs) hname
    rwa [Nat.add_assoc] at hheader
  | guid type name hlim hat hname hblock =>
    have hblock' := guidBlockAt_shift hbs hblock
    rw [← Nat.add_assoc] at hblock'
    exact .guid type name hlim (hat.trans hbs) hname hblock'

theorem countAt_shift {type : UInt16} {i n j : ℕ} (h : CountAt bs type i n j) :
    CountAt buf type (d + i) n (d + j) := by
  unfold CountAt at h ⊢
  by_cases hcounted : counted type
  · rw [if_pos hcounted] at h ⊢
    obtain ⟨w, hat, hn, rfl⟩ := h
    exact ⟨w, hat.trans hbs, hn, (Nat.add_assoc d i 4).symm⟩
  · rw [if_neg hcounted] at h ⊢
    exact ⟨h.1, by rw [h.2]⟩

theorem valueAt_shift {sh : Shape} (i : ℕ) (x : MAPI_Value) (j : ℕ) (h : ValueAt {} bs sh i x j) :
    ValueAt {} buf sh (d + i) x (d + j) := by
  cases h with
  | two x hat => exact .two x (hat.trans hbs)
  | four x hat => exact .four x (hat.trans hbs)
  | eight x₀ x₁ hat => exact .eight x₀ x₁ (hat.trans hbs)
  | guid g hat => exact .guid g (hat.trans hbs)
  | unicode n cs hlen hne hat =>
    have hvalue := ValueAt.unicode (o := {}) n cs hlen hne (hat.trans hbs)
    rwa [Nat.add_assoc] at hvalue
  | bytes n cs hlen hlim hat =>
    have hvalue := ValueAt.bytes n cs hlen hlim (hat.trans hbs)
    rwa [Nat.add_assoc] at hvalue

/-- A property stands wherever its bytes stand. -/
theorem formAt_shift {a : MAPI_Attr} {i j : ℕ} (h : FormAt bs i a j) :
    FormAt buf (d + i) a (d + j) := by
  obtain ⟨hd, i₁, i₂, xs, sh, hheader, hcount, hsh, hchain, rfl⟩ := h
  exact ⟨hd, d + i₁, d + i₂, xs, sh, headerAt_shift hbs hheader, countAt_shift hbs hcount, hsh,
    hchain.shift (valueAt_shift hbs), rfl⟩

end Shift

/-! ## Entries -/

/-- **A well-formed property**: its bytes, type and tag, and what they denote. -/
structure Entry where
  bytes : List UInt8
  type : UInt16
  tag : UInt16
  attr : MAPI_Attr
  words : At bytes 0 (le16 type ++ le16 tag)
  form : FormAt bytes 0 attr bytes.length

/-- The property has values, and the limit lets its requests through. -/
structure Entry.Readable (o : Options) (p : Entry) : Prop where
  num_values : p.attr.num_values ≠ 0
  granted : p.attr.Granted o

/-- A list of properties: their number, and one behind the other. -/
def encode_entries (ps : List Entry) : List UInt8 :=
  le32 (UInt32.ofNat ps.length) ++ ps.flatMap Entry.bytes

/-- The name a property is read under is its tag, unless a number follows its GUID. -/
theorem Entry.name_eq (p : Entry) (h : p.attr.guid = none ∨ p.attr.num_names ≠ 0) :
    p.attr.name = p.tag.toUInt32 := by
  obtain ⟨hd, i₁, i₂, xs, sh, hheader, -, -, -, hattr⟩ := p.form
  have hwords : ∀ {type name : UInt16}, At p.bytes 0 (le16 type ++ le16 name) → name = p.tag := by
    intro type name hat
    have htag := GETINT16_of_at (at_append.mp p.words).2
    have hname := GETINT16_of_at (at_append.mp hat).2
    rw [le16_length] at htag hname
    exact Except.ok.inj (hname.symm.trans htag)
  rw [hattr] at h ⊢
  cases hheader with
  | plain type name hlim hat hname => rw [← hwords hat]
  | guid type name hlim hat hname hblock =>
    rw [← hwords hat]
    cases hblock with
    | numbered g id hlim' hat' => simp at h
    | named g k names hlim' hat' hk hlim'' hlen hchain => rfl

theorem Entry.length_ge (p : Entry) : 4 ≤ p.bytes.length := by
  have hle := p.words.le
  rw [List.length_append, le16_length, le16_length] at hle
  omega

theorem encode_entries_length_ge (ps : List Entry) :
    4 + 4 * ps.length ≤ (encode_entries ps).length := by
  have hentries : 4 * ps.length ≤ (ps.flatMap Entry.bytes).length := by
    induction ps with
    | nil => exact le_rfl
    | cons p ps ih =>
      have hp := p.length_ge
      rw [List.flatMap_cons, List.length_append, List.length_cons]
      omega
  rw [encode_entries, List.length_append, le32_length]
  omega

/-- With a form the list is never given up. -/
theorem read_values_ne_none {o : Options} {len : ℕ} {buf : List UInt8} {type : UInt16} {sh : Shape}
    (hsh : type_shape type = some sh) (n : ℕ) :
    ∀ s : ValueState, read_values o len buf type n s ≠ .ok none := by
  induction n with
  | zero =>
    intro s h
    cases h
  | succ n ih =>
    intro s h
    rw [read_values, read_value_of_shape hsh] at h
    simp only [bind_eq_ok] at h
    obtain ⟨r, ⟨x, -, s', -, hr⟩, h⟩ := h
    cases hr
    exact ih s' h

section Read

variable {o : Options} {data : List UInt8} (hdata : data.length < 2 ^ 64)

include hdata

/-- **A property is read, or the run stops at it.** -/
theorem read_property_form {i j : ℕ} {a : MAPI_Attr} (h : FormAt data i a j) :
    (a.num_values ≠ 0 ∧ a.Granted o → read_property o data.length data i = .ok (some (a, j)))
      ∧ (¬ (a.num_values ≠ 0 ∧ a.Granted o) → ∃ e, read_property o data.length data i = .error e) := by
  refine ⟨?_, ?_⟩
  · intro hread
    exact (read_property_eq_ok hdata).mpr (propertyAt_iff.mpr ⟨h, hread⟩)
  · intro hnot
    rcases hread : read_property o data.length data i with e | _ | ⟨a', j'⟩
    · exact ⟨e, rfl⟩
    · exfalso
      -- a list is only given up at a type of no shape, and this one has a shape
      obtain ⟨hd, i₁, i₂, xs, sh, hheader, hcount, hsh, hchain, rfl⟩ := h
      simp only [read_property, bind_eq_ok] at hread
      obtain ⟨⟨hd', i₁'⟩, hheader', ⟨n, i₂'⟩, -, vs, -, r, hvalues, hr⟩ := hread
      obtain ⟨rfl, -⟩ := headerAt_unique hdata hheader
        (headerAt_iff.mp ((read_header_eq_ok hdata).mp hheader')).1
      rcases r with _ | s'
      · exact read_values_ne_none hsh n _ hvalues
      · cases hr
    · have hat := propertyAt_iff.mp ((read_property_eq_ok hdata).mp hread)
      obtain ⟨rfl, -⟩ := formAt_unique hdata h hat.1
      exact absurd hat.2 hnot

/-- The loop reads all entries, or stops at one of them. -/
theorem read_properties_entries (ps : List Entry) : ∀ {i : ℕ} {attrs : List MAPI_Attr},
    At data i (ps.flatMap Entry.bytes) →
    ((∀ p ∈ ps, p.Readable o) → read_properties o data.length data ps.length i attrs
        = .ok (some (attrs ++ ps.map Entry.attr)))
      ∧ (¬ (∀ p ∈ ps, p.Readable o) →
        ∃ e, read_properties o data.length data ps.length i attrs = .error e) := by
  induction ps with
  | nil =>
    intro i attrs _
    refine ⟨fun _ => ?_, fun hnot => absurd (fun p hp => absurd hp List.not_mem_nil) hnot⟩
    rw [List.map_nil, List.append_nil]
    rfl
  | cons p ps ih =>
    intro i attrs hat
    rw [List.flatMap_cons, at_append] at hat
    have hform := formAt_shift hat.1 p.form
    rw [Nat.add_zero] at hform
    obtain ⟨hgo, hstop⟩ := read_property_form (o := o) hdata hform
    rw [List.length_cons, read_properties]
    by_cases hp : p.Readable o
    · rw [hgo ⟨hp.num_values, hp.granted⟩, ok_bind]
      have hnext := @ih (i + p.bytes.length) (attrs ++ [p.attr]) hat.2
      rw [List.append_assoc, List.singleton_append, ← List.map_cons] at hnext
      simp only [List.forall_mem_cons, hp, true_and]
      exact hnext
    · obtain ⟨e, he⟩ := hstop fun hand => hp ⟨hand.1, hand.2⟩
      rw [he]
      refine ⟨fun hall => absurd (hall p (List.mem_cons_self ..)) hp, fun _ => ⟨e, rfl⟩⟩

end Read

/-- What a list of properties needs in front of them: a count below 2 ^ 32 - 1, and room for
the pointers. -/
structure Announced (o : Options) (len : ℕ) (num_properties : UInt32) : Prop where
  long : 4 < len
  count : num_properties + 1 ≠ 0
  pointers : o.Admits ((num_properties + 1).toNat * sizeof_ptr)

/-- Behind the count the properties are read, or the program has stopped. -/
theorem mapi_attr_read_of_count (o : Options) {attr : Attr} {num_properties : UInt32}
    (hat : At attr.data 0 (le32 num_properties)) :
    (Announced o attr.data.length num_properties → mapi_attr_read o attr.len attr.buf
        = read_properties o attr.data.length attr.data num_properties.toNat 4 []
          >>= fun attrs => .ok (attrs.map fun as => as.map some ++ [none]))
      ∧ (¬ Announced o attr.data.length num_properties →
        ∃ e, mapi_attr_read o attr.len attr.buf = .error e) := by
  rw [mapi_attr_read_attr]
  refine ⟨?_, ?_⟩
  · rintro ⟨hlong, hcount, hpointers⟩
    rw [mapi_attr_read, assert_of hlong, ok_bind, GETINT32_of_at hat, ok_bind, assert_of hcount,
      ok_bind, (checked_xmalloc_eq_ok (attrs_size_lt _)).mpr ⟨hpointers, rfl⟩, ok_bind]
    rfl
  · intro hnot
    rcases hread : mapi_attr_read o attr.data.length attr.data with e | r
    · exact ⟨e, rfl⟩
    · exfalso
      simp only [mapi_attr_read, GETINT32_of_at hat, bind_eq_ok, assert_eq_ok, Except.ok.injEq,
        exists_eq_left', checked_xmalloc_eq_ok (attrs_size_lt _)] at hread
      obtain ⟨_, hlong, _, hcount, _, ⟨hpointers, -⟩, -⟩ := hread
      exact hnot ⟨hlong, hcount, hpointers⟩

/-- Every entry is readable, and there is room for the pointers. -/
structure ReadableList (o : Options) (ps : List Entry) : Prop where
  pointers : o.Admits ((ps.length + 1) * sizeof_ptr)
  entries : ∀ p ∈ ps, p.Readable o

/-- **`mapi_attr_read` on a well-formed list**: all of it, or an error. -/
theorem mapi_attr_read_entries (o : Options) {attr : Attr} {ps : List Entry} (hne : ps ≠ [])
    (hdata : attr.data = encode_entries ps) :
    (ReadableList o ps → mapi_attr_read o attr.len attr.buf
        = .ok (some ((ps.map Entry.attr).map some ++ [none])))
      ∧ (¬ ReadableList o ps → ∃ e, mapi_attr_read o attr.len attr.buf = .error e) := by
  have hfits : (encode_entries ps).length < 2 ^ 32 := by
    rw [← hdata]
    exact attr.fits
  have hlen := encode_entries_length_ge ps
  have hpos : 0 < ps.length := List.length_pos_of_ne_nil hne
  have hn := UInt32.toNat_ofNat_of_lt' (show ps.length < 2 ^ 32 by omega)
  have hn1 : (UInt32.ofNat ps.length + 1).toNat = ps.length + 1 := by
    rw [UInt32.toNat_add, hn]
    exact Nat.mod_eq_of_lt (show ps.length + 1 < 2 ^ 32 by omega)
  -- the entries take four bytes each, so their number is far from wrapping
  have hcount : UInt32.ofNat ps.length + 1 ≠ 0 := by
    intro hzero
    rw [hzero] at hn1
    exact absurd hn1 (by simp)
  obtain ⟨hword, hentries⟩ := at_append.mp (at_zero (encode_entries ps))
  have hlist := @mapi_attr_read_of_count o attr (UInt32.ofNat ps.length) (by rw [hdata]; exact hword)
  rw [hdata, hn] at hlist
  obtain ⟨hread, hrefused⟩ := hlist
  obtain ⟨hall, hstop⟩ := @read_properties_entries o _ (hfits.trans (by decide)) ps _ [] hentries
  rw [Nat.zero_add, le32_length] at hall hstop
  have hpointers : Announced o (encode_entries ps).length (UInt32.ofNat ps.length)
      ↔ o.Admits ((ps.length + 1) * sizeof_ptr) := by
    rw [← hn1]
    exact ⟨fun h => h.pointers, fun h => ⟨by omega, hcount, h⟩⟩
  refine ⟨?_, ?_⟩
  · rintro ⟨hroom, hentries⟩
    rw [hread (hpointers.mpr hroom), hall hentries]
    rfl
  · intro hlist
    by_cases hroom : o.Admits ((ps.length + 1) * sizeof_ptr)
    · obtain ⟨e, he⟩ := hstop fun hentries => hlist ⟨hroom, hentries⟩
      exact ⟨e, by rw [hread (hpointers.mpr hroom), he]; rfl⟩
    · exact hrefused fun h => hroom (hpointers.mp h)

end Tnef
