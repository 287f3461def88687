/-
Property lists with properties that are not decoded.

A type that is null, an error, unspecified or undefined has no form. Under `--ignore-encode`
a list is given up at the first property of such a type that has a value: `mapi_attr_read`
returns NULL, whatever has been read in front of it and whatever comes behind
(`mapi_attr_read_eq_none`). Without the option the program exits there.

A `ListItem` is a property of any sort, and it comes to the same wherever it stands. So the
order of the items of a list matters in one case only, where the list can be given up at
one of them and the program stops at another (`mapi_attr_read_perm`).
-/
import Tnef.MapiForm

set_option autoImplicit false

namespace Tnef

open ExceptRules Slice LittleEndian Layout

/-! ## One property -/

/-- A property that is not decoded stands at `i`: a header, at least one value, and a type
without a form; what comes behind is not looked at. -/
def UndecodedAt (o : Options) (buf : List UInt8) (i : ℕ) : Prop :=
  ∃ h i₁ n i₂, HeaderAt o buf i h i₁ ∧ CountAt buf h.type i₁ n i₂ ∧ n ≠ 0
    ∧ o.Admits (n * sizeof_MAPI_Value) ∧ type_shape (amend_type h.type) = none

/-- The first turn of the value loop gives up, or exits. -/
theorem read_values_of_no_shape {o : Options} {len : ℕ} {buf : List UInt8} {type : UInt16}
    (hsh : type_shape type = none) {n : ℕ} (hn : n ≠ 0) (s : ValueState) :
    read_values o len buf type n s = if o.encode_ok then .ok none else .error (.exit 1) := by
  obtain ⟨m, rfl⟩ := Nat.exists_eq_succ_of_ne_zero hn
  rw [read_values, read_value_of_no_shape hsh]
  split_ifs <;> rfl

section Read

variable {o : Options} {data : List UInt8} (hdata : data.length < 2 ^ 64)

include hdata

/-- **A property at which the list is given up.** -/
theorem read_property_eq_none {i : ℕ} : read_property o data.length data i = .ok none
    ↔ o.encode_ok = true ∧ UndecodedAt o data i := by
  constructor
  · intro h
    simp only [read_property, bind_eq_ok] at h
    obtain ⟨⟨hd, i₁⟩, hheader, ⟨n, i₂⟩, hcount, vs, halloc, r, hvalues, hr⟩ := h
    have hcount' := read_num_values_eq_ok.mp hcount
    obtain ⟨hn, hlim, -⟩ := (alloc_mapi_values_eq_ok (countAt_lt hcount')).mp halloc
    rcases r with _ | s'
    · -- a type with a form never gives up
      have hsh : type_shape (amend_type hd.type) = none := by
        by_contra hsome
        obtain ⟨sh, hsh⟩ := Option.ne_none_iff_exists'.mp hsome
        exact read_values_ne_none hsh n _ hvalues
      rw [read_values_of_no_shape hsh hn] at hvalues
      split_ifs at hvalues with hencode
      exact ⟨hencode, hd, i₁, n, i₂, (read_header_eq_ok hdata).mp hheader, hcount', hn, hlim, hsh⟩
    · cases hr
  · rintro ⟨hencode, hd, i₁, n, i₂, hheader, hcount, hn, hlim, hsh⟩
    rw [read_property, (read_header_eq_ok hdata).mpr hheader, ok_bind]
    simp only
    rw [read_num_values_eq_ok.mpr hcount, ok_bind]
    simp only
    rw [(alloc_mapi_values_eq_ok (countAt_lt hcount)).mpr ⟨hn, hlim, rfl⟩, ok_bind,
      read_values_of_no_shape hsh hn, if_pos hencode]
    rfl

/-- **A list is given up** at a property that is not decoded, behind properties that are. -/
theorem read_properties_eq_none (n : ℕ) : ∀ {i : ℕ} {attrs : List MAPI_Attr},
    read_properties o data.length data n i attrs = .ok none
      ↔ o.encode_ok = true ∧ ∃ xs j, xs.length < n ∧ Chain (PropertyAt o data) i xs j
        ∧ UndecodedAt o data j := by
  induction n with
  | zero =>
    intro i attrs
    simp [read_properties]
  | succ n ih =>
    intro i attrs
    rw [read_properties, bind_eq_ok]
    constructor
    · rintro ⟨r, hr, hrest⟩
      rcases r with _ | ⟨a, i'⟩
      · obtain ⟨hencode, hat⟩ := (read_property_eq_none hdata).mp hr
        exact ⟨hencode, [], i, by simp, .nil i, hat⟩
      · obtain ⟨hencode, xs, j, hlen, hchain, hat⟩ := ih.mp hrest
        exact ⟨hencode, a :: xs, j, by simpa using hlen,
          .cons ((read_property_eq_ok hdata).mp hr) hchain, hat⟩
    · rintro ⟨hencode, xs, j, hlen, hchain, hat⟩
      rcases xs with _ | ⟨a, xs⟩
      · rw [chain_nil] at hchain
        subst hchain
        exact ⟨none, (read_property_eq_none hdata).mpr ⟨hencode, hat⟩, rfl⟩
      · obtain ⟨i', ha, hrest⟩ := chain_cons.mp hchain
        refine ⟨some (a, i'), (read_property_eq_ok hdata).mpr ha, ?_⟩
        exact ih.mpr ⟨hencode, xs, j, by simpa using hlen, hrest, hat⟩

end Read

/-! ## The list of an attribute -/

/-- The list of the attribute is read, without a stop, up to a property that is not decoded. -/
structure UndecodedList (o : Options) (attr : Attr) : Prop where
  long : 4 < attr.data.length
  reached : ∃ (num_properties : UInt32) (xs : List MAPI_Attr) (j : ℕ),
    At attr.data 0 (le32 num_properties) ∧ num_properties + 1 ≠ 0
      ∧ o.Admits ((num_properties + 1).toNat * sizeof_ptr) ∧ xs.length < num_properties.toNat
      ∧ Chain (PropertyAt o attr.data) 4 xs j ∧ UndecodedAt o attr.data j

/-- **`mapi_attr_read` returns NULL** for exactly these lists, under `--ignore-encode`. -/
theorem mapi_attr_read_eq_none {o : Options} {attr : Attr} :
    mapi_attr_read o attr.len attr.buf = .ok none
      ↔ o.encode_ok = true ∧ UndecodedList o attr := by
  have hdata : attr.data.length < 2 ^ 64 := lt_trans attr.fits (by decide)
  rw [mapi_attr_read_attr, mapi_attr_read]
  simp only [bind_eq_ok, assert_eq_ok, GETINT32_eq_ok, pure_eq_ok, Except.ok.injEq,
    checked_xmalloc_eq_ok (attrs_size_lt _), Option.map_eq_none_iff]
  constructor
  · rintro ⟨_, hlong, n, hn, _, hne, _, ⟨hlim, -⟩, r, hread, rfl⟩
    obtain ⟨hencode, xs, j, hlen, hchain, hat⟩ := (read_properties_eq_none hdata _).mp hread
    exact ⟨hencode, hlong, n, xs, j, hn, hne, hlim, hlen, hchain, hat⟩
  · rintro ⟨hencode, hlong, n, xs, j, hn, hne, hlim, hlen, hchain, hat⟩
    exact ⟨(), hlong, n, hn, (), hne, _, ⟨hlim, rfl⟩, none,
      (read_properties_eq_none hdata _).mpr ⟨hencode, xs, j, hlen, hchain, hat⟩, rfl⟩

/-! ## Blocks that stand anywhere -/

/-- The block is a property that is read, wherever it stands. -/
def Reads (o : Options) (bs : List UInt8) (a : MAPI_Attr) : Prop :=
  ∀ data i, data.length < 2 ^ 64 → At data i bs →
    read_property o data.length data i = .ok (some (a, i + bs.length))

/-- The list is given up at the block, wherever it stands. -/
def GivesUp (o : Options) (bs : List UInt8) : Prop :=
  ∀ data i, data.length < 2 ^ 64 → At data i bs → read_property o data.length data i = .ok none

/-- The program stops at the block, wherever it stands. -/
def Stops (o : Options) (bs : List UInt8) : Prop :=
  ∀ data i, data.length < 2 ^ 64 → At data i bs →
    ∃ e, read_property o data.length data i = .error e

/-- A property that is not decoded: type and number of values, and bytes for the values. -/
structure Undecoded where
  bytes : List UInt8
  header : MAPI_Attr
  header_end : ℕ
  num_values : ℕ
  count_end : ℕ
  header_at : HeaderAt {} bytes 0 header header_end
  count_at : CountAt bytes header.type header_end num_values count_end
  no_shape : type_shape (amend_type header.type) = none

/-- It has values, and the limit lets its requests through. -/
structure Undecoded.Granted (o : Options) (u : Undecoded) : Prop where
  num_values : u.num_values ≠ 0
  attr : o.Admits sizeof_MAPI_Attr
  guid : u.header.guid ≠ none → o.Admits sizeof_GUID
  names : o.Admits (u.header.num_names * sizeof_VarLenData)
  values : o.Admits (u.num_values * sizeof_MAPI_Value)

theorem Entry.outcome (o : Options) (p : Entry) : Reads o p.bytes p.attr ∨ Stops o p.bytes := by
  have hform : ∀ {data : List UInt8} {i : ℕ}, At data i p.bytes →
      FormAt data i p.attr (i + p.bytes.length) := by
    intro data i hat
    simpa using formAt_shift hat p.form
  by_cases hp : p.Readable o
  · refine .inl fun data i hdata hat => ?_
    exact (read_property_form hdata (hform hat)).1 ⟨hp.num_values, hp.granted⟩
  · refine .inr fun data i hdata hat => ?_
    exact (read_property_form hdata (hform hat)).2 fun h => hp ⟨h.1, h.2⟩

theorem Undecoded.outcome (o : Options) (u : Undecoded) :
    GivesUp o u.bytes ∨ Stops o u.bytes := by
  by_cases hu : o.encode_ok = true ∧ u.Granted o
  · obtain ⟨hencode, hgranted⟩ := hu
    refine .inl fun data i hdata hat => (read_property_eq_none hdata).mpr ⟨hencode, ?_⟩
    exact ⟨u.header, _, u.num_values, _,
      headerAt_iff.mpr ⟨headerAt_shift hat u.header_at, hgranted.attr, hgranted.guid, hgranted.names⟩,
      countAt_shift hat u.count_at, hgranted.num_values, hgranted.values, u.no_shape⟩
  · refine .inr fun data i hdata hat => ?_
    match hread : read_property o data.length data i with
    | .error e => exact ⟨e, rfl⟩
    | .ok none =>
      -- what stands here decides: the same header and count under the same limit
      obtain ⟨hencode, h, i₁, n, i₂, hheader, hcount, hne, hlim, -⟩ :=
        (read_property_eq_none hdata).mp hread
      obtain ⟨hheader', hattr, hguid, hnames⟩ := headerAt_iff.mp hheader
      obtain ⟨rfl, rfl⟩ := headerAt_unique hdata (headerAt_shift hat u.header_at) hheader'
      obtain ⟨rfl, -⟩ := countAt_unique (countAt_shift hat u.count_at) hcount
      exact absurd ⟨hencode, hne, hattr, hguid, hnames, hlim⟩ hu
    | .ok (some (a, j)) =>
      obtain ⟨h, i₁, i₂, xs, sh, hheader, -, -, -, hsh, -⟩ := (read_property_eq_ok hdata).mp hread
      obtain ⟨rfl, -⟩ :=
        headerAt_unique hdata (headerAt_shift hat u.header_at) (headerAt_iff.mp hheader).1
      rw [u.no_shape] at hsh
      cases hsh

/-! ## Lists of items -/

/-- A property of a list: one that has a form, one of a type without, or bytes at which the
reader always stops. -/
inductive ListItem (o : Options)
  | decoded (p : Entry)
  | undecoded (u : Undecoded)
  | refused (bs : List UInt8) (stops : Stops o bs)

def ListItem.bytes {o : Options} : ListItem o → List UInt8
  | .decoded p => p.bytes
  | .undecoded u => u.bytes
  | .refused bs _ => bs

theorem ListItem.outcome {o : Options} (it : ListItem o) :
    (∃ a, Reads o it.bytes a) ∨ GivesUp o it.bytes ∨ Stops o it.bytes := by
  cases it with
  | decoded p => exact (p.outcome o).imp (fun h => ⟨p.attr, h⟩) .inr
  | undecoded u => exact .inr (u.outcome o)
  | refused bs hstops => exact .inr (.inr hstops)

/-- The list can be given up at one item, and stopped at by another. -/
def Mixed {o : Options} (its : List (ListItem o)) : Prop :=
  (∃ it ∈ its, GivesUp o it.bytes) ∧ ∃ it ∈ its, Stops o it.bytes

/-- The data of an attribute are a list of items, with bytes behind it that nothing reads. -/
structure ListOf {o : Options} (its : List (ListItem o)) (num_properties : UInt32)
    (rest : List UInt8) (data : List UInt8) : Prop where
  count : num_properties.toNat = its.length
  data_eq : data = le32 num_properties ++ its.flatMap ListItem.bytes ++ rest

section Read

variable {o : Options} {data : List UInt8} (hdata : data.length < 2 ^ 64)

include hdata

/-- A list whose items are all read. -/
theorem read_properties_of_reads {its : List (ListItem o)} {as : List MAPI_Attr}
    (hreads : List.Forall₂ (fun it a => Reads o it.bytes a) its as) :
    ∀ {i : ℕ} {attrs : List MAPI_Attr}, At data i (its.flatMap ListItem.bytes) →
      read_properties o data.length data its.length i attrs = .ok (some (attrs ++ as)) := by
  induction hreads with
  | nil =>
    intro i attrs _
    rw [List.append_nil]
    rfl
  | cons hit _ ih =>
    intro i attrs hat
    rw [List.flatMap_cons, at_append] at hat
    rw [List.length_cons, read_properties, hit data i hdata hat.1, ok_bind]
    simp only
    rw [ih hat.2, List.append_assoc, List.singleton_append]

/-- **The first item that is not read decides**: the list is given up there, or the program
stops there. -/
theorem read_properties_of_unread {its : List (ListItem o)}
    (hmem : ∃ it ∈ its, GivesUp o it.bytes ∨ Stops o it.bytes) :
    ∀ {i : ℕ} {attrs : List MAPI_Attr}, At data i (its.flatMap ListItem.bytes) →
      ((∃ it ∈ its, GivesUp o it.bytes)
          ∧ read_properties o data.length data its.length i attrs = .ok none)
        ∨ (∃ it ∈ its, Stops o it.bytes)
          ∧ ∃ e, read_properties o data.length data its.length i attrs = .error e := by
  induction its with
  | nil =>
    obtain ⟨it, hit, -⟩ := hmem
    cases hit
  | cons it its ih =>
    intro i attrs hat
    rw [List.flatMap_cons, at_append] at hat
    rw [List.length_cons, read_properties]
    rcases it.outcome with ⟨a, ha⟩ | hgives | hstops
    · have hread := ha data i hdata hat.1
      -- the first item is read, so it is not the one there is
      have htail : ∃ it ∈ its, GivesUp o it.bytes ∨ Stops o it.bytes := by
        obtain ⟨it', hit', hor⟩ := hmem
        rcases List.mem_cons.mp hit' with rfl | hit'
        · rcases hor with hgives | hstops
          · rw [hgives data i hdata hat.1] at hread
            cases hread
          · obtain ⟨e, he⟩ := hstops data i hdata hat.1
            rw [he] at hread
            cases hread
        · exact ⟨it', hit', hor⟩
      rw [hread, ok_bind]
      simp only [List.exists_mem_cons_iff]
      exact (ih htail hat.2).imp (And.imp_left .inr) (And.imp_left .inr)
    · rw [hgives data i hdata hat.1]
      exact .inl ⟨⟨it, List.mem_cons_self .., hgives⟩, rfl⟩
    · obtain ⟨e, he⟩ := hstops data i hdata hat.1
      rw [he]
      exact .inr ⟨⟨it, List.mem_cons_self .., hstops⟩, e, rfl⟩

end Read

section List

variable {o : Options} {its : List (ListItem o)} {num_properties : UInt32} {rest data : List UInt8}

theorem ListOf.count_at (h : ListOf its num_properties rest data) :
    At data 0 (le32 num_properties) := by
  rw [h.data_eq]
  exact (at_append.mp (at_append.mp (at_zero _)).1).1

theorem ListOf.items_at (h : ListOf its num_properties rest data) :
    At data 4 (its.flatMap ListItem.bytes) := by
  rw [h.data_eq]
  have hitems := (at_append.mp (at_append.mp (at_zero (le32 num_properties
    ++ its.flatMap ListItem.bytes ++ rest))).1).2
  rwa [Nat.zero_add, le32_length] at hitems

theorem ListOf.length_eq {its' : List (ListItem o)} {data' : List UInt8} (hperm : its.Perm its')
    (h : ListOf its num_properties rest data) (h' : ListOf its' num_properties rest data') :
    data.length = data'.length := by
  have hitems : (its.flatMap ListItem.bytes).length = (its'.flatMap ListItem.bytes).length :=
    (hperm.flatMap_right ListItem.bytes).length_eq
  rw [h.data_eq, h'.data_eq]
  simp only [List.length_append, hitems]

/-- A list is read item by item, or one of its items is not read. -/
theorem items_outcome (its : List (ListItem o)) :
    (∃ as, List.Forall₂ (fun it a => Reads o it.bytes a) its as)
      ∨ ∃ it ∈ its, GivesUp o it.bytes ∨ Stops o it.bytes := by
  induction its with
  | nil => exact .inl ⟨[], .nil⟩
  | cons it its ih =>
    rcases it.outcome with ⟨a, ha⟩ | hunread
    · rcases ih with ⟨as, has⟩ | ⟨it', hit', hunread⟩
      · exact .inl ⟨a :: as, .cons ha has⟩
      · exact .inr ⟨it', List.mem_cons_of_mem _ hit', hunread⟩
    · exact .inr ⟨it, List.mem_cons_self .., hunread⟩

end List

/-- **The same items in another order** are read into the same properties in another order,
given up, or stopped at, unless the list is mixed. -/
theorem mapi_attr_read_perm {o : Options} {attr attr' : Attr} {its its' : List (ListItem o)}
    {num_properties : UInt32} {rest : List UInt8} (hlist : ListOf its num_properties rest attr.data)
    (hlist' : ListOf its' num_properties rest attr'.data) (hperm : its.Perm its')
    (hmixed : ¬ Mixed its) :
    (∃ as as' : List MAPI_Attr, as.Perm as'
        ∧ mapi_attr_read o attr.len attr.buf = .ok (some (as.map some ++ [none]))
        ∧ mapi_attr_read o attr'.len attr'.buf = .ok (some (as'.map some ++ [none])))
      ∨ (mapi_attr_read o attr.len attr.buf = .ok none
        ∧ mapi_attr_read o attr'.len attr'.buf = .ok none)
      ∨ (∃ e, mapi_attr_read o attr.len attr.buf = .error e)
        ∧ ∃ e, mapi_attr_read o attr'.len attr'.buf = .error e := by
  have hdata : attr.data.length < 2 ^ 64 := lt_trans attr.fits (by decide)
  have hdata' : attr'.data.length < 2 ^ 64 := lt_trans attr'.fits (by decide)
  obtain ⟨hread, hrefused⟩ := mapi_attr_read_of_count o hlist.count_at
  obtain ⟨hread', hrefused'⟩ := mapi_attr_read_of_count o hlist'.count_at
  have hlen := hlist.length_eq hperm hlist'
  by_cases hannounced : Announced o attr.data.length num_properties
  · rw [hread hannounced, hread' (hlen ▸ hannounced)]
    have hcount := hlist.count
    have hcount' := hlist'.count
    rcases items_outcome its with ⟨as, has⟩ | ⟨it, hit, hunread⟩
    · obtain ⟨as', has', hperm'⟩ := List.perm_comp_forall₂ hperm.symm has
      refine .inl ⟨as, as', hperm'.symm, ?_, ?_⟩
      · rw [hcount, read_properties_of_reads hdata has hlist.items_at]
        rfl
      · rw [hcount', read_properties_of_reads hdata' has' hlist'.items_at]
        rfl
    · -- in either order the first item that is not read decides, and all of them are alike
      have hfirst := @read_properties_of_unread o _ hdata its ⟨it, hit, hunread⟩ 4 [] hlist.items_at
      have hfirst' := @read_properties_of_unread o _ hdata' its' ⟨it, hperm.subset hit, hunread⟩ 4 []
        hlist'.items_at
      rw [← hcount] at hfirst
      rw [← hcount'] at hfirst'
      simp only [← hperm.mem_iff] at hfirst'
      rcases hfirst with ⟨hgives, hx⟩ | ⟨hstops, e, hx⟩
      · rcases hfirst' with ⟨-, hx'⟩ | ⟨hstops, -⟩
        · rw [hx, hx']
          exact .inr (.inl ⟨rfl, rfl⟩)
        · exact absurd ⟨hgives, hstops⟩ hmixed
      · rcases hfirst' with ⟨hgives, -⟩ | ⟨-, e', hx'⟩
        · exact absurd ⟨hgives, hstops⟩ hmixed
        · rw [hx, hx']
          exact .inr (.inr ⟨⟨e, rfl⟩, e', rfl⟩)
  · exact .inr (.inr ⟨hrefused hannounced, hrefused' (hlen ▸ hannounced)⟩)

end Tnef
