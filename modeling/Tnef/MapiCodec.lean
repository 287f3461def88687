/-
The property list as a sender writes it, and reading it back.

A `Written` property cannot be ill formed: its values have the form its kind has, its
lengths and counts fit their 32-bit words, and it has more than one value only where
their number is in the stream. `written_at` puts each property of a list where
`PropertyAt` expects it, so the reading itself is `read_properties_eq_ok`. A `Property`
has more than one value only where the reader moves on between values, and for those
decoding undoes encoding; every other kind loses its values but the last. Padding is any
one byte.
-/
import Tnef.MapiLayout

set_option autoImplicit false

namespace Tnef

open ExceptRules Slice LittleEndian Layout

/-! ## Properties -/

/-- The property types a stream may hold. -/
inductive Kind
  | short
  | int
  | float
  | double
  | currency
  | apptime
  | boolean
  | object
  | int8byte
  | string
  | unicode_string
  | systime
  | clsid
  | binary
  deriving DecidableEq, Repr

namespace Kind

def code : Kind → UInt16
  | short => szMAPI_SHORT
  | int => szMAPI_INT
  | float => szMAPI_FLOAT
  | double => szMAPI_DOUBLE
  | currency => szMAPI_CURRENCY
  | apptime => szMAPI_APPTIME
  | boolean => szMAPI_BOOLEAN
  | object => szMAPI_OBJECT
  | int8byte => szMAPI_INT8BYTE
  | string => szMAPI_STRING
  | unicode_string => szMAPI_UNICODE_STRING
  | systime => szMAPI_SYSTIME
  | clsid => szMAPI_CLSID
  | binary => szMAPI_BINARY

def shape : Kind → Shape
  | short => .two
  | int | float | boolean => .four
  | double | currency | apptime | int8byte | systime => .eight
  | clsid => .guid
  | unicode_string => .unicode
  | object | string | binary => .bytes

/-- The kinds whose values carry their own length. -/
def string_like : Kind → Bool
  | object | string | unicode_string | binary => true
  | _ => false

/-- The type word, with the multi-value flag or without. -/
def wire_type (k : Kind) (multi : Bool) : UInt16 :=
  if multi then k.code ||| MULTI_VALUE_FLAG else k.code

/-- The kinds that may have any number of values; the number has to be in the stream. -/
def repeats (k : Kind) (multi : Bool) : Bool :=
  k.string_like || (multi && (k = int || k = systime))

end Kind

/-- A block of bytes whose length fits its length word. -/
structure Block where
  bytes : List UInt8
  fits : bytes.length < 2 ^ 32

/-- A block that is not empty, as names and unicode values are. -/
structure Text extends Block where
  ne_nil : bytes ≠ []

/-- What a value of a form consists of. -/
abbrev Shape.Raw : Shape → Type
  | .two => UInt16
  | .four => UInt32
  | .eight => UInt32 × UInt32
  | .guid => GUID
  | .unicode => Text
  | .bytes => Block

/-- The three ways to name a property; only names with bit `0x8000` have a GUID. -/
inductive Naming
  | tag (name : UInt16) (h : name &&& GUID_EXISTS_FLAG = 0)
  | numbered (name : UInt16) (h : name &&& GUID_EXISTS_FLAG ≠ 0) (guid : GUID) (id : UInt32)
  | named (name : UInt16) (h : name &&& GUID_EXISTS_FLAG ≠ 0) (guid : GUID) (names : List Text)
    (ne_nil : names ≠ []) (fits : names.length < 2 ^ 32)

structure Property where
  kind : Kind
  multi : Bool
  naming : Naming
  values : List kind.shape.Raw
  ne_nil : values ≠ []
  fits : values.length < 2 ^ 32
  count_ok : values.length = 1 ∨ kind.repeats multi = true

/-- A property with any number of values, where the number is in the stream. -/
structure Written where
  kind : Kind
  multi : Bool
  naming : Naming
  values : List kind.shape.Raw
  ne_nil : values ≠ []
  fits : values.length < 2 ^ 32
  count_ok : values.length = 1 ∨ (kind.string_like || multi) = true

def Property.written (p : Property) : Written where
  kind := p.kind
  multi := p.multi
  naming := p.naming
  values := p.values
  ne_nil := p.ne_nil
  fits := p.fits
  count_ok := p.count_ok.imp_right fun h => by
    rw [Kind.repeats, Bool.or_eq_true, Bool.and_eq_true] at h
    rw [Bool.or_eq_true]
    exact h.imp id fun h => h.1

/-! ## Laying them out -/

section Encode

variable (fill : UInt8)

/-- A length word, the bytes, and padding to a multiple of four. -/
def encode_block (bs : List UInt8) : List UInt8 :=
  le32 (UInt32.ofNat bs.length) ++ bs ++ List.replicate (pad_to_4byte bs.length - bs.length) fill

def encode_value : (sh : Shape) → sh.Raw → List UInt8
  | .two, x => le16 x ++ [fill, fill]
  | .four, x => le32 x
  | .eight, (x₀, x₁) => le32 x₀ ++ le32 x₁
  | .guid, g => g.bytes
  | .unicode, t => encode_block fill t.bytes
  | .bytes, b => encode_block fill b.bytes

def encode_naming : Naming → List UInt8
  | .tag name _ => le16 name
  | .numbered name _ g id => le16 name ++ (g.bytes ++ le32 0 ++ le32 id)
  | .named name _ g names _ _ =>
    le16 name ++ (g.bytes ++ le32 (UInt32.ofNat names.length)
      ++ names.flatMap fun t => encode_block fill t.bytes)

/-- The value count is written for string-like kinds and under the multi-value flag. -/
def encode_count (p : Property) : List UInt8 :=
  if p.kind.string_like || p.multi then le32 (UInt32.ofNat p.values.length) else []

def encode_property (p : Property) : List UInt8 :=
  le16 (p.kind.wire_type p.multi) ++ encode_naming fill p.naming ++ encode_count p
    ++ p.values.flatMap (encode_value fill p.kind.shape)

def encode_properties (ps : List Property) : List UInt8 :=
  le32 (UInt32.ofNat ps.length) ++ ps.flatMap (encode_property fill)

def encode_written (w : Written) : List UInt8 :=
  le16 (w.kind.wire_type w.multi) ++ encode_naming fill w.naming
    ++ (if w.kind.string_like || w.multi then le32 (UInt32.ofNat w.values.length) else [])
    ++ w.values.flatMap (encode_value fill w.kind.shape)

def encode_list (ws : List Written) : List UInt8 :=
  le32 (UInt32.ofNat ws.length) ++ ws.flatMap (encode_written fill)

theorem encode_properties_eq (ps : List Property) :
    encode_properties fill ps = encode_list fill (ps.map Property.written) := by
  rw [encode_list, List.flatMap_map, List.length_map]
  rfl

end Encode

/-! ## What a reader is to make of them -/

def stored_value : (sh : Shape) → sh.Raw → MAPI_Value
  | .two, x => ⟨2, .bytes2 x⟩
  | .four, x => ⟨4, .bytes4 x⟩
  | .eight, (x₀, x₁) => ⟨8, .bytes8 x₀ x₁⟩
  | .guid, g => ⟨sizeof_GUID, .guid g⟩
  | .unicode, t => ⟨t.bytes.length, .buf (utf8_block t.bytes)⟩
  | .bytes, b => ⟨b.bytes.length, .buf (.full (b.bytes ++ [0]))⟩

def stored_name (t : Text) : VarLenData := ⟨t.bytes.length, utf8_block t.bytes⟩

/-- The attribute in front of its values. -/
def Naming.attr (type : UInt16) : Naming → MAPI_Attr
  | .tag name _ => { type := type, name := name.toUInt32 }
  | .numbered _ _ g id => { type := type, name := id, guid := some g }
  | .named name _ g names _ _ =>
    { type := type, name := name.toUInt32, guid := some g, num_names := names.length,
      names := names.map stored_name }

/-- The attribute of a property: the flag taken off, the values converted. -/
def Property.attr (p : Property) : MAPI_Attr :=
  { p.naming.attr p.kind.code with
    num_values := p.values.length, values := p.values.map (stored_value p.kind.shape) }

/-- What `mapi_attr_read` makes of a property: each value stored where `v` is. -/
def Written.attr (w : Written) : MAPI_Attr :=
  { w.naming.attr w.kind.code with
    num_values := w.values.length,
    values := value_array w.kind.code (w.values.map (stored_value w.kind.shape)) }

/-! ## What the allocation limit has to admit -/

def Naming.Granted (o : Options) : Naming → Prop
  | .tag _ _ => True
  | .numbered _ _ _ _ => o.Admits sizeof_GUID
  | .named _ _ _ names _ _ => o.Admits sizeof_GUID ∧ o.Admits (names.length * sizeof_VarLenData)

def value_granted (o : Options) : (sh : Shape) → sh.Raw → Prop
  | .bytes, b => o.Admits b.bytes.length
  | _, _ => True

/-- The requests a property makes, each within the limit. -/
structure Property.Granted (o : Options) (p : Property) : Prop where
  attr : o.Admits sizeof_MAPI_Attr
  naming : p.naming.Granted o
  values : o.Admits (p.values.length * sizeof_MAPI_Value)
  value : ∀ x ∈ p.values, value_granted o p.kind.shape x

structure Written.Granted (o : Options) (w : Written) : Prop where
  attr : o.Admits sizeof_MAPI_Attr
  naming : w.naming.Granted o
  values : o.Admits (w.values.length * sizeof_MAPI_Value)
  value : ∀ x ∈ w.values, value_granted o w.kind.shape x

/-! ## Type words -/

theorem type_shape_code (k : Kind) : type_shape k.code = some k.shape := by
  cases k <;> rfl

theorem amend_wire_type (k : Kind) (multi : Bool) : amend_type (k.wire_type multi) = k.code := by
  cases k <;> cases multi <;> decide

theorem counted_wire_type (k : Kind) (multi : Bool) :
    counted (k.wire_type multi) = (k.string_like || multi) := by
  cases k <;> cases multi <;> decide

theorem value_step_of_repeats {k : Kind} {multi : Bool} (h : k.repeats multi = true) :
    value_step k.code = 1 := by
  cases k <;> cases multi <;> revert h <;> decide

/-! ## Each piece stands where it should -/

theorem pad_to_4byte_ge (n : ℕ) : n ≤ pad_to_4byte n := by
  unfold pad_to_4byte
  omega

section Stand

variable {o : Options} {buf : List UInt8} {fill : UInt8}

theorem encode_block_length (bs : List UInt8) :
    (encode_block fill bs).length = 4 + pad_to_4byte bs.length := by
  have hpad := pad_to_4byte_ge bs.length
  simp only [encode_block, List.length_append, le32_length, List.length_replicate]
  omega

/-- The reader looks at the length and the bytes of a block, never at the padding. -/
theorem encode_block_at {i : ℕ} {bs : List UInt8} (h : At buf i (encode_block fill bs)) :
    At buf i (le32 (UInt32.ofNat bs.length) ++ bs) := (at_append.mp h).1

theorem text_length_ne_zero (t : Text) : UInt32.ofNat t.bytes.length ≠ 0 := by
  intro hzero
  have hlen := UInt32.toNat_ofNat_of_lt' t.fits
  rw [hzero] at hlen
  exact t.ne_nil (List.length_eq_zero_iff.mp hlen.symm)

theorem name_at {i : ℕ} (t : Text) (h : At buf i (encode_block fill t.bytes)) :
    NameAt buf i (stored_name t) (i + (encode_block fill t.bytes).length) := by
  have hlen := UInt32.toNat_ofNat_of_lt' t.fits
  have hname := NameAt.mk _ t.bytes hlen.symm (text_length_ne_zero t) (encode_block_at h)
  rwa [hlen, ← encode_block_length] at hname

theorem value_at {sh : Shape} {i : ℕ} (x : sh.Raw) (hlim : value_granted o sh x)
    (h : At buf i (encode_value fill sh x)) :
    ValueAt o buf sh i (stored_value sh x) (i + (encode_value fill sh x).length) := by
  cases sh with
  | two => exact .two x (at_append.mp h).1
  | four => exact .four x h
  | eight => exact .eight x.1 x.2 h
  | guid =>
    rw [encode_value, GUID.bytes_length]
    exact .guid x h
  | unicode =>
    have hlen := UInt32.toNat_ofNat_of_lt' x.fits
    have hvalue := ValueAt.unicode (o := o) _ x.bytes hlen.symm (text_length_ne_zero x)
      (encode_block_at h)
    rwa [hlen, ← encode_block_length] at hvalue
  | bytes =>
    have hlen := UInt32.toNat_ofNat_of_lt' x.fits
    have hvalue := ValueAt.bytes _ x.bytes hlen.symm (by rw [hlen]; exact hlim) (encode_block_at h)
    rwa [hlen, ← encode_block_length] at hvalue

theorem numbered_at {a : MAPI_Attr} {i : ℕ} {g : GUID} {id : UInt32} (hlim : o.Admits sizeof_GUID)
    (h : At buf i (g.bytes ++ le32 0 ++ le32 id)) :
    GuidBlockAt o buf a i { a with guid := some g, name := id }
      (i + (g.bytes ++ le32 0 ++ le32 id).length) := by
  have hlen : (g.bytes ++ le32 0 ++ le32 id).length = 24 := by
    rw [List.length_append, List.length_append, GUID.bytes_length, le32_length, le32_length]
  rw [hlen]
  exact .numbered g id hlim h

theorem named_at {a : MAPI_Attr} {i : ℕ} {g : GUID} {names : List Text} (hne : names ≠ [])
    (hfits : names.length < 2 ^ 32) (hlim : o.Admits sizeof_GUID)
    (hlim' : o.Admits (names.length * sizeof_VarLenData))
    (h : At buf i (g.bytes ++ le32 (UInt32.ofNat names.length)
      ++ names.flatMap fun t => encode_block fill t.bytes)) :
    GuidBlockAt o buf a i
      { a with guid := some g, num_names := names.length, names := names.map stored_name }
      (i + (g.bytes ++ le32 (UInt32.ofNat names.length)
        ++ names.flatMap fun t => encode_block fill t.bytes).length) := by
  have hlen := UInt32.toNat_ofNat_of_lt' hfits
  have hk : UInt32.ofNat names.length ≠ 0 := by
    intro hzero
    rw [hzero] at hlen
    exact hne (List.length_eq_zero_iff.mp hlen.symm)
  have hfront : (g.bytes ++ le32 (UInt32.ofNat names.length)).length = 20 := by
    rw [List.length_append, GUID.bytes_length, le32_length]
  obtain ⟨hcount, hnames⟩ := at_append.mp h
  rw [hfront] at hnames
  have hchain : Chain (NameAt buf) (i + 20) (names.map stored_name) _ :=
    Chain.of_flatMap (fun _ t (_ : True) ht => name_at t ht) (fun _ _ => trivial) hnames
  have hblock : GuidBlockAt o buf a i _ _ := .named g _ _ hlim hcount hk (by rwa [hlen])
    (by rw [hlen, List.length_map]) hchain
  rw [hlen] at hblock
  rwa [List.length_append, hfront, ← Nat.add_assoc]

theorem header_at {i : ℕ} (type : UInt16) (nm : Naming) (hlim : o.Admits sizeof_MAPI_Attr)
    (hgrant : nm.Granted o) (h : At buf i (le16 type ++ encode_naming fill nm)) :
    HeaderAt o buf i (nm.attr type) (i + (le16 type ++ encode_naming fill nm).length) := by
  cases nm with
  | tag name hflag => exact .plain type name hlim h hflag
  | numbered name hflag g id =>
    rw [encode_naming, ← List.append_assoc] at h ⊢
    obtain ⟨hat, hblock⟩ := at_append.mp h
    rw [List.length_append, ← Nat.add_assoc]
    exact .guid type name hlim hat hflag (numbered_at hgrant hblock)
  | named name hflag g names hne hfits =>
    rw [encode_naming, ← List.append_assoc] at h ⊢
    obtain ⟨hat, hblock⟩ := at_append.mp h
    rw [List.length_append, ← Nat.add_assoc]
    exact .guid type name hlim hat hflag (named_at hne hfits hgrant.1 hgrant.2 hblock)

theorem count_at {i : ℕ} (w : Written)
    (h : At buf i (if w.kind.string_like || w.multi then le32 (UInt32.ofNat w.values.length) else [])) :
    CountAt buf (w.kind.wire_type w.multi) i w.values.length (i
      + (if w.kind.string_like || w.multi then le32 (UInt32.ofNat w.values.length) else []).length) := by
  unfold CountAt
  rw [counted_wire_type]
  by_cases hcounted : (w.kind.string_like || w.multi) = true
  · rw [if_pos hcounted] at h
    rw [if_pos hcounted, if_pos hcounted]
    exact ⟨_, h, (UInt32.toNat_ofNat_of_lt' w.fits).symm, rfl⟩
  · rw [if_neg hcounted, if_neg hcounted]
    -- without a stored count there is one value
    exact ⟨w.count_ok.resolve_right hcounted, rfl⟩

theorem Naming.attr_type (type : UInt16) (nm : Naming) : (nm.attr type).type = type := by
  cases nm <;> rfl

/-- The attribute depends on the type word in its type alone. -/
theorem Naming.attr_retype (type type' : UInt16) (nm : Naming) :
    { nm.attr type with type := type' } = nm.attr type' := by
  cases nm <;> rfl

/-- **Each encoded property is a property of the layout.** -/
theorem written_at {i : ℕ} (w : Written) (hgrant : w.Granted o)
    (h : At buf i (encode_written fill w)) :
    PropertyAt o buf i w.attr (i + (encode_written fill w).length) := by
  rw [encode_written] at h ⊢
  obtain ⟨h, hvalues⟩ := at_append.mp h
  obtain ⟨hheader, hcount⟩ := at_append.mp h
  have hlen : (w.values.map (stored_value w.kind.shape)).length = w.values.length :=
    List.length_map ..
  have hchain : Chain (ValueAt o buf w.kind.shape) _ (w.values.map (stored_value w.kind.shape)) _ :=
    Chain.of_flatMap (fun _ x hx hat => value_at x hx hat) hgrant.value hvalues
  rw [List.length_append, ← Nat.add_assoc] at hchain
  rw [List.length_append, List.length_append, ← Nat.add_assoc, ← Nat.add_assoc]
  -- header, count and values stand behind each other
  refine ⟨_, _, _, _, w.kind.shape, header_at _ w.naming hgrant.attr hgrant.naming hheader, ?_, ?_,
    ?_, ?_, hchain, ?_⟩
  · rw [Naming.attr_type, hlen]
    exact count_at w hcount
  · intro hnil
    exact w.ne_nil (List.map_eq_nil_iff.mp hnil)
  · rw [hlen]
    exact hgrant.values
  · rw [Naming.attr_type, amend_wire_type]
    exact type_shape_code w.kind
  · rw [Naming.attr_type, amend_wire_type, hlen, Written.attr,
      ← Naming.attr_retype (w.kind.wire_type w.multi)]

end Stand

/-! ## The whole list -/

/-- The requests reading the list makes, each within the limit. -/
structure Granted (o : Options) (ps : List Property) : Prop where
  attrs : o.Admits ((ps.length + 1) * sizeof_ptr)
  property : ∀ p ∈ ps, p.Granted o

/-- Without `--maxsize` every request is granted. -/
theorem granted_of_no_limit {o : Options} (h : o.alloc_limit = 0) (ps : List Property) :
    Granted o ps := by
  have hvalue : ∀ (sh : Shape) (x : sh.Raw), value_granted o sh x := by
    intro sh x
    cases sh with
    | bytes => exact .inl h
    | _ => trivial
  refine ⟨.inl h, fun p _ => ⟨.inl h, ?_, .inl h, fun x _ => hvalue _ x⟩⟩
  cases p.naming with
  | tag name hflag => trivial
  | numbered name hflag g id => exact .inl h
  | named name hflag g names hne hfits => exact ⟨.inl h, .inl h⟩

/-- The smallest list already has more than its count word. -/
theorem encode_list_length_gt (fill : UInt8) {ws : List Written} (hne : ws ≠ []) :
    4 < (encode_list fill ws).length := by
  obtain ⟨w, rest, rfl⟩ := List.exists_cons_of_ne_nil hne
  simp only [encode_list, encode_written, List.flatMap_cons, List.length_append,
    le32_length, le16_length]
  omega

/-- `mapi_attr_read` returns one attribute a property, in order, and NULL behind the last. -/
theorem mapi_attr_read_list (o : Options) (fill : UInt8) {ws : List Written} (hne : ws ≠ [])
    (hcount : ws.length + 1 < 2 ^ 32) (hsize : (encode_list fill ws).length < 2 ^ 64)
    (hlim : o.Admits ((ws.length + 1) * sizeof_ptr)) (hgrant : ∀ w ∈ ws, w.Granted o) :
    mapi_attr_read o (encode_list fill ws).length (encode_list fill ws)
      = .ok (some (ws.map (fun w => some w.attr) ++ [none])) := by
  have hn := UInt32.toNat_ofNat_of_lt' (show ws.length < 2 ^ 32 by omega)
  -- the count does not wrap, so there is room for the last pointer
  have hn1 : (UInt32.ofNat ws.length + 1).toNat = ws.length + 1 := by
    rw [UInt32.toNat_add, hn]
    exact Nat.mod_eq_of_lt hcount
  have hat : At (encode_list fill ws) 0 (le32 (UInt32.ofNat ws.length))
      ∧ At (encode_list fill ws) 4 (ws.flatMap (encode_written fill)) :=
    at_append.mp (at_zero (encode_list fill ws))
  -- each property stands behind the one before
  have hchain : Chain (PropertyAt o (encode_list fill ws)) 4 (ws.map Written.attr) _ :=
    Chain.of_flatMap (fun _ w hw h => written_at w hw h) hgrant hat.2
  have hlen := encode_list_length_gt fill hne
  have hread : read_properties o (encode_list fill ws).length (encode_list fill ws)
      ws.length 4 [] = .ok (some ([] ++ ws.map Written.attr)) :=
    (read_properties_eq_ok hsize ws.length).mpr
      ⟨ws.map Written.attr, _, List.length_map .., hchain, rfl⟩
  have hnot : UInt32.ofNat ws.length + 1 ≠ 0 := by
    intro hzero
    rw [hzero] at hn1
    exact absurd hn1 (by simp)
  have halloc : checked_xmalloc o (UInt32.ofNat ws.length + 1).toNat sizeof_ptr 0
      = .ok ((ws.length + 1) * sizeof_ptr + 0) := by
    rw [hn1]
    exact (checked_xmalloc_eq_ok (by simp only [sizeof_ptr]; omega)).mpr ⟨hlim, rfl⟩
  rw [mapi_attr_read, assert_of hlen, ok_bind, GETINT32_of_at hat.1, ok_bind, assert_of hnot,
    ok_bind, halloc, ok_bind, hn, hread, ok_bind, pure_eq_ok]
  simp

/-! ## Values that are kept -/

/-- Where `v` moves on, or there is nothing to move on to, the array is the values. -/
theorem Property.written_attr (p : Property) : p.written.attr = p.attr := by
  have harray : value_array p.kind.code (p.values.map (stored_value p.kind.shape))
      = p.values.map (stored_value p.kind.shape) := by
    rcases p.count_ok with hone | hrepeats
    · obtain ⟨x, hx⟩ := List.length_eq_one_iff.mp hone
      rw [hx]
      rfl
    · rw [value_array, value_step_of_repeats hrepeats]
      exact store_values_step_one _ []
  rw [Written.attr, Property.attr]
  exact congrArg (fun vs => { p.naming.attr p.kind.code with
    num_values := p.values.length, values := vs }) harray

/-- Where `v` stays, nothing is stored behind it. -/
theorem store_values_step_zero {v i : ℕ} (hi : v < i) (xs : List MAPI_Value) :
    ∀ values : List MAPI_Value, (store_values 0 values v xs)[i]? = values[i]? := by
  induction xs with
  | nil =>
    intro values
    rfl
  | cons x xs ih =>
    intro values
    rw [store_values, Nat.add_zero, ih, List.getElem?_set_ne (by omega)]

/-- A value of a fixed size is not what `calloc` leaves. -/
theorem stored_value_ne {k : Kind} (hfixed : k.string_like = false) (x : k.shape.Raw) :
    stored_value k.shape x ≠ {} := by
  have hlen : (stored_value k.shape x).len ≠ 0 := by
    cases k <;> first | exact Nat.succ_ne_zero _ | cases hfixed
  intro h
  rw [h] at hlen
  exact hlen rfl

theorem value_step_code {k : Kind} (hfixed : k.string_like = false) :
    value_step k.code = if k = .int ∨ k = .systime then 1 else 0 := by
  cases k <;> first | decide | cases hfixed

/-- The attribute holds as many values as were written, each in its place with its length. -/
def Complete (w : Written) (a : MAPI_Attr) : Prop :=
  a.num_values = w.values.length
    ∧ ∀ (j : ℕ) (x : w.kind.shape.Raw), w.values[j]? = some x →
      a.values[j]? = some (stored_value w.kind.shape x)

theorem complete_attr_iff {w : Written} (hfixed : w.kind.string_like = false) :
    Complete w w.attr ↔ w.kind = .int ∨ w.kind = .systime ∨ w.values.length = 1 := by
  constructor
  · rintro ⟨-, hvalues⟩
    by_contra hnot
    simp only [not_or] at hnot
    obtain ⟨hint, hsystime, hone⟩ := hnot
    -- there is a second value, and the second cell of the array is as it was allocated
    have htwo : 1 < w.values.length := by
      have hpos := List.length_pos_iff.mpr w.ne_nil
      omega
    have hsecond := hvalues 1 _ (List.getElem?_eq_getElem htwo)
    have hstep : value_step w.kind.code = 0 := by
      rw [value_step_code hfixed, if_neg (by simp [hint, hsystime])]
    rw [Written.attr] at hsecond
    simp only [value_array, hstep] at hsecond
    rw [store_values_step_zero Nat.zero_lt_one, List.getElem?_replicate, List.length_map,
      if_pos htwo, Option.some.injEq] at hsecond
    exact stored_value_ne hfixed _ hsecond.symm
  · intro h
    refine ⟨rfl, ?_⟩
    have harray : value_array w.kind.code (w.values.map (stored_value w.kind.shape))
        = w.values.map (stored_value w.kind.shape) := by
      rcases h with h | h | hone
      · rw [value_array, value_step_code hfixed, if_pos (Or.inl h)]
        exact store_values_step_one _ []
      · rw [value_array, value_step_code hfixed, if_pos (Or.inr h)]
        exact store_values_step_one _ []
      · obtain ⟨x, hx⟩ := List.length_eq_one_iff.mp hone
        rw [hx]
        rfl
    intro j x hx
    show (value_array w.kind.code (w.values.map (stored_value w.kind.shape)))[j]? = _
    rw [harray, List.getElem?_map, hx, Option.map_some]

/-- **Several values of a fixed size.** A property of a fixed-size type with the multi-value
flag is parsed completely exactly when it is of integers or of system times, or has a
single value. -/
theorem mapi_attr_read_multi (o : Options) (fill : UInt8) {ws : List Written} (hne : ws ≠ [])
    (hcount : ws.length + 1 < 2 ^ 32) (hsize : (encode_list fill ws).length < 2 ^ 64)
    (hlim : o.Admits ((ws.length + 1) * sizeof_ptr)) (hgrant : ∀ w ∈ ws, w.Granted o) :
    ∃ as : List MAPI_Attr, as.length = ws.length
      ∧ mapi_attr_read o (encode_list fill ws).length (encode_list fill ws)
        = .ok (some (as.map some ++ [none]))
      ∧ ∀ (i : ℕ) (w : Written) (a : MAPI_Attr), ws[i]? = some w → as[i]? = some a →
          w.multi = true → w.kind.string_like = false →
          (Complete w a ↔ w.kind = .int ∨ w.kind = .systime ∨ w.values.length = 1) := by
  refine ⟨ws.map Written.attr, List.length_map .., ?_, ?_⟩
  · rw [mapi_attr_read_list o fill hne hcount hsize hlim hgrant, List.map_map]
    rfl
  · intro i w a hw ha _ hfixed
    rw [List.getElem?_map, hw, Option.map_some, Option.some.injEq] at ha
    subst ha
    exact complete_attr_iff hfixed

/-- Two shorts. -/
def two_shorts : Written where
  kind := .short
  multi := true
  naming := .tag 1 (by decide)
  values := [(7 : UInt16), (8 : UInt16)]
  ne_nil := by decide
  fits := by decide
  count_ok := .inr rfl

/-- Two integers. -/
def two_ints : Written where
  kind := .int
  multi := true
  naming := .tag 1 (by decide)
  values := [(7 : UInt32), (8 : UInt32)]
  ne_nil := by decide
  fits := by decide
  count_ok := .inr rfl

theorem mapi_attr_read_multi_witness :
    ∃ as : List MAPI_Attr, as.length = 2
      ∧ mapi_attr_read {} (encode_list 0 [two_shorts, two_ints]).length
          (encode_list 0 [two_shorts, two_ints]) = .ok (some (as.map some ++ [none]))
      ∧ ∀ (i : ℕ) (w : Written) (a : MAPI_Attr), [two_shorts, two_ints][i]? = some w →
          as[i]? = some a → w.multi = true → w.kind.string_like = false →
          (Complete w a ↔ w.kind = .int ∨ w.kind = .systime ∨ w.values.length = 1) :=
  @mapi_attr_read_multi {} 0 [two_shorts, two_ints] (by simp) (by simp) (by decide +kernel)
    (.inl rfl) (by
      intro w hw
      have hcases : w = two_shorts ∨ w = two_ints := by simpa using hw
      rcases hcases with rfl | rfl
      · exact ⟨.inl rfl, trivial, .inl rfl, fun _ _ => trivial⟩
      · exact ⟨.inl rfl, trivial, .inl rfl, fun _ _ => trivial⟩)

/-- Of two shorts the first is overwritten, and the second is not where it should be. -/
theorem mapi_attr_read_multi_loses :
    ¬ ∀ (w : Written) (a : MAPI_Attr), w.multi = true → w.kind.string_like = false →
      mapi_attr_read {} (encode_list 0 [w]).length (encode_list 0 [w]) = .ok (some [some a, none]) →
      Complete w a := by
  intro h
  have hread : mapi_attr_read {} (encode_list 0 [two_shorts]).length (encode_list 0 [two_shorts])
      = .ok (some [some ⟨szMAPI_SHORT, 1, 2, [⟨2, .bytes2 8⟩, {}], none, 0, []⟩, none]) := by
    decide +kernel
  have hfirst := (h two_shorts _ rfl rfl hread).2 0 (7 : UInt16) rfl
  exact absurd hfirst (by decide)

end Tnef
