/-
The strings of an attachment record.

`group_strings` lists what the bytes of a group say about the three string fields, in
order: title data, and the first values of the relevant properties, as the raw bytes
that stand in the stream. The last string of a field decides. The name is duplicated as
a C string; the MIME type and the content id are copied by the length of the value in
the stream, which is not the length of its converted text and leaves out the terminator
behind an unterminated one. So a name is always shown, and the other two exactly when a
NUL falls inside that length.
-/
import Mathlib.Data.List.TakeWhile
import Tnef.File
import Tnef.MapiTail

set_option autoImplicit false

namespace Tnef

open ExceptRules Slice LittleEndian Layout Stateful

/-! ## What the stream carries -/

inductive Field
  | name
  | mime_type
  | content_id
  deriving DecidableEq, Repr

def File.get (file : File) : Field → Option Buffer
  | .name => file.name
  | .mime_type => file.mime_type
  | .content_id => file.content_id

section Frame

variable {file : File} {b : Option Buffer} {f : Field}

/-- Each field is set on its own. -/
theorem get_name_of_ne (hf : f ≠ .name) : ({ file with name := b } : File).get f = file.get f := by
  cases f with
  | name => exact absurd rfl hf
  | _ => rfl

theorem get_mime_type_of_ne (hf : f ≠ .mime_type) :
    ({ file with mime_type := b } : File).get f = file.get f := by
  cases f with
  | mime_type => exact absurd rfl hf
  | _ => rfl

theorem get_content_id_of_ne (hf : f ≠ .content_id) :
    ({ file with content_id := b } : File).get f = file.get f := by
  cases f with
  | content_id => exact absurd rfl hf
  | _ => rfl

end Frame

/-- A string value in the stream: its bytes, and whether they are 16-bit units. -/
structure Carried where
  unicode : Bool
  bytes : List UInt8
  deriving DecidableEq, Repr

/-- The bytes in UTF-8, before any terminator is added. -/
def Carried.converted (c : Carried) : List UInt8 :=
  if c.unicode then utf8_units c.bytes else c.bytes

/-- The string it is: the bytes up to the first NUL, or all of them. -/
def Carried.text (c : Carried) : List UInt8 := c.converted.takeWhile (· ≠ 0)

/-- As many bytes of the terminated text as the value has in the stream hold a NUL. -/
def Carried.Kept (c : Carried) : Prop := 0 ∈ (c.converted ++ [0]).take c.bytes.length

instance (c : Carried) : Decidable c.Kept := inferInstanceAs (Decidable (_ ∈ _))

def tag_field (tag : UInt32) : Option Field :=
  if tag = MAPI_ATTACH_LONG_FILENAME then some .name
  else if tag = MAPI_ATTACH_MIME_TAG then some .mime_type
  else if tag = MAPI_ATTACH_CONTENT_ID then some .content_id
  else none

/-- Where the first value of the property at `i` stands: behind header and count. -/
def values_offset (o : Options) (data : List UInt8) (i : ℕ) : ℕ :=
  match read_header o data.length data i with
  | .error _ => 0
  | .ok (a, i) =>
    match read_num_values data.length data a.type i with
    | .error _ => 0
    | .ok (_, i) => i

/-- The bytes behind the length word at `i`. -/
def block_at (data : List UInt8) (i : ℕ) : List UInt8 :=
  match GETINT32 data i with
  | .error _ => []
  | .ok n => (data.drop (i + 4)).take n.toNat

/-- The string of the property `a` that stands at `i`. -/
def property_string (o : Options) (data : List UInt8) (i : ℕ) (a : MAPI_Attr) : Carried :=
  ⟨a.type = szMAPI_UNICODE_STRING, block_at data (values_offset o data i)⟩

/-- The strings of `n` properties from `i` on. -/
def property_strings (o : Options) (data : List UInt8) : ℕ → ℕ → List (Field × Carried)
  | 0, _ => []
  | n + 1, i =>
    match read_property o data.length data i with
    | .ok (some (a, j)) =>
      ((tag_field a.name).toList.map fun f => (f, property_string o data i a))
        ++ property_strings o data n j
    | _ => []

/-- A list that is skipped under `--ignore-encode` carries nothing. -/
def attr_strings (o : Options) (attr : Attr) : List (Field × Carried) :=
  if attr.name = attATTACHMENT then
    match mapi_attr_read o attr.len attr.buf, GETINT32 attr.data 0 with
    | .ok (some _), .ok n => property_strings o attr.data n.toNat 4
    | _, _ => []
  else if attr.name = attATTACHTITLE then [(.name, ⟨false, attr.data⟩)]
  else []

def group_strings (o : Options) (as : List Attr) : List (Field × Carried) :=
  as.flatMap (attr_strings o)

/-- The last string carried for a field. -/
def last_string (es : List (Field × Carried)) (f : Field) : Option Carried := es.reverse.lookup f

/-- Every field shows the last string carried for it: its block holds a terminator, and
what stands before the first is that string. A field nothing was carried for is unset. -/
def Shows (file : File) (es : List (Field × Carried)) : Prop :=
  ∀ f, match last_string es f with
    | none => file.get f = none
    | some c => ∃ b, file.get f = some b ∧ b.Terminated ∧ b.text = c.text

/-! ## What the record holds -/

/-- The block behind a field that `c` has been copied to. -/
def stored_string (f : Field) (c : Carried) : Buffer :=
  match f with
  | .name => strdup c.text
  | _ => ⟨c.bytes.length, (c.converted ++ [0]).take c.bytes.length, List.length_take_le ..⟩

/-- The record after the strings `es`. -/
def Holds (file : File) (es : List (Field × Carried)) : Prop :=
  ∀ f, file.get f = (last_string es f).map (stored_string f)

theorem last_string_snoc (es : List (Field × Carried)) (f f' : Field) (c : Carried) :
    last_string (es ++ [(f, c)]) f' = if f' = f then some c else last_string es f' := by
  rw [last_string, List.reverse_append, List.reverse_singleton, List.singleton_append,
    List.lookup_cons]
  by_cases h : f' = f
  · rw [if_pos h, beq_iff_eq.mpr h]
  · rw [if_neg h, beq_eq_false_iff_ne.mpr h, last_string]

/-- One string more: the field it is for is overwritten, the others stay. -/
theorem Holds.snoc {file file' : File} {es : List (Field × Carried)} (hinv : Holds file es)
    {f : Field} {c : Carried} (hset : file'.get f = some (stored_string f c))
    (hkeep : ∀ f', f' ≠ f → file'.get f' = file.get f') : Holds file' (es ++ [(f, c)]) := by
  intro f'
  rw [last_string_snoc]
  by_cases h : f' = f
  · rw [if_pos h, h, hset, Option.map_some]
  · rw [if_neg h, hkeep f' h, hinv f']

theorem Holds.of_get {file file' : File} {es : List (Field × Carried)} (hinv : Holds file es)
    (hkeep : ∀ f, file'.get f = file.get f) : Holds file' es := by
  intro f
  rw [hkeep f, hinv f]

/-! ## The first value of a property -/

theorem block_at_of_at {data bs : List UInt8} {i : ℕ} {n : UInt32} (hlen : bs.length = n.toNat)
    (h : At data i (le32 n ++ bs)) : block_at data i = bs := by
  obtain ⟨hword, hbytes⟩ := counted_block_at.mp h
  rw [block_at, hword]
  simp only
  rw [← hlen]
  exact hbytes.take_drop

theorem string_type {type : UInt16} (h : type = szMAPI_STRING ∨ type = szMAPI_UNICODE_STRING) :
    value_step type = 1
      ∧ type_shape type = some (if type = szMAPI_UNICODE_STRING then .unicode else .bytes) := by
  rcases h with rfl | rfl
  · exact ⟨rfl, rfl⟩
  · exact ⟨rfl, rfl⟩

/-- **A string property's first value** is the terminated text of what stands in the
stream, under the length it has there. -/
theorem property_first_value {o : Options} {data : List UInt8} (hdata : data.length < 2 ^ 64)
    {i j : ℕ} {a : MAPI_Attr} (h : read_property o data.length data i = .ok (some (a, j)))
    (htype : a.type = szMAPI_STRING ∨ a.type = szMAPI_UNICODE_STRING) :
    ∃ b, first_value a = .ok ((property_string o data i a).bytes.length, b)
      ∧ b.bytes = (property_string o data i a).converted ++ [0]
      ∧ (property_string o data i a).bytes.length ≤ b.size := by
  obtain ⟨hd, i₁, i₂, xs, sh, hheader, hcount, hne, -, hsh, hchain, rfl⟩ :=
    (read_property_eq_ok hdata).mp h
  obtain ⟨hstep, hshape⟩ := string_type htype
  have hoffset : values_offset o data i = i₂ := by
    rw [values_offset, (read_header_eq_ok hdata).mpr hheader]
    simp only
    rw [read_num_values_eq_ok.mpr hcount]
  have harray : value_array (amend_type hd.type) xs = xs := by
    rw [value_array, hstep]
    exact store_values_step_one xs []
  have hsh' := hsh.symm.trans hshape
  rw [Option.some.injEq] at hsh'
  rcases xs with _ | ⟨x, xs⟩
  · exact absurd rfl hne
  · obtain ⟨k, hx, -⟩ := chain_cons.mp hchain
    rw [property_string, hoffset]
    simp only [first_value, harray, Carried.converted]
    -- the value in the stream decides the block: converted, or copied with a terminator
    by_cases hunicode : amend_type hd.type = szMAPI_UNICODE_STRING
    · rw [if_pos hunicode] at hsh'
      subst hsh'
      cases hx with
      | unicode n bs hlen hn hat =>
        rw [block_at_of_at hlen hat]
        refine ⟨utf8_block bs, ?_, ?_, ?_⟩
        · simp only [hlen]
        · rw [if_pos (by simpa using hunicode), utf8_block_bytes]
        · rw [utf8_block_size]
          omega
    · rw [if_neg hunicode] at hsh'
      subst hsh'
      cases hx with
      | bytes n bs hlen hlim hat =>
        rw [block_at_of_at hlen hat]
        refine ⟨.full (bs ++ [0]), ?_, ?_, ?_⟩
        · simp only [hlen]
        · rw [if_neg (by simpa using hunicode), Buffer.full_bytes]
        · rw [Buffer.full_size, List.length_append]
          omega

theorem property_num_values {o : Options} {data : List UInt8} (hdata : data.length < 2 ^ 64)
    {i j : ℕ} {a : MAPI_Attr} (h : read_property o data.length data i = .ok (some (a, j))) :
    a.num_values ≠ 0 := by
  obtain ⟨_, _, _, xs, _, -, -, hne, -, -, -, rfl⟩ := (read_property_eq_ok hdata).mp h
  exact fun hzero => hne (List.length_eq_zero_iff.mp hzero)

/-! ## One property, one attribute, one group -/

theorem takeWhile_terminated (l : List UInt8) :
    (l ++ [0]).takeWhile (· ≠ 0) = l.takeWhile (· ≠ 0) := by
  induction l with
  | nil => rfl
  | cons c l ih =>
    by_cases hc : c = 0
    · simp [hc]
    · simpa [hc] using ih

theorem c_str_eq_ok {b : Buffer} {l text : List UInt8} (hb : b.bytes = l ++ [0])
    (h : b.c_str = .ok text) : text = l.takeWhile (· ≠ 0) := by
  unfold Buffer.c_str at h
  split at h
  · cases h
    rw [Buffer.text, hb, takeWhile_terminated]
  · cases h

theorem copy_len_eq_ok {o : Options} {len : ℕ} {b r : Buffer} (hle : len ≤ b.size)
    (h : copy_len o len b = .ok r) : r = ⟨len, b.bytes.take len, List.length_take_le ..⟩ := by
  unfold copy_len at h
  rw [bind_eq_ok] at h
  obtain ⟨_, -, h⟩ := h
  rw [Buffer.copy_of_le hle] at h
  cases h
  rfl

/-- The string kept for the field of a string property: the name is duplicated as a C
string, the other two are copied by the length the value has in the stream. -/
theorem string_property_stored {o : Options} {data : List UInt8} (hdata : data.length < 2 ^ 64)
    {i j : ℕ} {a : MAPI_Attr} (hread : read_property o data.length data i = .ok (some (a, j)))
    (htype : a.type = szMAPI_STRING ∨ a.type = szMAPI_UNICODE_STRING) {len : ℕ} {b : Buffer}
    (hfirst : first_value a = .ok (len, b)) :
    (∀ text, b.c_str = .ok text →
        strdup text = stored_string .name (property_string o data i a))
      ∧ ∀ f copy, f ≠ .name → copy_len o len b = .ok copy →
        copy = stored_string f (property_string o data i a) := by
  obtain ⟨b', hb', hbytes, hle⟩ := property_first_value hdata hread htype
  rw [hb'] at hfirst
  cases hfirst
  refine ⟨?_, ?_⟩
  · intro text htext
    rw [c_str_eq_ok hbytes htext]
    rfl
  · intro f copy hf hcopy
    rw [copy_len_eq_ok hle hcopy]
    simp only [hbytes]
    match f, hf with
    | .mime_type, _ => rfl
    | .content_id, _ => rfl

/-- A property with a field of its own: what it stores there is all that changes. -/
theorem Holds.property {file file' : File} {es : List (Field × Carried)} (hinv : Holds file es)
    {tag : UInt32} {f : Field} (htag : tag_field tag = some f) {c : Carried}
    (hset : file'.get f = some (stored_string f c))
    (hkeep : ∀ f', f' ≠ f → file'.get f' = file.get f') :
    Holds file' (es ++ (tag_field tag).toList.map fun f => (f, c)) := by
  rw [htag, Option.toList_some, List.map_singleton]
  exact hinv.snoc hset hkeep

/-- A property without one changes none. -/
theorem Holds.other_property {file file' : File} {es : List (Field × Carried)}
    (hinv : Holds file es) {tag : UInt32} (htag : tag_field tag = none) {c : Carried}
    (hkeep : ∀ f, file'.get f = file.get f) :
    Holds file' (es ++ (tag_field tag).toList.map fun f => (f, c)) := by
  rw [htag, Option.toList_none, List.map_nil, List.append_nil]
  exact hinv.of_get hkeep

/-- **One property**: the string it carries replaces the one of its field. -/
theorem file_add_mapi_attr_holds {o : Options} {data : List UInt8} (hdata : data.length < 2 ^ 64)
    {i j : ℕ} {a : MAPI_Attr} {file file' : File} {es : List (Field × Carried)}
    (hread : read_property o data.length data i = .ok (some (a, j))) (hinv : Holds file es)
    (h : file_add_mapi_attr o file a = .ok file') :
    Holds file' (es ++ (tag_field a.name).toList.map fun f => (f, property_string o data i a)) := by
  unfold file_add_mapi_attr at h
  rw [if_pos (property_num_values hdata hread)] at h
  by_cases hname : a.name = MAPI_ATTACH_LONG_FILENAME
  · rw [if_pos hname] at h
    simp only [bind_eq_ok, assert_eq_ok, pure_eq_ok, Except.ok.injEq] at h
    obtain ⟨_, htype, ⟨len, b⟩, hfirst, text, htext, rfl⟩ := h
    have hstored := (string_property_stored hdata hread htype hfirst).1 text htext
    have htag : tag_field a.name = some .name := by rw [hname]; rfl
    exact hinv.property htag (congrArg some hstored) fun f hf => get_name_of_ne hf
  rw [if_neg hname] at h
  by_cases hobj : a.name = MAPI_ATTACH_DATA_OBJ
  · rw [if_pos hobj] at h
    simp only [bind_eq_ok, assert_eq_ok, pure_eq_ok, Except.ok.injEq] at h
    obtain ⟨_, -, ⟨len, b⟩, -, data', -, rfl⟩ := h
    have htag : tag_field a.name = none := by rw [hobj]; rfl
    -- the data of an embedded object are kept beside the strings
    apply hinv.other_property htag
    intro f
    cases f <;> rfl
  rw [if_neg hobj] at h
  by_cases hmime : a.name = MAPI_ATTACH_MIME_TAG
  · rw [if_pos hmime] at h
    simp only [bind_eq_ok, assert_eq_ok, pure_eq_ok, Except.ok.injEq] at h
    obtain ⟨_, htype, ⟨len, b⟩, hfirst, copy, hcopy, rfl⟩ := h
    have hstored := (string_property_stored hdata hread htype hfirst).2 .mime_type copy
      (by decide) hcopy
    have htag : tag_field a.name = some .mime_type := by rw [hmime]; rfl
    exact hinv.property htag (congrArg some hstored) fun f hf => get_mime_type_of_ne hf
  rw [if_neg hmime] at h
  by_cases hcid : a.name = MAPI_ATTACH_CONTENT_ID
  · rw [if_pos hcid] at h
    simp only [bind_eq_ok, assert_eq_ok, pure_eq_ok, Except.ok.injEq] at h
    obtain ⟨_, htype, ⟨len, b⟩, hfirst, copy, hcopy, rfl⟩ := h
    have hstored := (string_property_stored hdata hread htype hfirst).2 .content_id copy
      (by decide) hcopy
    have htag : tag_field a.name = some .content_id := by rw [hcid]; rfl
    exact hinv.property htag (congrArg some hstored) fun f hf => get_content_id_of_ne hf
  rw [if_neg hcid] at h
  cases h
  have htag : tag_field a.name = none := by
    rw [tag_field, if_neg hname, if_neg hmime, if_neg hcid]
  exact hinv.other_property htag fun f => rfl

/-- The loop over the properties of a list, against the reader's loop over its bytes. -/
theorem file_add_mapi_attrs_holds {o : Options} {data : List UInt8} (hdata : data.length < 2 ^ 64)
    (n : ℕ) : ∀ {i : ℕ} {attrs attrs' : List MAPI_Attr},
    read_properties o data.length data n i attrs = .ok (some attrs') →
    ∃ new, attrs' = attrs ++ new ∧ ∀ {file file' : File} {es : List (Field × Carried)},
      Holds file es → file_add_mapi_attrs o file (new.map some ++ [none]) = .ok file' →
      Holds file' (es ++ property_strings o data n i) := by
  induction n with
  | zero =>
    intro i attrs attrs' hread
    cases hread
    refine ⟨[], (List.append_nil _).symm, ?_⟩
    intro file file' es hinv h
    cases h
    rw [property_strings, List.append_nil]
    exact hinv
  | succ n ih =>
    intro i attrs attrs' hread
    rw [read_properties, bind_eq_ok] at hread
    obtain ⟨r, hr, hrest⟩ := hread
    rcases r with _ | ⟨a, j⟩
    · -- a property given up under `--ignore-encode` would have given up the list
      cases hrest
    · obtain ⟨new, rfl, hnew⟩ := ih hrest
      refine ⟨a :: new, by rw [List.append_assoc, List.singleton_append], ?_⟩
      intro file file' es hinv h
      rw [List.map_cons, List.cons_append, file_add_mapi_attrs, bind_eq_ok] at h
      obtain ⟨file₁, hone, h⟩ := h
      have hstep := hnew (file_add_mapi_attr_holds hdata hr hinv hone) h
      rw [property_strings, hr]
      simp only
      rw [← List.append_assoc]
      exact hstep

/-- The string at the start of an attribute, which the terminator behind its data ends at
the latest. -/
theorem attr_c_str_eq_ok {attr : Attr} {text : List UInt8} (h : c_str_at attr.buf 0 = .ok text) :
    text = attr.data.takeWhile (· ≠ 0) := by
  unfold c_str_at at h
  split at h
  · cases h
    rw [List.drop_zero, Attr.buf, takeWhile_terminated]
  · cases h

theorem file_add_attr_holds {o : Options} {attr : Attr} {file file' : File}
    {es : List (Field × Carried)} (hinv : Holds file es)
    (h : file_add_attr o file attr = .ok file') : Holds file' (es ++ attr_strings o attr) := by
  have hdata : attr.data.length < 2 ^ 64 := lt_trans attr.fits (by decide)
  unfold file_add_attr at h
  unfold attr_strings
  by_cases hdate : attr.name = attATTACHMODIFYDATE
  · rw [if_pos hdate] at h
    simp only [bind_eq_ok, pure_eq_ok, Except.ok.injEq] at h
    obtain ⟨dt, -, rfl⟩ := h
    rw [if_neg (by rw [hdate]; decide), if_neg (by rw [hdate]; decide), List.append_nil]
    exact hinv.of_get fun f => by cases f <;> rfl
  rw [if_neg hdate] at h
  by_cases hprops : attr.name = attATTACHMENT
  · rw [if_pos hprops, bind_eq_ok] at h
    rw [if_pos hprops]
    obtain ⟨r, hr, h⟩ := h
    rw [hr]
    rw [mapi_attr_read_attr] at hr
    rcases r with _ | mapi_attrs
    · cases h
      rw [List.append_nil]
      exact hinv
    · -- the reader's loop goes over the bytes, this one over what it returned
      simp only [mapi_attr_read, bind_eq_ok, pure_eq_ok, Except.ok.injEq] at hr
      obtain ⟨_, -, n, hn, _, -, _, -, attrs, hread, hattrs⟩ := hr
      rw [Option.map_eq_some_iff] at hattrs
      obtain ⟨as, rfl, rfl⟩ := hattrs
      obtain ⟨new, rfl, hnew⟩ := file_add_mapi_attrs_holds hdata n.toNat hread
      rw [hn]
      exact hnew hinv h
  rw [if_neg hprops] at h
  rw [if_neg hprops]
  by_cases htitle : attr.name = attATTACHTITLE
  · rw [if_pos htitle] at h
    rw [if_pos htitle]
    simp only [bind_eq_ok, pure_eq_ok, Except.ok.injEq] at h
    obtain ⟨text, htext, rfl⟩ := h
    refine hinv.snoc ?_ fun f hf => get_name_of_ne hf
    rw [attr_c_str_eq_ok htext]
    rfl
  rw [if_neg htitle] at h
  rw [if_neg htitle, List.append_nil]
  by_cases hobj : attr.name = attATTACHDATA
  · rw [if_pos hobj] at h
    simp only [bind_eq_ok, pure_eq_ok, Except.ok.injEq] at h
    obtain ⟨data, -, rfl⟩ := h
    exact hinv.of_get fun f => by cases f <;> rfl
  · rw [if_neg hobj] at h
    cases h
    exact hinv

/-- **A whole group**: each field holds the copy of the last string carried for it. -/
theorem group_holds {o : Options} (as : List Attr) : ∀ {file file' : File}
    {es : List (Field × Carried)}, Holds file es → as.foldlM (file_add_attr o) file = .ok file' →
    Holds file' (es ++ group_strings o as) := by
  induction as with
  | nil =>
    intro file file' es hinv h
    cases h
    rw [group_strings, List.flatMap_nil, List.append_nil]
    exact hinv
  | cons attr as ih =>
    intro file file' es hinv h
    rw [List.foldlM_cons, bind_eq_ok] at h
    obtain ⟨file₁, hone, h⟩ := h
    rw [group_strings, List.flatMap_cons, ← List.append_assoc]
    exact ih (file_add_attr_holds hinv hone) h

/-! ## When the strings are shown -/

theorem takeWhile_take {l : List UInt8} {n : ℕ} (h : 0 ∈ l.take n) :
    (l.take n).takeWhile (· ≠ 0) = l.takeWhile (· ≠ 0) := by
  induction l generalizing n with
  | nil => simp at h
  | cons c l ih =>
    match n, h with
    | n + 1, h =>
      rw [List.take_succ_cons] at h ⊢
      -- a NUL in front ends both; otherwise it lies in the rest
      by_cases hc : c = 0
      · simp [hc]
      · have hl : 0 ∈ l.take n := (List.mem_cons.mp h).resolve_left fun h0 => hc h0.symm
        simpa [hc] using ih hl

/-- A copy shows the string it is a copy of if the field is the name, or the copy reaches
a NUL. -/
theorem stored_string_shows (f : Field) (c : Carried) :
    (stored_string f c).Terminated ∧ (stored_string f c).text = c.text
      ↔ (f = .name ∨ c.Kept) := by
  have hcopy : ∀ b : Buffer, b.bytes = (c.converted ++ [0]).take c.bytes.length →
      (b.Terminated ∧ b.text = c.text ↔ c.Kept) := by
    intro b hb
    rw [Buffer.Terminated, Buffer.text, hb]
    constructor
    · exact fun h => h.1
    · intro h
      exact ⟨h, by rw [takeWhile_take h, takeWhile_terminated, Carried.text]⟩
  cases f with
  | name =>
    have htext : (strdup c.text).text = c.text := by
      rw [Buffer.text, strdup, Buffer.full_bytes, takeWhile_terminated, Carried.text,
        List.takeWhile_idem]
    simp [stored_string, strdup_terminated, htext]
  | mime_type => simpa using hcopy (stored_string .mime_type c) rfl
  | content_id => simpa using hcopy (stored_string .content_id c) rfl

/-- **The fields show their strings exactly when** the MIME type and the content id
carried last each have a NUL within their own length. -/
theorem file_shows_iff (o : Options) (as : List Attr) (file : File)
    (h : as.foldlM (file_add_attr o) {} = .ok file) :
    Shows file (group_strings o as)
      ↔ ∀ f c, f ≠ .name → last_string (group_strings o as) f = some c → c.Kept := by
  have hempty : Holds {} [] := fun f => by cases f <;> rfl
  have hinv : Holds file (group_strings o as) := by
    simpa using group_holds as hempty h
  constructor
  · intro hshows f c hf hlast
    have hfield := hshows f
    rw [hlast] at hfield
    obtain ⟨b, hb, hterminated, htext⟩ := hfield
    rw [hinv f, hlast, Option.map_some, Option.some.injEq] at hb
    subst hb
    exact ((stored_string_shows f c).mp ⟨hterminated, htext⟩).resolve_left hf
  · intro hkept f
    match hlast : last_string (group_strings o as) f with
    | none =>
      simp only
      rw [hinv f, hlast, Option.map_none]
    | some c =>
      have hshows : f = .name ∨ c.Kept := by
        by_cases hf : f = .name
        · exact Or.inl hf
        · exact Or.inr (hkept f c hf hlast)
      obtain ⟨hterminated, htext⟩ := (stored_string_shows f c).mpr hshows
      exact ⟨stored_string f c, by rw [hinv f, hlast, Option.map_some], hterminated, htext⟩

theorem file_shows_iff_witness :
    Shows { name := some (strdup (ascii "a")), mime_type := some (.full (ascii "b" ++ [0])) }
        (group_strings {} [⟨.LVL_ATTACHMENT, szSTRING, attATTACHTITLE, ascii "a", by decide⟩,
          ⟨.LVL_ATTACHMENT, szBYTE, attATTACHMENT, [1, 0, 0, 0, 0x1e, 0, 0x0e, 0x37, 1, 0, 0, 0,
            2, 0, 0, 0, 98, 0, 0, 0], by decide⟩])
      ↔ ∀ f c, f ≠ .name → last_string
        (group_strings {} [⟨.LVL_ATTACHMENT, szSTRING, attATTACHTITLE, ascii "a", by decide⟩,
          ⟨.LVL_ATTACHMENT, szBYTE, attATTACHMENT, [1, 0, 0, 0, 0x1e, 0, 0x0e, 0x37, 1, 0, 0, 0,
            2, 0, 0, 0, 98, 0, 0, 0], by decide⟩]) f = some c → c.Kept :=
  file_shows_iff {} _ _ (by decide +kernel)

/-- The MIME type `b` without a terminator: the copy has none either, and `--list` with
MIME types reads past it. -/
theorem mime_type_unterminated :
    ∃ file, [(⟨.LVL_ATTACHMENT, szBYTE, attATTACHMENT, [1, 0, 0, 0, 0x1e, 0, 0x0e, 0x37, 1, 0, 0, 0,
        1, 0, 0, 0, 98, 0, 0, 0], by decide⟩ : Attr)].foldlM (file_add_attr {}) {} = .ok file
      ∧ file.mime_type = some (.full [98]) ∧ ¬ (Buffer.full [98]).Terminated
      ∧ (exec (file_write { list := true, listmime := true } none file) {}).1 = .error .fault := by
  refine ⟨{ mime_type := some (.full [98]) }, ?_, rfl, ?_, ?_⟩
  · decide +kernel
  · decide
  · decide +kernel

end Tnef
