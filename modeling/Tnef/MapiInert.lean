/-
Properties nobody asks for.

The record of an attachment takes four things from a property list, and the bodies of a
message two; which one a property sets depends on the name it is read under. So what comes
of a list is a run over fields (`file_add_mapi_attrs_eq`, `message_properties_eq`), and a
property put into the list makes no difference exactly when it is read at all and writes
nothing, or nothing new, or what is written again behind it. The name is the tag of the
property, or the number of a property named by GUID and number, whatever number that is.
-/
import Tnef.Lib.Fields
import Tnef.MapiForm
import Tnef.Parse

set_option autoImplicit false

namespace Tnef

open ExceptRules Slice LittleEndian Layout Fields

/-! ## The record of an attachment -/

/-- What a property may set. -/
inductive FileField
  | name
  | data
  | mime_type
  | content_id
  deriving DecidableEq, Repr

/-- The length goes with the data. -/
def FileField.Value : FileField → Type
  | .data => ℕ × Option Buffer
  | _ => Option Buffer

def file_access : FieldAccess FileField.Value File where
  get
    | .name, file => file.name
    | .data, file => (file.len, file.data)
    | .mime_type, file => file.mime_type
    | .content_id, file => file.content_id
  put
    | .name, v, file => { file with name := v }
    | .data, v, file => { file with len := v.1, data := v.2 }
    | .mime_type, v, file => { file with mime_type := v }
    | .content_id, v, file => { file with content_id := v }
  get_put k v s := by cases k <;> rfl
  get_put_ne k k' v s h := by
    cases k <;> cases k' <;> first | rfl | exact absurd rfl h
  put_get k s := by cases k <;> rfl
  put_put k v w s := by cases k <;> rfl
  put_comm k k' v w s h := by
    cases k <;> cases k' <;> first | rfl | exact absurd rfl h

/-- The name under which a property sets the field. -/
def FileField.tag : FileField → UInt32
  | .name => MAPI_ATTACH_LONG_FILENAME
  | .data => MAPI_ATTACH_DATA_OBJ
  | .mime_type => MAPI_ATTACH_MIME_TAG
  | .content_id => MAPI_ATTACH_CONTENT_ID

/-- The field a property is a source of. -/
def property_source (a : MAPI_Attr) : Option FileField :=
  if a.num_values ≠ 0 then
    if a.name = MAPI_ATTACH_LONG_FILENAME then some .name
    else if a.name = MAPI_ATTACH_DATA_OBJ then some .data
    else if a.name = MAPI_ATTACH_MIME_TAG then some .mime_type
    else if a.name = MAPI_ATTACH_CONTENT_ID then some .content_id
    else none
  else
    none

/-- What a property writes. -/
def file_written (o : Options) (a : MAPI_Attr) : M (Option (Σ k, FileField.Value k)) :=
  if a.num_values ≠ 0 then
    if a.name = MAPI_ATTACH_LONG_FILENAME then do
      assert (a.type = szMAPI_STRING ∨ a.type = szMAPI_UNICODE_STRING)
      let (_, b) ← first_value a
      return some ⟨.name, some (strdup (← b.c_str))⟩
    else if a.name = MAPI_ATTACH_DATA_OBJ then do
      assert (a.type = szMAPI_BINARY ∨ a.type = szMAPI_OBJECT)
      let (len, b) ← first_value a
      return some ⟨.data, (len, some (← copy_len o len b))⟩
    else if a.name = MAPI_ATTACH_MIME_TAG then do
      assert (a.type = szMAPI_STRING ∨ a.type = szMAPI_UNICODE_STRING)
      let (len, b) ← first_value a
      return some ⟨.mime_type, some (← copy_len o len b)⟩
    else if a.name = MAPI_ATTACH_CONTENT_ID then do
      assert (a.type = szMAPI_STRING ∨ a.type = szMAPI_UNICODE_STRING)
      let (len, b) ← first_value a
      return some ⟨.content_id, some (← copy_len o len b)⟩
    else
      .ok none
  else
    .ok none

theorem file_add_mapi_attr_eq (o : Options) (file : File) (a : MAPI_Attr) :
    file_add_mapi_attr o file a
      = file_written o a >>= fun w => .ok (file_access.apply file w) := by
  unfold file_add_mapi_attr file_written
  split_ifs
  · simp only [bind_assoc]
    rfl
  · simp only [bind_assoc]
    rfl
  · simp only [bind_assoc]
    rfl
  · simp only [bind_assoc]
    rfl
  · rfl
  · rfl

/-- **The properties of an attachment write the record field by field.** -/
theorem file_add_mapi_attrs_eq (o : Options) (as : List MAPI_Attr) : ∀ file : File,
    file_add_mapi_attrs o file (as.map some ++ [none])
      = file_access.run (file_written o) as file := by
  induction as with
  | nil =>
    intro file
    rfl
  | cons a as ih =>
    intro file
    rw [List.map_cons, List.cons_append, file_add_mapi_attrs, file_add_mapi_attr_eq, bind_assoc,
      FieldAccess.run]
    simp only [ok_bind, ih]

theorem property_source_tag {a : MAPI_Attr} {k : FileField} (h : property_source a = some k) :
    a.num_values ≠ 0 ∧ a.name = k.tag := by
  unfold property_source at h
  split_ifs at h with hnum hname hdata hmime hid
  · cases h
    exact ⟨hnum, hname⟩
  · cases h
    exact ⟨hnum, hdata⟩
  · cases h
    exact ⟨hnum, hmime⟩
  · cases h
    exact ⟨hnum, hid⟩

/-- What a property writes, it writes to the field it is a source of. -/
theorem file_written_source {o : Options} {a : MAPI_Attr} {w : Option (Σ k, FileField.Value k)}
    (h : file_written o a = .ok w) : w.map Sigma.fst = property_source a := by
  unfold file_written at h
  unfold property_source
  split_ifs at h ⊢
  · simp only [bind_eq_ok, pure_eq_ok, Except.ok.injEq] at h
    obtain ⟨_, -, _, -, _, -, rfl⟩ := h
    rfl
  · simp only [bind_eq_ok, pure_eq_ok, Except.ok.injEq] at h
    obtain ⟨_, -, _, -, _, -, rfl⟩ := h
    rfl
  · simp only [bind_eq_ok, pure_eq_ok, Except.ok.injEq] at h
    obtain ⟨_, -, _, -, _, -, rfl⟩ := h
    rfl
  · simp only [bind_eq_ok, pure_eq_ok, Except.ok.injEq] at h
    obtain ⟨_, -, _, -, _, -, rfl⟩ := h
    rfl
  · cases h
    rfl
  · cases h
    rfl

/-- A property sets the field of its name, and the field of no other. -/
theorem file_written_field {o : Options} {a : MAPI_Attr} {k : FileField} {v : k.Value}
    (h : file_written o a = .ok (some ⟨k, v⟩)) : a.num_values ≠ 0 ∧ a.name = k.tag :=
  property_source_tag (file_written_source h).symm

theorem FileField.tag_injective : Function.Injective FileField.tag := by
  intro k k' h
  cases k <;> cases k' <;> first | rfl | exact absurd h (by decide)

/-- The names the record asks for. -/
def attachment_names : List UInt32 :=
  [MAPI_ATTACH_LONG_FILENAME, MAPI_ATTACH_DATA_OBJ, MAPI_ATTACH_MIME_TAG, MAPI_ATTACH_CONTENT_ID]

/-- A property that returns without a write has no values or a name nobody asks for. -/
theorem file_written_none_iff {o : Options} {a : MAPI_Attr} (hnum : a.num_values ≠ 0) :
    file_written o a = .ok none ↔ a.name ∉ attachment_names := by
  unfold file_written attachment_names
  rw [if_pos hnum]
  simp only [List.mem_cons, List.not_mem_nil, or_false, not_or]
  split_ifs with hname hdata hmime hid
  · simp [hname, bind_eq_ok]
  · simp [hdata, bind_eq_ok]
  · simp [hmime, bind_eq_ok]
  · simp [hid, bind_eq_ok]
  · simp [hname, hdata, hmime, hid]

/-! ## The bodies of a message -/

inductive BodyField
  | html
  | rtf
  deriving DecidableEq, Repr

def body_access : FieldAccess (fun _ : BodyField => Option (List (Option VarLenData))) MessageBody where
  get
    | .html, body => body.html_bodies
    | .rtf, body => body.rtf_bodies
  put
    | .html, v, body => { body with html_bodies := v }
    | .rtf, v, body => { body with rtf_bodies := v }
  get_put k v s := by cases k <;> rfl
  get_put_ne k k' v s h := by
    cases k <;> cases k' <;> first | rfl | exact absurd rfl h
  put_get k s := by cases k <;> rfl
  put_put k v w s := by cases k <;> rfl
  put_comm k k' v w s h := by
    cases k <;> cases k' <;> first | rfl | exact absurd rfl h

def BodyField.tag : BodyField → UInt32
  | .html => MAPI_BODY_HTML
  | .rtf => MAPI_RTF_COMPRESSED

/-- What a property writes: an array of bodies, if it is binary. -/
def body_written (o : Options) (a : MAPI_Attr) :
    M (Option (Σ _ : BodyField, Option (List (Option VarLenData)))) :=
  if a.type = szMAPI_BINARY ∧ a.name = MAPI_BODY_HTML then do
    return some ⟨.html, some (← get_html_data o a)⟩
  else if a.type = szMAPI_BINARY ∧ a.name = MAPI_RTF_COMPRESSED then do
    return some ⟨.rtf, some (← get_rtf_data o a)⟩
  else
    .ok none

theorem message_property_eq (o : Options) (body : MessageBody) (a : MAPI_Attr) :
    message_property o body a = body_written o a >>= fun w => .ok (body_access.apply body w) := by
  unfold message_property body_written
  split_ifs
  · simp only [bind_assoc]
    rfl
  · simp only [bind_assoc]
    rfl
  · rfl

/-- **The properties of a message write the bodies kind by kind.** -/
theorem message_properties_eq (o : Options) (as : List MAPI_Attr) : ∀ body : MessageBody,
    message_properties o body (as.map some ++ [none])
      = body_access.run (body_written o) as body := by
  induction as with
  | nil =>
    intro body
    rfl
  | cons a as ih =>
    intro body
    rw [List.map_cons, List.cons_append, message_properties, message_property_eq, bind_assoc,
      FieldAccess.run]
    simp only [ok_bind, ih]

theorem body_written_field {o : Options} {a : MAPI_Attr} {k : BodyField}
    {v : Option (List (Option VarLenData))} (h : body_written o a = .ok (some ⟨k, v⟩)) :
    a.type = szMAPI_BINARY ∧ a.name = k.tag := by
  unfold body_written at h
  split_ifs at h with hhtml hrtf
  · simp only [bind_eq_ok, pure_eq_ok, Except.ok.injEq] at h
    obtain ⟨_, -, heq⟩ := h
    cases heq
    exact hhtml
  · simp only [bind_eq_ok, pure_eq_ok, Except.ok.injEq] at h
    obtain ⟨_, -, heq⟩ := h
    cases heq
    exact hrtf
  · cases h

theorem BodyField.tag_injective : Function.Injective BodyField.tag := by
  intro k k' h
  cases k <;> cases k' <;> first | rfl | exact absurd h (by decide)

/-- The names the bodies of a message are taken from. -/
def message_names : List UInt32 := [MAPI_BODY_HTML, MAPI_RTF_COMPRESSED]

theorem body_written_none_iff {o : Options} {a : MAPI_Attr} :
    body_written o a = .ok none ↔ ¬ (a.type = szMAPI_BINARY ∧ a.name ∈ message_names) := by
  unfold body_written message_names
  simp only [List.mem_cons, List.not_mem_nil, or_false]
  split_ifs with hhtml hrtf
  · simp [hhtml, bind_eq_ok]
  · simp [hrtf, bind_eq_ok]
  · refine ⟨fun _ => ?_, fun _ => rfl⟩
    rintro ⟨htype, hname | hname⟩
    · exact hhtml ⟨htype, hname⟩
    · exact hrtf ⟨htype, hname⟩

/-! ## One more property -/

theorem readableList_insert {o : Options} {before after : List Entry} {p : Entry}
    (h : ReadableList o (before ++ after)) : ReadableList o (before ++ p :: after)
      ↔ o.Admits ((before.length + after.length + 2) * sizeof_ptr) ∧ p.Readable o := by
  have hlen : (before ++ p :: after).length + 1 = before.length + after.length + 2 := by
    rw [List.length_append, List.length_cons]
    omega
  constructor
  · rintro ⟨hpointers, hall⟩
    rw [hlen] at hpointers
    exact ⟨hpointers, hall p (List.mem_append_right _ (List.mem_cons_self ..))⟩
  · rintro ⟨hpointers, hp⟩
    refine ⟨by rw [hlen]; exact hpointers, ?_⟩
    intro q hq
    rcases List.mem_append.mp hq with hq | hq
    · exact h.entries q (List.mem_append_left _ hq)
    · rcases List.mem_cons.mp hq with rfl | hq
      · exact hp
      · exact h.entries q (List.mem_append_right _ hq)

/-- The run `x` is the writes of the list, or stops where the list cannot be read. -/
structure ComesTo {κ σ : Type} {ν : κ → Type} (o : Options) (A : FieldAccess ν σ)
    (write : MAPI_Attr → M (Option (Σ k, ν k))) (s : σ) (ps : List Entry) (x : M σ) : Prop where
  reads : ReadableList o ps → x = A.run write (ps.map Entry.attr) s
  stops : ¬ ReadableList o ps → ∃ e, x = .error e

/-- What one more property does to a run over fields. -/
theorem comesTo_insert {κ σ : Type} {ν : κ → Type} {o : Options} {A : FieldAccess ν σ}
    {write : MAPI_Attr → M (Option (Σ k, ν k))} {s t : σ} {before after : List Entry} {p : Entry}
    {x x' : M σ} (hx : ComesTo o A write s (before ++ after) x)
    (hx' : ComesTo o A write s (before ++ p :: after) x') (h : x = .ok t) :
    ∃ u, A.run write (before.map Entry.attr) s = .ok u
      ∧ A.run write (after.map Entry.attr) u = .ok t
      ∧ (∀ q ∈ after, q.Readable o)
      ∧ (x' = .ok t ↔ o.Admits ((before.length + after.length + 2) * sizeof_ptr) ∧ p.Readable o
        ∧ (write p.attr = .ok none ∨ ∃ k v, write p.attr = .ok (some ⟨k, v⟩)
          ∧ (A.get k u = v ∨ FieldAccess.Writes write k (after.map Entry.attr)))) := by
  -- the run without the property returned, so the rest of the list can be read
  have hlist : ReadableList o (before ++ after) := by
    by_contra hnot
    obtain ⟨e, he⟩ := hx.stops hnot
    rw [he] at h
    cases h
  rw [hx.reads hlist, List.map_append, FieldAccess.run_append, bind_eq_ok] at h
  obtain ⟨u, hbefore, hafter⟩ := h
  have hread : ∀ q ∈ after, q.Readable o := by
    intro q hq
    apply hlist.entries
    exact List.mem_append_right _ hq
  refine ⟨u, hbefore, hafter, hread, ?_⟩
  -- the longer list is not read if the property or the room for one more pointer is refused
  by_cases hinserted : ReadableList o (before ++ p :: after)
  · obtain ⟨hpointers, hp⟩ := (readableList_insert hlist).mp hinserted
    rw [hx'.reads hinserted, List.map_append, List.map_cons,
      FieldAccess.run_insert_iff hbefore hafter, and_iff_right hpointers, and_iff_right hp]
  · obtain ⟨e, he⟩ := hx'.stops hinserted
    rw [he]
    refine ⟨nofun, ?_⟩
    rintro ⟨hpointers, hp, -⟩
    exact absurd ((readableList_insert hlist).mpr ⟨hpointers, hp⟩) hinserted

section Insert

variable {o : Options} {before after ps : List Entry} {p : Entry} {attr attr' : Attr}

theorem file_add_attr_comesTo (hne : ps ≠ []) (hname : attr.name = attATTACHMENT)
    (hdata : attr.data = encode_entries ps) (file : File) :
    ComesTo o file_access (file_written o) file ps (file_add_attr o file attr) := by
  obtain ⟨hread, hstop⟩ := mapi_attr_read_entries o hne hdata
  have hdate : attr.name ≠ attATTACHMODIFYDATE := by
    rw [hname]
    decide
  unfold file_add_attr
  rw [if_neg hdate, if_pos hname]
  refine ⟨?_, ?_⟩
  · intro h
    rw [hread h, ok_bind]
    exact file_add_mapi_attrs_eq o _ file
  · intro h
    obtain ⟨e, he⟩ := hstop h
    exact ⟨e, by rw [he]; rfl⟩

theorem message_attr_comesTo (hne : ps ≠ []) (hname : attr.name = attMAPIPROPS)
    (hdata : attr.data = encode_entries ps) (body : MessageBody) :
    ComesTo o body_access (body_written o) body ps (message_attr o body attr) := by
  obtain ⟨hread, hstop⟩ := mapi_attr_read_entries o hne hdata
  have htext : attr.name ≠ attBODY := by
    rw [hname]
    decide
  unfold message_attr
  rw [if_neg htext, if_pos hname]
  refine ⟨?_, ?_⟩
  · intro h
    rw [hread h, ok_bind]
    exact message_properties_eq o _ body
  · intro h
    obtain ⟨e, he⟩ := hstop h
    exact ⟨e, by rw [he]; rfl⟩

/-- A field is written again when a property of its name follows. -/
theorem file_writes_iff {u t : File} (hread : ∀ q ∈ after, q.Readable o)
    (hrun : file_access.run (file_written o) (after.map Entry.attr) u = .ok t) (k : FileField) :
    FieldAccess.Writes (file_written o) k (after.map Entry.attr) ↔ ∃ q ∈ after, q.attr.name = k.tag := by
  rw [FieldAccess.writes_iff (fun k a => a.name = k.tag) hrun]
  · simp only [List.mem_map, exists_exists_and_eq_and]
  · intro a k v h
    exact (file_written_field h).2
  · intro a ha hw k hname
    obtain ⟨q, hq, rfl⟩ := List.mem_map.mp ha
    -- a property that has values and writes nothing has a name that is nobody's
    have hnot := (file_written_none_iff (hread q hq).num_values).mp hw
    rw [hname] at hnot
    cases k <;> exact absurd (by decide) hnot
  · intro a k k' h h'
    exact FileField.tag_injective (h.symm.trans h')

theorem body_writes_iff {u t : MessageBody}
    (hrun : body_access.run (body_written o) (after.map Entry.attr) u = .ok t) (k : BodyField) :
    FieldAccess.Writes (body_written o) k (after.map Entry.attr)
      ↔ ∃ q ∈ after, q.attr.type = szMAPI_BINARY ∧ q.attr.name = k.tag := by
  rw [FieldAccess.writes_iff (fun k a => a.type = szMAPI_BINARY ∧ a.name = k.tag) hrun]
  · simp only [List.mem_map, exists_exists_and_eq_and]
  · intro a k v h
    exact body_written_field h
  · rintro a ha hw k ⟨htype, hname⟩
    have hnot := body_written_none_iff.mp hw
    rw [hname] at hnot
    cases k <;> exact absurd ⟨htype, by decide⟩ hnot
  · intro a k k' h h'
    exact BodyField.tag_injective (h.2.symm.trans h'.2)

/-- What `p` sets in the record `u` is nothing, or what is there, or is set again by a
property of the same name. -/
def NothingNew (o : Options) (u : File) (after : List Entry) (p : Entry) : Prop :=
  p.attr.name ∉ attachment_names
    ∨ ∃ k v, file_written o p.attr = .ok (some ⟨k, v⟩)
      ∧ (file_access.get k u = v ∨ ∃ q ∈ after, q.attr.name = p.attr.name)

/-- The same for the bodies of a message, which are only taken from binary properties. -/
def NoNewBody (o : Options) (u : MessageBody) (after : List Entry) (p : Entry) : Prop :=
  ¬ (p.attr.type = szMAPI_BINARY ∧ p.attr.name ∈ message_names)
    ∨ ∃ k v, body_written o p.attr = .ok (some ⟨k, v⟩)
      ∧ (body_access.get k u = v
        ∨ ∃ q ∈ after, q.attr.type = szMAPI_BINARY ∧ q.attr.name = p.attr.name)

/-- One more property of an attachment. -/
theorem file_add_attr_insert (hne : before ++ after ≠ []) (hname : attr.name = attATTACHMENT)
    (hname' : attr'.name = attATTACHMENT) (hdata : attr.data = encode_entries (before ++ after))
    (hdata' : attr'.data = encode_entries (before ++ p :: after)) {file file' : File}
    (h : file_add_attr o file attr = .ok file') :
    ∃ u, file_add_mapi_attrs o file ((before.map Entry.attr).map some ++ [none]) = .ok u
      ∧ (file_add_attr o file attr' = .ok file'
        ↔ o.Admits ((before.length + after.length + 2) * sizeof_ptr) ∧ p.Readable o
          ∧ NothingNew o u after p) := by
  have hne' : before ++ p :: after ≠ [] := List.append_ne_nil_of_right_ne_nil _ (List.cons_ne_nil _ _)
  obtain ⟨u, hbefore, hafter, hread, hiff⟩ := comesTo_insert
    (file_add_attr_comesTo hne hname hdata file) (file_add_attr_comesTo hne' hname' hdata' file) h
  refine ⟨u, by rw [file_add_mapi_attrs_eq, hbefore], hiff.trans ?_⟩
  apply and_congr_right
  intro _
  apply and_congr_right
  intro hp
  rw [file_written_none_iff hp.num_values]
  apply or_congr_right
  refine exists₂_congr fun k v => and_congr_right fun hv => or_congr_right ?_
  rw [(file_written_field hv).2]
  exact file_writes_iff hread hafter k

/-- One more property of a message. -/
theorem message_attr_insert (hne : before ++ after ≠ []) (hname : attr.name = attMAPIPROPS)
    (hname' : attr'.name = attMAPIPROPS) (hdata : attr.data = encode_entries (before ++ after))
    (hdata' : attr'.data = encode_entries (before ++ p :: after)) {body body' : MessageBody}
    (h : message_attr o body attr = .ok body') :
    ∃ u, message_properties o body ((before.map Entry.attr).map some ++ [none]) = .ok u
      ∧ (message_attr o body attr' = .ok body'
        ↔ o.Admits ((before.length + after.length + 2) * sizeof_ptr) ∧ p.Readable o
          ∧ NoNewBody o u after p) := by
  have hne' : before ++ p :: after ≠ [] := List.append_ne_nil_of_right_ne_nil _ (List.cons_ne_nil _ _)
  obtain ⟨u, hbefore, hafter, -, hiff⟩ := comesTo_insert
    (message_attr_comesTo hne hname hdata body) (message_attr_comesTo hne' hname' hdata' body) h
  refine ⟨u, by rw [message_properties_eq, hbefore], hiff.trans ?_⟩
  rw [body_written_none_iff]
  apply and_congr_right
  intro _
  apply and_congr_right
  intro _
  apply or_congr_right
  refine exists₂_congr fun k v => and_congr_right fun hv => or_congr_right ?_
  rw [(body_written_field hv).2]
  exact body_writes_iff hafter k

end Insert

/-- An attachment's number, which the record has no field for. -/
def attach_num : Entry where
  bytes := le16 szMAPI_INT ++ le16 0x0e21 ++ le32 5
  type := szMAPI_INT
  tag := 0x0e21
  attr := { type := szMAPI_INT, name := 0x0e21, num_values := 1, values := [⟨4, .bytes4 5⟩] }
  words := (at_append.mp (at_zero _)).1
  form := by
    have hat := at_append.mp (at_zero (le16 szMAPI_INT ++ le16 0x0e21 ++ le32 5))
    exact ⟨_, 4, 4, [⟨4, .bytes4 5⟩], .four,
      .plain szMAPI_INT 0x0e21 (admits_unlimited _) hat.1 (by decide), ⟨rfl, rfl⟩, rfl,
      .cons (.four 5 hat.2) (.nil _), rfl⟩

/-- A display name of no values. -/
def no_values : Entry where
  bytes := le16 szMAPI_STRING ++ le16 0x3001 ++ le32 0
  type := szMAPI_STRING
  tag := 0x3001
  attr := { type := szMAPI_STRING, name := 0x3001, num_values := 0, values := [] }
  words := (at_append.mp (at_zero _)).1
  form := by
    have hat := at_append.mp (at_zero (le16 szMAPI_STRING ++ le16 0x3001 ++ le32 0))
    exact ⟨_, 4, 8, [], .bytes, .plain szMAPI_STRING 0x3001 (admits_unlimited _) hat.1 (by decide),
      ⟨0, hat.2, rfl, rfl⟩, rfl, .nil _, rfl⟩

/-- A string named by a GUID of zeros and the number that is the tag of a file name. -/
def named_by_number : Entry where
  bytes := le16 szMAPI_STRING ++ le16 0x8000 ++ (List.replicate 16 0 ++ le32 0 ++ le32 0x3707)
    ++ le32 1 ++ (le32 2 ++ [0x61, 0] ++ [0, 0])
  type := szMAPI_STRING
  tag := 0x8000
  attr := { type := szMAPI_STRING, name := 0x3707, num_values := 1,
            values := [⟨2, .buf (.full [0x61, 0, 0])⟩],
            guid := some ⟨0, 0, 0, List.replicate 8 0, rfl⟩ }
  words := ⟨[], _, rfl, rfl⟩
  form := by
    refine ⟨_, 28, 32, [⟨2, .buf (.full [0x61, 0, 0])⟩], .bytes,
      .guid szMAPI_STRING 0x8000 (admits_unlimited _) ⟨[], _, rfl, rfl⟩ (by decide)
        (.numbered ⟨0, 0, 0, List.replicate 8 0, rfl⟩ 0x3707 (admits_unlimited _) ?_), ?_, rfl, ?_, rfl⟩
    · exact ⟨le16 szMAPI_STRING ++ le16 0x8000, _, rfl, rfl⟩
    · exact ⟨1, ⟨le16 szMAPI_STRING ++ le16 0x8000 ++ (List.replicate 16 0 ++ le32 0 ++ le32 0x3707),
        _, rfl, rfl⟩, rfl, rfl⟩
    · refine .cons (.bytes 2 [0x61, 0] rfl (admits_unlimited _) ?_) (.nil _)
      exact ⟨le16 szMAPI_STRING ++ le16 0x8000 ++ (List.replicate 16 0 ++ le32 0 ++ le32 0x3707)
        ++ le32 1, _, rfl, rfl⟩

/-- An integer of three values. -/
def three_values : Entry where
  bytes := le16 0x1003 ++ le16 0x0001 ++ le32 3 ++ le32 7 ++ le32 8 ++ le32 9
  type := 0x1003
  tag := 0x0001
  attr := { type := szMAPI_INT, name := 1, num_values := 3,
            values := [⟨4, .bytes4 7⟩, ⟨4, .bytes4 8⟩, ⟨4, .bytes4 9⟩] }
  words := ⟨[], _, rfl, rfl⟩
  form := by
    refine ⟨_, 4, 8, [⟨4, .bytes4 7⟩, ⟨4, .bytes4 8⟩, ⟨4, .bytes4 9⟩], .four,
      .plain 0x1003 0x0001 (admits_unlimited _) ⟨[], _, rfl, rfl⟩ (by decide), ?_, rfl,
      .cons (.four 7 ?_) (.cons (.four 8 ?_) (.cons (.four 9 ?_) (.nil _))), rfl⟩
    · exact ⟨3, ⟨le16 0x1003 ++ le16 0x0001, _, rfl, rfl⟩, rfl, rfl⟩
    · exact ⟨le16 0x1003 ++ le16 0x0001 ++ le32 3, _, rfl, rfl⟩
    · exact ⟨le16 0x1003 ++ le16 0x0001 ++ le32 3 ++ le32 7, _, rfl, rfl⟩
    · exact ⟨le16 0x1003 ++ le16 0x0001 ++ le32 3 ++ le32 7 ++ le32 8, _, rfl, rfl⟩

/-- The attribute a list of properties comes in. -/
def list_attr (lvl_type : level_type) (name : UInt16) (ps : List Entry)
    (h : (encode_entries ps).length < 2 ^ 32) : Attr := ⟨lvl_type, szBYTE, name, encode_entries ps, h⟩

/-- The property makes no difference to an attachment, wherever it is put into a list. -/
def Inert (o : Options) (p : Entry) : Prop :=
  ∀ (before after : List Entry) (attr attr' : Attr) (file file' : File), before ++ after ≠ [] →
    attr.name = attATTACHMENT → attr'.name = attATTACHMENT →
    attr.data = encode_entries (before ++ after) →
    attr'.data = encode_entries (before ++ p :: after) →
    file_add_attr o file attr = .ok file' → file_add_attr o file attr' = .ok file'

end Tnef
