/-
The bodies a message offers.

`avail` lists them from the attributes of the stream: the text of the last attBODY, the
values of the last binary HTML property, and of the last binary compressed RTF property
those values that `is_rtf_data` recognises, decoded. `slots` is what the arrays of the
program make of it, a place for every value, empty where a value was not recognised.
`loop_offers` connects the two: after the reading loop the arrays hold the slots.
-/
import Mathlib.Data.List.ReduceOption
import Tnef.Calls
import Tnef.StreamEnds

set_option autoImplicit false

namespace Tnef

open ExceptRules Stateful

/-! ## What is offered -/

/-- The properties read from an attribute. -/
def attr_properties (o : Options) (attr : Attr) : List MAPI_Attr :=
  match mapi_attr_read o attr.len attr.buf with
  | .ok (some attrs) => attrs.reduceOption
  | _ => []

/-- The properties of the message, in the order they are looked at. -/
def message_mapi (o : Options) (as : List Attr) : List MAPI_Attr :=
  (as.filter fun attr => attr.lvl_type = .LVL_MESSAGE ∧ attr.name = attMAPIPROPS).flatMap
    (attr_properties o)

def last_text (as : List Attr) : Option Attr :=
  (as.filter fun attr => attr.lvl_type = .LVL_MESSAGE ∧ attr.name = attBODY).getLast?

def last_tagged (ps : List MAPI_Attr) (tag : UInt32) : Option MAPI_Attr :=
  (ps.filter fun a => a.type = szMAPI_BINARY ∧ a.name = tag).getLast?

def last_binary (o : Options) (as : List Attr) (tag : UInt32) : Option MAPI_Attr :=
  last_tagged (message_mapi o as) tag

/-- The bytes of a value, without the terminator behind them. -/
def value_bytes (v : MAPI_Value) : List UInt8 :=
  match v.data with
  | .buf b => b.bytes.take v.len
  | _ => []

/-- The document in a value that `is_rtf_data` recognises. -/
def rtf_document (o : Options) (v : MAPI_Value) : Option (List UInt8) :=
  match v.data with
  | .buf b =>
    match is_rtf_data b.bytes, get_rtf_data_from_buf o v.len b.bytes with
    | .ok true, .ok (n, d) => some (d.bytes.take n)
    | _, _ => none
  | _ => none

/-- The bodies of a kind that the message offers, in the order of their values. -/
def avail (o : Options) (as : List Attr) : UInt8 → List (List UInt8)
  | 0x72 => (last_binary o as MAPI_RTF_COMPRESSED).toList.flatMap fun a =>
      a.values.filterMap (rtf_document o)
  | 0x68 => (last_binary o as MAPI_BODY_HTML).toList.flatMap fun a => a.values.map value_bytes
  | 0x74 => (last_text as).toList.map Attr.data
  | _ => []

/-- The places for the bodies of a kind, where the message has a property or an attribute
for it; a value that is not recognised leaves its place empty. -/
def slots (o : Options) (as : List Attr) : UInt8 → Option (List (Option (List UInt8)))
  | 0x72 => (last_binary o as MAPI_RTF_COMPRESSED).map fun a => a.values.map (rtf_document o)
  | 0x68 => (last_binary o as MAPI_BODY_HTML).map fun a => a.values.map fun v => some (value_bytes v)
  | 0x74 => (last_text as).map fun attr => [some attr.data]
  | _ => none

/-- The bodies are what is in the slots. -/
theorem avail_eq (o : Options) (as : List Attr) (c : UInt8) :
    avail o as c = ((slots o as c).getD []).reduceOption := by
  unfold avail slots
  split
  · cases last_binary o as MAPI_RTF_COMPRESSED with
    | none => rfl
    | some a => simp [List.reduceOption, List.filterMap_map]
  · cases last_binary o as MAPI_BODY_HTML with
    | none => rfl
    | some a => simp [List.reduceOption, List.filterMap_map]
  · cases last_text as with
    | none => rfl
    | some attr => rfl
  · rfl

/-- A binary property of the message has values. -/
theorem last_binary_values {o : Options} {as : List Attr} {tag : UInt32} {a : MAPI_Attr}
    (h : last_binary o as tag = some a) : a.values ≠ [] := by
  have ha := List.mem_of_getLast? h
  rw [List.mem_filter, decide_eq_true_eq] at ha
  obtain ⟨hmem, htype, -⟩ := ha
  obtain ⟨attr, -, hattr⟩ := List.mem_flatMap.mp hmem
  unfold attr_properties at hattr
  split at hattr
  · next attrs hread =>
    obtain ⟨ps, rfl, hps⟩ := mapi_attr_read_properties hread
    rw [List.reduceOption_mem_iff, List.mem_append, List.mem_singleton] at hattr
    obtain ⟨i, j, hat⟩ := hps a (by simpa using hattr)
    have hnum := hat.num_values_ne
    rw [(hat.blocks (.inl htype)).1] at hnum
    exact fun hnil => hnum (by rw [hnil]; rfl)
  · cases hattr

/-! ## The arrays -/

/-- The bytes a slot of an array holds. -/
def VarLenData.content (d : VarLenData) : List UInt8 := d.data.bytes.take d.len

/-- The array has the contents `s`, and NULL behind them; what is in it can be copied. -/
structure Holding (o : Options) (data : List (Option VarLenData)) (s : List (Option (List UInt8))) :
    Prop where
  contents : data.map (Option.map VarLenData.content) = s ++ [none]
  copies : ∀ d, some d ∈ data → d.len ≤ d.data.bytes.length
    ∧ ∃ r, checked_xmalloc o d.len 1 0 = .ok r

theorem get_text_data_holding {o : Options} {attr : Attr} {data : List (Option VarLenData)}
    (h : get_text_data o attr = .ok data) : Holding o data [some attr.data] := by
  have hlen : attr.len ≤ (Buffer.full attr.buf).size := by
    simp [Attr.buf, Attr.len]
  have hwhole := get_text_data_whole h
  unfold get_text_data at h
  simp only [bind_eq_ok, pure_eq_ok, Except.ok.injEq, Buffer.copy_of_le hlen] at h
  obtain ⟨r, hgrant, b, rfl, rfl⟩ := h
  refine ⟨?_, ?_⟩
  · simp [VarLenData.content, Attr.buf, Attr.len]
  · intro d hd
    refine ⟨hwhole d hd, r, checked_xmalloc_of_checked_xcalloc ?_⟩
    rw [List.mem_cons, Option.some.injEq] at hd
    rcases hd with rfl | hd
    · exact hgrant
    · simp at hd

/-- The values of a property whose blocks are as the reader stores them. -/
def StoredBlocks (a : MAPI_Attr) : Prop :=
  a.num_values = a.values.length ∧ ∀ v ∈ a.values, ∃ bs, v = ⟨bs.length, .buf (.full (bs ++ [0]))⟩

theorem get_html_data_holding {o : Options} {a : MAPI_Attr} (htype : a.type = szMAPI_BINARY)
    (hblocks : StoredBlocks a) {data : List (Option VarLenData)} (h : get_html_data o a = .ok data) :
    Holding o data (a.values.map fun v => some (value_bytes v)) := by
  have hwhole := get_html_data_whole htype hblocks.2 h
  unfold get_html_data at h
  rw [hblocks.1, List.take_length] at h
  simp only [if_pos htype, bind_eq_ok, pure_eq_ok, Except.ok.injEq] at h
  obtain ⟨_, -, body, hbody, rfl⟩ := h
  -- each value is copied under its own length
  have hvalue : ∀ v ∈ a.values, ∀ y, html_value o v = .ok y → ∃ d, y = some d
      ∧ d.content = value_bytes v ∧ ∃ r, checked_xcalloc o d.len 1 0 = .ok r := by
    intro v hv y hy
    obtain ⟨bs, rfl⟩ := hblocks.2 v hv
    have hlen : bs.length ≤ (Buffer.full (bs ++ [0])).size := by simp
    simp only [html_value, bind_eq_ok, pure_eq_ok, Except.ok.injEq, Buffer.copy_of_le hlen] at hy
    obtain ⟨_, -, r, hgrant, b, rfl, rfl⟩ := hy
    exact ⟨_, rfl, by simp [VarLenData.content, value_bytes], r, hgrant⟩
  refine ⟨?_, ?_⟩
  · rw [List.map_append]
    congr 1
    refine mapM_map ?_ hbody
    intro v hv y hy
    obtain ⟨d, rfl, hcontent, -⟩ := hvalue v hv y hy
    exact congrArg some hcontent
  · intro d hd
    have hd' : some d ∈ body := by simpa using hd
    obtain ⟨v, hv, hone⟩ := mapM_mem hbody hd'
    obtain ⟨d', heq, -, r, hgrant⟩ := hvalue v hv _ hone
    cases heq
    exact ⟨hwhole d hd, r, checked_xmalloc_of_checked_xcalloc hgrant⟩

/-- The length of a decoded document has been granted. -/
theorem get_rtf_data_from_buf_granted {o : Options} {len n : ℕ} {data : List UInt8} {b : Buffer}
    (h : get_rtf_data_from_buf o len data = .ok (n, b)) : ∃ r, checked_xcalloc o n 1 0 = .ok r := by
  unfold get_rtf_data_from_buf at h
  simp only [bind_eq_ok] at h
  obtain ⟨_, -, _, -, uncompr_size, -, magic, -, checksum, -, _, -, h⟩ := h
  split_ifs at h
  · simp only [bind_eq_ok, pure_eq_ok, Except.ok.injEq, Prod.mk.injEq] at h
    obtain ⟨r, hgrant, _, -, rfl, -⟩ := h
    exact ⟨r, hgrant⟩
  · obtain ⟨payload, -, h⟩ := bind_eq_ok.mp h
    split_ifs at h
    · simp only [bind_eq_ok, pure_eq_ok, Except.ok.injEq, Prod.mk.injEq] at h
      obtain ⟨dest, hdest, rfl, -⟩ := h
      simp only [decompress_rtf_data, bind_eq_ok] at hdest
      obtain ⟨_, -, r, hgrant, -⟩ := hdest
      exact ⟨r, hgrant⟩
    · simp only [bind_eq_ok, pure_eq_ok, Except.ok.injEq, Prod.mk.injEq] at h
      obtain ⟨_, -, rfl, -⟩ := h
      -- a document of no bytes
      have hsize : 0 * 1 + 0 < 2 ^ 64 := by decide
      exact ⟨_, (checked_xcalloc_eq_ok hsize).mpr ⟨.inr (Nat.zero_le _), rfl⟩⟩

theorem rtf_value_slot {o : Options} {v : MAPI_Value} {y : Option VarLenData}
    (h : rtf_value o v = .ok y) (hblock : ∃ b, v.data = .buf b) :
    y.map VarLenData.content = rtf_document o v
      ∧ ∀ d, y = some d → ∃ r, checked_xcalloc o d.len 1 0 = .ok r := by
  obtain ⟨b, hb⟩ := hblock
  unfold rtf_value at h
  by_cases hlen : v.len > 12
  · rw [if_pos hlen, hb] at h
    obtain ⟨known, hknown, h⟩ := bind_eq_ok.mp h
    unfold rtf_document
    rw [hb]
    simp only [hknown]
    cases known with
    | true =>
      simp only [if_true, bind_eq_ok, pure_eq_ok, Except.ok.injEq] at h
      obtain ⟨_, -, ⟨n, d⟩, hbuf, rfl⟩ := h
      refine ⟨by simp only [hbuf]; rfl, ?_⟩
      rintro d' ⟨⟩
      exact get_rtf_data_from_buf_granted hbuf
    | false =>
      cases h
      exact ⟨rfl, by simp⟩
  · -- a value that short holds no document
    rw [if_neg hlen] at h
    cases h
    have hshort : ∀ r, get_rtf_data_from_buf o v.len b.bytes ≠ .ok r := by
      intro r hr
      simp only [get_rtf_data_from_buf, bind_eq_ok, assert_eq_ok] at hr
      omega
    refine ⟨?_, by simp⟩
    unfold rtf_document
    rw [hb]
    simp only
    split
    · next n d _ hbuf => exact absurd hbuf (hshort (n, d))
    · rfl

theorem get_rtf_data_holding {o : Options} {a : MAPI_Attr} (hblocks : StoredBlocks a)
    {data : List (Option VarLenData)} (h : get_rtf_data o a = .ok data) :
    Holding o data (a.values.map (rtf_document o)) := by
  have hwhole := get_rtf_data_whole h
  unfold get_rtf_data at h
  rw [hblocks.1, List.take_length] at h
  simp only [bind_eq_ok, pure_eq_ok, Except.ok.injEq] at h
  obtain ⟨_, -, body, hbody, rfl⟩ := h
  have hblock : ∀ v ∈ a.values, ∃ b, v.data = .buf b := by
    intro v hv
    obtain ⟨bs, rfl⟩ := hblocks.2 v hv
    exact ⟨_, rfl⟩
  refine ⟨?_, ?_⟩
  · rw [List.map_append]
    congr 1
    refine mapM_map ?_ hbody
    intro v hv y hy
    exact (rtf_value_slot hy (hblock v hv)).1
  · intro d hd
    have hd' : some d ∈ body := by simpa using hd
    obtain ⟨v, hv, hone⟩ := mapM_mem hbody hd'
    obtain ⟨r, hgrant⟩ := (rtf_value_slot hone (hblock v hv)).2 d rfl
    exact ⟨hwhole d hd, r, checked_xmalloc_of_checked_xcalloc hgrant⟩

/-! ## What the reading loop collects -/

theorem last_tagged_snoc (ps : List MAPI_Attr) (a : MAPI_Attr) (tag : UInt32) :
    last_tagged (ps ++ [a]) tag
      = if a.type = szMAPI_BINARY ∧ a.name = tag then some a else last_tagged ps tag := by
  unfold last_tagged
  by_cases ha : a.type = szMAPI_BINARY ∧ a.name = tag
  · simp [List.filter_append, ha]
  · simp [List.filter_append, ha]

theorem last_text_snoc (as : List Attr) (attr : Attr) : last_text (as ++ [attr])
    = if attr.lvl_type = .LVL_MESSAGE ∧ attr.name = attBODY then some attr else last_text as := by
  unfold last_text
  by_cases hattr : attr.lvl_type = .LVL_MESSAGE ∧ attr.name = attBODY
  · simp [List.filter_append, hattr]
  · simp [List.filter_append, hattr]

theorem message_mapi_snoc (o : Options) (as : List Attr) (attr : Attr) :
    message_mapi o (as ++ [attr]) = message_mapi o as
      ++ if attr.lvl_type = .LVL_MESSAGE ∧ attr.name = attMAPIPROPS then attr_properties o attr
        else [] := by
  unfold message_mapi
  by_cases hattr : attr.lvl_type = .LVL_MESSAGE ∧ attr.name = attMAPIPROPS
  · simp [List.filter_append, hattr]
  · simp [List.filter_append, hattr]

/-- The arrays for the properties hold the slots of the last one of their tag in `ps`. -/
structure OffersMapi (o : Options) (ps : List MAPI_Attr) (body : MessageBody) : Prop where
  html : Option.Rel (Holding o) body.html_bodies ((last_tagged ps MAPI_BODY_HTML).map fun a =>
    a.values.map fun v => some (value_bytes v))
  rtf : Option.Rel (Holding o) body.rtf_bodies ((last_tagged ps MAPI_RTF_COMPRESSED).map fun a =>
    a.values.map (rtf_document o))

theorem message_property_offers {o : Options} {ps : List MAPI_Attr} {a : MAPI_Attr}
    (hblocks : a.type = szMAPI_BINARY → StoredBlocks a) {body body' : MessageBody}
    (hbody : OffersMapi o ps body) (h : message_property o body a = .ok body') :
    OffersMapi o (ps ++ [a]) body' ∧ body'.text_body = body.text_body := by
  unfold message_property at h
  split_ifs at h with hhtml hrtf
  · simp only [bind_eq_ok, pure_eq_ok, Except.ok.injEq] at h
    obtain ⟨data, hdata, rfl⟩ := h
    -- one property is for one array
    have hother : ¬ (a.type = szMAPI_BINARY ∧ a.name = MAPI_RTF_COMPRESSED) := by
      rintro ⟨-, hname⟩
      exact absurd (hhtml.2.symm.trans hname) (by decide)
    refine ⟨⟨?_, ?_⟩, rfl⟩
    · rw [last_tagged_snoc, if_pos hhtml]
      exact .some (get_html_data_holding hhtml.1 (hblocks hhtml.1) hdata)
    · rw [last_tagged_snoc, if_neg hother]
      exact hbody.rtf
  · simp only [bind_eq_ok, pure_eq_ok, Except.ok.injEq] at h
    obtain ⟨data, hdata, rfl⟩ := h
    refine ⟨⟨?_, ?_⟩, rfl⟩
    · rw [last_tagged_snoc, if_neg hhtml]
      exact hbody.html
    · rw [last_tagged_snoc, if_pos hrtf]
      exact .some (get_rtf_data_holding (hblocks hrtf.1) hdata)
  · cases h
    refine ⟨⟨?_, ?_⟩, rfl⟩
    · rw [last_tagged_snoc, if_neg hhtml]
      exact hbody.html
    · rw [last_tagged_snoc, if_neg hrtf]
      exact hbody.rtf

theorem message_properties_offers {o : Options} (as : List MAPI_Attr) :
    ∀ {ps : List MAPI_Attr} {body body' : MessageBody},
    (∀ a ∈ as, a.type = szMAPI_BINARY → StoredBlocks a) → OffersMapi o ps body →
    message_properties o body (as.map some ++ [none]) = .ok body' →
    OffersMapi o (ps ++ as) body' ∧ body'.text_body = body.text_body := by
  induction as with
  | nil =>
    intro ps body body' _ hbody h
    cases h
    rw [List.append_nil]
    exact ⟨hbody, rfl⟩
  | cons a as ih =>
    intro ps body body' has hbody h
    rw [List.map_cons, List.cons_append, message_properties, bind_eq_ok] at h
    obtain ⟨body₁, hone, h⟩ := h
    obtain ⟨hbody₁, htext₁⟩ := message_property_offers (has a (List.mem_cons_self ..)) hbody hone
    obtain ⟨hbody', htext'⟩ := ih (fun b hb => has b (List.mem_cons_of_mem _ hb)) hbody₁ h
    rw [List.append_assoc, List.singleton_append] at hbody'
    exact ⟨hbody', htext'.trans htext₁⟩

/-- **What the reading loop keeps true**: the arrays hold the slots of what has been read. -/
structure Offers (o : Options) (as : List Attr) (body : MessageBody) : Prop where
  text : Option.Rel (Holding o) body.text_body ((last_text as).map fun attr => [some attr.data])
  mapi : OffersMapi o (message_mapi o as) body

theorem message_attr_offers {o : Options} {as : List Attr} {attr : Attr} {body body' : MessageBody}
    (hlvl : attr.lvl_type = .LVL_MESSAGE) (hbody : Offers o as body)
    (h : message_attr o body attr = .ok body') : Offers o (as ++ [attr]) body' := by
  unfold message_attr at h
  split_ifs at h with htext hmapi
  · simp only [bind_eq_ok, pure_eq_ok, Except.ok.injEq] at h
    obtain ⟨data, hdata, rfl⟩ := h
    -- a body is no list, so what the lists offer stays
    have hother : ¬ (attr.lvl_type = .LVL_MESSAGE ∧ attr.name = attMAPIPROPS) := by
      rintro ⟨-, hname⟩
      exact absurd (htext.symm.trans hname) (by decide)
    refine ⟨?_, ?_⟩
    · rw [last_text_snoc, if_pos ⟨hlvl, htext⟩]
      exact .some (get_text_data_holding hdata)
    · rw [message_mapi_snoc, if_neg hother, List.append_nil]
      exact ⟨hbody.mapi.html, hbody.mapi.rtf⟩
  · obtain ⟨r, hread, h⟩ := bind_eq_ok.mp h
    match r, hread, h with
    | none, hread, h =>
      cases h
      -- a list that was given up offers nothing
      have hnone : attr_properties o attr = [] := by
        rw [attr_properties, hread]
      refine ⟨?_, ?_⟩
      · rw [last_text_snoc, if_neg (fun hand => htext hand.2)]
        exact hbody.text
      · rw [message_mapi_snoc, if_pos ⟨hlvl, hmapi⟩, hnone, List.append_nil]
        exact hbody.mapi
    | some attrs, hread, h =>
      obtain ⟨ps, rfl, hps⟩ := mapi_attr_read_properties hread
      have hlist : attr_properties o attr = ps := by
        rw [attr_properties, hread]
        simp [List.reduceOption, List.filterMap_map]
      -- what is read of a binary property is what the body functions expect
      have hblocks : ∀ a ∈ ps, a.type = szMAPI_BINARY → StoredBlocks a := by
        intro a ha htype
        obtain ⟨i, j, hat⟩ := hps a ha
        exact hat.blocks (.inl htype)
      obtain ⟨hbody', htext'⟩ := message_properties_offers ps hblocks hbody.mapi h
      refine ⟨?_, ?_⟩
      · rw [last_text_snoc, if_neg (fun hand => htext hand.2), htext']
        exact hbody.text
      · rw [message_mapi_snoc, if_pos ⟨hlvl, hmapi⟩, hlist]
        exact hbody'
  · cases h
    refine ⟨?_, ?_⟩
    · rw [last_text_snoc, if_neg (fun hand => htext hand.2)]
      exact hbody.text
    · rw [message_mapi_snoc, if_neg (fun hand => hmapi hand.2), List.append_nil]
      exact hbody.mapi

/-- An attachment-level attribute offers nothing. -/
theorem Offers.attachment {o : Options} {as : List Attr} {attr : Attr} {body : MessageBody}
    (hlvl : attr.lvl_type = .LVL_ATTACHMENT) (hbody : Offers o as body) :
    Offers o (as ++ [attr]) body := by
  have hnot : ∀ name, ¬ (attr.lvl_type = .LVL_MESSAGE ∧ attr.name = name) := by
    rintro name ⟨hmessage, -⟩
    rw [hlvl] at hmessage
    cases hmessage
  refine ⟨?_, ?_⟩
  · rw [last_text_snoc, if_neg (hnot _)]
    exact hbody.text
  · rw [message_mapi_snoc, if_neg (hnot _), List.append_nil]
    exact hbody.mapi

/-- One turn of the reading loop. -/
theorem parse_attr_offers {o : Options} {directory : Option (List UInt8)} {as : List Attr}
    {attr : Attr} {s s' : ParseState} {w w' : World} (hs : Offers o as s.body)
    (h : exec (parse_attr o directory attr s) w = (.ok s', w')) :
    Offers o (as ++ [attr]) s'.body := by
  obtain ⟨file, hadd⟩ : ∃ file, add_attr o attr { s with file := file } = .ok s' := by
    unfold parse_attr at h
    by_cases hname : attr.name = attATTACHRENDDATA
    · rw [if_pos hname] at h
      obtain ⟨file, w₁, -, h⟩ := exec_bind_eq_ok.mp h
      exact ⟨file, (Prod.mk.inj h).1⟩
    · rw [if_neg hname] at h
      obtain ⟨file, w₁, -, h⟩ := exec_bind_eq_ok.mp h
      exact ⟨file, (Prod.mk.inj h).1⟩
  unfold add_attr at hadd
  split at hadd
  · next hlvl =>
    simp only [bind_eq_ok, pure_eq_ok, Except.ok.injEq] at hadd
    obtain ⟨body, hbody, rfl⟩ := hadd
    exact message_attr_offers hlvl hs hbody
  · next hlvl =>
    split at hadd
    · cases hadd
    · simp only [bind_eq_ok, pure_eq_ok, Except.ok.injEq] at hadd
      obtain ⟨file', -, rfl⟩ := hadd
      exact hs.attachment hlvl

theorem parse_attrs_offer {o : Options} {directory : Option (List UInt8)} (as : List Attr) :
    ∀ {before : List Attr} {s s' : ParseState} {w w' : World}, Offers o before s.body →
    exec (as.foldlM (fun s attr => parse_attr o directory attr s) s) w = (.ok s', w') →
    Offers o (before ++ as) s'.body := by
  induction as with
  | nil =>
    intro before s s' w w' hs h
    cases h
    rw [List.append_nil]
    exact hs
  | cons attr as ih =>
    intro before s s' w w' hs h
    rw [List.foldlM_cons] at h
    obtain ⟨s₁, w₁, hone, h⟩ := exec_bind_eq_ok.mp h
    have hrest := ih (parse_attr_offers hs hone) h
    rw [List.append_assoc, List.singleton_append] at hrest
    exact hrest

/-- **After the reading loop the arrays hold the slots of the message.** -/
theorem loop_offers {o : Options} {directory : Option (List UInt8)} {as : List (Attr × UInt16)}
    {w w₁ : World} {inp : Input} {s : ParseState}
    (h : exec (attr_loop o (parse_attr o directory) { rest := attr_bytes as } {}) w
      = (.ok (inp, s), w₁)) (c : UInt8) :
    Option.Rel (Holding o) (body_data s.body c) (slots o (as.map (·.1)) c) := by
  have hfold := foldlM_gate_eq_ok as (fold_of_loop o directory h)
  have hinit : Offers o [] {} := ⟨.none, .none, .none⟩
  have hall : Offers o (as.map (·.1)) s.body := parse_attrs_offer (as.map (·.1)) hinit hfold
  by_cases hr : c = 0x72
  · subst hr
    exact hall.mapi.rtf
  · by_cases hh : c = 0x68
    · subst hh
      exact hall.mapi.html
    · by_cases ht : c = 0x74
      · subst ht
        exact hall.text
      · -- no kind of body has another letter
        have hdata : body_data s.body c = none := by
          unfold body_data
          split <;> simp_all
        have hslots : slots o (as.map (·.1)) c = none := by
          unfold slots
          split <;> simp_all
        rw [hdata, hslots]
        exact .none

end Tnef
