/-
A run as the calls of `file_write` it makes, and what these calls are given.

Nothing but `file_write` touches the file system, so a run leaves it as its calls alone
would (`parse_file_calls`). Every record handed to `file_write` is `Filled`: its length is
the size of its block, the block has been written to the end, and the allocation limit
has let it through. The lengths come from the attribute, from a property, from the header
of a compressed body; each of them passes `copy_len` on its way into a record.
-/
import Tnef.MapiTail
import Tnef.ParseGroups
import Tnef.RtfSafe

set_option autoImplicit false

namespace Tnef

open ExceptRules Stateful

/-! ## Records -/

/-- Without data the length is zero; otherwise it is the size of the block, all of which
has been written, within the limit. -/
def Filled (o : Options) (file : File) : Prop :=
  match file.data with
  | none => file.len = 0
  | some b => b.size = file.len ∧ b.bytes.length = file.len ∧ o.Admits file.len

/-- What a record is like when `file_write` is called with it: no path has been worked
out for it yet. -/
structure Ready (o : Options) (file : File) : Prop where
  filled : Filled o file
  fresh : file.path = none

/-- A record that has just begun can be handed over. -/
theorem ready_empty (o : Options) : Ready o {} := ⟨rfl, rfl⟩

/-- What else is in a record does not matter. -/
theorem Ready.of_same {o : Options} {file file' : File} (h : Ready o file)
    (hlen : file'.len = file.len) (hdata : file'.data = file.data) (hpath : file'.path = file.path) :
    Ready o file' := by
  refine ⟨?_, hpath.trans h.fresh⟩
  unfold Filled
  rw [hdata, hlen]
  exact h.filled

/-- The bytes a call writes are as many as the record says. -/
theorem data_bytes_length {file : File} {bytes : List UInt8} (h : data_bytes file = .ok bytes) :
    bytes.length = file.len := by
  unfold data_bytes at h
  split at h
  · split_ifs at h with hzero
    cases h
    exact hzero.symm
  · unfold Buffer.read at h
    split_ifs at h with hle
    cases h
    rw [List.length_take]
    omega

/-- The data of a filled record can be read. -/
theorem Filled.data_bytes {o : Options} {file : File} (h : Filled o file) :
    ∃ bytes, data_bytes file = .ok bytes := by
  unfold Filled at h
  unfold Tnef.data_bytes
  cases hdata : file.data with
  | none =>
    rw [hdata] at h
    exact ⟨[], if_pos h⟩
  | some b =>
    rw [hdata] at h
    exact ⟨_, if_pos h.2.1.ge⟩

/-- Its length is within the limit, also where it holds nothing. -/
theorem Filled.len_admits {o : Options} {file : File} (h : Filled o file) : o.Admits file.len := by
  unfold Filled at h
  split at h
  · rw [h]
    exact .inr (Nat.zero_le _)
  · exact h.2.2

/-- A request that returns is within the limit. -/
theorem checked_xmalloc_admits {o : Options} {num size extra r : ℕ}
    (h : checked_xmalloc o num size extra = .ok r) : o.Admits (num * size) := by
  by_contra hnot
  obtain ⟨e, he⟩ := checked_xmalloc_of_not_admits hnot extra
  exact absurd (he.symm.trans h) (by simp)

/-- A copy of a block that holds as many bytes as are asked for. -/
theorem copy_len_filled {o : Options} {len : ℕ} {b copy : Buffer} (hb : len ≤ b.bytes.length)
    (h : copy_len o len b = .ok copy) :
    copy.size = len ∧ copy.bytes.length = len ∧ o.Admits len := by
  have hsize : len ≤ b.size := hb.trans b.fits
  have hadm : o.Admits len := by
    unfold copy_len at h
    rw [bind_eq_ok] at h
    obtain ⟨r, hgrant, -⟩ := h
    simpa using checked_xmalloc_admits hgrant
  unfold copy_len at h
  rw [bind_eq_ok] at h
  obtain ⟨_, -, h⟩ := h
  rw [Buffer.copy_of_le hsize] at h
  cases h
  refine ⟨rfl, ?_, hadm⟩
  rw [List.length_take]
  omega

/-! ## Filling a record in -/

/-- The first value is one of the values. -/
theorem first_value_mem {a : MAPI_Attr} {len : ℕ} {b : Buffer}
    (h : first_value a = .ok (len, b)) : ⟨len, .buf b⟩ ∈ a.values := by
  unfold first_value at h
  split at h
  · next hvalues =>
    cases h
    rw [hvalues]
    exact List.mem_cons_self ..
  · cases h

/-- A property leaves a record ready: data come with their length through `copy_len`. -/
theorem file_add_mapi_attr_ready {o : Options} {data : List UInt8} {i j : ℕ} {a : MAPI_Attr}
    (ha : PropertyAt o data i a j) {file file' : File} (hfile : Ready o file)
    (h : file_add_mapi_attr o file a = .ok file') : Ready o file' := by
  unfold file_add_mapi_attr at h
  -- only the embedded object sets the data; the strings leave them alone
  split_ifs at h
  · simp only [bind_eq_ok, pure_eq_ok, Except.ok.injEq] at h
    obtain ⟨_, -, _, -, _, -, rfl⟩ := h
    exact hfile.of_same rfl rfl rfl
  · simp only [bind_eq_ok, assert_eq_ok, pure_eq_ok, Except.ok.injEq] at h
    obtain ⟨_, htype, ⟨len, b⟩, hfirst, copy, hcopy, rfl⟩ := h
    obtain ⟨bs, hblock⟩ := (ha.blocks htype).2 _ (first_value_mem hfirst)
    cases hblock
    exact ⟨copy_len_filled (by simp) hcopy, hfile.fresh⟩
  · simp only [bind_eq_ok, pure_eq_ok, Except.ok.injEq] at h
    obtain ⟨_, -, _, -, _, -, rfl⟩ := h
    exact hfile.of_same rfl rfl rfl
  · simp only [bind_eq_ok, pure_eq_ok, Except.ok.injEq] at h
    obtain ⟨_, -, _, -, _, -, rfl⟩ := h
    exact hfile.of_same rfl rfl rfl
  · cases h
    exact hfile
  · cases h
    exact hfile

/-- So does a list of properties, by induction on it. -/
theorem file_add_mapi_attrs_ready {o : Options} {data : List UInt8} (as : List MAPI_Attr) :
    ∀ {file file' : File}, (∀ a ∈ as, ∃ i j, PropertyAt o data i a j) → Ready o file →
    file_add_mapi_attrs o file (as.map some ++ [none]) = .ok file' → Ready o file' := by
  induction as with
  | nil =>
    intro file file' _ hfile h
    cases h
    exact hfile
  | cons a as ih =>
    intro file file' has hfile h
    rw [List.map_cons, List.cons_append, file_add_mapi_attrs, bind_eq_ok] at h
    obtain ⟨file₁, hone, h⟩ := h
    obtain ⟨i, j, ha⟩ := has a (List.mem_cons_self ..)
    apply ih (fun b hb => has b (List.mem_cons_of_mem _ hb)) _ h
    exact file_add_mapi_attr_ready ha hfile hone

/-- **Every attribute leaves a record ready.** -/
theorem file_add_attr_ready {o : Options} {attr : Attr} {file file' : File}
    (hfile : Ready o file) (h : file_add_attr o file attr = .ok file') : Ready o file' := by
  unfold file_add_attr at h
  split_ifs at h
  · simp only [bind_eq_ok, pure_eq_ok, Except.ok.injEq] at h
    obtain ⟨dt, -, rfl⟩ := h
    exact hfile.of_same rfl rfl rfl
  · obtain ⟨r, hread, h⟩ := bind_eq_ok.mp h
    match r, hread, h with
    | none, _, h =>
      cases h
      exact hfile
    | some attrs, hread, h =>
      obtain ⟨as, rfl, has⟩ := mapi_attr_read_properties hread
      exact file_add_mapi_attrs_ready as has hfile h
  · simp only [bind_eq_ok, pure_eq_ok, Except.ok.injEq] at h
    obtain ⟨title, -, rfl⟩ := h
    exact hfile.of_same rfl rfl rfl
  · simp only [bind_eq_ok, pure_eq_ok, Except.ok.injEq] at h
    obtain ⟨copy, hcopy, rfl⟩ := h
    have hlen : attr.len ≤ (Buffer.full attr.buf).bytes.length := by
      simp [Attr.buf, Attr.len]
    exact ⟨copy_len_filled hlen hcopy, hfile.fresh⟩
  · cases h
    exact hfile

/-! ## Bodies -/

/-- The values of a body hold at least the bytes their lengths say. -/
def Whole (data : List (Option VarLenData)) : Prop :=
  ∀ d, some d ∈ data → d.len ≤ d.data.bytes.length

/-- The text of a message is copied whole. -/
theorem get_text_data_whole {o : Options} {attr : Attr} {data : List (Option VarLenData)}
    (h : get_text_data o attr = .ok data) : Whole data := by
  have hlen : attr.len ≤ (Buffer.full attr.buf).size := by
    simp [Attr.buf, Attr.len]
  unfold get_text_data at h
  simp only [bind_eq_ok, pure_eq_ok, Except.ok.injEq, Buffer.copy_of_le hlen] at h
  obtain ⟨_, -, b, rfl, rfl⟩ := h
  intro d hd
  simp only [List.mem_cons, Option.some.injEq, List.not_mem_nil, reduceCtorEq, or_false] at hd
  subst hd
  simp [Attr.buf, Attr.len]

/-- A value as the reader delivers it has all the bytes its length says. -/
theorem html_value_whole {o : Options} {v : MAPI_Value} {bs : List UInt8} {d : VarLenData}
    (hv : v = ⟨bs.length, .buf (.full (bs ++ [0]))⟩) (h : html_value o v = .ok (some d)) :
    d.len ≤ d.data.bytes.length := by
  subst hv
  have hlen : bs.length ≤ (Buffer.full (bs ++ [0])).size := by simp
  simp only [html_value, bind_eq_ok, pure_eq_ok, Except.ok.injEq, Option.some.injEq,
    Buffer.copy_of_le hlen] at h
  obtain ⟨_, -, _, -, b, rfl, rfl⟩ := h
  simp

/-- So the HTML bodies are whole, -/
theorem get_html_data_whole {o : Options} {a : MAPI_Attr} (htype : a.type = szMAPI_BINARY)
    (hblocks : ∀ v ∈ a.values, ∃ bs, v = ⟨bs.length, .buf (.full (bs ++ [0]))⟩)
    {data : List (Option VarLenData)} (h : get_html_data o a = .ok data) : Whole data := by
  unfold get_html_data at h
  simp only [bind_eq_ok, pure_eq_ok, Except.ok.injEq] at h
  obtain ⟨_, -, body, hbody, rfl⟩ := h
  intro d hd
  have hd : some d ∈ body := by simpa using hd
  obtain ⟨v, hv, hvalue⟩ := mapM_mem hbody hd
  obtain ⟨bs, hbs⟩ := hblocks v (List.mem_of_mem_take hv)
  rw [if_pos htype] at hvalue
  exact html_value_whole hbs hvalue

/-- **A decoded body is as long as it is said to be**, whichever branch it comes from. -/
theorem get_rtf_data_from_buf_whole {o : Options} {len n : ℕ} {data : List UInt8} {b : Buffer}
    (h : get_rtf_data_from_buf o len data = .ok (n, b)) : n ≤ b.bytes.length := by
  unfold get_rtf_data_from_buf at h
  simp only [bind_eq_ok] at h
  obtain ⟨_, hlen, _, -, uncompr_size, -, magic, -, checksum, -, _, -, h⟩ := h
  split_ifs at h
  · simp only [bind_eq_ok, pure_eq_ok, Except.ok.injEq, Prod.mk.injEq] at h
    obtain ⟨_, -, bytes, hblock, rfl, rfl⟩ := h
    exact (rd_block_length hblock).ge
  · obtain ⟨payload, hpayload, h⟩ := bind_eq_ok.mp h
    split_ifs at h
    · simp only [bind_eq_ok, pure_eq_ok, Except.ok.injEq, Prod.mk.injEq] at h
      obtain ⟨dest, hdest, rfl, rfl⟩ := h
      have hsrc : len - 16 ≤ (data.drop 16).length := by
        have hle := rd_block_ne_fault_iff.mp (by rw [hpayload]; simp)
        rw [List.length_drop]
        omega
      exact ((decompress_rtf_data_safe o uncompr_size.toNat hsrc).2 dest hdest).ge
    · simp only [bind_eq_ok, pure_eq_ok, Except.ok.injEq, Prod.mk.injEq] at h
      obtain ⟨_, -, rfl, rfl⟩ := h
      exact Nat.zero_le _

/-- and so is what is decoded from a recognised value, -/
theorem rtf_value_whole {o : Options} {v : MAPI_Value} {d : VarLenData}
    (h : rtf_value o v = .ok (some d)) : d.len ≤ d.data.bytes.length := by
  unfold rtf_value at h
  by_cases hlen : v.len > 12
  · rw [if_pos hlen] at h
    split at h
    · obtain ⟨known, -, h⟩ := bind_eq_ok.mp h
      split_ifs at h
      · simp only [bind_eq_ok, pure_eq_ok, Except.ok.injEq, Option.some.injEq] at h
        obtain ⟨_, -, ⟨n, b⟩, hbuf, rfl⟩ := h
        exact get_rtf_data_from_buf_whole hbuf
      · cases h
    · cases h
  · rw [if_neg hlen] at h
    cases h

/-- and the array of those. -/
theorem get_rtf_data_whole {o : Options} {a : MAPI_Attr} {data : List (Option VarLenData)}
    (h : get_rtf_data o a = .ok data) : Whole data := by
  unfold get_rtf_data at h
  simp only [bind_eq_ok, pure_eq_ok, Except.ok.injEq] at h
  obtain ⟨_, -, body, hbody, rfl⟩ := h
  intro d hd
  have hd : some d ∈ body := by simpa using hd
  obtain ⟨v, -, hvalue⟩ := mapM_mem hbody hd
  exact rtf_value_whole hvalue

/-- All the bodies collected so far are whole. -/
structure WholeBodies (body : MessageBody) : Prop where
  text : ∀ data, body.text_body = some data → Whole data
  html : ∀ data, body.html_bodies = some data → Whole data
  rtf : ∀ data, body.rtf_bodies = some data → Whole data

/-- The array of a kind is one of the three. -/
theorem WholeBodies.data {body : MessageBody} (h : WholeBodies body) {pref : UInt8}
    {data : List (Option VarLenData)} (hdata : body_data body pref = some data) : Whole data := by
  unfold body_data at hdata
  split at hdata
  · exact h.rtf data hdata
  · exact h.html data hdata
  · exact h.text data hdata
  · cases hdata

/-- A property puts a whole array in the place of one. -/
theorem message_property_whole {o : Options} {data : List UInt8} {i j : ℕ} {a : MAPI_Attr}
    (ha : PropertyAt o data i a j) {body body' : MessageBody} (hbody : WholeBodies body)
    (h : message_property o body a = .ok body') : WholeBodies body' := by
  unfold message_property at h
  split_ifs at h with hhtml hrtf
  · simp only [bind_eq_ok, pure_eq_ok, Except.ok.injEq] at h
    obtain ⟨values, hvalues, rfl⟩ := h
    refine ⟨hbody.text, ?_, hbody.rtf⟩
    rintro data ⟨⟩
    exact get_html_data_whole hhtml.1 (ha.blocks (.inl hhtml.1)).2 hvalues
  · simp only [bind_eq_ok, pure_eq_ok, Except.ok.injEq] at h
    obtain ⟨values, hvalues, rfl⟩ := h
    refine ⟨hbody.text, hbody.html, ?_⟩
    rintro data ⟨⟩
    exact get_rtf_data_whole hvalues
  · cases h
    exact hbody

/-- Over a list of properties, by induction on it. -/
theorem message_properties_whole {o : Options} {data : List UInt8} (as : List MAPI_Attr) :
    ∀ {body body' : MessageBody}, (∀ a ∈ as, ∃ i j, PropertyAt o data i a j) → WholeBodies body →
    message_properties o body (as.map some ++ [none]) = .ok body' → WholeBodies body' := by
  induction as with
  | nil =>
    intro body body' _ hbody h
    cases h
    exact hbody
  | cons a as ih =>
    intro body body' has hbody h
    rw [List.map_cons, List.cons_append, message_properties, bind_eq_ok] at h
    obtain ⟨body₁, hone, h⟩ := h
    obtain ⟨i, j, ha⟩ := has a (List.mem_cons_self ..)
    apply ih (fun b hb => has b (List.mem_cons_of_mem _ hb)) _ h
    exact message_property_whole ha hbody hone

/-- An attribute of the message keeps the bodies whole. -/
theorem message_attr_whole {o : Options} {attr : Attr} {body body' : MessageBody}
    (hbody : WholeBodies body) (h : message_attr o body attr = .ok body') : WholeBodies body' := by
  unfold message_attr at h
  split_ifs at h
  · simp only [bind_eq_ok, pure_eq_ok, Except.ok.injEq] at h
    obtain ⟨text, htext, rfl⟩ := h
    refine ⟨?_, hbody.html, hbody.rtf⟩
    rintro data ⟨⟩
    exact get_text_data_whole htext
  · obtain ⟨r, hread, h⟩ := bind_eq_ok.mp h
    match r, hread, h with
    | none, _, h =>
      cases h
      exact hbody
    | some attrs, hread, h =>
      obtain ⟨as, rfl, has⟩ := mapi_attr_read_properties hread
      exact message_properties_whole as has hbody h
  · cases h
    exact hbody

/-! ## The calls of a run -/

/-- What a call of `file_write` does to the world, however it ends. -/
def call (o : Options) (directory : Option (List UInt8)) (w : World) (file : File) : World :=
  (exec (file_write o directory file) w).2

/-- The world after a sequence of calls. -/
def after_calls (o : Options) (directory : Option (List UInt8)) (w : World) (files : List File) :
    World := files.foldl (call o directory) w

/-- The calls are logged in their order. -/
theorem after_calls_calls (o : Options) (directory : Option (List UInt8)) (files : List File) :
    ∀ w, (after_calls o directory w files).calls = w.calls ++ files := by
  induction files with
  | nil =>
    intro w
    exact (List.append_nil _).symm
  | cons file files ih =>
    intro w
    have hone : (call o directory w file).calls = w.calls ++ [file] :=
      file_write_calls o directory file w
    rw [after_calls, List.foldl_cons, ← after_calls, ih, hone, List.append_assoc,
      List.singleton_append]

/-- What the reading loop keeps true of its variables. -/
structure Collected (o : Options) (s : ParseState) : Prop where
  file : ∀ file, s.file = some file → Ready o file
  body : WholeBodies s.body

section Run

variable {o : Options} (directory : Option (List UInt8))

/-- Every record `file_write` is called with is ready, and nothing else is done. -/
abbrev WritesReady {α : Type} (o : Options) (directory : Option (List UInt8)) (Q : α → Prop)
    (x : Run α) : Prop := Performs (call o directory) (Ready o) Q x

/-- A call on its own. -/
theorem file_write_performs {file : File} (h : Ready o file) :
    WritesReady o directory (fun _ => True) (file_write o directory file) :=
  performs_step h (fun _ => rfl) fun _ => trivial

/-- The record before is handed over, and the new one is empty. -/
theorem begin_file_performs {file : Option File} (h : ∀ f, file = some f → Ready o f) :
    WritesReady o directory (fun file => ∀ f, file = some f → Ready o f)
      (begin_file o directory file) := by
  have hempty : ∀ f, some ({} : File) = some f → Ready o f := by
    rintro f ⟨⟩
    exact ready_empty o
  cases file with
  | none =>
    rw [begin_file]
    exact (performs_lift (Q := fun _ => True) fun _ _ => trivial).bind fun _ _ =>
      performs_pure hempty
  | some file =>
    rw [begin_file]
    exact (file_write_performs directory (h file rfl)).bind fun _ _ => performs_pure hempty

/-- An attribute goes into the bodies or into the record, and keeps either as it has to be. -/
theorem add_attr_collected {attr : Attr} {s s' : ParseState} (hs : Collected o s)
    (h : add_attr o attr s = .ok s') : Collected o s' := by
  unfold add_attr at h
  split at h
  · simp only [bind_eq_ok, pure_eq_ok, Except.ok.injEq] at h
    obtain ⟨body, hbody, rfl⟩ := h
    exact ⟨hs.file, message_attr_whole hs.body hbody⟩
  · split at h
    · cases h
    · next file hfile =>
      simp only [bind_eq_ok, pure_eq_ok, Except.ok.injEq] at h
      obtain ⟨file', hadd, rfl⟩ := h
      refine ⟨?_, hs.body⟩
      rintro f ⟨⟩
      exact file_add_attr_ready (hs.file file hfile) hadd

/-- **One turn of the reading loop.** -/
theorem parse_attr_performs (attr : Attr) {s : ParseState} (hs : Collected o s) :
    WritesReady o directory (Collected o) (parse_attr o directory attr s) := by
  have hadd : ∀ file, (∀ f, file = some f → Ready o f) →
      WritesReady o directory (Collected o) (lift (add_attr o attr { s with file := file })) :=
    fun file hfile => performs_lift fun s' h =>
      add_attr_collected (s := { s with file := file }) ⟨hfile, hs.body⟩ h
  unfold parse_attr
  split_ifs
  · exact (begin_file_performs directory hs.file).bind hadd
  · exact (performs_pure hs.file).bind hadd

/-- The records of a kind are filled from its array, by induction on it. -/
theorem body_files_ready {name mime : Buffer} (data : List (Option VarLenData)) :
    ∀ {files : List File}, Whole data → body_files o name mime data = .ok files →
    ∀ file ∈ files, Ready o file := by
  induction data with
  | nil =>
    intro files _ h
    cases h
  | cons d data ih =>
    intro files hdata h file hfile
    match d, h with
    | none, h =>
      cases h
      exact absurd hfile (List.not_mem_nil)
    | some d, h =>
      simp only [body_files, bind_eq_ok, pure_eq_ok, Except.ok.injEq] at h
      obtain ⟨copy, hcopy, files', hrest, rfl⟩ := h
      rcases List.mem_cons.mp hfile with rfl | hfile
      · exact ⟨copy_len_filled (hdata d (List.mem_cons_self ..)) hcopy, rfl⟩
      · exact ih (fun x hx => hdata x (List.mem_cons_of_mem _ hx)) hrest file hfile

/-- So what is built for a kind can be handed over. -/
theorem get_body_files_ready {filename : List UInt8} {pref : UInt8} {body : MessageBody}
    (hbody : WholeBodies body) {files : List File}
    (h : get_body_files o filename pref body = .ok (some files)) : ∀ file ∈ files, Ready o file := by
  unfold get_body_files at h
  split at h
  · cases h
  · next data hdata =>
    simp only [bind_eq_ok, pure_eq_ok, Except.ok.injEq, Option.some.injEq] at h
    obtain ⟨_, -, _, -, files', hfiles, rfl⟩ := h
    exact body_files_ready data (hbody.data hdata) hfiles

/-- A record whose strings have been released still has its data. -/
theorem Ready.shared_released {file : File} (h : Ready o file) : Ready o file.shared_released :=
  h.of_same rfl rfl rfl

/-- One record after the other; the ones behind have lost their strings, not their data. -/
theorem write_body_files_performs (files : List File) (hfiles : ∀ file ∈ files, Ready o file) :
    WritesReady o directory (fun _ => True) (write_body_files o directory files) := by
  induction files using shared_files_induction with
  | nil =>
    rw [write_body_files]
    exact performs_pure trivial
  | cons file files ih =>
    rw [write_body_files]
    refine (file_write_performs directory (hfiles file (List.mem_cons_self ..))).bind fun _ _ => ?_
    apply ih
    intro f hf
    obtain ⟨g, hg, rfl⟩ := List.mem_map.mp hf
    exact (hfiles g (List.mem_cons_of_mem _ hg)).shared_released

/-- The kinds in turn, by induction on the positions that are left. -/
theorem save_bodies_loop_performs {filename pref : List UInt8} {all_flag : Bool}
    {body : MessageBody} (hbody : WholeBodies body) (i : ℕ) :
    WritesReady o directory (fun _ => True)
      (save_bodies_loop o directory filename pref all_flag body i) := by
  induction i using save_bodies_loop.induct with
  | case1 i hi ih =>
    rw [save_bodies_loop, if_pos hi]
    refine (performs_lift (Q := fun _ => True) fun _ _ => trivial).bind fun c _ => ?_
    refine (performs_lift fun files hfiles => hfiles).bind fun files hfiles => ?_
    rcases files with _ | files
    · exact ih
    · have hwrite := write_body_files_performs directory _ (get_body_files_ready hbody hfiles)
      refine hwrite.bind fun _ _ => ?_
      split_ifs
      · exact ih
      · exact performs_pure trivial
  | case2 i hi =>
    rw [save_bodies_loop, if_neg hi]
    exact performs_pure trivial

/-- What comes behind the reading loop: the last record, and the bodies. -/
theorem finish_file_performs {body_filename body_pref : List UInt8} {s : ParseState}
    (hs : Collected o s) : WritesReady o directory (fun _ => True)
      (finish_file o directory body_filename body_pref s) := by
  have hpending : WritesReady o directory (fun _ => True) (write_pending o directory s.file) := by
    unfold write_pending
    cases hfile : s.file with
    | none => exact performs_pure trivial
    | some file => exact file_write_performs directory (hs.file file hfile)
  have hsave : WritesReady o directory (fun _ => True)
      (save_bodies o directory body_filename body_pref s.body) := by
    unfold save_bodies
    split_ifs
    · exact save_bodies_loop_performs directory hs.body _
    · exact save_bodies_loop_performs directory hs.body _
    · exact performs_pure trivial
  exact hpending.bind fun _ _ => hsave.bind fun _ _ => performs_pure trivial

/-- **A run is its calls**: however it ends, it has called `file_write` with ready records
and left the file system as these calls leave it. -/
theorem parse_file_calls (body_filename body_pref : List UInt8) (inp : Input) (w : World) :
    ∃ files, (∀ file ∈ files, Ready o file)
      ∧ (exec (parse_file o directory body_filename body_pref inp) w).2.calls = w.calls ++ files
      ∧ (exec (parse_file o directory body_filename body_pref inp) w).2.files
        = (after_calls o directory w files).files := by
  match hsig : read_signature inp with
  | .error e =>
    have hrun : exec (parse_file o directory body_filename body_pref inp) w = (.error e, w) := by
      rw [parse_file, hsig]
      rfl
    rw [hrun]
    exact ⟨[], by simp, (List.append_nil _).symm, rfl⟩
  | .ok (false, inp') =>
    have hrun : (exec (parse_file o directory body_filename body_pref inp) w).2
        = { w with stdout := w.stdout ++ ascii "Seems not to be a TNEF file\n" } := by
      rw [parse_file, hsig]
      rfl
    rw [hrun]
    exact ⟨[], by simp, (List.append_nil _).symm, rfl⟩
  | .ok (true, inp') =>
    have hinit : Collected o {} := ⟨by simp, by simp, by simp, by simp⟩
    have hloop : WritesReady o directory (fun r => Collected o r.2)
        (attr_loop o (parse_attr o directory) inp' {}) :=
      attr_loop_performs (fun attr s hs => parse_attr_performs directory attr hs) inp' {} hinit
    -- from here on the run is calls of `file_write` and nothing else
    have hparse : WritesReady o directory (fun _ => True)
        (parse_file o directory body_filename body_pref inp) := by
      rw [parse_file, hsig]
      exact hloop.bind fun r hr => finish_file_performs directory hr
    obtain ⟨⟨files, hfiles, hrun⟩, -⟩ := hparse w
    refine ⟨files, hfiles, ?_, ?_⟩
    · rw [hrun]
      exact after_calls_calls o directory files w
    · rw [hrun]
      rfl

end Run

end Tnef
