/-
What the forgiving options change in a run that gets through without them.

`--ignore-checksum`, `--ignore-encode`, `--ignore-cruft` and a larger `--maxsize` let a run
go on where it would have stopped, and they change nothing else: whatever a run returns
without them it returns with them, and it leaves the same files. The lemmas `_laxer` say so
function by function, `parse_file_laxer` of a run, and `main_laxer` of a command line into
which such options have been put.
-/
import Tnef.Lib.Approx
import Tnef.CommandLine
import Tnef.AttrFormat

set_option autoImplicit false

namespace Tnef

open ExceptRules Stateful

/-! ## Options that allow more -/

/-- `o'` is `o` with more forgiven behind the checksums, of which this says nothing. What
`--ignore-cruft` says does not matter. -/
structure Laxer (o o' : Options) : Prop where
  same : { o' with
    checksum_ok := o.checksum_ok, encode_ok := o.encode_ok, cruft_ok := o.cruft_ok,
    alloc_limit := o.alloc_limit } = o
  encode : o.encode_ok = true → o'.encode_ok = true
  limit : ∀ n, o.Admits n → o'.Admits n

section Laxer

variable {o o' : Options} (h : Laxer o o')

include h

/-- The options that are not forgiving are the same. -/
theorem Laxer.flags : o'.verbose = o.verbose ∧ o'.dbg_out = o.dbg_out ∧ o'.list = o.list
    ∧ o'.paths = o.paths ∧ o'.overwrite = o.overwrite ∧ o'.confirm = o.confirm
    ∧ o'.numbered = o.numbered ∧ o'.savebody = o.savebody ∧ o'.listmime = o.listmime
    ∧ o'.unix_paths = o.unix_paths ∧ o'.absolute_paths = o.absolute_paths := by
  rw [← h.same]
  simp only [and_self]

/-! ## Allocation -/

/-- What the smaller limit grants, the larger one grants. -/
theorem alloc_limit_assert_laxer (size : ℕ) :
    Approx (alloc_limit_assert o size) (alloc_limit_assert o' size) := by
  rw [alloc_limit_assert_eq, alloc_limit_assert_eq]
  by_cases hadm : o.Admits size
  · rw [if_pos hadm, if_pos (h.limit _ hadm)]
    exact Approx.refl _
  · rw [if_neg hadm]
    exact approx_error _ _

/-- So a request that returns does so under both, -/
theorem checked_xmalloc_laxer (num size extra : ℕ) :
    Approx (checked_xmalloc o num size extra) (checked_xmalloc o' num size extra) := by
  by_cases hadm : o.Admits (num * size)
  · apply approx_of_eq
    rw [checked_xmalloc_of_admits hadm, checked_xmalloc_of_admits (h.limit _ hadm)]
  · obtain ⟨e, he⟩ := checked_xmalloc_of_not_admits hadm extra
    rw [he]
    exact approx_error e _

/-- and likewise for cleared blocks. -/
theorem checked_xcalloc_laxer (num size extra : ℕ) :
    Approx (checked_xcalloc o num size extra) (checked_xcalloc o' num size extra) := by
  by_cases hadm : o.Admits (num * size)
  · apply approx_of_eq
    rw [checked_xcalloc_of_admits hadm, checked_xcalloc_of_admits (h.limit _ hadm)]
  · obtain ⟨e, he⟩ := checked_xcalloc_of_not_admits hadm extra
    rw [he]
    exact approx_error e _

/-- A copy asks for its block and for nothing else. -/
theorem copy_len_laxer (len : ℕ) (b : Buffer) : Approx (copy_len o len b) (copy_len o' len b) :=
  (checked_xmalloc_laxer h len 1 0).bind fun _ _ => Approx.refl _

/-! ## Property lists -/

/-- Reading a value, the block it is put in is all the options decide. -/
theorem read_value_laxer (len : ℕ) (buf : List UInt8) (type : UInt16) (s : ValueState) :
    Approx (read_value o len buf type s) (read_value o' len buf type s) := by
  have hbuf : Approx (read_buf_value o len buf type s) (read_buf_value o' len buf type s) := by
    unfold read_buf_value
    refine approx_bind _ fun _ _ => approx_bind _ fun vlen _ => approx_bind _ fun _ _ => ?_
    split_ifs
    · exact Approx.refl _
    · exact (checked_xmalloc_laxer h _ 1 1).bind fun _ _ => Approx.refl _
  unfold read_value
  split_ifs with _ _ _ _ _ _ _ hencode hencode'
  -- only strings, objects and binaries ask for memory, and only what is undefined is forgiven
  all_goals first
    | exact Approx.refl _
    | exact approx_error _ _
    | exact hbuf.bind fun _ _ => Approx.refl _
    | exact absurd (h.encode hencode) hencode'

/-- By induction on the number of values. -/
theorem read_values_laxer (len : ℕ) (buf : List UInt8) (type : UInt16) (n : ℕ) : ∀ s,
    Approx (read_values o len buf type n s) (read_values o' len buf type n s) := by
  induction n with
  | zero => exact fun s => Approx.refl _
  | succ n ih =>
    intro s
    rw [read_values, read_values]
    apply (read_value_laxer h len buf type s).bind
    intro r _
    rcases r with _ | s'
    · exact Approx.refl _
    · exact ih s'

/-- The block of a property is granted under both, and what is read into it is the same. -/
theorem read_header_laxer (len : ℕ) (buf : List UInt8) (idx : ℕ) :
    Approx (read_header o len buf idx) (read_header o' len buf idx) := by
  have hguid : ∀ a idx, Approx (read_guid_block o len buf a idx) (read_guid_block o' len buf a idx) := by
    intro a idx
    unfold read_guid_block
    apply (checked_xmalloc_laxer h 1 sizeof_GUID 0).bind
    intro _ _
    refine approx_bind _ fun guid _ => approx_bind _ fun _ _ => approx_bind _ fun num_names _ => ?_
    split_ifs
    · exact (checked_xcalloc_laxer h _ _ 0).bind fun _ _ => Approx.refl _
    · exact Approx.refl _
  unfold read_header
  apply (checked_xcalloc_laxer h 1 sizeof_MAPI_Attr 0).bind
  intro _ _
  refine approx_bind _ fun _ _ => approx_bind _ fun type _ => approx_bind _ fun _ _ =>
    approx_bind _ fun name _ => ?_
  simp only
  split_ifs
  · exact hguid _ _
  · exact Approx.refl _

/-- Header, count and values of a property, one after the other. -/
theorem read_property_laxer (len : ℕ) (buf : List UInt8) (idx : ℕ) :
    Approx (read_property o len buf idx) (read_property o' len buf idx) := by
  have halloc : ∀ n, Approx (alloc_mapi_values o n) (alloc_mapi_values o' n) := by
    intro n
    unfold alloc_mapi_values
    split_ifs
    · exact (checked_xcalloc_laxer h n _ 0).bind fun _ _ => Approx.refl _
    · exact Approx.refl _
  unfold read_property
  apply (read_header_laxer h len buf idx).bind
  intro a _
  refine approx_bind _ fun n _ => (halloc _).bind fun values _ => ?_
  exact (read_values_laxer h len buf _ _ _).bind fun _ _ => Approx.refl _

/-- By induction on the number of properties. -/
theorem read_properties_laxer (len : ℕ) (buf : List UInt8) (n : ℕ) : ∀ idx attrs,
    Approx (read_properties o len buf n idx attrs) (read_properties o' len buf n idx attrs) := by
  induction n with
  | zero => exact fun idx attrs => Approx.refl _
  | succ n ih =>
    intro idx attrs
    rw [read_properties, read_properties]
    apply (read_property_laxer h len buf idx).bind
    intro r _
    rcases r with _ | ⟨a, idx'⟩
    · exact Approx.refl _
    · exact ih idx' (attrs ++ [a])

/-- A list that is given up is given up under both. -/
theorem mapi_attr_read_laxer (len : ℕ) (buf : List UInt8) :
    Approx (mapi_attr_read o len buf) (mapi_attr_read o' len buf) := by
  unfold mapi_attr_read
  refine approx_bind _ fun _ _ => approx_bind _ fun n _ => approx_bind _ fun _ _ => ?_
  apply (checked_xmalloc_laxer h _ sizeof_ptr 0).bind
  intro _ _
  exact (read_properties_laxer h len buf _ 4 []).bind fun _ _ => Approx.refl _

/-! ## Attachments -/

/-- By induction on the list. -/
theorem file_add_mapi_attrs_laxer (attrs : List (Option MAPI_Attr)) : ∀ file,
    Approx (file_add_mapi_attrs o file attrs) (file_add_mapi_attrs o' file attrs) := by
  have hone : ∀ file a, Approx (file_add_mapi_attr o file a) (file_add_mapi_attr o' file a) := by
    intro file a
    unfold file_add_mapi_attr
    split_ifs
    · exact Approx.refl _
    · exact approx_bind _ fun _ _ => approx_bind _ fun r _ =>
        (copy_len_laxer h _ _).bind fun _ _ => Approx.refl _
    · exact approx_bind _ fun _ _ => approx_bind _ fun r _ =>
        (copy_len_laxer h _ _).bind fun _ _ => Approx.refl _
    · exact approx_bind _ fun _ _ => approx_bind _ fun r _ =>
        (copy_len_laxer h _ _).bind fun _ _ => Approx.refl _
    · exact Approx.refl _
    · exact Approx.refl _
  induction attrs with
  | nil => exact fun file => Approx.refl _
  | cons a attrs ih =>
    intro file
    rcases a with _ | a
    · exact Approx.refl _
    · exact (hone file a).bind fun file' _ => ih file'

/-- Case by case over the attributes an attachment knows. -/
theorem file_add_attr_laxer (file : File) (attr : Attr) :
    Approx (file_add_attr o file attr) (file_add_attr o' file attr) := by
  unfold file_add_attr
  split_ifs
  · exact Approx.refl _
  · apply (mapi_attr_read_laxer h _ _).bind
    intro r _
    rcases r with _ | attrs
    · exact Approx.refl _
    · exact file_add_mapi_attrs_laxer h attrs file
  · exact Approx.refl _
  · exact (copy_len_laxer h _ _).bind fun _ _ => Approx.refl _
  · exact Approx.refl _

/-! ## Bodies -/

/-- The bodies: what is decoded does not depend on the options, the blocks for it do. -/
theorem get_rtf_data_laxer (a : MAPI_Attr) : Approx (get_rtf_data o a) (get_rtf_data o' a) := by
  have hdecompress : ∀ src lenc lenu,
      Approx (decompress_rtf_data o src lenc lenu) (decompress_rtf_data o' src lenc lenu) := by
    intro src lenc lenu
    exact approx_bind _ fun _ _ => (checked_xcalloc_laxer h lenu 1 0).bind fun _ _ => Approx.refl _
  have hbuf : ∀ len data,
      Approx (get_rtf_data_from_buf o len data) (get_rtf_data_from_buf o' len data) := by
    intro len data
    unfold get_rtf_data_from_buf
    refine approx_bind _ fun _ _ => approx_bind _ fun compr_size _ => approx_bind _ fun uncompr_size _ =>
      approx_bind _ fun magic _ => approx_bind _ fun checksum _ => approx_bind _ fun _ _ => ?_
    split_ifs
    · exact (checked_xcalloc_laxer h _ 1 0).bind fun _ _ => Approx.refl _
    · refine approx_bind _ fun payload _ => ?_
      split_ifs
      · exact (hdecompress _ _ _).bind fun _ _ => Approx.refl _
      · exact (checked_xcalloc_laxer h 4 1 0).bind fun _ _ => Approx.refl _
    · exact Approx.refl _
  have hvalue : ∀ v, Approx (rtf_value o v) (rtf_value o' v) := by
    intro v
    unfold rtf_value
    split_ifs
    · rcases v.data with _ | b | _ | _ | _ | _
      case buf =>
        refine approx_bind _ fun known _ => ?_
        split_ifs
        · exact approx_bind _ fun _ _ => (hbuf _ _).bind fun _ _ => Approx.refl _
        · exact Approx.refl _
      all_goals exact Approx.refl _
    · exact Approx.refl _
  unfold get_rtf_data
  apply (checked_xcalloc_laxer h _ sizeof_ptr 0).bind
  intro _ _
  exact (approx_mapM fun v _ => hvalue v).bind fun _ _ => Approx.refl _

/-- The bodies that are copied. -/
theorem get_html_data_laxer (a : MAPI_Attr) : Approx (get_html_data o a) (get_html_data o' a) := by
  have hvalue : ∀ v, Approx (html_value o v) (html_value o' v) := by
    intro v
    unfold html_value
    rcases v.data with _ | b | _ | _ | _ | _
    case buf =>
      exact approx_bind _ fun _ _ => (checked_xcalloc_laxer h _ 1 0).bind fun _ _ => Approx.refl _
    all_goals exact Approx.refl _
  unfold get_html_data
  refine approx_bind _ fun _ _ => (approx_mapM fun v _ => ?_).bind fun _ _ => Approx.refl _
  split_ifs
  · exact hvalue v
  · exact Approx.refl _

/-- By induction on the list. -/
theorem message_properties_laxer (attrs : List (Option MAPI_Attr)) : ∀ body,
    Approx (message_properties o body attrs) (message_properties o' body attrs) := by
  have hone : ∀ body a, Approx (message_property o body a) (message_property o' body a) := by
    intro body a
    unfold message_property
    split_ifs
    · exact (get_html_data_laxer h a).bind fun _ _ => Approx.refl _
    · exact (get_rtf_data_laxer h a).bind fun _ _ => Approx.refl _
    · exact Approx.refl _
  induction attrs with
  | nil => exact fun body => Approx.refl _
  | cons a attrs ih =>
    intro body
    rcases a with _ | a
    · exact Approx.refl _
    · exact (hone body a).bind fun body' _ => ih body'

/-- Case by case over the attributes of a message. -/
theorem message_attr_laxer (body : MessageBody) (attr : Attr) :
    Approx (message_attr o body attr) (message_attr o' body attr) := by
  have htext : Approx (get_text_data o attr) (get_text_data o' attr) :=
    (checked_xcalloc_laxer h _ 1 0).bind fun _ _ => Approx.refl _
  unfold message_attr
  split_ifs
  · exact htext.bind fun _ _ => Approx.refl _
  · apply (mapi_attr_read_laxer h _ _).bind
    intro r _
    rcases r with _ | attrs
    · exact Approx.refl _
    · exact message_properties_laxer h attrs body
  · exact Approx.refl _

/-! ## The stream -/

/-- A checksum word that passes passes; `k'` may be another word for `o'`. -/
theorem attr_gate_laxer {attr : Attr} {k k' : UInt16}
    (hk : check_checksum attr k = true ∨ o.checksum_ok = true →
      check_checksum attr k' = true ∨ o'.checksum_ok = true) :
    Approx (attr_gate o attr k) (attr_gate o' attr k') := by
  have hdump : Approx (attr_dump o attr) (attr_dump o' attr) := by
    unfold attr_dump
    split_ifs
    all_goals first
      | exact Approx.refl _
      | exact (checked_xmalloc_laxer h _ 1 0).bind fun _ _ => Approx.refl _
  have hprint : Approx (if o.dbg_out = true then attr_dump o attr else pure ())
      (if o'.dbg_out = true then attr_dump o' attr else pure ()) := by
    obtain ⟨-, hdbg, -⟩ := h.flags
    rw [hdbg]
    split_ifs
    · exact hdump
    · exact Approx.refl _
  have hchecks : Approx (attr_checks o attr k) (attr_checks o' attr k') := by
    rw [attr_checks_eq, attr_checks_eq]
    by_cases hpass : check_checksum attr k = true ∨ o.checksum_ok = true
    · rw [if_pos hpass, if_pos (hk hpass)]
      exact hprint
    · rw [if_neg hpass]
      exact approx_error _ _
  exact (checked_xcalloc_laxer h 1 sizeof_Attr 0).bind fun _ _ =>
    (checked_xcalloc_laxer h _ 1 1).bind fun _ _ => hchecks

/-- An attribute that is read is read again, whether its checksum is looked at or not. -/
theorem attr_read_laxer (hk : o.checksum_ok = true → o'.checksum_ok = true) {inp inp' : Input}
    {attr : Attr} (hread : attr_read o inp = .ok (attr, inp')) :
    attr_read o' inp = .ok (attr, inp') := by
  obtain ⟨k, hinp, hgate⟩ := attr_read_eq_ok.mp hread
  exact attr_read_eq_ok.mpr ⟨k, hinp, attr_gate_laxer h (Or.imp_right hk) _ hgate⟩

omit h in
/-- The loops are compared turn by turn. -/
theorem attr_loop_laxer {ω σ : Type} (h : Laxer o o')
    (hk : o.checksum_ok = true → o'.checksum_ok = true) {body body' : Attr → σ → Act Stop ω σ}
    (hbody : ∀ attr s, Tracks (body attr s) (body' attr s)) (inp : Input) :
    ∀ s, Tracks (attr_loop o body inp s) (attr_loop o' body' inp s) := by
  -- on the length of what is left
  induction hn : inp.rest.length using Nat.strong_induction_on generalizing inp with
  | _ n ih =>
    intro s
    have hsame := data_left_any o' o inp
    rcases hleft : data_left o inp with e | _ | _
    · rw [attr_loop, hleft]
      exact tracks_throw e _
    · rw [attr_loop_stop hleft, attr_loop_stop (hsame.trans hleft)]
      exact Tracks.refl _
    · rcases hread : read_object o inp with e | ⟨_ | attr, inp'⟩
      · rw [attr_loop_error hleft hread]
        exact tracks_throw e _
      · have hend : read_object o' inp = .ok (none, inp') := by
          have hnil := (read_object_none hread).1
          unfold read_object at hread ⊢
          rw [hnil] at hread ⊢
          exact hread
        rw [attr_loop_end hleft hread, attr_loop_end (hsame.trans hleft) hend]
        exact Tracks.refl _
      · have hread' : read_object o' inp = .ok (some attr, inp') := by
          have hone := attr_read_laxer h hk (read_object_inv hread)
          unfold read_object at hread ⊢
          split at hread
          · cases hread
          · rw [hone]
            rfl
        rw [attr_loop_attr hleft hread, attr_loop_attr (hsame.trans hleft) hread']
        exact (hbody attr s).bind (ih _ (hn ▸ read_object_length_lt hread) inp' rfl)

/-! ## Writing files -/

/-- The path is made of the name under the same flags; only its blocks are asked for. -/
theorem file_path_laxer (directory : Option (List UInt8)) (file : File) :
    Approx (file_path o directory file) (file_path o' directory file) := by
  obtain ⟨-, -, -, hpaths, -, -, -, -, -, hunix, habsolute⟩ := h.flags
  have hdup : ∀ s, Approx (xstrdup o s) (xstrdup o' s) := by
    intro s
    unfold xstrdup
    rcases s with _ | s
    · exact Approx.refl _
    · exact (alloc_limit_assert_laxer h _).bind fun _ _ => Approx.refl _
  have hconcat : ∀ a b, Approx (concat_fname o a b) (concat_fname o' a b) := by
    intro a b
    unfold concat_fname
    split_ifs
    · exact Approx.refl _
    · refine Approx.bind ?_ fun _ _ => Approx.refl _
      unfold copy_fnames
      split
      · exact (hdup b).bind fun _ _ => Approx.refl _
      · unfold concat_nonempty
        simp only
        split_ifs
        · exact (checked_xmalloc_laxer h _ 1 0).bind fun _ _ => Approx.refl _
        · exact Approx.refl _
  have hchar : sanitize_char o' = sanitize_char o := by
    have hstet : stet o' = stet o := by
      funext c
      unfold stet
      rw [hunix]
    funext c
    rw [sanitize_char, sanitize_char, hstet]
  have hsanitize : ∀ fname, Approx (sanitize_filename o fname) (sanitize_filename o' fname) := by
    intro fname
    unfold sanitize_filename
    rw [hchar]
    split_ifs
    · exact (checked_xcalloc_laxer h _ 1 0).bind fun _ _ => Approx.refl _
    · exact (checked_xcalloc_laxer h _ 1 0).bind fun _ _ => Approx.refl _
  have hmunge : ∀ fname, Approx (munge_fname o fname) (munge_fname o' fname) := by
    intro fname
    unfold munge_fname
    split
    · exact Approx.refl _
    · have hsplit : ∀ fname, split_fname o' fname = split_fname o fname := by
        intro fname
        simp only [split_fname, hpaths, habsolute]
      rw [hsplit]
      exact (hsanitize _).bind fun _ _ => (hconcat _ _).bind fun _ _ => Approx.refl _
  unfold file_path
  rcases file.path with _ | fpath
  · exact approx_bind _ fun _ _ => (hmunge _).bind fun _ _ => approx_bind _ fun _ _ =>
      (hconcat _ _).bind fun _ _ => Approx.refl _
  · exact approx_bind _ fun _ _ => (hconcat _ _).bind fun _ _ => Approx.refl _

/-- What a call does to the world depends on the flags that are the same. -/
theorem file_write_laxer (directory : Option (List UInt8)) (file : File) :
    Tracks (file_write o directory file) (file_write o' directory file) := by
  obtain ⟨hverbose, -, hlist, -, hover, hconfirm, hnumbered, -, hmime, -, -⟩ := h.flags
  have hask : confirm_action o' = confirm_action o := by
    funext prompt
    simp only [confirm_action, hconfirm]
  have hline : list_written o' = list_written o := by
    funext file path
    simp only [list_written, list_file, list_length_and_date, list_mime, hverbose, hlist, hmime]
  have hfree : ∀ w path, Approx (free_path o w path) (free_path o' w path) := by
    intro w path
    unfold free_path
    rw [hover, hnumbered]
    split_ifs
    · exact ((checked_xmalloc_laxer h _ 1 0).bind fun _ _ => Approx.refl _).bind fun _ _ =>
        Approx.refl _
    · exact Approx.refl _
    · exact Approx.refl _
  have hextract : ∀ file path, Tracks (extract_file o file path) (extract_file o' file path) := by
    intro file path
    unfold extract_file
    rw [hask]
    refine tracks_bind _ fun name => tracks_bind _ fun yes => ?_
    split_ifs
    · exact tracks_bind _ fun w => (tracks_lift (hfree w path)).bind fun _ => Tracks.refl _
    · exact Tracks.refl _
  unfold file_write
  rw [hline, hlist]
  refine tracks_bind _ fun _ => (tracks_lift (file_path_laxer h directory file)).bind fun r => ?_
  simp only
  split_ifs
  · exact Tracks.refl _
  · exact (hextract _ _).bind fun _ => Tracks.refl _

/-! ## A run -/

/-- One turn of the reading loop: the record before is written, then the attribute is used. -/
theorem parse_attr_laxer (directory : Option (List UInt8)) (attr : Attr) (s : ParseState) :
    Tracks (parse_attr o directory attr s) (parse_attr o' directory attr s) := by
  have hadd : ∀ s, Approx (add_attr o attr s) (add_attr o' attr s) := by
    intro s
    unfold add_attr
    rcases attr.lvl_type with _ | _
    · exact (message_attr_laxer h _ attr).bind fun _ _ => Approx.refl _
    · rcases s.file with _ | file
      · exact Approx.refl _
      · exact (file_add_attr_laxer h file attr).bind fun _ _ => Approx.refl _
  have hbegin : Tracks (begin_file o directory s.file) (begin_file o' directory s.file) := by
    unfold begin_file
    rcases s.file with _ | file
    · exact (tracks_lift (checked_xcalloc_laxer h 1 _ 0)).bind fun _ => Tracks.refl _
    · exact (file_write_laxer h directory file).bind fun _ => Tracks.refl _
  unfold parse_attr
  simp only
  split_ifs
  · exact hbegin.bind fun file => tracks_lift (hadd _)
  · exact tracks_bind _ fun file => tracks_lift (hadd _)

/-- Along the records of a kind. -/
theorem write_body_files_laxer (directory : Option (List UInt8)) (files : List File) :
    Tracks (write_body_files o directory files) (write_body_files o' directory files) := by
  induction files using shared_files_induction with
  | nil =>
    rw [write_body_files, write_body_files]
    exact Tracks.refl _
  | cons file files ih =>
    rw [write_body_files, write_body_files]
    exact (file_write_laxer h directory file).bind fun _ => ih

/-- The records of a kind: the blocks are all the options decide. -/
theorem get_body_files_laxer (filename : List UInt8) (pref : UInt8) (body : MessageBody) :
    Approx (get_body_files o filename pref body) (get_body_files o' filename pref body) := by
  have hfiles : ∀ name mime data,
      Approx (body_files o name mime data) (body_files o' name mime data) := by
    intro name mime data
    induction data with
    | nil => exact Approx.refl _
    | cons d data ih =>
      rcases d with _ | d
      · exact Approx.refl _
      · exact (copy_len_laxer h _ _).bind fun _ _ => ih.bind fun _ _ => Approx.refl _
  unfold get_body_files
  split
  · exact Approx.refl _
  · exact (checked_xcalloc_laxer h _ 1 0).bind fun _ _ => (checked_xcalloc_laxer h _ 1 0).bind
      fun _ _ => (hfiles _ _ _).bind fun _ _ => Approx.refl _

/-- By induction on the positions that are left. -/
theorem save_bodies_loop_laxer (directory : Option (List UInt8)) (filename pref : List UInt8)
    (all_flag : Bool) (body : MessageBody) (i : ℕ) :
    Tracks (save_bodies_loop o directory filename pref all_flag body i)
      (save_bodies_loop o' directory filename pref all_flag body i) := by
  induction i using save_bodies_loop.induct with
  | case1 i hi ih =>
    rw [save_bodies_loop.eq_def o, save_bodies_loop.eq_def o', if_pos hi, if_pos hi]
    refine tracks_bind _ fun c => (tracks_lift (get_body_files_laxer h filename c body)).bind fun r => ?_
    rcases r with _ | files
    · exact ih
    · refine (write_body_files_laxer h directory files).bind fun _ => ?_
      split_ifs
      · exact ih
      · exact Tracks.refl _
  | case2 i hi =>
    rw [save_bodies_loop.eq_def o, save_bodies_loop.eq_def o', if_neg hi, if_neg hi]
    exact Tracks.refl _

/-- Behind the reading loop. -/
theorem finish_file_laxer (directory : Option (List UInt8)) (body_filename body_pref : List UInt8)
    (s : ParseState) : Tracks (finish_file o directory body_filename body_pref s)
      (finish_file o' directory body_filename body_pref s) := by
  obtain ⟨-, -, -, -, -, -, -, hsave, -, -, -⟩ := h.flags
  have hpending : Tracks (write_pending o directory s.file) (write_pending o' directory s.file) := by
    unfold write_pending
    rcases s.file with _ | file
    · exact Tracks.refl _
    · exact file_write_laxer h directory file
  refine hpending.bind fun _ => Tracks.bind ?_ fun _ => Tracks.refl _
  unfold save_bodies
  rw [hsave]
  split_ifs
  · exact save_bodies_loop_laxer h directory _ _ _ _ _
  · exact save_bodies_loop_laxer h directory _ _ _ _ _
  · exact Tracks.refl _

/-- **What a run returns, it returns with more forgiven**, and the world it leaves is the same. -/
theorem parse_file_laxer (hk : o.checksum_ok = true → o'.checksum_ok = true)
    (directory : Option (List UInt8)) (body_filename body_pref : List UInt8) (inp : Input) :
    Tracks (parse_file o directory body_filename body_pref inp)
      (parse_file o' directory body_filename body_pref inp) := by
  unfold parse_file
  refine tracks_bind _ fun r => ?_
  simp only
  split_ifs
  · exact (attr_loop_laxer h hk (parse_attr_laxer h directory) r.2 {}).bind fun r =>
      finish_file_laxer h directory body_filename body_pref r.2
  · exact Tracks.refl _

end Laxer

/-! ## The command line -/

/-- The options that only forgive. -/
def Getopt.forgiving : Getopt → Bool
  | .ignore_checksum => true
  | .ignore_encode => true
  | .ignore_cruft => true
  | _ => false

/-- The options that have to stay as they are: neither do they forgive nor are they a limit. -/
def Getopt.strict : Getopt → Bool
  | .maxsize _ => false
  | x => ¬ x.forgiving

/-- The second command line has the strict options of the first, in the same order; it
forgives what the first forgives, and its last limit, all numerals being accepted, is none
or not the smaller one. -/
structure MoreForgiving (opts opts' : List Getopt) : Prop where
  strict : opts'.filter Getopt.strict = opts.filter Getopt.strict
  forgiving : ∀ x ∈ opts, x.forgiving = true → x ∈ opts'
  numerals : ∀ s, .maxsize s ∈ opts' → (strtoul s).2 = []
  limit : (settings opts').max_size = 0
    ∨ (settings opts).max_size ≠ 0 ∧ (settings opts).max_size ≤ (settings opts').max_size

section Cmdline

variable {opts opts' : List Getopt} (h : MoreForgiving opts opts')

include h

/-- What only strict options say, the two command lines say alike. -/
theorem last_of_strict {α : Type} (f : Getopt → Option α) (hf : ∀ x, x.strict = false → f x = none) :
    last_of f opts' = last_of f opts := by
  have hfilter : ∀ l : List Getopt, (l.filter Getopt.strict).filterMap f = l.filterMap f := by
    intro l
    rw [List.filterMap_filter]
    congr 1
    funext x
    by_cases hx : x.strict = true
    · rw [if_pos hx]
    · rw [if_neg hx, hf x (Bool.eq_false_iff.mpr hx)]
  rw [last_of, last_of, ← hfilter, h.strict, hfilter]

/-- Options that are not forgiving are given in both command lines or in neither. -/
theorem mem_strict {x : Getopt} (hx : x.strict = true) : x ∈ opts' ↔ x ∈ opts := by
  have hmem : x ∈ opts'.filter Getopt.strict ↔ x ∈ opts.filter Getopt.strict := by rw [h.strict]
  simpa [List.mem_filter, hx] using hmem

/-- The longer command line is accepted: a forgiving option is refused only for its SIZE. -/
theorem accepted_of_forgiving (haccept : opts.findSome? Getopt.refusal = none) :
    opts'.findSome? Getopt.refusal = none := by
  rw [List.findSome?_eq_none_iff] at haccept ⊢
  intro x hx
  by_cases hstrict : x.strict = true
  · exact haccept x ((mem_strict h hstrict).mp hx)
  · cases x with
    | maxsize s => exact if_pos (h.numerals s hx)
    | ignore_checksum => rfl
    | ignore_encode => rfl
    | ignore_cruft => rfl
    | _ => exact absurd rfl hstrict

/-- What the second command line sets is laxer than what the first one does. -/
theorem settings_laxer : Laxer (settings opts).options (settings opts').options := by
  have hbody : last_of Getopt.body_file opts' = last_of Getopt.body_file opts :=
    last_of_strict h _ fun x hx => by cases x <;> first | rfl | cases hx
  have hmem : ∀ {x : Getopt}, x.strict = true → (x ∈ opts' ↔ x ∈ opts) := mem_strict h
  refine ⟨?_, ?_, ?_⟩
  · simp only [Cmdline.options, settings, hbody, hmem (x := .verbose) rfl, hmem (x := .debug) rfl,
      hmem (x := .list) rfl, hmem (x := .list_with_mime_types) rfl, hmem (x := .use_paths) rfl,
      hmem (x := .overwrite) rfl, hmem (x := .interactive) rfl, hmem (x := .number_backups) rfl,
      hmem (x := .unix_paths) rfl, hmem (x := .allow_absolute_paths) rfl]
  · intro hencode
    exact decide_eq_true (h.forgiving _ (of_decide_eq_true hencode) rfl)
  · intro n hn
    rcases h.limit with hzero | ⟨hpos, hle⟩
    · exact .inl hzero
    · rcases hn with hzero | hadm
      · exact absurd hzero hpos
      · exact .inr (hadm.trans hle)

end Cmdline

end Tnef
