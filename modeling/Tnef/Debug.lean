/-
What `--debug` changes in a run.

Two dumps run under the flag. `mapi_attr_dump` never stops (`mapi_attr_read_dump_eq`), so
the rest of the model does without it; `attr_dump` has checks of its own, for attributes a
quiet run may never look at. Nothing else depends on the flag: the lemmas `_debug` say so
function by function, and `parse_file_debug` puts the two together.
-/
import Tnef.MapiDump
import Tnef.StreamEnds

set_option autoImplicit false

namespace Tnef

open ExceptRules Slice LittleEndian Stateful

/-! ## Where `attr_dump` stops -/

/-- A check of `attr_dump` that the attribute fails. -/
def Refused (o : Options) (attr : Attr) : Prop :=
  (attr.type = szSHORT ∧ attr.len < 2)
  ∨ (attr.type = szLONG ∧ attr.len < 4)
  ∨ (attr.type = szDATE ∧ (attr.len < 14 ∨ ∃ dow, GETINT16 attr.buf 12 = .ok dow ∧ 6 < dow.toNat))
  ∨ (attr.type = szTRIPLES ∧ (attr.len ≤ 8 ∨ ∃ cch, GETINT16 attr.buf 4 = .ok cch
    ∧ attr.len ≤ 8 + cch.toNat))
  ∨ ((attr.type = szTEXT ∨ attr.type = szSTRING) ∧ ¬ o.Admits (attr.len + 1))

/-- An attribute of which `attr_dump` reads more than there is: it has no check for it. -/
def Overread (attr : Attr) : Prop :=
  (attr.type = szBYTE ∧ attr.name = attOEMCODEPAGE ∧ attr.len < 7)
  ∨ (attr.type = szDWORD ∧ (attr.len % 4 = 1 ∨ attr.len % 4 = 2))

theorem attr_buf_length (attr : Attr) : attr.buf.length = attr.len + 1 := by
  rw [Attr.buf, List.length_append, List.length_singleton]
  rfl

theorem dump_words_of_lt {buf : List UInt8} {len : ℕ} (h : len < buf.length) (i : ℕ) :
    dump_words buf len i = .ok () := by
  induction i using dump_words.induct len with
  | case1 i hi ih =>
    obtain ⟨x, hx, -⟩ := @GETINT16_of_le buf i (by omega)
    rw [dump_words, if_pos hi, hx, ok_bind]
    exact ih
  | case2 i hi => rw [dump_words, if_neg hi]

/-- Whole words, or one byte less than that with the NUL behind it. -/
theorem dump_dwords_of_whole {buf : List UInt8} {len : ℕ} (h : len < buf.length)
    (hwhole : len % 4 = 0 ∨ len % 4 = 3) (i : ℕ) (hi : i % 4 = 0) :
    dump_dwords buf len i = .ok () := by
  induction i using dump_dwords.induct len with
  | case1 i hlt ih =>
    obtain ⟨x, hx, -⟩ := @GETINT32_of_le buf i (by omega)
    rw [dump_dwords, if_pos hlt, hx, ok_bind]
    exact ih (by omega)
  | case2 i hlt => rw [dump_dwords, if_neg hlt]

/-- The terminator of the buffer ends every string in it. -/
theorem c_str_at_buf {attr : Attr} {p : ℕ} (hp : p ≤ attr.len) : ∃ s, c_str_at attr.buf p = .ok s := by
  have hmem : (0 : UInt8) ∈ attr.buf.drop p := by
    rw [Attr.buf, List.drop_append_of_le_length hp]
    exact List.mem_append_right _ (List.mem_singleton_self _)
  exact ⟨_, if_pos hmem⟩

theorem date_read_dow {attr : Attr} (h : 14 ≤ attr.len) :
    ∃ dt, date_read attr.buf = .ok dt ∧ GETINT16 attr.buf 12 = .ok dt.dow := by
  have hread : ∀ i, i + 2 ≤ 14 → ∃ x, GETINT16 attr.buf i = .ok x := by
    intro i hi
    obtain ⟨x, hx, -⟩ := @GETINT16_of_le attr.buf i (by rw [attr_buf_length]; omega)
    exact ⟨x, hx⟩
  obtain ⟨year, hyear⟩ := hread 0 (by omega)
  obtain ⟨month, hmonth⟩ := hread 2 (by omega)
  obtain ⟨day, hday⟩ := hread 4 (by omega)
  obtain ⟨hour, hhour⟩ := hread 6 (by omega)
  obtain ⟨min, hmin⟩ := hread 8 (by omega)
  obtain ⟨sec, hsec⟩ := hread 10 (by omega)
  obtain ⟨dow, hdow⟩ := hread 12 (by omega)
  refine ⟨⟨year, month, day, hour, min, sec, dow⟩, ?_, hdow⟩
  rw [date_read, hyear, ok_bind, hmonth, ok_bind, hday, ok_bind, hhour, ok_bind, hmin, ok_bind, hsec,
    ok_bind, hdow, ok_bind]
  rfl

/-- Behind its first two checks a triple has one more, with the length it declares. -/
theorem copy_triple_of_long {attr : Attr} (htype : attr.type = szTRIPLES) (hlen : attr.len > 8) :
    ∃ id chbgtrp cch cb, GETINT16 attr.buf 4 = .ok cch ∧ copy_triple_from_attr attr
      = assert (attr.len > 8 + cch.toNat)
        >>= fun _ => .ok ⟨id, chbgtrp, cch, cb, 8, 8 + cch.toNat⟩ := by
  have hread : ∀ i, i + 2 ≤ 8 → ∃ x, GETINT16 attr.buf i = .ok x := by
    intro i hi
    obtain ⟨x, hx, -⟩ := @GETINT16_of_le attr.buf i (by rw [attr_buf_length]; omega)
    exact ⟨x, hx⟩
  obtain ⟨id, hid⟩ := hread 0 (by omega)
  obtain ⟨chbgtrp, hchbgtrp⟩ := hread 2 (by omega)
  obtain ⟨cch, hcch⟩ := hread 4 (by omega)
  obtain ⟨cb, hcb⟩ := hread 6 (by omega)
  refine ⟨id, chbgtrp, cch, cb, hcch, ?_⟩
  rw [copy_triple_from_attr, assert_of htype, ok_bind, assert_of hlen, ok_bind, hid, ok_bind,
    hchbgtrp, ok_bind, hcch, ok_bind, hcb, ok_bind]
  rfl

/-- An attribute that fails no check and is long enough for its type is printed. -/
theorem attr_dump_ok {o : Options} {attr : Attr} (hrefused : ¬ Refused o attr)
    (hover : ¬ Overread attr) : attr_dump o attr = .ok () := by
  have hbuf := attr_buf_length attr
  have hbytes : ∀ i, dump_bytes attr.buf attr.len i = .ok () :=
    dump_bytes_of_le (by rw [hbuf]; omega)
  unfold attr_dump
  split_ifs with hbyte hname hshort hlen hlong hlen hword hdword hdate htext htriples
  · -- two words of a code page
    have hlen : 7 ≤ attr.len := by
      by_contra hlt
      exact hover (.inl ⟨hbyte, hname, by omega⟩)
    obtain ⟨x, hx, -⟩ := @GETINT32_of_le attr.buf 0 (by rw [hbuf]; omega)
    obtain ⟨y, hy, -⟩ := @GETINT32_of_le attr.buf 4 (by rw [hbuf]; omega)
    rw [hx, ok_bind, hy]
    rfl
  · exact hbytes 0
  · exact absurd (.inl ⟨hshort, hlen⟩) hrefused
  · obtain ⟨x, hx, -⟩ := @GETINT16_of_le attr.buf 0 (by rw [hbuf]; omega)
    rw [hx, ok_bind]
    exact hbytes 2
  · exact absurd (.inr (.inl ⟨hlong, hlen⟩)) hrefused
  · obtain ⟨x, hx, -⟩ := @GETINT32_of_le attr.buf 0 (by rw [hbuf]; omega)
    rw [hx, ok_bind]
    exact hbytes 4
  · exact dump_words_of_lt (by rw [hbuf]; omega) 0
  · have hwhole : attr.len % 4 = 0 ∨ attr.len % 4 = 3 := by
      by_contra hcut
      exact hover (.inr ⟨hdword, by omega⟩)
    exact dump_dwords_of_whole (by rw [hbuf]; omega) hwhole 0 rfl
  · have hlen : 14 ≤ attr.len := by
      by_contra hlt
      exact hrefused (.inr (.inr (.inl ⟨hdate, .inl (by omega)⟩)))
    obtain ⟨dt, hdt, hdow⟩ := date_read_dow hlen
    have hweek : dt.dow.toNat ≤ 6 := by
      by_contra hlt
      exact hrefused (.inr (.inr (.inl ⟨hdate, .inr ⟨_, hdow, by omega⟩⟩)))
    rw [copy_date_from_attr, assert_of hdate, ok_bind, assert_of hlen, ok_bind, hdt, ok_bind,
      date_to_str, dow_str, assert_of hweek]
    rfl
  · have hadm : o.Admits (attr.len + 1) := by
      by_contra hnot
      exact hrefused (.inr (.inr (.inr (.inr ⟨htext, hnot⟩))))
    have hsize : (attr.len + 1) * 1 + 0 < 2 ^ 64 := by
      have hfits := attr.fits
      unfold Attr.len
      omega
    obtain ⟨text, htext⟩ := @c_str_at_buf attr 0 (Nat.zero_le _)
    rw [(checked_xmalloc_eq_ok hsize).mpr ⟨by rw [Nat.mul_one]; exact hadm, rfl⟩, ok_bind, htext]
    rfl
  · have hlen : attr.len > 8 := by
      by_contra hle
      exact hrefused (.inr (.inr (.inr (.inl ⟨htriples, .inl (by omega)⟩))))
    obtain ⟨id, chbgtrp, cch, cb, hcch, htriple⟩ := copy_triple_of_long htriples hlen
    have hnames : attr.len > 8 + cch.toNat := by
      by_contra hle
      exact hrefused (.inr (.inr (.inr (.inl ⟨htriples, .inr ⟨cch, hcch, by omega⟩⟩))))
    obtain ⟨display, hdisplay⟩ := @c_str_at_buf attr 8 (by omega)
    obtain ⟨address, haddress⟩ := @c_str_at_buf attr (8 + cch.toNat) (by omega)
    rw [htriple, assert_of hnames, ok_bind, ok_bind]
    simp only
    rw [hdisplay, ok_bind, haddress]
    rfl
  · rfl

/-- A failed check stops the dump, in front of any read it guards. -/
theorem attr_dump_refused {o : Options} {attr : Attr} (h : Refused o attr) :
    ∃ e, e ≠ .fault ∧ attr_dump o attr = .error e := by
  rcases h with ⟨htype, hlen⟩ | ⟨htype, hlen⟩ | ⟨htype, hbad⟩ | ⟨htype, hbad⟩ | ⟨htype, hnot⟩
  · refine ⟨.abort, nofun, ?_⟩
    rw [attr_dump, if_neg (by rw [htype]; decide), if_pos htype, if_pos hlen]
  · refine ⟨.abort, nofun, ?_⟩
    rw [attr_dump, if_neg (by rw [htype]; decide), if_neg (by rw [htype]; decide), if_pos htype,
      if_pos hlen]
  · refine ⟨.assertion, nofun, ?_⟩
    -- a date stops at its length or at its day of the week
    simp +decide only [attr_dump, htype, if_true, if_false]
    by_cases hlen : attr.len ≥ 14
    · obtain ⟨dt, hdt, hdow⟩ := date_read_dow hlen
      have hweek : ¬ dt.dow.toNat ≤ 6 := by
        rcases hbad with hlt | ⟨dow, hdow', hlt⟩
        · omega
        · rw [hdow] at hdow'
          cases hdow'
          omega
      rw [copy_date_from_attr, assert_of htype, ok_bind, assert_of hlen, ok_bind, hdt, ok_bind,
        date_to_str, dow_str, assert_eq_error.mpr ⟨hweek, rfl⟩]
      rfl
    · rw [copy_date_from_attr, assert_of htype, ok_bind, assert_eq_error.mpr ⟨hlen, rfl⟩]
      rfl
  · -- a triple stops at its header, or where its strings do not fit
    simp +decide only [attr_dump, htype, if_true, if_false]
    by_cases hlen : attr.len > 8
    · obtain ⟨id, chbgtrp, cch, cb, hcch, htriple⟩ := copy_triple_of_long htype hlen
      have hshort : ¬ attr.len > 8 + cch.toNat := by
        rcases hbad with hle | ⟨cch', hcch', hle⟩
        · omega
        · rw [hcch] at hcch'
          cases hcch'
          omega
      exact ⟨.assertion, nofun, by rw [htriple, assert_eq_error.mpr ⟨hshort, rfl⟩]; rfl⟩
    · refine ⟨.assertion, nofun, ?_⟩
      rw [copy_triple_from_attr, assert_of htype, ok_bind, assert_eq_error.mpr ⟨hlen, rfl⟩]
      rfl
  · have hnot' : ¬ o.Admits ((attr.len + 1) * 1) := by rwa [Nat.mul_one]
    obtain ⟨e, hlimit⟩ := checked_xmalloc_of_not_admits hnot' 0
    -- the limit stops the program, it is no fault
    have hne : e ≠ .fault := by
      rintro rfl
      exact checked_xmalloc_ne_fault _ _ _ _ hlimit
    refine ⟨e, hne, ?_⟩
    rcases htype with htype | htype
    · simp +decide only [attr_dump, htype, if_true, if_false]
      rw [hlimit]
      rfl
    · simp +decide only [attr_dump, htype, if_true, if_false]
      rw [hlimit]
      rfl

/-! ## Where `attr_dump` reads too much -/

theorem GETINT32_past {buf : List UInt8} {i : ℕ} (h : buf.length < i + 4) :
    GETINT32 buf i = .error .fault := by
  have hnot : ∀ k, rd buf (i + k) = .error .fault ∨ ∃ b, rd buf (i + k) = .ok b := by
    intro k
    by_cases hk : i + k < buf.length
    · exact .inr ⟨_, rd_of_lt hk⟩
    · exact .inl (rd_of_le (not_lt.mp hk))
  -- the first byte that is not there is a fault, whatever is in front of it
  unfold GETINT32
  rcases hnot 0 with h₀ | ⟨b₀, h₀⟩
  · rw [Nat.add_zero] at h₀
    rw [h₀, error_bind]
  rcases hnot 1 with h₁ | ⟨b₁, h₁⟩
  · rw [Nat.add_zero] at h₀
    rw [h₀, ok_bind, h₁, error_bind]
  rcases hnot 2 with h₂ | ⟨b₂, h₂⟩
  · rw [Nat.add_zero] at h₀
    rw [h₀, ok_bind, h₁, ok_bind, h₂, error_bind]
  · rw [Nat.add_zero] at h₀
    rw [h₀, ok_bind, h₁, ok_bind, h₂, ok_bind, rd_of_le (by omega), error_bind]

/-- With one or two bytes over, the last turn reads three or two bytes behind the NUL. -/
theorem dump_dwords_cut {buf : List UInt8} {len : ℕ} (h : buf.length = len + 1)
    (hcut : len % 4 = 1 ∨ len % 4 = 2) (i : ℕ) (hi : i % 4 = 0) (hlt : i < len) :
    dump_dwords buf len i = .error .fault := by
  induction i using dump_dwords.induct len with
  | case1 i _ ih =>
    rw [dump_dwords, if_pos hlt]
    by_cases hlast : i + 4 < len
    · obtain ⟨x, hx, -⟩ := @GETINT32_of_le buf i (by omega)
      rw [hx, ok_bind]
      exact ih (by omega) hlast
    · rw [GETINT32_past (by omega), error_bind]
  | case2 i hnot => exact absurd hlt hnot

theorem attr_dump_overread {o : Options} {attr : Attr} (h : Overread attr) :
    attr_dump o attr = .error .fault := by
  have hbuf := attr_buf_length attr
  rcases h with ⟨htype, hname, hlen⟩ | ⟨htype, hcut⟩
  · rw [attr_dump, if_pos htype, if_pos hname]
    by_cases hfirst : attr.len < 3
    · rw [GETINT32_past (by omega), error_bind]
    · obtain ⟨x, hx, -⟩ := @GETINT32_of_le attr.buf 0 (by omega)
      rw [hx, ok_bind, GETINT32_past (by omega), error_bind]
  · simp +decide only [attr_dump, htype, if_true, if_false]
    exact dump_dwords_cut hbuf hcut 0 rfl (by omega)

/-- **Every read is inside the data and their terminator**, or the dump has stopped before it,
except for a code page under seven bytes and for double words with one or two bytes over. -/
theorem attr_dump_inside (o : Options) (attr : Attr) :
    attr_dump o attr ≠ .error .fault ↔ ¬ Overread attr := by
  constructor
  · exact fun hne hover => hne (attr_dump_overread hover)
  · intro hover
    by_cases hrefused : Refused o attr
    · obtain ⟨e, he, hdump⟩ := attr_dump_refused hrefused
      rw [hdump]
      exact fun h => he (Except.error.inj h)
    · rw [attr_dump_ok hrefused hover]
      exact nofun

/-- A double word of one byte: three bytes are read behind the terminator. -/
theorem attr_dump_reads_past :
    ¬ ∀ (o : Options) (attr : Attr), attr_dump o attr ≠ .error .fault := by
  intro h
  exact h {} ⟨.LVL_MESSAGE, szDWORD, attBODY, [1], by decide⟩ (by decide +kernel)

/-! ## What does not look at the flag -/

/-- The options with `--debug`. -/
def Options.debug (o : Options) : Options := { o with dbg_out := true }

section Flag

variable (o : Options)

theorem read_values_debug (len : ℕ) (buf : List UInt8) (type : UInt16) (n : ℕ) : ∀ s,
    read_values o.debug len buf type n s = read_values o len buf type n s := by
  induction n with
  | zero =>
    intro s
    rfl
  | succ n ih =>
    intro s
    have hone : read_value o.debug len buf type s = read_value o len buf type s := rfl
    rw [read_values, read_values, hone]
    apply bind_congr_ok
    intro r _
    rcases r with _ | s'
    · rfl
    · exact ih s'

theorem read_property_debug (len : ℕ) (buf : List UInt8) (idx : ℕ) :
    read_property o.debug len buf idx = read_property o len buf idx := by
  have hheader : read_header o.debug len buf idx = read_header o len buf idx := rfl
  have halloc : alloc_mapi_values o.debug = alloc_mapi_values o := rfl
  rw [read_property, read_property, hheader]
  simp only [halloc, read_values_debug]

theorem read_properties_debug (len : ℕ) (buf : List UInt8) (n : ℕ) : ∀ idx attrs,
    read_properties o.debug len buf n idx attrs = read_properties o len buf n idx attrs := by
  induction n with
  | zero =>
    intro idx attrs
    rfl
  | succ n ih =>
    intro idx attrs
    rw [read_properties, read_properties, read_property_debug]
    apply bind_congr_ok
    intro r _
    rcases r with _ | ⟨a, idx'⟩
    · rfl
    · exact ih idx' (attrs ++ [a])

theorem mapi_attr_read_debug (len : ℕ) (buf : List UInt8) :
    mapi_attr_read o.debug len buf = mapi_attr_read o len buf := by
  have hgrant : ∀ num size extra, checked_xmalloc o.debug num size extra
      = checked_xmalloc o num size extra := fun _ _ _ => rfl
  simp only [mapi_attr_read, read_properties_debug, hgrant]

theorem file_add_mapi_attrs_debug (attrs : List (Option MAPI_Attr)) : ∀ file,
    file_add_mapi_attrs o.debug file attrs = file_add_mapi_attrs o file attrs := by
  induction attrs with
  | nil =>
    intro file
    rfl
  | cons a attrs ih =>
    intro file
    match a with
    | none => rfl
    | some a =>
      have hone : file_add_mapi_attr o.debug file a = file_add_mapi_attr o file a := rfl
      rw [file_add_mapi_attrs, file_add_mapi_attrs, hone]
      exact bind_congr_ok fun file' _ => ih file'

theorem file_add_attr_debug (file : File) (attr : Attr) :
    file_add_attr o.debug file attr = file_add_attr o file attr := by
  have hcopy : copy_len o.debug = copy_len o := rfl
  simp only [file_add_attr, mapi_attr_read_debug, file_add_mapi_attrs_debug, hcopy]

theorem message_properties_debug (attrs : List (Option MAPI_Attr)) : ∀ body,
    message_properties o.debug body attrs = message_properties o body attrs := by
  induction attrs with
  | nil =>
    intro body
    rfl
  | cons a attrs ih =>
    intro body
    match a with
    | none => rfl
    | some a =>
      have hone : message_property o.debug body a = message_property o body a := rfl
      rw [message_properties, message_properties, hone]
      exact bind_congr_ok fun body' _ => ih body'

theorem message_attr_debug (body : MessageBody) (attr : Attr) :
    message_attr o.debug body attr = message_attr o body attr := by
  have htext : get_text_data o.debug = get_text_data o := rfl
  simp only [message_attr, mapi_attr_read_debug, message_properties_debug, htext]

theorem file_write_debug : file_write o.debug = file_write o := rfl

variable (directory : Option (List UInt8))

theorem parse_attr_debug (attr : Attr) (s : ParseState) :
    parse_attr o.debug directory attr s = parse_attr o directory attr s := by
  have hbegin : begin_file o.debug = begin_file o := rfl
  simp only [parse_attr, add_attr, message_attr_debug, file_add_attr_debug, hbegin]

theorem body_files_debug (name mime : Buffer) (data : List (Option VarLenData)) :
    body_files o.debug name mime data = body_files o name mime data := by
  induction data with
  | nil => rfl
  | cons d data ih =>
    match d with
    | none => rfl
    | some d =>
      have hcopy : copy_len o.debug = copy_len o := rfl
      rw [body_files, body_files, hcopy, ih]

theorem get_body_files_debug (filename : List UInt8) (pref : UInt8) (body : MessageBody) :
    get_body_files o.debug filename pref body = get_body_files o filename pref body := by
  have hgrant : ∀ num size extra, checked_xcalloc o.debug num size extra
      = checked_xcalloc o num size extra := fun _ _ _ => rfl
  simp only [get_body_files, body_files_debug, hgrant]

theorem write_body_files_debug (files : List File) :
    write_body_files o.debug directory files = write_body_files o directory files := by
  induction files using shared_files_induction with
  | nil => rw [write_body_files, write_body_files]
  | cons file files ih => rw [write_body_files, write_body_files, file_write_debug, ih]

theorem save_bodies_loop_debug (filename pref : List UInt8) (all_flag : Bool) (body : MessageBody)
    (i : ℕ) : save_bodies_loop o.debug directory filename pref all_flag body i
      = save_bodies_loop o directory filename pref all_flag body i := by
  induction i using save_bodies_loop.induct with
  | case1 i hi ih =>
    rw [save_bodies_loop.eq_def o.debug, save_bodies_loop.eq_def o, if_pos hi, if_pos hi]
    simp only [get_body_files_debug, ih, write_body_files_debug]
  | case2 i hi =>
    rw [save_bodies_loop.eq_def o.debug, save_bodies_loop.eq_def o, if_neg hi, if_neg hi]

/-- **Behind the reading loop nothing looks at the flag.** -/
theorem finish_file_debug (body_filename body_pref : List UInt8) (s : ParseState) :
    finish_file o.debug directory body_filename body_pref s
      = finish_file o directory body_filename body_pref s := by
  have hpending : write_pending o.debug directory s.file = write_pending o directory s.file := rfl
  have hbodies : save_bodies o.debug directory body_filename body_pref s.body
      = save_bodies o directory body_filename body_pref s.body := by
    simp only [save_bodies, save_bodies_loop_debug]
    rfl
  rw [finish_file, finish_file, hpending, hbodies]

/-- **In the reading loop only `attr_dump` does.** -/
theorem attr_gate_debug {attr : Attr} (hdump : attr_dump o attr = .ok ()) (k : UInt16) :
    attr_gate o.debug attr k = attr_gate o attr k := by
  have hdump' : attr_dump o.debug attr = .ok () := hdump
  have hchecks : attr_checks o.debug attr k = attr_checks o attr k := by
    simp only [attr_checks, hdump, hdump', pure_eq_ok, ite_self]
    rfl
  have hgrant : ∀ num size extra, checked_xcalloc o.debug num size extra
      = checked_xcalloc o num size extra := fun _ _ _ => rfl
  simp only [attr_gate, hchecks, hgrant]

/-- What the dump refuses does not get through. -/
theorem attr_gate_refused {o : Options} {attr : Attr} (href : Refused o attr) (k : UInt16) :
    ∃ e, attr_gate o.debug attr k = .error e := by
  cases hgate : attr_gate o.debug attr k with
  | error e => exact ⟨e, rfl⟩
  | ok u =>
    obtain ⟨e, -, hdump⟩ := attr_dump_refused href
    have hdump' : attr_dump o.debug attr = .error e := hdump
    simp only [attr_gate, bind_eq_ok] at hgate
    obtain ⟨_, -, _, -, hchecks⟩ := hgate
    have hstop : attr_checks o.debug attr k ≠ .ok u := by
      have hflag : o.debug.dbg_out = true := rfl
      simp only [attr_checks, hdump', hflag, if_true]
      split_ifs <;> simp
    exact absurd hchecks hstop

/-- Over attributes that can be printed the loop does the same. -/
theorem fold_debug (as : List (Attr × UInt16)) (hdump : ∀ x ∈ as, attr_dump o x.1 = .ok ()) :
    ∀ s : ParseState,
    as.foldlM (fun s x => lift (attr_gate o.debug x.1 x.2)
        >>= fun _ => parse_attr o.debug directory x.1 s) s
      = as.foldlM (fun s x => lift (attr_gate o x.1 x.2) >>= fun _ => parse_attr o directory x.1 s) s := by
  induction as with
  | nil =>
    intro s
    rfl
  | cons x as ih =>
    intro s
    have hx := attr_gate_debug o (hdump x (List.mem_cons_self ..)) x.2
    have hrest := ih fun y hy => hdump y (List.mem_cons_of_mem _ hy)
    rw [List.foldlM_cons, List.foldlM_cons, hx, parse_attr_debug]
    simp only [hrest]

end Flag

/-! ## The two runs -/

/-- The attribute stands in the stream, behind whole attributes. -/
def InStream (bs : List UInt8) (attr : Attr) : Prop :=
  ∃ key as k rest, bs = stream key as ++ (encode_raw attr k ++ rest)

section Runs

variable {o : Options} (directory : Option (List UInt8)) (body_filename body_pref : List UInt8)

/-- An attribute that the dump refuses is not survived. -/
theorem parse_file_refused {bs : List UInt8} {attr : Attr} (hin : InStream bs attr)
    (href : Refused o attr) (is_stdin : Bool) (w : World) :
    ∃ e, (exec (parse_file o.debug directory body_filename body_pref
      { rest := bs, is_stdin := is_stdin }) w).1 = .error e := by
  obtain ⟨key, as, k, rest, rfl⟩ := hin
  have hbytes : attr_bytes as ++ (encode_raw attr k ++ rest)
      = attr_bytes (as ++ [(attr, k)]) ++ rest := by
    simp [attr_bytes]
  obtain ⟨e, hgate⟩ := attr_gate_refused href k
  rw [stream_append, hbytes, exec_parse_file, List.foldlM_append, exec_bind]
  generalize exec (as.foldlM (fun s x => lift (attr_gate o.debug x.1 x.2)
    >>= fun _ => parse_attr o.debug directory x.1 s) {}) w = folded
  obtain ⟨e' | s, w₁⟩ := folded
  · exact ⟨e', rfl⟩
  · refine ⟨e, ?_⟩
    simp only
    rw [List.foldlM_cons, hgate]
    rfl

/-- Where every attribute can be printed, a run that returns does the same under `--debug`. -/
theorem parse_file_dumped {bs : List UInt8} (hdump : ∀ attr, InStream bs attr →
      attr_dump o attr = .ok ()) (is_stdin : Bool) {w : World} {status : ℕ}
    (hquiet : (exec (parse_file o directory body_filename body_pref
      { rest := bs, is_stdin := is_stdin }) w).1 = .ok status) :
    exec (parse_file o.debug directory body_filename body_pref { rest := bs, is_stdin := is_stdin }) w
      = exec (parse_file o directory body_filename body_pref { rest := bs, is_stdin := is_stdin }) w := by
  rcases hread : read_signature { rest := bs, is_stdin := is_stdin } with e | ⟨_ | _, inp⟩
  · rw [parse_file, hread] at hquiet
    cases hquiet
  · rw [parse_file, parse_file, hread, lift_ok, pure_bind, pure_bind]
    simp only [Bool.false_eq_true, if_false]
  · obtain ⟨key, rest, rfl⟩ : ∃ key rest, bs = le32 TNEF_SIGNATURE ++ (le16 key ++ rest) := by
      obtain ⟨key, hinp⟩ := read_signature_inv hread
      exact ⟨key, inp.rest, congrArg Input.rest hinp⟩
    obtain ⟨as, tail, rfl, htail⟩ := exists_attr_bytes rest
    have hall : ∀ x ∈ as, attr_dump o x.1 = .ok () := by
      intro x hx
      apply hdump
      obtain ⟨before, after, rfl⟩ := List.append_of_mem hx
      refine ⟨key, before, x.2, attr_bytes after ++ tail, ?_⟩
      rw [stream_append]
      simp [attr_bytes]
    have hfinish : ∀ r, after_loop o.debug directory body_filename body_pref r
        = after_loop o directory body_filename body_pref r := fun r =>
      finish_file_debug o directory body_filename body_pref r.2
    rw [exec_parse_file] at hquiet ⊢
    rw [exec_parse_file, fold_debug o directory as hall]
    generalize exec (as.foldlM (fun s x => lift (attr_gate o x.1 x.2)
      >>= fun _ => parse_attr o directory x.1 s) {}) w = folded at hquiet ⊢
    obtain ⟨e | st, w₁⟩ := folded
    · cases hquiet
    · simp only at hquiet ⊢
      by_cases hne : tail = []
      · subst hne
        rw [attr_loop_end_of_input, attr_loop_end_of_input]
        exact congrArg (fun x => exec x w₁) (hfinish _)
      · by_cases hcruft : is_stdin = false ∧ tail.length < MINIMUM_ATTR_LENGTH
        · obtain ⟨rfl, hlt⟩ := hcruft
          have hpos := List.length_pos_iff.mpr hne
          rw [attr_loop_cruft o _ hpos hlt, attr_loop_cruft o.debug _ hpos hlt]
          exact congrArg (fun x => exec x w₁) (hfinish _)
        · -- bytes that are no attribute stop the quiet run
          have hleft : is_stdin = true ∨ MINIMUM_ATTR_LENGTH ≤ tail.length := by
            cases is_stdin with
            | true => exact .inl rfl
            | false =>
              right
              by_contra hlt
              exact hcruft ⟨rfl, Nat.lt_of_not_le hlt⟩
          obtain ⟨e, -, hstop⟩ := attr_loop_no_attr o (parse_attr o directory) hne htail is_stdin hleft st
          rw [hstop] at hquiet
          cases hquiet

end Runs

/-- **`--debug` and extraction.** Let a run return normally. If no attribute of its stream
fails a check of `attr_dump`, and none is too short for what `attr_dump` reads of it, the
run with `--debug` returns with the same status, after the same calls, with the same files
on the disk. If an attribute fails a check, the run with `--debug` stops. -/
theorem parse_file_debug (o : Options) (directory : Option (List UInt8))
    (body_filename body_pref bs : List UInt8) (is_stdin : Bool) (w : World) {status : ℕ}
    (hquiet : (exec (parse_file o directory body_filename body_pref
      { rest := bs, is_stdin := is_stdin }) w).1 = .ok status) :
    ((∀ attr, InStream bs attr → ¬ Refused o attr ∧ ¬ Overread attr) →
      let quiet := exec (parse_file o directory body_filename body_pref
        { rest := bs, is_stdin := is_stdin }) w
      let debug := exec (parse_file o.debug directory body_filename body_pref
        { rest := bs, is_stdin := is_stdin }) w
      debug.1 = .ok status ∧ debug.2.calls = quiet.2.calls ∧ debug.2.files = quiet.2.files)
    ∧ ∀ attr, InStream bs attr → Refused o attr →
      ∃ e, (exec (parse_file o.debug directory body_filename body_pref
        { rest := bs, is_stdin := is_stdin }) w).1 = .error e := by
  refine ⟨?_, ?_⟩
  · intro hclean
    have hsame := parse_file_dumped directory body_filename body_pref
      (fun attr hin => attr_dump_ok (hclean attr hin).1 (hclean attr hin).2) is_stdin hquiet
    refine ⟨?_, ?_, ?_⟩
    · rw [hsame]
      exact hquiet
    · rw [hsame]
    · rw [hsame]
  · intro attr hin href
    exact parse_file_refused directory body_filename body_pref hin href is_stdin w

/-- Two groups return under no option. -/
theorem parse_file_debug_witness :
    ((∀ attr, InStream (stream 0 two_groups) attr → ¬ Refused {} attr ∧ ¬ Overread attr) →
      let quiet := exec (parse_file {} none [] [] { rest := stream 0 two_groups }) {}
      let debug := exec (parse_file (Options.debug {}) none [] [] { rest := stream 0 two_groups }) {}
      debug.1 = .ok 0 ∧ debug.2.calls = quiet.2.calls ∧ debug.2.files = quiet.2.files)
    ∧ ∀ attr, InStream (stream 0 two_groups) attr → Refused {} attr →
      ∃ e, (exec (parse_file (Options.debug {}) none [] [] { rest := stream 0 two_groups }) {}).1
        = .error e := by
  have hquiet : (exec (parse_file {} none [] [] { rest := stream 0 two_groups }) {}).1 = .ok 0 := by
    decide +kernel
  exact parse_file_debug {} none [] [] (stream 0 two_groups) false {} hquiet

theorem priority_fits : ([7] : List UInt8).length < 2 ^ 32 := by decide

/-- A short with one byte: ignored in a quiet run, fatal under `--debug`. -/
def short_priority : List (Attr × UInt16) :=
  ([⟨.LVL_MESSAGE, szSHORT, 0x800d, [7], priority_fits⟩] : List Attr).map
    fun attr => (attr, byte_sum attr.data)

theorem parse_file_debug_stops :
    ¬ ∀ (o : Options) (directory : Option (List UInt8)) (body_filename body_pref bs : List UInt8)
      (w : World), o.dbg_out = false →
      (exec (parse_file o directory body_filename body_pref { rest := bs }) w).1 = .ok 0 →
      (exec (parse_file { o with dbg_out := true } directory body_filename body_pref { rest := bs })
        w).1 = .ok 0 := by
  intro h
  have hquiet : (exec (parse_file {} none [] [] { rest := stream 0 short_priority }) {}).1 = .ok 0 := by
    decide +kernel
  have hstops : (exec (parse_file { dbg_out := true } none [] []
      { rest := stream 0 short_priority }) {}).1 ≠ .ok 0 := by
    decide +kernel
  exact hstops (h {} none [] [] (stream 0 short_priority) {} rfl hquiet)

end Tnef
