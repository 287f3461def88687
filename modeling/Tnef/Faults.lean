/-
What can go wrong in memory.

A run without `--save-body` reads and writes inside its blocks, whatever its input looks like,
but for a handful of defects, and `parse_file_fault_iff` lists them: it goes wrong exactly when
it gets to a property list that goes on behind its end, to a stored RTF body that declares more
bytes than there are, to an attribute that `--debug` dumps past its end, or to a record that
cannot be written (`WriteFaults`). Every other read and copy on the way, the names and the
paths made of them are inside their blocks, and no length overflows an `int`.
-/
import Tnef.Debug
import Tnef.FileStrings
import Tnef.Interleaving
import Tnef.MapiForm
import Tnef.MapiSafe
import Tnef.WriteFaults

set_option autoImplicit false

namespace Tnef

open ExceptRules Stateful LittleEndian Layout Slice

/-! ## Adding to a record -/

/-- The property list of the attribute goes on with a GUID property behind its end. -/
def CutList (o : Options) (attr : Attr) : Prop :=
  ∃ (count : UInt32) (as : List MAPI_Attr) (j : ℕ), At attr.data 0 (le32 count)
    ∧ Announced o attr.len count ∧ as.length < count.toNat
    ∧ Chain (PropertyAt o attr.data) 4 as j ∧ CutClsid o attr.data j

/-- A list that is not announced stops the program before any property is read. -/
theorem mapi_attr_read_unannounced {o : Options} {attr : Attr} {count : UInt32}
    (hat : At attr.data 0 (le32 count)) (h : ¬ Announced o attr.len count) :
    mapi_attr_read o attr.len attr.buf ≠ .error .fault := by
  rw [mapi_attr_read_attr, mapi_attr_read]
  refine bind_ne_error (assert_ne_fault _) fun _ hlen => ?_
  rw [GETINT32_of_at hat, ok_bind]
  refine bind_ne_error (assert_ne_fault _) fun _ hcount => ?_
  refine bind_ne_error (checked_xmalloc_ne_fault _ _ _ _) fun r hgrant => ?_
  obtain ⟨hadm, -⟩ := (checked_xmalloc_eq_ok (attrs_size_lt _)).mp hgrant
  exact absurd ⟨assert_eq_ok.mp hlen, assert_eq_ok.mp hcount, hadm⟩ h

theorem mapi_attr_read_fault_iff (o : Options) (attr : Attr) :
    mapi_attr_read o attr.len attr.buf = .error .fault ↔ CutList o attr := by
  have hdata : attr.data.length < 2 ^ 64 := lt_trans attr.fits (by decide)
  by_cases hlen : 4 < attr.len
  · obtain ⟨count, -, hat⟩ := @GETINT32_of_le attr.data 0 (by unfold Attr.len at hlen; omega)
    have huniq : ∀ c : UInt32, At attr.data 0 (le32 c) → c = count := fun c hc => at_le32_unique hc hat
    by_cases hannounced : Announced o attr.len count
    · rw [(mapi_attr_read_of_count o hat).1 hannounced]
      refine (return_attrs_fault_iff.trans (read_properties_fault_iff hdata _)).trans ?_
      constructor
      · rintro ⟨as, j, hlt, hchain, hcut⟩
        exact ⟨count, as, j, hat, hannounced, hlt, hchain, hcut⟩
      · rintro ⟨c, as, j, hc, -, hlt, hchain, hcut⟩
        obtain rfl := huniq c hc
        exact ⟨as, j, hlt, hchain, hcut⟩
    · refine iff_of_false (mapi_attr_read_unannounced hat hannounced) ?_
      rintro ⟨c, as, j, hc, hannounced', -⟩
      obtain rfl := huniq c hc
      exact hannounced hannounced'
  · have hstop : mapi_attr_read o attr.len attr.buf = .error .assertion := by
      rw [mapi_attr_read, assert_eq_error.mpr ⟨hlen, rfl⟩, error_bind]
    rw [hstop]
    refine iff_of_false (fun h => by cases h) ?_
    rintro ⟨count, as, j, -, hannounced, -⟩
    exact hlen hannounced.long

section Add

variable {o : Options} {n : ℕ}

theorem copy_len_ne_fault {len : ℕ} {b : Buffer} (h : len ≤ b.size) :
    copy_len o len b ≠ .error .fault := by
  unfold copy_len
  rw [Buffer.copy_of_le h]
  exact bind_ne_error (checked_xmalloc_ne_fault _ _ _ _) fun _ _ => by simp

theorem strdup_text_length (s : List UInt8) : (strdup s).text.length ≤ s.length := by
  rw [Buffer.text, strdup, Buffer.full_bytes, takeWhile_terminated]
  exact (List.takeWhile_sublist _).length_le

/-- A string property brings its bytes, converted and with a terminator behind them. -/
theorem string_value {data : List UInt8} (hdata : data.length < 2 ^ 64) {i j : ℕ} {a : MAPI_Attr}
    (ha : PropertyAt o data i a j) (htype : a.type = szMAPI_STRING ∨ a.type = szMAPI_UNICODE_STRING) :
    ∃ len b, first_value a = .ok (len, b) ∧ len ≤ b.size ∧ b.Terminated
      ∧ b.text.length ≤ 2 * data.length := by
  obtain ⟨b, hfirst, hbytes, hle⟩ :=
    property_first_value hdata ((read_property_eq_ok hdata).mpr ha) htype
  refine ⟨_, b, hfirst, hle, ?_, ?_⟩
  · rw [Buffer.Terminated, hbytes]
    simp
  · have hblock : ∀ k, (block_at data k).length ≤ data.length := by
      intro k
      unfold block_at
      split
      · exact Nat.zero_le _
      · exact (List.length_take_le' _ _).trans (List.drop_sublist _ _).length_le
    have hconverted : (property_string o data i a).converted.length ≤ 2 * data.length := by
      have hunits := utf8_units_length_le (property_string o data i a).bytes
      have hlen : (property_string o data i a).bytes.length ≤ data.length := hblock _
      unfold Carried.converted
      split_ifs <;> omega
    rw [Buffer.text, hbytes, takeWhile_terminated]
    exact (List.takeWhile_sublist _).length_le.trans hconverted

theorem file_add_mapi_attr_avoids {data : List UInt8} (hdata : data.length < 2 ^ 64)
    (hn : 2 * data.length ≤ n) {i j : ℕ} {a : MAPI_Attr} (ha : PropertyAt o data i a j) {file : File}
    (hfile : InOrder o n file) : Avoids .fault (InOrder o n) (file_add_mapi_attr o file a) := by
  refine ⟨?_, fun file' h => ⟨file_add_mapi_attr_ready ha hfile.ready h, ?_⟩⟩
  · unfold file_add_mapi_attr
    split_ifs
    · refine bind_ne_error (assert_ne_fault _) fun _ htype => ?_
      obtain ⟨len, b, hfirst, -, hterminated, -⟩ := string_value hdata ha (assert_eq_ok.mp htype)
      simp [hfirst, c_str_of_terminated hterminated]
    · refine bind_ne_error (assert_ne_fault _) fun _ htype => ?_
      obtain ⟨hcount, hblocks⟩ := ha.blocks (assert_eq_ok.mp htype)
      cases hvalues : a.values with
      | nil =>
        rw [hvalues] at hcount
        contradiction
      | cons v vs =>
        obtain ⟨bs, rfl⟩ := hblocks v (by rw [hvalues]; exact List.mem_cons_self ..)
        simp only [first_value, hvalues, ok_bind]
        exact bind_ne_error (copy_len_ne_fault (by simp)) fun _ _ => by simp
    · refine bind_ne_error (assert_ne_fault _) fun _ htype => ?_
      obtain ⟨len, b, hfirst, hle, -, -⟩ := string_value hdata ha (assert_eq_ok.mp htype)
      simp only [hfirst, ok_bind]
      exact bind_ne_error (copy_len_ne_fault hle) fun _ _ => by simp
    · refine bind_ne_error (assert_ne_fault _) fun _ htype => ?_
      obtain ⟨len, b, hfirst, hle, -, -⟩ := string_value hdata ha (assert_eq_ok.mp htype)
      simp only [hfirst, ok_bind]
      exact bind_ne_error (copy_len_ne_fault hle) fun _ _ => by simp
    · simp
    · simp
  · -- only the long file name sets the name
    unfold file_add_mapi_attr at h
    split_ifs at h
    · simp only [bind_eq_ok, assert_eq_ok, pure_eq_ok, Except.ok.injEq] at h
      obtain ⟨_, htype, ⟨len, b⟩, hfirst, text, htext, rfl⟩ := h
      obtain ⟨len', b', hfirst', -, hterminated, hle⟩ := string_value hdata ha htype
      rw [hfirst] at hfirst'
      cases hfirst'
      rw [c_str_of_terminated hterminated] at htext
      cases htext
      rintro _ ⟨⟩
      exact ⟨strdup_terminated _, (strdup_text_length _).trans (hle.trans hn)⟩
    · simp only [bind_eq_ok, pure_eq_ok, Except.ok.injEq] at h
      obtain ⟨_, -, _, -, _, -, rfl⟩ := h
      exact hfile.named
    · simp only [bind_eq_ok, pure_eq_ok, Except.ok.injEq] at h
      obtain ⟨_, -, _, -, _, -, rfl⟩ := h
      exact hfile.named
    · simp only [bind_eq_ok, pure_eq_ok, Except.ok.injEq] at h
      obtain ⟨_, -, _, -, _, -, rfl⟩ := h
      exact hfile.named
    · cases h
      exact hfile.named
    · cases h
      exact hfile.named

theorem file_add_mapi_attrs_avoids {data : List UInt8} (hdata : data.length < 2 ^ 64)
    (hn : 2 * data.length ≤ n) (as : List MAPI_Attr) : ∀ {file : File},
    (∀ a ∈ as, ∃ i j, PropertyAt o data i a j) → InOrder o n file →
    Avoids .fault (InOrder o n) (file_add_mapi_attrs o file (as.map some ++ [none])) := by
  induction as with
  | nil =>
    intro file _ hfile
    exact avoids_ok.mpr hfile
  | cons a as ih =>
    intro file has hfile
    obtain ⟨i, j, ha⟩ := has a (List.mem_cons_self ..)
    have hone := file_add_mapi_attr_avoids hdata hn ha hfile
    rw [List.map_cons, List.cons_append, file_add_mapi_attrs]
    exact Avoids.bind hone.1 fun file' hfile' =>
      ih (fun b hb => has b (List.mem_cons_of_mem _ hb)) (hone.2 file' hfile')

theorem copy_date_ne_fault (attr : Attr) : copy_date_from_attr attr ≠ .error .fault := by
  unfold copy_date_from_attr
  refine bind_ne_error (assert_ne_fault _) fun _ _ => ?_
  refine bind_ne_error (assert_ne_fault _) fun _ hlen => ?_
  obtain ⟨dt, hdt, -⟩ := date_read_dow (assert_eq_ok.mp hlen)
  rw [hdt]
  simp

/-- **An attribute is added to a record in order**, which stays in order, unless it is a
property list that goes on behind its end. -/
theorem file_add_attr_fault_iff {attr : Attr} (hn : 2 * attr.len ≤ n) {file : File}
    (hfile : InOrder o n file) :
    (file_add_attr o file attr = .error .fault ↔ attr.name = attATTACHMENT ∧ CutList o attr)
      ∧ ∀ file', file_add_attr o file attr = .ok file' → InOrder o n file' := by
  have hdata : attr.data.length < 2 ^ 64 := lt_trans attr.fits (by decide)
  unfold file_add_attr
  split_ifs with hdate hlist htitle hblock
  · refine ⟨?_, ?_⟩
    · refine iff_of_false (bind_ne_error (copy_date_ne_fault attr) fun _ _ => by simp) ?_
      rintro ⟨hname, -⟩
      rw [hdate] at hname
      exact absurd hname (by decide)
    · intro file' h
      obtain ⟨dt, -, h⟩ := bind_eq_ok.mp h
      cases h
      exact ⟨hfile.ready.of_same rfl rfl rfl, hfile.named⟩
  · rw [← mapi_attr_read_fault_iff]
    cases hread : mapi_attr_read o attr.len attr.buf with
    | error e => simp [hlist]
    | ok attrs =>
      rw [ok_bind]
      cases attrs with
      | none =>
        refine ⟨by simp, ?_⟩
        rintro file' ⟨⟩
        exact hfile
      | some attrs =>
        obtain ⟨as, rfl, has⟩ := mapi_attr_read_properties hread
        have hadd := file_add_mapi_attrs_avoids hdata hn as has hfile
        exact ⟨iff_of_false hadd.1 (by simp), hadd.2⟩
  · obtain ⟨title, htext⟩ := @c_str_at_buf attr 0 (Nat.zero_le _)
    rw [htext, ok_bind]
    refine ⟨iff_of_false (by simp) fun h => absurd h.1 hlist, ?_⟩
    rintro file' ⟨⟩
    refine ⟨hfile.ready.of_same rfl rfl rfl, ?_⟩
    rintro _ ⟨⟩
    refine ⟨strdup_terminated _, (strdup_text_length _).trans ?_⟩
    rw [attr_c_str_eq_ok htext]
    have hle : (attr.data.takeWhile (· ≠ 0)).length ≤ attr.len := (List.takeWhile_sublist _).length_le
    omega
  · have hlen : attr.len ≤ (Buffer.full attr.buf).size := by
      simp [Attr.buf, Attr.len]
    refine ⟨iff_of_false (bind_ne_error (copy_len_ne_fault hlen) fun _ _ => by simp)
      fun h => absurd h.1 hlist, ?_⟩
    intro file' h
    have hready : file_add_attr o file attr = .ok file' := by
      rw [file_add_attr, if_neg hdate, if_neg hlist, if_neg htitle, if_pos hblock]
      exact h
    refine ⟨file_add_attr_ready hfile.ready hready, ?_⟩
    obtain ⟨copy, -, h⟩ := bind_eq_ok.mp h
    cases h
    exact hfile.named
  · refine ⟨iff_of_false (by simp) fun h => absurd h.1 hlist, ?_⟩
    rintro file' ⟨⟩
    exact hfile

end Add

/-! ## Adding to the bodies -/

section Bodies

variable {o : Options}

theorem get_text_data_ne_fault (attr : Attr) : get_text_data o attr ≠ .error .fault := by
  have hlen : attr.len ≤ (Buffer.full attr.buf).size := by
    simp [Attr.buf, Attr.len]
  unfold get_text_data
  rw [Buffer.copy_of_le hlen]
  exact bind_ne_error (checked_xcalloc_ne_fault _ _ _ _) fun _ _ => by simp

theorem xmalloc_ne_fault (num size extra : ℕ) : xmalloc num size extra ≠ .error .fault := by
  intro h
  cases xmalloc_stopped h

theorem get_html_data_ne_fault {a : MAPI_Attr} (htype : a.type = szMAPI_BINARY)
    (hblocks : ∀ v ∈ a.values, ∃ bs, v = ⟨bs.length, .buf (.full (bs ++ [0]))⟩) :
    get_html_data o a ≠ .error .fault := by
  unfold get_html_data
  refine bind_ne_error (xmalloc_ne_fault _ _ _) fun _ _ => bind_ne_error ?_ fun _ _ => by simp
  intro hstop
  obtain ⟨vs, v, vs', hvalues, -, hv⟩ := mapM_eq_error.mp hstop
  have hmem : v ∈ a.values.take a.num_values := by
    rw [hvalues]
    simp
  obtain ⟨bs, rfl⟩ := hblocks v (List.mem_of_mem_take hmem)
  rw [if_pos htype] at hv
  unfold html_value at hv
  refine absurd hv (bind_ne_error (xmalloc_ne_fault _ _ _) fun _ _ => ?_)
  refine bind_ne_error (checked_xcalloc_ne_fault _ _ _ _) fun _ _ => ?_
  rw [Buffer.copy_of_le (by simp)]
  simp

/-- A stored body that declares more bytes than there are behind the first word of the value,
the terminator behind it counted. -/
def StoredBeyond (o : Options) (bs : List UInt8) : Prop :=
  16 < bs.length ∧ ∃ c n k, HeaderWords bs c n rtf_uncompressed_magic k ∧ c.toNat + 4 = bs.length
    ∧ o.Admits n.toNat ∧ bs.length + 1 < 4 + n.toNat

/-- Compressed values are decoded inside their blocks. -/
theorem compressed_ne_fault {len : ℕ} {data : List UInt8} (hlen : 16 ≤ len)
    (hle : len ≤ data.length) (n k : UInt32) : (do
      let payload ← rd_block data 16 (len - 16)
      if k = generate_crc payload then
        let dest ← decompress_rtf_data o (data.drop 16) (len - 16) n.toNat
        return (n.toNat, Buffer.full dest)
      else
        let _ ← checked_xcalloc o 4 1 0
        return (0, .full [0, 0, 0, 0]) : M (ℕ × Buffer)) ≠ .error .fault := by
  refine bind_ne_error (rd_block_ne_fault_iff.mpr (by omega)) fun payload _ => ?_
  split_ifs
  · have hsrc : len - 16 ≤ (data.drop 16).length := by
      rw [List.length_drop]
      omega
    exact bind_ne_error (decompress_rtf_data_safe o n.toNat hsrc).1 fun _ _ => by simp
  · exact bind_ne_error (checked_xcalloc_ne_fault _ _ _ _) fun _ _ => by simp

theorem is_rtf_data_returns {bs : List UInt8} (h : 12 < bs.length) :
    ∃ known, is_rtf_data (bs ++ [0]) = .ok known := by
  have hlen : (bs ++ [0]).length = bs.length + 1 := by rw [List.length_append, List.length_singleton]
  obtain ⟨c, hc, -⟩ := @GETINT32_of_le (bs ++ [0]) 0 (by omega)
  obtain ⟨n, hn, -⟩ := @GETINT32_of_le (bs ++ [0]) 4 (by omega)
  obtain ⟨m, hm, -⟩ := @GETINT32_of_le (bs ++ [0]) 8 (by omega)
  rw [is_rtf_data, hc, hn, hm]
  exact ⟨_, rfl⟩

/-- **A value goes wrong exactly when it is such a body.** -/
theorem rtf_value_fault_iff (bs : List UInt8) :
    rtf_value o ⟨bs.length, .buf (.full (bs ++ [0]))⟩ = .error .fault ↔ StoredBeyond o bs := by
  have hdata : (bs ++ [0]).length = bs.length + 1 := by rw [List.length_append, List.length_singleton]
  by_cases hlen : 12 < bs.length
  · obtain ⟨known, hknown⟩ := is_rtf_data_returns hlen
    cases known with
    | false =>
      have hrun : rtf_value o ⟨bs.length, .buf (.full (bs ++ [0]))⟩ = .ok none := by
        simp only [rtf_value, Buffer.full_bytes, hknown, ok_bind]
        exact if_pos hlen
      rw [hrun]
      refine iff_of_false (fun h => by cases h) ?_
      rintro ⟨-, c, n, k, hw, -⟩
      rw [is_rtf_data_of_words (hw.append_right [0])] at hknown
      simp at hknown
    | true =>
      have hbind : rtf_value o ⟨bs.length, .buf (.full (bs ++ [0]))⟩ = .error .fault
          ↔ get_rtf_data_from_buf o bs.length (bs ++ [0]) = .error .fault := by
        rw [rtf_value_eq o hlen hknown]
        cases get_rtf_data_from_buf o bs.length (bs ++ [0]) with
        | error e => rw [error_bind, Except.error.injEq, Except.error.injEq]
        | ok r => simp
      rw [hbind]
      by_cases hheader : 16 < bs.length ∧ ∃ c : UInt32, At (bs ++ [0]) 0 (le32 c) ∧ c.toNat + 4 = bs.length
      · obtain ⟨hlong, c', hc', hsize⟩ := hheader
        obtain ⟨c, n, m, k, hw⟩ := exists_headerWords hlong.le
        obtain rfl : c = c' := at_le32_unique (hw.append_right [0]).compr hc'
        rw [get_rtf_data_from_buf_eq o (hw.append_right [0]) hlong hsize]
        have hmagic : m = rtf_uncompressed_magic ∨ m = rtf_compressed_magic := by
          rw [is_rtf_data_of_words (hw.append_right [0])] at hknown
          exact of_decide_eq_true (Except.ok.inj hknown)
        rcases hmagic with rfl | rfl
        · have hlt : n.toNat < 2 ^ 32 := n.toNat_lt
          rw [if_pos rfl, checked_xcalloc_of_lt o (by omega), Nat.mul_one]
          by_cases hadm : o.Admits n.toNat
          · rw [if_pos hadm, ok_bind]
            by_cases hin : 4 + n.toNat ≤ (bs ++ [0]).length
            · have hread := rd_block_ne_fault_iff.mpr hin
              refine iff_of_false (bind_ne_error hread fun _ _ => by simp) ?_
              rintro ⟨-, c', n', k', hw', -, -, hbeyond⟩
              obtain rfl := at_le32_unique hw.uncompr hw'.uncompr
              omega
            · rw [rd_block, if_neg hin, error_bind]
              exact iff_of_true rfl ⟨hlong, c, n, k, hw, hsize, hadm, by omega⟩
          · rw [if_neg hadm, error_bind]
            refine iff_of_false (fun h => by cases h) ?_
            rintro ⟨-, c', n', k', hw', -, hadm', -⟩
            obtain rfl := at_le32_unique hw.uncompr hw'.uncompr
            exact hadm hadm'
        · rw [if_neg (by decide), if_pos rfl]
          refine iff_of_false (compressed_ne_fault hlong.le (by omega) n k) ?_
          rintro ⟨-, c', n', k', hw', -⟩
          exact absurd (at_le32_unique hw.magic hw'.magic) (by decide)
      · rw [get_rtf_data_from_buf_header o (by omega) hheader]
        refine iff_of_false (fun h => by cases h) ?_
        rintro ⟨hlong, c, n, k, hw, hsize, -⟩
        exact hheader ⟨hlong, c, hw.compr.append_right _, hsize⟩
  · have hrun : rtf_value o ⟨bs.length, .buf (.full (bs ++ [0]))⟩ = .ok none := if_neg hlen
    rw [hrun]
    refine iff_of_false (fun h => by cases h) fun h => ?_
    have hlong := h.1
    omega

/-- A compressed body of which a value goes wrong, the values in front of it having been
read. -/
def RtfBeyond (o : Options) (a : MAPI_Attr) : Prop :=
  (∃ r, checked_xcalloc o (a.num_values + 1) sizeof_ptr 0 = .ok r)
    ∧ ∃ vs bs vs', a.values = vs ++ ⟨bs.length, .buf (.full (bs ++ [0]))⟩ :: vs'
      ∧ (∀ v ∈ vs, ∃ d, rtf_value o v = .ok d) ∧ StoredBeyond o bs

theorem get_rtf_data_fault_iff {data : List UInt8} {i j : ℕ} {a : MAPI_Attr}
    (ha : PropertyAt o data i a j) (htype : a.type = szMAPI_BINARY) :
    get_rtf_data o a = .error .fault ↔ RtfBeyond o a := by
  obtain ⟨hcount, hblocks⟩ := ha.blocks (.inl htype)
  have htake : a.values.take a.num_values = a.values := by rw [hcount, List.take_length]
  unfold get_rtf_data RtfBeyond
  rw [htake]
  constructor
  · intro h
    rcases bind_eq_error.mp h with hstop | ⟨r, hgrant, h⟩
    · exact absurd hstop (checked_xcalloc_ne_fault _ _ _ _)
    · refine ⟨⟨r, hgrant⟩, ?_⟩
      rcases bind_eq_error.mp h with hstop | ⟨body, -, hpure⟩
      · obtain ⟨vs, v, vs', hvalues, hvs, hv⟩ := mapM_eq_error.mp hstop
        obtain ⟨bs, rfl⟩ := hblocks v (by rw [hvalues]; simp)
        exact ⟨vs, bs, vs', hvalues, hvs, (rtf_value_fault_iff bs).mp hv⟩
      · cases hpure
  · rintro ⟨⟨r, hgrant⟩, vs, bs, vs', hvalues, hvs, hbeyond⟩
    have hstop : a.values.mapM (rtf_value o) = .error .fault :=
      mapM_eq_error.mpr ⟨vs, _, vs', hvalues, hvs, (rtf_value_fault_iff bs).mpr hbeyond⟩
    rw [hgrant, ok_bind, hstop, error_bind]

/-- How a property of the message stops, whatever bodies there are. -/
theorem message_property_eq_error {body : MessageBody} {a : MAPI_Attr} {e : Stop} :
    message_property o body a = .error e ↔ a.type = szMAPI_BINARY
      ∧ ((a.name = MAPI_BODY_HTML ∧ get_html_data o a = .error e)
        ∨ (a.name = MAPI_RTF_COMPRESSED ∧ get_rtf_data o a = .error e)) := by
  have hbind : ∀ {α β : Type} (x : M α) (f : α → β), (x >>= fun y => pure (f y)) = .error e ↔ x = .error e := by
    intro α β x f
    cases x <;> simp
  unfold message_property
  split_ifs with hhtml hrtf
  · rw [hbind]
    refine ⟨fun h => ⟨hhtml.1, .inl ⟨hhtml.2, h⟩⟩, ?_⟩
    rintro ⟨-, ⟨-, h⟩ | ⟨hname, -⟩⟩
    · exact h
    · exact absurd (hhtml.2.symm.trans hname) (by decide)
  · rw [hbind]
    refine ⟨fun h => ⟨hrtf.1, .inr ⟨hrtf.2, h⟩⟩, ?_⟩
    rintro ⟨-, ⟨hname, -⟩ | ⟨-, h⟩⟩
    · exact absurd (hrtf.2.symm.trans hname) (by decide)
    · exact h
  · refine iff_of_false (fun h => by cases h) ?_
    rintro ⟨htype, ⟨hname, -⟩ | ⟨hname, -⟩⟩
    · exact hhtml ⟨htype, hname⟩
    · exact hrtf ⟨htype, hname⟩

/-- Whether a property is read has nothing to do with the bodies there are. -/
theorem message_property_returns (body : MessageBody) (a : MAPI_Attr) :
    (∃ body', message_property o body a = .ok body') ↔ ∃ body', message_property o {} a = .ok body' := by
  have hstops : ∀ x : M MessageBody, (∃ b, x = .ok b) ↔ ¬ ∃ e, x = .error e := by
    intro x
    cases x <;> simp
  rw [hstops, hstops]
  simp only [message_property_eq_error]

/-- What has been collected before does not matter for how a property fails. -/
theorem message_property_error_congr (body body' : MessageBody) {a : MAPI_Attr} {e : Stop} :
    message_property o body a = .error e ↔ message_property o body' a = .error e :=
  message_property_eq_error.trans message_property_eq_error.symm

theorem message_properties_eq_error (as : List MAPI_Attr) : ∀ {body : MessageBody} {e : Stop},
    message_properties o body (as.map some ++ [none]) = .error e
      ↔ ∃ before a after, as = before ++ a :: after
        ∧ (∀ b ∈ before, ∃ body', message_property o {} b = .ok body')
        ∧ message_property o {} a = .error e := by
  induction as with
  | nil =>
    intro body e
    simp [message_properties]
  | cons a as ih =>
    intro body e
    rw [List.map_cons, List.cons_append, message_properties, bind_eq_error]
    constructor
    · rintro (hstop | ⟨body', hone, hrest⟩)
      · have hempty := (message_property_error_congr body {}).mp hstop
        exact ⟨[], a, as, rfl, by simp, hempty⟩
      · obtain ⟨before, a', after, rfl, hbefore, hstop⟩ := ih.mp hrest
        have hreturns := (message_property_returns body a).mp ⟨body', hone⟩
        exact ⟨a :: before, a', after, rfl, List.forall_mem_cons.mpr ⟨hreturns, hbefore⟩, hstop⟩
    · rintro ⟨before, a', after, hsplit, hbefore, hstop⟩
      rcases List.cons_eq_append_iff.mp hsplit with ⟨rfl, hcons⟩ | ⟨before, rfl, rfl⟩
      · cases hcons
        exact .inl ((message_property_error_congr {} body).mp hstop)
      · obtain ⟨hone, hbefore⟩ := List.forall_mem_cons.mp hbefore
        obtain ⟨body', hbody'⟩ := (message_property_returns body a).mpr hone
        exact .inr ⟨body', hbody', ih.mpr ⟨before, a', after, rfl, hbefore, hstop⟩⟩

/-- A property list of the message with a compressed body that goes wrong, the properties in
front of it having been read. -/
def BeyondList (o : Options) (attr : Attr) : Prop :=
  ∃ before a after, mapi_attr_read o attr.len attr.buf
      = .ok (some ((before ++ a :: after).map some ++ [none]))
    ∧ (∀ b ∈ before, ∃ body, message_property o {} b = .ok body)
    ∧ a.type = szMAPI_BINARY ∧ a.name = MAPI_RTF_COMPRESSED ∧ RtfBeyond o a

/-- **When an attribute of the message goes wrong.** -/
theorem message_attr_fault_iff (attr : Attr) (body : MessageBody) :
    message_attr o body attr = .error .fault
      ↔ attr.name = attMAPIPROPS ∧ (CutList o attr ∨ BeyondList o attr) := by
  unfold message_attr
  split_ifs with hbody hprops
  · refine iff_of_false (bind_ne_error (get_text_data_ne_fault attr) fun _ _ => by simp) ?_
    rintro ⟨hname, -⟩
    exact absurd (hbody.symm.trans hname) (by decide)
  · rw [← mapi_attr_read_fault_iff, and_iff_right hprops]
    unfold BeyondList
    cases hread : mapi_attr_read o attr.len attr.buf with
    | error e => simp
    | ok attrs =>
      rw [ok_bind]
      cases attrs with
      | none => simp
      | some attrs =>
        obtain ⟨as, rfl, has⟩ := mapi_attr_read_properties hread
        refine (message_properties_eq_error as).trans ?_
        have hfault : ∀ a ∈ as, (message_property o {} a = .error .fault
            ↔ a.type = szMAPI_BINARY ∧ a.name = MAPI_RTF_COMPRESSED ∧ RtfBeyond o a) := by
          intro a hmem
          obtain ⟨i, j, ha⟩ := has a hmem
          rw [message_property_eq_error]
          refine and_congr_right fun htype => ?_
          rw [get_rtf_data_fault_iff ha htype, or_iff_right]
          exact fun h => get_html_data_ne_fault htype (ha.blocks (.inl htype)).2 h.2
        constructor
        · rintro ⟨before, a, after, rfl, hbefore, hstop⟩
          exact .inr ⟨before, a, after, rfl, hbefore, (hfault a (by simp)).mp hstop⟩
        · rintro (h | ⟨before, a, after, hsame, hbefore, hstop⟩)
          · cases h
          · obtain rfl : as = before ++ a :: after := by
              simp only [Except.ok.injEq, Option.some.injEq, List.append_cancel_right_eq] at hsame
              exact List.map_injective_iff.mpr (Option.some_injective _) hsame
            exact ⟨before, a, after, rfl, hbefore, (hfault a (by simp)).mpr hstop⟩
  · exact iff_of_false (fun h => by cases h) fun h => hprops h.1

end Bodies

/-! ## One turn -/

/-- A property list that goes wrong: one of the message, or one of an attachment that has
begun. -/
def Harmful (o : Options) (pending : Bool) (attr : Attr) : Prop :=
  match attr.lvl_type with
  | .LVL_MESSAGE => attr.name = attMAPIPROPS ∧ (CutList o attr ∨ BeyondList o attr)
  | .LVL_ATTACHMENT => pending = true ∧ attr.name = attATTACHMENT ∧ CutList o attr

/-- The attribute passes what comes before the dump, and the dump goes on behind its end. -/
structure DumpedPast (o : Options) (attr : Attr) (checksum : UInt16) : Prop where
  debug : o.dbg_out = true
  overread : Overread attr
  granted : o.Admits sizeof_Attr ∧ o.Admits attr.len
  checked : check_checksum attr checksum = true ∨ o.checksum_ok = true

section Turn

variable {o : Options} {n : ℕ}

theorem attr_dump_fault_iff (attr : Attr) : attr_dump o attr = .error .fault ↔ Overread attr := by
  by_cases hover : Overread attr
  · exact iff_of_true (attr_dump_overread hover) hover
  · refine iff_of_false ?_ hover
    by_cases hrefused : Refused o attr
    · obtain ⟨e, he, hdump⟩ := attr_dump_refused hrefused
      rw [hdump]
      exact fun h => he (Except.error.inj h)
    · rw [attr_dump_ok hrefused hover]
      simp

theorem attr_gate_fault_iff (attr : Attr) (k : UInt16) :
    attr_gate o attr k = .error .fault ↔ DumpedPast o attr k := by
  have hlen : attr.len < 2 ^ 32 := attr.fits
  have hgate : attr_gate o attr k = checked_xcalloc o 1 sizeof_Attr 0
      >>= fun _ => checked_xcalloc o attr.len 1 1 >>= fun _ => attr_checks o attr k := rfl
  rw [hgate, checked_xcalloc_of_lt o (by decide), checked_xcalloc_of_lt o (by omega), Nat.mul_one,
    Nat.one_mul]
  by_cases hrecord : o.Admits sizeof_Attr
  · rw [if_pos hrecord, ok_bind]
    by_cases hdata : o.Admits attr.len
    · rw [if_pos hdata, ok_bind, attr_checks_eq]
      by_cases hcheck : check_checksum attr k = true ∨ o.checksum_ok = true
      · rw [if_pos hcheck]
        by_cases hdebug : o.dbg_out = true
        · rw [if_pos hdebug, attr_dump_fault_iff]
          exact ⟨fun h => ⟨hdebug, h, ⟨hrecord, hdata⟩, hcheck⟩, fun h => h.overread⟩
        · rw [if_neg hdebug]
          exact iff_of_false (fun h => by cases h) fun h => hdebug h.debug
      · rw [if_neg hcheck]
        exact iff_of_false (fun h => by cases h) fun h => hcheck h.checked
    · rw [if_neg hdata, error_bind]
      exact iff_of_false (fun h => by cases h) fun h => hdata h.granted.2
  · rw [if_neg hrecord, error_bind]
    exact iff_of_false (fun h => by cases h) fun h => hrecord h.granted.1

theorem getbuf_ne_fault (inp : Input) (n : ℕ) : getbuf inp n ≠ .error .fault := by
  unfold getbuf
  split_ifs <;> simp

theorem geti32_ne_fault (inp : Input) : geti32 inp ≠ .error .fault :=
  bind_ne_error (getbuf_ne_fault inp 4) fun r _ =>
    bind_ne_error (GETINT32_ne_fault r.1.2.ge) fun _ _ => by simp

theorem geti16_ne_fault (inp : Input) : geti16 inp ≠ .error .fault :=
  bind_ne_error (getbuf_ne_fault inp 2) fun r _ =>
    bind_ne_error (GETINT16_ne_fault r.1.2.ge) fun _ _ => by simp

theorem geti8_ne_fault (inp : Input) : geti8 inp ≠ .error .fault :=
  bind_ne_error (getbuf_ne_fault inp 1) fun r _ => by
    simp [rd_of_lt (show 0 < r.1.1.length by rw [r.1.2]; decide)]

theorem read_signature_ne_fault (inp : Input) : read_signature inp ≠ .error .fault := by
  unfold read_signature
  refine bind_ne_error (geti32_ne_fault inp) fun r _ => ?_
  simp only
  split_ifs
  · simp
  · exact bind_ne_error (geti16_ne_fault r.2) fun _ _ => by simp

/-- What is not an attribute is refused, and not by a fault. -/
theorem attr_read_ne_fault {inp : Input} (h : NoAttr inp.rest) : attr_read o inp ≠ .error .fault := by
  unfold attr_read
  refine bind_ne_error (checked_xcalloc_ne_fault _ _ _ _) fun _ _ => ?_
  refine bind_ne_error (geti8_ne_fault _) fun r₁ h₁ => bind_ne_error (assert_ne_fault _) fun _ hlvl => ?_
  refine bind_ne_error (geti32_ne_fault _) fun r₂ h₂ => bind_ne_error (geti32_ne_fault _) fun r₃ h₃ => ?_
  refine bind_ne_error (checked_xcalloc_ne_fault _ _ _ _) fun _ hgrant => ?_
  refine bind_ne_error (getbuf_ne_fault _ _) fun r₄ h₄ => bind_ne_error (geti16_ne_fault _) fun r₅ h₅ => ?_
  -- all of it has been read, so without checks it would be taken for an attribute
  exfalso
  have hlen : r₃.1.toNat < 2 ^ 32 := r₃.1.toNat_lt
  have hrecord : checked_xcalloc { checksum_ok := true } 1 sizeof_Attr 0 = .ok 32 := rfl
  have hblock : checked_xcalloc { checksum_ok := true } r₃.1.toNat 1 1 = .ok (r₃.1.toNat + 1) := by
    rw [checked_xcalloc_of_lt _ (by omega), if_pos (show Options.Admits _ _ from .inl rfl),
      Nat.mul_one]
  have hread : ∃ r, attr_read { checksum_ok := true } inp = .ok r := by
    simp only [attr_read, hrecord, h₁, hlvl, h₂, h₃, hblock, h₄, h₅, ok_bind, attr_checks_eq,
      or_true, if_true, Bool.false_eq_true, if_false]
    exact ⟨_, rfl⟩
  obtain ⟨r, hr⟩ := hread
  obtain ⟨k, hinp⟩ := attr_read_inv hr
  exact h r.1 k r.2.rest (congrArg Input.rest hinp)

/-- The pending record, where there is one, is in order. -/
def SoundFile (o : Options) (n : ℕ) (file : Option File) : Prop := ∀ f, file = some f → InOrder o n f

/-- What makes a turn of the loop go wrong: the dump, the record of the attachment that ends
here, or the attribute itself. -/
def TurnFaults (o : Options) (directory : Option (List UInt8)) (s : ParseState) (w : World)
    (attr : Attr) (k : UInt16) : Prop :=
  DumpedPast o attr k
    ∨ (attr_gate o attr k = .ok ()
      ∧ ((attr.name = attATTACHRENDDATA ∧ ∃ file, s.file = some file ∧ WriteFaults o directory w file)
        ∨ Harmful o s.file.isSome attr))

theorem add_attr_fault_iff {attr : Attr} (hn : 2 * attr.len ≤ n) {s : ParseState}
    (hs : SoundFile o n s.file) :
    (add_attr o attr s = .error .fault ↔ Harmful o s.file.isSome attr)
      ∧ ∀ s', add_attr o attr s = .ok s' → SoundFile o n s'.file := by
  unfold add_attr Harmful
  cases attr.lvl_type with
  | LVL_MESSAGE =>
    simp only
    rw [← message_attr_fault_iff attr s.body]
    cases message_attr o s.body attr with
    | error e => simp
    | ok body =>
      refine ⟨by simp, ?_⟩
      rintro s' ⟨⟩
      exact hs
  | LVL_ATTACHMENT =>
    simp only
    cases hfile : s.file with
    | none => simp
    | some file =>
      obtain ⟨hfault, hsound⟩ := file_add_attr_fault_iff hn (hs file hfile)
      simp only [Option.isSome_some, true_and, ← hfault]
      cases hadd : file_add_attr o file attr with
      | error e => simp
      | ok file' =>
        refine ⟨by simp, ?_⟩
        rintro s' ⟨⟩ f ⟨⟩
        exact hsound file' hadd

/-- Nothing goes wrong with the attribute that begins a file. -/
theorem not_harmful_begin {attr : Attr} (h : attr.name = attATTACHRENDDATA) (pending : Bool) :
    ¬ Harmful o pending attr := by
  unfold Harmful
  cases attr.lvl_type with
  | LVL_MESSAGE =>
    rintro ⟨hname, -⟩
    exact absurd (h.symm.trans hname) (by decide)
  | LVL_ATTACHMENT =>
    rintro ⟨-, hname, -⟩
    exact absurd (h.symm.trans hname) (by decide)

section Loop

variable {directory : Option (List UInt8)} (hn : 8 ≤ n)
  (hlen : (directory.getD []).length + 3 * n + 16 < 2 ^ 31)

include hn hlen

/-- The record in front is written, and an empty one takes its place. -/
theorem begin_file_fault_iff {file : Option File} (hfile : SoundFile o n file) (w : World) :
    ((exec (begin_file o directory file) w).1 = .error .fault
        ↔ ∃ f, file = some f ∧ WriteFaults o directory w f)
      ∧ ∀ file', (exec (begin_file o directory file) w).1 = .ok file' → SoundFile o n file' := by
  have hempty : SoundFile o n (some {}) := by
    rintro f ⟨⟩
    exact in_order_empty o n
  unfold begin_file
  cases file with
  | none =>
    simp only [reduceCtorEq, false_and, exists_false, iff_false]
    cases hgrant : checked_xcalloc o 1 sizeof_File 0 with
    | error e =>
      refine ⟨fun h => ?_, fun file' h => by cases h⟩
      rw [Except.error.inj h] at hgrant
      exact checked_xcalloc_ne_fault o 1 sizeof_File 0 hgrant
    | ok r =>
      refine ⟨fun h => (by cases h), ?_⟩
      intro file' h
      cases h
      exact hempty
  | some f =>
    have hwrite := file_write_fault_iff (hfile f rfl) hn hlen w
    simp only [Option.some.injEq, exists_eq_left']
    rw [exec_bind, ← hwrite]
    rcases exec (file_write o directory f) w with ⟨e | u, w'⟩
    · refine ⟨by simp, ?_⟩
      intro file' h
      cases h
    · refine ⟨by simp, ?_⟩
      intro file' h
      cases h
      exact hempty

/-- **One turn**: when it goes wrong, and that it leaves the pending record in order. -/
theorem turn_fault_iff {attr : Attr} (hattr : 2 * attr.len ≤ n) {s : ParseState}
    (hs : SoundFile o n s.file) (k : UInt16) (w : World) :
    ((exec (lift (attr_gate o attr k) >>= fun _ => parse_attr o directory attr s) w).1
        = .error .fault ↔ TurnFaults o directory s w attr k)
      ∧ ∀ s', (exec (lift (attr_gate o attr k) >>= fun _ => parse_attr o directory attr s) w).1
        = .ok s' → SoundFile o n s'.file := by
  unfold TurnFaults
  rw [← attr_gate_fault_iff]
  cases attr_gate o attr k with
  | error e =>
    have hrun : (exec (lift (.error e : M Unit) >>= fun _ => parse_attr o directory attr s) w).1
        = .error e := rfl
    rw [hrun]
    simp
  | ok u =>
    rw [lift_ok, pure_bind, parse_attr_begun]
    unfold begun
    by_cases hname : attr.name = attATTACHRENDDATA
    · obtain ⟨hfault, hsound⟩ := begin_file_fault_iff hn hlen hs w
      rw [if_pos hname, exec_bind]
      simp only [reduceCtorEq, false_or, true_and, hname, ← hfault, not_harmful_begin hname, or_false]
      rcases hbegin : exec (begin_file o directory s.file) w with ⟨e | file, w'⟩
      · simp
      · have hfile : SoundFile o n file := hsound file (by rw [hbegin])
        obtain ⟨hadd, hkeeps⟩ := add_attr_fault_iff hattr (s := { s with file := file }) hfile
        refine ⟨iff_of_false (fun h => ?_) (fun h => by cases h), fun s' h => hkeeps s' h⟩
        exact not_harmful_begin hname _ (hadd.mp h)
    · obtain ⟨hadd, hkeeps⟩ := add_attr_fault_iff hattr hs
      rw [if_neg hname, pure_bind]
      simp only [reduceCtorEq, false_or, true_and, hname, false_and]
      exact ⟨hadd, hkeeps⟩

/-- **Any number of turns** leave the pending record in order. -/
theorem turns_sound (as : List (Attr × UInt16)) : ∀ {s s' : ParseState} {w w' : World},
    (∀ x ∈ as, 2 * x.1.len ≤ n) → SoundFile o n s.file →
    exec (as.foldlM (fun s x => lift (attr_gate o x.1 x.2) >>= fun _ => parse_attr o directory x.1 s) s) w
      = (.ok s', w') → SoundFile o n s'.file := by
  induction as with
  | nil =>
    intro s s' w w' _ hs h
    cases h
    exact hs
  | cons x as ih =>
    intro s s' w w' has hs h
    rw [List.foldlM_cons, exec_bind_eq_ok] at h
    obtain ⟨s₁, w₁, hone, hrest⟩ := h
    have hs₁ := (turn_fault_iff hn hlen (has x (List.mem_cons_self ..)) hs x.2 w).2 s₁
      (congrArg Prod.fst hone)
    exact ih (fun y hy => has y (List.mem_cons_of_mem _ hy)) hs₁ hrest

/-- What follows the loop goes wrong with the record that is still pending. -/
theorem finish_file_fault_iff (hbody : o.savebody = false) (body_filename body_pref : List UInt8)
    {s : ParseState} (hs : SoundFile o n s.file) (w : World) :
    (exec (finish_file o directory body_filename body_pref s) w).1 = .error .fault
      ↔ ∃ file, s.file = some file ∧ WriteFaults o directory w file := by
  have hsave : save_bodies o directory body_filename body_pref s.body = pure () :=
    if_neg (by simp [hbody])
  unfold finish_file
  rw [hsave, pure_bind, exec_bind]
  cases hfile : s.file with
  | none =>
    refine iff_of_false (fun h => by cases h) ?_
    rintro ⟨file, hnone, -⟩
    cases hnone
  | some file =>
    have hwrite := file_write_fault_iff (hs file hfile) hn hlen w
    simp only [Option.some.injEq, exists_eq_left', ← hwrite]
    unfold write_pending
    simp only
    rcases exec (file_write o directory file) w with ⟨e | u, w'⟩
    · simp
    · simp

end Loop

end Turn

/-! ## A run -/

section Run

variable (o : Options) (directory : Option (List UInt8))

/-- The turns of the loop that the attributes `as` take. -/
def turns (as : List (Attr × UInt16)) : Run ParseState :=
  as.foldlM (fun s x => lift (attr_gate o x.1 x.2) >>= fun _ => parse_attr o directory x.1 s) {}

/-- The run gets past the attributes `as`, with `s` collected and the world as in `w₁`. -/
def GetsPast (as : List (Attr × UInt16)) (w : World) (s : ParseState) (w₁ : World) : Prop :=
  exec (turns o directory as) w = (.ok s, w₁)

/-- What is behind `s` and `w₁` makes the run go wrong: an attribute, or, at the end of the
attributes, the record that is still pending. -/
def GoesWrong (is_stdin : Bool) (tail : List UInt8) (s : ParseState) (w₁ : World) : Prop :=
  (∃ attr k rest, tail = encode_raw attr k ++ rest ∧ TurnFaults o directory s w₁ attr k)
    ∨ (Ends is_stdin tail ∧ ∃ file, s.file = some file ∧ WriteFaults o directory w₁ file)

end Run

section Run

variable {o : Options} {directory : Option (List UInt8)} {n : ℕ} {w : World}

theorem parse_file_turns (body_filename body_pref : List UInt8) (key : UInt16)
    (as : List (Attr × UInt16)) (tail : List UInt8) (is_stdin : Bool) :
    parse_file o directory body_filename body_pref { rest := stream key as ++ tail, is_stdin := is_stdin }
      = turns o directory as >>= fun s =>
          attr_loop o (parse_attr o directory) { rest := tail, is_stdin := is_stdin } s
            >>= after_loop o directory body_filename body_pref := by
  rw [stream_append, parse_file_stream, attr_loop_bytes, bind_assoc]
  rfl

/-- The attributes of a stream are shorter than it is. -/
theorem attr_len_le {bs tail : List UInt8} {key : UInt16} {as : List (Attr × UInt16)}
    (h : bs = stream key as ++ tail) : ∀ x ∈ as, 2 * x.1.len ≤ 2 * bs.length + 8 := by
  intro x hx
  obtain ⟨before, after, rfl⟩ := List.append_of_mem hx
  have hlen : (stream key (before ++ x :: after) ++ tail).length = bs.length := by rw [h]
  rw [stream_append] at hlen
  simp only [attr_bytes, List.flatMap_append, List.flatMap_cons, List.length_append,
    encode_raw_length] at hlen
  omega

theorem stream_split (key : UInt16) (before after : List (Attr × UInt16)) (attr : Attr) (k : UInt16)
    (tail : List UInt8) : stream key (before ++ (attr, k) :: after) ++ tail
      = stream key before ++ (encode_raw attr k ++ (attr_bytes after ++ tail)) := by
  simp only [stream_append, attr_bytes, List.flatMap_append, List.flatMap_cons, List.append_assoc]

section Bounded

variable (hn : 8 ≤ n) (hlen : (directory.getD []).length + 3 * n + 16 < 2 ^ 31)
  {as : List (Attr × UInt16)} (has : ∀ x ∈ as, 2 * x.1.len ≤ n)

include hn hlen

theorem GetsPast.sound (has : ∀ x ∈ as, 2 * x.1.len ≤ n) {s : ParseState} {w₁ : World}
    (h : GetsPast o directory as w s w₁) : SoundFile o n s.file := by
  have hempty : SoundFile o n ({} : ParseState).file := by
    rintro f ⟨⟩
  exact turns_sound hn hlen as has hempty h

include has

/-- The turns go wrong where the first of them does that goes wrong. -/
theorem turns_fault_iff : (exec (turns o directory as) w).1 = .error .fault
    ↔ ∃ before attr k after s w₁, as = before ++ (attr, k) :: after
      ∧ GetsPast o directory before w s w₁ ∧ TurnFaults o directory s w₁ attr k := by
  have hone : ∀ {before x after s w₁}, as = before ++ x :: after →
      GetsPast o directory before w s w₁ →
      ((exec (lift (attr_gate o x.1 x.2) >>= fun _ => parse_attr o directory x.1 s) w₁).1
        = .error .fault ↔ TurnFaults o directory s w₁ x.1 x.2) := by
    rintro before x after s w₁ rfl hpast
    have hs := hpast.sound hn hlen fun y hy => has y (by simp [hy])
    exact (turn_fault_iff hn hlen (has x (by simp)) hs x.2 w₁).1
  refine (foldlM_eq_error as).trans ⟨?_, ?_⟩
  · rintro ⟨before, x, after, s, w₁, has, hpast, hstop⟩
    exact ⟨before, x.1, x.2, after, s, w₁, has, hpast, (hone has hpast).mp hstop⟩
  · rintro ⟨before, attr, k, after, s, w₁, has, hpast, hturn⟩
    exact ⟨before, (attr, k), after, s, w₁, has, hpast, (hone has hpast).mpr hturn⟩

omit has

/-- Behind the attributes, only the record that is still pending can go wrong. -/
theorem loop_end_fault_iff (hbody : o.savebody = false) (body_filename body_pref : List UInt8)
    {tail : List UInt8} (htail : NoAttr tail) (is_stdin : Bool) {s : ParseState}
    (hs : SoundFile o n s.file) (w : World) :
    (exec (attr_loop o (parse_attr o directory) { rest := tail, is_stdin := is_stdin } s
        >>= after_loop o directory body_filename body_pref) w).1 = .error .fault
      ↔ Ends is_stdin tail ∧ ∃ file, s.file = some file ∧ WriteFaults o directory w file := by
  rcases attr_loop_ends body_filename body_pref htail is_stdin s w with
    ⟨hends, hrun⟩ | ⟨hends, e, he, hrun⟩
  · rw [hrun, finish_file_fault_iff hn hlen hbody body_filename body_pref hs]
    exact (and_iff_right hends).symm
  · rw [hrun]
    refine iff_of_false (fun h => ?_) fun h => hends h.1
    rw [Except.error.inj h] at he
    exact attr_read_ne_fault htail he

include has

/-- A stream goes wrong at one of its attributes or behind them. -/
theorem stream_fault_iff (hbody : o.savebody = false) (body_filename body_pref : List UInt8)
    (key : UInt16) {tail : List UInt8} (htail : NoAttr tail) (is_stdin : Bool) :
    (exec (parse_file o directory body_filename body_pref
        { rest := stream key as ++ tail, is_stdin := is_stdin }) w).1 = .error .fault
      ↔ (exec (turns o directory as) w).1 = .error .fault
        ∨ ∃ s w₁, GetsPast o directory as w s w₁ ∧ Ends is_stdin tail
          ∧ ∃ file, s.file = some file ∧ WriteFaults o directory w₁ file := by
  rw [parse_file_turns, exec_bind_eq_error]
  refine or_congr_right (exists_congr fun s => exists_congr fun w₁ => and_congr_right fun hpast => ?_)
  exact loop_end_fault_iff hn hlen hbody body_filename body_pref htail is_stdin
    (GetsPast.sound hn hlen has hpast) w₁

end Bounded

end Run

end Tnef
