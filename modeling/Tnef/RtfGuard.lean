/-
The guard of `get_rtf_data` and the assertions behind it.

A value is handed on when it is longer than twelve bytes and has one of the two magic
numbers. The functions it is handed to assert more than that: a whole header, a declared
size that is the length, and a document that is not empty. A value that passes the guard
and not the assertions stops the program, and with it the extraction of every attachment
behind it in the stream.
-/
import Tnef.RtfCrc
import Tnef.RtfSafe
import Tnef.MapiCodec
import Tnef.ParseGroups

set_option autoImplicit false

namespace Tnef

open ExceptRules Stateful Slice LittleEndian Layout

/-! ## Values as they are delivered -/

/-- A binary value of the bytes `bs`, with the byte `mapi_attr_read` puts behind it. -/
def binary_value (bs : List UInt8) : MAPI_Value := ⟨bs.length, .buf (.full (bs ++ [0]))⟩

/-- The values of every binary property that is read are of this form. -/
theorem PropertyAt.binary_values {o : Options} {buf : List UInt8} {i j : ℕ} {a : MAPI_Attr}
    (h : PropertyAt o buf i a j) (htype : a.type = szMAPI_BINARY) :
    ∃ bss : List (List UInt8), a.values = bss.map binary_value ∧ a.num_values = bss.length := by
  obtain ⟨hnum, hblocks⟩ := h.blocks (Or.inl htype)
  rw [hnum]
  generalize a.values = vs at hblocks
  induction vs with
  | nil => exact ⟨[], rfl, rfl⟩
  | cons v vs ih =>
    obtain ⟨bs, rfl⟩ := hblocks v (List.mem_cons_self ..)
    obtain ⟨bss, rfl, hlen⟩ := ih fun v' hv' => hblocks v' (List.mem_cons_of_mem _ hv')
    exact ⟨bs :: bss, rfl, by rw [List.length_cons, List.length_cons, hlen]⟩

/-! ## The two conditions -/

/-- The guard of `get_rtf_data`. -/
def Guarded (bs : List UInt8) : Prop :=
  12 < bs.length
    ∧ (At bs 8 (le32 rtf_uncompressed_magic) ∨ At bs 8 (le32 rtf_compressed_magic))

/-- What the functions behind the guard assert: a header and something behind it, the size in
the header, and of a compressed document whose checksum is right, that it is not empty. -/
structure Asserted (bs : List UInt8) : Prop where
  long : 16 < bs.length
  size : ∃ compr_size : UInt32, At bs 0 (le32 compr_size) ∧ compr_size.toNat + 4 = bs.length
  not_empty : At bs 8 (le32 rtf_compressed_magic) → At bs 12 (le32 (generate_crc (bs.drop 16))) →
    ¬ At bs 4 (le32 0)

/-- What has to hold besides: the bytes of a stored document are there, and the block for
the document is granted. -/
structure Fits (o : Options) (bs : List UInt8) : Prop where
  stored : At bs 8 (le32 rtf_uncompressed_magic) → ∀ n : UInt32, At bs 4 (le32 n) →
    o.Admits n.toNat ∧ 4 + n.toNat ≤ bs.length + 1
  compressed : At bs 8 (le32 rtf_compressed_magic) →
    At bs 12 (le32 (generate_crc (bs.drop 16))) → ∀ n : UInt32, At bs 4 (le32 n) →
    o.Admits n.toNat
  refused : At bs 8 (le32 rtf_compressed_magic) →
    ¬ At bs 12 (le32 (generate_crc (bs.drop 16))) → o.Admits 4

/-! ## The guard -/

theorem is_rtf_data_eq {bs : List UInt8} (h : 12 ≤ bs.length) (extra : List UInt8) :
    ∃ m : UInt32, At bs 8 (le32 m) ∧ is_rtf_data (bs ++ extra)
      = .ok (decide (m = rtf_uncompressed_magic ∨ m = rtf_compressed_magic)) := by
  obtain ⟨c, -, hc⟩ := @GETINT32_of_le bs 0 (by omega)
  obtain ⟨n, -, hn⟩ := @GETINT32_of_le bs 4 (by omega)
  obtain ⟨m, -, hm⟩ := @GETINT32_of_le bs 8 (by omega)
  refine ⟨m, hm, ?_⟩
  rw [is_rtf_data, GETINT32_of_at (hc.append_right extra), ok_bind,
    GETINT32_of_at (hn.append_right extra), ok_bind, GETINT32_of_at (hm.append_right extra),
    ok_bind, pure_eq_ok]

theorem rtf_value_of_not_guarded (o : Options) {bs : List UInt8} (h : ¬ Guarded bs) :
    rtf_value o (binary_value bs) = .ok none := by
  unfold rtf_value binary_value
  by_cases hlen : bs.length > 12
  · obtain ⟨m, hm, hrtf⟩ := @is_rtf_data_eq bs (by omega) [0]
    have hmagic : ¬ (m = rtf_uncompressed_magic ∨ m = rtf_compressed_magic) := by
      rintro (rfl | rfl)
      · exact h ⟨hlen, Or.inl hm⟩
      · exact h ⟨hlen, Or.inr hm⟩
    rw [decide_eq_false hmagic] at hrtf
    simp only [if_pos hlen, Buffer.full_bytes, hrtf, ok_bind, Bool.false_eq_true, if_false]
    rfl
  · rw [if_neg hlen]

theorem rtf_value_of_guarded (o : Options) {bs : List UInt8} (h : Guarded bs) :
    rtf_value o (binary_value bs)
      = get_rtf_data_from_buf o bs.length (bs ++ [0]) >>= fun r => .ok (some ⟨r.1, r.2⟩) := by
  obtain ⟨hlen, hmagic⟩ := h
  obtain ⟨m, hm, hrtf⟩ := @is_rtf_data_eq bs (by omega) [0]
  have hm' : m = rtf_uncompressed_magic ∨ m = rtf_compressed_magic :=
    hmagic.imp (at_le32_unique hm) (at_le32_unique hm)
  rw [decide_eq_true hm'] at hrtf
  exact rtf_value_eq o hlen hrtf

/-! ## Behind the guard -/

section Header

variable (o : Options) {bs : List UInt8}

variable {c n k : UInt32} (hlen : 16 < bs.length) (hc : c.toNat + 4 = bs.length)

include hlen hc

theorem get_rtf_data_from_buf_stored (hw : HeaderWords bs c n rtf_uncompressed_magic k) :
    get_rtf_data_from_buf o bs.length (bs ++ [0])
      = if o.Admits n.toNat then
          rd_block (bs ++ [0]) 4 n.toNat >>= fun bytes => .ok (n.toNat, .full bytes)
        else .error (.exit (-1)) := by
  have hn := n.toNat_lt
  rw [get_rtf_data_from_buf_eq o (hw.append_right [0]) hlen hc, if_pos rfl,
    checked_xcalloc_of_lt o (by omega), Nat.mul_one]
  split_ifs
  · rfl
  · rfl

theorem get_rtf_data_from_buf_checked
    (hw : HeaderWords bs c n rtf_compressed_magic (generate_crc (bs.drop 16))) :
    get_rtf_data_from_buf o bs.length (bs ++ [0])
      = if n.toNat = 0 then .error .assertion
        else if o.Admits n.toNat then
          decompress_loop (bs.drop 16 ++ [0]) (bs.length - 16) n.toNat (lz_init n.toNat)
            >>= fun s => .ok (n.toNat, .full s.dest)
        else .error (.exit (-1)) := by
  have hn := n.toNat_lt
  have hdrop : (bs ++ [0]).drop 16 = bs.drop 16 ++ [0] := List.drop_append_of_le_length (by omega)
  have hblock : rd_block (bs ++ [0]) 16 (bs.length - 16) = .ok (bs.drop 16) := by
    rw [rd_block, if_pos (by simp; omega), hdrop,
      List.take_append_of_le_length (by rw [List.length_drop]),
      List.take_of_length_le (by rw [List.length_drop])]
  rw [get_rtf_data_from_buf_eq o (hw.append_right [0]) hlen hc, if_neg (by decide), if_pos rfl,
    hblock, ok_bind, if_pos rfl, hdrop, decompress_rtf_data]
  split_ifs with hzero hlim
  · rw [assert_eq_error.mpr ⟨by omega, rfl⟩, error_bind, error_bind]
  · rw [assert_of (by omega), ok_bind, checked_xcalloc_of_lt o (by omega), Nat.mul_one, if_pos hlim,
      ok_bind, assert_of (by omega), ok_bind]
    cases decompress_loop (bs.drop 16 ++ [0]) (bs.length - 16) n.toNat (lz_init n.toNat) with
    | error e => rfl
    | ok s => rfl
  · rw [assert_of (by omega), ok_bind, checked_xcalloc_of_lt o (by omega), Nat.mul_one, if_neg hlim]
    rfl

/-- A stored document: nothing further is asserted. -/
theorem stored_spec (hw : HeaderWords bs c n rtf_uncompressed_magic k) :
    Asserted bs ∧ get_rtf_data_from_buf o bs.length (bs ++ [0]) ≠ .error .assertion
      ∧ ((∃ r, get_rtf_data_from_buf o bs.length (bs ++ [0]) = .ok r) ↔ Fits o bs) := by
  have hmagic : ¬ At bs 8 (le32 rtf_compressed_magic) := fun hat =>
    absurd (at_le32_unique hw.magic hat) (by decide)
  have hroom : (bs ++ [0]).length = bs.length + 1 := List.length_append
  refine ⟨⟨hlen, ⟨c, hw.compr, hc⟩, fun hat => absurd hat hmagic⟩, ?_, ?_⟩
  · rw [get_rtf_data_from_buf_stored o hlen hc hw, rd_block]
    split_ifs <;> simp
  · rw [get_rtf_data_from_buf_stored o hlen hc hw, rd_block, hroom]
    constructor
    · rintro ⟨r, hr⟩
      split_ifs at hr with hlim hle
      · refine ⟨?_, fun hat => absurd hat hmagic, fun hat => absurd hat hmagic⟩
        intro _ n' hn'
        obtain rfl := at_le32_unique hw.uncompr hn'
        exact ⟨hlim, hle⟩
      · cases hr
    · intro h
      obtain ⟨hlim, hle⟩ := h.stored hw.magic n hw.uncompr
      rw [if_pos hlim, if_pos hle]
      exact ⟨_, rfl⟩

/-- A document with a wrong checksum: an empty one takes its place. -/
theorem refused_spec (hw : HeaderWords bs c n rtf_compressed_magic k)
    (hk : k ≠ generate_crc (bs.drop 16)) :
    Asserted bs ∧ get_rtf_data_from_buf o bs.length (bs ++ [0]) ≠ .error .assertion
      ∧ ((∃ r, get_rtf_data_from_buf o bs.length (bs ++ [0]) = .ok r) ↔ Fits o bs) := by
  have hmagic : ¬ At bs 8 (le32 rtf_uncompressed_magic) := fun hat =>
    absurd (at_le32_unique hw.magic hat) (by decide)
  have hcrc : ¬ At bs 12 (le32 (generate_crc (bs.drop 16))) := fun hat =>
    hk (at_le32_unique hw.checksum hat)
  refine ⟨⟨hlen, ⟨c, hw.compr, hc⟩, fun _ hat => absurd hat hcrc⟩, ?_, ?_⟩
  · rw [get_rtf_data_from_buf_mismatch o hlen hw hc hk, checked_xcalloc_of_lt o (by decide)]
    split_ifs <;> simp
  · rw [get_rtf_data_from_buf_mismatch o hlen hw hc hk, checked_xcalloc_of_lt o (by decide)]
    constructor
    · rintro ⟨r, hr⟩
      split_ifs at hr with hlim
      · exact ⟨fun hat => absurd hat hmagic, fun _ hat => absurd hat hcrc, fun _ _ => hlim⟩
      · cases hr
    · intro h
      rw [if_pos (show o.Admits (4 * 1) from h.refused hw.magic hcrc)]
      exact ⟨_, rfl⟩

/-- A document with the right checksum: it is asserted that it is not empty. -/
theorem checked_spec (hw : HeaderWords bs c n rtf_compressed_magic (generate_crc (bs.drop 16))) :
    (Asserted bs ↔ n ≠ 0)
      ∧ (get_rtf_data_from_buf o bs.length (bs ++ [0]) ≠ .error .assertion ↔ n ≠ 0)
      ∧ ((∃ r, get_rtf_data_from_buf o bs.length (bs ++ [0]) = .ok r) ↔ n ≠ 0 ∧ Fits o bs) := by
  have hmagic : ¬ At bs 8 (le32 rtf_uncompressed_magic) := fun hat =>
    absurd (at_le32_unique hw.magic hat) (by decide)
  have hzero : n.toNat = 0 ↔ n = 0 := by rw [← UInt32.toNat_inj, UInt32.toNat_zero]
  have hsrc : bs.length - 16 ≤ (bs.drop 16 ++ [0]).length := by
    rw [List.length_append, List.length_drop]
    omega
  -- the loop itself never stops, whatever the bytes are
  obtain ⟨t, hloop, -⟩ := decompress_loop_safe hsrc le_rfl _ (lz_init_safe n.toNat)
  have hrun := get_rtf_data_from_buf_checked o hlen hc hw
  rw [hloop] at hrun
  refine ⟨?_, ?_, ?_⟩
  · constructor
    · rintro hassert rfl
      exact hassert.not_empty hw.magic hw.checksum hw.uncompr
    · intro hn
      refine ⟨hlen, ⟨c, hw.compr, hc⟩, fun _ _ hat => hn ?_⟩
      exact at_le32_unique hw.uncompr hat
  · rw [hrun]
    by_cases hn : n = 0
    · rw [if_pos (hzero.mpr hn)]
      simp [hn]
    · rw [if_neg (mt hzero.mp hn)]
      split_ifs <;> simp [hn]
  · rw [hrun]
    constructor
    · rintro ⟨r, hr⟩
      split_ifs at hr with hn hlim
      refine ⟨mt hzero.mpr hn, fun hat => absurd hat hmagic, ?_, fun _ hat => absurd hw.checksum hat⟩
      intro _ _ n' hn'
      obtain rfl := at_le32_unique hw.uncompr hn'
      exact hlim
    · rintro ⟨hn, hfits⟩
      rw [if_neg (mt hzero.mp hn), if_pos (hfits.compressed hw.magic hw.checksum n hw.uncompr)]
      exact ⟨_, rfl⟩

end Header

/-- What reading a guarded value comes to. -/
theorem get_rtf_data_from_buf_spec (o : Options) {bs : List UInt8} (h : Guarded bs) :
    (get_rtf_data_from_buf o bs.length (bs ++ [0]) ≠ .error .assertion ↔ Asserted bs)
      ∧ ((∃ r, get_rtf_data_from_buf o bs.length (bs ++ [0]) = .ok r)
        ↔ Asserted bs ∧ Fits o bs) := by
  -- the size is asserted before the magic number is looked at
  by_cases hheader : 16 < bs.length ∧ ∃ c : UInt32, At bs 0 (le32 c) ∧ c.toNat + 4 = bs.length
  · obtain ⟨hlen, c', hc', hc⟩ := hheader
    obtain ⟨c, n, m, k, hw⟩ := exists_headerWords hlen.le
    obtain rfl := at_le32_unique hw.compr hc'
    rcases h.2 with hm | hm
    · obtain rfl := at_le32_unique hw.magic hm
      obtain ⟨hassert, hne, hfits⟩ := stored_spec o hlen hc hw
      exact ⟨iff_of_true hne hassert, hfits.trans (and_iff_right hassert).symm⟩
    · obtain rfl := at_le32_unique hw.magic hm
      by_cases hk : k = generate_crc (bs.drop 16)
      · subst hk
        obtain ⟨hassert, hne, hfits⟩ := checked_spec o hlen hc hw
        exact ⟨hne.trans hassert.symm, by rw [hfits, hassert]⟩
      · obtain ⟨hassert, hne, hfits⟩ := refused_spec o hlen hc hw hk
        exact ⟨iff_of_true hne hassert, hfits.trans (and_iff_right hassert).symm⟩
  · have hassert : ¬ Asserted bs := fun hassert => hheader ⟨hassert.long, hassert.size⟩
    have hheader' : ¬ (16 < bs.length ∧ ∃ c : UInt32, At (bs ++ [0]) 0 (le32 c)
        ∧ c.toNat + 4 = bs.length) := by
      rintro ⟨hlen, c, hat, hc⟩
      exact hheader ⟨hlen, c, hat.of_append (by rw [le32_length]; omega), hc⟩
    rw [get_rtf_data_from_buf_header o (by simp) hheader']
    simp [hassert]

/-- Only a guarded value can go wrong. -/
theorem rtf_value_spec (o : Options) (bs : List UInt8) :
    (rtf_value o (binary_value bs) ≠ .error .assertion ↔ (Guarded bs → Asserted bs))
      ∧ ((∃ r, rtf_value o (binary_value bs) = .ok r)
        ↔ (Guarded bs → Asserted bs ∧ Fits o bs)) := by
  by_cases h : Guarded bs
  · obtain ⟨hne, hreturns⟩ := get_rtf_data_from_buf_spec o h
    rw [rtf_value_of_guarded o h, ← hreturns, ← hne]
    cases get_rtf_data_from_buf o bs.length (bs ++ [0]) with
    | error e => simp [h]
    | ok r => simp [h]
  · rw [rtf_value_of_not_guarded o h]
    simp [h]

/-! ## All the values of a property -/

/-- **When `get_rtf_data` returns.** No value fails an assertion exactly when each value the
guard lets through meets what is asserted behind it. The function returns exactly when,
besides, a stored document does not reach beyond its value and every block is granted. -/
theorem get_rtf_data_returns (o : Options) {a : MAPI_Attr} {bss : List (List UInt8)}
    (hvalues : a.values = bss.map binary_value) (hnum : a.num_values = bss.length)
    (hcount : bss.length < 2 ^ 32) :
    ((∀ v ∈ a.values, rtf_value o v ≠ .error .assertion)
      ↔ ∀ bs ∈ bss, Guarded bs → Asserted bs)
    ∧ ((∃ r, get_rtf_data o a = .ok r) ↔ o.Admits ((bss.length + 1) * sizeof_ptr)
      ∧ ∀ bs ∈ bss, Guarded bs → Asserted bs ∧ Fits o bs) := by
  refine ⟨?_, ?_⟩
  · rw [hvalues, List.forall_mem_map]
    exact forall₂_congr fun bs _ => (rtf_value_spec o bs).1
  · have hsize : (bss.length + 1) * sizeof_ptr + 0 < 2 ^ 64 := by
      show (bss.length + 1) * 8 + 0 < 2 ^ 64
      omega
    have hmap : (∃ body, (bss.map binary_value).mapM (rtf_value o) = .ok body)
        ↔ ∀ bs ∈ bss, Guarded bs → Asserted bs ∧ Fits o bs := by
      rw [mapM_returns, List.forall_mem_map]
      exact forall₂_congr fun bs _ => (rtf_value_spec o bs).2
    have htake : a.values.take a.num_values = bss.map binary_value := by
      rw [hvalues, hnum, List.take_of_length_le (by rw [List.length_map])]
    rw [get_rtf_data, htake, hnum, ← hmap]
    simp only [bind_eq_ok, checked_xcalloc_eq_ok hsize, pure_eq_ok, Except.ok.injEq]
    constructor
    · rintro ⟨r, _, ⟨hlim, -⟩, body, hbody, -⟩
      exact ⟨hlim, body, hbody⟩
    · rintro ⟨hlim, body, hbody⟩
      exact ⟨_, _, ⟨hlim, rfl⟩, body, hbody, rfl⟩

/-- A stored document of one byte passes the guard and the assertions. -/
theorem get_rtf_data_returns_witness :
    let bs : List UInt8 := [13, 0, 0, 0, 1, 0, 0, 0, 77, 69, 76, 65, 0, 0, 0, 0, 65]
    (∀ v ∈ [binary_value bs], rtf_value {} v ≠ .error .assertion)
      ∧ Guarded bs ∧ Asserted bs ∧ Fits {} bs := by
  intro bs
  have h := @get_rtf_data_returns {} (rtf_attr bs) [bs] rfl rfl (by decide)
  have hmagic : At bs 8 (le32 rtf_uncompressed_magic) :=
    ⟨[13, 0, 0, 0, 1, 0, 0, 0], [0, 0, 0, 0, 65], by decide, rfl⟩
  have hguard : Guarded bs := ⟨by decide, .inl hmagic⟩
  -- the property is read, so the document has passed
  obtain ⟨hasserted, hfits⟩ := (h.2.mp ⟨[some ⟨1, .full [1]⟩, none], by decide⟩).2 bs (by simp) hguard
  refine ⟨h.1.mpr ?_, hguard, hasserted, hfits⟩
  intro bs' hbs' _
  rwa [List.mem_singleton.mp hbs']

/-- Thirteen bytes with the magic number of a compressed document. -/
def short_rtf : List UInt8 := le32 9 ++ le32 0 ++ le32 rtf_compressed_magic ++ [0]

/-- A message whose RTF body is `short_rtf`. -/
def short_rtf_props : Attr × UInt16 :=
  let props := encode_list 0 [{
    kind := .binary
    multi := false
    naming := .tag 0x1009 (by decide)
    values := [(⟨short_rtf, by decide⟩ : Block)]
    ne_nil := by simp
    fits := by decide
    count_ok := .inl rfl }]
  (⟨.LVL_MESSAGE, szBYTE, attMAPIPROPS, props, by decide⟩, byte_sum props)

/-- The value passes the guard and fails the first assertion; in front of two attachments it
keeps both of them from being written. -/
theorem get_rtf_data_asserts :
    (¬ ∀ (o : Options) (a : MAPI_Attr) (bss : List (List UInt8)), a.values = bss.map binary_value →
        a.num_values = bss.length → o.alloc_limit = 0 → ∃ r, get_rtf_data o a = .ok r)
    ∧ (exec (parse_file {} none [] [] { rest := stream 0 (short_rtf_props :: two_groups) }) {}).1
        = .error .assertion
    ∧ (exec (parse_file {} none [] [] { rest := stream 0 (short_rtf_props :: two_groups) }) {}).2.calls
        = []
    ∧ (exec (parse_file {} none [] [] { rest := stream 0 two_groups }) {}).2.calls.length = 2 := by
  refine ⟨?_, ?_, ?_, ?_⟩
  · intro h
    have hstops : get_rtf_data {} (rtf_attr short_rtf) = .error .assertion := by decide +kernel
    obtain ⟨r, hr⟩ := h {} (rtf_attr short_rtf) [short_rtf] rfl rfl rfl
    rw [hstops] at hr
    cases hr
  · decide +kernel
  · decide +kernel
  · decide +kernel

end Tnef
