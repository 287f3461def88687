/-
Which values `get_rtf_data` reads within their bytes.

The decompressor checks every cursor it moves, and `LzSafe` is what those checks
keep: it never faults, whatever the stream holds, and it returns a block of the
length it was asked for. The stored branch has no such check: it copies as many
bytes as the header's second word says, from offset 4 on, and nothing compares
that word with the length of the value. `rtf_value_safe` is the exact condition.
-/
import Tnef.RtfDecode

set_option autoImplicit false

namespace Tnef

open ExceptRules Slice LittleEndian

/-! ## The decompressor -/

/-- What the checks of `decompress_rtf_data` keep true. -/
structure LzSafe (lenu : ℕ) (s : LzState) : Prop where
  dict : s.dict.length = 4096
  woff : s.woff < 4096
  dest : s.dest.length = lenu
  room : s.cout ≤ lenu

theorem lz_init_safe (lenu : ℕ) : LzSafe lenu (lz_init lenu) := by
  have hlen : rtf_prebuf.length = 207 := rtf_prebuf_length
  refine ⟨?_, ?_, List.length_replicate, Nat.zero_le _⟩
  · simp only [lz_init, List.length_append, List.length_replicate, hlen]
  · simp only [lz_init, hlen]
    decide

theorem LzState.put_safe {lenu : ℕ} {s : LzState} (hs : LzSafe lenu s) (b : UInt8)
    (hroom : s.cout < lenu) : ∃ t, s.put b = .ok t ∧ LzSafe lenu t ∧ t.cout = s.cout + 1 := by
  have hdest : s.cout < s.dest.length := by rw [hs.dest]; exact hroom
  have hdict : s.woff < s.dict.length := by rw [hs.dict]; exact hs.woff
  refine ⟨_, put_eq b hdest hdict, ⟨?_, ?_, ?_, hroom⟩, rfl⟩
  · rw [List.length_set, hs.dict]
  · rw [and_fff]
    exact Nat.mod_lt _ (by decide)
  · rw [List.length_set, hs.dest]

theorem copy_reference_safe {lenu : ℕ} (n : ℕ) : ∀ {roff : ℕ} {s : LzState}, LzSafe lenu s →
    roff < 4096 → s.cout + n ≤ lenu → ∃ t, copy_reference n roff s = .ok t ∧ LzSafe lenu t := by
  induction n with
  | zero =>
    intro roff s hs _ _
    exact ⟨s, rfl, hs⟩
  | succ n ih =>
    intro roff s hs hroff hroom
    have hcell : roff < s.dict.length := by rw [hs.dict]; exact hroff
    have hread := rd_of_lt hcell
    obtain ⟨t, hput, ht, hcout⟩ := LzState.put_safe hs s.dict[roff] (by omega)
    have hnext : (roff + 1) &&& 0xfff < 4096 := by
      rw [and_fff]
      exact Nat.mod_lt _ (by decide)
    obtain ⟨t', hrest, ht'⟩ := ih ht hnext (by omega)
    exact ⟨t', by rw [copy_reference, hread, ok_bind, hput, ok_bind, hrest], ht'⟩

/-! The room the loops are told of may be less than there is. -/

section Stream

variable {src : List UInt8} {lenc lenu room : ℕ} (hsrc : lenc ≤ src.length) (hroom : lenu ≤ room)

include hsrc hroom in
theorem lz_reference_safe {s : LzState} (hs : LzSafe room s) :
    ∃ t, lz_reference src lenc lenu s = .ok t ∧ LzSafe room t := by
  by_cases hin : s.cin + 2 > lenc
  · refine ⟨{ s with endflag := -1 }, ?_, ⟨hs.1, hs.2, hs.3, hs.4⟩⟩
    rw [lz_reference, if_pos hin]
  · have h0 := rd_of_lt (show s.cin < src.length by omega)
    have h1 := rd_of_lt (show s.cin + 1 < src.length by omega)
    -- twelve bits of offset: no reference can name a cell outside the dictionary
    have hoff : (src[s.cin].toNat <<< 4) + (src[s.cin + 1].toNat >>> 4) < 4096 := by
      have hb0 := src[s.cin].toNat_lt
      have hb1 := src[s.cin + 1].toNat_lt
      rw [Nat.shiftLeft_eq, Nat.shiftRight_eq_div_pow]
      omega
    have hs' : LzSafe room { s with cin := s.cin + 2 } := ⟨hs.1, hs.2, hs.3, hs.4⟩
    rw [lz_reference, if_neg hin, h0, ok_bind, h1, ok_bind]
    simp only
    split
    · exact ⟨_, rfl, ⟨hs.1, hs.2, hs.3, hs.4⟩⟩
    · split
      · exact ⟨_, rfl, ⟨hs.1, hs.2, hs.3, hs.4⟩⟩
      · next hfits => exact copy_reference_safe _ hs' hoff ((not_lt.mp hfits).trans hroom)

include hsrc hroom in
theorem lz_literal_safe {s : LzState} (hs : LzSafe room s) :
    ∃ t, lz_literal src lenc lenu s = .ok t ∧ LzSafe room t := by
  by_cases hin : s.cin + 1 > lenc
  · refine ⟨{ s with endflag := -1 }, ?_, ⟨hs.1, hs.2, hs.3, hs.4⟩⟩
    rw [lz_literal, if_pos hin]
  · by_cases hout : s.cout + 1 > lenu
    · refine ⟨{ s with endflag := -1 }, ?_, ⟨hs.1, hs.2, hs.3, hs.4⟩⟩
      rw [lz_literal, if_neg hin, if_pos hout]
    · have h0 := rd_of_lt (show s.cin < src.length by omega)
      obtain ⟨t, hput, ht, -⟩ := LzState.put_safe hs src[s.cin] (by omega)
      refine ⟨{ t with cin := s.cin + 1 }, ?_, ⟨ht.1, ht.2, ht.3, ht.4⟩⟩
      rw [lz_literal, if_neg hin, if_neg hout, h0, ok_bind, hput, ok_bind, pure_eq_ok,
        LzState.put_cin hput]

include hsrc hroom in
theorem control_run_safe (control i : ℕ) (s : LzState) (hs : LzSafe room s) :
    ∃ t, control_run src lenc lenu control i s = .ok t ∧ LzSafe room t := by
  induction i, s using control_run.induct control with
  | case1 i s hi hflag =>
    exact ⟨s, control_run_of_endflag hflag, hs⟩
  | case2 i s hi hflag hbit ih =>
    obtain ⟨t, ht, hsafe⟩ := lz_reference_safe hsrc hroom hs
    rw [control_run, if_pos hi, if_neg hflag, if_pos hbit, ht, ok_bind]
    exact ih t hsafe
  | case3 i s hi hflag hbit ih =>
    obtain ⟨t, ht, hsafe⟩ := lz_literal_safe hsrc hroom hs
    rw [control_run, if_pos hi, if_neg hflag, if_neg hbit, ht, ok_bind]
    exact ih t hsafe
  | case4 i s hi =>
    exact ⟨s, by rw [control_run, if_neg hi], hs⟩

include hsrc hroom in
/-- The outer loop: the byte it reads is there, and the run over it returns. -/
theorem decompress_loop_safe (s : LzState) (hs : LzSafe room s) :
    ∃ t, decompress_loop src lenc lenu s = .ok t ∧ LzSafe room t := by
  induction s using decompress_loop.induct src lenc lenu with
  | case1 s hflag => exact ⟨s, decompress_loop_of_endflag hflag, hs⟩
  | case2 s hflag hin =>
    refine ⟨{ s with endflag := -1 }, ?_, ⟨hs.1, hs.2, hs.3, hs.4⟩⟩
    rw [decompress_loop, if_neg hflag, if_pos hin]
  | case3 s hflag hin e hread =>
    rw [rd_of_lt (show s.cin < src.length by omega)] at hread
    cases hread
  | case4 s hflag hin control hread e hrun =>
    have hs' : LzSafe room { s with cin := s.cin + 1 } := ⟨hs.1, hs.2, hs.3, hs.4⟩
    obtain ⟨t, ht, -⟩ := control_run_safe hsrc hroom control.toNat 0 _ hs'
    rw [hrun] at ht
    cases ht
  | case5 s hflag hin control hread t hrun ih =>
    have hs' : LzSafe room { s with cin := s.cin + 1 } := ⟨hs.1, hs.2, hs.3, hs.4⟩
    obtain ⟨t', ht', hsafe⟩ := control_run_safe hsrc hroom control.toNat 0 _ hs'
    rw [hrun] at ht'
    cases ht'
    rw [decompress_loop_step (not_not.mp hflag) (by omega) hread hrun]
    exact ih hsafe

end Stream

/-- **The decompressor is safe on any input**: it reads inside `src` and `dict`, writes
inside `dest`, and returns as many bytes as it was asked for. -/
theorem decompress_rtf_data_safe (o : Options) {src : List UInt8} {lenc : ℕ} (lenu : ℕ)
    (hsrc : lenc ≤ src.length) :
    Avoids .fault (fun dest => dest.length = lenu) (decompress_rtf_data o src lenc lenu) := by
  rw [decompress_rtf_data]
  refine Avoids.bind (assert_ne_fault _) fun _ _ => ?_
  refine Avoids.bind (checked_xcalloc_ne_fault o lenu 1 0) fun _ _ => ?_
  refine Avoids.bind (assert_ne_fault _) fun _ _ => ?_
  obtain ⟨t, hloop, ht⟩ := decompress_loop_safe hsrc le_rfl _ (lz_init_safe lenu)
  rw [hloop, ok_bind, pure_eq_ok, avoids_ok]
  exact ht.dest

/-! ## The two branches -/

/-- A stored value whose second word asks for more bytes than there are from
offset 4 on, and which the allocation limit lets through. -/
def StoredOverrun (o : Options) (data : List UInt8) : Prop :=
  ∃ uncompr_size : UInt32, At data 4 (le32 uncompr_size) ∧ At data 8 (le32 rtf_uncompressed_magic)
    ∧ o.Admits uncompr_size.toNat ∧ data.length < 4 + uncompr_size.toNat

/-- The word at an offset is unique. -/
theorem at_le32_unique {data : List UInt8} {i : ℕ} {x y : UInt32} (hx : At data i (le32 x))
    (hy : At data i (le32 y)) : x = y := by
  have h := (GETINT32_of_at hx).symm.trans (GETINT32_of_at hy)
  exact Except.ok.inj h

theorem storedOverrun_iff {o : Options} {data : List UInt8} {c n m k : UInt32}
    (hw : HeaderWords data c n m k) :
    StoredOverrun o data
      ↔ m = rtf_uncompressed_magic ∧ o.Admits n.toNat ∧ data.length < 4 + n.toNat := by
  constructor
  · rintro ⟨n', hn', hm', hadm, hlt⟩
    obtain rfl := at_le32_unique hw.uncompr hn'
    exact ⟨at_le32_unique hw.magic hm', hadm, hlt⟩
  · rintro ⟨rfl, hadm, hlt⟩
    exact ⟨n, hw.uncompr, hw.magic, hadm, hlt⟩

/-- The result is a block that holds at least the length reported for it. -/
def OutFits (r : ℕ × Buffer) : Prop := r.1 ≤ r.2.bytes.length

theorem rd_block_length {buf bs : List UInt8} {p n : ℕ} (h : rd_block buf p n = .ok bs) :
    bs.length = n := by
  rw [rd_block] at h
  split at h
  · cases h
    rw [List.length_take, List.length_drop]
    omega
  · cases h

/-- The stored branch goes wrong exactly when the copy is granted and too long. -/
theorem stored_branch_safe_iff (o : Options) (data : List UInt8) (n : UInt32) :
    Avoids .fault OutFits (do
      let _ ← checked_xcalloc o n.toNat 1 0
      let bytes ← rd_block data 4 n.toNat
      return (n.toNat, .full bytes)) ↔ ¬ (o.Admits n.toNat ∧ data.length < 4 + n.toNat) := by
  have hn : n.toNat < 2 ^ 32 := n.toNat_lt
  rw [checked_xcalloc_of_lt o (by omega), Nat.mul_one]
  -- a request over the limit stops the program before anything is read
  by_cases hadm : o.Admits n.toNat
  · rw [if_pos hadm, ok_bind]
    constructor
    · rintro ⟨hne, -⟩ ⟨-, hlt⟩
      rw [rd_block, if_neg (by omega)] at hne
      exact hne rfl
    · intro h
      have hle : 4 + n.toNat ≤ data.length := by
        by_contra hgt
        exact h ⟨hadm, by omega⟩
      refine Avoids.bind (rd_block_ne_fault_iff.mpr hle) fun bytes hbytes => ?_
      rw [pure_eq_ok, avoids_ok]
      exact (rd_block_length hbytes).ge
  · rw [if_neg hadm]
    simp [hadm]

/-- The compressed branch goes wrong on no data. -/
theorem compressed_branch_safe (o : Options) {data : List UInt8} (hlen : data.length > 16)
    (n k : UInt32) : Avoids .fault OutFits (do
      let payload ← rd_block data 16 (data.length - 16)
      if k = generate_crc payload then
        let dest ← decompress_rtf_data o (data.drop 16) (data.length - 16) n.toNat
        return (n.toNat, .full dest)
      else
        let _ ← checked_xcalloc o 4 1 0
        return (0, .full [0, 0, 0, 0])) := by
  have hsrc : data.length - 16 ≤ (data.drop 16).length := by rw [List.length_drop]
  refine Avoids.bind (rd_block_ne_fault_iff.mpr (by omega)) fun payload _ => ?_
  split
  · obtain ⟨hne, hdest⟩ := decompress_rtf_data_safe o n.toNat hsrc
    refine Avoids.bind hne fun dest hd => ?_
    rw [pure_eq_ok, avoids_ok]
    exact (hdest dest hd).ge
  · refine Avoids.bind (checked_xcalloc_ne_fault o 4 1 0) fun _ _ => ?_
    rw [pure_eq_ok, avoids_ok]
    exact Nat.zero_le _

/-! ## The value -/

/-- With the header assertion holding, the sizes in front of the branches agree. -/
theorem header_of_no_assertion {o : Options} {data : List UInt8}
    (h : get_rtf_data_from_buf o data.length data ≠ .error .assertion) :
    data.length > 16 ∧ ∃ c n m k, HeaderWords data c n m k ∧ c.toNat + 4 = data.length := by
  have hheader : 16 < data.length ∧ ∃ c : UInt32, At data 0 (le32 c) ∧ c.toNat + 4 = data.length := by
    by_contra hnot
    exact h (get_rtf_data_from_buf_header o le_rfl hnot)
  obtain ⟨hlen, c', hc', hc⟩ := hheader
  obtain ⟨c, n, m, k, hw⟩ := exists_headerWords hlen.le
  obtain rfl := at_le32_unique hw.compr hc'
  exact ⟨hlen, c, n, m, k, hw, hc⟩

/-- **Reading a value stays inside it, and fills what it returns, exactly when it is no
overrunning stored value.** The value is `data` alone, with nothing behind it. -/
theorem rtf_value_safe (o : Options) {data : List UInt8} (hlen : data.length > 12)
    (hrtf : is_rtf_data data = .ok true)
    (hassert : get_rtf_data_from_buf o data.length data ≠ .error .assertion) :
    (rtf_value o ⟨data.length, .buf (.full data)⟩ ≠ .error .fault
      ∧ ∀ r, rtf_value o ⟨data.length, .buf (.full data)⟩ = .ok (some r) →
        r.len ≤ r.data.bytes.length) ↔ ¬ StoredOverrun o data := by
  obtain ⟨hlen16, c, n, m, k, hw, hc⟩ := header_of_no_assertion hassert
  have hvalue : (rtf_value o ⟨data.length, .buf (.full data)⟩ ≠ .error .fault
      ∧ ∀ r, rtf_value o ⟨data.length, .buf (.full data)⟩ = .ok (some r) →
        r.len ≤ r.data.bytes.length)
      ↔ Avoids .fault OutFits (get_rtf_data_from_buf o data.length data) := by
    rw [rtf_value_eq o hlen hrtf]
    cases get_rtf_data_from_buf o data.length data with
    | error e => simp
    | ok r => simp [OutFits]
  have hmagic : m = rtf_uncompressed_magic ∨ m = rtf_compressed_magic := by
    rw [is_rtf_data_of_words hw] at hrtf
    exact of_decide_eq_true (Except.ok.inj hrtf)
  rw [hvalue, storedOverrun_iff hw, get_rtf_data_from_buf_eq o hw hlen16 hc]
  rcases hmagic with rfl | rfl
  · rw [if_pos rfl, stored_branch_safe_iff]
    simp
  · rw [if_neg (by decide), if_pos rfl]
    have hne : rtf_compressed_magic ≠ rtf_uncompressed_magic := by decide
    simp only [hne, false_and, not_false_iff, iff_true]
    exact compressed_branch_safe o hlen16 n k

/-- Seventeen bytes that declare a stored body of thirteen. -/
theorem rtf_value_safe_witness :
    let data : List UInt8 := [13, 0, 0, 0, 13, 0, 0, 0, 77, 69, 76, 65, 0, 0, 0, 0, 65]
    (rtf_value {} ⟨17, .buf (.full data)⟩ ≠ .error .fault
      ∧ ∀ r, rtf_value {} ⟨17, .buf (.full data)⟩ = .ok (some r) → r.len ≤ r.data.bytes.length)
      ↔ ¬ StoredOverrun {} data :=
  @rtf_value_safe {} [13, 0, 0, 0, 13, 0, 0, 0, 77, 69, 76, 65, 0, 0, 0, 0, 65] (by decide)
    (by decide +kernel) (by decide +kernel)

/-- With fourteen declared, the copy of the stored branch reads behind the value. -/
theorem rtf_value_stored_overrun :
    ¬ ∀ (o : Options) (data : List UInt8), data.length > 12 → is_rtf_data data = .ok true →
      get_rtf_data_from_buf o data.length data ≠ .error .assertion →
      rtf_value o ⟨data.length, .buf (.full data)⟩ ≠ .error .fault
        ∧ ∀ r, rtf_value o ⟨data.length, .buf (.full data)⟩ = .ok (some r) →
          r.len ≤ r.data.bytes.length := by
  intro h
  have hfault := (h {} [13, 0, 0, 0, 14, 0, 0, 0, 77, 69, 76, 65, 0, 0, 0, 0, 65] (by decide)
    (by decide +kernel) (by decide +kernel)).1
  revert hfault
  decide +kernel

end Tnef
