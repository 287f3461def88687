/-
The checksum of a compressed value.

`generate_crc` takes a byte at a time from a table. Each of its 256 words is the byte shifted
through the register eight times (`crc_table_eq`), so a step of the loop is the reflected
check of the byte's bits, and the sum is the prescribed one (`generate_crc_reflected`). The
generator has its high bit, so what `get_rtf_data_from_buf` does to a value that was altered
within four bytes is settled: it is turned away, wherever the four bytes lie.
-/
import Tnef.Lib.Crc
import Tnef.MapiLayout
import Tnef.RtfDecode

set_option autoImplicit false

namespace Tnef

open ExceptRules Slice LittleEndian

/-- The reflected generator, without its leading term. -/
abbrev crc_poly : BitVec 32 := 0xedb88320#32

/-- The bits of a message, byte by byte. -/
def message_bits (data : List UInt8) : List Bool := data.flatMap fun c => Crc.bits c.toBitVec

/-! ## The table -/

theorem crc_table_eq : ∀ j < 256,
    (crc_table.getD j 0).toBitVec = Crc.shifts crc_poly 8 (BitVec.ofNat 32 j) := by
  decide +kernel

/-- One step of the loop takes the eight bits of the byte. -/
theorem crc_step_eq (crc : UInt32) (c : UInt8) :
    (crc_step crc c).toBitVec = (Crc.bits c.toBitVec).foldl (Crc.bit crc_poly) crc.toBitVec := by
  have hmask : ((crc ^^^ c.toUInt32) &&& 0xff).toNat < 256 := by
    rw [UInt32.toNat_and]
    exact Nat.lt_succ_of_le Nat.and_le_right
  have hindex : BitVec.ofNat 32 ((crc ^^^ c.toUInt32) &&& 0xff).toNat
      = ((crc.toBitVec ^^^ c.toBitVec.setWidth 32).setWidth 8).setWidth 32 := by
    apply BitVec.eq_of_toNat_eq
    rw [BitVec.toNat_ofNat, Nat.mod_eq_of_lt (by omega), UInt32.toNat_and, BitVec.toNat_setWidth,
      BitVec.toNat_setWidth]
    have hlow := Nat.and_two_pow_sub_one_eq_mod (crc ^^^ c.toUInt32).toNat 8
    have hbyte := Nat.mod_lt (crc ^^^ c.toUInt32).toNat (show 0 < 2 ^ 8 by decide)
    show _ = (crc ^^^ c.toUInt32).toNat % 2 ^ 8 % 2 ^ 32
    rw [Nat.mod_eq_of_lt (show _ < 2 ^ 32 from lt_trans hbyte (by decide))]
    exact hlow
  rw [Crc.shifts_digit _ (by decide), crc_step, UInt32.toBitVec_xor, crc_table_eq _ hmask, hindex]
  rfl

/-- The loop takes the bits of the message into a register of zeros. -/
theorem generate_crc_eq (data : List UInt8) :
    (generate_crc data).toBitVec = (message_bits data).foldl (Crc.bit crc_poly) 0#32 := by
  have hrun : ∀ (bs : List UInt8) (crc : UInt32), (bs.foldl crc_step crc).toBitVec
      = (message_bits bs).foldl (Crc.bit crc_poly) crc.toBitVec := by
    intro bs
    induction bs with
    | nil => exact fun _ => rfl
    | cons c bs ih =>
      intro crc
      rw [List.foldl_cons, ih, crc_step_eq, message_bits, message_bits, List.flatMap_cons,
        List.foldl_append]
  exact hrun data 0

/-- One bit of the prescribed check. -/
def crc_bit (crc : UInt32) : UInt32 :=
  if crc &&& 1 = 1 then (crc >>> 1) ^^^ 0xedb88320 else crc >>> 1

/-- The check as it is prescribed, without a table: a byte is added to the register, which is
then shifted eight times. The register starts at zero and is not inverted at the end. -/
def reflected_crc (data : List UInt8) : UInt32 :=
  data.foldl (fun crc c => crc_bit^[8] (crc ^^^ c.toUInt32)) 0

theorem crc_bit_eq (crc : UInt32) : (crc_bit crc).toBitVec = Crc.shift crc_poly crc.toBitVec := by
  have hlow : crc &&& 1 = 1 ↔ crc.toBitVec.getLsbD 0 = true := by
    have hone : (crc &&& 1).toBitVec = (BitVec.ofBool (crc.toBitVec.getLsbD 0)).setWidth 32 := by
      rw [UInt32.toBitVec_and]
      exact BitVec.and_one_eq_setWidth_ofBool_getLsbD
    rw [← UInt32.toBitVec_inj, hone]
    cases crc.toBitVec.getLsbD 0 <;> decide
  unfold crc_bit Crc.shift
  by_cases hbit : crc &&& 1 = 1
  · rw [if_pos hbit, if_pos (hlow.mp hbit)]
    rfl
  · rw [if_neg hbit, if_neg fun h => hbit (hlow.mpr h)]
    rfl

theorem crc_bits_eq (n : ℕ) (crc : UInt32) :
    (crc_bit^[n] crc).toBitVec = Crc.shifts crc_poly n crc.toBitVec := by
  induction n with
  | zero => rfl
  | succ n ih => rw [Function.iterate_succ_apply', crc_bit_eq, ih, Crc.shifts_succ']

/-- **The table-driven checksum is the prescribed one.** -/
theorem generate_crc_reflected (data : List UInt8) : generate_crc data = reflected_crc data := by
  have hstep : crc_step = fun crc c => crc_bit^[8] (crc ^^^ c.toUInt32) := by
    funext crc c
    apply UInt32.toBitVec_inj.mp
    rw [crc_step_eq, crc_bits_eq, Crc.foldl_bit _ _ _ (by rw [Crc.bits_length]; decide),
      Crc.bits_length, Crc.word_bits, UInt32.toBitVec_xor]
    rfl
  rw [generate_crc, hstep, reflected_crc]

/-! ## Altered values -/

theorem message_bits_append (as bs : List UInt8) :
    message_bits (as ++ bs) = message_bits as ++ message_bits bs := List.flatMap_append

theorem message_bits_length (data : List UInt8) : (message_bits data).length = 8 * data.length := by
  induction data with
  | nil => rfl
  | cons c data ih =>
    rw [message_bits, List.flatMap_cons, List.length_append, Crc.bits_length, List.length_cons]
    rw [message_bits] at ih
    omega

theorem message_bits_injective : ∀ {as bs : List UInt8}, as.length = bs.length →
    message_bits as = message_bits bs → as = bs
  | [], [], _, _ => rfl
  | a :: as, b :: bs, hlen, h => by
    rw [message_bits, message_bits, List.flatMap_cons, List.flatMap_cons] at h
    obtain ⟨hfirst, hrest⟩ := List.append_inj h (by rw [Crc.bits_length, Crc.bits_length])
    rw [UInt8.toBitVec_inj.mp (Crc.bits_injective hfirst),
      message_bits_injective (Nat.succ.inj hlen) hrest]

/-- Messages that differ within four bytes have different sums. -/
theorem generate_crc_burst {window window' : List UInt8} (hlen : window.length = window'.length)
    (hfour : window.length ≤ 4) (hne : window ≠ window') (before after : List UInt8) :
    generate_crc (before ++ window ++ after) ≠ generate_crc (before ++ window' ++ after) := by
  intro h
  have hbits := congrArg UInt32.toBitVec h
  rw [generate_crc_eq, generate_crc_eq] at hbits
  simp only [message_bits_append] at hbits
  refine Crc.burst_detected crc_poly (by decide) ?_ ?_ ?_ _ _ _ hbits
  · rw [message_bits_length, message_bits_length, hlen]
  · rw [message_bits_length]
    omega
  · exact fun heq => hne (message_bits_injective hlen heq)

/-- A compressed value that `get_rtf_data_from_buf` goes on to decompress: its size is the one
it declares, and its payload has the sum in its header. -/
structure PassesChecksum (v : List UInt8) : Prop where
  long : 16 < v.length
  words : ∃ compr_size uncompr_size,
    HeaderWords v compr_size uncompr_size rtf_compressed_magic (generate_crc (v.drop 16))
      ∧ compr_size.toNat + 4 = v.length

/-- A value whose payload has another sum than its header says. -/
theorem get_rtf_data_from_buf_mismatch (o : Options) {v : List UInt8} {c n k : UInt32}
    (hlong : 16 < v.length) (hwords : HeaderWords v c n rtf_compressed_magic k)
    (hc : c.toNat + 4 = v.length) (hk : k ≠ generate_crc (v.drop 16)) (extra : List UInt8) :
    get_rtf_data_from_buf o v.length (v ++ extra)
      = checked_xcalloc o 4 1 0 >>= fun _ => .ok (0, .full [0, 0, 0, 0]) := by
  have hblock : rd_block (v ++ extra) 16 (v.length - 16) = .ok (v.drop 16) := by
    have hat := (at_take_drop v 16 (v.length - 16) (by omega)).append_right extra
    have hrest : (v.drop 16).take (v.length - 16) = v.drop 16 :=
      List.take_of_length_le (by rw [List.length_drop])
    rw [hrest] at hat
    exact rd_block_eq_ok.mpr ⟨hat, List.length_drop ..⟩
  rw [get_rtf_data_from_buf_eq o (hwords.append_right extra) hlong hc, if_neg (by decide), if_pos rfl, hblock, ok_bind,
    if_neg hk]
  rfl

/-- **An altered value is turned away.** If a value that passes the checksum is changed within
four consecutive bytes of its payload, the sum is another one and the document returned has no
bytes, unless the limit does not even let through the four bytes allocated for it. -/
theorem get_rtf_data_from_buf_burst (o : Options) {before window window' after : List UInt8}
    (hpass : PassesChecksum (before ++ window ++ after)) (hpayload : 16 ≤ before.length)
    (hlen : window.length = window'.length) (hfour : window.length ≤ 4) (hne : window ≠ window')
    (extra : List UInt8) :
    generate_crc ((before ++ window ++ after).drop 16)
        ≠ generate_crc ((before ++ window' ++ after).drop 16)
      ∧ (∀ r, get_rtf_data_from_buf o (before ++ window' ++ after).length
          (before ++ window' ++ after ++ extra) = .ok r → r = (0, .full [0, 0, 0, 0]))
      ∧ (o.Admits (before ++ window ++ after).length →
        get_rtf_data_from_buf o (before ++ window' ++ after).length
          (before ++ window' ++ after ++ extra) = .ok (0, .full [0, 0, 0, 0])) := by
  obtain ⟨hlong, c, n, hwords, hc⟩ := hpass
  have hsame : (before ++ window' ++ after).length = (before ++ window ++ after).length := by
    simp only [List.length_append, hlen]
  have hcrc : generate_crc ((before ++ window ++ after).drop 16)
      ≠ generate_crc ((before ++ window' ++ after).drop 16) := by
    have hpay : ∀ x : List UInt8, (before ++ x ++ after).drop 16 = before.drop 16 ++ x ++ after := by
      intro x
      rw [List.append_assoc, List.drop_append_of_le_length hpayload, List.append_assoc]
    rw [hpay, hpay]
    exact generate_crc_burst hlen hfour hne _ _
  -- the header lies in front of the window
  have hheader : ∀ {i : ℕ} {x : UInt32}, i + 4 ≤ 16 → At (before ++ window ++ after) i (le32 x) →
      At (before ++ window' ++ after) i (le32 x) := by
    intro i x hi hat
    rw [List.append_assoc] at hat ⊢
    exact (hat.of_append (by rw [le32_length]; omega)).append_right _
  have hwords' : HeaderWords (before ++ window' ++ after) c n rtf_compressed_magic
      (generate_crc ((before ++ window ++ after).drop 16)) :=
    ⟨hheader (by omega) hwords.compr, hheader (by omega) hwords.uncompr,
      hheader (by omega) hwords.magic, hheader (by omega) hwords.checksum⟩
  have hrun := get_rtf_data_from_buf_mismatch o (hsame ▸ hlong) hwords' (hsame ▸ hc) hcrc extra
  rw [hrun]
  refine ⟨hcrc, ?_, ?_⟩
  · intro r hr
    obtain ⟨_, -, hr⟩ := bind_eq_ok.mp hr
    exact (Except.ok.inj hr).symm
  · intro hlim
    have hfour : o.Admits (4 * 1) := hlim.imp id (le_trans (by omega))
    rw [(checked_xcalloc_eq_ok (by decide)).mpr ⟨hfour, rfl⟩, ok_bind]

/-- A payload of one literal, of which one bit is turned. -/
theorem get_rtf_data_from_buf_burst_witness :
    generate_crc ((rtf_header 14 1 rtf_compressed_magic (generate_crc [0, 97]) ++ [0] ++ [97]).drop 16)
        ≠ generate_crc ((rtf_header 14 1 rtf_compressed_magic (generate_crc [0, 97]) ++ [2]
          ++ [97]).drop 16)
      ∧ get_rtf_data_from_buf {} 18
          (rtf_header 14 1 rtf_compressed_magic (generate_crc [0, 97]) ++ [2] ++ [97] ++ [0])
        = .ok (0, .full [0, 0, 0, 0]) := by
  have hpass : PassesChecksum
      (rtf_header 14 1 rtf_compressed_magic (generate_crc [0, 97]) ++ [0] ++ [97]) := by
    refine ⟨by decide, _, _, rtf_header_words 14 1 _ _ [0, 97], rfl⟩
  obtain ⟨hcrc, -, hturned⟩ := get_rtf_data_from_buf_burst {} hpass le_rfl
    (show [(0 : UInt8)].length = [(2 : UInt8)].length from rfl) (by decide) (by decide) [0]
  exact ⟨hcrc, hturned (.inl rfl)⟩

end Tnef
