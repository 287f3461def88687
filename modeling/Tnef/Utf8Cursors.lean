/-
Text within the range of the `int` cursors.

`i` and `j` in `unicode_to_utf8` are `int`s; the machine has exact ones, so an overflow is a
cursor of `2 ^ 31` or more at a point of the run. They come to the length of the text and
to its size in UTF-8 (`convInRange_iff`). For text within that range the conversion is
compared with the standard.
-/
import Tnef.Utf8
import Tnef.Utf8Machine

set_option autoImplicit false

namespace Tnef

open ExceptRules Machine Slice LittleEndian

/-! ## The range -/

/-- The units of a text, without a stray last byte. -/
def unit_words : List UInt8 → List UInt16
  | b₀ :: b₁ :: rest => ofLe16 b₀ b₁ :: unit_words rest
  | _ => []

/-- The bytes a text takes in UTF-8, as the source encodes it. -/
def text_size (us : List UInt16) : ℕ :=
  us.countP (·.toNat ≤ 0x7f) + 2 * us.countP (fun u => 0x7f < u.toNat ∧ u.toNat < 0x7ff)
    + 3 * us.countP (0x7ff ≤ ·.toNat)

/-- One, two or three bytes, by the comparisons of the source. -/
theorem utf8_unit_length (u : UInt16) : (utf8_unit u.toUInt32).length
    = if u.toNat ≤ 0x7f then 1 else if u.toNat < 0x7ff then 2 else 3 := by
  have hnat : u.toUInt32.toNat = u.toNat := UInt16.toNat_toUInt32 u
  split_ifs with hone htwo
  · rw [utf8_unit_one (by rwa [hnat])]
    rfl
  · rw [utf8_unit_two (by rwa [hnat]) (by rwa [hnat])]
    rfl
  · rw [utf8_unit_three (by rw [hnat]; omega)]
    rfl

/-- The size unit by unit. -/
theorem text_size_cons (u : UInt16) (us : List UInt16) :
    text_size (u :: us) = (utf8_unit u.toUInt32).length + text_size us := by
  simp only [text_size, utf8_unit_length, List.countP_cons, decide_eq_true_eq]
  split_ifs <;> omega

/-- The size is the length of the conversion. -/
theorem utf8_units_length (bs : List UInt8) : (utf8_units bs).length = text_size (unit_words bs) := by
  induction bs using utf8_units.induct with
  | case1 b₀ b₁ rest ih =>
    rw [utf8_units, unit_words, text_size_cons, List.length_append, ih]
  | case2 bs h =>
    rw [utf8_units, unit_words]
    · rfl
    · exact h
    · exact h

/-- `i` and `j` stay below `2 ^ 31`, at every point of every run. -/
def ConvInRange (len : ℕ) (buf : List UInt8) : Prop :=
  ∀ tr c, ConvRun len buf tr c → c.i < 2 ^ 31 ∧ c.j < 2 ^ 31

/-- `i` does not pass the end of the text. -/
theorem ConvSound.i_le {bs : List UInt8} {tr : List ConvAccess} {c : ConvPoint}
    (hs : ConvSound bs tr c) : c.i ≤ bs.length := by
  have hplaced := hs.placed
  cases c with
  | head i utf8 => exact hplaced
  | put i bytes utf8 => exact (Nat.le_add_right i 2).trans hplaced
  | done i utf8 => exact hplaced.1

/-- `i` ends at the even one of `len - 1` and `len`, and `2 ^ 31 - 1` is odd. -/
theorem convInRange_iff {len : ℕ} {buf : List UInt8} (hbuf : len ≤ buf.length) :
    ConvInRange len buf ↔ len < 2 ^ 31 ∧ text_size (unit_words (buf.take len)) < 2 ^ 31 := by
  have hat := at_take hbuf
  have hlen : (buf.take len).length = len := List.length_take_of_le hbuf
  generalize buf.take len = bs at hat hlen
  subst hlen
  rw [← utf8_units_length]
  constructor
  · intro h
    obtain ⟨tr, i, hrun, hs⟩ := convRun_ends hat
    obtain ⟨hi, hj⟩ := h tr _ hrun
    -- at the end `i` is even and within one of `len`
    have heven : i % 2 = 0 := hs.even
    have hplaced : i ≤ bs.length ∧ bs.length ≤ i + 1 := hs.placed
    refine ⟨?_, hj⟩
    have hlast : i < 2 ^ 31 := hi
    omega
  · rintro ⟨hlen, htext⟩ tr c hrun
    have hs := ConvRun.sound hat hrun
    refine ⟨hs.i_le.trans_lt hlen, ?_⟩
    have hj := hs.j_add
    omega

/-- A text of zeros that is too long. -/
theorem not_convInRange_of_le {len : ℕ} (h : 2 ^ 31 ≤ len) :
    ¬ ConvInRange len (List.replicate len 0) := by
  rw [convInRange_iff List.length_replicate.ge]
  exact fun hrange => absurd hrange.1 (not_lt.mpr h)

/-- Two bytes of the text come to three at most, so two thirds of the range are safe. -/
theorem convInRange_of_length {len : ℕ} {buf : List UInt8} (hbuf : len ≤ buf.length)
    (hlen : 3 * len < 2 ^ 32) : ConvInRange len buf := by
  have htext := utf8_units_length_le (buf.take len)
  rw [utf8_units_length, List.length_take_of_le hbuf] at htext
  exact (convInRange_iff hbuf).mpr ⟨by omega, by omega⟩

/-! ## Within the range -/

/-- **UTF-16LE in, UTF-8 out.** A text without U+07FF, with or without a stray byte after
it, of which neither the encoding nor the conversion is longer than the cursors reach, is
converted character by character; where every character is in the basic plane the result
is the standard UTF-8 encoding, which a strict decoder takes back to the text. -/
theorem unicode_to_utf8_encode (cs : List Char) (hne : ∀ c ∈ cs, c.val ≠ 0x7ff)
    (stray : List UInt8) (hstray : stray.length ≤ 1)
    (hlen : (Utf16.encode cs ++ stray).length < 2 ^ 31)
    (htext : (cs.flatMap Utf16.unitwise).length < 2 ^ 31) :
    ConvInRange (Utf16.encode cs ++ stray).length (Utf16.encode cs ++ stray)
      ∧ ∃ b, unicode_to_utf8 (Utf16.encode cs ++ stray).length (Utf16.encode cs ++ stray) 0 = .ok b
        ∧ b.bytes = cs.flatMap Utf16.unitwise ++ [0]
        ∧ ((∀ c ∈ cs, c.val < 0x10000) → b.bytes = cs.flatMap String.utf8EncodeChar ++ [0]
            ∧ (b.bytes.dropLast).toByteArray.utf8Decode? = some cs.toArray) := by
  have hunits := utf8_units_encode hne hstray
  refine ⟨?_, utf8_block (Utf16.encode cs ++ stray), unicode_to_utf8_of_at (at_zero _), ?_, ?_⟩
  · rw [convInRange_iff le_rfl, List.take_length, ← utf8_units_length, hunits]
    exact ⟨hlen, htext⟩
  · rw [utf8_block_bytes, hunits]
  · intro hbasic
    have hbytes : (utf8_block (Utf16.encode cs ++ stray)).bytes
        = cs.flatMap String.utf8EncodeChar ++ [0] := by
      rw [utf8_block_bytes, hunits]
      exact congrArg (· ++ [0]) (List.flatMap_congr fun c hc => Utf16.unitwise_of_lt (hbasic c hc))
    refine ⟨hbytes, ?_⟩
    rw [hbytes, List.dropLast_concat]
    exact List.utf8Decode?_utf8Encode (l := cs)

/-- `a`, the euro sign and a stray byte. -/
theorem unicode_to_utf8_encode_witness :
    ∃ b, unicode_to_utf8 5 [0x61, 0, 0xac, 0x20, 9] 0 = .ok b
      ∧ b.bytes = [0x61, 0xe2, 0x82, 0xac, 0] := by
  obtain ⟨-, b, hb, hbytes, -⟩ :=
    unicode_to_utf8_encode ['a', '€'] (by simp) [9] (by decide) (by decide) (by decide)
  exact ⟨b, hb, hbytes.trans (by decide)⟩

/-- A surrogate pair is not joined: U+10000 gives six bytes, not the standard four. -/
theorem unicode_to_utf8_surrogates :
    ¬ ∀ cs : List Char, ∃ b, unicode_to_utf8 (Utf16.encode cs).length (Utf16.encode cs) 0 = .ok b
      ∧ b.bytes = cs.flatMap String.utf8EncodeChar ++ [0] := by
  intro h
  obtain ⟨b, hb, hbytes⟩ := h [Char.ofNat 0x10000]
  have hrun : unicode_to_utf8 (Utf16.encode [Char.ofNat 0x10000]).length
      (Utf16.encode [Char.ofNat 0x10000]) 0
      = .ok ⟨7, [0xed, 0xa0, 0x80, 0xed, 0xb0, 0x80, 0], by decide⟩ := by decide +kernel
  rw [hrun] at hb
  cases hb
  revert hbytes
  decide

end Tnef
