/-
`unicode_to_utf8` against the Unicode standard.

The conversion takes one 16-bit unit at a time. On a character of the basic plane
it follows the standard with one exception: the test for two bytes is
`c < 0x07ff`, so U+07FF goes to the three-byte branch. It has no surrogate state,
so the two units of a supplementary character come out as two three-byte groups.
-/
import Tnef.Util
import Tnef.Lib.Utf16

set_option autoImplicit false

namespace Tnef

open Slice LittleEndian

/-! ## One unit

Each branch as arithmetic on the unit's value, in the form the core library writes
the standard encoding in. -/

theorem utf8_unit_one {c : UInt32} (h : c.toNat ≤ 0x7f) : utf8_unit c = [UInt8.ofNat c.toNat] := by
  have h₁ : c ≤ 0x007f := UInt32.le_iff_toNat_le.mpr h
  have hmask : 0 ||| ((c.toNat &&& 0x7f) >>> 0) = c.toNat := by
    rw [Nat.zero_or, Nat.shiftRight_zero,
      show c.toNat &&& 0x7f = c.toNat % 0x80 from Nat.and_two_pow_sub_one_eq_mod _ 7]
    omega
  rw [utf8_unit, if_pos h₁, List.cons.injEq]
  refine ⟨UInt8.toNat_inj.mp ?_, rfl⟩
  simp only [UInt32.toNat_toUInt8, UInt32.toNat_or, UInt32.toNat_shiftRight, UInt32.toNat_and,
    UInt32.reduceToNat, Nat.reduceMod, UInt8.toNat_ofNat', Nat.reducePow, hmask]

/-- `0xc0 | ((c & 0x07c0) >> 6)`: the mask commutes with the shift, and the two
halves of the `or` share no bit. -/
theorem lead_two (n : ℕ) : 0xc0 ||| ((n &&& 0x07c0) >>> 6) = n / 64 % 0x20 + 0xc0 := by
  have hmask : (n >>> 6) &&& 0x1f = n / 64 % 0x20 := by
    rw [Nat.shiftRight_eq_div_pow]
    exact Nat.and_two_pow_sub_one_eq_mod _ 5
  rw [Nat.shiftRight_and_distrib, show (0x07c0 >>> 6 : ℕ) = 0x1f from rfl, hmask, Nat.add_comm]
  exact (Nat.two_pow_add_eq_or_of_lt (i := 5) (Nat.mod_lt _ (by decide)) 6).symm

/-- `0xe0 | ((c & 0xf000) >> 12)`. -/
theorem lead_three (n : ℕ) : 0xe0 ||| ((n &&& 0xf000) >>> 12) = n / 4096 % 0x10 + 0xe0 := by
  have hmask : (n >>> 12) &&& 0xf = n / 4096 % 0x10 := by
    rw [Nat.shiftRight_eq_div_pow]
    exact Nat.and_two_pow_sub_one_eq_mod _ 4
  rw [Nat.shiftRight_and_distrib, show (0xf000 >>> 12 : ℕ) = 0xf from rfl, hmask, Nat.add_comm]
  exact (Nat.two_pow_add_eq_or_of_lt (i := 4) (Nat.mod_lt _ (by decide)) 14).symm

/-- `0x80 | ((c & 0x0fc0) >> 6)`. -/
theorem cont_high (n : ℕ) : 0x80 ||| ((n &&& 0x0fc0) >>> 6) = n / 64 % 0x40 + 0x80 := by
  have hmask : (n >>> 6) &&& 0x3f = n / 64 % 0x40 := by
    rw [Nat.shiftRight_eq_div_pow]
    exact Nat.and_two_pow_sub_one_eq_mod _ 6
  rw [Nat.shiftRight_and_distrib, show (0x0fc0 >>> 6 : ℕ) = 0x3f from rfl, hmask, Nat.add_comm]
  exact (Nat.two_pow_add_eq_or_of_lt (i := 6) (Nat.mod_lt _ (by decide)) 2).symm

/-- `0x80 | ((c & 0x003f) >> 0)`. -/
theorem cont_low (n : ℕ) : 0x80 ||| ((n &&& 0x003f) >>> 0) = n % 0x40 + 0x80 := by
  rw [Nat.shiftRight_zero, show n &&& 0x3f = n % 0x40 from Nat.and_two_pow_sub_one_eq_mod _ 6,
    Nat.add_comm]
  exact (Nat.two_pow_add_eq_or_of_lt (i := 6) (Nat.mod_lt _ (by decide)) 2).symm

theorem utf8_unit_two {c : UInt32} (hlo : ¬ c.toNat ≤ 0x7f) (hhi : c.toNat < 0x7ff) :
    utf8_unit c = [UInt8.ofNat (c.toNat / 64 % 0x20 + 0xc0), UInt8.ofNat (c.toNat % 0x40 + 0x80)] := by
  have h₁ : ¬ c ≤ 0x007f := fun h => hlo (UInt32.le_iff_toNat_le.mp h)
  have h₂ : c < 0x07ff := UInt32.lt_iff_toNat_lt.mpr hhi
  rw [utf8_unit, if_neg h₁, if_pos h₂]
  simp only [List.cons.injEq, and_true]
  refine ⟨UInt8.toNat_inj.mp ?_, UInt8.toNat_inj.mp ?_⟩
  · have h := lead_two c.toNat
    simp only [UInt32.toNat_toUInt8, UInt32.toNat_or, UInt32.toNat_shiftRight, UInt32.toNat_and,
      UInt32.reduceToNat, Nat.reduceMod, UInt8.toNat_ofNat', Nat.reducePow, h]
  · have h := cont_low c.toNat
    simp only [UInt32.toNat_toUInt8, UInt32.toNat_or, UInt32.toNat_shiftRight, UInt32.toNat_and,
      UInt32.reduceToNat, Nat.reduceMod, UInt8.toNat_ofNat', Nat.reducePow, h]

theorem utf8_unit_three {c : UInt32} (h : 0x7ff ≤ c.toNat) :
    utf8_unit c = [UInt8.ofNat (c.toNat / 4096 % 0x10 + 0xe0),
      UInt8.ofNat (c.toNat / 64 % 0x40 + 0x80), UInt8.ofNat (c.toNat % 0x40 + 0x80)] := by
  have h₁ : ¬ c ≤ 0x007f := fun hle => by
    have hle := UInt32.le_iff_toNat_le.mp hle
    simp at hle
    omega
  have h₂ : ¬ c < 0x07ff := fun hlt => by
    have hlt := UInt32.lt_iff_toNat_lt.mp hlt
    simp at hlt
    omega
  rw [utf8_unit, if_neg h₁, if_neg h₂]
  simp only [List.cons.injEq, and_true]
  refine ⟨UInt8.toNat_inj.mp ?_, UInt8.toNat_inj.mp ?_, UInt8.toNat_inj.mp ?_⟩
  · have h := lead_three c.toNat
    simp only [UInt32.toNat_toUInt8, UInt32.toNat_or, UInt32.toNat_shiftRight, UInt32.toNat_and,
      UInt32.reduceToNat, Nat.reduceMod, UInt8.toNat_ofNat', Nat.reducePow, h]
  · have h := cont_high c.toNat
    simp only [UInt32.toNat_toUInt8, UInt32.toNat_or, UInt32.toNat_shiftRight, UInt32.toNat_and,
      UInt32.reduceToNat, Nat.reduceMod, UInt8.toNat_ofNat', Nat.reducePow, h]
  · have h := cont_low c.toNat
    simp only [UInt32.toNat_toUInt8, UInt32.toNat_or, UInt32.toNat_shiftRight, UInt32.toNat_and,
      UInt32.reduceToNat, Nat.reduceMod, UInt8.toNat_ofNat', Nat.reducePow, h]

/-! ## One character -/

/-- On a basic-plane character other than U+07FF the unit's bytes are the standard ones. -/
theorem utf8_unit_standard {c : Char} (hlt : c.val < 0x10000) (hne : c.val ≠ 0x7ff) :
    utf8_unit c.val.toUInt16.toUInt32 = String.utf8EncodeChar c := by
  have hlt' : c.val.toNat < 0x10000 := UInt32.lt_iff_toNat_lt.mp hlt
  have hne' : c.val.toNat ≠ 0x7ff := fun h => hne (UInt32.toNat_inj.mp h)
  have hback : c.val.toUInt16.toUInt32.toNat = c.val.toNat := by
    simp only [UInt16.toNat_toUInt32, UInt32.toNat_toUInt16]
    omega
  rw [String.utf8EncodeChar]
  by_cases h1 : c.val.toNat ≤ 0x7f
  · rw [utf8_unit_one (by rw [hback]; exact h1), hback, if_pos h1]
  · by_cases h2 : c.val.toNat < 0x7ff
    · rw [utf8_unit_two (by rw [hback]; exact h1) (by rw [hback]; exact h2), hback, if_neg h1,
        if_pos (by omega)]
    · rw [utf8_unit_three (by rw [hback]; omega), hback, if_neg h1, if_neg (by omega),
        if_pos (by omega)]

/-- A surrogate is spelled by a group of its own. -/
theorem utf8_unit_group {u : UInt16} (h : 0x7ff ≤ u.toNat) :
    utf8_unit u.toUInt32 = Utf16.group u := by
  rw [utf8_unit_three (by simpa using h), UInt16.toNat_toUInt32, Utf16.group]

/-! ## A whole text -/

/-- Two bytes that spell a unit are converted on their own. -/
theorem utf8_units_le16 (u : UInt16) (rest : List UInt8) :
    utf8_units (le16 u ++ rest) = utf8_unit u.toUInt32 ++ utf8_units rest := by
  show utf8_units (u.toUInt8 :: (u >>> 8).toUInt8 :: rest) = _
  rw [utf8_units, ofLe16_le16]

theorem utf8_units_flatMap (us : List UInt16) (rest : List UInt8) :
    utf8_units (us.flatMap le16 ++ rest)
      = us.flatMap (fun u => utf8_unit u.toUInt32) ++ utf8_units rest := by
  induction us with
  | nil => rfl
  | cons u us ih =>
    rw [List.flatMap_cons, List.append_assoc, utf8_units_le16, ih, List.flatMap_cons,
      List.append_assoc]

/-- One character's units, converted. -/
theorem flatMap_units_eq_unitwise {c : Char} (hne : c.val ≠ 0x7ff) :
    (Utf16.units c).flatMap (fun u => utf8_unit u.toUInt32) = Utf16.unitwise c := by
  by_cases hlt : c.val < 0x10000
  · rw [Utf16.units_of_lt hlt, Utf16.unitwise_of_lt hlt, List.flatMap_cons, List.flatMap_nil,
      List.append_nil, utf8_unit_standard hlt hne]
  · rw [Utf16.unitwise, if_neg hlt]
    refine List.flatMap_congr fun u hu => utf8_unit_group ?_
    have h := Utf16.le_of_mem_units hlt hu
    omega

/-- The conversion of an encoded text, up to a stray last byte. -/
theorem utf8_units_encode {cs : List Char} (hne : ∀ c ∈ cs, c.val ≠ 0x7ff) {stray : List UInt8}
    (hstray : stray.length ≤ 1) :
    utf8_units (Utf16.encode cs ++ stray) = cs.flatMap Utf16.unitwise := by
  induction cs with
  | nil =>
    match stray, hstray with
    | [], _ => rfl
    | [_], _ => rfl
  | cons c cs ih =>
    rw [Utf16.encode, List.flatMap_cons, List.append_assoc, utf8_units_flatMap,
      flatMap_units_eq_unitwise (hne c (List.mem_cons_self ..)), List.flatMap_cons]
    exact congrArg _ (ih fun d hd => hne d (List.mem_cons_of_mem _ hd))

end Tnef
