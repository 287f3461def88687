/-
UTF-16LE, and the UTF-8-like form that encodes every 16-bit unit by itself.

The standard UTF-8 encoding of a character is the core library's
`String.utf8EncodeChar`. A converter that looks at one UTF-16 unit at a time
cannot join a surrogate pair, and produces instead the two three-byte groups
`unitwise` lays down; on characters of the basic plane the two agree.
-/
import Tnef.Lib.LittleEndian
import Mathlib.Tactic

set_option autoImplicit false

namespace Utf16

/-- The 16-bit units of a character: one, or a surrogate pair. -/
def units (c : Char) : List UInt16 :=
  if c.val < 0x10000 then [c.val.toUInt16]
  else [(0xd800 : UInt16) + ((c.val - 0x10000) >>> 10).toUInt16,
        (0xdc00 : UInt16) + ((c.val - 0x10000) &&& 0x3ff).toUInt16]

/-- The UTF-16LE bytes of a text. -/
def encode (cs : List Char) : List UInt8 :=
  cs.flatMap fun c => (units c).flatMap LittleEndian.le16

/-- The three-byte group that spells a 16-bit value. -/
def group (u : UInt16) : List UInt8 :=
  [UInt8.ofNat (u.toNat / 4096 % 0x10 + 0xe0), UInt8.ofNat (u.toNat / 64 % 0x40 + 0x80),
   UInt8.ofNat (u.toNat % 0x40 + 0x80)]

/-- UTF-8 of a character, except that the two surrogates of a supplementary
character are spelled by one group each. -/
def unitwise (c : Char) : List UInt8 :=
  if c.val < 0x10000 then String.utf8EncodeChar c else (units c).flatMap group

theorem units_of_lt {c : Char} (h : c.val < 0x10000) : units c = [c.val.toUInt16] := if_pos h

theorem unitwise_of_lt {c : Char} (h : c.val < 0x10000) : unitwise c = String.utf8EncodeChar c :=
  if_pos h

/-- A unit of a surrogate pair is at least `0xd800`. -/
theorem le_of_mem_units {c : Char} (h : ¬ c.val < 0x10000) {u : UInt16} (hu : u ∈ units c) :
    0xd800 ≤ u.toNat := by
  have hmax : c.val.toNat ≤ 0x10ffff := by
    have hvalid := c.valid
    simp only [UInt32.isValidChar, Nat.isValidChar] at hvalid
    omega
  have hmin : 0x10000 ≤ c.val.toNat := by
    have hnot : ¬ c.val.toNat < 0x10000 := fun hlt => h (UInt32.lt_iff_toNat_lt.mpr hlt)
    omega
  have hsub : (c.val - 0x10000).toNat = c.val.toNat - 0x10000 :=
    UInt32.toNat_sub_of_le _ _ (UInt32.le_iff_toNat_le.mpr hmin)
  rw [units, if_neg h, List.mem_cons, List.mem_singleton] at hu
  rcases hu with rfl | rfl
  · simp only [UInt16.toNat_add, UInt32.toNat_toUInt16, UInt32.toNat_shiftRight, hsub,
      Nat.shiftRight_eq_div_pow, UInt16.reduceToNat, UInt32.reduceToNat, Nat.reduceMod,
      Nat.reducePow]
    omega
  · have hlow : (c.val.toNat - 0x10000) &&& 0x3ff = (c.val.toNat - 0x10000) % 0x400 :=
      Nat.and_two_pow_sub_one_eq_mod _ 10
    simp only [UInt16.toNat_add, UInt32.toNat_toUInt16, UInt32.toNat_and, hsub,
      UInt16.reduceToNat, UInt32.reduceToNat, hlow]
    omega

end Utf16
