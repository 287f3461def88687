/-
Little-endian 16- and 32-bit words as byte lists.

`ofLe16` and `ofLe32` assemble a word the way C code on bytes does, by shifting
and adding; `le16` and `le32` lay it out again. The two directions are inverse
to each other, so a format that stores words this way loses nothing.
-/
import Mathlib.Tactic

set_option autoImplicit false

namespace LittleEndian

/-- The two bytes of a word, low byte first. -/
def le16 (x : UInt16) : List UInt8 := [x.toUInt8, (x >>> 8).toUInt8]

/-- The four bytes of a word, low byte first. -/
def le32 (x : UInt32) : List UInt8 :=
  [x.toUInt8, (x >>> 8).toUInt8, (x >>> 16).toUInt8, (x >>> 24).toUInt8]

/-- The word two bytes spell. -/
def ofLe16 (b₀ b₁ : UInt8) : UInt16 := b₀.toUInt16 + (b₁.toUInt16 <<< 8)

/-- The word four bytes spell. -/
def ofLe32 (b₀ b₁ b₂ b₃ : UInt8) : UInt32 :=
  b₀.toUInt32 + (b₁.toUInt32 <<< 8) + (b₂.toUInt32 <<< 16) + (b₃.toUInt32 <<< 24)

@[simp] theorem le16_length (x : UInt16) : (le16 x).length = 2 := rfl

@[simp] theorem le32_length (x : UInt32) : (le32 x).length = 4 := rfl

theorem ofLe16_toNat (b₀ b₁ : UInt8) : (ofLe16 b₀ b₁).toNat = b₀.toNat + 2 ^ 8 * b₁.toNat := by
  have h₀ := b₀.toNat_lt
  have h₁ := b₁.toNat_lt
  simp only [ofLe16, UInt16.toNat_add, UInt8.toNat_toUInt16, UInt16.toNat_shiftLeft,
    Nat.shiftLeft_eq]
  simp
  omega

theorem ofLe32_toNat (b₀ b₁ b₂ b₃ : UInt8) : (ofLe32 b₀ b₁ b₂ b₃).toNat
    = b₀.toNat + 2 ^ 8 * b₁.toNat + 2 ^ 16 * b₂.toNat + 2 ^ 24 * b₃.toNat := by
  have h₀ := b₀.toNat_lt
  have h₁ := b₁.toNat_lt
  have h₂ := b₂.toNat_lt
  have h₃ := b₃.toNat_lt
  simp only [ofLe32, UInt32.toNat_add, UInt8.toNat_toUInt32, UInt32.toNat_shiftLeft,
    Nat.shiftLeft_eq]
  simp
  omega

/-- Laying a 16-bit word out and assembling it again is the identity. -/
theorem ofLe16_le16 (x : UInt16) : ofLe16 x.toUInt8 (x >>> 8).toUInt8 = x := by
  apply UInt16.toNat_inj.mp
  have hx := x.toNat_lt
  rw [ofLe16_toNat]
  simp [Nat.shiftRight_eq_div_pow]
  omega

/-- Laying a 32-bit word out and assembling it again is the identity. -/
theorem ofLe32_le32 (x : UInt32) :
    ofLe32 x.toUInt8 (x >>> 8).toUInt8 (x >>> 16).toUInt8 (x >>> 24).toUInt8 = x := by
  apply UInt32.toNat_inj.mp
  have hx := x.toNat_lt
  rw [ofLe32_toNat]
  simp [Nat.shiftRight_eq_div_pow]
  omega

/-- Assembling two bytes and laying the word out gives the bytes back. -/
theorem le16_ofLe16 (b₀ b₁ : UInt8) : le16 (ofLe16 b₀ b₁) = [b₀, b₁] := by
  have h₀ := b₀.toNat_lt
  have h₁ := b₁.toNat_lt
  simp only [le16, List.cons.injEq, and_true]
  refine ⟨UInt8.toNat_inj.mp ?_, UInt8.toNat_inj.mp ?_⟩
  · simp [ofLe16_toNat]
  · simp [ofLe16_toNat, Nat.shiftRight_eq_div_pow]
    omega

/-- Assembling four bytes and laying the word out gives the bytes back. -/
theorem le32_ofLe32 (b₀ b₁ b₂ b₃ : UInt8) : le32 (ofLe32 b₀ b₁ b₂ b₃) = [b₀, b₁, b₂, b₃] := by
  have h₀ := b₀.toNat_lt
  have h₁ := b₁.toNat_lt
  have h₂ := b₂.toNat_lt
  have h₃ := b₃.toNat_lt
  simp only [le32, List.cons.injEq, and_true]
  refine ⟨?_, ?_, ?_, ?_⟩ <;>
  · apply UInt8.toNat_inj.mp
    simp only [UInt32.toNat_toUInt8, UInt32.toNat_shiftRight, ofLe32_toNat,
      Nat.shiftRight_eq_div_pow, UInt32.reduceToNat, Nat.reduceMod, Nat.reducePow]
    omega

end LittleEndian
