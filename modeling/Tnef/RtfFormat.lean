/-
Compressed RTF as a format: what an encoder writes for a list of tokens.

A token takes one bit of a control byte (set for a reference) and one or two
bytes; eight tokens share a control byte, least significant bit first. A
reference names a dictionary offset, so its bytes depend on the write offset at
which it stands; the reference to the write offset itself ends the stream.
Nothing here is taken from the decoder except the preset text, the magic numbers
and the checksum function.
-/
import Tnef.Rtf
import Tnef.Lib.Window

set_option autoImplicit false

namespace Tnef

open Window LittleEndian

/-! ## Tokens and their bytes -/

/-- A reference of the format: distance `1..4095`, length `2..17`. -/
def TokenOk : Token UInt8 → Prop
  | .lit _ => True
  | .ref dist len => 1 ≤ dist ∧ dist ≤ 4095 ∧ 2 ≤ len ∧ len ≤ 17

instance : DecidablePred TokenOk := fun t => by
  cases t with
  | lit a => exact .isTrue trivial
  | ref dist len => exact inferInstanceAs (Decidable (_ ∧ _))

/-- One token as it stands in the stream: its control bit and its bytes. -/
structure Item where
  bit : Bool
  bytes : List UInt8
  deriving DecidableEq, Repr

/-- Twelve bits of offset and four of length less two, high bits first. -/
def ref_bytes (roff len : ℕ) : List UInt8 :=
  [UInt8.ofNat (roff / 16), UInt8.ofNat (roff % 16 * 16 + (len - 2))]

/-- The item of a token written when `n` bytes of history are there. -/
def token_item (n : ℕ) : Token UInt8 → Item
  | .lit b => ⟨false, [b]⟩
  | .ref dist len => ⟨true, ref_bytes ((n + 4096 - dist) % 4096) len⟩

/-- The items of a token list from the history `h` on, with the end reference; its
length field `elen` means nothing. -/
def items (elen : ℕ) : List UInt8 → List (Token UInt8) → List Item
  | h, [] => [⟨true, ref_bytes (h.length % 4096) elen⟩]
  | h, t :: ts => token_item h.length t :: items elen (apply 0 h t) ts

/-! ## Packing -/

/-- The control byte over a group of items. -/
def control_bits : List Item → ℕ
  | [] => 0
  | it :: its => it.bit.toNat + 2 * control_bits its

/-- Groups of eight, each behind its control byte. -/
def pack (its : List Item) : List UInt8 :=
  if its = [] then []
  else UInt8.ofNat (control_bits (its.take 8)) ::
    ((its.take 8).flatMap Item.bytes ++ pack (its.drop 8))
termination_by its.length
decreasing_by
  have hpos : 0 < its.length := List.length_pos_iff.mpr ‹_›
  rw [List.length_drop]
  omega

/-- The packed tokens of a document, end reference included. -/
def lzfu_payload (elen : ℕ) (toks : List (Token UInt8)) : List UInt8 :=
  pack (items elen rtf_prebuf toks)

/-- The sixteen-byte header: a size that counts from the second word on, the size
of the document, the magic number and the checksum. -/
def rtf_header (compr_size uncompr_size : ℕ) (magic checksum : UInt32) : List UInt8 :=
  le32 (UInt32.ofNat compr_size) ++ le32 (UInt32.ofNat uncompr_size) ++ le32 magic ++ le32 checksum

/-- A compressed value: header and payload. -/
def lzfu (elen : ℕ) (u : List UInt8) (toks : List (Token UInt8)) : List UInt8 :=
  rtf_header ((lzfu_payload elen toks).length + 12) u.length rtf_compressed_magic
    (generate_crc (lzfu_payload elen toks)) ++ lzfu_payload elen toks

/-- The tokens are the format's and spell the document `u` behind the preset text. -/
structure Tokenises (toks : List (Token UInt8)) (u : List UInt8) : Prop where
  ok : ∀ t ∈ toks, TokenOk t
  spells : expand 0 rtf_prebuf toks = rtf_prebuf ++ u

/-- The property `mapi_attr_read` builds for a single binary value `v`. -/
def rtf_attr (v : List UInt8) : MAPI_Attr where
  type := szMAPI_BINARY
  name := MAPI_RTF_COMPRESSED
  num_values := 1
  values := [⟨v.length, .buf (.full (v ++ [0]))⟩]

/-! ## Facts about the packing -/

@[simp] theorem rtf_header_length (c n : ℕ) (m k : UInt32) : (rtf_header c n m k).length = 16 := rfl

theorem items_ne_nil (elen : ℕ) (h : List UInt8) (ts : List (Token UInt8)) :
    items elen h ts ≠ [] := by
  cases ts <;> simp [items]

theorem pack_of_ne_nil {its : List Item} (h : its ≠ []) :
    pack its = UInt8.ofNat (control_bits (its.take 8)) ::
      ((its.take 8).flatMap Item.bytes ++ pack (its.drop 8)) := by
  rw [pack, if_neg h]

/-- Bit `k` of the control byte is item `k`'s. -/
theorem control_bits_testBit (its : List Item) (k : ℕ) (it : Item) (h : its[k]? = some it) :
    (control_bits its).testBit k = it.bit := by
  induction its generalizing k with
  | nil => simp at h
  | cons it' its ih =>
    -- the lowest bit is the first item's; a shift takes it off
    cases k with
    | zero =>
      obtain rfl : it' = it := by simpa using h
      rw [control_bits, Nat.testBit_zero]
      cases it'.bit <;> simp
    | succ k =>
      rw [control_bits, Nat.testBit_succ,
        show (it'.bit.toNat + 2 * control_bits its) / 2 = control_bits its by
          have hbit := Bool.toNat_lt it'.bit
          omega]
      exact ih k (by simpa using h)

theorem control_bits_lt (its : List Item) : control_bits its < 2 ^ its.length := by
  induction its with
  | nil => simp [control_bits]
  | cons it its ih =>
    rw [control_bits, List.length_cons, pow_succ]
    cases it.bit <;> simp <;> omega

/-- The control byte of a group survives being stored in a byte. -/
theorem control_byte_toNat (its : List Item) :
    (UInt8.ofNat (control_bits (its.take 8))).toNat = control_bits (its.take 8) := by
  have hlt := control_bits_lt (its.take 8)
  have hlen : (its.take 8).length ≤ 8 := by rw [List.length_take]; omega
  have hpow : 2 ^ (its.take 8).length ≤ 2 ^ 8 := Nat.pow_le_pow_right (by decide) hlen
  exact UInt8.toNat_ofNat_of_lt' (show _ < 2 ^ 8 by omega)

/-- The decoder takes offset and length out of the two bytes of a reference. -/
theorem ref_bytes_decode {roff len : ℕ} (hroff : roff < 4096) (hlo : 2 ≤ len) (hhi : len ≤ 17) :
    ∃ b₀ b₁, ref_bytes roff len = [b₀, b₁] ∧ (b₀.toNat <<< 4) + (b₁.toNat >>> 4) = roff
      ∧ (b₁.toNat &&& 0x0f) + 2 = len := by
  refine ⟨_, _, rfl, ?_, ?_⟩
  · rw [UInt8.toNat_ofNat', UInt8.toNat_ofNat', Nat.shiftLeft_eq, Nat.shiftRight_eq_div_pow]
    omega
  · rw [UInt8.toNat_ofNat', show ∀ n, n &&& 0x0f = n % 16 from
      fun n => Nat.and_two_pow_sub_one_eq_mod n 4]
    omega

end Tnef
