/-
Reflected cyclic redundancy checks over a register of any width.

The register takes the message one bit at a time, the least significant bit of a digit
first: the bit is added at the low end, and what is shifted out there takes the generator
away. Shifting is linear, so a run of bits no longer than the register comes to adding it
whole and shifting as many times (`foldl_bit`). Two results follow. A digit can be taken at
once, with a table of the shifted digits (`shifts_digit`), and where the generator has its
high bit the register tells two messages apart that differ within a window no longer than
itself (`burst_detected`).
-/
import Mathlib.Data.List.GetD
import Mathlib.Logic.Function.Iterate
import Mathlib.Tactic

set_option autoImplicit false

namespace Crc

variable {w : ℕ} (poly : BitVec w)

/-- One place to the right; a one shifted out takes the generator away. -/
def shift (x : BitVec w) : BitVec w := if x.getLsbD 0 then (x >>> 1) ^^^ poly else x >>> 1

/-- `n` places to the right. -/
def shifts (n : ℕ) : BitVec w → BitVec w := (shift poly)^[n]

/-- The register after one more bit of the message. -/
def bit (x : BitVec w) (b : Bool) : BitVec w := shift poly (x ^^^ (BitVec.ofBool b).setWidth w)

/-- The bits of a digit, the least significant one first. -/
def bits {d : ℕ} (c : BitVec d) : List Bool := (List.range d).map c.getLsbD

/-- Bits as a word, the first of them the least significant. -/
def word (w : ℕ) (bs : List Bool) : BitVec w := (BitVec.ofBoolListLE bs).setWidth w

/-! ## Shifting -/

@[simp] theorem shifts_zero (x : BitVec w) : shifts poly 0 x = x := rfl

theorem shifts_succ (n : ℕ) (x : BitVec w) : shifts poly (n + 1) x = shifts poly n (shift poly x) :=
  Function.iterate_succ_apply _ n x

theorem shifts_succ' (n : ℕ) (x : BitVec w) : shifts poly (n + 1) x = shift poly (shifts poly n x) :=
  Function.iterate_succ_apply' _ n x

theorem shift_of_low_zero {x : BitVec w} (h : x.getLsbD 0 = false) : shift poly x = x >>> 1 := by
  rw [shift, h]
  rfl

/-- Shifting is linear. -/
theorem shift_xor (x y : BitVec w) : shift poly (x ^^^ y) = shift poly x ^^^ shift poly y := by
  have hpoly : ∀ u v : BitVec w, (u ^^^ poly) ^^^ (v ^^^ poly) = u ^^^ v := by
    intro u v
    rw [BitVec.xor_assoc, BitVec.xor_comm v, ← BitVec.xor_assoc poly, BitVec.xor_self,
      BitVec.zero_xor]
  unfold shift
  rw [BitVec.getLsbD_xor, BitVec.ushiftRight_xor_distrib]
  match hx : x.getLsbD 0, hy : y.getLsbD 0 with
  | false, false => rfl
  | false, true => exact BitVec.xor_assoc _ _ _
  | true, false =>
    show x >>> 1 ^^^ y >>> 1 ^^^ poly = (x >>> 1 ^^^ poly) ^^^ y >>> 1
    rw [BitVec.xor_assoc, BitVec.xor_comm (y >>> 1), ← BitVec.xor_assoc]
  | true, true => exact (hpoly _ _).symm

theorem shifts_xor (n : ℕ) (x y : BitVec w) :
    shifts poly n (x ^^^ y) = shifts poly n x ^^^ shifts poly n y := by
  induction n generalizing x y with
  | zero => rfl
  | succ n ih => rw [shifts_succ, shifts_succ, shifts_succ, shift_xor, ih]

/-- As long as only zeros are shifted out the generator plays no part. -/
theorem shifts_of_low_zero {n : ℕ} {x : BitVec w} (h : ∀ i < n, x.getLsbD i = false) :
    shifts poly n x = x >>> n := by
  induction n with
  | zero => rw [shifts_zero, BitVec.ushiftRight_zero]
  | succ n ih =>
    have hlow : (x >>> n).getLsbD 0 = false := by
      rw [BitVec.getLsbD_ushiftRight]
      exact h n (Nat.lt_succ_self n)
    rw [shifts_succ', ih fun i hi => h i (Nat.lt_succ_of_lt hi), shift_of_low_zero poly hlow,
      ← BitVec.shiftRight_add]

/-- With the generator's high bit set, nothing is lost. -/
theorem shift_injective (hpoly : poly.msb = true) : Function.Injective (shift poly) := by
  -- the high bit of the outcome is the bit that was shifted out
  have hhigh : ∀ x : BitVec w, (shift poly x).msb = x.getLsbD 0 := by
    intro x
    have hpos : 0 < w := by
      by_contra hzero
      obtain rfl : w = 0 := by omega
      rw [BitVec.msb_eq_getLsbD_last, BitVec.getLsbD_of_ge _ _ (Nat.zero_le _)] at hpoly
      cases hpoly
    have hshifted : (x >>> 1).msb = false := by
      rw [BitVec.msb_eq_getLsbD_last, BitVec.getLsbD_ushiftRight,
        BitVec.getLsbD_of_ge _ _ (by omega)]
    unfold shift
    split
    · next hbit => rw [BitVec.msb_xor, hshifted, hpoly, hbit]; rfl
    · next hbit => rw [hshifted, Bool.eq_false_iff.mpr hbit]
  intro x y h
  have hlow : x.getLsbD 0 = y.getLsbD 0 := by rw [← hhigh x, ← hhigh y, h]
  have hrest : x >>> 1 = y >>> 1 := by
    unfold shift at h
    rw [hlow] at h
    split at h
    · exact (BitVec.xor_left_inj _).mp h
    · exact h
  apply BitVec.eq_of_getLsbD_eq
  intro i _
  match i with
  | 0 => exact hlow
  | i + 1 =>
    have hbit := congrArg (fun z : BitVec w => z.getLsbD i) hrest
    simp only [BitVec.getLsbD_ushiftRight, Nat.add_comm 1 i] at hbit
    exact hbit

theorem shifts_injective (hpoly : poly.msb = true) (n : ℕ) : Function.Injective (shifts poly n) :=
  (shift_injective poly hpoly).iterate n

/-! ## A run of bits -/

@[simp] theorem getLsbD_word {bs : List Bool} {i : ℕ} :
    (word w bs).getLsbD i = (decide (i < w) && bs.getD i false) := by
  rw [word, BitVec.getLsbD_setWidth, BitVec.getLsbD_ofBoolListLE]

theorem word_cons (b : Bool) (bs : List Bool) :
    word w (b :: bs) = (BitVec.ofBool b).setWidth w ^^^ (word w bs <<< 1) := by
  apply BitVec.eq_of_getLsbD_eq
  intro i hi
  rw [getLsbD_word, BitVec.getLsbD_xor, BitVec.getLsbD_setWidth, BitVec.getLsbD_shiftLeft,
    getLsbD_word]
  match i with
  | 0 => simp [hi]
  | i + 1 => simp [hi, show i < w by omega]

/-- Words of the same number of bits are the same only if the bits are. -/
theorem word_injective {bs bs' : List Bool} (hlen : bs.length = bs'.length) (hw : bs.length ≤ w)
    (h : word w bs = word w bs') : bs = bs' := by
  apply List.ext_getElem hlen
  intro i hi hi'
  have hbit := congrArg (fun z : BitVec w => z.getLsbD i) h
  simp only [getLsbD_word, show i < w by omega, decide_true, Bool.true_and] at hbit
  rwa [List.getD_eq_getElem _ _ hi, List.getD_eq_getElem _ _ hi'] at hbit

/-- **Bits one by one**: as many of them as the register holds are added and shifted through. -/
theorem foldl_bit (bs : List Bool) : ∀ x : BitVec w, bs.length ≤ w →
    bs.foldl (bit poly) x = shifts poly bs.length (x ^^^ word w bs) := by
  induction bs with
  | nil =>
    intro x _
    have hzero : word w [] = 0#w := by
      apply BitVec.eq_of_getLsbD_eq
      intro i _
      simp
    rw [hzero, BitVec.xor_zero]
    rfl
  | cons b bs ih =>
    intro x hlen
    rw [List.length_cons] at hlen
    -- the bits behind the first have one place to go before they are shifted out
    have hrest : shift poly (word w bs <<< 1) = word w bs := by
      rw [shift_of_low_zero poly (by simp)]
      apply BitVec.eq_of_getLsbD_eq
      intro i hi
      rw [BitVec.getLsbD_ushiftRight, BitVec.getLsbD_shiftLeft, Nat.add_sub_cancel_left]
      by_cases hlast : 1 + i < w
      · simp [hlast]
      · rw [getLsbD_word, List.getD_eq_default _ _ (by omega)]
        simp [hlast]
    rw [List.foldl_cons, ih _ (by omega), List.length_cons, shifts_succ, word_cons,
      ← BitVec.xor_assoc, shift_xor, hrest]
    rfl

/-- **Short bursts are found.** Messages that differ within a window no longer than the
register leave different registers behind, whatever comes before and after. -/
theorem burst_detected (hpoly : poly.msb = true) {window window' : List Bool}
    (hlen : window.length = window'.length) (hw : window.length ≤ w) (hne : window ≠ window')
    (before after : List Bool) (x : BitVec w) :
    (before ++ window ++ after).foldl (bit poly) x
      ≠ (before ++ window' ++ after).foldl (bit poly) x := by
  have hbit : ∀ b, Function.Injective fun y => bit poly y b := by
    intro b y y' h
    exact (BitVec.xor_left_inj _).mp (shift_injective poly hpoly h)
  -- what comes after keeps the registers apart
  have hafter : ∀ (bs : List Bool) {y y' : BitVec w}, y ≠ y' →
      bs.foldl (bit poly) y ≠ bs.foldl (bit poly) y' := by
    intro bs
    induction bs with
    | nil => exact fun h => h
    | cons b bs ih => exact fun h => ih fun heq => h (hbit b heq)
  rw [List.foldl_append, List.foldl_append, List.foldl_append, List.foldl_append]
  apply hafter
  generalize before.foldl (bit poly) x = y
  rw [foldl_bit poly _ _ hw, foldl_bit poly _ _ (hlen ▸ hw), ← hlen]
  intro h
  have hwords := (BitVec.xor_right_inj _).mp (shifts_injective poly hpoly _ h)
  exact hne (word_injective hlen hw hwords)

/-! ## A digit at once -/

@[simp] theorem bits_length {d : ℕ} (c : BitVec d) : (bits c).length = d := by
  rw [bits, List.length_map, List.length_range]

theorem word_bits {d : ℕ} (c : BitVec d) : word w (bits c) = c.setWidth w := by
  apply BitVec.eq_of_getLsbD_eq
  intro i hi
  rw [getLsbD_word, BitVec.getLsbD_setWidth, bits]
  by_cases hd : i < d
  · rw [List.getD_eq_getElem _ _ (by simpa using hd)]
    simp
  · rw [List.getD_eq_default _ _ (by simpa using hd), BitVec.getLsbD_of_ge c i (by omega)]

theorem bits_injective {d : ℕ} : Function.Injective (bits : BitVec d → List Bool) := by
  intro c c' h
  have hword : word d (bits c) = word d (bits c') := by rw [h]
  rwa [word_bits, word_bits, BitVec.setWidth_eq, BitVec.setWidth_eq] at hword

/-- **A digit at once**: the entry of a table for the digit that is shifted out, added to
what is left of the register. -/
theorem shifts_digit {d : ℕ} (hd : d ≤ w) (c : BitVec d) (x : BitVec w) :
    (bits c).foldl (bit poly) x
      = shifts poly d (((x ^^^ c.setWidth w).setWidth d).setWidth w) ^^^ (x >>> d) := by
  have hsplit : x ^^^ c.setWidth w
      = ((x ^^^ c.setWidth w).setWidth d).setWidth w ^^^ ((x >>> d) <<< d) := by
    apply BitVec.eq_of_getLsbD_eq
    intro i hi
    by_cases hlow : i < d
    · simp [hi, hlow]
    · rw [BitVec.getLsbD_xor, BitVec.getLsbD_xor, BitVec.getLsbD_setWidth, BitVec.getLsbD_setWidth,
        BitVec.getLsbD_setWidth, BitVec.getLsbD_shiftLeft, BitVec.getLsbD_ushiftRight,
        BitVec.getLsbD_of_ge c i (by omega), Nat.add_sub_cancel' (not_lt.mp hlow)]
      simp [hi, hlow]
  have hhigh : shifts poly d ((x >>> d) <<< d) = x >>> d := by
    rw [shifts_of_low_zero poly (by intro i hi; simp [hi])]
    apply BitVec.eq_of_getLsbD_eq
    intro i hi
    rw [BitVec.getLsbD_ushiftRight, BitVec.getLsbD_shiftLeft, BitVec.getLsbD_ushiftRight,
      Nat.add_sub_cancel_left]
    by_cases hin : d + i < w
    · simp [hin]
    · simp [hin, BitVec.getLsbD_of_ge x (d + i) (by omega)]
  rw [foldl_bit poly _ _ (by rw [bits_length]; exact hd), bits_length, word_bits]
  conv_lhs => rw [hsplit]
  rw [shifts_xor, hhigh]

end Crc
