/-
The `int` cursors of the two decoders: which inputs take them past `INT_MAX`.

In `unicode_to_utf8` they are `i` and `j`, and `Utf8Cursors` has when they stay in range. In
`decompress_rtf_data` the sums `cin+1`, `cin+2` and `cout+1` of the guards wrap before `cin`
and `cout` can leave the range, and the run ends there. What is left is `cout+rlen`: the
input decides it, by the bytes of text its units stand for and ask for, up to the unit where
decoding stops.
-/
import Tnef.Lib.Meter
import Tnef.RtfCursors
import Tnef.Utf8Cursors

set_option autoImplicit false

namespace Tnef

open ExceptRules Machine Meter Slice LittleEndian

/-! ## The units of a payload -/

/-- What a payload is made of: control bytes, and a literal or a reference for each bit. -/
inductive LzUnit
  | control (c : UInt8)
  | literal (b : UInt8)
  | reference (roff rlen : ℕ)
  deriving DecidableEq, Repr

/-- The bits of a control byte from bit `i` on. -/
def bits_from (control i : ℕ) : List Bool :=
  (List.range' i (8 - i)).map fun k => decide (control &&& (1 <<< k) ≠ 0)

/-- The units in front of the first one that is cut off, with `bits` left of the control byte. -/
def lz_units : List Bool → List UInt8 → List LzUnit
  | [], c :: src => .control c :: lz_units (bits_from c.toNat 0) src
  | false :: bits, b :: src => .literal b :: lz_units bits src
  | true :: bits, b₀ :: b₁ :: src =>
    .reference ((b₀.toNat <<< 4) + (b₁.toNat >>> 4)) ((b₁.toNat &&& 0x0f) + 2) :: lz_units bits src
  | _, _ => []

/-- The bytes of text it stands for. -/
def LzUnit.out : LzUnit → ℕ
  | .control _ => 0
  | .literal _ => 1
  | .reference _ rlen => rlen

/-- The unit is carried out when `n` bytes of text stand in front of it: there is room for it
in `lenu` bytes, and it is not a reference to the cell the next byte goes to. -/
def LzUnit.Passes (lenu n : ℕ) : LzUnit → Prop
  | .control _ => True
  | .literal _ => n + 1 ≤ lenu
  | .reference roff rlen => roff ≠ (207 + n) % 4096 ∧ n + rlen ≤ lenu

instance (lenu n : ℕ) : ∀ u : LzUnit, Decidable (u.Passes lenu n)
  | .control _ => inferInstanceAs (Decidable True)
  | .literal _ => inferInstanceAs (Decidable (n + 1 ≤ lenu))
  | .reference roff rlen => inferInstanceAs (Decidable (roff ≠ (207 + n) % 4096 ∧ n + rlen ≤ lenu))

/-- The bytes of text that are asked for, whether there is room for them or not. -/
def LzUnit.asks (lenu n : ℕ) : LzUnit → ℕ
  | .control _ => 0
  | .literal _ => if n + 1 ≤ lenu then 1 else 0
  | .reference roff rlen => if roff = (207 + n) % 4096 then 0 else rlen

/-- A unit that is carried out asks for what it stands for. -/
theorem LzUnit.asks_of_passes (lenu n : ℕ) (u : LzUnit) (h : u.Passes lenu n) :
    u.asks lenu n = u.out := by
  cases u with
  | control c => rfl
  | literal b => exact if_pos h
  | reference roff rlen => exact if_neg h.1

/-- What is carried out has room. -/
theorem add_total_le {lenu : ℕ} (us : List LzUnit) : ∀ {n : ℕ}, n ≤ lenu →
    Accepted (LzUnit.Passes lenu) LzUnit.out n us → n + total LzUnit.out us ≤ lenu := by
  induction us with
  | nil => exact fun h _ => h
  | cons u us ih =>
    intro n hn haccepted
    obtain ⟨hpass, hrest⟩ := haccepted
    have hroom : n + u.out ≤ lenu := by
      cases u with
      | control c => exact hn
      | literal b => exact hpass
      | reference roff rlen => exact hpass.2
    rw [total_cons, ← Nat.add_assoc]
    exact ih hroom hrest

/-- Every reference that is come to, and is not the end reference, asks for text that ends in
front of byte `2 ^ 31`. -/
def UnitsInRange (lenu : ℕ) (us : List LzUnit) : Prop :=
  ∀ pre roff rlen, pre ++ [.reference roff rlen] <+: us →
    Accepted (LzUnit.Passes lenu) LzUnit.out 0 pre → roff ≠ (207 + total LzUnit.out pre) % 4096 →
    total LzUnit.out pre + rlen < 2 ^ 31

/-- What is written or asked for in all, when `n` bytes of text have been written. -/
abbrev output_asked (lenu n : ℕ) (us : List LzUnit) : ℕ :=
  spent (LzUnit.Passes lenu) LzUnit.out (LzUnit.asks lenu) n us

/-- The condition on each reference is one on the total: with room below `2 ^ 31` a literal
cannot take it there. -/
theorem unitsInRange_iff {lenu : ℕ} (hlenu : lenu < 2 ^ 31) {us : List LzUnit} :
    UnitsInRange lenu us ↔ output_asked lenu 0 us < 2 ^ 31 := by
  rw [output_asked, spent_lt_iff (LzUnit.asks_of_passes lenu) (Nat.two_pow_pos 31)]
  simp only [Nat.zero_add]
  constructor
  · intro h pre u hpre haccepted
    have hfront := add_total_le pre (Nat.zero_le lenu) haccepted
    rw [Nat.zero_add] at hfront
    cases u with
    | control c => exact hfront.trans_lt hlenu
    | literal b =>
      show total LzUnit.out pre + (if total LzUnit.out pre + 1 ≤ lenu then 1 else 0) < 2 ^ 31
      split_ifs <;> omega
    | reference roff rlen =>
      show total LzUnit.out pre + (if roff = (207 + total LzUnit.out pre) % 4096 then 0 else rlen)
        < 2 ^ 31
      split_ifs with hend
      · exact hfront.trans_lt hlenu
      · exact h pre roff rlen hpre haccepted hend
  · intro h pre roff rlen hpre haccepted hne
    have hasks : (LzUnit.reference roff rlen).asks lenu (total LzUnit.out pre) = rlen := if_neg hne
    exact hasks ▸ h pre _ hpre haccepted

/-! ## The machine over the units -/

/-- The units that are left, with `bits` left of the control byte. -/
def LzState.units (payload : List UInt8) (bits : List Bool) (s : LzState) : List LzUnit :=
  if s.endflag ≠ 0 then [] else lz_units bits (payload.drop s.cin)

/-- What is left at a point. A reference whose bytes are being copied is behind it. -/
def Point.units (payload : List UInt8) : Point → List LzUnit
  | .head s => s.units payload []
  | .bit control i s => s.units payload (bits_from control i)
  | .copy control i _ _ s => s.units payload (bits_from control (i + 1))
  | .done _ => []

/-- What a step does to the units: nothing, or the next one is carried out, or it is refused
and with it what comes behind it. -/
inductive UnitMove (lenu : ℕ) (payload : List UInt8) (c c' : Point) : Prop
  | quiet (hunits : c'.units payload = c.units payload) (hfront : c'.front = c.front)
  | carried (u : LzUnit) (hunits : c.units payload = u :: c'.units payload)
    (hpass : u.Passes lenu c.front) (hfront : c'.front = c.front + u.out)
  | refused (u : LzUnit) (us : List LzUnit) (control i : ℕ) (s : LzState)
    (hbit : c = .bit control i s) (hunits : c.units payload = u :: us)
    (hnone : c'.units payload = []) (hpass : ¬ u.Passes lenu c.front) (hfront : c'.front = c.front)

theorem bits_from_lt {control i : ℕ} (hi : i < 8) :
    bits_from control i = decide (control &&& (1 <<< i) ≠ 0) :: bits_from control (i + 1) := by
  rw [bits_from, show 8 - i = 8 - (i + 1) + 1 by omega, List.range'_succ, List.map_cons]
  rfl

theorem bits_from_end {control i : ℕ} (hi : ¬ i < 8) : bits_from control i = [] := by
  rw [bits_from, Nat.sub_eq_zero_of_le (not_lt.mp hi)]
  rfl

theorem LzState.units_running {payload : List UInt8} {bits : List Bool} {s : LzState}
    (h : s.endflag = 0) : s.units payload bits = lz_units bits (payload.drop s.cin) :=
  if_neg (not_not.mpr h)

/-- Once `endflag` is set, nothing more is read. -/
theorem LzState.units_ended {payload : List UInt8} {bits : List Bool} {s : LzState}
    (h : s.endflag ≠ 0) : s.units payload bits = [] := if_pos h

section Moves

variable {src : List UInt8} {lenc lenu : ℕ}

/-- What is left of the payload at a byte that is read. -/
theorem drop_payload {k : ℕ} {b : UInt8} (hk : k < lenc) (hread : src[k]? = some b) :
    (src.take lenc).drop k = b :: (src.take lenc).drop (k + 1) := by
  have hcell : (src.take lenc)[k]? = some b := by rw [List.getElem?_take_of_lt hk, hread]
  obtain ⟨hlt, rfl⟩ := List.getElem?_eq_some_iff.mp hcell
  exact List.drop_eq_getElem_cons hlt

theorem drop_payload_end {k : ℕ} (hk : lenc ≤ k) : (src.take lenc).drop k = [] :=
  List.drop_eq_nil_of_le ((List.length_take_le _ _).trans hk)

/-- A reference of which a byte is missing is no unit. -/
theorem lz_units_cut {bits : List Bool} {rest : List UInt8} (h : rest.length < 2) :
    lz_units (true :: bits) rest = [] := by
  match rest, h with
  | [], _ => rfl
  | [_], _ => rfl

/-- A reference is cut off, the end, refused for want of room, or carried out. -/
theorem reference_step_moves {control i : ℕ} {s : LzState} {r : List Access × Point} (hi : i < 8)
    (hflag : s.endflag = 0) (hbit : control &&& (1 <<< i) ≠ 0)
    (hwoff : s.woff = (207 + s.cout) % 4096)
    (h : reference_step src lenc lenu control i s = .ok r) :
    UnitMove lenu (src.take lenc) (.bit control i s) r.2 := by
  have hunits : (Point.bit control i s).units (src.take lenc)
      = lz_units (true :: bits_from control (i + 1)) ((src.take lenc).drop s.cin) := by
    rw [Point.units, LzState.units_running hflag, bits_from_lt hi, decide_eq_true hbit]
  by_cases hin : s.cin + 2 > lenc
  · rw [reference_step, if_pos hin] at h
    cases h
    refine .quiet ?_ rfl
    -- a reference that is cut off is no unit, so nothing was left
    have hshort : ((src.take lenc).drop s.cin).length < 2 := by
      have hle := List.length_take_le lenc src
      rw [List.length_drop]
      omega
    rw [hunits, lz_units_cut hshort]
    exact LzState.units_ended (by simp)
  · rw [reference_step, if_neg hin] at h
    simp only [bind_eq_ok, rd_eq_ok, pure_eq_ok, Except.ok.injEq] at h
    obtain ⟨b₀, h₀, b₁, h₁, rfl⟩ := h
    rw [drop_payload (by omega) h₀, drop_payload (by omega) h₁, lz_units] at hunits
    generalize (b₀.toNat <<< 4) + (b₁.toNat >>> 4) = roff at hunits ⊢
    generalize (b₁.toNat &&& 0x0f) + 2 = rlen at hunits ⊢
    -- the end reference, one without room, and one that is copied
    simp only [reference_branch]
    split_ifs with hend hroom
    · refine .refused _ _ control i s rfl hunits (LzState.units_ended (by simp)) ?_ rfl
      intro hpass
      exact hpass.1 (hend.trans hwoff)
    · refine .refused _ _ control i s rfl hunits (LzState.units_ended (by simp)) ?_ rfl
      intro hpass
      exact absurd hroom (not_lt.mpr hpass.2)
    · refine .carried (.reference roff rlen) ?_ ⟨?_, not_lt.mp hroom⟩ rfl
      · rw [hunits]
        exact congrArg _ (if_neg (not_not.mpr hflag)).symm
      · intro heq
        exact hend (heq.trans hwoff.symm)

/-- A literal is cut off, refused for want of room, or carried out. -/
theorem literal_step_moves {control i : ℕ} {s : LzState} {r : List Access × Point}
    (hsrc : lenc ≤ src.length) (hi : i < 8) (hflag : s.endflag = 0)
    (hbit : ¬ control &&& (1 <<< i) ≠ 0)
    (h : literal_step src lenc lenu control i s = .ok r) :
    UnitMove lenu (src.take lenc) (.bit control i s) r.2 := by
  have hunits : (Point.bit control i s).units (src.take lenc)
      = lz_units (false :: bits_from control (i + 1)) ((src.take lenc).drop s.cin) := by
    rw [Point.units, LzState.units_running hflag, bits_from_lt hi, decide_eq_false hbit]
  by_cases hin : s.cin + 1 > lenc
  · rw [literal_step, if_pos hin] at h
    cases h
    refine .quiet ?_ rfl
    rw [hunits, drop_payload_end (by omega)]
    exact LzState.units_ended (by simp)
  · by_cases hroom : s.cout + 1 > lenu
    · rw [literal_step, if_neg hin, if_pos hroom] at h
      cases h
      have hfull : ¬ s.cout + 1 ≤ lenu := not_le.mpr hroom
      -- the byte is there, so the unit is: it is refused unread
      have hread := List.getElem?_eq_getElem (show s.cin < src.length by omega)
      rw [drop_payload (by omega) hread, lz_units] at hunits
      exact .refused _ _ control i s rfl hunits (LzState.units_ended (by simp)) hfull rfl
    · rw [literal_step, if_neg hin, if_neg hroom] at h
      simp only [bind_eq_ok, rd_eq_ok, pure_eq_ok, Except.ok.injEq] at h
      obtain ⟨b, hread, t, hput, rfl⟩ := h
      obtain ⟨-, hcout, hsame⟩ := LzState.put_moves hput
      rw [drop_payload (by omega) hread, lz_units] at hunits
      refine .carried (.literal b) ?_ (not_lt.mp hroom) hcout
      rw [hunits]
      exact congrArg _ (if_neg (not_not.mpr (hsame.trans hflag))).symm

/-- A byte that is copied was counted when its reference was read. -/
theorem copy_step_moves {control i n roff : ℕ} {s : LzState} {r : List Access × Point}
    (h : copy_step control i n roff s = .ok r) :
    UnitMove lenu (src.take lenc) (.copy control i (n + 1) roff s) r.2 := by
  simp only [copy_step, bind_eq_ok, pure_eq_ok, Except.ok.injEq] at h
  obtain ⟨b, -, t, hput, rfl⟩ := h
  obtain ⟨hcin, hcout, hflag⟩ := LzState.put_moves hput
  refine .quiet ?_ ?_
  · simp only [Point.units, LzState.units, hcin, hflag]
  · show t.cout + n = s.cout + (n + 1)
    omega

/-- **Every step is a move over the units.** -/
theorem lz_step_moves {c c' : Point} {es : List Access} (hsrc : lenc ≤ src.length)
    (hwoff : c.state.woff = (207 + c.state.cout) % 4096)
    (h : lz_step src lenc lenu c = .ok (some (es, c'))) : UnitMove lenu (src.take lenc) c c' := by
  cases c with
  | done s => cases h
  | head s =>
    rw [lz_step] at h
    split_ifs at h with hflag hin
    · cases h
      exact .quiet (LzState.units_ended hflag).symm rfl
    · cases h
      refine .quiet ?_ rfl
      rw [Point.units, Point.units, LzState.units_running (not_not.mp hflag),
        drop_payload_end (by omega)]
      rfl
    · simp only [bind_eq_ok, rd_eq_ok, pure_eq_ok, Except.ok.injEq, Option.some.injEq,
        Prod.mk.injEq] at h
      obtain ⟨control, hread, -, rfl⟩ := h
      -- a control byte is always carried out, and it puts nothing out
      refine .carried (.control control) ?_ trivial rfl
      rw [Point.units, LzState.units_running (not_not.mp hflag),
        drop_payload (by omega) hread, lz_units]
      exact congrArg _ (if_neg hflag).symm
  | bit control i s =>
    rw [lz_step] at h
    split_ifs at h with hi hflag hbit
    · cases h
      refine .quiet ?_ rfl
      rw [Point.units, Point.units, LzState.units_ended hflag, LzState.units_ended hflag]
    · simp only [bind_eq_ok, pure_eq_ok, Except.ok.injEq, Option.some.injEq] at h
      obtain ⟨r, hr, rfl⟩ := h
      exact reference_step_moves hi (not_not.mp hflag) hbit hwoff hr
    · simp only [bind_eq_ok, pure_eq_ok, Except.ok.injEq, Option.some.injEq] at h
      obtain ⟨r, hr, rfl⟩ := h
      exact literal_step_moves hsrc hi (not_not.mp hflag) hbit hr
    · cases h
      refine .quiet ?_ rfl
      -- behind the eighth bit there is nothing left of the control byte
      rw [Point.units, Point.units, bits_from_end hi]
  | copy control i n roff s =>
    cases n with
    | zero =>
      cases h
      exact .quiet rfl rfl
    | succ n =>
      simp only [lz_step, bind_eq_ok, pure_eq_ok, Except.ok.injEq, Option.some.injEq] at h
      obtain ⟨r, hr, rfl⟩ := h
      exact copy_step_moves hr

/-! ## References at a bit -/

/-- If the next unit is a reference, its two bytes are there. -/
theorem reference_of_units {control i roff rlen : ℕ} {s : LzState} {us : List LzUnit}
    (h : (Point.bit control i s).units (src.take lenc) = .reference roff rlen :: us) :
    ReferenceAt src lenc control i roff rlen s := by
  rw [Point.units] at h
  by_cases hflag : s.endflag ≠ 0
  · rw [LzState.units_ended hflag] at h
    cases h
  rw [LzState.units_running (not_not.mp hflag)] at h
  by_cases hi : i < 8
  · rw [bits_from_lt hi] at h
    by_cases hbit : control &&& (1 <<< i) ≠ 0
    · rw [decide_eq_true hbit] at h
      match hrest : (src.take lenc).drop s.cin, h with
      | b₀ :: b₁ :: rest, h =>
        cases h
        -- both bytes are in front of `lenc`, so they are those of `src`
        have hlen := congrArg List.length hrest
        rw [List.length_drop, List.length_cons, List.length_cons] at hlen
        have hle := List.length_take_le lenc src
        have hcell : ∀ k, s.cin + k < lenc → src[s.cin + k]? = (b₀ :: b₁ :: rest)[k]? := by
          intro k hk
          rw [← hrest, List.getElem?_drop, List.getElem?_take_of_lt hk]
        refine ⟨hi, not_not.mp hflag, hbit, by omega, b₀, b₁, ?_, ?_, rfl, rfl⟩
        · exact hcell 0 (by omega)
        · exact hcell 1 (by omega)
    · -- a clear bit makes a literal
      rw [decide_eq_false hbit] at h
      match hrest : (src.take lenc).drop s.cin, h with
      | [], h => cases h
      | b :: rest, h => cases h
  · rw [bits_from_end hi] at h
    match hrest : (src.take lenc).drop s.cin, h with
    | [], h => cases h
    | c :: rest, h => cases h

/-- And the other way round. -/
theorem ReferenceAt.units {control i roff rlen : ℕ} {s : LzState}
    (h : ReferenceAt src lenc control i roff rlen s) :
    ∃ us, (Point.bit control i s).units (src.take lenc) = .reference roff rlen :: us := by
  obtain ⟨b₀, b₁, h₀, h₁, rfl, rfl⟩ := h.word
  have hin := h.input
  rw [Point.units, LzState.units_running h.running, bits_from_lt h.bit, decide_eq_true h.set,
    drop_payload (by omega) h₀, drop_payload (by omega) h₁]
  exact ⟨_, rfl⟩

end Moves

/-! ## The books of a run -/

/-- What `cout` is, and what will be written or asked for. -/
def Point.output (lenu : ℕ) (payload : List UInt8) (c : Point) : ℕ :=
  c.front + output_asked lenu c.front (c.units payload)

/-- A reference is read next, and what it asks for is all there will be. -/
def AsksLast (lenu : ℕ) (payload : List UInt8) (c : Point) : Prop :=
  ∃ control i s roff rlen us, c = .bit control i s ∧ c.units payload = .reference roff rlen :: us
    ∧ roff ≠ (207 + c.front) % 4096 ∧ c.front + rlen = c.output lenu payload

/-- What has been written is in the books. -/
theorem Point.cout_le_output {lenu : ℕ} (payload : List UInt8) (c : Point) :
    c.state.cout ≤ c.output lenu payload := c.cout_le_front.trans (Nat.le_add_right _ _)

/-- A move only turns what will be written into what is; the one loss is a reference that is
refused for want of room. -/
theorem UnitMove.output {lenu : ℕ} {payload : List UInt8} {c c' : Point}
    (h : UnitMove lenu payload c c') : c'.output lenu payload ≤ c.output lenu payload
    ∧ (c'.output lenu payload = c.output lenu payload ∨ AsksLast lenu payload c) := by
  cases h with
  | quiet hunits hfront =>
    have hsame : c'.output lenu payload = c.output lenu payload := by
      rw [Point.output, Point.output, hunits, hfront]
    exact ⟨hsame.le, .inl hsame⟩
  | carried u hunits hpass hfront =>
    have hsame : c'.output lenu payload = c.output lenu payload := by
      rw [Point.output, Point.output, hunits, output_asked, output_asked, spent_of_passes hpass,
        LzUnit.asks_of_passes _ _ _ hpass, hfront, Nat.add_assoc]
    exact ⟨hsame.le, .inl hsame⟩
  | refused u us control i s hbit hunits hnone hpass hfront =>
    have hbefore : c.output lenu payload = c.front + u.asks lenu c.front := by
      rw [Point.output, hunits, output_asked, spent_of_refused hpass]
    have hafter : c'.output lenu payload = c.front := by
      rw [Point.output, hnone, hfront]
      rfl
    refine ⟨by omega, ?_⟩
    cases u with
    | control b => exact absurd trivial hpass
    | literal b =>
      -- a literal without room asks for nothing
      have hnothing : (LzUnit.literal b).asks lenu c.front = 0 := if_neg hpass
      exact .inl (by rw [hbefore, hafter, hnothing, Nat.add_zero])
    | reference roff rlen =>
      by_cases hend : roff = (207 + c.front) % 4096
      · have hnothing : (LzUnit.reference roff rlen).asks lenu c.front = 0 := if_pos hend
        exact .inl (by rw [hbefore, hafter, hnothing, Nat.add_zero])
      · have hlen : (LzUnit.reference roff rlen).asks lenu c.front = rlen := if_neg hend
        rw [hlen] at hbefore
        exact .inr ⟨control, i, s, roff, rlen, us, hbit, hunits, hend, hbefore.symm⟩

/-- What a reference asks for is in the books. -/
theorem ReferenceAt.le_output {src : List UInt8} {lenc lenu control i roff rlen : ℕ} {s : LzState}
    (h : ReferenceAt src lenc control i roff rlen s) (hne : roff ≠ (207 + s.cout) % 4096) :
    s.cout + rlen ≤ (Point.bit control i s).output lenu (src.take lenc) := by
  obtain ⟨us, hunits⟩ := h.units
  have hasks : (LzUnit.reference roff rlen).asks lenu s.cout = rlen := if_neg hne
  have hle : (LzUnit.reference roff rlen).asks lenu s.cout
      ≤ output_asked lenu s.cout (.reference roff rlen :: us) := charge_le_spent
  rw [hasks] at hle
  rw [Point.output, hunits]
  exact Nat.add_le_add_left hle _

/-- The units of a payload within reach. -/
def units_in_reach (src : List UInt8) (lenc : ℕ) : List LzUnit :=
  lz_units [] (src.take (reach lenc))

/-- The books at a point of a run: the total is that of the payload's units, but for what a
refused reference had asked for. -/
structure Books (src : List UInt8) (lenc lenu : ℕ) (tr : List Access) (c : Point) : Prop where
  run : IntRun src lenc lenu tr c
  le : c.output (reach lenu) (src.take (reach lenc))
    ≤ output_asked (reach lenu) 0 (units_in_reach src lenc)
  total : c.output (reach lenu) (src.take (reach lenc))
      = output_asked (reach lenu) 0 (units_in_reach src lenc)
    ∨ ∃ tr' p, IntRun src lenc lenu tr' p ∧ AsksLast (reach lenu) (src.take (reach lenc)) p
      ∧ p.output (reach lenu) (src.take (reach lenc))
        = output_asked (reach lenu) 0 (units_in_reach src lenc)

/-- `cin`, `cout` and, where it is computed, `cout+rlen` stay below `2 ^ 31`. -/
def LzInRange (src : List UInt8) (lenc lenu : ℕ) : Prop :=
  ∀ tr c, IntRun src lenc lenu tr c → c.state.cin < 2 ^ 31 ∧ c.state.cout < 2 ^ 31
    ∧ ∀ control i roff rlen s, c = .bit control i s → ReferenceAt src lenc control i roff rlen s →
      s.cin + 2 < 2 ^ 31 → roff ≠ s.woff → s.cout + rlen < 2 ^ 31

section Run

variable {src : List UInt8} {lenc lenu : ℕ} (hsrc : lenc ≤ src.length) (hlenc : lenc < 2 ^ 63)
  (hlenu : lenu < 2 ^ 63)

include hsrc hlenc hlenu

/-- Where the next byte goes to in the dictionary. -/
theorem IntRun.woff {tr : List Access} {c : Point} (h : IntRun src lenc lenu tr c) :
    c.state.woff = (207 + c.state.cout) % 4096 :=
  (h.sound hlenc hlenu hsrc).decoded.cells.1.1

/-- **The books balance at every point of every run.** -/
theorem IntRun.books {tr : List Access} {c : Point} (h : IntRun src lenc lenu tr c) :
    Books src lenc lenu tr c := by
  refine h.invariant ⟨.refl, (Nat.zero_add _).le, .inl (Nat.zero_add _)⟩ ?_
  intro tr c es c' hb hstep
  have hsame := int_step_eq hlenc hlenu (hb.run.ahead hlenc hlenu) ▸ hstep
  have hmove := lz_step_moves ((reach_le lenc).trans hsrc) (hb.run.woff hsrc hlenc hlenu) hsame
  obtain ⟨hle, hkept⟩ := hmove.output
  refine ⟨.snoc hb.run hstep, hle.trans hb.le, ?_⟩
  rcases hb.total with htotal | hlast
  · rcases hkept with hkept | hlast
    · exact .inl (hkept.trans htotal)
    · exact .inr ⟨tr, c, hb.run, hlast, htotal⟩
  · exact .inr hlast

/-- The cursors stay in range exactly if the books do: the total is either written, or asked
for by the last reference. -/
theorem lzInRange_iff : LzInRange src lenc lenu
    ↔ UnitsInRange (reach lenu) (units_in_reach src lenc) := by
  rw [unitsInRange_iff (reach_lt lenu)]
  constructor
  · intro h
    obtain ⟨tr, t, hrun, -⟩ := intRun_ends hlenc hlenu hsrc
    rcases (hrun.books hsrc hlenc hlenu).total with htotal | ⟨tr', p, hrun', hlast, htotal⟩
    · exact htotal ▸ (h tr _ hrun).2.1
    · -- the reference that was refused had asked for the rest
      obtain ⟨control, i, s, roff, rlen, us, rfl, hunits, hne, hasked⟩ := hlast
      obtain ⟨href, hcin⟩ := reference_reach_iff.mp (reference_of_units hunits)
      rw [← htotal, ← hasked]
      refine (h tr' _ hrun').2.2 control i roff rlen s rfl href hcin ?_
      rw [show s.woff = _ from hrun'.woff hsrc hlenc hlenu]
      exact hne
  · intro h tr c hrun
    have hle := (hrun.books hsrc hlenc hlenu).le.trans_lt h
    refine ⟨(hrun.ahead hlenc hlenu).cin.trans_lt (reach_lt lenc),
      (c.cout_le_output _).trans_lt hle, ?_⟩
    rintro control i roff rlen s rfl href hcin hne
    rw [show s.woff = _ from hrun.woff hsrc hlenc hlenu] at hne
    exact ((reference_reach_iff.mpr ⟨href, hcin⟩).le_output hne).trans_lt hle

end Run

/-! ## The cursors of both functions -/

/-- **When the `int` cursors are enough**: the text has fewer than `2 ^ 31` bytes and so has
its UTF-8, and no reference of the payload, up to the unit where decoding stops, asks for
text beyond byte `2 ^ 31`. -/
theorem int_cursors_in_range {len : ℕ} {buf : List UInt8} (hbuf : len ≤ buf.length)
    {lenc lenu : ℕ} {src : List UInt8} (hsrc : lenc ≤ src.length) (hlenc : lenc < 2 ^ 63)
    (hlenu : lenu < 2 ^ 63) :
    (ConvInRange len buf ↔ len < 2 ^ 31 ∧ text_size (unit_words (buf.take len)) < 2 ^ 31)
    ∧ (LzInRange src lenc lenu ↔ UnitsInRange (reach lenu) (units_in_reach src lenc)) :=
  ⟨convInRange_iff hbuf, lzInRange_iff hsrc hlenc hlenu⟩

/-- The euro sign with a stray byte, and a reference to the cell that ends the text. -/
theorem int_cursors_in_range_witness :
    ConvInRange 3 [0xac, 0x20, 0x41] ∧ LzInRange [1, 0x0c, 0xe0] 3 1 := by
  have h := int_cursors_in_range (show 3 ≤ [(0xac : UInt8), 0x20, 0x41].length by decide)
    (show 3 ≤ [(1 : UInt8), 0x0c, 0xe0].length by decide) (show 3 < 2 ^ 63 by decide)
    (show 1 < 2 ^ 63 by decide)
  exact ⟨h.1.mpr ⟨by decide, by decide⟩, h.2.mpr ((unitsInRange_iff (reach_lt 1)).mpr (by decide))⟩

/-! ## A payload that is too much -/

/-- Eight references of sixteen bytes each to the first cell of the dictionary. -/
def reference_block : List UInt8 := 0xff :: (List.replicate 8 [0x00, 0x0e]).flatten

/-- `g` of these blocks. -/
def reference_blocks (g : ℕ) : List UInt8 := (List.replicate g reference_block).flatten

theorem reference_blocks_length (g : ℕ) : (reference_blocks g).length = 17 * g := by
  rw [reference_blocks, List.length_flatten, List.map_replicate, List.sum_replicate, smul_eq_mul,
    Nat.mul_comm]
  rfl

/-- A block is a control byte and its eight references. -/
theorem lz_units_block (rest : List UInt8) : lz_units [] (reference_block ++ rest)
    = .control 0xff :: (List.replicate 8 (.reference 0 16) ++ lz_units [] rest) := rfl

section Asked

variable {lenu : ℕ} {us : List LzUnit}

/-- In front of a multiple of sixteen bytes of text the first cell is not the next one. -/
theorem first_cell_ne {n : ℕ} (hn : n % 16 = 0) : 0 ≠ (207 + n) % 4096 := by
  omega

/-- References with room for all of them are carried out. -/
theorem references_asked {k : ℕ} : ∀ {n : ℕ}, n % 16 = 0 → n + 16 * k ≤ lenu →
    output_asked lenu n (List.replicate k (.reference 0 16) ++ us)
      = 16 * k + output_asked lenu (n + 16 * k) us := by
  induction k with
  | zero =>
    intro n _ _
    rw [List.replicate_zero, List.nil_append, Nat.mul_zero, Nat.zero_add, Nat.add_zero]
  | succ k ih =>
    intro n hn hroom
    have hpass : (LzUnit.reference 0 16).Passes lenu n := ⟨first_cell_ne hn, by omega⟩
    have hrest : output_asked lenu (n + 16) (List.replicate k (.reference 0 16) ++ us) = _ :=
      ih (by omega) (by omega)
    rw [List.replicate_succ, List.cons_append, output_asked, spent_of_passes hpass,
      LzUnit.asks_of_passes _ _ _ hpass]
    show 16 + output_asked lenu (n + 16) _ = _
    rw [hrest, show n + 16 + 16 * k = n + 16 * (k + 1) by omega]
    omega

/-- So are blocks, by `128` bytes of text each. -/
theorem blocks_asked {g : ℕ} {rest : List UInt8} : ∀ {n : ℕ}, n % 16 = 0 → n + 128 * g ≤ lenu →
    output_asked lenu n (lz_units [] (reference_blocks g ++ rest))
      = 128 * g + output_asked lenu (n + 128 * g) (lz_units [] rest) := by
  induction g with
  | zero =>
    intro n _ _
    rw [Nat.mul_zero, Nat.zero_add, Nat.add_zero]
    rfl
  | succ g ih =>
    intro n hn hroom
    have hcons : reference_blocks (g + 1) = reference_block ++ reference_blocks g := by
      rw [reference_blocks, List.replicate_succ, List.flatten_cons, reference_blocks]
    rw [hcons, List.append_assoc, lz_units_block, output_asked,
      spent_of_passes (show (LzUnit.control 0xff).Passes lenu n from trivial)]
    show 0 + output_asked lenu n _ = _
    rw [references_asked hn (by omega), ih (by omega) (by omega),
      show n + 16 * 8 + 128 * g = n + 128 * (g + 1) by omega]
    omega

/-- If the last reference is the only one without room, they still ask for all of it. -/
theorem last_block_asked {n : ℕ} (hn : n % 16 = 0) (hroom : n + 112 ≤ lenu) (hfull : lenu < n + 128) :
    output_asked lenu n (lz_units [] reference_block) = 128 := by
  have hlast : ¬ (LzUnit.reference 0 16).Passes lenu (n + 16 * 7) := by
    rintro ⟨-, hfits⟩
    omega
  have hasks : (LzUnit.reference 0 16).asks lenu (n + 16 * 7) = 16 := if_neg (first_cell_ne (by omega))
  have hunits : lz_units [] reference_block
      = .control 0xff :: (List.replicate 7 (.reference 0 16) ++ [.reference 0 16]) := rfl
  rw [hunits, output_asked,
    spent_of_passes (show (LzUnit.control 0xff).Passes lenu n from trivial)]
  show 0 + output_asked lenu n _ = _
  rw [references_asked hn (by omega), output_asked, spent_of_refused hlast, hasks]

end Asked

/-- Blocks that come to `2 ^ 31` bytes of text, with room for them. -/
theorem not_lzInRange_of_blocks {g lenu : ℕ} (hg : 128 * (g + 1) = 2 ^ 31) (hlenu : lenu < 2 ^ 63)
    (hroom : 2 ^ 31 ≤ lenu) : ¬ LzInRange (reference_blocks (g + 1)) (17 * (g + 1)) lenu := by
  have hlen := reference_blocks_length (g + 1)
  have hreach : reach lenu = 2 ^ 31 - 1 := min_eq_right (by omega)
  have hunits : units_in_reach (reference_blocks (g + 1)) (17 * (g + 1))
      = lz_units [] (reference_blocks g ++ reference_block) := by
    rw [units_in_reach, reach_of_lt (by omega), List.take_of_length_le hlen.le, reference_blocks,
      List.replicate_succ', List.flatten_append, List.flatten_singleton, reference_blocks]
  rw [lzInRange_iff hlen.ge (by omega) hlenu, unitsInRange_iff (reach_lt lenu), hunits, hreach,
    blocks_asked (by omega) (by omega), last_block_asked (by omega) (by omega) (by omega)]
  omega

/-- A reference asks for `17` bytes at most, so it cannot go far beyond the room. -/
theorem lzInRange_of_length {lenc lenu : ℕ} {src : List UInt8} (hsrc : lenc ≤ src.length)
    (hlenc : lenc < 2 ^ 63) (hlenu : lenu + 17 < 2 ^ 31) : LzInRange src lenc lenu := by
  intro tr c hrun
  have hcout : c.state.cout ≤ lenu := (hrun.sound hlenc (by omega) hsrc).decoded.room
  refine ⟨(hrun.ahead hlenc (by omega)).cin.trans_lt (reach_lt lenc), by omega, ?_⟩
  rintro control i roff rlen s rfl href - -
  obtain ⟨b₀, b₁, -, -, -, rfl⟩ := href.word
  have hlen : b₁.toNat &&& 0x0f ≤ 15 := Nat.and_le_right
  have hcout : s.cout ≤ lenu := hcout
  omega

/-- Lengths below `2 ^ 32` that are too much: a text of `2 ^ 31` bytes, and `2 ^ 24` blocks of
references, the last of which asks for byte `2 ^ 31`. -/
theorem int_cursors_overflow : ¬ ConvInRange (2 ^ 31) (List.replicate (2 ^ 31) 0)
    ∧ ¬ LzInRange (reference_blocks (2 ^ 24)) (17 * 2 ^ 24) (2 ^ 32 - 1) := by
  refine ⟨not_convInRange_of_le le_rfl, ?_⟩
  obtain ⟨g, hg⟩ : ∃ g, 2 ^ 24 = g + 1 := ⟨2 ^ 24 - 1, rfl⟩
  rw [hg]
  exact not_lzInRange_of_blocks (by omega) (by decide) (by decide)

end Tnef
