/-
The decompressor with the cursors it has.

`cin`, `cout` and `rlen` are `int`s, `lenc` and `lenu` are `size_t`. A sum of `2 ^ 31` or more
wraps to a negative number, which the comparison converts to a size beyond any length, so
that the run ends there as it does at the end of the payload or of the room. `int_step` is
`lz_step` with these comparisons. What it comes to is `lz_step` on the part of the two lengths
that an `int` reaches (`int_step_eq`), so the invariant of the machine with exact cursors
holds of it too.
-/
import Tnef.RtfMachine

set_option autoImplicit false

namespace Tnef

open ExceptRules Machine Window Slice

/-! ## Sums and sizes -/

/-- A sum of `int`s as the `size_t` it is compared as: the sum is cut to 32 bits, and the
conversion extends its sign. -/
def int_to_size (n : ℕ) : ℕ := ((BitVec.ofNat 32 n).signExtend 64).toNat

/-- A sum below `2 ^ 31` is itself; the sign bit fills the upper half of the size. -/
theorem int_to_size_eq {n : ℕ} (h : n < 2 ^ 32) :
    int_to_size n = n + if 2 ^ 31 ≤ n then 2 ^ 64 - 2 ^ 32 else 0 := by
  have hnat : (BitVec.ofNat 32 n).toNat = n := by
    rw [BitVec.toNat_ofNat, Nat.mod_eq_of_lt h]
  have hwide : ((BitVec.ofNat 32 n).setWidth 64).toNat = n := by
    rw [BitVec.toNat_setWidth, hnat, Nat.mod_eq_of_lt (by omega)]
  rw [int_to_size, BitVec.toNat_signExtend, hwide, BitVec.msb_eq_decide, hnat]
  simp only [decide_eq_true_eq, Nat.reduceSub]

/-- What an `int` cursor reaches of a length. -/
def reach (len : ℕ) : ℕ := min len (2 ^ 31 - 1)

theorem reach_le (len : ℕ) : reach len ≤ len := min_le_left _ _

theorem reach_lt (len : ℕ) : reach len < 2 ^ 31 := by
  rw [reach]
  omega

/-- An `int` reaches all of a length below `2 ^ 31`. -/
theorem reach_of_lt {len : ℕ} (h : len < 2 ^ 31) : reach len = len := by
  rw [reach]
  omega

/-- **The comparison**: no length is above `2 ^ 63`, and a negative number is above it. -/
theorem int_to_size_gt {n len : ℕ} (hn : n < 2 ^ 32) (hlen : len < 2 ^ 63) :
    int_to_size n > len ↔ n > reach len := by
  rw [int_to_size_eq hn, reach]
  split_ifs <;> omega

/-! ## The machine -/

/-- `reference_branch` with the test `cout+rlen > lenu` on `int`s. -/
def int_branch (lenu control i roff rlen : ℕ) (s : LzState) : Point :=
  if roff = s.woff then .head { s with endflag := 1 }
  else if int_to_size (s.cout + rlen) > lenu then .head { s with endflag := -1 }
  else .copy control i rlen roff s

/-- `reference_step` with the test `cin+2 > lenc` on `int`s. -/
def int_reference_step (src : List UInt8) (lenc lenu control i : ℕ) (s : LzState) :
    M (List Access × Point) :=
  if int_to_size (s.cin + 2) > lenc then
    .ok ([], .head { s with endflag := -1 })
  else do
    let b₀ ← rd src s.cin
    let b₁ ← rd src (s.cin + 1)
    return ([.src s.cin, .src (s.cin + 1)],
      int_branch lenu control i ((b₀.toNat <<< 4) + (b₁.toNat >>> 4))
        ((b₁.toNat &&& 0x0f) + 2) { s with cin := s.cin + 2 })

/-- `literal_step` with the tests `cin+1 > lenc` and `cout+1 > lenu` on `int`s. -/
def int_literal_step (src : List UInt8) (lenc lenu control i : ℕ) (s : LzState) :
    M (List Access × Point) :=
  if int_to_size (s.cin + 1) > lenc then
    .ok ([], .head { s with endflag := -1 })
  else if int_to_size (s.cout + 1) > lenu then
    .ok ([], .head { s with endflag := -1 })
  else do
    let b ← rd src s.cin
    let t ← s.put b
    return ([.src s.cin, .dest s.cout, .src s.cin, .dict s.woff],
      .bit control (i + 1) { t with cin := s.cin + 1 })

/-- A byte of a reference is copied as before: there is no sum in `for ( j=0; j<rlen; j++ )`. -/
def int_step (src : List UInt8) (lenc lenu : ℕ) : StepFn Stop Access Point
  | .head s =>
    if s.endflag ≠ 0 then .ok (some ([], .done s))
    else if int_to_size (s.cin + 1) > lenc then .ok (some ([], .done { s with endflag := -1 }))
    else do
      let control ← rd src s.cin
      return some ([.src s.cin], .bit control.toNat 0 { s with cin := s.cin + 1 })
  | .bit control i s =>
    if i < 8 then
      if s.endflag ≠ 0 then .ok (some ([], .head s))
      else if control &&& (1 <<< i) ≠ 0 then
        return some (← int_reference_step src lenc lenu control i s)
      else
        return some (← int_literal_step src lenc lenu control i s)
    else .ok (some ([], .head s))
  | .copy control i 0 _ s => .ok (some ([], .bit control (i + 1) s))
  | .copy control i (n + 1) roff s => do return some (← copy_step control i n roff s)
  | .done _ => .ok none

/-- A run of `decompress_rtf_data` from behind its setup, on `int` cursors. -/
abbrev IntRun (src : List UInt8) (lenc lenu : ℕ) (tr : List Access) (c : Point) : Prop :=
  Steps (int_step src lenc lenu) (.head (lz_init lenu)) tr c

/-! ## Within reach -/

/-- The bytes of text in front of what comes next: those of a copy under way are among them. -/
def Point.front : Point → ℕ
  | .copy _ _ n _ s => s.cout + n
  | c => c.state.cout

theorem Point.cout_le_front (c : Point) : c.state.cout ≤ c.front := by
  cases c with
  | copy control i n roff s => exact Nat.le_add_right _ _
  | _ => exact le_rfl

/-- What a byte that is put does to the cursors. -/
theorem LzState.put_moves {s t : LzState} {b : UInt8} (h : s.put b = .ok t) :
    t.cin = s.cin ∧ t.cout = s.cout + 1 ∧ t.endflag = s.endflag := by
  simp only [LzState.put, bind_eq_ok, pure_eq_ok, Except.ok.injEq] at h
  obtain ⟨_, -, _, -, rfl⟩ := h
  exact ⟨rfl, rfl, rfl⟩

/-- The cursors have not gone beyond the two lengths. -/
structure Ahead (lenc lenu : ℕ) (c : Point) : Prop where
  cin : c.state.cin ≤ lenc
  front : c.front ≤ lenu

section Ahead

variable {src : List UInt8} {lenc lenu control i : ℕ} {s : LzState} {r : List Access × Point}

theorem ahead_init (lenc lenu len : ℕ) : Ahead lenc lenu (.head (lz_init len)) :=
  ⟨Nat.zero_le _, Nat.zero_le _⟩

/-- A reference that is refused moves nothing behind its two bytes. -/
theorem Ahead.reference_step (h : Ahead lenc lenu (.bit control i s))
    (hstep : reference_step src lenc lenu control i s = .ok r) : Ahead lenc lenu r.2 := by
  by_cases hin : s.cin + 2 > lenc
  · rw [Tnef.reference_step, if_pos hin] at hstep
    cases hstep
    exact ⟨h.cin, h.front⟩
  · rw [Tnef.reference_step, if_neg hin] at hstep
    simp only [bind_eq_ok, pure_eq_ok, Except.ok.injEq] at hstep
    obtain ⟨b₀, -, b₁, -, rfl⟩ := hstep
    simp only [reference_branch]
    split_ifs with hend hroom
    · exact ⟨not_lt.mp hin, h.front⟩
    · exact ⟨not_lt.mp hin, h.front⟩
    · exact ⟨not_lt.mp hin, not_lt.mp hroom⟩

/-- A literal is one byte of each side, both asked for first. -/
theorem Ahead.literal_step (h : Ahead lenc lenu (.bit control i s))
    (hstep : literal_step src lenc lenu control i s = .ok r) : Ahead lenc lenu r.2 := by
  by_cases hin : s.cin + 1 > lenc
  · rw [Tnef.literal_step, if_pos hin] at hstep
    cases hstep
    exact ⟨h.cin, h.front⟩
  · by_cases hroom : s.cout + 1 > lenu
    · rw [Tnef.literal_step, if_neg hin, if_pos hroom] at hstep
      cases hstep
      exact ⟨h.cin, h.front⟩
    · rw [Tnef.literal_step, if_neg hin, if_neg hroom] at hstep
      simp only [bind_eq_ok, pure_eq_ok, Except.ok.injEq] at hstep
      obtain ⟨b, -, t, hput, rfl⟩ := hstep
      refine ⟨not_lt.mp hin, ?_⟩
      show t.cout ≤ lenu
      rw [(LzState.put_moves hput).2.1]
      exact not_lt.mp hroom

/-- The comparisons come before the cursors move. -/
theorem Ahead.step {c c' : Point} {es : List Access} (h : Ahead lenc lenu c)
    (hstep : lz_step src lenc lenu c = .ok (some (es, c'))) : Ahead lenc lenu c' := by
  cases c with
  | done s => cases hstep
  | head s =>
    rw [lz_step] at hstep
    split_ifs at hstep with hflag hin
    · cases hstep
      exact ⟨h.cin, h.front⟩
    · cases hstep
      exact ⟨h.cin, h.front⟩
    · simp only [bind_eq_ok, pure_eq_ok, Except.ok.injEq, Option.some.injEq, Prod.mk.injEq] at hstep
      obtain ⟨control, -, -, rfl⟩ := hstep
      exact ⟨not_lt.mp hin, h.front⟩
  | bit control i s =>
    rw [lz_step] at hstep
    split_ifs at hstep with hi hflag hbit
    · cases hstep
      exact ⟨h.cin, h.front⟩
    · simp only [bind_eq_ok, pure_eq_ok, Except.ok.injEq, Option.some.injEq] at hstep
      obtain ⟨r, hr, rfl⟩ := hstep
      exact h.reference_step hr
    · simp only [bind_eq_ok, pure_eq_ok, Except.ok.injEq, Option.some.injEq] at hstep
      obtain ⟨r, hr, rfl⟩ := hstep
      exact h.literal_step hr
    · cases hstep
      exact ⟨h.cin, h.front⟩
  | copy control i n roff s =>
    cases n with
    | zero =>
      cases hstep
      exact ⟨h.cin, h.front⟩
    | succ n =>
      simp only [lz_step, copy_step, bind_eq_ok, pure_eq_ok, Except.ok.injEq,
        Option.some.injEq] at hstep
      obtain ⟨_, ⟨b, -, t, hput, rfl⟩, -, rfl⟩ := hstep
      obtain ⟨hcin, hcout, -⟩ := LzState.put_moves hput
      have hfront : s.cout + (n + 1) ≤ lenu := h.front
      refine ⟨hcin.trans_le h.cin, ?_⟩
      show t.cout + n ≤ lenu
      omega

end Ahead

/-! ## The two machines -/

section Agree

variable {src : List UInt8} {lenc lenu control i : ℕ} {s : LzState}

/-- The decision about a reference, on a sum that fits in 32 bits. -/
theorem int_branch_eq (hlenu : lenu < 2 ^ 63) {roff rlen : ℕ} (hsum : s.cout + rlen < 2 ^ 32) :
    int_branch lenu control i roff rlen s = reference_branch (reach lenu) control i roff rlen s := by
  simp only [int_branch, reference_branch, int_to_size_gt hsum hlenu]

/-- A reference within reach is one with both bytes in front of byte `2 ^ 31`. -/
theorem reference_reach_iff {roff rlen : ℕ} :
    ReferenceAt src (reach lenc) control i roff rlen s
      ↔ ReferenceAt src lenc control i roff rlen s ∧ s.cin + 2 < 2 ^ 31 := by
  constructor
  · intro h
    have hin := h.input.trans_lt (reach_lt lenc)
    exact ⟨⟨h.bit, h.running, h.set, h.input.trans (reach_le lenc), h.word⟩, hin⟩
  · rintro ⟨h, hcin⟩
    exact ⟨h.bit, h.running, h.set, le_min h.input (by omega), h.word⟩

variable (hlenc : lenc < 2 ^ 63) (hlenu : lenu < 2 ^ 63)

include hlenc hlenu

/-- Within reach no sum of a reference comes near `2 ^ 32`. -/
theorem int_reference_step_eq (h : Ahead (reach lenc) (reach lenu) (.bit control i s)) :
    int_reference_step src lenc lenu control i s
      = reference_step src (reach lenc) (reach lenu) control i s := by
  have hcin : s.cin ≤ reach lenc := h.cin
  have hcout : s.cout ≤ reach lenu := h.front
  have hc := reach_lt lenc
  have hu := reach_lt lenu
  -- a reference is of `17` bytes at most
  have hbranch : ∀ (b : UInt8) (roff : ℕ),
      int_branch lenu control i roff ((b.toNat &&& 0x0f) + 2) { s with cin := s.cin + 2 }
        = reference_branch (reach lenu) control i roff ((b.toNat &&& 0x0f) + 2)
          { s with cin := s.cin + 2 } := by
    intro b roff
    have hlen : b.toNat &&& 0x0f ≤ 15 := Nat.and_le_right
    refine int_branch_eq hlenu ?_
    show s.cout + ((b.toNat &&& 0x0f) + 2) < 2 ^ 32
    omega
  simp only [int_reference_step, reference_step,
    int_to_size_gt (show s.cin + 2 < 2 ^ 32 by omega) hlenc, hbranch]

/-- The same for a literal. -/
theorem int_literal_step_eq (h : Ahead (reach lenc) (reach lenu) (.bit control i s)) :
    int_literal_step src lenc lenu control i s
      = literal_step src (reach lenc) (reach lenu) control i s := by
  have hcin : s.cin ≤ reach lenc := h.cin
  have hcout : s.cout ≤ reach lenu := h.front
  have hc := reach_lt lenc
  have hu := reach_lt lenu
  simp only [int_literal_step, literal_step,
    int_to_size_gt (show s.cin + 1 < 2 ^ 32 by omega) hlenc,
    int_to_size_gt (show s.cout + 1 < 2 ^ 32 by omega) hlenu]

/-- **On `int` cursors the lengths are what they reach.** -/
theorem int_step_eq {c : Point} (h : Ahead (reach lenc) (reach lenu) c) :
    int_step src lenc lenu c = lz_step src (reach lenc) (reach lenu) c := by
  cases c with
  | done s => rfl
  | head s =>
    have hcin : s.cin ≤ reach lenc := h.cin
    have hc := reach_lt lenc
    simp only [int_step, lz_step, int_to_size_gt (show s.cin + 1 < 2 ^ 32 by omega) hlenc]
  | bit control i s =>
    rw [int_step, lz_step, int_reference_step_eq hlenc hlenu h, int_literal_step_eq hlenc hlenu h]
  | copy control i n roff s => cases n <;> rfl

/-- A run that starts within reach stays there, and is one of the exact machine. -/
theorem Ahead.int_steps {c c' : Point} {tr : List Access} (h : Ahead (reach lenc) (reach lenu) c)
    (hrun : Steps (int_step src lenc lenu) c tr c') :
    Steps (lz_step src (reach lenc) (reach lenu)) c tr c' ∧ Ahead (reach lenc) (reach lenu) c' := by
  refine hrun.of_agree (fun c hc => int_step_eq hlenc hlenu hc) ?_ h
  intro c es c' hc hstep
  rw [int_step_eq hlenc hlenu hc] at hstep
  exact hc.step hstep

/-- So the runs from a point are the same. -/
theorem int_steps_iff {c c' : Point} {tr : List Access} (h : Ahead (reach lenc) (reach lenu) c) :
    Steps (int_step src lenc lenu) c tr c'
      ↔ Steps (lz_step src (reach lenc) (reach lenu)) c tr c' := by
  constructor
  · exact fun hrun => (h.int_steps hlenc hlenu hrun).1
  · intro hrun
    exact (hrun.of_agree (fun c hc => (int_step_eq hlenc hlenu hc).symm)
      (fun _ _ _ hc hstep => hc.step hstep) h).1

/-- A run of the function starts at byte 0. -/
theorem IntRun.ahead {c : Point} {tr : List Access} (h : IntRun src lenc lenu tr c) :
    Ahead (reach lenc) (reach lenu) c := ((ahead_init _ _ _).int_steps hlenc hlenu h).2

/-- **The invariant holds on `int` cursors too**, with the lengths there are. -/
theorem IntRun.sound {c : Point} {tr : List Access} (hsrc : lenc ≤ src.length)
    (h : IntRun src lenc lenu tr c) : Sound lenc lenu tr c := by
  rw [IntRun, int_steps_iff hlenc hlenu (ahead_init _ _ _)] at h
  refine h.invariant sound_init ?_
  intro tr c es c' hs hstep
  obtain ⟨next, hnext, hkeep⟩ := hs.step hsrc (reach_le lenc) (reach_le lenu)
  exact hkeep es c' (Except.ok.inj (hnext.symm.trans hstep))

/-- The run ends where the loops do, told of no more than they reach. -/
theorem intRun_ends (hsrc : lenc ≤ src.length) : ∃ tr t, IntRun src lenc lenu tr (.done t)
    ∧ decompress_loop src (reach lenc) (reach lenu) (lz_init lenu) = .ok t := by
  obtain ⟨t, hloop, -⟩ := decompress_loop_safe ((reach_le lenc).trans hsrc) (reach_le lenu) _
    (lz_init_safe lenu)
  obtain ⟨tr, hrun⟩ := decompress_loop_steps _ hloop
  exact ⟨tr, t, (int_steps_iff hlenc hlenu (ahead_init _ _ _)).mpr hrun, hloop⟩

end Agree

end Tnef
