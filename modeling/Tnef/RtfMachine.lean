/-
The decompressor step by step: every point of a run, and every access on the way.

`lz_step` is `decompress_rtf_data` as a machine. A `Point` is a place in the nested loops
with the variables there, and the events of a step are the cells of `src`, `dest` and
`dict` it touches. `decompress_loop_steps` ties it to the loops of the model: the run ends
where they do. `Sound` is the invariant of every point, and what the run has written and
touched so far; both statements about whole runs are read off it.
-/
import Tnef.Lib.Machine
import Tnef.RtfSafe

set_option autoImplicit false

namespace Tnef

open ExceptRules Machine Window Slice

/-! ## The machine -/

/-- A cell of one of the three arrays. -/
inductive Access
  | src (k : ℕ)
  | dest (k : ℕ)
  | dict (k : ℕ)
  deriving DecidableEq, Repr

/-- Where the run is, with the variables that are live there. -/
inductive Point
  /-- The top of `while (1)`. -/
  | head (s : LzState)
  /-- The top of `for ( i=0; i<8; i++ )`. -/
  | bit (control i : ℕ) (s : LzState)
  /-- The top of `for ( j=0; j<rlen; j++ )`, with `n` turns to go. -/
  | copy (control i n roff : ℕ) (s : LzState)
  /-- Behind the processing loop. -/
  | done (s : LzState)
  deriving DecidableEq, Repr

def Point.state : Point → LzState
  | .head s => s
  | .bit _ _ s => s
  | .copy _ _ _ _ s => s
  | .done s => s

/-- Where a reference leads once it has been read: out of the run over the control byte
(`break`), or to its first byte. -/
def reference_branch (lenu control i roff rlen : ℕ) (s : LzState) : Point :=
  if roff = s.woff then .head { s with endflag := 1 }
  else if s.cout + rlen > lenu then .head { s with endflag := -1 }
  else .copy control i rlen roff s

/-- A dictionary reference, up to its first byte. -/
def reference_step (src : List UInt8) (lenc lenu control i : ℕ) (s : LzState) :
    M (List Access × Point) :=
  if s.cin + 2 > lenc then
    .ok ([], .head { s with endflag := -1 })
  else do
    let b₀ ← rd src s.cin
    let b₁ ← rd src (s.cin + 1)
    return ([.src s.cin, .src (s.cin + 1)],
      reference_branch lenu control i ((b₀.toNat <<< 4) + (b₁.toNat >>> 4))
        ((b₁.toNat &&& 0x0f) + 2) { s with cin := s.cin + 2 })

/-- A literal: `src[cin]` is read for `dest` and for `dict`. -/
def literal_step (src : List UInt8) (lenc lenu control i : ℕ) (s : LzState) :
    M (List Access × Point) :=
  if s.cin + 1 > lenc then
    .ok ([], .head { s with endflag := -1 })
  else if s.cout + 1 > lenu then
    .ok ([], .head { s with endflag := -1 })
  else do
    let b ← rd src s.cin
    let t ← s.put b
    return ([.src s.cin, .dest s.cout, .src s.cin, .dict s.woff],
      .bit control (i + 1) { t with cin := s.cin + 1 })

/-- One byte of a reference: `dict[roff]` is read for `dest` and for `dict`. -/
def copy_step (control i n roff : ℕ) (s : LzState) : M (List Access × Point) := do
  let b ← rd s.dict roff
  let t ← s.put b
  return ([.dict roff, .dest s.cout, .dict roff, .dict s.woff],
    .copy control i n ((roff + 1) &&& 0xfff) t)

/-- One step of the loops of `decompress_rtf_data`. -/
def lz_step (src : List UInt8) (lenc lenu : ℕ) : StepFn Stop Access Point
  | .head s =>
    if s.endflag ≠ 0 then .ok (some ([], .done s))
    else if s.cin + 1 > lenc then .ok (some ([], .done { s with endflag := -1 }))
    else do
      let control ← rd src s.cin
      return some ([.src s.cin], .bit control.toNat 0 { s with cin := s.cin + 1 })
  | .bit control i s =>
    if i < 8 then
      if s.endflag ≠ 0 then .ok (some ([], .head s))
      else if control &&& (1 <<< i) ≠ 0 then
        return some (← reference_step src lenc lenu control i s)
      else
        return some (← literal_step src lenc lenu control i s)
    else .ok (some ([], .head s))
  | .copy control i 0 _ s => .ok (some ([], .bit control (i + 1) s))
  | .copy control i (n + 1) roff s => do return some (← copy_step control i n roff s)
  | .done _ => .ok none

/-- A run of `decompress_rtf_data` from behind its setup. -/
abbrev LzRun (src : List UInt8) (lenc lenu : ℕ) (tr : List Access) (c : Point) : Prop :=
  Steps (lz_step src lenc lenu) (.head (lz_init lenu)) tr c

/-! ## The machine and the loops -/

section Simulation

variable (src : List UInt8) (lenc : ℕ) {lenu : ℕ}

/-- The copying loop runs to its end. -/
theorem copy_reference_steps (control i n : ℕ) : ∀ {roff : ℕ} {s t : LzState},
    copy_reference n roff s = .ok t →
    ∃ tr, Steps (lz_step src lenc lenu) (.copy control i n roff s) tr (.bit control (i + 1) t) := by
  induction n with
  | zero =>
    intro roff s t h
    cases h
    exact ⟨[], .single rfl⟩
  | succ n ih =>
    intro roff s t h
    simp only [copy_reference, bind_eq_ok] at h
    obtain ⟨b, hread, s', hput, hrest⟩ := h
    obtain ⟨tr, hsteps⟩ := ih hrest
    have hone : lz_step src lenc lenu (.copy control i (n + 1) roff s)
        = .ok (some ([.dict roff, .dest s.cout, .dict roff, .dict s.woff],
          .copy control i n ((roff + 1) &&& 0xfff) s')) := by
      simp only [lz_step, copy_step, hread, hput, ok_bind, pure_eq_ok]
    exact ⟨_, (Steps.single hone).trans hsteps⟩

/-- The three ways a reference goes: the end reference, no room, or a copy. -/
theorem reference_branch_steps (control i : ℕ) {roff rlen : ℕ} {s t : LzState}
    (h : (if roff = s.woff then .ok { s with endflag := 1 }
      else if s.cout + rlen > lenu then .ok { s with endflag := -1 }
      else copy_reference rlen roff s) = Except.ok t) :
    ∃ tr, Steps (lz_step src lenc lenu) (reference_branch lenu control i roff rlen s) tr
        (.bit control (i + 1) t)
      ∨ (t.endflag ≠ 0 ∧ Steps (lz_step src lenc lenu)
        (reference_branch lenu control i roff rlen s) tr (.head t)) := by
  unfold reference_branch
  split_ifs at h ⊢ with hend hroom
  · cases h
    exact ⟨[], .inr ⟨by simp, .refl⟩⟩
  · cases h
    exact ⟨[], .inr ⟨by simp, .refl⟩⟩
  · obtain ⟨tr, hcopy⟩ := copy_reference_steps src lenc control i _ h
    exact ⟨tr, .inl hcopy⟩

variable {src lenc}

/-- A reference, up to the next bit, or out of the run with the flag set. -/
theorem lz_reference_steps {control i : ℕ} {s t : LzState} (hi : i < 8) (hflag : s.endflag = 0)
    (hbit : control &&& (1 <<< i) ≠ 0) (h : lz_reference src lenc lenu s = .ok t) :
    ∃ tr, Steps (lz_step src lenc lenu) (.bit control i s) tr (.bit control (i + 1) t)
      ∨ (t.endflag ≠ 0 ∧ Steps (lz_step src lenc lenu) (.bit control i s) tr (.head t)) := by
  have hstep : lz_step src lenc lenu (.bit control i s)
      = reference_step src lenc lenu control i s >>= fun r => .ok (some r) := by
    rw [lz_step, if_pos hi, if_neg (not_not.mpr hflag), if_pos hbit]
    rfl
  unfold lz_reference at h
  by_cases hin : s.cin + 2 > lenc
  · rw [if_pos hin] at h
    cases h
    rw [reference_step, if_pos hin] at hstep
    exact ⟨_, .inr ⟨by simp, .single hstep⟩⟩
  · rw [if_neg hin] at h
    obtain ⟨b₀, h₀, h⟩ := bind_eq_ok.mp h
    obtain ⟨b₁, h₁, h⟩ := bind_eq_ok.mp h
    rw [reference_step, if_neg hin, h₀, ok_bind, h₁, ok_bind] at hstep
    obtain ⟨tr, hnext | ⟨hend, hhead⟩⟩ := reference_branch_steps src lenc control i h
    · exact ⟨_, .inl ((Steps.single hstep).trans hnext)⟩
    · exact ⟨_, .inr ⟨hend, (Steps.single hstep).trans hhead⟩⟩

/-- A literal likewise. -/
theorem lz_literal_steps {control i : ℕ} {s t : LzState} (hi : i < 8) (hflag : s.endflag = 0)
    (hbit : ¬ control &&& (1 <<< i) ≠ 0) (h : lz_literal src lenc lenu s = .ok t) :
    ∃ tr, Steps (lz_step src lenc lenu) (.bit control i s) tr (.bit control (i + 1) t)
      ∨ (t.endflag ≠ 0 ∧ Steps (lz_step src lenc lenu) (.bit control i s) tr (.head t)) := by
  have hstep : lz_step src lenc lenu (.bit control i s)
      = literal_step src lenc lenu control i s >>= fun r => .ok (some r) := by
    rw [lz_step, if_pos hi, if_neg (not_not.mpr hflag), if_neg hbit]
    rfl
  unfold lz_literal at h
  split at h
  · next hin =>
    cases h
    rw [literal_step, if_pos hin] at hstep
    exact ⟨_, .inr ⟨by simp, .single hstep⟩⟩
  · next hin =>
    split at h
    · next hroom =>
      cases h
      rw [literal_step, if_neg hin, if_pos hroom] at hstep
      exact ⟨_, .inr ⟨by simp, .single hstep⟩⟩
    · next hroom =>
      simp only [bind_eq_ok, pure_eq_ok, Except.ok.injEq] at h
      obtain ⟨b, hread, s', hput, rfl⟩ := h
      simp only [literal_step, if_neg hin, if_neg hroom, hread, hput, ok_bind, pure_eq_ok] at hstep
      rw [LzState.put_cin hput]
      exact ⟨_, .inl (.single hstep)⟩

/-- The run over a control byte comes back to the top of the outer loop. -/
theorem control_run_steps (control i : ℕ) (s : LzState) {t : LzState}
    (h : control_run src lenc lenu control i s = .ok t) :
    ∃ tr, Steps (lz_step src lenc lenu) (.bit control i s) tr (.head t) := by
  induction i, s using control_run.induct control with
  | case1 i s hi hflag =>
    rw [control_run_of_endflag hflag] at h
    cases h
    exact ⟨[], .single (by rw [lz_step, if_pos hi, if_pos hflag])⟩
  | case2 i s hi hflag hbit ih =>
    rw [control_run, if_pos hi, if_neg hflag, if_pos hbit, bind_eq_ok] at h
    obtain ⟨s', hs', h⟩ := h
    -- a token goes on to the next bit, or has set the flag
    obtain ⟨tr, hnext | ⟨hend, hhead⟩⟩ := lz_reference_steps hi (not_not.mp hflag) hbit hs'
    · obtain ⟨tr', hrest⟩ := ih s' h
      exact ⟨_, hnext.trans hrest⟩
    · rw [control_run_of_endflag hend] at h
      cases h
      exact ⟨tr, hhead⟩
  | case3 i s hi hflag hbit ih =>
    rw [control_run, if_pos hi, if_neg hflag, if_neg hbit, bind_eq_ok] at h
    obtain ⟨s', hs', h⟩ := h
    obtain ⟨tr, hnext | ⟨hend, hhead⟩⟩ := lz_literal_steps hi (not_not.mp hflag) hbit hs'
    · obtain ⟨tr', hrest⟩ := ih s' h
      exact ⟨_, hnext.trans hrest⟩
    · rw [control_run_of_endflag hend] at h
      cases h
      exact ⟨tr, hhead⟩
  | case4 i s hi =>
    rw [control_run, if_neg hi] at h
    cases h
    exact ⟨[], .single (by rw [lz_step, if_neg hi])⟩

/-- **The machine runs the loops of `decompress_rtf_data`**: where they end, so does it. -/
theorem decompress_loop_steps (s : LzState) {t : LzState}
    (h : decompress_loop src lenc lenu s = .ok t) :
    ∃ tr, Steps (lz_step src lenc lenu) (.head s) tr (.done t) := by
  induction s using decompress_loop.induct src lenc lenu with
  | case1 s hflag =>
    rw [decompress_loop_of_endflag hflag] at h
    cases h
    exact ⟨[], .single (by rw [lz_step, if_pos hflag])⟩
  | case2 s hflag hin =>
    rw [decompress_loop, if_neg hflag, if_pos hin] at h
    cases h
    exact ⟨[], .single (by rw [lz_step, if_neg hflag, if_pos hin])⟩
  | case3 s hflag hin e hread =>
    rw [decompress_loop, if_neg hflag, if_neg hin, hread] at h
    cases h
  | case4 s hflag hin control hread e hrun =>
    rw [decompress_loop, if_neg hflag, if_neg hin, hread] at h
    simp only at h
    split at h
    · cases h
    · next t' ht' =>
      rw [hrun] at ht'
      cases ht'
  | case5 s hflag hin control hread t' hrun ih =>
    rw [decompress_loop_step (not_not.mp hflag) (by omega) hread hrun] at h
    obtain ⟨tr, hrest⟩ := ih h
    obtain ⟨tr', hbyte⟩ := control_run_steps _ _ _ hrun
    have hone : lz_step src lenc lenu (.head s)
        = .ok (some ([.src s.cin], .bit control.toNat 0 { s with cin := s.cin + 1 })) := by
      rw [lz_step, if_neg hflag, if_neg hin, hread]
      rfl
    exact ⟨_, ((Steps.single hone).trans hbyte).trans hrest⟩

end Simulation

/-! ## Every point of a run -/

/-- The unbounded history: the preset text and what has been written behind it. -/
def LzState.history (s : LzState) : List UInt8 := rtf_prebuf ++ s.dest.take s.cout

/-- The history an invariant speaks of is the one the state holds. -/
theorem Decoded.history_eq {lenu : ℕ} {h : List UInt8} {s : LzState} (hs : Decoded lenu h s)
    (hpre : rtf_prebuf <+: h) : s.history = h := by
  obtain ⟨out, rfl⟩ := hpre
  have hcount := hs.count
  rw [List.length_append] at hcount
  rw [LzState.history, hs.dest, List.drop_left, List.take_left' (by omega)]

theorem Decoded.history_length {lenu : ℕ} {s : LzState} (hs : Decoded lenu s.history s) :
    s.history.length = 207 + s.cout := by
  rw [hs.count, rtf_prebuf_length]

/-- The cell lies in its array. -/
def Access.Within (lenc lenu : ℕ) : Access → Prop
  | .src k => k < lenc
  | .dest k => k < lenu
  | .dict k => k < 4096

def Access.dest? : Access → Option ℕ
  | .dest k => some k
  | _ => none

/-- The cells of `dest` that have been written, in order. -/
def dest_writes (tr : List Access) : List ℕ := tr.filterMap Access.dest?

/-- What holds of a copy under way: it reads inside the dictionary, never at the cell the
next byte goes to, and its bytes have room. -/
def CopyReady (lenu : ℕ) : Point → Prop
  | .copy _ _ n roff s => roff < 4096 ∧ roff ≠ s.woff ∧ s.cout + n ≤ lenu
  | _ => True

/-- What holds at every point of a run with the trace `tr` behind it. -/
structure Sound (lenc lenu : ℕ) (tr : List Access) (c : Point) : Prop where
  decoded : Decoded lenu c.state.history c.state
  copy : CopyReady lenu c
  within : ∀ a ∈ tr, a.Within lenc lenu
  writes : dest_writes tr = List.range c.state.cout

/-! The lengths the machine compares with, `lenc'` and `lenu'`, may be less than there is. -/

section Invariant

variable {src : List UInt8} {lenc lenu lenc' lenu' : ℕ} {tr : List Access}

theorem sound_init : Sound lenc lenu [] (.head (lz_init lenu)) := by
  have hinit := decoded_init lenu
  refine ⟨?_, trivial, by simp, rfl⟩
  show Decoded lenu (lz_init lenu).history (lz_init lenu)
  rw [hinit.history_eq List.prefix_rfl]
  exact hinit

/-- `t` is `s`, up to the input cursor and the flag. -/
def SameOutput (s t : LzState) : Prop := t = { s with cin := t.cin, endflag := t.endflag }

theorem Decoded.of_same {h : List UInt8} {s t : LzState} (hs : Decoded lenu h s)
    (hst : SameOutput s t) : Decoded lenu h t := by
  rw [hst]
  exact ⟨hs.ring, hs.woff, hs.eoff, hs.count, hs.room, hs.dest⟩

theorem SameOutput.cout {s t : LzState} (hst : SameOutput s t) : t.cout = s.cout := by rw [hst]

theorem SameOutput.history {s t : LzState} (hst : SameOutput s t) : t.history = s.history := by
  rw [hst]
  rfl

/-- A step that writes nothing. -/
theorem Sound.quiet {c c' : Point} {es : List Access} (hs : Sound lenc lenu tr c)
    (hsame : SameOutput c.state c'.state) (hcopy : CopyReady lenu c')
    (hsrc : ∀ a ∈ es, ∃ k < lenc, a = .src k) : Sound lenc lenu (tr ++ es) c' := by
  refine ⟨?_, hcopy, ?_, ?_⟩
  · rw [hsame.history]
    exact hs.decoded.of_same hsame
  · intro a ha
    rcases List.mem_append.mp ha with ha | ha
    · exact hs.within a ha
    · obtain ⟨k, hk, rfl⟩ := hsrc a ha
      exact hk
  · have hnone : dest_writes es = [] := by
      rw [dest_writes, List.filterMap_eq_nil_iff]
      intro a ha
      obtain ⟨k, -, rfl⟩ := hsrc a ha
      rfl
    rw [dest_writes, List.filterMap_append, ← dest_writes, ← dest_writes, hs.writes, hnone,
      List.append_nil, hsame.cout]

/-- A step that puts one byte, read from the cell `a`. -/
theorem Sound.put {c c' : Point} {a : Access} {b : UInt8} {t : LzState}
    (hs : Sound lenc lenu tr c) (ha : a.Within lenc lenu) (hnot : a.dest? = none)
    (hroom : c.state.cout < lenu) (hput : c.state.put b = .ok t)
    (hsame : SameOutput t c'.state) (hcopy : CopyReady lenu c') :
    Sound lenc lenu (tr ++ [a, .dest c.state.cout, a, .dict c.state.woff]) c' := by
  obtain ⟨t', hput', ht, -, -⟩ := put_spec hs.decoded b hroom
  obtain rfl := Except.ok.inj (hput'.symm.trans hput)
  have hpre : rtf_prebuf <+: c.state.history ++ [b] := by
    rw [LzState.history, List.append_assoc]
    exact List.prefix_append _ _
  have hhistory := ht.history_eq hpre
  have hnext : t'.cout = c.state.cout + 1 := by
    have hlen := ht.count
    rw [List.length_append, List.length_singleton, hs.decoded.count] at hlen
    omega
  -- the write offset stays inside the ring
  have hwrite : c.state.woff < 4096 := by
    rw [hs.decoded.woff]
    exact Nat.mod_lt _ (by decide)
  refine ⟨?_, hcopy, ?_, ?_⟩
  · rw [hsame.history, hhistory]
    exact ht.of_same hsame
  · intro x hx
    rcases List.mem_append.mp hx with hx | hx
    · exact hs.within x hx
    · simp only [List.mem_cons, List.not_mem_nil, or_false] at hx
      rcases hx with rfl | rfl | rfl | rfl
      · exact ha
      · exact hroom
      · exact ha
      · exact hwrite
  · have hone : dest_writes [a, .dest c.state.cout, a, .dict c.state.woff] = [c.state.cout] := by
      have hcell : Access.dest? (.dest c.state.cout) = some c.state.cout := rfl
      rw [dest_writes, List.filterMap_cons_none hnot, List.filterMap_cons_some hcell,
        List.filterMap_cons_none hnot]
      rfl
    rw [dest_writes, List.filterMap_append, ← dest_writes, ← dest_writes, hs.writes, hone,
      hsame.cout, hnext, List.range_succ]

/-- Where a reference leads, the invariant goes along, also if there is more room than the
comparison knows of. -/
theorem Sound.reference {control i roff rlen lenu' : ℕ} {c : Point} {es : List Access}
    (hs : Sound lenc lenu tr c) (hlenu : lenu' ≤ lenu) {s : LzState}
    (hsame : SameOutput c.state s) (hroff : roff < 4096)
    (hsrc : ∀ a ∈ es, ∃ k < lenc, a = .src k) :
    Sound lenc lenu (tr ++ es) (reference_branch lenu' control i roff rlen s) := by
  unfold reference_branch
  split_ifs with hend hroom
  · refine hs.quiet ?_ trivial hsrc
    rw [hsame]
    rfl
  · refine hs.quiet ?_ trivial hsrc
    rw [hsame]
    rfl
  · exact hs.quiet hsame ⟨hroff, hend, (not_lt.mp hroom).trans hlenu⟩ hsrc

/-- A reference has twelve bits of offset. -/
theorem ref_offset_lt (b₀ b₁ : UInt8) : (b₀.toNat <<< 4) + (b₁.toNat >>> 4) < 4096 := by
  have hb0 := b₀.toNat_lt
  have hb1 := b₁.toNat_lt
  rw [Nat.shiftLeft_eq, Nat.shiftRight_eq_div_pow]
  omega

section Branches

variable {control i : ℕ} {s : LzState}

/-- A reference on lengths that are no longer than those of the invariant. -/
theorem Sound.reference_step (hsrc : lenc ≤ src.length) (hlenc : lenc' ≤ lenc)
    (hlenu : lenu' ≤ lenu) (hs : Sound lenc lenu tr (.bit control i s)) :
    ∃ r, reference_step src lenc' lenu' control i s = .ok r ∧ Sound lenc lenu (tr ++ r.1) r.2 := by
  by_cases hin : s.cin + 2 > lenc'
  · refine ⟨_, by rw [Tnef.reference_step, if_pos hin], ?_⟩
    exact hs.quiet rfl trivial (by simp)
  · have h₀ := rd_of_lt (show s.cin < src.length by omega)
    have h₁ := rd_of_lt (show s.cin + 1 < src.length by omega)
    refine ⟨_, by rw [Tnef.reference_step, if_neg hin, h₀, ok_bind, h₁]; rfl, ?_⟩
    refine hs.reference hlenu ?_ (ref_offset_lt _ _) ?_
    · rfl
    intro a ha
    simp only [List.mem_cons, List.not_mem_nil, or_false] at ha
    rcases ha with rfl | rfl
    · exact ⟨s.cin, by omega, rfl⟩
    · exact ⟨s.cin + 1, by omega, rfl⟩

/-- A literal on such lengths. -/
theorem Sound.literal_step (hsrc : lenc ≤ src.length) (hlenc : lenc' ≤ lenc)
    (hlenu : lenu' ≤ lenu) (hs : Sound lenc lenu tr (.bit control i s)) :
    ∃ r, literal_step src lenc' lenu' control i s = .ok r ∧ Sound lenc lenu (tr ++ r.1) r.2 := by
  by_cases hin : s.cin + 1 > lenc'
  · refine ⟨_, by rw [Tnef.literal_step, if_pos hin], ?_⟩
    exact hs.quiet rfl trivial (by simp)
  · by_cases hroom : s.cout + 1 > lenu'
    · refine ⟨_, by rw [Tnef.literal_step, if_neg hin, if_pos hroom], ?_⟩
      exact hs.quiet rfl trivial (by simp)
    · have hb := rd_of_lt (show s.cin < src.length by omega)
      have hfree : s.cout < lenu := by omega
      obtain ⟨t, hput, -⟩ := put_spec (s := s) hs.decoded src[s.cin] hfree
      refine ⟨_, by rw [Tnef.literal_step, if_neg hin, if_neg hroom, hb, ok_bind, hput]; rfl, ?_⟩
      exact hs.put (show s.cin < lenc by omega) rfl hfree hput rfl trivial

/-- The two offsets move on together, so they stay apart. -/
theorem Sound.copy_step {n roff : ℕ} (hs : Sound lenc lenu tr (.copy control i (n + 1) roff s)) :
    ∃ r, copy_step control i n roff s = .ok r ∧ Sound lenc lenu (tr ++ r.1) r.2 := by
  obtain ⟨hroff, hne, hroom⟩ := hs.copy
  have hfree : s.cout < lenu := by omega
  have hdict : s.dict.length = 4096 := hs.decoded.ring.length
  have hcell : roff < s.dict.length := by
    rw [hdict]
    exact hroff
  have hwoff : s.woff < 4096 := by
    rw [show s.woff = _ from hs.decoded.woff]
    exact Nat.mod_lt _ (by decide)
  have hdest : s.cout < s.dest.length := by
    have hcount := hs.decoded.count
    rw [show s.dest = _ from hs.decoded.dest, List.length_append, List.length_drop,
      List.length_replicate]
    omega
  have hput := put_eq s.dict[roff] hdest (by omega)
  refine ⟨_, by rw [Tnef.copy_step, rd_of_lt hcell, ok_bind, hput]; rfl, ?_⟩
  refine hs.put (show roff < 4096 from hroff) rfl hfree hput rfl ⟨?_, ?_, ?_⟩
  · rw [and_fff]
    exact Nat.mod_lt _ (by decide)
  · show (roff + 1) &&& 0xfff ≠ (s.woff + 1) &&& 0xfff
    rw [and_fff, and_fff]
    omega
  · show s.cout + 1 + n ≤ lenu
    omega

end Branches

/-- **One step** from a point where the invariant holds: it does not fault, and the
invariant holds where it leads. -/
theorem Sound.step {c : Point} (hsrc : lenc ≤ src.length) (hlenc : lenc' ≤ lenc)
    (hlenu : lenu' ≤ lenu) (hs : Sound lenc lenu tr c) :
    ∃ next, lz_step src lenc' lenu' c = .ok next
      ∧ ∀ es c', next = some (es, c') → Sound lenc lenu (tr ++ es) c' := by
  -- a step to another point keeps the invariant if it does so for the point it leads to
  have hgo : ∀ {es c'}, Sound lenc lenu (tr ++ es) c' →
      ∀ es' c'', some (es, c') = some (es', c'') → Sound lenc lenu (tr ++ es') c'' := by
    rintro es c' h es' c'' ⟨⟩
    exact h
  cases c with
  | done s => exact ⟨none, rfl, by simp⟩
  | head s =>
    by_cases hflag : s.endflag ≠ 0
    · refine ⟨_, by rw [lz_step, if_pos hflag], hgo ?_⟩
      exact hs.quiet rfl trivial (by simp)
    · by_cases hin : s.cin + 1 > lenc'
      · refine ⟨_, by rw [lz_step, if_neg hflag, if_pos hin], hgo ?_⟩
        exact hs.quiet rfl trivial (by simp)
      · have hb := rd_of_lt (show s.cin < src.length by omega)
        refine ⟨_, by rw [lz_step, if_neg hflag, if_neg hin, hb]; rfl, hgo ?_⟩
        refine hs.quiet rfl trivial ?_
        intro a ha
        exact ⟨s.cin, by omega, List.mem_singleton.mp ha⟩
  | bit control i s =>
    by_cases hi : i < 8
    · by_cases hflag : s.endflag ≠ 0
      · refine ⟨_, by rw [lz_step, if_pos hi, if_pos hflag], hgo ?_⟩
        exact hs.quiet rfl trivial (by simp)
      · by_cases hbit : control &&& (1 <<< i) ≠ 0
        · obtain ⟨r, hr, hnext⟩ := hs.reference_step hsrc hlenc hlenu
          exact ⟨_, by rw [lz_step, if_pos hi, if_neg hflag, if_pos hbit, hr]; rfl, hgo hnext⟩
        · obtain ⟨r, hr, hnext⟩ := hs.literal_step hsrc hlenc hlenu
          exact ⟨_, by rw [lz_step, if_pos hi, if_neg hflag, if_neg hbit, hr]; rfl, hgo hnext⟩
    · refine ⟨_, by rw [lz_step, if_neg hi], hgo ?_⟩
      exact hs.quiet rfl trivial (by simp)
  | copy control i n roff s =>
    cases n with
    | zero =>
      refine ⟨_, rfl, hgo ?_⟩
      exact hs.quiet rfl trivial (by simp)
    | succ n =>
      obtain ⟨r, hr, hnext⟩ := hs.copy_step
      exact ⟨_, by rw [lz_step, hr]; rfl, hgo hnext⟩

/-- **The invariant holds at every point of every run.** -/
theorem LzRun.sound {c : Point} (hsrc : lenc ≤ src.length) (h : LzRun src lenc lenu tr c) :
    Sound lenc lenu tr c := by
  refine h.invariant sound_init ?_
  intro tr c es c' hs hstep
  obtain ⟨next, hnext, hkeep⟩ := hs.step hsrc le_rfl le_rfl
  exact hkeep es c' (Except.ok.inj (hnext.symm.trans hstep))

end Invariant

/-! ## The ring and the history -/

/-- A dictionary reference is read next: at bit `i` of the control byte, with both its
bytes inside the payload. -/
structure ReferenceAt (src : List UInt8) (lenc control i roff rlen : ℕ) (s : LzState) : Prop where
  bit : i < 8
  running : s.endflag = 0
  set : control &&& (1 <<< i) ≠ 0
  input : s.cin + 2 ≤ lenc
  word : ∃ b₀ b₁, src[s.cin]? = some b₀ ∧ src[s.cin + 1]? = some b₁
    ∧ roff = (b₀.toNat <<< 4) + (b₁.toNat >>> 4) ∧ rlen = (b₁.toNat &&& 0x0f) + 2

/-- `t` is `s` after a copy of `rlen` bytes from distance `dist`, where the bytes in front
of the history are zeros. -/
structure Appends (dist rlen : ℕ) (s t : LzState) : Prop where
  count : t.cout = s.cout + rlen
  before : s.history <+: t.history
  copied : ∀ j < rlen, t.history[207 + s.cout + j]?
    = if dist ≤ 207 + s.cout + j then t.history[207 + s.cout + j - dist]? else some 0

section History

variable {src : List UInt8} {lenc lenu : ℕ} {tr : List Access}

/-- A reference that is neither the end reference nor too long. -/
theorem Decoded.reference {control i roff rlen lenu' : ℕ} {s : LzState}
    (hs : Decoded lenu s.history s) (href : ReferenceAt src lenc control i roff rlen s)
    (hne : roff ≠ s.woff) (hlenu : lenu' ≤ lenu) (hroom : s.cout + rlen ≤ lenu') :
    ∃ tr' t, Steps (lz_step src lenc lenu') (.bit control i s) tr' (.bit control (i + 1) t)
      ∧ Appends ((s.woff + 4096 - roff) % 4096) rlen s t := by
  obtain ⟨b₀, b₁, h₀, h₁, rfl, rfl⟩ := href.word
  have hroff := ref_offset_lt b₀ b₁
  have hin := href.input
  have hwoff := hs.woff
  generalize hdist : (s.woff + 4096 - ((b₀.toNat <<< 4) + (b₁.toNat >>> 4))) % 4096 = dist
  -- the cell the reference names lies `dist` cells before the write offset
  have hcell : (s.history.length + 4096 - dist) % 4096 = (b₀.toNat <<< 4) + (b₁.toNat >>> 4) := by
    omega
  have hs' : Decoded lenu s.history { s with cin := s.cin + 2 } := hs.of_same rfl
  have hnear : 1 ≤ dist ∧ dist ≤ 4095 := by omega
  obtain ⟨t, hcopy, ht, -, -⟩ :=
    copy_reference_spec hnear.1 hnear.2 ((b₁.toNat &&& 0x0f) + 2) hs' (hroom.trans hlenu)
  rw [hcell] at hcopy
  have hbefore : s.history <+: copy 0 dist ((b₁.toNat &&& 0x0f) + 2) s.history :=
    isPrefix_copy _ _ _
  have hpre : rtf_prebuf <+: s.history := List.prefix_append _ _
  have hhistory := ht.history_eq (hpre.trans hbefore)
  have hcount : t.cout = s.cout + ((b₁.toNat &&& 0x0f) + 2) := by
    have hlen := ht.count
    rw [copy_length, hs.count] at hlen
    omega
  have hstep : lz_step src lenc lenu' (.bit control i s)
      = .ok (some ([.src s.cin, .src (s.cin + 1)],
        .copy control i ((b₁.toNat &&& 0x0f) + 2) ((b₀.toNat <<< 4) + (b₁.toNat >>> 4))
          { s with cin := s.cin + 2 })) := by
    rw [lz_step, if_pos href.bit, if_neg (not_not.mpr href.running), if_pos href.set,
      reference_step, if_neg (by omega), rd_eq_ok.mpr h₀, ok_bind, rd_eq_ok.mpr h₁, ok_bind,
      reference_branch, if_neg hne, if_neg (not_lt.mpr hroom)]
    rfl
  obtain ⟨tr', hsteps⟩ := copy_reference_steps src lenc control i _ hcopy
  refine ⟨_, t, (Steps.single hstep).trans hsteps, hcount, ?_, ?_⟩
  · rw [hhistory]
    exact hbefore
  · intro j hj
    rw [hhistory, ← hs.history_length]
    exact copy_getElem? hnear.1 _ _ hj

/-- **The dictionary is a window on the history**: the offsets follow the number of bytes
written, and cell `i` holds the byte at the last position congruent to it. -/
theorem Decoded.cells {s : LzState} (hs : Decoded lenu s.history s) :
    (s.woff = (207 + s.cout) % 4096 ∧ s.eoff = min 4096 (207 + s.cout))
    ∧ ∀ i < 4096,
      (∀ p, IsGreatest {p | p < 207 + s.cout ∧ p % 4096 = i} p → s.dict[i]? = s.history[p]?)
      ∧ ((∀ p < 207 + s.cout, p % 4096 ≠ i) → s.dict[i]? = some 0) := by
  have hring := hs.ring
  rw [← hs.history_length]
  refine ⟨⟨hs.woff, hs.eoff⟩, ?_⟩
  intro i hi
  exact ⟨fun p hp => hring.getElem?_of_isGreatest (by decide) hp,
    fun hnone => hring.getElem?_of_forall_ne hi hnone⟩

/-! ## The accesses -/

/-- **Termination and bounds, for any input.** Every run goes on to the same end, touches
the three arrays inside their bounds only, and writes the cells of `dest` once each from
the first one on; what it has not written at the end is zero, and the result is `dest`. -/
theorem decompress_rtf_data_run (hsrc : lenc ≤ src.length) (hlenc : 0 < lenc) (hlenu : 0 < lenu) :
    (∀ tr c, LzRun src lenc lenu tr c →
      (∀ a ∈ tr, a.Within lenc lenu) ∧ dest_writes tr = List.range c.state.cout)
    ∧ ∃ tr t, LzRun src lenc lenu tr (.done t)
      ∧ (∀ tr' c, LzRun src lenc lenu tr' c →
        ∃ tr'', Steps (lz_step src lenc lenu) c tr'' (.done t) ∧ tr = tr' ++ tr'')
      ∧ (∀ k, t.cout ≤ k → k < lenu → t.dest[k]? = some 0)
      ∧ ∀ o, decompress_rtf_data o src lenc lenu
          = checked_xcalloc o lenu 1 0 >>= fun _ => .ok t.dest := by
  refine ⟨fun tr c h => ⟨(h.sound hsrc).within, (h.sound hsrc).writes⟩, ?_⟩
  obtain ⟨t, hloop, -⟩ := decompress_loop_safe hsrc le_rfl _ (lz_init_safe lenu)
  obtain ⟨tr, hrun⟩ := decompress_loop_steps _ hloop
  have hs : Decoded lenu t.history t := (LzRun.sound hsrc hrun).decoded
  refine ⟨tr, t, hrun, fun tr' c h => hrun.to_halt rfl h, ?_, ?_⟩
  · intro k hk hlt
    have hcount := hs.count
    have hbody : (t.history.drop rtf_prebuf.length).length = t.cout := by
      rw [List.length_drop]
      omega
    rw [hs.dest, List.getElem?_append_right (by omega), hbody,
      List.getElem?_replicate_of_lt (by omega)]
  · intro o
    rw [decompress_rtf_data, assert_of hlenu, ok_bind]
    cases checked_xcalloc o lenu 1 0 with
    | error e => rfl
    | ok size =>
      rw [ok_bind, ok_bind, assert_of hlenc, ok_bind, hloop]
      rfl

/-- Three bytes that ask for more than there is. -/
theorem decompress_rtf_data_run_witness :
    ∃ tr t, LzRun [1, 0x0c, 0xe0] 3 1 tr (.done t)
      ∧ (∀ k, t.cout ≤ k → k < 1 → t.dest[k]? = some 0) := by
  have hsrc : 3 ≤ ([1, 0x0c, 0xe0] : List UInt8).length := le_rfl
  obtain ⟨tr, t, hrun, -, hzero, -⟩ :=
    (decompress_rtf_data_run hsrc (show 0 < 3 by decide) (show 0 < 1 by decide)).2
  exact ⟨tr, t, hrun, hzero⟩

end History

end Tnef
