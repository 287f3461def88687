/-
The dictionary of the decompressor as a window on the bytes written so far.

At every point of a run on any payload the 4096 cells hold the last bytes of the history,
which is the preset text with what has been written behind it, and a reference copies from
the history, also where it overlaps what it writes or wraps around. The history has no end,
the cursors have: a reference that ends at byte `2 ^ 31` of the payload or of the text is
refused although there is room for it.
-/
import Tnef.IntCursors

set_option autoImplicit false

namespace Tnef

open ExceptRules Machine Slice

/-! ## References on `int` cursors -/

section Reference

variable {src : List UInt8} {lenc lenu control i roff rlen : ℕ} {s : LzState}

/-- Once the flag is set, the run goes to its end. -/
theorem refused_ends {tr : List Access} {c : Point} (hflag : s.endflag ≠ 0)
    (h : Steps (lz_step src lenc lenu) (.head s) tr c) : c = .head s ∨ c = .done s := by
  rcases h.head with ⟨rfl, -⟩ | ⟨es, c₁, tr', hstep, hrest, -⟩
  · exact .inl rfl
  · rw [lz_step, if_pos hflag] at hstep
    cases hstep
    exact .inr (hrest.of_halted rfl).1

/-- A reference without room, or cut off, sets the flag. -/
theorem reference_refused (href : ReferenceAt src lenc control i roff rlen s) (hne : roff ≠ s.woff)
    {lenc' lenu' : ℕ} (h : lenc' < s.cin + 2 ∨ lenu' < s.cout + rlen) :
    ∃ es t, lz_step src lenc' lenu' (.bit control i s) = .ok (some (es, .head t)) ∧ t.endflag ≠ 0 := by
  obtain ⟨b₀, b₁, h₀, h₁, rfl, rfl⟩ := href.word
  rw [lz_step, if_pos href.bit, if_neg (not_not.mpr href.running), if_pos href.set]
  by_cases hin : s.cin + 2 > lenc'
  · rw [reference_step, if_pos hin]
    exact ⟨_, _, rfl, by simp⟩
  · rw [reference_step, if_neg hin, rd_eq_ok.mpr h₀, ok_bind, rd_eq_ok.mpr h₁, ok_bind,
      reference_branch, if_neg hne, if_pos (h.resolve_left hin)]
    exact ⟨_, _, rfl, by simp⟩

/-- **A reference appends its bytes** exactly if it ends within reach. -/
theorem reference_appends_iff (hlenc : lenc < 2 ^ 63) (hlenu : lenu < 2 ^ 63)
    (hs : Decoded lenu s.history s) (hahead : Ahead (reach lenc) (reach lenu) (.bit control i s))
    (href : ReferenceAt src lenc control i roff rlen s) (hne : roff ≠ s.woff)
    (hroom : s.cout + rlen ≤ lenu) :
    (∃ tr t, Steps (int_step src lenc lenu) (.bit control i s) tr (.bit control (i + 1) t)
        ∧ Appends ((s.woff + 4096 - roff) % 4096) rlen s t)
      ↔ s.cin + 2 < 2 ^ 31 ∧ s.cout + rlen < 2 ^ 31 := by
  simp only [int_steps_iff hlenc hlenu hahead]
  constructor
  · rintro ⟨tr, t, hrun, -⟩
    by_contra hout
    have hbeyond : reach lenc < s.cin + 2 ∨ reach lenu < s.cout + rlen := by
      have hc := reach_lt lenc
      have hu := reach_lt lenu
      omega
    obtain ⟨es, s', hstep, hflag⟩ := reference_refused href hne hbeyond
    -- the next bit is not on the way to the end
    rcases hrun.head with ⟨heq, -⟩ | ⟨es', c₁, tr', hfirst, hrest, -⟩
    · cases heq
    · cases hstep.symm.trans hfirst
      rcases refused_ends hflag hrest with heq | heq <;> cases heq
  · rintro ⟨hcin, hcout⟩
    exact hs.reference (reference_reach_iff.mpr ⟨href, hcin⟩) hne (reach_le lenu)
      (le_min hroom (by omega))

end Reference

/-! ## The window -/

/-- **The dictionary is a window on the history.** At every point of a run on any input the
offsets follow the number of bytes written, cell `i` of the dictionary holds the byte at the
last position congruent to it, and a reference for which there is room appends the bytes of
the history at its distance exactly if it ends in front of byte `2 ^ 31` of the payload and of
the text. Every run goes on to the same end, and where both lengths are within reach that is
the end of `decompress_rtf_data`. -/
theorem IntRun.window {src : List UInt8} {lenc lenu : ℕ} (hsrc : lenc ≤ src.length)
    (hlenc : 0 < lenc ∧ lenc < 2 ^ 63) (hlenu : 0 < lenu ∧ lenu < 2 ^ 63) :
    (∀ tr c, IntRun src lenc lenu tr c →
      (c.state.woff = (207 + c.state.cout) % 4096 ∧ c.state.eoff = min 4096 (207 + c.state.cout))
      ∧ (∀ i < 4096,
        (∀ p, IsGreatest {p | p < 207 + c.state.cout ∧ p % 4096 = i} p →
          c.state.dict[i]? = c.state.history[p]?)
        ∧ ((∀ p < 207 + c.state.cout, p % 4096 ≠ i) → c.state.dict[i]? = some 0))
      ∧ ∀ control i roff rlen s, c = .bit control i s → ReferenceAt src lenc control i roff rlen s →
        roff ≠ s.woff → s.cout + rlen ≤ lenu →
        ((∃ tr' t, Steps (int_step src lenc lenu) c tr' (.bit control (i + 1) t)
            ∧ Appends ((s.woff + 4096 - roff) % 4096) rlen s t)
          ↔ s.cin + 2 < 2 ^ 31 ∧ s.cout + rlen < 2 ^ 31))
    ∧ ∃ tr t, IntRun src lenc lenu tr (.done t)
      ∧ (∀ tr' c, IntRun src lenc lenu tr' c →
        ∃ tr'', Steps (int_step src lenc lenu) c tr'' (.done t) ∧ tr = tr' ++ tr'')
      ∧ (lenc < 2 ^ 31 → lenu < 2 ^ 31 → ∀ o, decompress_rtf_data o src lenc lenu
          = checked_xcalloc o lenu 1 0 >>= fun _ => .ok t.dest) := by
  refine ⟨?_, ?_⟩
  · intro tr c hrun
    have hs := (hrun.sound hlenc.2 hlenu.2 hsrc).decoded
    obtain ⟨hoffsets, hcells⟩ := hs.cells
    refine ⟨hoffsets, hcells, ?_⟩
    rintro control i roff rlen s rfl href hne hroom
    exact reference_appends_iff hlenc.2 hlenu.2 hs (hrun.ahead hlenc.2 hlenu.2) href hne hroom
  · obtain ⟨tr, t, hrun, hloop⟩ := intRun_ends hlenc.2 hlenu.2 hsrc
    refine ⟨tr, t, hrun, fun tr' c h => hrun.to_halt rfl h, ?_⟩
    intro hc hu o
    rw [reach_of_lt hc, reach_of_lt hu] at hloop
    rw [decompress_rtf_data, assert_of hlenu.1, ok_bind]
    cases checked_xcalloc o lenu 1 0 with
    | error e => rfl
    | ok size =>
      rw [ok_bind, ok_bind, assert_of hlenc.1, ok_bind, hloop]
      rfl

/-- A reference at distance one, on the first bit of the first control byte: the last byte
of the preset text twice. -/
theorem IntRun.window_witness : ∃ tr t,
    Steps (int_step [1, 0x0c, 0xe0] 3 2) (.bit 1 0 { lz_init 2 with cin := 1 }) tr (.bit 1 1 t)
      ∧ Appends 1 2 { lz_init 2 with cin := 1 } t := by
  have hrun : IntRun [1, 0x0c, 0xe0] 3 2 [.src 0] (.bit 1 0 { lz_init 2 with cin := 1 }) :=
    .single rfl
  generalize hs : ({ lz_init 2 with cin := 1 } : LzState) = s at hrun ⊢
  have hwoff : s.woff = 207 := by simp only [← hs, lz_init, rtf_prebuf_length]
  have hcin : s.cin = 1 := by rw [← hs]
  have hcout : s.cout = 0 := by simp only [← hs, lz_init]
  have href : ReferenceAt [1, 0x0c, 0xe0] 3 1 0 206 2 s := by
    refine ⟨by decide, by simp only [← hs, lz_init], by decide, by omega, 0x0c, 0xe0, ?_⟩
    rw [hcin]
    exact ⟨rfl, rfl, by decide, by decide⟩
  have hwindow := @IntRun.window [1, 0x0c, 0xe0] 3 2 le_rfl ⟨by decide, by decide⟩
    ⟨by decide, by decide⟩
  obtain ⟨tr, t, hsteps, happ⟩ := ((hwindow.1 _ _ hrun).2.2 1 0 206 2 s rfl href
    (by omega) (by omega)).mpr ⟨by omega, by omega⟩
  rw [hwoff] at happ
  exact ⟨tr, t, hsteps, happ⟩

/-- **A reference that fits is refused**: in the last block of `2 ^ 24`, at byte `2 ^ 31` of the
text, with room for twice as much. -/
theorem reference_that_fits_refused :
    ¬ ∀ (src : List UInt8) (lenc lenu : ℕ), lenc ≤ src.length → 0 < lenc → 0 < lenu →
      lenc < 2 ^ 32 → lenu < 2 ^ 32 → ∀ tr c, IntRun src lenc lenu tr c →
      ∀ control i roff rlen s, c = .bit control i s → ReferenceAt src lenc control i roff rlen s →
        roff ≠ s.woff → s.cout + rlen ≤ lenu →
        ∃ tr' t, Steps (int_step src lenc lenu) c tr' (.bit control (i + 1) t)
          ∧ Appends ((s.woff + 4096 - roff) % 4096) rlen s t := by
  intro h
  obtain ⟨g, hg⟩ : ∃ g, 2 ^ 24 = g + 1 := ⟨2 ^ 24 - 1, rfl⟩
  have hlen := reference_blocks_length (g + 1)
  refine @not_lzInRange_of_blocks g (2 ^ 32 - 1) (by omega) (by decide) (by decide) ?_
  intro tr c hrun
  have hahead := hrun.ahead (by omega) (by decide)
  refine ⟨hahead.cin.trans_lt (reach_lt _),
    (c.cout_le_front.trans hahead.front).trans_lt (reach_lt _), ?_⟩
  rintro control i roff rlen s rfl href - hne
  have hcout : s.cout < 2 ^ 31 := hahead.front.trans_lt (reach_lt _)
  have hroom : s.cout + rlen ≤ 2 ^ 32 - 1 := by
    obtain ⟨b₀, b₁, -, -, -, rfl⟩ := href.word
    have hle : b₁.toNat &&& 0x0f ≤ 15 := Nat.and_le_right
    omega
  have hs := (hrun.sound (by omega) (by decide) hlen.ge).decoded
  -- had it been copied, the sum would be within range
  exact ((reference_appends_iff (by omega) (by decide) hs hahead href hne hroom).mp
    (h _ _ _ hlen.ge (by omega) (by decide) (by omega) (by decide) tr _ hrun control i roff rlen s
      rfl href hne hroom)).2

end Tnef
