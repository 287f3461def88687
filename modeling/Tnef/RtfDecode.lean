/-
The decompressor against the format: decoding undoes encoding.

The invariant `Decoded` ties the decoder's state to the history `h` it has
produced: the dictionary is the ring of `h`, the write offset is `h`'s length
modulo 4096, and `dest` is `h` behind the preset text followed by the zeros
`calloc` put there. `LzState.put` keeps it (`put_spec`), so a copied reference
and a literal do; a run over one control byte takes off up to eight items
(`control_run_spec`), and the outer loop takes them off in groups.
-/
import Mathlib.Data.Nat.Bitwise
import Tnef.RtfFormat

set_option autoImplicit false

namespace Tnef

open ExceptRules Slice Window LittleEndian

/-! ## The invariant -/

/-- The state after the history `h`, in a decoder with room for `lenu` bytes. -/
structure Decoded (lenu : ℕ) (h : List UInt8) (s : LzState) : Prop where
  ring : Ring 4096 0 s.dict h
  woff : s.woff = h.length % 4096
  eoff : s.eoff = min 4096 h.length
  count : h.length = rtf_prebuf.length + s.cout
  room : s.cout ≤ lenu
  dest : s.dest = h.drop rtf_prebuf.length ++ List.replicate (lenu - s.cout) 0

theorem and_fff (n : ℕ) : n &&& 0xfff = n % 4096 := Nat.and_two_pow_sub_one_eq_mod n 12

theorem decoded_init (lenu : ℕ) : Decoded lenu rtf_prebuf (lz_init lenu) := by
  have hlen : rtf_prebuf.length = 207 := rtf_prebuf_length
  refine ⟨Ring.init (by rw [hlen]; decide), ?_, ?_, (Nat.add_zero _).symm, Nat.zero_le _, ?_⟩
  · simp only [lz_init, hlen]
  · simp only [lz_init, hlen]
    decide
  · simp [lz_init]

theorem put_eq {s : LzState} (b : UInt8) (hdest : s.cout < s.dest.length)
    (hdict : s.woff < s.dict.length) :
    s.put b = .ok { s with
      cout := s.cout + 1, woff := (s.woff + 1) &&& 0xfff, dict := s.dict.set s.woff b,
      dest := s.dest.set s.cout b, eoff := if s.eoff < 4096 then s.eoff + 1 else s.eoff } := by
  simp only [LzState.put, wr, if_pos hdest, if_pos hdict, ok_bind, pure_eq_ok]

/-- Writing one byte while there is room keeps the invariant. -/
theorem put_spec {lenu : ℕ} {h : List UInt8} {s : LzState} (hs : Decoded lenu h s) (b : UInt8)
    (hroom : s.cout < lenu) :
    ∃ t, s.put b = .ok t ∧ Decoded lenu (h ++ [b]) t ∧ t.cin = s.cin ∧ t.endflag = s.endflag := by
  have hpre : rtf_prebuf.length ≤ h.length := by rw [hs.count]; omega
  have hbody : (h.drop rtf_prebuf.length).length = s.cout := by
    rw [List.length_drop, hs.count]; omega
  have hdest : s.cout < s.dest.length := by
    rw [hs.dest, List.length_append, List.length_replicate, hbody]; omega
  have hdict : s.woff < s.dict.length := by
    rw [hs.ring.length, hs.woff]; exact Nat.mod_lt _ (by decide)
  refine ⟨_, put_eq b hdest hdict, ⟨?_, ?_, ?_, ?_, hroom, ?_⟩, rfl, rfl⟩
  · show Ring 4096 0 (s.dict.set s.woff b) _
    rw [hs.woff]
    exact hs.ring.write (by decide) b
  · show (s.woff + 1) &&& 0xfff = _
    rw [and_fff, hs.woff, Nat.mod_add_mod, List.length_append, List.length_singleton]
  · show (if s.eoff < 4096 then s.eoff + 1 else s.eoff) = _
    rw [hs.eoff, List.length_append, List.length_singleton]
    split_ifs <;> omega
  · show (h ++ [b]).length = _ + (s.cout + 1)
    rw [List.length_append, List.length_singleton, hs.count]
    omega
  · show s.dest.set s.cout b = _
    -- the cell at `cout` is the first of the zeros
    obtain ⟨k, hk⟩ : ∃ k, lenu - s.cout = k + 1 := ⟨lenu - s.cout - 1, by omega⟩
    rw [hs.dest, List.set_append_right _ _ (by rw [hbody]), hbody, Nat.sub_self, hk,
      List.replicate_succ, List.set_cons_zero, List.drop_append_of_le_length hpre,
      List.append_assoc, show lenu - (s.cout + 1) = k by omega]
    rfl

/-! ## One token -/

/-- Copying `n` bytes from distance `dist` is `copy` on the history. -/
theorem copy_reference_spec {lenu dist : ℕ} (hd1 : 1 ≤ dist) (hd2 : dist ≤ 4095) (n : ℕ) :
    ∀ {h : List UInt8} {s : LzState}, Decoded lenu h s → s.cout + n ≤ lenu →
    ∃ t, copy_reference n ((h.length + 4096 - dist) % 4096) s = .ok t
      ∧ Decoded lenu (copy 0 dist n h) t ∧ t.cin = s.cin ∧ t.endflag = s.endflag := by
  induction n with
  | zero =>
    intro h s hs _
    exact ⟨s, rfl, hs, rfl, rfl⟩
  | succ n ih =>
    intro h s hs hroom
    have hread : rd s.dict ((h.length + 4096 - dist) % 4096) = .ok (back 0 h dist) :=
      rd_eq_ok.mpr (hs.ring.cell dist hd1 (by omega))
    obtain ⟨t, hput, ht, hcin, hflag⟩ := put_spec hs (back 0 h dist) (by omega)
    have hcout : t.cout = s.cout + 1 := by
      have h1 := ht.count
      rw [List.length_append, List.length_singleton, hs.count] at h1
      omega
    obtain ⟨t', hrest, ht', hcin', hflag'⟩ := ih ht (by omega)
    -- read and write position move on together, so the distance stays the same
    have hnext : (((h.length + 4096 - dist) % 4096) + 1) &&& 0xfff
        = ((h ++ [back 0 h dist]).length + 4096 - dist) % 4096 := by
      rw [and_fff, read_pos_succ (by omega), List.length_append, List.length_singleton]
    refine ⟨t', ?_, ht', by rw [hcin', hcin], by rw [hflag', hflag]⟩
    rw [copy_reference, hread, ok_bind, hput, ok_bind, hnext, hrest]

section Stream

variable {src : List UInt8} {lenc lenu : ℕ}

/-- The end reference stops the loops. -/
theorem lz_reference_end {h : List UInt8} {s : LzState} {elen : ℕ} (hs : Decoded lenu h s)
    (helo : 2 ≤ elen) (hehi : elen ≤ 17) (hat : At src s.cin (ref_bytes (h.length % 4096) elen))
    (hin : s.cin + 2 ≤ lenc) :
    lz_reference src lenc lenu s = .ok { s with cin := s.cin + 2, endflag := 1 } := by
  obtain ⟨b₀, b₁, hbytes, hoff, -⟩ :=
    ref_bytes_decode (Nat.mod_lt h.length (show 0 < 4096 by decide)) helo hehi
  rw [hbytes] at hat
  have h0 : rd src s.cin = .ok b₀ := rd_of_at (k := 0) hat rfl
  have h1 := rd_of_at (k := 1) hat rfl
  rw [lz_reference, if_neg (by omega), h0, ok_bind, h1, ok_bind]
  simp only [hoff, hs.woff, if_pos]

/-- A reference with room for its bytes copies them. -/
theorem lz_reference_spec {h : List UInt8} {s : LzState} {dist len : ℕ} (hs : Decoded lenu h s)
    (hok : TokenOk (.ref dist len)) (hin : s.cin + 2 ≤ lenc) (hroom : s.cout + len ≤ lenu)
    (hat : At src s.cin (ref_bytes ((h.length + 4096 - dist) % 4096) len)) :
    ∃ t, lz_reference src lenc lenu s = .ok t ∧ Decoded lenu (copy 0 dist len h) t
      ∧ t.cin = s.cin + 2 ∧ t.endflag = s.endflag := by
  obtain ⟨hd1, hd2, hlo, hhi⟩ := hok
  obtain ⟨b₀, b₁, hbytes, hoff, hlen⟩ :=
    ref_bytes_decode (Nat.mod_lt (h.length + 4096 - dist) (show 0 < 4096 by decide)) hlo hhi
  rw [hbytes] at hat
  have h0 : rd src s.cin = .ok b₀ := rd_of_at (k := 0) hat rfl
  have h1 := rd_of_at (k := 1) hat rfl
  -- the distance is not a multiple of the window, so this is not the end reference
  have hne : (h.length + 4096 - dist) % 4096 ≠ s.woff := by
    rw [hs.woff]
    omega
  have hs' : Decoded lenu h { s with cin := s.cin + 2 } := ⟨hs.1, hs.2, hs.3, hs.4, hs.5, hs.6⟩
  obtain ⟨t, ht, hdec, hcin, hflag⟩ := copy_reference_spec hd1 hd2 len hs' hroom
  refine ⟨t, ?_, hdec, hcin, hflag⟩
  rw [lz_reference, if_neg (by omega), h0, ok_bind, h1, ok_bind]
  simp only [hoff, hlen, if_neg hne]
  rw [if_neg (by omega), ht]

/-- A literal with room for its byte is written. -/
theorem lz_literal_spec {h : List UInt8} {s : LzState} {b : UInt8} (hs : Decoded lenu h s)
    (hin : s.cin + 1 ≤ lenc) (hroom : s.cout + 1 ≤ lenu) (hat : At src s.cin [b]) :
    ∃ t, lz_literal src lenc lenu s = .ok t ∧ Decoded lenu (h ++ [b]) t
      ∧ t.cin = s.cin + 1 ∧ t.endflag = s.endflag := by
  have h0 : rd src s.cin = .ok b := rd_of_at (k := 0) hat rfl
  obtain ⟨t, hput, hdec, hcin, hflag⟩ := put_spec hs b (by omega)
  refine ⟨{ t with cin := s.cin + 1 }, ?_, ⟨hdec.1, hdec.2, hdec.3, hdec.4, hdec.5, hdec.6⟩,
    rfl, hflag⟩
  rw [lz_literal, if_neg (by omega), if_neg (by omega), h0, ok_bind, hput, ok_bind, pure_eq_ok,
    hcin]

/-! ## One control byte -/

theorem control_run_of_endflag {control i : ℕ} {s : LzState} (h : s.endflag ≠ 0) :
    control_run src lenc lenu control i s = .ok s := by
  rw [control_run, if_pos h, ite_self]

theorem control_run_reference {control i : ℕ} {s t : LzState} (hi : i < 8) (hflag : s.endflag = 0)
    (hbit : control.testBit i = true) (ht : lz_reference src lenc lenu s = .ok t) :
    control_run src lenc lenu control i s = control_run src lenc lenu control (i + 1) t := by
  have hmask : control &&& (1 <<< i) ≠ 0 := by
    rw [Nat.one_shiftLeft, Nat.and_two_pow, hbit]
    simp
  rw [control_run, if_pos hi, if_neg (by rw [hflag]; simp), if_pos hmask, ht, ok_bind]

theorem control_run_literal {control i : ℕ} {s t : LzState} (hi : i < 8) (hflag : s.endflag = 0)
    (hbit : control.testBit i = false) (ht : lz_literal src lenc lenu s = .ok t) :
    control_run src lenc lenu control i s = control_run src lenc lenu control (i + 1) t := by
  have hmask : ¬ control &&& (1 <<< i) ≠ 0 := by
    rw [Nat.one_shiftLeft, Nat.and_two_pow, hbit]
    simp
  rw [control_run, if_pos hi, if_neg (by rw [hflag]; simp), if_neg hmask, ht, ok_bind]

end Stream

section Groups

variable (payload extra : List UInt8) {lenu elen : ℕ} (helo : 2 ≤ elen) (hehi : elen ≤ 17)

/-- One token, read at the item written for it. -/
theorem token_step {control i : ℕ} {h : List UInt8} {s : LzState} {tok : Token UInt8} (hi : i < 8)
    (hs : Decoded lenu h s) (hflag : s.endflag = 0) (hok : TokenOk tok)
    (hroom : (apply 0 h tok).length ≤ rtf_prebuf.length + lenu)
    (hat : At payload s.cin (token_item h.length tok).bytes)
    (hbit : control.testBit i = (token_item h.length tok).bit) :
    ∃ t, control_run (payload ++ extra) payload.length lenu control i s
        = control_run (payload ++ extra) payload.length lenu control (i + 1) t
      ∧ Decoded lenu (apply 0 h tok) t ∧ t.endflag = 0
      ∧ t.cin = s.cin + (token_item h.length tok).bytes.length := by
  have hin := hat.le
  have hcount := hs.count
  cases tok with
  | lit b =>
    have hroom' : s.cout + 1 ≤ lenu := by
      simp only [apply, List.length_append, List.length_singleton] at hroom
      omega
    obtain ⟨t, ht, hdec, hcin, hflag'⟩ := lz_literal_spec hs hin hroom' (hat.append_right extra)
    exact ⟨t, control_run_literal hi hflag hbit ht, hdec, by rw [hflag', hflag], hcin⟩
  | ref dist len =>
    have hroom' : s.cout + len ≤ lenu := by
      simp only [apply, copy_length] at hroom
      omega
    obtain ⟨t, ht, hdec, hcin, hflag'⟩ :=
      lz_reference_spec hs hok hin hroom' (hat.append_right extra)
    exact ⟨t, control_run_reference hi hflag hbit ht, hdec, by rw [hflag', hflag], hcin⟩

/-- What a run over the rest of a control byte does to the items it covers: either
the end reference is among them and the document is complete, or the items are
used up and the others are left for the next control byte. -/
def RunDone (lenu elen : ℕ) (h : List UInt8) (ts : List (Token UInt8)) (n : ℕ)
    (s t : LzState) : Prop :=
  (t.endflag = 1 ∧ t.dest = (expand 0 h ts).drop rtf_prebuf.length) ∨
  (t.endflag = 0 ∧ ∃ h' ts', Decoded lenu h' t ∧ (∀ t ∈ ts', TokenOk t)
    ∧ expand 0 h' ts' = expand 0 h ts ∧ items elen h' ts' = (items elen h ts).drop n
    ∧ t.cin = s.cin + (((items elen h ts).take n).flatMap Item.bytes).length)

include helo hehi in
/-- The run from bit `i` on. The induction is on the tokens; the control byte runs
out first when eight items have been taken. -/
theorem control_run_spec (control : ℕ) (ts : List (Token UInt8)) :
    ∀ {h : List UInt8} {s : LzState} {i : ℕ}, i ≤ 8 → Decoded lenu h s → s.endflag = 0 →
    (∀ t ∈ ts, TokenOk t) → (expand 0 h ts).length = rtf_prebuf.length + lenu →
    At payload s.cin (((items elen h ts).take (8 - i)).flatMap Item.bytes) →
    (∀ k it, k < 8 - i → (items elen h ts)[k]? = some it → control.testBit (i + k) = it.bit) →
    ∃ t, control_run (payload ++ extra) payload.length lenu control i s = .ok t
      ∧ RunDone lenu elen h ts (8 - i) s t := by
  induction ts with
  | nil =>
    intro h s i hi hs hflag _ hlen hat hbits
    -- at `i = 8` the control byte is used up; below, the end reference is next
    rcases Nat.eq_or_lt_of_le hi with rfl | hlt
    · refine ⟨s, by rw [control_run, if_neg (by decide)], .inr ⟨hflag, h, [], hs, ?_, rfl, rfl, ?_⟩⟩
      · simp
      · simp
    · obtain ⟨k, hk⟩ : ∃ k, 8 - i = k + 1 := ⟨7 - i, by omega⟩
      have hbit := hbits 0 _ (by omega) rfl
      rw [Nat.add_zero] at hbit
      have hbytes : (((items elen h []).take (8 - i)).flatMap Item.bytes)
          = ref_bytes (h.length % 4096) elen := by
        rw [hk]
        simp [items]
      rw [hbytes] at hat
      have hend : lz_reference (payload ++ extra) payload.length lenu s = _ :=
        lz_reference_end hs helo hehi (hat.append_right extra) hat.le
      refine ⟨_, by rw [control_run_reference hlt hflag hbit hend,
        control_run_of_endflag one_ne_zero], .inl ⟨rfl, ?_⟩⟩
      -- the document is complete, so no zeros are left behind it
      have hfull : lenu - s.cout = 0 := by
        have hcount := hs.count
        simp only [expand, List.foldl_nil] at hlen
        omega
      show s.dest = h.drop _
      rw [hs.dest, hfull, List.replicate_zero, List.append_nil]
  | cons tok ts ih =>
    intro h s i hi hs hflag hok hlen hat hbits
    -- at `i = 8` the tokens are left for the next control byte; below, one is taken off
    rcases Nat.eq_or_lt_of_le hi with rfl | hlt
    · refine ⟨s, by rw [control_run, if_neg (by decide)],
        .inr ⟨hflag, h, tok :: ts, hs, hok, rfl, rfl, ?_⟩⟩
      simp
    · obtain ⟨k, hk⟩ : ∃ k, 8 - i = k + 1 := ⟨7 - i, by omega⟩
      have hk' : 8 - (i + 1) = k := by omega
      have hsplit : ((items elen h (tok :: ts)).take (8 - i)).flatMap Item.bytes
          = (token_item h.length tok).bytes
            ++ ((items elen (apply 0 h tok) ts).take k).flatMap Item.bytes := by
        rw [hk, items, List.take_succ_cons, List.flatMap_cons]
      rw [hsplit, at_append] at hat
      have hroom : (apply 0 h tok).length ≤ rtf_prebuf.length + lenu := by
        rw [← hlen]
        exact (isPrefix_expand (z := 0) (apply 0 h tok) ts).length_le
      have hbit := hbits 0 _ (by omega) rfl
      rw [Nat.add_zero] at hbit
      obtain ⟨t, hstep, hdec, hflag', hcin⟩ := token_step payload extra hlt hs hflag
        (hok tok (List.mem_cons_self ..)) hroom hat.1 hbit
      obtain ⟨t', hrun, hdone⟩ := ih (i := i + 1) (by omega) hdec hflag'
        (fun x hx => hok x (List.mem_cons_of_mem _ hx)) hlen (by rw [hk', hcin]; exact hat.2)
        (fun j it hj hit => by
          rw [show i + 1 + j = i + (j + 1) by omega]
          exact hbits (j + 1) it (by omega) hit)
      refine ⟨t', by rw [hstep, hrun], hdone.imp id ?_⟩
      rintro ⟨hflag'', h', ts', hdec', hok', hexp, hitems, hcin'⟩
      refine ⟨hflag'', h', ts', hdec', hok', hexp, ?_, ?_⟩
      · rw [hitems, hk', hk, items, List.drop_succ_cons]
      · rw [hsplit, List.length_append, hcin', hcin, hk']
        omega

/-! ## The whole stream -/

theorem decompress_loop_step {src : List UInt8} {lenc : ℕ} {s t : LzState} {control : UInt8}
    (hflag : s.endflag = 0) (hin : s.cin + 1 ≤ lenc) (hrd : rd src s.cin = .ok control)
    (hrun : control_run src lenc lenu control.toNat 0 { s with cin := s.cin + 1 } = .ok t) :
    decompress_loop src lenc lenu s = decompress_loop src lenc lenu t := by
  rw [decompress_loop, if_neg (by rw [hflag]; simp), if_neg (by omega), hrd]
  simp only
  split
  · next e he =>
    rw [hrun] at he
    cases he
  · next t' ht' =>
    rw [hrun] at ht'
    cases ht'
    rfl

theorem decompress_loop_of_endflag {src : List UInt8} {lenc : ℕ} {s : LzState}
    (hflag : s.endflag ≠ 0) : decompress_loop src lenc lenu s = .ok s := by
  rw [decompress_loop, if_pos hflag]

include helo hehi in
/-- The outer loop on the packed items of the tokens still to come. -/
theorem decompress_loop_spec (n : ℕ) : ∀ {h : List UInt8} {s : LzState} {ts : List (Token UInt8)},
    (items elen h ts).length = n → Decoded lenu h s → s.endflag = 0 → (∀ t ∈ ts, TokenOk t) →
    (expand 0 h ts).length = rtf_prebuf.length + lenu →
    At payload s.cin (pack (items elen h ts)) →
    ∃ t, decompress_loop (payload ++ extra) payload.length lenu s = .ok t
      ∧ t.dest = (expand 0 h ts).drop rtf_prebuf.length := by
  induction n using Nat.strong_induction_on with
  | _ n ih =>
    intro h s ts hn hs hflag hok hlen hat
    rw [pack_of_ne_nil (items_ne_nil elen h ts), ← List.singleton_append, at_append,
      at_append] at hat
    obtain ⟨hctl, hgroup, hrest⟩ := hat
    rw [List.length_singleton] at hgroup hrest
    have hrd := rd_of_at (k := 0) (hctl.append_right extra) rfl
    have hs' : Decoded lenu h { s with cin := s.cin + 1 } :=
      ⟨hs.1, hs.2, hs.3, hs.4, hs.5, hs.6⟩
    obtain ⟨t, hrun, hdone⟩ := control_run_spec payload extra helo hehi
      (control_bits ((items elen h ts).take 8)) ts (i := 0) (by decide) hs' hflag hok hlen hgroup
      (fun k it hk hit => by
        rw [Nat.zero_add]
        exact control_bits_testBit _ k it (by rw [List.getElem?_take_of_lt (by omega)]; exact hit))
    have hctlle := hctl.le
    rw [List.length_singleton] at hctlle
    have hstep := decompress_loop_step hflag hctlle hrd (by rw [control_byte_toNat]; exact hrun)
    -- either the stream has ended, or eight items are gone and the rest is shorter
    rcases hdone with ⟨hend, hdest⟩ | ⟨hflag', h', ts', hdec, hok', hexp, hitems, hcin⟩
    · exact ⟨t, by rw [hstep, decompress_loop_of_endflag (by rw [hend]; decide)], hdest⟩
    · have hfewer : (items elen h' ts').length < n := by
        have hpos : 0 < (items elen h ts).length := List.length_pos_iff.mpr (items_ne_nil _ _ _)
        rw [hitems, List.length_drop]
        omega
      obtain ⟨t', hloop, hdest⟩ := ih _ hfewer rfl hdec hflag' hok' (by rw [hexp, hlen])
        (by rw [hcin, hitems]; exact hrest)
      exact ⟨t', by rw [hstep, hloop], by rw [hdest, hexp]⟩

end Groups

/-- **Decompression undoes packing.** On the packed tokens of `u`, with whatever lies
behind them in memory, `decompress_rtf_data` returns `u`. -/
theorem decompress_rtf_data_payload (o : Options) {u : List UInt8} {toks : List (Token UInt8)}
    {elen : ℕ} (hu : u ≠ []) (htoks : Tokenises toks u) (helo : 2 ≤ elen) (hehi : elen ≤ 17)
    (hlen : u.length < 2 ^ 64) (hlim : o.Admits u.length) (extra : List UInt8) :
    decompress_rtf_data o (lzfu_payload elen toks ++ extra) (lzfu_payload elen toks).length u.length
      = .ok u := by
  have hpos : 0 < u.length := List.length_pos_iff.mpr hu
  have hpay : 0 < (lzfu_payload elen toks).length := by
    rw [lzfu_payload, pack_of_ne_nil (items_ne_nil _ _ _)]
    exact Nat.succ_pos _
  have hexp : (expand 0 rtf_prebuf toks).length = rtf_prebuf.length + u.length := by
    rw [htoks.spells, List.length_append]
  obtain ⟨t, hloop, hdest⟩ := decompress_loop_spec (lzfu_payload elen toks) extra helo hehi _
    rfl (decoded_init u.length) rfl htoks.ok hexp (at_zero _)
  rw [decompress_rtf_data, assert_of hpos, ok_bind, checked_xcalloc_of_lt o (by omega),
    if_pos (by rw [Nat.mul_one]; exact hlim), ok_bind, assert_of hpay, ok_bind, hloop, ok_bind,
    pure_eq_ok, hdest, htoks.spells, List.drop_left]

/-! ## The value around the stream -/

/-- The four words of a header are read back. -/
theorem rtf_header_words (c n : ℕ) (m k : UInt32) (body : List UInt8) :
    HeaderWords (rtf_header c n m k ++ body) (UInt32.ofNat c) (UInt32.ofNat n) m k := by
  have hat : At (rtf_header c n m k ++ body) 0 (rtf_header c n m k) :=
    (at_zero _).append_right body
  simp only [rtf_header, at_append, List.length_append, le32_length, Nat.zero_add] at hat
  obtain ⟨⟨⟨h0, h1⟩, h2⟩, h3⟩ := hat
  exact ⟨h0, h1, h2, h3⟩

/-- `get_rtf_data` on one value with a known magic number is
`get_rtf_data_from_buf` on its bytes, followed by the terminating NULL. -/
theorem get_rtf_data_header (o : Options) (c n : ℕ) {m : UInt32} (k : UInt32) {body : List UInt8}
    (hm : m = rtf_uncompressed_magic ∨ m = rtf_compressed_magic) (hlim : o.Admits 16) :
    get_rtf_data o (rtf_attr (rtf_header c n m k ++ body))
      = get_rtf_data_from_buf o (rtf_header c n m k ++ body).length
          (rtf_header c n m k ++ body ++ [0]) >>= fun r => .ok [some ⟨r.1, r.2⟩, none] := by
  have hlen : (rtf_header c n m k ++ body).length > 12 := by
    rw [List.length_append, rtf_header_length]
    omega
  have hisrtf : is_rtf_data (rtf_header c n m k ++ body ++ [0]) = .ok true := by
    rw [List.append_assoc, is_rtf_data_of_words (rtf_header_words c n m k _), decide_eq_true hm]
  have hcalloc : checked_xcalloc o (1 + 1) sizeof_ptr 0 = .ok 16 :=
    (checked_xcalloc_of_lt o (by decide)).trans (if_pos hlim)
  have hmalloc : xmalloc 1 sizeof_VarLenData 0 = .ok 16 := xmalloc_of_lt (by decide)
  rw [get_rtf_data, rtf_attr, hcalloc, ok_bind]
  simp only [List.take_succ_cons, List.take_zero, List.mapM_cons, List.mapM_nil, rtf_value,
    if_pos hlen, Buffer.full_bytes, hisrtf, ok_bind, if_true, hmalloc, pure_eq_ok]
  cases get_rtf_data_from_buf o (rtf_header c n m k ++ body).length
      (rtf_header c n m k ++ body ++ [0]) with
  | error e => rfl
  | ok r => rfl

/-- The compressed branch: size and checksum agree, and the payload is decoded. The sizes
have to fit the words of the header. -/
theorem get_rtf_data_from_buf_lzfu (o : Options) {u : List UInt8} {toks : List (Token UInt8)}
    {elen : ℕ} (hu : u ≠ []) (htoks : Tokenises toks u) (helo : 2 ≤ elen) (hehi : elen ≤ 17)
    (hlen : u.length < 2 ^ 32) (hpay : (lzfu_payload elen toks).length + 12 < 2 ^ 32)
    (hlim : o.Admits u.length) :
    get_rtf_data_from_buf o (lzfu elen u toks).length (lzfu elen u toks ++ [0])
      = .ok (u.length, .full u) := by
  have hpos : 0 < (lzfu_payload elen toks).length := by
    rw [lzfu_payload, pack_of_ne_nil (items_ne_nil _ _ _)]
    exact Nat.succ_pos _
  have hvlen : (lzfu elen u toks).length = 16 + (lzfu_payload elen toks).length := by
    rw [lzfu, List.length_append, rtf_header_length]
  have hcompr : (UInt32.ofNat ((lzfu_payload elen toks).length + 12)).toNat
      = (lzfu_payload elen toks).length + 12 := UInt32.toNat_ofNat_of_lt' hpay
  have huncompr : (UInt32.ofNat u.length).toNat = u.length := UInt32.toNat_ofNat_of_lt' hlen
  have hw := rtf_header_words ((lzfu_payload elen toks).length + 12) u.length
    rtf_compressed_magic (generate_crc (lzfu_payload elen toks)) (lzfu_payload elen toks ++ [0])
  rw [← List.append_assoc, ← lzfu] at hw
  have hblock : rd_block (lzfu elen u toks ++ [0]) 16 ((lzfu elen u toks).length - 16)
      = .ok (lzfu_payload elen toks) := by
    rw [rd_block, if_pos (by rw [List.length_append]; omega), hvlen, Nat.add_sub_cancel_left, lzfu,
      List.append_assoc, List.drop_left' (rtf_header_length _ _ _ _), List.take_left]
  have hrest : (lzfu elen u toks ++ [0]).drop 16 = lzfu_payload elen toks ++ [0] := by
    rw [lzfu, List.append_assoc, List.drop_left' (rtf_header_length _ _ _ _)]
  rw [get_rtf_data_from_buf_eq o hw (by omega) (by rw [hcompr, hvlen]; omega),
    if_neg (by decide), if_pos rfl, hblock, ok_bind, if_pos rfl, hrest, huncompr, hvlen,
    Nat.add_sub_cancel_left,
    decompress_rtf_data_payload o hu htoks helo hehi (by omega) hlim, ok_bind, pure_eq_ok]

/-- **Decoding undoes encoding.** Whatever tokens a document is written with,
`get_rtf_data` returns the document, at its length. -/
theorem get_rtf_data_lzfu (o : Options) {u : List UInt8} {toks : List (Token UInt8)} {elen : ℕ}
    (hu : u ≠ []) (htoks : Tokenises toks u) (helo : 2 ≤ elen) (hehi : elen ≤ 17)
    (hlen : u.length < 2 ^ 31) (hpay : (lzfu_payload elen toks).length < 2 ^ 31)
    (hlim : o.Admits 16) (hlim' : o.Admits u.length) :
    get_rtf_data o (rtf_attr (lzfu elen u toks)) = .ok [some ⟨u.length, .full u⟩, none] := by
  have hbuf := get_rtf_data_from_buf_lzfu o hu htoks helo hehi (by omega) (by omega) hlim'
  rw [lzfu] at hbuf ⊢
  rw [get_rtf_data_header o _ _ _ (.inr rfl) hlim, hbuf, ok_bind]

/-- Nine bytes in three tokens: a literal, a copy that runs into its own output, and
a copy of `\par` out of the preset text. -/
theorem get_rtf_data_lzfu_witness :
    get_rtf_data {} (rtf_attr (lzfu 2 [97, 97, 97, 97, 97, 92, 112, 97, 114]
        [.lit 97, .ref 1 4, .ref 42 4]))
      = .ok [some ⟨9, .full [97, 97, 97, 97, 97, 92, 112, 97, 114]⟩, none] :=
  @get_rtf_data_lzfu {} [97, 97, 97, 97, 97, 92, 112, 97, 114] [.lit 97, .ref 1 4, .ref 42 4] 2
    (by decide) ⟨by decide, by decide +kernel⟩ (by decide) (by decide) (by decide)
    (by decide +kernel) (.inl rfl) (.inl rfl)

end Tnef
