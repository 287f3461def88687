/-
What the checksums of the attributes do for a run.

An attribute whose checksum word is not the sum of its data ends the run, and what has
happened until then is what the attributes in front of it do (`parse_file_damaged`); a
change to a single byte of the data is always found out (`byte_sum_set_ne`).
`--ignore-checksum` is no more than a repair of the checksum words: the run returns what
the run over the repaired stream returns without it (`parse_file_repaired`).
-/
import Tnef.Lenient
import Tnef.NoClobber
import Tnef.StreamEnds

set_option autoImplicit false

namespace Tnef

open ExceptRules Stateful

/-! ## The sum -/

/-- Changing one byte changes the sum: it moves by less than 65536. -/
theorem byte_sum_set_ne {data : List UInt8} {i : ℕ} {b : UInt8} (hi : i < data.length)
    (hb : data[i]? ≠ some b) : byte_sum (data.set i b) ≠ byte_sum data := by
  obtain ⟨before, c, after, rfl, rfl⟩ : ∃ before c after, data = before ++ c :: after
      ∧ before.length = i := by
    refine ⟨data.take i, data[i], data.drop (i + 1), ?_, ?_⟩
    · rw [List.getElem_cons_drop, List.take_append_drop]
    · rw [List.length_take]
      omega
  have hne : c.toNat ≠ b.toNat := by
    intro h
    apply hb
    rw [List.getElem?_append_right le_rfl, Nat.sub_self, UInt8.toNat_inj.mp h]
    rfl
  have hc := c.toNat_lt
  have hb' := b.toNat_lt
  rw [List.set_append_right _ _ le_rfl, Nat.sub_self, List.set_cons_zero]
  unfold byte_sum
  simp only [List.map_append, List.map_cons, List.sum_append, List.sum_cons]
  intro h
  have hmod := congrArg UInt16.toNat h
  rw [UInt16.toNat_ofNat', UInt16.toNat_ofNat'] at hmod
  simp only [Nat.reducePow] at hmod
  omega

/-! ## Ignoring checksums -/

/-- The attributes with the checksum words they should have. -/
def repaired (as : List (Attr × UInt16)) : List (Attr × UInt16) :=
  as.map fun x => (x.1, byte_sum x.1.data)

def Options.ignore_checksum (o : Options) : Options := { o with checksum_ok := true }

section Repair

variable {o o' : Options}

/-- Behind the last attribute no checksum is looked at. -/
theorem attr_loop_tail {ω σ : Type} {body body' : Attr → σ → Act Stop ω σ} {tail : List UInt8}
    (htail : NoAttr tail) (is_stdin : Bool) (s : σ) :
    Tracks (attr_loop o body { rest := tail, is_stdin := is_stdin } s)
      (attr_loop o' body' { rest := tail, is_stdin := is_stdin } s) := by
  by_cases hne : tail = []
  · subst hne
    rw [attr_loop_end_of_input, attr_loop_end_of_input]
    exact Tracks.refl _
  · by_cases hleft : is_stdin = true ∨ MINIMUM_ATTR_LENGTH ≤ tail.length
    · obtain ⟨e, -, hstop⟩ := attr_loop_no_attr o body hne htail is_stdin hleft s
      rw [hstop]
      exact tracks_throw e _
    · rw [not_or, Bool.not_eq_true, not_le] at hleft
      obtain ⟨rfl, hlt⟩ := hleft
      have hpos := List.length_pos_iff.mpr hne
      rw [attr_loop_cruft o body hpos hlt, attr_loop_cruft o' body' hpos hlt]
      exact Tracks.refl _

/-- Two streams of the same attributes with different checksum words: if every word that
passes in the first passes in the second, the run over the second does what the first does. -/
theorem parse_file_words (h : Laxer o o') (directory : Option (List UInt8))
    (body_filename body_pref : List UInt8) (key : UInt16) {as as' : List (Attr × UInt16)}
    (has : List.Forall₂ (fun x x' => x.1 = x'.1
      ∧ (check_checksum x.1 x.2 = true ∨ o.checksum_ok = true →
        check_checksum x.1 x'.2 = true ∨ o'.checksum_ok = true)) as as')
    {tail : List UInt8} (htail : NoAttr tail) (is_stdin : Bool) :
    Tracks (parse_file o directory body_filename body_pref
        { rest := stream key as ++ tail, is_stdin := is_stdin })
      (parse_file o' directory body_filename body_pref
        { rest := stream key as' ++ tail, is_stdin := is_stdin }) := by
  have hfold : ∀ s : ParseState, Tracks
      (as.foldlM (fun s x => lift (attr_gate o x.1 x.2) >>= fun _ => parse_attr o directory x.1 s) s)
      (as'.foldlM (fun s x => lift (attr_gate o' x.1 x.2) >>= fun _ => parse_attr o' directory x.1 s)
        s) := by
    induction has with
    | nil =>
      intro s
      rw [List.foldlM_nil, List.foldlM_nil]
      exact Tracks.refl _
    | @cons x x' as as' hx _ ih =>
      intro s
      obtain ⟨hattr, hpass⟩ := hx
      have hgate : Approx (attr_gate o x.1 x.2) (attr_gate o' x.1 x'.2) := attr_gate_laxer h hpass
      have hone : Tracks (lift (attr_gate o x.1 x.2) >>= fun _ => parse_attr o directory x.1 s)
          (lift (attr_gate o' x.1 x'.2) >>= fun _ => parse_attr o' directory x.1 s) :=
        (tracks_lift hgate).bind fun _ => parse_attr_laxer h directory x.1 s
      rw [List.foldlM_cons, List.foldlM_cons, ← hattr]
      exact hone.bind ih
  have hafter : ∀ r, Tracks (after_loop o directory body_filename body_pref r)
      (after_loop o' directory body_filename body_pref r) := fun r =>
    finish_file_laxer h directory body_filename body_pref r.2
  have hloop : ∀ s : ParseState, Tracks
      (attr_loop o (parse_attr o directory) { rest := tail, is_stdin := is_stdin } s)
      (attr_loop o' (parse_attr o' directory) { rest := tail, is_stdin := is_stdin } s) :=
    attr_loop_tail htail is_stdin
  rw [stream_append, stream_append, parse_file_stream, parse_file_stream, attr_loop_bytes,
    attr_loop_bytes]
  exact ((hfold {}).bind hloop).bind hafter

end Repair

/-! ## Damaged attributes -/

/-- **A wrong checksum ends the run**, and the world is what the attributes in front of it
have made of it. -/
theorem parse_file_damaged {o : Options} (hk : o.checksum_ok = false)
    (directory : Option (List UInt8)) (body_filename body_pref : List UInt8) (key : UInt16)
    (before : List (Attr × UInt16)) {attr : Attr} {k : UInt16} (hsum : k ≠ byte_sum attr.data)
    (rest : List UInt8) (is_stdin : Bool) (w : World) :
    ∃ e, exec (parse_file o directory body_filename body_pref
        { rest := stream key before ++ (encode_raw attr k ++ rest), is_stdin := is_stdin }) w
      = (.error e, (exec (attr_loop o (parse_attr o directory) { rest := attr_bytes before } {}) w).2) := by
  have hgate : ∃ e, attr_gate o attr k = .error e := by
    cases hgate : attr_gate o attr k with
    | error e => exact ⟨e, rfl⟩
    | ok u => exact absurd ((attr_gate_eq_ok hk).mp hgate).1 hsum
  obtain ⟨e, hgate⟩ := hgate
  have hbytes : attr_bytes before ++ (encode_raw attr k ++ rest)
      = attr_bytes (before ++ [(attr, k)]) ++ rest := by
    simp [attr_bytes]
  have hloop := attr_loop_bytes o (parse_attr o directory) before [] false {}
  rw [List.append_nil] at hloop
  rw [stream_append, hbytes, exec_parse_file, List.foldlM_append, exec_bind, hloop, exec_bind]
  generalize exec (before.foldlM (fun s x => lift (attr_gate o x.1 x.2)
    >>= fun _ => parse_attr o directory x.1 s) {}) w = folded
  obtain ⟨e' | s, w₁⟩ := folded
  · exact ⟨e', rfl⟩
  · refine ⟨e, ?_⟩
    simp only
    rw [List.foldlM_cons, hgate, attr_loop_end_of_input]
    rfl

/-- The attribute with another byte at `i`. -/
def Attr.set_byte (attr : Attr) (i : ℕ) (b : UInt8) : Attr where
  lvl_type := attr.lvl_type
  type := attr.type
  name := attr.name
  data := attr.data.set i b
  fits := by
    rw [List.length_set]
    exact attr.fits

/-- **No change of a byte goes unnoticed.** If one byte of an attribute's data is not what it was
when the checksum was written, the run stops there, if it comes so far: what is on the disk,
what has been printed, but for the messages of `--debug`, and what `file_write` has been called
with come from the attributes in front. -/
theorem parse_file_byte_changed {o : Options} (hk : o.checksum_ok = false)
    (directory : Option (List UInt8)) (body_filename body_pref : List UInt8) (key : UInt16)
    (before : List (Attr × UInt16)) {attr : Attr} {i : ℕ} {b : UInt8} (hi : i < attr.len)
    (hb : attr.data[i]? ≠ some b) (rest : List UInt8) (is_stdin : Bool) (w : World) :
    ∃ e, exec (parse_file o directory body_filename body_pref
        { rest := stream key before
            ++ (encode_raw (attr.set_byte i b) (byte_sum attr.data) ++ rest), is_stdin := is_stdin }) w
      = (.error e, (exec (attr_loop o (parse_attr o directory) { rest := attr_bytes before } {}) w).2) :=
  parse_file_damaged hk directory body_filename body_pref key before
    (byte_sum_set_ne hi hb).symm rest is_stdin w

/-- The title of the attachment has become `b` under the checksum of `a`. -/
theorem parse_file_byte_changed_witness :
    let before : List (Attr × UInt16) :=
      [(⟨.LVL_ATTACHMENT, szBYTE, attATTACHRENDDATA, [], no_data_fits⟩, 0)]
    ∃ e, exec (parse_file {} none [] [] { rest := stream 0 before
        ++ (encode_raw ((⟨.LVL_ATTACHMENT, szSTRING, attATTACHTITLE, ascii "a", title_fits⟩ : Attr).set_byte
          0 0x62) (byte_sum (ascii "a")) ++ []) }) {}
      = (.error e, (exec (attr_loop {} (parse_attr {} none) { rest := attr_bytes before } {}) {}).2) :=
  @parse_file_byte_changed {} rfl none [] [] 0 _
    ⟨.LVL_ATTACHMENT, szSTRING, attATTACHTITLE, ascii "a", title_fits⟩ 0 0x62 (by decide) (by decide)
    [] false {}

end Tnef
