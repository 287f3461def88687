/-
A stream that has been cut short.

A reader that takes exactly the bytes `bs` off a file ends the program where the file stops
inside them (`Takes`), so a cut inside an attribute is noticed, except where a regular file
ends so early in it that the rest is taken for cruft. Up to the cut the run is the one over
the whole stream: the attachments it has finished are written as they are (`parse_file_cut`).
-/
import Tnef.Interleaving

set_option autoImplicit false

namespace Tnef

open ExceptRules Stateful LittleEndian

/-! ## Readers -/

/-- The reader takes `bs` off the file and makes `a` of them; a file that ends inside `bs`
ends the program. -/
structure Takes {α : Type} (f : Input → M (α × Input)) (bs : List UInt8) (a : α) : Prop where
  whole : ∀ inp : Input, f (inp.before bs) = .ok (a, inp)
  short : ∀ inp : Input, inp.rest <+: bs → inp.rest.length < bs.length → f inp = .error (.exit 1)

section Takes

variable {α β : Type}

theorem takes_pure (a : α) : Takes (fun inp => .ok (a, inp)) [] a :=
  ⟨fun _ => rfl, fun _ _ hlt => absurd hlt (Nat.not_lt_zero _)⟩

theorem takes_lift {x : M α} {a : α} (hx : x = .ok a) {g : α → Input → M (β × Input)}
    {bs : List UInt8} {b : β} (hg : Takes (g a) bs b) : Takes (fun inp => x >>= fun a => g a inp) bs b := by
  subst hx
  exact hg

/-- **Sequencing**: the bytes of the first stand in front. -/
theorem Takes.bind {f : Input → M (α × Input)} {g : α × Input → M (β × Input)} {bs bs' : List UInt8}
    {a : α} {b : β} (hf : Takes f bs a) (hg : Takes (fun inp => g (a, inp)) bs' b) :
    Takes (fun inp => f inp >>= g) (bs ++ bs') b := by
  constructor
  · intro inp
    rw [← Input.before_before, hf.whole, ok_bind]
    exact hg.whole inp
  · intro inp hpre hlt
    by_cases hle : inp.rest.length < bs.length
    · have hpre' : inp.rest <+: bs :=
        List.prefix_of_prefix_length_le hpre (List.prefix_append bs bs') hle.le
      simp only [hf.short inp hpre' hle, error_bind]
    · -- the first reader has its bytes, and the file ends inside those of the second
      obtain ⟨rest, hrest⟩ :=
        List.prefix_of_prefix_length_le (List.prefix_append bs bs') hpre (not_lt.mp hle)
      obtain ⟨bytes, eof, is_stdin⟩ := inp
      simp only at hpre hlt hrest
      subst hrest
      have hbefore : (⟨bs ++ rest, eof, is_stdin⟩ : Input) = (⟨rest, eof, is_stdin⟩ : Input).before bs := rfl
      simp only [hbefore, hf.whole, ok_bind]
      apply hg.short
      · exact (List.prefix_append_right_inj bs).mp hpre
      · rw [List.length_append, List.length_append] at hlt
        exact Nat.lt_of_add_lt_add_left hlt

theorem getbuf_takes {n : ℕ} (bs : { bs : List UInt8 // bs.length = n }) :
    Takes (fun inp => getbuf inp n) bs.1 bs := by
  refine ⟨fun inp => getbuf_before inp bs, fun inp _ hlt => ?_⟩
  rw [bs.2] at hlt
  exact dif_neg (Nat.not_le_of_lt hlt)

theorem geti32_takes (x : UInt32) : Takes geti32 (le32 x) x := by
  refine ⟨fun inp => geti32_eq_ok.mpr rfl, fun inp _ hlt => ?_⟩
  rw [geti32, show getbuf inp 4 = _ from dif_neg (Nat.not_le_of_lt hlt), error_bind]

theorem geti16_takes (x : UInt16) : Takes geti16 (le16 x) x := by
  refine ⟨fun inp => geti16_eq_ok.mpr rfl, fun inp _ hlt => ?_⟩
  rw [geti16, show getbuf inp 2 = _ from dif_neg (Nat.not_le_of_lt hlt), error_bind]

theorem geti8_takes (x : UInt8) : Takes geti8 [x] x := by
  refine ⟨fun inp => geti8_eq_ok.mpr rfl, fun inp _ hlt => ?_⟩
  rw [geti8, show getbuf inp 1 = _ from dif_neg (Nat.not_le_of_lt hlt), error_bind]

end Takes

/-- **One attribute** is taken whole, or its file ends inside it. -/
theorem attr_read_takes {o : Options} {attr : Attr} {k : UInt16} (hgate : attr_gate o attr k = .ok ()) :
    Takes (attr_read o) (encode_raw attr k) attr := by
  obtain ⟨hlvl, hlevel⟩ := level_byte_ok attr
  have hlen : (UInt32.ofNat attr.len).toNat = attr.len := UInt32.toNat_ofNat_of_lt' attr.fits
  obtain ⟨r, hrecord, h⟩ := bind_eq_ok.mp hgate
  obtain ⟨r', hbuf, hchecks⟩ := bind_eq_ok.mp h
  have hbuf' : checked_xcalloc o (UInt32.ofNat attr.len).toNat 1 1 = .ok r' := by
    rw [hlen]
    exact hbuf
  have hbytes : encode_raw attr k = [level_byte attr.lvl_type] ++ (le32 (type_and_name attr)
      ++ (le32 (UInt32.ofNat attr.len) ++ (attr.data ++ (le16 k ++ [])))) := by
    simp only [encode_raw, List.append_assoc, List.append_nil]
  rw [hbytes]
  unfold attr_read
  refine takes_lift hrecord ((geti8_takes _).bind ?_)
  refine takes_lift (assert_of hlvl) ((geti32_takes _).bind ((geti32_takes _).bind ?_))
  refine takes_lift hbuf' ((getbuf_takes ⟨attr.data, hlen.symm⟩).bind ((geti16_takes k).bind ?_))
  simp only [hlevel, type_of_word, name_of_word]
  exact takes_lift hchecks (takes_pure attr)

/-! ## Cutting a list of attributes -/

theorem le32_injective {x y : UInt32} (h : le32 x = le32 y) : x = y := by
  have hx := (geti32_takes x).whole { rest := [] }
  rw [h, (geti32_takes y).whole] at hx
  exact (congrArg Prod.fst (Except.ok.inj hx)).symm

/-- No attribute is the beginning of another. -/
theorem encode_raw_prefix {a b : Attr} {k j : UInt16} {r r' : List UInt8}
    (h : encode_raw a k ++ r = encode_raw b j ++ r') :
    (encode_raw a k).length = (encode_raw b j).length := by
  have hlen : ∀ attr : Attr, (UInt32.ofNat attr.len).toNat = attr.len :=
    fun attr => UInt32.toNat_ofNat_of_lt' attr.fits
  -- the length stands behind five bytes
  simp only [encode_raw, List.append_assoc] at h
  obtain ⟨-, h⟩ := List.append_inj h (by rw [List.length_singleton, List.length_singleton])
  obtain ⟨-, h⟩ := List.append_inj h (by rw [le32_length, le32_length])
  obtain ⟨hword, -⟩ := List.append_inj h (by rw [le32_length, le32_length])
  rw [encode_raw_length, encode_raw_length, ← hlen a, ← hlen b, le32_injective hword]

theorem no_attr_of_cut {attr : Attr} {k : UInt16} {part : List UInt8}
    (hpre : part <+: encode_raw attr k) (hlt : part.length < (encode_raw attr k).length) :
    NoAttr part := by
  rintro b j rest rfl
  obtain ⟨more, hmore⟩ := hpre
  have hsame : encode_raw b j ++ (rest ++ more) = encode_raw attr k ++ [] := by
    rw [← hmore, List.append_nil, List.append_assoc]
  have hlen := encode_raw_prefix hsame
  rw [List.length_append] at hlt
  omega

/-- **A cut** goes through the tail, or through one attribute, or between two. -/
theorem take_attr_bytes (as : List (Attr × UInt16)) : ∀ {tail : List UInt8} (m : ℕ),
    ∃ as₁ rest part, as = as₁ ++ rest ∧ (attr_bytes as ++ tail).take m = attr_bytes as₁ ++ part
      ∧ ((rest = [] ∧ part <+: tail) ∨ ∃ x rest', rest = x :: rest' ∧ part <+: encode_raw x.1 x.2
        ∧ part.length < (encode_raw x.1 x.2).length) := by
  induction as with
  | nil =>
    intro tail m
    exact ⟨[], [], tail.take m, rfl, rfl, .inl ⟨rfl, List.take_prefix m tail⟩⟩
  | cons x as ih =>
    intro tail m
    have hbytes : attr_bytes (x :: as) ++ tail = encode_raw x.1 x.2 ++ (attr_bytes as ++ tail) := by
      simp only [attr_bytes, List.flatMap_cons, List.append_assoc]
    rw [hbytes]
    by_cases hm : (encode_raw x.1 x.2).length ≤ m
    · obtain ⟨as₁, rest, part, rfl, htake, hcases⟩ := @ih tail (m - (encode_raw x.1 x.2).length)
      refine ⟨x :: as₁, rest, part, rfl, ?_, hcases⟩
      rw [List.take_append, List.take_of_length_le hm, htake]
      simp only [attr_bytes, List.flatMap_cons, List.append_assoc]
    · refine ⟨[], x :: as, (encode_raw x.1 x.2).take m, rfl, ?_, .inr ⟨x, as, rfl, ?_, ?_⟩⟩
      · rw [List.take_append, Nat.sub_eq_zero_of_le (by omega), List.take_zero, List.append_nil]
        rfl
      · exact List.take_prefix m _
      · rw [List.length_take]
        omega

/-! ## Cutting a stream -/

section Cut

variable {o : Options} (directory : Option (List UInt8))

theorem parse_attrs_performs (as : List (Attr × UInt16)) : ∀ {s : ParseState}, Collected o s →
    WritesReady o directory (Collected o) (as.foldlM (fun s x => lift (attr_gate o x.1 x.2)
      >>= fun _ => parse_attr o directory x.1 s) s) := by
  induction as with
  | nil => exact fun hs => performs_pure hs
  | cons x as ih =>
    intro s hs
    rw [List.foldlM_cons]
    refine Performs.bind (Q := Collected o) ?_ fun s' hs' => ih hs'
    exact (performs_lift (Q := fun _ => True) fun _ _ => trivial).bind fun _ _ =>
      parse_attr_performs directory x.1 hs

variable {directory}

/-- What has been called stays called. -/
theorem performs_calls {α : Type} {Q : α → Prop} {x : Run α} (h : WritesReady o directory Q x)
    (w : World) : ∃ new, (exec x w).2.calls = w.calls ++ new := by
  obtain ⟨⟨new, -, hrun⟩, -⟩ := h w
  exact ⟨new, by rw [hrun]; exact after_calls_calls o directory new w⟩

/-- A group begins with the attribute that begins a file. -/
theorem exists_begin_of_groups (as : List Attr) (h : groups as ≠ []) :
    ∃ attr ∈ as, attr.name = attATTACHRENDDATA := by
  induction as with
  | nil => exact absurd rfl h
  | cons attr as ih =>
    by_cases hname : attr.name = attATTACHRENDDATA
    · exact ⟨attr, List.mem_cons_self .., hname⟩
    · rw [groups, split_groups, if_neg hname] at h
      obtain ⟨other, hmem, hother⟩ := ih h
      exact ⟨other, List.mem_cons_of_mem _ hmem, hother⟩

/-- Behind a list of attributes the calls are the records of all its groups but the last. -/
theorem parse_attrs_calls {as : List (Attr × UInt16)} {st : ParseState} {w w₁ : World}
    (hfold : exec (as.foldlM (fun s x => lift (attr_gate o x.1 x.2)
      >>= fun _ => parse_attr o directory x.1 s) {}) w = (.ok st, w₁)) :
    ∃ made, w₁.calls = w.calls ++ made ∧ made.length = (groups (as.map Prod.fst)).length - 1 := by
  have hinit : Collected o {} := ⟨by simp, by simp, by simp, by simp⟩
  obtain ⟨made, hmade⟩ := performs_calls (parse_attrs_performs directory as hinit) w
  rw [hfold] at hmade
  refine ⟨made, hmade, ?_⟩
  have hbare := foldlM_gate_eq_ok as hfold
  obtain ⟨head, files, hhead, hfiles, hcalls⟩ := parse_run (as.map Prod.fst) hbare
  cases hhead
  rw [Option.toList_none, List.append_nil, hmade, List.append_assoc, List.append_cancel_left_eq] at hcalls
  have hlen := congrArg List.length hcalls
  rw [List.length_append, ← hfiles.length_eq] at hlen
  by_cases hnone : groups (as.map Prod.fst) = []
  · have hzero : (split_groups (as.map Prod.fst)).2.length = 0 := congrArg List.length hnone
    rw [hnone]
    show made.length = 0
    omega
  · have hpending := parse_attrs_pending (as.map Prod.fst) hbare
      (.inr (exists_begin_of_groups _ hnone))
    obtain ⟨file, hfile⟩ := Option.isSome_iff_exists.mp hpending
    rw [hfile, Option.toList_some, List.length_singleton] at hlen
    show made.length = (split_groups (as.map Prod.fst)).2.length - 1
    omega

theorem take_stream (key : UInt16) (as : List (Attr × UInt16)) (tail : List UInt8) {m : ℕ} (hm : 6 ≤ m) :
    (stream key as ++ tail).take m
      = le32 TNEF_SIGNATURE ++ (le16 key ++ (attr_bytes as ++ tail).take (m - 6)) := by
  rw [stream_append, List.take_append, List.take_of_length_le (by rw [le32_length]; omega),
    List.take_append, List.take_of_length_le (by rw [le32_length, le16_length]; omega), le32_length,
    le16_length]
  rfl

theorem Ends.mono {is_stdin : Bool} {part tail : List UInt8} (h : Ends is_stdin tail)
    (hpre : part <+: tail) : Ends is_stdin part := by
  rcases h with rfl | ⟨hfile, hlt⟩
  · exact .inl (List.prefix_nil.mp hpre)
  · exact .inr ⟨hfile, hpre.length_le.trans_lt hlt⟩

/-- **A stream cut short.** If a run on a stream returns, the run on its first `m` bytes goes
the same way up to the cut: the attributes that are whole are read, the attachments behind
which another begins are written as before, and then the run ends as if the stream had ended
there, or, inside an attribute, with exit status one and nothing else done. -/
theorem parse_file_cut (body_filename body_pref : List UInt8) {bs : List UInt8} {is_stdin : Bool}
    {w w' : World} (h : exec (parse_file o directory body_filename body_pref
      { rest := bs, is_stdin := is_stdin }) w = (.ok 0, w')) {m : ℕ} (hm : 6 ≤ m) :
    ∃ key as part body file w₁ files, bs.take m = stream key as ++ part ∧ NoAttr part
      ∧ Parses o directory as w body file w₁
      ∧ w'.calls = w.calls ++ files
      ∧ w₁.calls = w.calls ++ files.take ((groups (as.map Prod.fst)).length - 1)
      ∧ (Ends is_stdin part → exec (parse_file o directory body_filename body_pref
          { rest := bs.take m, is_stdin := is_stdin }) w
        = exec (finish_file o directory body_filename body_pref ⟨file, body⟩) w₁)
      ∧ (¬ Ends is_stdin part → exec (parse_file o directory body_filename body_pref
          { rest := bs.take m, is_stdin := is_stdin }) w = (.error (.exit 1), w₁)) := by
  obtain ⟨key, as, tail, body', file', w₂, rfl, hends, hparses, hfinish⟩ :=
    (parse_file_zero_iff ..).mp h
  obtain ⟨as₁, rest, part, rfl, htake, hpart⟩ := @take_attr_bytes as tail (m - 6)
  have hfold := (parse_attrs_iff (as₁ ++ rest) ⟨file', body'⟩).mpr hparses
  rw [List.foldlM_append] at hfold
  obtain ⟨st, w₁, hfirst, hrest⟩ := exec_bind_eq_ok.mp hfold
  have hbytes : (stream key (as₁ ++ rest) ++ tail).take m = stream key as₁ ++ part := by
    rw [take_stream key _ tail hm, htake, stream_append]
  have hnone : NoAttr part := by
    rcases hpart with ⟨-, hpre⟩ | ⟨x, rest', -, hpre, hlt⟩
    · exact (hends.mono hpre).no_attr
    · exact no_attr_of_cut hpre hlt
  -- the calls of the run come in three parts
  have hinit : Collected o {} := ⟨by simp, by simp, by simp, by simp⟩
  have hst : Collected o st :=
    (parse_attrs_performs directory as₁ hinit w).2 st (congrArg Prod.fst hfirst)
  have hst' : Collected o ⟨file', body'⟩ :=
    (parse_attrs_performs directory rest hst w₁).2 _ (congrArg Prod.fst hrest)
  obtain ⟨made, hmade, hlen⟩ := parse_attrs_calls hfirst
  obtain ⟨more, hmore⟩ := performs_calls (parse_attrs_performs directory rest hst) w₁
  rw [hrest] at hmore
  have hend : WritesReady o directory (fun _ => True)
      (finish_file o directory body_filename body_pref ⟨file', body'⟩) :=
    finish_file_performs directory hst'
  obtain ⟨last, hlast⟩ := performs_calls hend w₂
  rw [hfinish] at hlast
  refine ⟨key, as₁, part, st.body, st.file, w₁, made ++ (more ++ last), hbytes, hnone,
    (parse_attrs_iff as₁ st).mp hfirst, ?_, ?_, ?_, ?_⟩
  · rw [hlast, hmore, hmade, List.append_assoc, List.append_assoc]
  · rw [hmade, ← hlen, List.take_left]
  · intro hends₁
    rw [hbytes, stream_append, exec_parse_file, hfirst]
    rcases attr_loop_ends body_filename body_pref hnone is_stdin st w₁ with ⟨-, hrun⟩ | ⟨hno, -⟩
    · exact hrun
    · exact absurd hends₁ hno
  · intro hno
    rw [hbytes, stream_append, exec_parse_file, hfirst]
    rcases attr_loop_ends body_filename body_pref hnone is_stdin st w₁ with
      ⟨hends₁, -⟩ | ⟨-, e, he, hrun⟩
    · exact absurd hends₁ hno
    · rcases hpart with ⟨-, hpre⟩ | ⟨x, rest', rfl, hpre, hlt⟩
      · exact absurd (hends.mono hpre) hno
      · -- the attribute that is cut has passed its checks in the whole stream
        have hgate := hparses.gates x (List.mem_append_right _ (List.mem_cons_self ..))
        have hshort := (attr_read_takes hgate).short { rest := part, is_stdin := is_stdin } hpre hlt
        rw [hshort] at he
        cases he
        exact hrun

end Cut

/-- Two groups, cut after forty bytes. -/
theorem parse_file_cut_witness :
    let bs := stream 0 two_groups
    let w' := (exec (parse_file {} none [] [] { rest := bs }) {}).2
    ∃ key as part body file w₁ files, bs.take 40 = stream key as ++ part ∧ NoAttr part
      ∧ Parses {} none as {} body file w₁
      ∧ w'.calls = [] ++ files
      ∧ w₁.calls = [] ++ files.take ((groups (as.map Prod.fst)).length - 1)
      ∧ (Ends false part → exec (parse_file {} none [] [] { rest := bs.take 40 }) {}
        = exec (finish_file {} none [] [] ⟨file, body⟩) w₁)
      ∧ (¬ Ends false part → exec (parse_file {} none [] [] { rest := bs.take 40 }) {}
        = (.error (.exit 1), w₁)) :=
  parse_file_cut [] [] (Prod.ext (by decide +kernel) rfl) (by decide)

end Tnef
