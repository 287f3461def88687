/-
How a stream ends: standard input, regular files, and what is left behind the last attribute.

A regular file knows how much is left and takes fewer than `MINIMUM_ATTR_LENGTH` bytes for
cruft; standard input only knows its end-of-file indicator. `parse_file_piped` says where
that makes the two runs differ. The minimum is 8 while an attribute has at least eleven
bytes, so a tail of eight to ten is no cruft for either: `parse_file_garbage`.
-/
import Tnef.Calls

set_option autoImplicit false

namespace Tnef

open ExceptRules Slice LittleEndian Stateful

/-! ## Without questions standard input is only the stream -/

section Unasked

variable {o : Options} (hconfirm : o.confirm = false) (directory : Option (List UInt8)) (text : List UInt8)

/-- The world with another text on standard input. -/
def World.fed (text : List UInt8) (w : World) : World := { w with stdin := text }

theorem print_fed (line : List UInt8) : Commutes (World.fed text) (print line) :=
  commutes_modify fun _ => rfl

theorem put_file_fed (path bytes : List UInt8) : Commutes (World.fed text) (put_file path bytes) :=
  commutes_modify fun _ => rfl

theorem write_file_fed (file : File) (path : List UInt8) :
    Commutes (World.fed text) (write_file file path) := by
  unfold write_file
  apply commutes_get_bind
  · intro w
    rfl
  · intro w
    by_cases hwritable : w.unwritable path = true
    · rw [if_pos hwritable]
      exact commutes_throw _
    · rw [if_neg hwritable]
      exact (put_file_fed text path []).bind fun _ => (commutes_lift _).bind fun bytes =>
        put_file_fed text path bytes

include hconfirm in
theorem extract_file_fed (file : File) (path : List UInt8) :
    Commutes (World.fed text) (extract_file o file path) := by
  have hyes : ∀ prompt, confirm_action o prompt = pure true := by
    intro prompt
    rw [confirm_action, hconfirm]
    rfl
  unfold extract_file
  apply (commutes_lift _).bind
  intro name
  rw [hyes, pure_bind, if_pos rfl]
  apply commutes_get_bind
  · intro w
    rfl
  · intro w
    apply (commutes_lift _).bind
    intro r
    match r with
    | none => exact commutes_pure _
    | some path => exact (write_file_fed text file path).bind fun _ => commutes_pure _

theorem print_or_fed (s : Option Buffer) (default : List UInt8) :
    Commutes (World.fed text) (print_or s default) := by
  unfold print_or
  match s with
  | none => exact print_fed text default
  | some b => exact (commutes_lift _).bind fun line => print_fed text line

theorem list_file_fed (file : File) (path : List UInt8) :
    Commutes (World.fed text) (list_file o file path) := by
  have hdate : Commutes (World.fed text) (list_length_and_date o file) := by
    unfold list_length_and_date
    split_ifs
    · exact (commutes_lift _).bind fun date_str => print_fed text _
    · exact commutes_pure _
  have hmime : Commutes (World.fed text) (list_mime o file) := by
    unfold list_mime
    split_ifs
    · exact (print_fed text _).bind fun _ => (print_or_fed text _ _).bind fun _ =>
        (print_fed text _).bind fun _ => print_or_fed text _ _
    · exact commutes_pure _
  exact hdate.bind fun _ => (print_or_fed text _ _).bind fun _ => (print_fed text _).bind fun _ =>
    hmime.bind fun _ => print_fed text _

theorem list_written_fed (file : File) (path : Option (List UInt8)) :
    Commutes (World.fed text) (list_written o file path) := by
  unfold list_written
  match path with
  | none => exact commutes_pure _
  | some path =>
    simp only
    split_ifs
    · exact list_file_fed text file path
    · exact commutes_pure _

include hconfirm in
theorem file_write_fed (file : File) : Commutes (World.fed text) (file_write o directory file) := by
  have hlog : Commutes (World.fed text)
      (modify fun w : World => { w with calls := w.calls ++ [file] } : Run Unit) :=
    commutes_modify fun _ => rfl
  unfold file_write
  apply hlog.bind
  intro _
  apply (commutes_lift _).bind
  intro r
  simp only
  by_cases hlist : o.list = true
  · rw [if_neg (not_not.mpr hlist)]
    exact (commutes_pure _).bind fun path => list_written_fed text r.1 path
  · rw [if_pos hlist]
    exact (extract_file_fed hconfirm text r.1 r.2).bind fun path => list_written_fed text r.1 path

include hconfirm in
theorem parse_attr_fed (attr : Attr) (s : ParseState) :
    Commutes (World.fed text) (parse_attr o directory attr s) := by
  have hbegin : Commutes (World.fed text) (begin_file o directory s.file) := by
    match s.file with
    | none => exact (commutes_lift _).bind fun _ => commutes_pure _
    | some file => exact (file_write_fed hconfirm directory text file).bind fun _ => commutes_pure _
  unfold parse_attr
  by_cases hname : attr.name = attATTACHRENDDATA
  · rw [if_pos hname]
    exact hbegin.bind fun _ => commutes_lift _
  · rw [if_neg hname]
    exact (commutes_pure _).bind fun _ => commutes_lift _

include hconfirm in
theorem write_body_files_fed (files : List File) :
    Commutes (World.fed text) (write_body_files o directory files) := by
  induction files using shared_files_induction with
  | nil =>
    rw [write_body_files]
    exact commutes_pure _
  | cons file files ih =>
    rw [write_body_files]
    apply (file_write_fed hconfirm directory text file).bind
    intro _
    exact ih

include hconfirm in
theorem save_bodies_loop_fed (filename pref : List UInt8) (all_flag : Bool) (body : MessageBody)
    (i : ℕ) :
    Commutes (World.fed text) (save_bodies_loop o directory filename pref all_flag body i) := by
  induction i using save_bodies_loop.induct with
  | case1 i hi ih =>
    rw [save_bodies_loop, if_pos hi]
    apply (commutes_lift _).bind
    intro c
    apply (commutes_lift _).bind
    intro r
    rcases r with _ | files
    · exact ih
    · apply (write_body_files_fed hconfirm directory text _).bind
      intro _
      split_ifs
      · exact ih
      · exact commutes_pure _
  | case2 i hi =>
    rw [save_bodies_loop, if_neg hi]
    exact commutes_pure _

include hconfirm in
theorem finish_file_fed (body_filename body_pref : List UInt8) (s : ParseState) :
    Commutes (World.fed text) (finish_file o directory body_filename body_pref s) := by
  have hpending : Commutes (World.fed text) (write_pending o directory s.file) := by
    match s.file with
    | none => exact commutes_pure _
    | some file => exact file_write_fed hconfirm directory text file
  have hbodies : Commutes (World.fed text)
      (save_bodies o directory body_filename body_pref s.body) := by
    unfold save_bodies
    split_ifs
    · exact save_bodies_loop_fed hconfirm directory text _ _ _ _ _
    · exact save_bodies_loop_fed hconfirm directory text _ _ _ _ _
    · exact commutes_pure _
  exact hpending.bind fun _ => hbodies.bind fun _ => commutes_pure _

/-- The loop sees no more of the state than its body does. -/
theorem attr_loop_commutes {ω σ : Type} {g : ω → ω} {body : Attr → σ → Act Stop ω σ}
    (hbody : ∀ attr s, Commutes g (body attr s)) (inp : Input) :
    ∀ s, Commutes g (attr_loop o body inp s) := by
  induction inp using attr_loop_induction o body with
  | throws inp e hloop =>
    intro s
    rw [hloop]
    exact commutes_throw e
  | leaves inp inp' _ hloop =>
    intro s
    rw [hloop]
    exact commutes_pure _
  | turn inp attr inp' _ hloop ih =>
    intro s
    rw [hloop]
    exact (hbody attr s).bind ih

include hconfirm in
/-- **Without questions a run does not look at what else is on standard input.** -/
theorem parse_file_fed (body_filename body_pref : List UInt8) (inp : Input) :
    Commutes (World.fed text) (parse_file o directory body_filename body_pref inp) := by
  unfold parse_file
  apply (commutes_lift _).bind
  intro r
  simp only
  split_ifs
  · apply (attr_loop_commutes (fun attr s => parse_attr_fed hconfirm directory text attr s) r.2 {}).bind
    intro r
    exact finish_file_fed hconfirm directory text body_filename body_pref r.2
  · exact (print_fed text _).bind fun _ => commutes_pure _

end Unasked

/-! ## The readers do not know where the bytes come from -/

/-- The same bytes on standard input. -/
def Input.piped (inp : Input) : Input := { inp with is_stdin := true }

/-- A reader that does the same on both, and leaves the same bytes. -/
def Sourceless {α : Type} (f : Input → M (α × Input)) : Prop :=
  ∀ inp, f inp.piped = (f inp).map fun r => (r.1, r.2.piped)

section Sourceless

variable {α β : Type}

theorem sourceless_pure (a : α) : Sourceless fun inp => .ok (a, inp) := fun _ => rfl

theorem sourceless_lift (x : M α) {g : α → Input → M (β × Input)} (hg : ∀ a, Sourceless (g a)) :
    Sourceless fun inp => x >>= fun a => g a inp := by
  intro inp
  cases x with
  | error e => rfl
  | ok a => exact hg a inp

theorem Sourceless.bind {f : Input → M (α × Input)} {g : α × Input → M (β × Input)}
    (hf : Sourceless f) (hg : ∀ a, Sourceless fun inp => g (a, inp)) :
    Sourceless fun inp => f inp >>= g := by
  intro inp
  simp only
  rw [hf inp]
  match f inp with
  | .error e => rfl
  | .ok (a, inp') => exact hg a inp'

theorem getbuf_sourceless (n : ℕ) : Sourceless fun inp => getbuf inp n := by
  intro inp
  by_cases h : n ≤ inp.rest.length
  · simp only [getbuf, dif_pos h, dif_pos (show n ≤ inp.piped.rest.length from h)]
    rfl
  · simp only [getbuf, dif_neg h, dif_neg (show ¬ n ≤ inp.piped.rest.length from h)]
    rfl

theorem geti32_sourceless : Sourceless geti32 :=
  (getbuf_sourceless 4).bind fun bs => sourceless_lift (GETINT32 bs.1 0) sourceless_pure

theorem geti16_sourceless : Sourceless geti16 :=
  (getbuf_sourceless 2).bind fun bs => sourceless_lift (GETINT16 bs.1 0) sourceless_pure

theorem geti8_sourceless : Sourceless geti8 :=
  (getbuf_sourceless 1).bind fun bs => sourceless_lift (rd bs.1 0) sourceless_pure

theorem read_signature_sourceless : Sourceless read_signature := by
  unfold read_signature
  apply geti32_sourceless.bind
  intro d
  simp only
  split_ifs
  · exact sourceless_pure false
  · exact geti16_sourceless.bind fun key => sourceless_pure true

/-- **`attr_read` does not know where the bytes come from**: it stops for the same reason,
or leaves the same bytes behind the same attribute. -/
theorem attr_read_sourceless (o : Options) : Sourceless (attr_read o) := by
  unfold attr_read
  apply sourceless_lift
  intro _
  apply geti8_sourceless.bind
  intro lvl
  apply sourceless_lift
  intro _
  apply geti32_sourceless.bind
  intro type_and_name
  apply geti32_sourceless.bind
  intro len
  apply sourceless_lift
  intro _
  apply (getbuf_sourceless len.toNat).bind
  intro data
  apply geti16_sourceless.bind
  intro checksum
  exact sourceless_lift (attr_checks o _ checksum) fun _ => sourceless_pure _

end Sourceless

/-! ## What is left behind the last attribute -/

/-- The bytes of a list of attributes with their checksum words. -/
def attr_bytes (as : List (Attr × UInt16)) : List UInt8 := as.flatMap fun x => encode_raw x.1 x.2

/-- No attribute stands in front of `tail`. -/
def NoAttr (tail : List UInt8) : Prop := ∀ attr k rest, tail ≠ encode_raw attr k ++ rest

/-- The shortest attribute has eleven bytes. -/
theorem no_attr_of_short {tail : List UInt8} (h : tail.length < 11) : NoAttr tail := by
  rintro attr k rest rfl
  rw [List.length_append, encode_raw_length] at h
  omega

/-- Every byte string is attributes followed by bytes that are none. -/
theorem exists_attr_bytes (bs : List UInt8) :
    ∃ as tail, bs = attr_bytes as ++ tail ∧ NoAttr tail := by
  induction hn : bs.length using Nat.strong_induction_on generalizing bs with
  | _ n ih =>
    by_cases hattr : ∃ attr k rest, bs = encode_raw attr k ++ rest
    · obtain ⟨attr, k, rest, rfl⟩ := hattr
      have hlt : rest.length < n := by
        rw [← hn, List.length_append, encode_raw_length]
        omega
      obtain ⟨as, tail, rfl, htail⟩ := ih _ hlt rest rfl
      exact ⟨(attr, k) :: as, tail, by simp [attr_bytes], htail⟩
    · exact ⟨[], bs, rfl, fun attr k rest h => hattr ⟨attr, k, rest, h⟩⟩

theorem attr_read_stops (o : Options) {inp : Input} (h : NoAttr inp.rest) :
    ∃ e, attr_read o inp = .error e := by
  cases hread : attr_read o inp with
  | error e => exact ⟨e, rfl⟩
  | ok r =>
    obtain ⟨k, hinp⟩ := attr_read_inv hread
    exact absurd (congrArg Input.rest hinp) (h r.1 k r.2.rest)

section Tail

variable {ω σ : Type} (o : Options) (body : Attr → σ → Act Stop ω σ) {tail : List UInt8}

/-- A regular file knows cruft when it sees it. -/
theorem attr_loop_cruft (hpos : 0 < tail.length) (hlt : tail.length < MINIMUM_ATTR_LENGTH) (s : σ) :
    attr_loop o body { rest := tail } s = pure ({ rest := tail }, s) := by
  apply attr_loop_stop
  match tail, hpos with
  | b :: tail, hpos =>
    have hcruft : (b :: tail).length > 0 ∧ (b :: tail).length < MINIMUM_ATTR_LENGTH := ⟨hpos, hlt⟩
    unfold data_left
    simp only [Bool.false_eq_true, not_false_eq_true, if_true, if_pos hcruft, ite_self]

/-- Bytes that are no attribute stop the loop once `data_left` has let them through. -/
theorem attr_loop_no_attr (hne : tail ≠ []) (htail : NoAttr tail) (is_stdin : Bool)
    (hleft : is_stdin = true ∨ MINIMUM_ATTR_LENGTH ≤ tail.length) (s : σ) :
    ∃ e, attr_read o { rest := tail, is_stdin := is_stdin } = .error e
      ∧ attr_loop o body { rest := tail, is_stdin := is_stdin } s = throw e := by
  have hnone : NoAttr ({ rest := tail, is_stdin := is_stdin } : Input).rest := htail
  obtain ⟨e, he⟩ := attr_read_stops o hnone
  refine ⟨e, he, ?_⟩
  have hdata : data_left o { rest := tail, is_stdin := is_stdin } = .ok true := by
    unfold data_left
    rcases hleft with rfl | hle
    · rfl
    · have hcruft : ¬ (tail.length > 0 ∧ tail.length < MINIMUM_ATTR_LENGTH) := by omega
      simp only [Bool.false_eq_true, if_false, if_neg hcruft, ite_self]
  have hread : read_object o { rest := tail, is_stdin := is_stdin } = .error e := by
    match tail, hne with
    | b :: tail, _ =>
      rw [read_object]
      simp only
      rw [he, error_bind]
  exact attr_loop_error hdata hread

end Tail

/-- The loop over attributes with a tail behind them. -/
theorem attr_loop_bytes {ω σ : Type} (o : Options) (body : Attr → σ → Act Stop ω σ)
    (as : List (Attr × UInt16)) (tail : List UInt8) (is_stdin : Bool) (s : σ) :
    attr_loop o body { rest := attr_bytes as ++ tail, is_stdin := is_stdin } s
      = as.foldlM (fun s x => lift (attr_gate o x.1 x.2) >>= fun _ => body x.1 s) s
        >>= fun s => attr_loop o body { rest := tail, is_stdin := is_stdin } s :=
  @attr_loop_before ω σ o body { rest := tail, is_stdin := is_stdin } rfl as s

/-! ## The two sources -/

section Sources

variable (o : Options) (directory : Option (List UInt8)) (body_filename body_pref : List UInt8)

/-- The run behind the reading loop, whatever the loop has left of the file. -/
def after_loop (r : Input × ParseState) : Run ℕ :=
  finish_file o directory body_filename body_pref r.2

theorem parse_file_stream (key : UInt16) (bs : List UInt8) (is_stdin : Bool) :
    parse_file o directory body_filename body_pref
      { rest := le32 TNEF_SIGNATURE ++ (le16 key ++ bs), is_stdin := is_stdin }
      = attr_loop o (parse_attr o directory) { rest := bs, is_stdin := is_stdin } {}
        >>= after_loop o directory body_filename body_pref := by
  rw [parse_file, read_signature_bytes, lift_ok, pure_bind]
  rfl

/-- The attributes in front are folded, and the loop goes on behind them. -/
theorem exec_parse_file (key : UInt16) (as : List (Attr × UInt16)) (tail : List UInt8)
    (is_stdin : Bool) (w : World) :
    exec (parse_file o directory body_filename body_pref
      { rest := le32 TNEF_SIGNATURE ++ (le16 key ++ (attr_bytes as ++ tail)), is_stdin := is_stdin }) w
      = match exec (as.foldlM (fun s x => lift (attr_gate o x.1 x.2)
          >>= fun _ => parse_attr o directory x.1 s) {}) w with
        | (.ok st, w₁) => exec (attr_loop o (parse_attr o directory)
            { rest := tail, is_stdin := is_stdin } st
            >>= after_loop o directory body_filename body_pref) w₁
        | (.error e, w₁) => (.error e, w₁) := by
  rw [parse_file_stream, attr_loop_bytes, bind_assoc, exec_bind]
  generalize exec _ w = folded
  obtain ⟨_ | _, _⟩ := folded <;> rfl

/-- A stream that is recognised begins with the signature and some key. -/
theorem read_signature_inv {inp inp' : Input} (h : read_signature inp = .ok (true, inp')) :
    ∃ key, inp = inp'.before (le32 TNEF_SIGNATURE ++ le16 key) := by
  rw [read_signature, bind_eq_ok] at h
  obtain ⟨⟨d, inp₁⟩, hd, h⟩ := h
  simp only at h
  split_ifs at h with hsig
  · cases h
  · simp only [bind_eq_ok, pure_eq_ok, Except.ok.injEq] at h
    obtain ⟨⟨key, inp₂⟩, hk, heq⟩ := h
    cases heq
    rw [not_not] at hsig
    refine ⟨key, ?_⟩
    rw [geti32_eq_ok.mp hd, geti16_eq_ok.mp hk, Input.before_before, hsig]

/-- The stream is signature, key, attributes, and fewer bytes than `data_left` takes for an
attribute; the loop over the attributes alone returns, with `st` in the world `w₁`. -/
def LeavesCruft (bs : List UInt8) (w : World) (st : ParseState) (w₁ : World) : Prop :=
  ∃ key as g, bs = stream key as ++ g ∧ 0 < g.length ∧ g.length < MINIMUM_ATTR_LENGTH
    ∧ ∃ inp, exec (attr_loop o (parse_attr o directory) { rest := attr_bytes as } {}) w
      = (.ok (inp, st), w₁)

theorem stream_append (key : UInt16) (as : List (Attr × UInt16)) (g : List UInt8) :
    stream key as ++ g = le32 TNEF_SIGNATURE ++ (le16 key ++ (attr_bytes as ++ g)) := by
  simp only [stream, attr_bytes, List.append_assoc]

/-- What the loop over the attributes alone returns is what it has folded. -/
theorem fold_of_loop {as : List (Attr × UInt16)} {w w₁ : World} {inp : Input} {st : ParseState}
    (h : exec (attr_loop o (parse_attr o directory) { rest := attr_bytes as } {}) w
      = (.ok (inp, st), w₁)) :
    exec (as.foldlM (fun s x => lift (attr_gate o x.1 x.2) >>= fun _ => parse_attr o directory x.1 s)
      {}) w = (.ok st, w₁) := by
  have hloop := attr_loop_bytes o (parse_attr o directory) as [] false {}
  rw [List.append_nil] at hloop
  rw [hloop] at h
  obtain ⟨st', w', hfold, hend⟩ := exec_bind_eq_ok.mp h
  rw [attr_loop_end_of_input] at hend
  cases hend
  exact hfold

theorem loop_of_fold {as : List (Attr × UInt16)} {w w₁ : World} {st : ParseState}
    (h : exec (as.foldlM (fun s x => lift (attr_gate o x.1 x.2)
      >>= fun _ => parse_attr o directory x.1 s) {}) w = (.ok st, w₁)) :
    exec (attr_loop o (parse_attr o directory) { rest := attr_bytes as } {}) w
      = (.ok ({ rest := [], eof := true }, st), w₁) := by
  have hloop := attr_loop_bytes o (parse_attr o directory) as [] false {}
  rw [List.append_nil] at hloop
  rw [hloop, exec_bind, h]
  simp only
  rw [attr_loop_end_of_input]
  rfl

/-- With bytes behind that are no attribute the same holds: the loop that returns has ended
in front of them. -/
theorem fold_of_loop_tail {as : List (Attr × UInt16)} {tail : List UInt8} (htail : NoAttr tail)
    {is_stdin : Bool} {w w₁ : World} {inp : Input} {st : ParseState}
    (h : exec (attr_loop o (parse_attr o directory)
      { rest := attr_bytes as ++ tail, is_stdin := is_stdin } {}) w = (.ok (inp, st), w₁)) :
    exec (as.foldlM (fun s x => lift (attr_gate o x.1 x.2) >>= fun _ => parse_attr o directory x.1 s)
      {}) w = (.ok st, w₁) := by
  rw [attr_loop_bytes] at h
  obtain ⟨st', w', hfold, hend⟩ := exec_bind_eq_ok.mp h
  by_cases hne : tail = []
  · subst hne
    rw [attr_loop_end_of_input] at hend
    cases hend
    exact hfold
  · by_cases hleft : is_stdin = true ∨ MINIMUM_ATTR_LENGTH ≤ tail.length
    · obtain ⟨e, -, hstop⟩ := attr_loop_no_attr o (parse_attr o directory) hne htail is_stdin hleft st'
      rw [hstop] at hend
      cases hend
    · rw [not_or, Bool.not_eq_true, not_le] at hleft
      obtain ⟨rfl, hlt⟩ := hleft
      rw [attr_loop_cruft o _ (List.length_pos_iff.mpr hne) hlt] at hend
      cases hend
      exact hfold

variable {o directory}

/-- With cruft behind the attributes the regular file is finished, and standard input stops
at the cruft. -/
theorem parse_file_cruft {bs : List UInt8} {w w₁ : World} {st : ParseState}
    (h : LeavesCruft o directory bs w st w₁) :
    exec (parse_file o directory body_filename body_pref { rest := bs }) w
        = exec (finish_file o directory body_filename body_pref st) w₁
      ∧ ∃ e, exec (parse_file o directory body_filename body_pref { rest := bs, is_stdin := true }) w
        = (.error e, w₁) := by
  obtain ⟨key, as, g, rfl, hpos, hlt, inp, hloop⟩ := h
  have hfold := fold_of_loop o directory hloop
  rw [stream_append]
  refine ⟨?_, ?_⟩
  · rw [exec_parse_file, hfold]
    simp only
    rw [attr_loop_cruft o _ hpos hlt]
    rfl
  · have hne : g ≠ [] := List.ne_nil_of_length_pos hpos
    have hnone : NoAttr g := no_attr_of_short (hlt.trans (by decide))
    obtain ⟨e, -, hstop⟩ := attr_loop_no_attr o (parse_attr o directory) hne hnone true
      (.inl rfl) st
    refine ⟨e, ?_⟩
    rw [exec_parse_file, hfold]
    simp only
    rw [hstop]
    rfl

/-- Without such cruft there is no difference. -/
theorem parse_file_sources {bs : List UInt8} {w : World}
    (h : ∀ st w₁, ¬ LeavesCruft o directory bs w st w₁) :
    exec (parse_file o directory body_filename body_pref { rest := bs, is_stdin := true }) w
      = exec (parse_file o directory body_filename body_pref { rest := bs }) w := by
  have hsig : read_signature { rest := bs, is_stdin := true }
      = (read_signature { rest := bs }).map fun r => (r.1, r.2.piped) :=
    read_signature_sourceless { rest := bs }
  rcases hread : read_signature { rest := bs } with e | ⟨_ | _, inp⟩
  · rw [hread] at hsig
    rw [parse_file, parse_file, hread, hsig]
    rfl
  · rw [hread] at hsig
    rw [parse_file, parse_file, hread, hsig]
    rfl
  · obtain ⟨key, rest, rfl⟩ : ∃ key rest, bs = le32 TNEF_SIGNATURE ++ (le16 key ++ rest) := by
      obtain ⟨key, hinp⟩ := read_signature_inv hread
      exact ⟨key, inp.rest, congrArg Input.rest hinp⟩
    obtain ⟨as, tail, rfl, htail⟩ := exists_attr_bytes rest
    rw [exec_parse_file, exec_parse_file]
    generalize hfold : exec (as.foldlM (fun s x => lift (attr_gate o x.1 x.2)
      >>= fun _ => parse_attr o directory x.1 s) {}) w = folded
    obtain ⟨e | st, w₁⟩ := folded
    · rfl
    · simp only
      by_cases hne : tail = []
      · subst hne
        rw [attr_loop_end_of_input, attr_loop_end_of_input]
        rfl
      · have hlong : MINIMUM_ATTR_LENGTH ≤ tail.length := by
          by_contra hshort
          apply h st w₁
          exact ⟨key, as, tail, (stream_append key as tail).symm, List.length_pos_iff.mpr hne,
            Nat.lt_of_not_le hshort, _, loop_of_fold o directory hfold⟩
        -- both stop, for the same reason
        obtain ⟨e, he, hstop⟩ := attr_loop_no_attr o (parse_attr o directory) hne htail false
          (.inr hlong) st
        obtain ⟨e', he', hstop'⟩ := attr_loop_no_attr o (parse_attr o directory) hne htail true
          (.inl rfl) st
        have hsame := attr_read_sourceless o { rest := tail }
        rw [he] at hsame
        have hee : e' = e := Except.error.inj (he'.symm.trans hsame)
        rw [hstop, hstop', hee]

end Sources

/-- **Standard input and a regular file.** Without `--interactive` the runs over the same
bytes make the same calls and end the same way, unless there is cruft of fewer than eight
bytes behind attributes that do not stop the loop. With such cruft the run over the regular
file goes on from the end of the loop, and the run over standard input stops there with an
error. What else is on standard input does not matter. -/
theorem parse_file_piped {o : Options} (hconfirm : o.confirm = false)
    (directory : Option (List UInt8)) (body_filename body_pref bs text : List UInt8) (w : World) :
    ((∀ st w₁, ¬ LeavesCruft o directory bs w st w₁) →
      exec (parse_file o directory body_filename body_pref { rest := bs, is_stdin := true })
          (w.fed text)
        = ((exec (parse_file o directory body_filename body_pref { rest := bs }) w).1,
          (exec (parse_file o directory body_filename body_pref { rest := bs }) w).2.fed text))
    ∧ ∀ st w₁, LeavesCruft o directory bs w st w₁ →
      exec (parse_file o directory body_filename body_pref { rest := bs }) w
          = exec (finish_file o directory body_filename body_pref st) w₁
        ∧ ∃ e, exec (parse_file o directory body_filename body_pref { rest := bs, is_stdin := true })
          (w.fed text) = (.error e, w₁.fed text) := by
  have hfed := parse_file_fed hconfirm directory text body_filename body_pref
    { rest := bs, is_stdin := true } w
  refine ⟨?_, ?_⟩
  · intro hnone
    rw [hfed, parse_file_sources body_filename body_pref hnone]
  · intro st w₁ hcruft
    obtain ⟨hfile, e, hstop⟩ := parse_file_cruft body_filename body_pref hcruft
    refine ⟨hfile, e, ?_⟩
    rw [hfed, hstop]

theorem parse_file_piped_witness :
    ((∀ st w₁, ¬ LeavesCruft {} none (stream 0 two_groups ++ [0x0d]) {} st w₁) →
      exec (parse_file {} none [] [] { rest := stream 0 two_groups ++ [0x0d], is_stdin := true })
          (World.fed (ascii "text") {})
        = ((exec (parse_file {} none [] [] { rest := stream 0 two_groups ++ [0x0d] }) {}).1,
          (exec (parse_file {} none [] [] { rest := stream 0 two_groups ++ [0x0d] }) {}).2.fed (ascii "text")))
    ∧ ∀ st w₁, LeavesCruft {} none (stream 0 two_groups ++ [0x0d]) {} st w₁ →
      exec (parse_file {} none [] [] { rest := stream 0 two_groups ++ [0x0d] }) {}
          = exec (finish_file {} none [] [] st) w₁
        ∧ ∃ e, exec (parse_file {} none [] [] { rest := stream 0 two_groups ++ [0x0d], is_stdin := true })
          (World.fed (ascii "text") {}) = (.error e, w₁.fed (ascii "text")) :=
  parse_file_piped rfl none [] [] (stream 0 two_groups ++ [0x0d]) (ascii "text") {}

/-- One byte behind the key: the file is done, standard input stops. -/
theorem parse_file_piped_differs :
    ¬ ∀ (o : Options) (directory : Option (List UInt8)) (body_filename body_pref bs text : List UInt8)
      (w : World), o.confirm = false →
      let file := exec (parse_file o directory body_filename body_pref { rest := bs }) w
      let piped := exec (parse_file o directory body_filename body_pref
        { rest := bs, is_stdin := true }) (w.fed text)
      piped.2.calls = file.2.calls ∧ piped.1.toBool = file.1.toBool := by
  intro h
  have hsame := (h {} none [] [] (stream 0 [] ++ [0]) [] {} rfl).2
  have hdiffer : (exec (parse_file {} none [] [] { rest := stream 0 [] ++ [0], is_stdin := true })
      {}).1.toBool ≠ (exec (parse_file {} none [] [] { rest := stream 0 [] ++ [0] }) {}).1.toBool := by
    decide +kernel
  exact hdiffer hsame

/-! ## Cruft behind a regular file -/

/-- **A tail too short for an attribute loses nothing exactly when it is shorter than
`MINIMUM_ATTR_LENGTH`.** Where the stream alone returns, the stream with the tail behind it
returns after the same calls if and only if the tail has fewer than eight bytes: eight to
ten are taken for an attribute and stop the run. -/
theorem parse_file_garbage (o : Options) (directory : Option (List UInt8))
    (body_filename body_pref : List UInt8) (key : UInt16) (as : List (Attr × UInt16))
    (g : List UInt8) (hg : g.length < 11) (w : World) {status : ℕ}
    (hreturns : (exec (parse_file o directory body_filename body_pref { rest := stream key as }) w).1
      = .ok status) :
    ((∃ status, (exec (parse_file o directory body_filename body_pref { rest := stream key as ++ g })
          w).1 = .ok status)
      ∧ (exec (parse_file o directory body_filename body_pref { rest := stream key as ++ g }) w).2.calls
        = (exec (parse_file o directory body_filename body_pref { rest := stream key as }) w).2.calls)
    ↔ g.length < MINIMUM_ATTR_LENGTH := by
  have halone : stream key as = le32 TNEF_SIGNATURE ++ (le16 key ++ (attr_bytes as ++ [])) := by
    rw [List.append_nil]
    rfl
  rw [stream_append]
  rw [halone] at hreturns ⊢
  rw [exec_parse_file] at hreturns ⊢
  rw [exec_parse_file]
  generalize exec (as.foldlM (fun s x => lift (attr_gate o x.1 x.2)
    >>= fun _ => parse_attr o directory x.1 s) {}) w = folded at hreturns ⊢
  match folded, hreturns with
  | (.ok st, w₁), hreturns =>
    simp only at hreturns ⊢
    rw [attr_loop_end_of_input] at hreturns ⊢
    constructor
    · rintro ⟨⟨status', h⟩, -⟩
      by_contra hlong
      have hne : g ≠ [] := by
        rintro rfl
        exact hlong (by decide)
      -- no attribute is that short, so reading one stops
      obtain ⟨e, -, hstop⟩ := attr_loop_no_attr o (parse_attr o directory) hne (no_attr_of_short hg)
        false (.inr (Nat.le_of_not_lt hlong)) st
      rw [hstop] at h
      cases h
    · intro hlt
      have hsame : exec (attr_loop o (parse_attr o directory) { rest := g } st) w₁
          = (.ok ({ rest := g }, st), w₁)
        ∨ exec (attr_loop o (parse_attr o directory) { rest := g } st) w₁
          = (.ok ({ rest := [], eof := true }, st), w₁) := by
        by_cases hne : g = []
        · subst hne
          rw [attr_loop_end_of_input]
          exact .inr rfl
        · rw [attr_loop_cruft o _ (List.length_pos_iff.mpr hne) hlt]
          exact .inl rfl
      rcases hsame with hsame | hsame
      · rw [exec_bind, hsame]
        exact ⟨⟨status, hreturns⟩, rfl⟩
      · rw [exec_bind, hsame]
        exact ⟨⟨status, hreturns⟩, rfl⟩

/-- Two groups return, alone and with three bytes behind them. -/
theorem parse_file_garbage_witness :
    ((∃ status, (exec (parse_file {} none [] [] { rest := stream 0 two_groups ++ [1, 2, 3] }) {}).1
        = .ok status)
      ∧ (exec (parse_file {} none [] [] { rest := stream 0 two_groups ++ [1, 2, 3] }) {}).2.calls
        = (exec (parse_file {} none [] [] { rest := stream 0 two_groups }) {}).2.calls)
    ↔ [1, 2, 3].length < MINIMUM_ATTR_LENGTH := by
  have hreturns : (exec (parse_file {} none [] [] { rest := stream 0 two_groups }) {}).1 = .ok 0 := by
    decide +kernel
  exact parse_file_garbage {} none [] [] 0 two_groups [1, 2, 3] (by decide) {} hreturns

/-- Eight zero bytes behind the same groups stop the run. -/
theorem parse_file_garbage_stops :
    ¬ ∀ (o : Options) (directory : Option (List UInt8)) (body_filename body_pref : List UInt8)
      (key : UInt16) (as : List (Attr × UInt16)) (g : List UInt8) (w : World),
      g.length < 11 →
      (exec (parse_file o directory body_filename body_pref { rest := stream key as }) w).1 = .ok 0 →
      (exec (parse_file o directory body_filename body_pref { rest := stream key as ++ g }) w).1
          = .ok 0
        ∧ (exec (parse_file o directory body_filename body_pref { rest := stream key as ++ g }) w).2.calls
          = (exec (parse_file o directory body_filename body_pref { rest := stream key as }) w).2.calls := by
  intro h
  have hreturns : (exec (parse_file {} none [] [] { rest := stream 0 two_groups }) {}).1 = .ok 0 := by
    decide +kernel
  have hstops : (exec (parse_file {} none [] []
      { rest := stream 0 two_groups ++ List.replicate 8 0 }) {}).1 ≠ .ok 0 := by
    decide +kernel
  exact hstops (h {} none [] [] 0 two_groups (List.replicate 8 0) {} (by decide) hreturns).1

end Tnef
