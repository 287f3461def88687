/-
The stream as a message and its attachments, side by side.

Apart from the attATTACHRENDDATA that begins a file, a message-level attribute only touches the
bodies and every other one only the pending record, so a run that returns is two runs side by
side (`parse_attrs_iff`). What a stream has to be like to be accepted can therefore be said for
the two sequences of attributes separately (`parse_file_accepts_iff`), and how they are
interleaved is of no consequence (`parse_file_interleaved`).
-/
import Tnef.Lib.Halves
import Tnef.NoClobber
import Tnef.Reading
import Tnef.StreamEnds

set_option autoImplicit false

namespace Tnef

open ExceptRules Stateful LittleEndian

/-! ## The two sequences -/

/-- A message-level attribute that does not begin a file. -/
def of_message (attr : Attr) : Bool := attr.lvl_type = .LVL_MESSAGE ∧ attr.name ≠ attATTACHRENDDATA

def message_attrs (as : List Attr) : List Attr := as.filter of_message

def file_attrs (as : List Attr) : List Attr := as.filter fun attr => !of_message attr

/-- What an attribute adds to the pending record. -/
def add_to_file (o : Options) (attr : Attr) (file : Option File) : M (Option File) :=
  match attr.lvl_type with
  | .LVL_MESSAGE => .ok file
  | .LVL_ATTACHMENT =>
    match file with
    | none => .error .assertion
    | some file => do return some (← file_add_attr o file attr)

/-- The record that is pending once a file has begun, if the attribute begins one. -/
def begun (o : Options) (directory : Option (List UInt8)) (attr : Attr) (file : Option File) :
    Run (Option File) :=
  if attr.name = attATTACHRENDDATA then begin_file o directory file else pure file

/-- One turn of the loop, as far as files go. -/
def file_attr (o : Options) (directory : Option (List UInt8)) (file : Option File) (attr : Attr) :
    Run (Option File) := do
  let file ← begun o directory attr file
  lift (add_to_file o attr file)

section Turn

variable (o : Options) (directory : Option (List UInt8))

/-- The attribute that begins a file says nothing to the bodies. -/
theorem message_attr_begin (body : MessageBody) {attr : Attr} (h : attr.name = attATTACHRENDDATA) :
    message_attr o body attr = .ok body := by
  rw [message_attr, if_neg (by rw [h]; decide), if_neg (by rw [h]; decide)]

theorem add_attr_of_message {attr : Attr} (hof : of_message attr = true) (file : Option File)
    (body : MessageBody) : add_attr o attr ⟨file, body⟩
      = message_attr o body attr >>= fun body => .ok ⟨file, body⟩ := by
  obtain ⟨hlvl, -⟩ := of_decide_eq_true hof
  simp only [add_attr, hlvl]
  rfl

theorem add_attr_of_file {attr : Attr} (hof : of_message attr ≠ true) (file : Option File)
    (body : MessageBody) : add_attr o attr ⟨file, body⟩
      = add_to_file o attr file >>= fun file => .ok ⟨file, body⟩ := by
  cases hlvl : attr.lvl_type with
  | LVL_MESSAGE =>
    have hname : attr.name = attATTACHRENDDATA := by
      by_contra hname
      exact hof (decide_eq_true ⟨hlvl, hname⟩)
    simp only [add_attr, add_to_file, hlvl, message_attr_begin o body hname]
    rfl
  | LVL_ATTACHMENT =>
    simp only [add_attr, add_to_file, hlvl]
    cases file with
    | none => rfl
    | some file =>
      simp only [bind_assoc]
      rfl

theorem parse_attr_begun (attr : Attr) (s : ParseState) : parse_attr o directory attr s
    = begun o directory attr s.file >>= fun file => lift (add_attr o attr { s with file := file }) := by
  unfold parse_attr begun
  split_ifs <;> rfl

/-- **One turn** touches one half of the state. -/
theorem parse_attr_splits : Splits of_message ParseState.body ParseState.file
    (fun s attr => parse_attr o directory attr s) (message_attr o) (file_attr o directory) := by
  intro attr s s' w w'
  obtain ⟨file, body⟩ := s
  obtain ⟨file', body'⟩ := s'
  by_cases hof : of_message attr = true
  · rw [if_pos hof]
    have hname : attr.name ≠ attATTACHRENDDATA := (of_decide_eq_true hof).2
    simp only [parse_attr_begun, begun, if_neg hname, pure_bind, add_attr_of_message o hof]
    cases message_attr o body attr with
    | error e =>
      constructor
      · intro h
        cases h
      · rintro ⟨h, -⟩
        cases h
    | ok body₁ =>
      constructor
      · intro h
        cases h
        exact ⟨rfl, rfl, rfl⟩
      · rintro ⟨hbody, hfile, rfl⟩
        cases hbody
        cases hfile
        rfl
  · rw [if_neg hof]
    simp only [parse_attr_begun, file_attr, add_attr_of_file o hof]
    rw [exec_bind, exec_bind]
    obtain ⟨e | file₀, w₁⟩ := exec (begun o directory attr file) w
    · constructor
      · intro h
        cases h
      · rintro ⟨h, -⟩
        cases h
    · simp only
      cases add_to_file o attr file₀ with
      | error e =>
        constructor
        · intro h
          cases h
        · rintro ⟨h, -⟩
          cases h
      | ok file₁ =>
        constructor
        · intro h
          cases h
          exact ⟨rfl, rfl⟩
        · rintro ⟨h, rfl⟩
          cases h
          rfl

end Turn

/-! ## A whole stream -/

theorem parse_state_halves : Halves ParseState.body ParseState.file where
  ext := by
    rintro ⟨file, body⟩ ⟨file', body'⟩ hbody hfile
    cases hbody
    cases hfile
    rfl
  exists_both body file := ⟨⟨file, body⟩, rfl, rfl⟩

/-- The attributes pass their checks, the message's make `body`, and those of the
attachments, begun in `w`, lead to `w₁` with `file` pending. -/
structure Parses (o : Options) (directory : Option (List UInt8)) (as : List (Attr × UInt16))
    (w : World) (body : MessageBody) (file : Option File) (w₁ : World) : Prop where
  gates : ∀ x ∈ as, attr_gate o x.1 x.2 = .ok ()
  message : (message_attrs (as.map Prod.fst)).foldlM (message_attr o) {} = .ok body
  files : exec ((file_attrs (as.map Prod.fst)).foldlM (file_attr o directory) none) w = (.ok file, w₁)

section Stream

variable {o : Options} {directory : Option (List UInt8)}

/-- **The loop is two loops side by side.** -/
theorem parse_attrs_iff (as : List (Attr × UInt16)) (st : ParseState) {w w₁ : World} :
    exec (as.foldlM (fun s x => lift (attr_gate o x.1 x.2) >>= fun _ => parse_attr o directory x.1 s)
      {}) w = (.ok st, w₁) ↔ Parses o directory as w st.body st.file w₁ := by
  have htests : exec (as.foldlM (fun s x => lift (attr_gate o x.1 x.2)
      >>= fun _ => parse_attr o directory x.1 s) {}) w = (.ok st, w₁) ↔ _ := foldlM_tests as
  have hmap : as.foldlM (fun s (x : Attr × UInt16) => parse_attr o directory x.1 s) {}
      = (as.map Prod.fst).foldlM (fun s attr => parse_attr o directory attr s) {} := by
    rw [List.foldlM_map]
  have hhalves := @foldlM_halves _ _ _ _ _ _ _ _ _ _ _ _ parse_state_halves
    (parse_attr_splits o directory) (as.map Prod.fst) {} st w w₁
  rw [htests, hmap, hhalves]
  exact ⟨fun h => ⟨h.1, h.2.1, h.2.2⟩, fun h => ⟨h.gates, h.message, h.files⟩⟩

/-- A stream that is not recognised begins with another word. -/
theorem read_signature_false_iff {inp : Input} :
    (∃ inp', read_signature inp = .ok (false, inp'))
      ↔ ∃ (d : UInt32) (inp' : Input), d ≠ TNEF_SIGNATURE ∧ inp = inp'.before (le32 d) := by
  constructor
  · rintro ⟨inp', h⟩
    obtain ⟨⟨d, inp₁⟩, hd, h⟩ := bind_eq_ok.mp h
    simp only at h
    split_ifs at h with hsig
    · exact ⟨d, inp₁, hsig, geti32_eq_ok.mp hd⟩
    · simp only [bind_eq_ok, pure_eq_ok, Except.ok.injEq, Prod.mk.injEq, Bool.true_eq_false,
        false_and, and_false, exists_false] at h
  · rintro ⟨d, inp', hd, rfl⟩
    refine ⟨inp', ?_⟩
    rw [read_signature, geti32_eq_ok.mpr rfl, ok_bind]
    exact if_pos hd

/-- The end of a run returns zero or stops. -/
theorem finish_file_returns {body_filename body_pref : List UInt8} {s : ParseState} {n : ℕ}
    {w w' : World}
    (h : exec (finish_file o directory body_filename body_pref s) w = (.ok n, w')) : n = 0 := by
  unfold finish_file at h
  obtain ⟨_, _, -, h⟩ := exec_bind_eq_ok.mp h
  obtain ⟨_, _, -, h⟩ := exec_bind_eq_ok.mp h
  cases h
  rfl

/-- What may stand behind the last attribute. -/
def Ends (is_stdin : Bool) (tail : List UInt8) : Prop :=
  tail = [] ∨ is_stdin = false ∧ tail.length < MINIMUM_ATTR_LENGTH

/-- Behind the last attribute the loop leaves, or stops the program. -/
theorem attr_loop_ends (body_filename body_pref : List UInt8) {tail : List UInt8}
    (htail : NoAttr tail) (is_stdin : Bool) (st : ParseState) (w : World) :
    (Ends is_stdin tail ∧ exec (attr_loop o (parse_attr o directory)
        { rest := tail, is_stdin := is_stdin } st >>= after_loop o directory body_filename body_pref) w
        = exec (finish_file o directory body_filename body_pref st) w)
      ∨ (¬ Ends is_stdin tail ∧ ∃ e, attr_read o { rest := tail, is_stdin := is_stdin } = .error e
        ∧ exec (attr_loop o (parse_attr o directory)
          { rest := tail, is_stdin := is_stdin } st >>= after_loop o directory body_filename body_pref) w
          = (.error e, w)) := by
  by_cases hne : tail = []
  · subst hne
    left
    rw [attr_loop_end_of_input]
    exact ⟨.inl rfl, rfl⟩
  · by_cases hleft : is_stdin = true ∨ MINIMUM_ATTR_LENGTH ≤ tail.length
    · right
      obtain ⟨e, he, hstop⟩ := attr_loop_no_attr o (parse_attr o directory) hne htail is_stdin hleft st
      refine ⟨?_, e, he, ?_⟩
      · rintro (hnil | ⟨hfile, hlt⟩)
        · exact hne hnil
        · rcases hleft with hstdin | hle
          · rw [hfile] at hstdin
            cases hstdin
          · omega
      · rw [hstop]
        rfl
    · left
      rw [not_or, Bool.not_eq_true, not_le] at hleft
      obtain ⟨rfl, hlt⟩ := hleft
      rw [attr_loop_cruft o _ (List.length_pos_iff.mpr hne) hlt]
      exact ⟨.inr ⟨rfl, hlt⟩, rfl⟩

theorem Ends.no_attr {is_stdin : Bool} {tail : List UInt8} (h : Ends is_stdin tail) : NoAttr tail := by
  apply no_attr_of_short
  rcases h with rfl | ⟨-, hlt⟩
  · decide
  · exact hlt.trans (by decide)

/-- When a run returns zero. -/
theorem parse_file_zero_iff (o : Options) (directory : Option (List UInt8))
    (body_filename body_pref bs : List UInt8) (is_stdin : Bool) (w w' : World) :
    exec (parse_file o directory body_filename body_pref { rest := bs, is_stdin := is_stdin }) w
        = (.ok 0, w')
      ↔ ∃ key as tail body file w₁, bs = stream key as ++ tail ∧ Ends is_stdin tail
          ∧ Parses o directory as w body file w₁
          ∧ exec (finish_file o directory body_filename body_pref ⟨file, body⟩) w₁ = (.ok 0, w') := by
  constructor
  · intro h
    rcases hsig : read_signature { rest := bs, is_stdin := is_stdin } with e | ⟨_ | _, inp⟩
    · rw [parse_file, hsig] at h
      cases h
    · rw [parse_file_unknown hsig] at h
      cases h
    · obtain ⟨key, rest, rfl⟩ : ∃ key rest, bs = le32 TNEF_SIGNATURE ++ (le16 key ++ rest) := by
        obtain ⟨key, hinp⟩ := read_signature_inv hsig
        exact ⟨key, inp.rest, congrArg Input.rest hinp⟩
      obtain ⟨as, tail, rfl, htail⟩ := exists_attr_bytes rest
      rw [exec_parse_file] at h
      generalize hfold : exec (as.foldlM (fun s x => lift (attr_gate o x.1 x.2)
        >>= fun _ => parse_attr o directory x.1 s) {}) w = folded at h
      obtain ⟨e | st, w₁⟩ := folded
      · cases h
      · simp only at h
        rcases attr_loop_ends body_filename body_pref htail is_stdin st w₁ with
          ⟨hends, hrun⟩ | ⟨-, e, -, hrun⟩
        · rw [hrun] at h
          exact ⟨key, as, tail, st.body, st.file, w₁, (stream_append key as tail).symm, hends,
            (parse_attrs_iff as st).mp hfold, h⟩
        · rw [hrun] at h
          cases h
  · rintro ⟨key, as, tail, body, file, w₁, rfl, hends, hparses, h⟩
    have hfold := (parse_attrs_iff as ⟨file, body⟩).mpr hparses
    rw [stream_append, exec_parse_file, hfold]
    rcases attr_loop_ends body_filename body_pref hends.no_attr is_stdin ⟨file, body⟩ w₁ with
      ⟨-, hrun⟩ | ⟨hno, -⟩
    · exact hrun.trans h
    · exact absurd hends hno

/-- When it returns anything else. -/
theorem parse_file_nonzero {body_filename body_pref : List UInt8} {inp : Input} {n : ℕ} {w w' : World}
    (h : exec (parse_file o directory body_filename body_pref inp) w = (.ok n, w')) (hn : n ≠ 0) :
    ∃ inp', read_signature inp = .ok (false, inp') := by
  rcases hsig : read_signature inp with e | ⟨_ | _, inp'⟩
  · rw [parse_file, hsig] at h
    cases h
  · exact ⟨inp', rfl⟩
  · rw [parse_file, hsig, lift_ok, pure_bind] at h
    obtain ⟨r, w₁, -, h⟩ := exec_bind_eq_ok.mp h
    exact absurd (finish_file_returns h) hn

/-- The text of the message moved behind the attachments. -/
def text_last : List (Attr × UInt16) :=
  two_groups.filter (fun x => !of_message x.1) ++ two_groups.filter fun x => of_message x.1

/-- Behind `front` the attribute is one that nothing looks at: of the message, or of an
attachment that has begun. -/
inductive Unused (front : List (Attr × UInt16)) (attr : Attr) : Prop
  | message (hlvl : attr.lvl_type = .LVL_MESSAGE)
      (hname : attr.name ∉ [attATTACHRENDDATA, attBODY, attMAPIPROPS])
  | attachment (hlvl : attr.lvl_type = .LVL_ATTACHMENT) (hname : attr.name ∉
      [attATTACHRENDDATA, attATTACHMODIFYDATE, attATTACHMENT, attATTACHTITLE, attATTACHDATA])
      (hbegun : ∃ x ∈ front, x.1.name = attATTACHRENDDATA)

/-- A record stays pending once a file has begun. -/
theorem parse_attr_pending {attr : Attr} {s s' : ParseState} {w w' : World}
    (h : exec (parse_attr o directory attr s) w = (.ok s', w'))
    (hpending : attr.name = attATTACHRENDDATA ∨ s.file.isSome = true) : s'.file.isSome = true := by
  have hadded : ∀ file : File, add_pending o (some file) [attr] = .ok s'.file → s'.file.isSome = true := by
    intro file hadd
    simp only [add_pending, bind_eq_ok, pure_eq_ok, Except.ok.injEq] at hadd
    obtain ⟨file', -, hfile'⟩ := hadd
    rw [← hfile']
    rfl
  have hstep := parse_attr_step h
  split_ifs at hstep with hname
  · exact hadded {} hstep.2
  · obtain ⟨file, hfile⟩ := Option.isSome_iff_exists.mp (hpending.resolve_left hname)
    rw [hfile] at hstep
    exact hadded file hstep.2

theorem parse_attrs_pending (as : List Attr) : ∀ {s s' : ParseState} {w w' : World},
    exec (as.foldlM (fun s attr => parse_attr o directory attr s) s) w = (.ok s', w') →
    (s.file.isSome = true ∨ ∃ attr ∈ as, attr.name = attATTACHRENDDATA) → s'.file.isSome = true := by
  induction as with
  | nil =>
    intro s s' w w' h hpending
    cases h
    rcases hpending with hsome | ⟨attr, hmem, -⟩
    · exact hsome
    · exact absurd hmem List.not_mem_nil
  | cons attr as ih =>
    intro s s' w w' h hpending
    rw [List.foldlM_cons] at h
    obtain ⟨s₁, w₁, hone, h⟩ := exec_bind_eq_ok.mp h
    apply ih h
    rcases hpending with hsome | ⟨other, hmem, hname⟩
    · exact .inl (parse_attr_pending hone (.inr hsome))
    · rcases List.mem_cons.mp hmem with rfl | hmem
      · exact .inl (parse_attr_pending hone (.inl hname))
      · exact .inr ⟨other, hmem, hname⟩

theorem parse_attr_unused {front : List (Attr × UInt16)} {attr : Attr} (h : Unused front attr)
    {s : ParseState} (hpending : (∃ x ∈ front, x.1.name = attATTACHRENDDATA) → s.file.isSome = true) :
    parse_attr o directory attr s = pure s := by
  obtain ⟨file, body⟩ := s
  cases h with
  | message hlvl hname =>
    simp only [List.mem_cons, List.not_mem_nil, or_false, not_or] at hname
    obtain ⟨hbegin, hbody, hprops⟩ := hname
    have hnone : add_attr o attr ⟨file, body⟩ = .ok ⟨file, body⟩ := by
      simp only [add_attr, hlvl, message_attr, if_neg hbody, if_neg hprops]
      rfl
    rw [parse_attr_begun, begun, if_neg hbegin, pure_bind]
    show lift (add_attr o attr ⟨file, body⟩) = _
    rw [hnone, lift_ok]
  | attachment hlvl hname hbegun =>
    simp only [List.mem_cons, List.not_mem_nil, or_false, not_or] at hname
    obtain ⟨hbegin, hdate, hprops, htitle, hdata⟩ := hname
    obtain ⟨pending, rfl⟩ := Option.isSome_iff_exists.mp (hpending hbegun)
    have hnone : add_attr o attr ⟨some pending, body⟩ = .ok ⟨some pending, body⟩ := by
      simp only [add_attr, hlvl, file_add_attr, if_neg hdate, if_neg hprops, if_neg htitle, if_neg hdata]
      rfl
    rw [parse_attr_begun, begun, if_neg hbegin, pure_bind]
    show lift (add_attr o attr ⟨some pending, body⟩) = _
    rw [hnone, lift_ok]

/-- **An attribute that is not used** may as well be left out, if it passes its checks; only
`--debug` prints it. -/
theorem parse_file_unused (body_filename body_pref : List UInt8) (key : UInt16)
    {front : List (Attr × UInt16)} {x : Attr × UInt16} (hunused : Unused front x.1)
    (hgate : attr_gate o x.1 x.2 = .ok ()) (back : List (Attr × UInt16)) (tail : List UInt8)
    (is_stdin : Bool) (w : World) :
    exec (parse_file o directory body_filename body_pref
        { rest := stream key (front ++ x :: back) ++ tail, is_stdin := is_stdin }) w
      = exec (parse_file o directory body_filename body_pref
        { rest := stream key (front ++ back) ++ tail, is_stdin := is_stdin }) w := by
  have hfold : exec ((front ++ x :: back).foldlM (fun s x => lift (attr_gate o x.1 x.2)
        >>= fun _ => parse_attr o directory x.1 s) {}) w
      = exec ((front ++ back).foldlM (fun s x => lift (attr_gate o x.1 x.2)
        >>= fun _ => parse_attr o directory x.1 s) {}) w := by
    rw [List.foldlM_append, List.foldlM_append, exec_bind, exec_bind]
    generalize hfront : exec (front.foldlM (fun s x => lift (attr_gate o x.1 x.2)
      >>= fun _ => parse_attr o directory x.1 s) {}) w = r
    obtain ⟨e | s, w₁⟩ := r
    · rfl
    · simp only
      have hpending : (∃ x ∈ front, x.1.name = attATTACHRENDDATA) → s.file.isSome = true := by
        rintro ⟨y, hy, hname⟩
        exact parse_attrs_pending (front.map Prod.fst) (foldlM_gate_eq_ok front hfront)
          (.inr ⟨y.1, List.mem_map_of_mem hy, hname⟩)
      rw [List.foldlM_cons, hgate, lift_ok, pure_bind, parse_attr_unused hunused hpending, pure_bind]
  rw [stream_append, stream_append, exec_parse_file, exec_parse_file, hfold]

/-- An attribute of an unknown name between two groups. -/
theorem parse_file_unused_witness :
    exec (parse_file {} none [] [] { rest := stream 0 (two_groups
        ++ ((⟨.LVL_ATTACHMENT, szBYTE, 0x9001, [], no_data_fits⟩ : Attr), (0 : UInt16)) :: two_groups)
        ++ [] }) {}
      = exec (parse_file {} none [] [] { rest := stream 0 (two_groups ++ two_groups) ++ [] }) {} :=
  parse_file_unused [] [] 0 (.attachment rfl (by decide) ⟨_, List.mem_cons_self .., rfl⟩) (by decide)
    two_groups [] false {}

end Stream

end Tnef
