/-
Attachment groups and the calls of `file_write`.

The reading loop writes an attachment when the next one begins, and the last one at the
end of the input. Between two turns the calls made so far, with the pending record
behind them, are the records of the groups seen: `parse_attr_step` says what one turn
adds to that list, and `parse_run` what a run does, by induction on the attributes. A
record depends on the attachment-level attributes of its own group alone.
-/
import Tnef.Parse

set_option autoImplicit false

namespace Tnef

open ExceptRules Stateful LittleEndian

/-! ## Groups -/

/-- What stands before the first attATTACHRENDDATA, and from there on the groups, each
with its attATTACHRENDDATA in front. -/
def split_groups : List Attr → List Attr × List (List Attr)
  | [] => ([], [])
  | a :: as =>
    if a.name = attATTACHRENDDATA then ([], (a :: (split_groups as).1) :: (split_groups as).2)
    else (a :: (split_groups as).1, (split_groups as).2)

def groups (as : List Attr) : List (List Attr) := (split_groups as).2

def attachment_attrs (g : List Attr) : List Attr := g.filter (·.lvl_type = .LVL_ATTACHMENT)

/-- `file_add_attr` over the attachment-level attributes of `g`. -/
def add_attrs (o : Options) (file : File) (g : List Attr) : M File :=
  (attachment_attrs g).foldlM (file_add_attr o) file

/-- `file` is the record of the group `g`: the fold from the zero record. -/
def GroupFile (o : Options) (g : List Attr) (file : File) : Prop := add_attrs o {} g = .ok file

theorem add_attrs_cons (o : Options) (file : File) (a : Attr) (g : List Attr) :
    add_attrs o file (a :: g) = add_attrs o file [a] >>= fun file => add_attrs o file g := by
  have hsplit : attachment_attrs (a :: g) = attachment_attrs [a] ++ attachment_attrs g :=
    List.filter_append [a] g
  rw [add_attrs, hsplit, List.foldlM_append]
  rfl

/-! ## Writing a file -/

section Keeps

variable {κ : Type} {f : World → κ}

/-- `f` does not look at the terminal. -/
structure OffTerminal (f : World → κ) : Prop where
  stdout : ∀ w text, f { w with stdout := text } = f w
  stdin : ∀ w text, f { w with stdin := text } = f w

/-- Nor at the files. -/
structure OffDisk (f : World → κ) : Prop extends OffTerminal f where
  files : ∀ w files, f { w with files := files } = f w

theorem calls_offDisk : OffDisk World.calls :=
  ⟨⟨fun _ _ => rfl, fun _ _ => rfl⟩, fun _ _ => rfl⟩

theorem unwritable_offDisk : OffDisk World.unwritable :=
  ⟨⟨fun _ _ => rfl, fun _ _ => rfl⟩, fun _ _ => rfl⟩

theorem files_offTerminal : OffTerminal World.files := ⟨fun _ _ => rfl, fun _ _ => rfl⟩

theorem print_keeps (hf : OffTerminal f) (text : List UInt8) : Keeps f (print text) :=
  keeps_modify fun w => hf.stdout w _

theorem put_file_keeps (hf : OffDisk f) (path bytes : List UInt8) : Keeps f (put_file path bytes) :=
  keeps_modify fun w => hf.files w _

variable (o : Options)

theorem confirm_action_keeps (hf : OffTerminal f) (prompt : List UInt8) :
    Keeps f (confirm_action o prompt) := by
  unfold confirm_action
  split_ifs
  · refine (print_keeps hf prompt).bind fun _ => keeps_get_bind fun w => ?_
    split
    · rfl
    · exact hf.stdin w _
  · exact keeps_pure _

theorem write_file_keeps (hf : OffDisk f) (file : File) (path : List UInt8) :
    Keeps f (write_file file path) := by
  unfold write_file
  refine keeps_get.bind fun w => ?_
  split_ifs
  · exact keeps_throw _
  · exact (put_file_keeps hf path []).bind fun _ => (keeps_lift _).bind fun bytes =>
      put_file_keeps hf path bytes

theorem extract_file_keeps (hf : OffDisk f) (file : File) (path : List UInt8) :
    Keeps f (extract_file o file path) := by
  unfold extract_file
  refine (keeps_lift _).bind fun name =>
    (confirm_action_keeps o hf.toOffTerminal _).bind fun confirmed => ?_
  split_ifs
  · refine keeps_get.bind fun w => (keeps_lift _).bind fun r => ?_
    match r with
    | none => exact keeps_pure _
    | some path => exact (write_file_keeps hf file path).bind fun _ => keeps_pure _
  · exact keeps_pure _

theorem print_or_keeps (hf : OffTerminal f) (s : Option Buffer) (default : List UInt8) :
    Keeps f (print_or s default) := by
  unfold print_or
  match s with
  | none => exact print_keeps hf default
  | some b => exact (keeps_lift _).bind fun text => print_keeps hf text

theorem list_file_keeps (hf : OffTerminal f) (file : File) (path : List UInt8) :
    Keeps f (list_file o file path) := by
  have hdate : Keeps f (list_length_and_date o file) := by
    unfold list_length_and_date
    split_ifs
    · exact (keeps_lift _).bind fun date_str => print_keeps hf _
    · exact keeps_pure _
  have hmime : Keeps f (list_mime o file) := by
    unfold list_mime
    split_ifs
    · exact (print_keeps hf _).bind fun _ => (print_or_keeps hf _ _).bind fun _ =>
        (print_keeps hf _).bind fun _ => print_or_keeps hf _ _
    · exact keeps_pure _
  exact hdate.bind fun _ => (print_or_keeps hf _ _).bind fun _ => (print_keeps hf _).bind fun _ =>
    hmime.bind fun _ => print_keeps hf _

theorem list_written_keeps (hf : OffTerminal f) (file : File) (path : Option (List UInt8)) :
    Keeps f (list_written o file path) := by
  unfold list_written
  match path with
  | none => exact keeps_pure _
  | some path =>
    simp only
    split_ifs
    · exact list_file_keeps o hf file path
    · exact keeps_pure _

/-- Behind the log entry, a call touches the terminal and the files. -/
theorem file_write_keeps (hf : OffDisk f) (directory : Option (List UInt8)) (file : File)
    (w : World) : f (exec (file_write o directory file) w).2
      = f { w with calls := w.calls ++ [file] } := by
  have hlist := list_written_keeps o hf.toOffTerminal
  have hrest : Keeps f (do
      let r ← lift (file_path o directory file)
      let path ← if ¬ o.list then extract_file o r.1 r.2 else pure (some r.2)
      list_written o r.1 path : Run Unit) := by
    refine (keeps_lift _).bind fun r => ?_
    split_ifs
    · exact (keeps_pure _).bind fun path => hlist r.1 path
    · exact (extract_file_keeps o hf r.1 r.2).bind fun path => hlist r.1 path
  exact hrest { w with calls := w.calls ++ [file] }

/-- **A call of `file_write` is logged once**, however it ends, and nothing else is. -/
theorem file_write_calls (directory : Option (List UInt8)) (file : File) (w : World) :
    (exec (file_write o directory file) w).2.calls = w.calls ++ [file] :=
  file_write_keeps o calls_offDisk directory file w

end Keeps

/-! ## One turn of the loop -/

/-- `file_add_attr` over the attachment-level attributes of `g`, if a record is pending. -/
def add_pending (o : Options) (file : Option File) (g : List Attr) : M (Option File) :=
  match file with
  | none => .ok none
  | some file => do return some (← add_attrs o file g)

theorem add_pending_cons (o : Options) (file : Option File) (a : Attr) (g : List Attr) :
    add_pending o file (a :: g) = add_pending o file [a] >>= fun file => add_pending o file g := by
  match file with
  | none => rfl
  | some file =>
    simp only [add_pending]
    rw [add_attrs_cons]
    cases add_attrs o file [a] with
    | error e => rfl
    | ok file => rfl

/-- The `switch` adds an attachment-level attribute to the pending record and leaves it
alone for a message-level one. -/
theorem add_attr_pending {o : Options} {attr : Attr} {s s' : ParseState}
    (h : add_attr o attr s = .ok s') : add_pending o s.file [attr] = .ok s'.file := by
  unfold add_attr at h
  split at h
  · next hlvl =>
    simp only [bind_eq_ok, pure_eq_ok, Except.ok.injEq] at h
    obtain ⟨body, -, rfl⟩ := h
    have hnone : attachment_attrs [attr] = [] := by simp [attachment_attrs, hlvl]
    match hfile : s.file with
    | none => rfl
    | some file => rw [add_pending, add_attrs, hnone]; rfl
  · next hlvl =>
    have hone : attachment_attrs [attr] = [attr] := by simp [attachment_attrs, hlvl]
    split at h
    · cases h
    · next file hfile =>
      simp only [bind_eq_ok, pure_eq_ok, Except.ok.injEq] at h
      obtain ⟨file', hadd, rfl⟩ := h
      rw [hfile, add_pending, add_attrs, hone, List.foldlM_cons, hadd]
      rfl

/-- **One turn**: before a group begins the pending record is written, and a zero record
takes its place; otherwise nothing is written. -/
theorem parse_attr_step {o : Options} {directory : Option (List UInt8)} {attr : Attr}
    {s s' : ParseState} {w w' : World}
    (h : exec (parse_attr o directory attr s) w = (.ok s', w')) :
    if attr.name = attATTACHRENDDATA then
      w'.calls = w.calls ++ s.file.toList ∧ add_pending o (some {}) [attr] = .ok s'.file
    else w'.calls = w.calls ∧ add_pending o s.file [attr] = .ok s'.file := by
  unfold parse_attr at h
  by_cases hname : attr.name = attATTACHRENDDATA
  · rw [if_pos hname] at h ⊢
    obtain ⟨file, w₁, hbegin, h⟩ := exec_bind_eq_ok.mp h
    obtain ⟨hadd, rfl⟩ := Prod.mk.inj h
    -- the record that was pending is written, if there was one
    have hfile : file = some {} ∧ w₁.calls = w.calls ++ s.file.toList := by
      match hs : s.file with
      | none =>
        rw [hs, begin_file] at hbegin
        obtain ⟨_, _, hgrant, hbegin⟩ := exec_bind_eq_ok.mp hbegin
        obtain ⟨-, rfl⟩ := Prod.mk.inj hgrant
        cases hbegin
        exact ⟨rfl, (List.append_nil _).symm⟩
      | some old =>
        rw [hs, begin_file] at hbegin
        obtain ⟨_, w₂, hwrite, hbegin⟩ := exec_bind_eq_ok.mp hbegin
        cases hbegin
        have hcalls := file_write_calls o directory old w
        rw [hwrite] at hcalls
        exact ⟨rfl, hcalls⟩
    obtain ⟨rfl, hcalls⟩ := hfile
    exact ⟨hcalls, add_attr_pending hadd⟩
  · rw [if_neg hname] at h ⊢
    obtain ⟨file, w₁, hpure, h⟩ := exec_bind_eq_ok.mp h
    cases hpure
    obtain ⟨hadd, rfl⟩ := Prod.mk.inj h
    exact ⟨rfl, add_attr_pending hadd⟩

/-! ## A run -/

/-- **A run over the attributes**: what was pending is completed from what stands before
the first group, every group gives the record of its own, and the calls with the pending
record behind them are these records, in order. -/
theorem parse_run {o : Options} {directory : Option (List UInt8)} (as : List Attr) :
    ∀ {s s' : ParseState} {w w' : World},
    exec (as.foldlM (fun s attr => parse_attr o directory attr s) s) w = (.ok s', w') →
    ∃ head files, add_pending o s.file (split_groups as).1 = .ok head
      ∧ List.Forall₂ (GroupFile o) (split_groups as).2 files
      ∧ w'.calls ++ s'.file.toList = w.calls ++ head.toList ++ files := by
  induction as with
  | nil =>
    intro s s' w w' h
    cases h
    refine ⟨s.file, [], ?_, .nil, (List.append_nil _).symm⟩
    cases s.file <;> rfl
  | cons attr as ih =>
    intro s s' w w' h
    rw [List.foldlM_cons] at h
    obtain ⟨s₁, w₁, hone, h⟩ := exec_bind_eq_ok.mp h
    obtain ⟨head, files, hhead, hfiles, hcalls⟩ := ih h
    have hstep := parse_attr_step hone
    rw [split_groups]
    by_cases hname : attr.name = attATTACHRENDDATA
    · -- the group that begins here is finished by what stands before the next one
      rw [if_pos hname] at hstep ⊢
      obtain ⟨hcalls₁, hadd⟩ := hstep
      have hgroup : add_pending o (some {}) (attr :: (split_groups as).1) = .ok head := by
        rw [add_pending_cons, hadd, ok_bind, hhead]
      simp only [add_pending, bind_eq_ok, pure_eq_ok, Except.ok.injEq] at hgroup
      obtain ⟨file, hfile, rfl⟩ := hgroup
      refine ⟨s.file, file :: files, ?_, .cons hfile hfiles, ?_⟩
      · cases s.file <;> rfl
      · rw [hcalls, hcalls₁, Option.toList_some, List.append_assoc, List.singleton_append]
    · -- the attribute belongs to what is pending
      rw [if_neg hname] at hstep ⊢
      obtain ⟨hcalls₁, hadd⟩ := hstep
      refine ⟨head, files, ?_, hfiles, ?_⟩
      · rw [add_pending_cons, hadd, ok_bind, hhead]
      · rw [hcalls, hcalls₁]

/-- The bytes of a stream: signature, key, attributes with their checksum words. -/
def stream (key : UInt16) (as : List (Attr × UInt16)) : List UInt8 :=
  le32 TNEF_SIGNATURE ++ (le16 key ++ as.flatMap fun x => encode_raw x.1 x.2)

/-- At the end of the input the loop leaves, whatever the kind of file. -/
theorem attr_loop_end_of_input {ω σ : Type} (o : Options) (body : Attr → σ → Act Stop ω σ)
    (is_stdin : Bool) (s : σ) : attr_loop o body { rest := [], is_stdin := is_stdin } s
      = pure ({ rest := [], eof := true, is_stdin := is_stdin }, s) := by
  refine attr_loop_end ?_ rfl
  cases is_stdin <;> rfl

theorem foldlM_gate_eq_ok {ω σ : Type} {o : Options} {body : Attr → σ → Act Stop ω σ}
    (as : List (Attr × UInt16)) : ∀ {s s' : σ} {w w' : ω},
    exec (as.foldlM (fun s x => lift (attr_gate o x.1 x.2) >>= fun _ => body x.1 s) s) w
      = (.ok s', w') →
    exec ((as.map (·.1)).foldlM (fun s attr => body attr s) s) w = (.ok s', w') := by
  induction as with
  | nil =>
    intro s s' w w' h
    exact h
  | cons x as ih =>
    intro s s' w w' h
    rw [List.foldlM_cons] at h
    obtain ⟨s₁, w₁, hone, h⟩ := exec_bind_eq_ok.mp h
    obtain ⟨_, w₂, hgate, hbody⟩ := exec_bind_eq_ok.mp hone
    obtain ⟨-, rfl⟩ := Prod.mk.inj hgate
    rw [List.map_cons, List.foldlM_cons]
    exact exec_bind_eq_ok.mpr ⟨s₁, w₁, hbody, ih h⟩

theorem read_signature_bytes (key : UInt16) (bs : List UInt8) (is_stdin : Bool) :
    read_signature { rest := le32 TNEF_SIGNATURE ++ (le16 key ++ bs), is_stdin := is_stdin }
      = .ok (true, { rest := bs, is_stdin := is_stdin }) := by
  have hd : geti32 { rest := le32 TNEF_SIGNATURE ++ (le16 key ++ bs), is_stdin := is_stdin }
      = .ok (TNEF_SIGNATURE, ⟨le16 key ++ bs, false, is_stdin⟩) := geti32_eq_ok.mpr rfl
  have hk : geti16 ⟨le16 key ++ bs, false, is_stdin⟩ = .ok (key, ⟨bs, false, is_stdin⟩) :=
    geti16_eq_ok.mpr rfl
  rw [read_signature, hd, ok_bind]
  simp only
  rw [if_neg (by decide), hk]
  rfl

theorem write_pending_calls (o : Options) (directory : Option (List UInt8)) (file : Option File)
    (w : World) : (exec (write_pending o directory file) w).2.calls = w.calls ++ file.toList := by
  match file with
  | none => exact (List.append_nil _).symm
  | some file => exact file_write_calls o directory file w

/-- **Attachments are written once each, in order, from their own group alone.** When the
reading loop reaches the end of the input, the calls of `file_write` made before any body
is saved are the records of the groups; the rest of the run is the saving of the bodies,
unless the last of these calls stops. -/
theorem parse_file_groups (o : Options) (directory : Option (List UInt8))
    (body_filename body_pref : List UInt8) (key : UInt16) (as : List (Attr × UInt16))
    (is_stdin : Bool) (w w₁ : World) (inp : Input) (s : ParseState)
    (hloop : exec (attr_loop o (parse_attr o directory)
      { rest := as.flatMap (fun x => encode_raw x.1 x.2), is_stdin := is_stdin } {}) w
        = (.ok (inp, s), w₁)) :
    ∃ files w₂, List.Forall₂ (GroupFile o) (groups (as.map (·.1))) files
      ∧ w₂.calls = w.calls ++ files
      ∧ (exec (parse_file o directory body_filename body_pref
            { rest := stream key as, is_stdin := is_stdin }) w
          = exec (save_bodies o directory body_filename body_pref s.body >>= fun _ => pure 0) w₂
        ∨ ∃ e, exec (parse_file o directory body_filename body_pref
            { rest := stream key as, is_stdin := is_stdin }) w = (.error e, w₂)) := by
  have hparse : exec (parse_file o directory body_filename body_pref
      { rest := stream key as, is_stdin := is_stdin }) w
        = exec (finish_file o directory body_filename body_pref s) w₁ := by
    rw [parse_file, stream, read_signature_bytes, lift_ok, pure_bind]
    simp only [if_true]
    rw [exec_bind, hloop]
  have hbefore : ({ rest := as.flatMap (fun x => encode_raw x.1 x.2), is_stdin := is_stdin } : Input)
      = ({ rest := [], is_stdin := is_stdin } : Input).before
        (as.flatMap fun x => encode_raw x.1 x.2) := by
    rw [Input.before, List.append_nil]
  rw [hbefore, attr_loop_before o (parse_attr o directory) rfl] at hloop
  obtain ⟨s', w', hfold, hend⟩ := exec_bind_eq_ok.mp hloop
  rw [attr_loop_end_of_input] at hend
  cases hend
  obtain ⟨head, files, hhead, hfiles, hcalls⟩ := parse_run (as.map (·.1)) (foldlM_gate_eq_ok as hfold)
  cases hhead
  rw [Option.toList_none, List.append_nil] at hcalls
  have hlast := write_pending_calls o directory s.file w₁
  rw [hcalls] at hlast
  refine ⟨files, (exec (write_pending o directory s.file) w₁).2, hfiles, hlast, ?_⟩
  rw [hparse, finish_file, exec_bind]
  -- the last call is logged before it can stop the run
  rcases exec (write_pending o directory s.file) w₁ with ⟨e | _, w₂⟩
  · exact Or.inr ⟨e, rfl⟩
  · exact Or.inl rfl

/-- Two groups, with a message-level attribute inside the first. -/
def two_groups : List (Attr × UInt16) :=
  ([⟨.LVL_ATTACHMENT, szBYTE, attATTACHRENDDATA, [], by decide⟩,
    ⟨.LVL_MESSAGE, szTEXT, attBODY, ascii "text", by decide⟩,
    ⟨.LVL_ATTACHMENT, szSTRING, attATTACHTITLE, ascii "a", by decide⟩,
    ⟨.LVL_ATTACHMENT, szBYTE, attATTACHRENDDATA, [], by decide⟩,
    ⟨.LVL_ATTACHMENT, szSTRING, attATTACHTITLE, ascii "b", by decide⟩] : List Attr).map
    fun attr => (attr, byte_sum attr.data)

theorem parse_file_groups_witness :
    ∃ files w₂ body, List.Forall₂ (GroupFile { list := true }) (groups (two_groups.map (·.1))) files
      ∧ w₂.calls = files
      ∧ (exec (parse_file { list := true } none [] [] { rest := stream 0 two_groups }) {}
          = exec (save_bodies { list := true } none [] [] body >>= fun _ => pure 0) w₂
        ∨ ∃ e, exec (parse_file { list := true } none [] [] { rest := stream 0 two_groups }) {}
          = (.error e, w₂)) := by
  have hreturns : (exec (attr_loop { list := true } (parse_attr { list := true } none)
      { rest := two_groups.flatMap fun x => encode_raw x.1 x.2 } {}) {}).1.toBool = true := by
    decide +kernel
  match hloop : exec (attr_loop { list := true } (parse_attr { list := true } none)
      { rest := two_groups.flatMap fun x => encode_raw x.1 x.2 } {}) {} with
  | (.error e, w₁) =>
    rw [hloop] at hreturns
    exact absurd hreturns Bool.false_ne_true
  | (.ok (inp, s), w₁) =>
    obtain ⟨files, w₂, hfiles, hcalls, hrun⟩ := parse_file_groups { list := true } none [] [] 0
      two_groups false {} w₁ inp s hloop
    exact ⟨files, w₂, s.body, hfiles, hcalls, hrun⟩

end Tnef
