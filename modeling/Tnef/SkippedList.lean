/-
A property list that is given up leaves no trace.

Under `--ignore-encode` the two consumers of a list do nothing when `mapi_attr_read` returns
NULL: what has been read in front of the property that is not decoded has only been in the
list. So an attribute of this kind can be taken out of the stream, and the run is the same
(`undecoded_list_skipped`): the same calls of `file_write`, the same files and messages, the
same end. What follows the attribute need not even be well formed.
-/
import Tnef.MapiSkip
import Tnef.StreamEnds

set_option autoImplicit false

namespace Tnef

open ExceptRules Stateful

/-! ## A pending record -/

/-- From the beginning of a group on there is a record to add to. -/
theorem pending_of_group {o : Options} {directory : Option (List UInt8)}
    (as : List (Attr × UInt16)) : ∀ {s s' : ParseState} {w w' : World},
    exec (as.foldlM (fun s x => lift (attr_gate o x.1 x.2) >>= fun _ => parse_attr o directory x.1 s) s)
      w = (.ok s', w') →
    (s.file.isSome ∨ ∃ x ∈ as, x.1.name = attATTACHRENDDATA) → s'.file.isSome := by
  induction as with
  | nil =>
    intro s s' w w' h hgroup
    cases h
    rcases hgroup with hsome | ⟨x, hx, -⟩
    · exact hsome
    · cases hx
  | cons x as ih =>
    intro s s' w w' h hgroup
    rw [List.foldlM_cons] at h
    obtain ⟨s₁, w₁, hone, h⟩ := exec_bind_eq_ok.mp h
    obtain ⟨_, w₂, hgate, hone⟩ := exec_bind_eq_ok.mp hone
    have hstep := parse_attr_step hone
    apply ih h
    -- a record that is added to stays one
    have hkeep : ∀ {file : Option File}, add_pending o file [x.1] = .ok s₁.file → file.isSome →
        s₁.file.isSome := by
      intro file hadd hsome
      obtain ⟨file, rfl⟩ := Option.isSome_iff_exists.mp hsome
      simp only [add_pending, bind_eq_ok, pure_eq_ok, Except.ok.injEq] at hadd
      obtain ⟨file', -, hfile⟩ := hadd
      rw [← hfile]
      rfl
    by_cases hname : x.1.name = attATTACHRENDDATA
    · rw [if_pos hname] at hstep
      exact .inl (hkeep hstep.2 rfl)
    · rw [if_neg hname] at hstep
      rcases hgroup with hsome | ⟨y, hy, hyname⟩
      · exact .inl (hkeep hstep.2 hsome)
      · rcases List.mem_cons.mp hy with rfl | hy
        · exact absurd hyname hname
        · exact .inr ⟨y, hy, hyname⟩

/-! ## Taking an attribute out -/

section Remove

variable {o : Options} (directory : Option (List UInt8)) (body_filename body_pref : List UInt8)

/-- **An attribute that changes nothing can be taken out.** -/
theorem parse_file_remove (key : UInt16) (before : List (Attr × UInt16)) {attr : Attr} {k : UInt16}
    (rest : List UInt8) (is_stdin : Bool) (w : World) (hgate : attr_gate o attr k = .ok ())
    (hname : attr.name ≠ attATTACHRENDDATA)
    (hidle : ∀ s w', exec (before.foldlM (fun s x => lift (attr_gate o x.1 x.2)
        >>= fun _ => parse_attr o directory x.1 s) {}) w = (.ok s, w') → add_attr o attr s = .ok s) :
    exec (parse_file o directory body_filename body_pref
        { rest := stream key before ++ (encode_raw attr k ++ rest), is_stdin := is_stdin }) w
      = exec (parse_file o directory body_filename body_pref
        { rest := stream key before ++ rest, is_stdin := is_stdin }) w := by
  have hbytes : attr_bytes before ++ (encode_raw attr k ++ rest)
      = attr_bytes (before ++ [(attr, k)]) ++ rest := by
    simp [attr_bytes]
  rw [stream_append, stream_append, hbytes, exec_parse_file, exec_parse_file, List.foldlM_append,
    exec_bind]
  generalize exec (before.foldlM (fun s x => lift (attr_gate o x.1 x.2)
    >>= fun _ => parse_attr o directory x.1 s) {}) w = folded at hidle ⊢
  obtain ⟨e | s, w₁⟩ := folded
  · rfl
  · have hturn : parse_attr o directory attr s = pure s := by
      rw [parse_attr, if_neg hname, pure_bind]
      exact congrArg lift (hidle s w₁ rfl)
    simp only
    rw [List.foldlM_cons, hgate, lift_ok, pure_bind, hturn]
    rfl

/-- Where the list of an attribute can be given up: in a message, or in a group. -/
def Placed (before : List (Attr × UInt16)) (attr : Attr) : Prop :=
  (attr.lvl_type = .LVL_MESSAGE ∧ attr.name = attMAPIPROPS)
    ∨ attr.lvl_type = .LVL_ATTACHMENT ∧ attr.name = attATTACHMENT
      ∧ ∃ x ∈ before, x.1.name = attATTACHRENDDATA

/-- **A list that is given up is skipped as a whole**, wherever in it the property stands that
is not decoded. -/
theorem undecoded_list_skipped (key : UInt16) (before : List (Attr × UInt16)) {attr : Attr}
    {k : UInt16} (rest : List UInt8) (is_stdin : Bool) (w : World) (hencode : o.encode_ok = true)
    (hgate : attr_gate o attr k = .ok ()) (hplaced : Placed before attr)
    (hlist : UndecodedList o attr) :
    exec (parse_file o directory body_filename body_pref
        { rest := stream key before ++ (encode_raw attr k ++ rest), is_stdin := is_stdin }) w
      = exec (parse_file o directory body_filename body_pref
        { rest := stream key before ++ rest, is_stdin := is_stdin }) w := by
  have hnull := mapi_attr_read_eq_none.mpr ⟨hencode, hlist⟩
  have hname : attr.name ≠ attATTACHRENDDATA := by
    rcases hplaced with ⟨-, hname⟩ | ⟨-, hname, -⟩ <;> rw [hname] <;> decide
  refine parse_file_remove directory body_filename body_pref key before rest is_stdin w hgate hname ?_
  intro s w' hbefore
  rcases hplaced with ⟨hlvl, hname⟩ | ⟨hlvl, hname, hgroup⟩
  · have hbody : message_attr o s.body attr = .ok s.body := by
      rw [message_attr, if_neg (by rw [hname]; decide), if_pos hname, hnull]
      rfl
    simp only [add_attr, hlvl]
    rw [hbody]
    rfl
  · -- the group has begun, so there is a record that the list would be added to
    obtain ⟨file, hfile⟩ := Option.isSome_iff_exists.mp (pending_of_group before hbefore (.inr hgroup))
    have hadd : file_add_attr o file attr = .ok file := by
      rw [file_add_attr, if_neg (by rw [hname]; decide), if_pos hname, hnull]
      rfl
    simp only [add_attr, hlvl, hfile]
    rw [hadd, ok_bind, ← hfile]
    rfl

end Remove

/-- A file name, and a property of the null type behind it. -/
def name_and_null : Attr :=
  ⟨.LVL_ATTACHMENT, szBYTE, attATTACHMENT, [2, 0, 0, 0, 0x1e, 0, 0x07, 0x37, 1, 0, 0, 0,
    2, 0, 0, 0, 97, 0, 0, 0, 1, 0, 0x01, 0x30], by decide⟩

/-- The name does not reach the record of the second group. -/
theorem undecoded_list_skipped_witness :
    exec (parse_file { encode_ok := true } none [] [] { rest := stream 0 two_groups
        ++ (encode_raw name_and_null (byte_sum name_and_null.data) ++ []) }) {}
      = exec (parse_file { encode_ok := true } none [] [] { rest := stream 0 two_groups ++ [] }) {} := by
  have hnull : mapi_attr_read { encode_ok := true } name_and_null.len name_and_null.buf = .ok none := by
    decide +kernel
  exact undecoded_list_skipped none [] [] 0 two_groups [] false {} rfl (by decide +kernel)
    (.inr ⟨rfl, rfl, _, List.mem_cons_self .., rfl⟩) (mapi_attr_read_eq_none.mp hnull).2

end Tnef
