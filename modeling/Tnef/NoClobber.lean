/-
What is on the disk is left there.

Without `--overwrite` a record only ever goes to a path that is free, so a run keeps every
path it finds and every path it has made. Under `--number-backups` each call makes one new
path, as long as one of the numbers up to 99999 is free: the block `find_free_number`
prints into has room for five digits.
-/
import Tnef.Disk
import Tnef.FreeNumber

set_option autoImplicit false

namespace Tnef

open ExceptRules Search Stateful

/-! ## A free path -/

/-- There is a place for `path`: it is free itself, or the block for a numbered one is
granted and a number of at most five digits is free. -/
def HasFree (o : Options) (w : World) (path : List UInt8) : Prop :=
  w.files path = none ∨ (path.length + 7 < 2 ^ 64 ∧ o.Admits (path.length + 7)
    ∧ ∃ n, 1 ≤ n ∧ n < 10 ^ 5 ∧ w.files (numbered path n) = none)

theorem file_exists_false {w : World} {p : List UInt8} :
    file_exists w p = false ↔ w.files p = none := by
  rw [file_exists, Option.isSome_eq_false_iff, Option.isNone_iff_eq_none]

section Free

variable {o : Options} (hover : o.overwrite = false) {w : World} {path : List UInt8}

include hover in
/-- **Without `--overwrite` the path a record goes to is free.** -/
theorem free_path_new {p : List UInt8} (h : free_path o w path = .ok (some p)) :
    w.files p = none := by
  unfold free_path at h
  simp only [hover, Bool.false_eq_true, not_false_eq_true, true_and] at h
  by_cases hexists : file_exists w path = true
  · rw [if_pos hexists] at h
    by_cases hnumbered : o.numbered = true
    · rw [if_neg (not_not.mpr hnumbered)] at h
      simp only [bind_eq_ok, pure_eq_ok, Except.ok.injEq, Option.some.injEq] at h
      obtain ⟨_, hnumber, rfl⟩ := h
      obtain ⟨-, n, ⟨hfound, -⟩, rfl⟩ := find_free_number_eq_ok.mp hnumber
      exact file_exists_false.mp (Bool.not_eq_true _ ▸ hfound.free)
    · rw [if_pos hnumbered] at h
      cases h
  · rw [if_neg hexists] at h
    cases h
    exact file_exists_false.mp (by simpa using hexists)

include hover in
/-- Under `--number-backups` there is such a path exactly when one has been left free. -/
theorem free_path_iff (hnumbered : o.numbered = true) :
    (∃ p, free_path o w path = .ok (some p)) ↔ HasFree o w path := by
  unfold free_path HasFree
  simp only [hover, hnumbered, Bool.false_eq_true, not_false_eq_true, true_and, not_true_eq_false,
    if_false]
  by_cases hexists : file_exists w path = true
  · have htaken : w.files path ≠ none := fun h => by
      rw [file_exists, h] at hexists
      exact Bool.false_ne_true hexists
    have hplace : (∃ n, Found (Taken (file_exists w) path) 1 n ∧ n < 10 ^ 5)
        ↔ ∃ n, 1 ≤ n ∧ n < 10 ^ 5 ∧ w.files (numbered path n) = none := by
      rw [exists_found_iff]
      simp only [Bool.not_eq_true, file_exists_false]
    rw [if_pos hexists]
    simp only [htaken, false_or, bind_eq_ok, pure_eq_ok, Except.ok.injEq, Option.some.injEq,
      find_free_number_eq_ok, ← hplace]
    constructor
    · rintro ⟨p, _, ⟨⟨hlt, hadm⟩, n, hfound, -⟩, -⟩
      exact ⟨hlt, hadm, n, hfound⟩
    · rintro ⟨hlt, hadm, n, hfound⟩
      exact ⟨_, _, ⟨⟨hlt, hadm⟩, n, hfound, rfl⟩, rfl⟩
  · rw [if_neg hexists]
    have hfree : w.files path = none := file_exists_false.mp (by simpa using hexists)
    exact ⟨fun _ => .inl hfree, fun _ => ⟨path, rfl⟩⟩

end Free

/-! ## One call -/

/-- The call makes one path that was not there, with the record's data, and touches no other. -/
def CreatesOne (o : Options) (directory : Option (List UInt8)) (w : World) (file : File) : Prop :=
  ∃ path bytes, w.files path = none ∧ data_bytes file = .ok bytes
    ∧ (call o directory w file).files = Function.update w.files path (some bytes)

/-- The record's name can be read and made into a path, and there is a place for it. -/
def Numberable (o : Options) (directory : Option (List UInt8)) (w : World) (file : File) : Prop :=
  ∃ file' path, file_path o directory file = .ok (file', path) ∧ HasFree o w path

section Call

variable {o : Options} (hover : o.overwrite = false) (directory : Option (List UInt8))

include hover in
/-- **One call** leaves the files alone or creates one path. -/
theorem call_creates {file : File} (hready : Ready o file) (w : World) :
    (call o directory w file).files = w.files ∨ CreatesOne o directory w file := by
  obtain ⟨bytes, hbytes⟩ := hready.filled.data_bytes
  rcases call_files o directory hready.fresh w with hsame | ⟨p, hgoes, hfiles⟩
  · exact .inl hsame
  · right
    obtain ⟨file', path, -, hfree⟩ := hgoes.path
    rw [File.contents_eq hbytes] at hfiles
    exact ⟨p, bytes, free_path_new hover hfree, hbytes, hfiles⟩

include hover in
/-- **Under `--number-backups` an accepted call creates a path exactly when there is a place
for one.** -/
theorem call_creates_iff {file : File} (hready : Ready o file) {w : World}
    (hlist : o.list = false) (hnumbered : o.numbered = true)
    (hwritable : ∀ p, w.unwritable p = false) (haccepts : Accepts o w) :
    CreatesOne o directory w file ↔ Numberable o directory w file := by
  constructor
  · rintro ⟨path, bytes, hnew, -, hfiles⟩
    rcases call_files o directory hready.fresh w with hsame | ⟨p, hgoes, -⟩
    · -- a new path is a change
      rw [hfiles] at hsame
      have hpath := congrFun hsame path
      rw [Function.update_self, hnew] at hpath
      cases hpath
    · obtain ⟨file', path', hpath, hfree⟩ := hgoes.path
      exact ⟨file', path', hpath, (free_path_iff hover hnumbered).mp ⟨p, hfree⟩⟩
  · rintro ⟨file', path, hpath, hplace⟩
    obtain ⟨p, hfree⟩ := (free_path_iff hover hnumbered).mpr hplace
    obtain ⟨bytes, hbytes⟩ := hready.filled.data_bytes
    have hgoes : GoesTo o directory w file p := ⟨hlist, ⟨file', path, hpath, hfree⟩, hwritable p⟩
    have hfiles := call_writes o directory hready.fresh haccepts hgoes
    rw [File.contents_eq hbytes] at hfiles
    exact ⟨p, bytes, free_path_new hover hfree, hbytes, hfiles⟩

include hover in
theorem call_keeps {file : File} (hready : Ready o file) {w : World} {p c : List UInt8}
    (h : w.files p = some c) : (call o directory w file).files p = some c := by
  rcases call_creates hover directory hready w with hsame | ⟨path, bytes, hnew, -, hfiles⟩
  · rw [hsame]
    exact h
  · have hne : p ≠ path := by
      rintro rfl
      rw [hnew] at h
      cases h
    rw [hfiles, Function.update_of_ne hne]
    exact h

/-! ## A run -/

include hover in
/-- A sequence of calls keeps every path. -/
theorem after_calls_keeps (files : List File) : ∀ {w : World} {p c : List UInt8},
    (∀ file ∈ files, Ready o file) → w.files p = some c →
    (after_calls o directory w files).files p = some c := by
  induction files with
  | nil =>
    intro w p c _ h
    exact h
  | cons file files ih =>
    intro w p c hready h
    have hone := call_keeps hover directory (hready file (List.mem_cons_self ..)) h
    exact ih (fun f hf => hready f (List.mem_cons_of_mem _ hf)) hone

theorem after_calls_append (w : World) (before after : List File) :
    after_calls o directory w (before ++ after)
      = after_calls o directory (after_calls o directory w before) after :=
  List.foldl_append ..

theorem after_calls_unwritable (files : List File) : ∀ w : World,
    (after_calls o directory w files).unwritable = w.unwritable := by
  induction files with
  | nil =>
    intro w
    rfl
  | cons file files ih =>
    intro w
    have hone : (call o directory w file).unwritable = w.unwritable :=
      file_write_keeps o unwritable_offDisk directory file w
    exact (ih (call o directory w file)).trans hone

include hover in
/-- **No path is clobbered.** Let `files` be the records a run without `--overwrite` calls
`file_write` with. After any number of these calls every path of the start is as it was; a
path that a call makes holds the data of that call's record, then and after every later
call; and under `--number-backups` an accepted call makes exactly one path if and only if
its record has a path and there is a place for it. -/
theorem parse_file_no_clobber (body_filename body_pref : List UInt8) (inp : Input) (w : World) :
    ∃ files, (exec (parse_file o directory body_filename body_pref inp) w).2.calls
        = w.calls ++ files
      ∧ (exec (parse_file o directory body_filename body_pref inp) w).2.files
        = (after_calls o directory w files).files
      ∧ (∀ before, before <+: files → ∀ p c, w.files p = some c →
        (after_calls o directory w before).files p = some c)
      ∧ (∀ before file after, files = before ++ file :: after → ∀ p c,
        (after_calls o directory w before).files p = none →
        (after_calls o directory w (before ++ [file])).files p = some c →
        data_bytes file = .ok c ∧ ∀ more, more <+: after →
          (after_calls o directory w (before ++ file :: more)).files p = some c)
      ∧ (o.list = false → o.numbered = true → (∀ p, w.unwritable p = false) →
        ∀ before file after, files = before ++ file :: after →
        Accepts o (after_calls o directory w before) →
        (CreatesOne o directory (after_calls o directory w before) file
          ↔ Numberable o directory (after_calls o directory w before) file)) := by
  obtain ⟨files, hready, hcalls, hfiles⟩ := parse_file_calls directory body_filename body_pref inp w
  refine ⟨files, hcalls, hfiles, ?_, ?_, ?_⟩
  · rintro before ⟨rest, rfl⟩ p c h
    exact after_calls_keeps hover directory before
      (fun f hf => hready f (List.mem_append_left _ hf)) h
  · rintro before file after rfl p c hnone hsome
    have hfile := hready file (List.mem_append_right _ (List.mem_cons_self ..))
    have hmade := hsome
    rw [after_calls_append] at hmade
    refine ⟨?_, ?_⟩
    · -- the only path that has changed is the one the data went to
      rcases call_creates hover directory hfile (after_calls o directory w before)
        with hsame | ⟨path, bytes, -, hbytes, hupdate⟩
      · have hstill : (call o directory (after_calls o directory w before) file).files p = some c :=
          hmade
        rw [hsame, hnone] at hstill
        cases hstill
      · have hstill : (call o directory (after_calls o directory w before) file).files p = some c :=
          hmade
        rw [hupdate] at hstill
        by_cases hp : p = path
        · rw [hp, Function.update_self] at hstill
          cases hstill
          exact hbytes
        · rw [Function.update_of_ne hp, hnone] at hstill
          cases hstill
    · rintro more ⟨rest, rfl⟩
      rw [List.append_cons, after_calls_append]
      apply after_calls_keeps hover directory more _ hsome
      intro f hf
      exact hready f (List.mem_append_right _ (List.mem_cons_of_mem _ (List.mem_append_left _ hf)))
  · rintro hlist hnumbered hwritable before file after rfl haccepts
    have hfile := hready file (List.mem_append_right _ (List.mem_cons_self ..))
    apply call_creates_iff hover directory hfile hlist hnumbered _ haccepts
    rw [after_calls_unwritable]
    exact hwritable

end Call

theorem no_data_fits : ([] : List UInt8).length < 2 ^ 32 := by decide

theorem title_fits : (ascii "a").length < 2 ^ 32 := by decide

/-- One attachment with the name `a` and one byte of data. -/
def one_attachment : List (Attr × UInt16) :=
  ([⟨.LVL_ATTACHMENT, szBYTE, attATTACHRENDDATA, [], no_data_fits⟩,
    ⟨.LVL_ATTACHMENT, szSTRING, attATTACHTITLE, ascii "a", title_fits⟩,
    ⟨.LVL_ATTACHMENT, szBYTE, attATTACHDATA, [7], by decide⟩] : List Attr).map
    fun attr => (attr, byte_sum attr.data)

theorem parse_file_no_clobber_witness :
    let o : Options := { numbered := true }
    let inp : Input := { rest := stream 0 one_attachment }
    let w : World := { files := fun p => if p = ascii "a" then some [1] else none }
    ∃ files, (exec (parse_file o none [] [] inp) w).2.calls = [] ++ files
      ∧ (exec (parse_file o none [] [] inp) w).2.files = (after_calls o none w files).files
      ∧ (∀ before, before <+: files → ∀ p c, w.files p = some c →
        (after_calls o none w before).files p = some c)
      ∧ (∀ before file after, files = before ++ file :: after → ∀ p c,
        (after_calls o none w before).files p = none →
        (after_calls o none w (before ++ [file])).files p = some c →
        data_bytes file = .ok c ∧ ∀ more, more <+: after →
          (after_calls o none w (before ++ file :: more)).files p = some c)
      ∧ (o.list = false → o.numbered = true → (∀ p, w.unwritable p = false) →
        ∀ before file after, files = before ++ file :: after →
        Accepts o (after_calls o none w before) →
        (CreatesOne o none (after_calls o none w before) file
          ↔ Numberable o none (after_calls o none w before) file)) :=
  parse_file_no_clobber rfl none [] [] _ _

/-- A disk on which `a` and every number a name of one letter can get is taken. -/
def crowded : World := { files := fun p => if p.length ≤ 7 then some [] else none }

/-- The record a run over `one_attachment` calls `file_write` with. -/
def attachment_a : File := { name := some (strdup (ascii "a")), len := 1, data := some (.full [7]) }

/-- Whatever is on the disk, this is the one call. -/
theorem one_attachment_calls (w : World) :
    (exec (parse_file { numbered := true } none [] [] { rest := stream 0 one_attachment }) w).2.calls
      = w.calls ++ [attachment_a] := by
  have hloop : exec (attr_loop { numbered := true } (parse_attr { numbered := true } none)
      { rest := one_attachment.flatMap fun x => encode_raw x.1 x.2 } {}) w
      = (.ok ({ rest := [], eof := true }, { file := some attachment_a }), w) := by
    have hbefore : ({ rest := one_attachment.flatMap fun x => encode_raw x.1 x.2 } : Input)
        = ({ rest := [] } : Input).before (one_attachment.flatMap fun x => encode_raw x.1 x.2) := rfl
    have hfold : exec (one_attachment.foldlM (fun s x => lift (attr_gate { numbered := true } x.1 x.2)
        >>= fun _ => parse_attr { numbered := true } none x.1 s) {}) w
        = (.ok { file := some attachment_a }, w) := rfl
    rw [hbefore, attr_loop_before _ _ rfl, exec_bind, hfold]
    simp only
    rw [attr_loop_end_of_input]
    rfl
  obtain ⟨files, w₂, hfiles, hcalls, hrun⟩ := parse_file_groups { numbered := true } none [] [] 0
    one_attachment false w w _ _ hloop
  have hone : files = [attachment_a] := by
    have hgroups : groups (one_attachment.map (·.1)) = [one_attachment.map (·.1)] := by rfl
    rw [hgroups] at hfiles
    cases hfiles with
    | cons hfile hnil =>
      cases hnil
      cases hfile
      rfl
  rcases hrun with hrun | ⟨e, hrun⟩
  · rw [hrun, ← hone, ← hcalls]
    rfl
  · rw [hrun, ← hone, ← hcalls]

/-- On the crowded disk there is no place for the name `a`. -/
theorem crowded_full : ¬ Numberable { numbered := true } none crowded attachment_a := by
  rintro ⟨file', path, hpath, hplace⟩
  have hname : (file_path { numbered := true } none attachment_a).map (·.2) = .ok (ascii "a") := by
    decide +kernel
  have ha : path = ascii "a" := by
    rw [hpath] at hname
    exact Except.ok.inj hname
  subst ha
  rcases hplace with hfree | ⟨-, -, n, -, hn, hfree⟩
  · cases hfree
  · -- one letter, a point and five digits are seven
    have hlen : (numbered (ascii "a") n).length ≤ 7 :=
      (@numbered_length_le_iff (ascii "a") n 5 (by decide)).mpr hn
    have htaken : crowded.files (numbered (ascii "a") n) = some [] := if_pos hlen
    rw [htaken] at hfree
    cases hfree

/-- The numbers run out: not every call under `--number-backups` makes a path. -/
theorem parse_file_numbers_run_out :
    ¬ ∀ (o : Options) (directory : Option (List UInt8)) (body_filename body_pref : List UInt8)
      (inp : Input) (w : World) (files : List File),
      o.overwrite = false → o.list = false → o.numbered = true → (∀ p, w.unwritable p = false) →
      (exec (parse_file o directory body_filename body_pref inp) w).2.calls = w.calls ++ files →
      ∀ before file after, files = before ++ file :: after →
        Accepts o (after_calls o directory w before) →
        CreatesOne o directory (after_calls o directory w before) file := by
  intro h
  have hcreates : CreatesOne { numbered := true } none crowded attachment_a :=
    h { numbered := true } none [] [] { rest := stream 0 one_attachment } crowded [attachment_a]
      rfl rfl rfl (fun _ => rfl) (one_attachment_calls crowded) [] attachment_a [] rfl
      (fun hconfirm => absurd hconfirm Bool.false_ne_true)
  have hready : Ready { numbered := true } attachment_a :=
    ⟨⟨rfl, rfl, .inl rfl⟩, rfl⟩
  apply crowded_full
  exact (call_creates_iff rfl none hready rfl rfl (fun _ => rfl)
    (fun hconfirm => absurd hconfirm Bool.false_ne_true)).mp hcreates

end Tnef
