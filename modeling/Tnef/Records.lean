/-
What a run hands over, whoever receives it.

The records and the ending are fixed by the stream (`parse_file_records`); options, directory
and disk decide how far a run gets and what becomes of each record. Under `--interactive` that
is up to the answers: `parse_file_interactive` says which records the lines of standard input
let through, and that the disk is what a run without questions makes of these.
-/
import Tnef.NoClobber
import Tnef.Reading

set_option autoImplicit false

namespace Tnef

open ExceptRules Stateful

/-! ## The records of a stream -/

/-- A run is a beginning of its calls, all of them if none stops it. -/
inductive Goes (o : Options) (directory : Option (List UInt8)) (w : World) (files : List File)
    (ending : Except Stop ℕ) (r : Except Stop ℕ × World) : Prop
  | whole (hreturns : Returns (file_write o directory) w files) (hends : r.1 = ending)
      (hcalls : r.2.calls = w.calls ++ files)
      (hfiles : r.2.files = (after_calls o directory w files).files)
  | stopped (before : List File) (file : File) (rest : List File) (e : Stop)
      (hsplit : files = before ++ file :: rest)
      (hreturns : Returns (file_write o directory) w before)
      (hstop : (exec (file_write o directory file) (after_calls o directory w before)).1 = .error e)
      (hrun : r = (.error e, after_calls o directory w (before ++ [file])))

/-- **The records are a matter of the stream.** For every input there are records and an
ending such that a run, whatever it does with attachments, wherever it puts them and
whatever is there, calls `file_write` with these records, one after the other: either all
calls return, and the run ends with that ending, or the first that stops is the end of it. -/
theorem parse_file_records (o : Options) (body_filename body_pref : List UInt8) (inp : Input) :
    ∃ (files : List File) (ending : Except Stop ℕ), (∀ file ∈ files, Ready o file)
      ∧ ∀ (o' : Options) (directory : Option (List UInt8)) (w : World), o'.reading = o.reading →
        Goes o' directory w files ending
          (exec (parse_file o' directory body_filename body_pref inp) w) := by
  by_cases hsig : ∃ inp', read_signature inp = .ok (false, inp')
  · obtain ⟨inp', hsig⟩ := hsig
    refine ⟨[], .ok 1, ?_, fun o' directory w _ => ?_⟩
    · intro file hfile
      exact absurd hfile List.not_mem_nil
    · rw [parse_file_unknown hsig]
      exact .whole (returns_nil w) rfl (List.append_nil _).symm rfl
  · obtain ⟨s, hready, -, hrun⟩ := parse_file_hands_over (o := o) body_filename body_pref
      (not_exists.mp hsig)
    refine ⟨s.calls, s.ending, hready, fun o' directory w halike => ?_⟩
    have hsame : parse_file o' directory body_filename body_pref inp = _ := hrun ⟨o', directory, halike⟩
    rw [hsame]
    rcases s.exec_run (file_write o' directory) w with
      ⟨hreturns, hends⟩ | ⟨before, file, rest, e, hsplit, hreturns, hstop, hends⟩
    · have hboth : exec (s.run (Setting.write ⟨o', directory, halike⟩)) w
          = (s.ending, after_calls o' directory w s.calls) := hends
      rw [hboth]
      exact .whole hreturns rfl (after_calls_calls o' directory s.calls w) rfl
    · exact .stopped before file rest e hsplit hreturns hstop hends

/-! ## Questions -/

/-- Without `--interactive`. -/
def Options.unasked (o : Options) : Options := { o with confirm := false }

/-- The records for which a path can be made; these are asked about. -/
def questions (o : Options) (directory : Option (List UInt8)) (files : List File) : List File :=
  files.filter fun file => (file_path o directory file).toOption.isSome

def question (file : File) : List UInt8 :=
  ascii "extract " ++ (file.name.getD (strdup TNEF_DEFAULT_FILENAME)).text ++ ascii "?"

/-- A line that begins with `y` or `Y`. -/
def yes : List UInt8 → Bool
  | [] => false
  | c :: _ => c = 0x79 ∨ c = 0x59

/-- What is left of standard input behind one answer. -/
def unread (stdin : List UInt8) : List UInt8 := stdin.drop (fgets_length BUFSIZ stdin)

/-- The records that the answers let through. -/
def accepted : List UInt8 → List File → List File
  | _, [] => []
  | stdin, file :: files =>
    if yes stdin then file :: accepted (unread stdin) files else accepted (unread stdin) files

section Asked

variable {o : Options} (hconfirm : o.confirm = true) (hlist : o.list = false)
  (directory : Option (List UInt8))

/-- The path's record has the name that is asked about. -/
theorem file_path_question {file file' : File} {path : List UInt8} (hfresh : file.path = none)
    (h : file_path o directory file = .ok (file', path)) :
    ∃ name, (file'.name.getD (strdup [])).c_str = .ok name
      ∧ ascii "extract " ++ name ++ ascii "?" = question file := by
  unfold file_path at h
  rw [hfresh] at h
  simp only [bind_eq_ok, c_str_eq_ok_iff, pure_eq_ok, Except.ok.injEq, Prod.mk.injEq] at h
  obtain ⟨text, ⟨hname, -⟩, r, -, fpath, -, p, -, hrecord, -⟩ := h
  subst hrecord
  exact ⟨_, c_str_eq_ok_iff.mpr ⟨hname, rfl⟩, rfl⟩

include hconfirm in
/-- The question takes a line, whose first letter is the answer. -/
theorem confirm_action_asks (prompt : List UInt8) (w : World) :
    (exec (confirm_action o prompt) w).2
        = { w with stdout := w.stdout ++ prompt, stdin := unread w.stdin }
      ∧ ((exec (confirm_action o prompt) w).1 = .ok true ↔ yes w.stdin = true) := by
  obtain ⟨files, unwritable, stdin, stdout, calls⟩ := w
  rw [confirm_action, if_pos hconfirm]
  cases stdin with
  | nil => exact ⟨rfl, ⟨(fun h => by cases h), (fun h => by cases h)⟩⟩
  | cons c s =>
    refine ⟨rfl, ?_⟩
    show (Except.ok (decide (c = 0x79 ∨ c = 0x59)) : M Bool) = .ok true ↔ _
    rw [Except.ok.injEq]
    rfl

include hconfirm in
theorem extract_file_keeps_behind {κ : Type} {f : World → κ}
    (hf : ∀ w files, f { w with files := files } = f w) {file : File} {name : List UInt8}
    (hname : (file.name.getD (strdup [])).c_str = .ok name) (path : List UInt8) (w : World) :
    f (exec (extract_file o file path) w).2 = f { w with
      stdout := w.stdout ++ (ascii "extract " ++ name ++ ascii "?"), stdin := unread w.stdin } := by
  have hput : ∀ path bytes, Keeps f (put_file path bytes) := fun path bytes =>
    keeps_modify fun w => hf w _
  have hwrite : ∀ path, Keeps f (write_file file path) := by
    intro path
    unfold write_file
    refine keeps_get.bind fun w => ?_
    split_ifs
    · exact keeps_throw _
    · exact (hput path []).bind fun _ => (keeps_lift _).bind fun bytes => hput path bytes
  have hasked := (confirm_action_asks hconfirm (ascii "extract " ++ name ++ ascii "?") w).1
  unfold extract_file
  rw [hname, lift_ok, pure_bind, exec_bind, ← hasked]
  generalize exec (confirm_action o (ascii "extract " ++ name ++ ascii "?")) w = r
  obtain ⟨e | confirmed, w'⟩ := r
  · rfl
  · cases confirmed with
    | false => rfl
    | true =>
      refine (keeps_get.bind fun v => (keeps_lift _).bind fun r => ?_ : Keeps f _) w'
      rcases r with _ | path
      · exact keeps_pure _
      · exact (hwrite path).bind fun _ => keeps_pure _

include hconfirm hlist in
/-- **One question**: it is put and answered, and a yes leaves the record where it belongs. -/
theorem call_asked {file file' : File} {path : List UInt8} (hready : Ready o file)
    (hpath : file_path o directory file = .ok (file', path)) (w : World) :
    (call o directory w file).stdin = unread w.stdin
      ∧ (o.verbose = false → (call o directory w file).stdout = w.stdout ++ question file)
      ∧ (call o directory w file).files
        = if yes w.stdin then written_files o w file path else w.files := by
  obtain ⟨name, hname, hquestion⟩ := file_path_question directory hready.fresh hpath
  have hbehind : ∀ {κ : Type} {f : World → κ}, (∀ w files, f { w with files := files } = f w) →
      (∀ file path, Keeps f (list_written o file path)) →
      f (call o directory w file) = f { w with
        calls := w.calls ++ [file], stdout := w.stdout ++ question file, stdin := unread w.stdin } := by
    intro κ f hf hlisted
    have hextract := extract_file_keeps_behind hconfirm hf hname path { w with calls := w.calls ++ [file] }
    rw [hquestion] at hextract
    rw [call, file_write_of_path o directory hpath, hlist, if_neg Bool.false_ne_true, exec_bind,
      ← hextract]
    generalize exec (extract_file o file' path) { w with calls := w.calls ++ [file] } = r
    obtain ⟨e | written, w'⟩ := r
    · rfl
    · exact hlisted file' written w'
  refine ⟨?_, ?_, ?_⟩
  · refine hbehind (f := World.stdin) (fun _ _ => rfl) ?_
    intro file path w
    cases path with
    | none => rfl
    | some path =>
      -- the line is printed, and printing does not read
      have hline := (list_file_agree (R := fun v _ => v.stdin = w.stdin) (fun _ _ _ h => h) o file
        path).result (w := w) (v := w) rfl
      rw [list_written]
      split_ifs
      · exact hline.2
      · rfl
  · intro hquiet
    refine hbehind (f := World.stdout) (fun _ _ => rfl) ?_
    intro file path w
    cases path with
    | none => rfl
    | some path =>
      rw [list_written, if_neg (by rw [hlist, hquiet]; decide)]
      rfl
  · obtain ⟨prompt, hfiles⟩ := call_of_path o directory hready.fresh hlist hpath w
    rw [hfiles]
    have hyes := (confirm_action_asks hconfirm prompt { w with calls := w.calls ++ [file] }).2
    simp only at hyes
    split_ifs with h
    · rw [hyes.mpr h]
    · split
      · next hr => exact absurd (hyes.mp hr) h
      · rfl

include hlist in
/-- Unasked, the record goes where it belongs. -/
theorem call_unasked {file file' : File} {path : List UInt8} (hready : Ready o file)
    (hpath : file_path o directory file = .ok (file', path)) (w : World) :
    (call o.unasked directory w file).files = written_files o w file path := by
  obtain ⟨prompt, hfiles⟩ := call_of_path o.unasked directory hready.fresh hlist hpath w
  rw [hfiles]
  rfl

theorem written_files_congr {w v : World} (hfiles : v.files = w.files)
    (hunwritable : v.unwritable = w.unwritable) (file : File) (path : List UInt8) :
    written_files o v file path = written_files o w file path := by
  unfold written_files
  rw [free_path_congr o hfiles, hfiles, hunwritable]

/-- A call without a path is logged, and that is all. -/
theorem call_without_path (o : Options) (directory : Option (List UInt8)) {file : File} {e : Stop}
    (hpath : file_path o directory file = .error e) (w : World) :
    call o directory w file = { w with calls := w.calls ++ [file] } := by
  rw [call, file_write, hpath]
  rfl

theorem questions_cons (file : File) (files : List File) : questions o directory (file :: files)
    = if (file_path o directory file).toOption.isSome then file :: questions o directory files
      else questions o directory files := by
  rw [questions, List.filter_cons]
  rfl

include hconfirm hlist in
/-- **A sequence of questions.** -/
theorem after_calls_asked (files : List File) : ∀ {w v : World}, (∀ file ∈ files, Ready o file) →
    v.files = w.files → v.unwritable = w.unwritable →
    (after_calls o directory w files).stdin
        = (questions o directory files).foldl (fun stdin _ => unread stdin) w.stdin
      ∧ (o.verbose = false → (after_calls o directory w files).stdout
        = w.stdout ++ (questions o directory files).flatMap question)
      ∧ (after_calls o directory w files).files
        = (after_calls o.unasked directory v (accepted w.stdin (questions o directory files))).files := by
  induction files with
  | nil =>
    intro w v _ hfiles _
    exact ⟨rfl, fun _ => (List.append_nil _).symm, hfiles.symm⟩
  | cons file files ih =>
    intro w v hready hfiles hunwritable
    have hfile := hready file (List.mem_cons_self ..)
    have hrest := fun f hf => hready f (List.mem_cons_of_mem _ hf)
    have hkept : (call o directory w file).unwritable = w.unwritable :=
      file_write_keeps o unwritable_offDisk directory file w
    have hcons : after_calls o directory w (file :: files)
        = after_calls o directory (call o directory w file) files := rfl
    rw [hcons, questions_cons]
    cases hpath : file_path o directory file with
    | error e =>
      rw [if_neg (show ¬ (Except.error e : M (File × List UInt8)).toOption.isSome = true from
        Bool.false_ne_true), call_without_path o directory hpath]
      exact ih hrest hfiles hunwritable
    | ok r =>
      obtain ⟨file', path⟩ := r
      rw [if_pos (show (Except.ok (file', path) : M (File × List UInt8)).toOption.isSome = true from rfl)]
      obtain ⟨hstdin, hstdout, hdisk⟩ := call_asked hconfirm hlist directory hfile hpath w
      have hstep : ∃ v', v'.files = (call o directory w file).files
          ∧ v'.unwritable = (call o directory w file).unwritable
          ∧ after_calls o.unasked directory v (accepted w.stdin (file :: questions o directory files))
            = after_calls o.unasked directory v'
              (accepted (unread w.stdin) (questions o directory files)) := by
        rw [accepted, hdisk, hkept]
        split_ifs with h
        · refine ⟨call o.unasked directory v file, ?_, ?_, rfl⟩
          · rw [call_unasked hlist directory hfile hpath, written_files_congr hfiles hunwritable]
          · exact (file_write_keeps o.unasked unwritable_offDisk directory file v).trans hunwritable
        · exact ⟨v, hfiles, hunwritable, rfl⟩
      obtain ⟨v', hfiles', hunwritable', haccepted⟩ := hstep
      obtain ⟨hends, hprinted, hleft⟩ := ih hrest hfiles' hunwritable'
      rw [hstdin] at hends hleft
      refine ⟨hends, fun hquiet => ?_, ?_⟩
      · rw [hprinted hquiet, hstdout hquiet, List.flatMap_cons, List.append_assoc]
      · rw [haccepted]
        exact hleft

include hconfirm hlist in
/-- **An interactive run** asks about its records in order and takes for each a line, or as
much of it as `fgets` does, and the files are in the end what the records let through make of
them without questions. Nothing else is printed without `--verbose` and `--debug`, unless the
signature is wrong. -/
theorem parse_file_interactive (body_filename body_pref : List UInt8) (inp : Input) (w : World) :
    ∃ files, (∀ file ∈ files, Ready o file)
      ∧ (exec (parse_file o directory body_filename body_pref inp) w).2.calls = w.calls ++ files
      ∧ (exec (parse_file o directory body_filename body_pref inp) w).2.stdin
        = (questions o directory files).foldl (fun stdin _ => unread stdin) w.stdin
      ∧ ((∀ inp', read_signature inp ≠ .ok (false, inp')) → o.verbose = false →
        (exec (parse_file o directory body_filename body_pref inp) w).2.stdout
          = w.stdout ++ (questions o directory files).flatMap question)
      ∧ (exec (parse_file o directory body_filename body_pref inp) w).2.files
        = (after_calls o.unasked directory w (accepted w.stdin (questions o directory files))).files := by
  by_cases hsig : ∃ inp', read_signature inp = .ok (false, inp')
  · refine ⟨[], fun file hfile => absurd hfile List.not_mem_nil, ?_⟩
    obtain ⟨inp', hsig⟩ := hsig
    rw [parse_file_unknown hsig]
    exact ⟨(List.append_nil _).symm, rfl, fun h => absurd hsig (h inp'), rfl⟩
  · obtain ⟨s, hready, -, hrun⟩ := parse_file_hands_over (o := o) body_filename body_pref
      (not_exists.mp hsig)
    have hsame : parse_file o directory body_filename body_pref inp = _ := hrun ⟨o, directory, rfl⟩
    have hcalled : ∃ files, (∀ file ∈ files, Ready o file)
        ∧ (exec (s.run (Setting.write ⟨o, directory, rfl⟩)) w).2 = after_calls o directory w files := by
      rcases s.exec_run (file_write o directory) w with
        ⟨-, hends⟩ | ⟨before, file, rest, e, hsplit, -, -, hends⟩
      · exact ⟨s.calls, hready, congrArg Prod.snd hends⟩
      · refine ⟨before ++ [file], fun f hf => hready f ?_, congrArg Prod.snd hends⟩
        rw [hsplit, List.append_cons]
        exact List.mem_append_left _ hf
    obtain ⟨files, hfiles, hends⟩ := hcalled
    rw [hsame, hends]
    obtain ⟨hstdin, hstdout, hdisk⟩ := after_calls_asked hconfirm hlist directory files (w := w) (v := w)
      hfiles rfl rfl
    exact ⟨files, hfiles, after_calls_calls o directory files w, hstdin, fun _ => hstdout, hdisk⟩

end Asked

/-- One attachment, and a no. -/
theorem parse_file_interactive_witness :
    let o : Options := { confirm := true }
    let inp : Input := { rest := stream 0 one_attachment }
    let w : World := { stdin := ascii "no\n" }
    ∃ files, (∀ file ∈ files, Ready o file)
      ∧ (exec (parse_file o none [] [] inp) w).2.calls = [] ++ files
      ∧ (exec (parse_file o none [] [] inp) w).2.stdin
        = (questions o none files).foldl (fun stdin _ => unread stdin) w.stdin
      ∧ ((∀ inp', read_signature inp ≠ .ok (false, inp')) → o.verbose = false →
        (exec (parse_file o none [] [] inp) w).2.stdout
          = [] ++ (questions o none files).flatMap question)
      ∧ (exec (parse_file o none [] [] inp) w).2.files
        = (after_calls o.unasked none w (accepted w.stdin (questions o none files))).files :=
  parse_file_interactive rfl rfl none [] [] _ _

end Tnef
