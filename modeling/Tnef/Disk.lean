/-
The files a run leaves behind.

`call_files` says what one call of `file_write` does to the files: nothing, or the data
of its record go to one path, the one that `free_path` found. Over the calls of a run this
bounds the size of whatever is written (`parse_file_sizes`).
-/
import Tnef.Calls

set_option autoImplicit false

namespace Tnef

open ExceptRules Stateful

/-! ## One call -/

section Effect

variable (o : Options) (directory : Option (List UInt8))

/-- What ends up in a file that is opened: the data, or nothing if they cannot be read. -/
def File.contents (file : File) : List UInt8 := (data_bytes file).toOption.getD []

theorem File.contents_eq {file : File} {bytes : List UInt8} (h : data_bytes file = .ok bytes) :
    file.contents = bytes := by
  rw [File.contents, h]
  rfl

theorem write_file_files (file : File) (path : List UInt8) (w : World) :
    (exec (write_file file path) w).2.files = if w.unwritable path = true then w.files
      else Function.update w.files path (some file.contents) := by
  have hrun : exec (write_file file path) w = exec (if w.unwritable path then throw (.exit 1)
      else put_file path [] >>= fun _ => lift (data_bytes file) >>= put_file path) w := rfl
  rw [hrun]
  split_ifs
  · rfl
  · unfold File.contents
    match data_bytes file with
    | .error e => rfl
    | .ok bytes => exact Function.update_idem _ _ _

theorem free_path_congr {w w' : World} (h : w'.files = w.files) (path : List UInt8) :
    free_path o w' path = free_path o w path := by
  have hexists : file_exists w' = file_exists w := by
    funext p
    rw [file_exists, file_exists, h]
  simp only [free_path, hexists]

/-- The files and the paths that can be opened. -/
def World.disk (w : World) : (List UInt8 → Option (List UInt8)) × (List UInt8 → Bool) :=
  (w.files, w.unwritable)

theorem disk_offTerminal : OffTerminal World.disk := ⟨fun _ _ => rfl, fun _ _ => rfl⟩

theorem c_str_eq_ok_iff {b : Buffer} {text : List UInt8} :
    b.c_str = .ok text ↔ b.Terminated ∧ text = b.text := by
  unfold Buffer.c_str
  split_ifs with h
  · simp [h, eq_comm]
  · simp [h]

/-- For a record without a path: its name has been read, and only name and path differ. -/
theorem file_path_fresh {file file' : File} {path : List UInt8} (hfresh : file.path = none)
    (h : file_path o directory file = .ok (file', path)) :
    file'.contents = file.contents ∧ ∃ name, (file'.name.getD (strdup [])).c_str = .ok name := by
  unfold file_path at h
  rw [hfresh] at h
  simp only [bind_eq_ok, c_str_eq_ok_iff, pure_eq_ok, Except.ok.injEq, Prod.mk.injEq] at h
  obtain ⟨text, ⟨hname, -⟩, r, -, fpath, -, p, -, hrecord, -⟩ := h
  subst hrecord
  exact ⟨rfl, _, c_str_eq_ok_iff.mpr ⟨hname, rfl⟩⟩

/-- The files after the data of `file` have gone to a path that is free for `path`. -/
def written_files (w : World) (file : File) (path : List UInt8) :
    List UInt8 → Option (List UInt8) :=
  match free_path o w path with
  | .ok (some p) =>
    if w.unwritable p = true then w.files else Function.update w.files p (some file.contents)
  | _ => w.files

/-- The question does not touch the disk; a yes goes on to the free path. -/
theorem extract_file_files {file : File} {name : List UInt8}
    (hname : (file.name.getD (strdup [])).c_str = .ok name) (path : List UInt8) (w : World) :
    (exec (extract_file o file path) w).2.files
      = match (exec (confirm_action o (ascii "extract " ++ name ++ ascii "?")) w).1 with
        | .ok true => written_files o w file path
        | _ => w.files := by
  have hdisk := confirm_action_keeps o disk_offTerminal (ascii "extract " ++ name ++ ascii "?") w
  unfold extract_file
  rw [hname, lift_ok, pure_bind, exec_bind]
  match hrun : exec (confirm_action o (ascii "extract " ++ name ++ ascii "?")) w with
  | (.error e, w') =>
    rw [hrun] at hdisk
    exact congrArg Prod.fst hdisk
  | (.ok false, w') =>
    rw [hrun] at hdisk
    exact congrArg Prod.fst hdisk
  | (.ok true, w') =>
    rw [hrun] at hdisk
    -- asking changes the terminal only
    have hfiles : w'.files = w.files := congrArg Prod.fst hdisk
    have hunwritable : w'.unwritable = w.unwritable := congrArg Prod.snd hdisk
    simp only [if_true]
    unfold written_files
    rw [← free_path_congr o hfiles]
    show (exec (lift (free_path o w' path) >>= _) w').2.files = _
    match free_path o w' path with
    | .error e => exact hfiles
    | .ok none => exact hfiles
    | .ok (some p) =>
      show (exec (write_file file p >>= fun _ => pure (some p)) w').2.files = _
      rw [exec_bind_pure_snd, write_file_files, hfiles, hunwritable]

/-- The user, where asked, answers yes. -/
def Accepts (o : Options) (w : World) : Prop :=
  o.confirm = true → ∃ c s, w.stdin = c :: s ∧ (c = 0x79 ∨ c = 0x59)

theorem confirm_action_accepts {w : World} (h : Accepts o w) (prompt : List UInt8) :
    (exec (confirm_action o prompt) w).1 = .ok true := by
  unfold confirm_action
  by_cases hconfirm : o.confirm = true
  · obtain ⟨c, s, hstdin, hyes⟩ := h hconfirm
    rw [if_pos hconfirm]
    match w, hstdin with
    | ⟨files, unwritable, _, stdout, calls⟩, rfl =>
      show Except.ok (decide (c = 0x79 ∨ c = 0x59)) = _
      rw [decide_eq_true hyes]
  · rw [if_neg hconfirm]
    rfl

/-- A call once its path is known. -/
theorem file_write_of_path {file file' : File} {path : List UInt8}
    (hpath : file_path o directory file = .ok (file', path)) (w : World) :
    exec (file_write o directory file) w
      = exec (if o.list = true then list_written o file' (some path)
          else extract_file o file' path >>= list_written o file')
        { w with calls := w.calls ++ [file] } := by
  have hrun : exec (file_write o directory file) w
      = exec (if ¬ o.list = true then extract_file o file' path >>= list_written o file'
          else list_written o file' (some path)) { w with calls := w.calls ++ [file] } := by
    unfold file_write
    rw [hpath]
    rfl
  rw [hrun, ite_not]

/-- Behind the extraction a call only prints. -/
theorem call_files_of_path {file file' : File} {path : List UInt8} (hlist : o.list = false)
    (hpath : file_path o directory file = .ok (file', path)) (w : World) :
    (call o directory w file).files
      = (exec (extract_file o file' path) { w with calls := w.calls ++ [file] }).2.files := by
  rw [call, file_write_of_path o directory hpath, hlist, if_neg Bool.false_ne_true, exec_bind]
  match exec (extract_file o file' path) { w with calls := w.calls ++ [file] } with
  | (.error e, w') => rfl
  | (.ok written, w') => exact list_written_keeps o files_offTerminal file' written w'

/-- A call that goes to a path. -/
structure GoesTo (w : World) (file : File) (p : List UInt8) : Prop where
  extract : o.list = false
  path : ∃ file' path, file_path o directory file = .ok (file', path)
    ∧ free_path o w path = .ok (some p)
  writable : w.unwritable p = false

theorem call_of_path {file file' : File} {path : List UInt8} (hfresh : file.path = none)
    (hlist : o.list = false) (hpath : file_path o directory file = .ok (file', path)) (w : World) :
    ∃ prompt, (call o directory w file).files
      = match (exec (confirm_action o prompt) { w with calls := w.calls ++ [file] }).1 with
        | .ok true => written_files o w file path
        | _ => w.files := by
  obtain ⟨hcontents, name, hname⟩ := file_path_fresh o directory hfresh hpath
  refine ⟨ascii "extract " ++ name ++ ascii "?", ?_⟩
  rw [call_files_of_path o directory hlist hpath, extract_file_files o hname]
  have hsame : written_files o { w with calls := w.calls ++ [file] } file' path
      = written_files o w file path := by
    unfold written_files
    rw [hcontents]
    rfl
  rw [hsame]

/-- **A call leaves the files alone, or it puts the record's data at one path** that was
free for it. -/
theorem call_files {file : File} (hfresh : file.path = none) (w : World) :
    (call o directory w file).files = w.files
      ∨ ∃ p, GoesTo o directory w file p
        ∧ (call o directory w file).files = Function.update w.files p (some file.contents) := by
  match hpath : file_path o directory file with
  | .error e =>
    left
    rw [call, file_write, hpath]
    rfl
  | .ok (file', path) =>
    by_cases hlist : o.list = false
    · obtain ⟨prompt, hfiles⟩ := call_of_path o directory hfresh hlist hpath w
      rw [hfiles]
      split
      · unfold written_files
        split
        · next p hfree =>
          split_ifs with hunwritable
          · exact .inl rfl
          · right
            exact ⟨p, ⟨hlist, ⟨file', path, hpath, hfree⟩, by simpa using hunwritable⟩, rfl⟩
        · exact .inl rfl
      · exact .inl rfl
    · left
      rw [call, file_write_of_path o directory hpath, if_pos (by simpa using hlist)]
      exact list_written_keeps o files_offTerminal file' (some path) _

/-- An accepted call that goes to a path does put the data there. -/
theorem call_writes {file : File} (hfresh : file.path = none) {w : World} (haccepts : Accepts o w)
    {p : List UInt8} (hgoes : GoesTo o directory w file p) :
    (call o directory w file).files = Function.update w.files p (some file.contents) := by
  obtain ⟨file', path, hpath, hfree⟩ := hgoes.path
  obtain ⟨prompt, hfiles⟩ := call_of_path o directory hfresh hgoes.extract hpath w
  have hyes : (exec (confirm_action o prompt) { w with calls := w.calls ++ [file] }).1 = .ok true :=
    confirm_action_accepts o (w := { w with calls := w.calls ++ [file] }) haccepts prompt
  rw [hfiles, hyes]
  simp only
  unfold written_files
  rw [hfree]
  simp only
  rw [if_neg (by rw [hgoes.writable]; simp)]

end Effect

/-! ## The sizes of what is written -/

/-- Each path holds what it held before, or at most `size` bytes. -/
def Within (size : ℕ) (w w' : World) : Prop :=
  ∀ p, w'.files p = w.files p ∨ ∃ bytes, w'.files p = some bytes ∧ bytes.length ≤ size

theorem contents_length_le {o : Options} {file : File} (h : Filled o file) :
    file.contents.length = file.len := by
  obtain ⟨bytes, hbytes⟩ := h.data_bytes
  rw [File.contents_eq hbytes, data_bytes_length hbytes]

theorem Filled.len_le {o : Options} {file : File} (h : Filled o file) (hlimit : 0 < o.alloc_limit) :
    file.len ≤ o.alloc_limit := by
  rcases h.len_admits with hzero | hle
  · omega
  · exact hle

theorem after_calls_within {o : Options} (hlimit : 0 < o.alloc_limit)
    (directory : Option (List UInt8)) (files : List File) : ∀ w, (∀ file ∈ files, Ready o file) →
    Within o.alloc_limit w (after_calls o directory w files) := by
  induction files using List.reverseRecOn with
  | nil =>
    intro w _ p
    exact .inl rfl
  | append_singleton files file ih =>
    intro w hfiles p
    have hbefore := ih w (fun f hf => hfiles f (List.mem_append_left _ hf)) p
    have hfile := hfiles file (List.mem_append_right _ (List.mem_singleton_self _))
    have hstep : after_calls o directory w (files ++ [file])
        = call o directory (after_calls o directory w files) file := by
      rw [after_calls, List.foldl_append]
      rfl
    rw [hstep]
    rcases call_files o directory hfile.fresh (after_calls o directory w files) with hsame | hwrote
    · rw [hsame]
      exact hbefore
    · obtain ⟨q, -, hfiles'⟩ := hwrote
      rw [hfiles']
      by_cases hq : p = q
      · right
        refine ⟨file.contents, by rw [hq, Function.update_self], ?_⟩
        rw [contents_length_le hfile.filled]
        exact hfile.filled.len_le hlimit
      · rw [Function.update_of_ne hq]
        exact hbefore

/-- **The limit bounds every file that is written.** With a limit set, a run on any input
under any options calls `file_write` with records whose length is the size of their block
(zero without one) and at most the limit, and after every call of the run, and at its end,
each path holds what it held before or at most that many bytes. -/
theorem parse_file_sizes (o : Options) (hlimit : 0 < o.alloc_limit)
    (directory : Option (List UInt8)) (body_filename body_pref : List UInt8) (inp : Input)
    (w : World) :
    ∃ files, (exec (parse_file o directory body_filename body_pref inp) w).2.calls = w.calls ++ files
      ∧ (∀ file ∈ files, file.len ≤ o.alloc_limit
        ∧ (file.data.map Buffer.size).getD 0 = file.len)
      ∧ (∀ before, before <+: files → Within o.alloc_limit w (after_calls o directory w before))
      ∧ Within o.alloc_limit w (exec (parse_file o directory body_filename body_pref inp) w).2 := by
  obtain ⟨files, hready, hcalls, hfiles⟩ := parse_file_calls directory body_filename body_pref inp w
  refine ⟨files, hcalls, ?_, ?_, ?_⟩
  · intro file hfile
    have hfilled := (hready file hfile).filled
    refine ⟨hfilled.len_le hlimit, ?_⟩
    unfold Filled at hfilled
    match hdata : file.data, hfilled with
    | none, hfilled => exact hfilled.symm
    | some b, hfilled => exact hfilled.1
  · rintro before ⟨rest, rfl⟩
    exact after_calls_within hlimit directory before w fun f hf =>
      hready f (List.mem_append_left _ hf)
  · intro p
    rw [hfiles]
    exact after_calls_within hlimit directory files w hready p

/-- A limit of a hundred bytes, and a stream with one attachment of three. -/
theorem parse_file_sizes_witness :
    let o : Options := { alloc_limit := 100 }
    let inp : Input := { rest := stream 0 [(⟨.LVL_ATTACHMENT, szBYTE, attATTACHRENDDATA, [], by decide⟩, 0),
      (⟨.LVL_ATTACHMENT, szBYTE, attATTACHDATA, [1, 2, 3], by decide⟩, 6)] }
    ∃ files, (exec (parse_file o none [] [] inp) {}).2.calls = [] ++ files
      ∧ (∀ file ∈ files, file.len ≤ 100 ∧ (file.data.map Buffer.size).getD 0 = file.len)
      ∧ (∀ before, before <+: files → Within 100 {} (after_calls o none {} before))
      ∧ Within 100 {} (exec (parse_file o none [] [] inp) {}).2 :=
  parse_file_sizes { alloc_limit := 100 } (by decide) none [] [] _ {}

end Tnef
