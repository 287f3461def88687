/-
When writing a record goes wrong in memory.

A record whose name is a C string gets its path without a fault, as long as the lengths fit an
`int`: every escape, join and copy is inside its block. What is left are three ways of
`file_write` to read what is not there or to write what does not fit: the answer of a user who
has closed standard input, a number of six digits, and a MIME type or a content id without a
terminator in the listing (`file_write_fault_iff`).
-/
import Tnef.MapiDump
import Tnef.NoClobber
import Tnef.PathEscape

set_option autoImplicit false

namespace Tnef

open ExceptRules Stateful Search

/-! ## Paths -/

section Paths

variable (o : Options)

theorem kept_dir_length (m : List UInt8) : (kept_dir o m).length ≤ m.length + 1 := by
  unfold kept_dir windows_dir
  split_ifs
  · rw [List.length_append, List.length_map, List.length_singleton]
  · refine (List.dropWhile_suffix _).length_le.trans ?_
    rw [List.length_append, List.length_map, List.length_singleton]

/-- A name is cut in two; nothing is added. -/
theorem split_fname_sizes (fname : List UInt8) :
    ((split_fname o fname).1.getD []).length + (split_fname o fname).2.length ≤ fname.length := by
  by_cases hwin : o.paths = true ∧ could_be_a_windows_path fname = true
  · obtain ⟨m, b, rfl, -, -, -, hidx⟩ := windows_path_split hwin.2
    have hdir := kept_dir_length o m
    rw [split_fname_windows hwin.1 hwin.2 hidx, List.length_append, List.length_cons]
    split_ifs
    · show 0 + b.length ≤ _
      omega
    · show (kept_dir o m).length + b.length ≤ _
      omega
  · rw [split_fname_plain hwin]
    show 0 + fname.length ≤ _
    omega

/-- One turn of the loop. -/
theorem strip_slashes_cut (s : List UInt8) : strip_slashes s = s
    ∨ ∃ n < s.length, strip_slashes s = strip_slashes (s.take n) := by
  by_cases hsame : strip_slashes s = s
  · exact .inl hsame
  · right
    unfold strip_slashes at hsame
    generalize hlen : toInt s.length = len at hsame
    simp only at hsame
    by_cases hpos : 0 < len
    · rw [if_pos hpos] at hsame
      by_cases hidx : s[(len - 1).toNat]? = some slash
      · obtain ⟨hlt, -⟩ := List.getElem?_eq_some_iff.mp hidx
        refine ⟨_, hlt, ?_⟩
        subst hlen
        conv_lhs => unfold strip_slashes
        simp only
        rw [if_pos hpos, if_pos hidx]
      · rw [if_neg hidx] at hsame
        exact absurd rfl hsame
    · rw [if_neg hpos] at hsame
      exact absurd rfl hsame

theorem strip_slashes_length (s : List UInt8) : (strip_slashes s).length ≤ s.length := by
  induction hn : s.length using Nat.strong_induction_on generalizing s with
  | _ n ih =>
    subst hn
    rcases strip_slashes_cut s with hsame | ⟨k, hlt, hcut⟩
    · rw [hsame]
    · have htake : (s.take k).length < s.length := by
        rw [List.length_take]
        omega
      rw [hcut]
      exact (ih _ htake _ rfl).trans htake.le

/-- Two names whose lengths add up in an `int` are joined inside the block. -/
theorem concat_nonempty_avoids {fname1 fname2 : List UInt8}
    (hlen : fname1.length + fname2.length + 2 < 2 ^ 31) :
    Avoids .fault (fun r => r.length ≤ fname1.length + fname2.length + 1)
      (concat_nonempty o fname1 (some fname2)) := by
  have hjoin := join_fname_length fname1 fname2
  have hint : toInt (fname1.length + fname2.length) = (fname1.length + fname2.length : ℕ) :=
    toInt_of_lt (by omega)
  have hsize : ((((fname1.length + fname2.length : ℕ) : ℤ) + 2) % 2 ^ 64).toNat
      = fname1.length + fname2.length + 2 := by omega
  unfold concat_nonempty
  simp only [Option.getD_some, hint, hsize]
  rw [if_pos (by omega)]
  refine Avoids.bind (checked_xmalloc_ne_fault _ _ _ _) fun r hr => ?_
  obtain ⟨-, rfl⟩ := (checked_xmalloc_eq_ok (by omega)).mp hr
  rw [Buffer.fill_of_le (by rw [List.length_append, List.length_singleton]; omega), ok_bind,
    pure_eq_ok, avoids_ok]
  omega

/-- **Joining two names** of which the second is there. -/
theorem concat_fname_avoids {fname1 : Option (List UInt8)} {fname2 : List UInt8}
    (hlen : (fname1.getD []).length + fname2.length + 2 < 2 ^ 31) :
    Avoids .fault (fun r => ∀ p, r = some p → p.length ≤ (fname1.getD []).length + fname2.length + 1)
      (concat_fname o fname1 (some fname2)) := by
  have hcopy : Avoids .fault (fun r => r.length ≤ (fname1.getD []).length + fname2.length + 1)
      (copy_fnames o fname1 (some fname2)) := by
    unfold copy_fnames
    split
    · next hnil =>
      simp only [xstrdup, alloc_limit_assert_eq]
      split_ifs
      · show Avoids Stop.fault _ (Except.ok fname2)
        rw [avoids_ok]
        omega
      · exact avoids_error.mpr (by simp)
    · exact concat_nonempty_avoids o hlen
  unfold concat_fname
  rw [if_neg (fun hnone => absurd hnone.2 (by simp))]
  refine Avoids.bind hcopy.1 fun filename hfilename => ?_
  have hle := hcopy.2 filename hfilename
  split_ifs
  · rw [pure_eq_ok, avoids_ok]
    rintro p ⟨⟩
  · rw [pure_eq_ok, avoids_ok]
    rintro p ⟨⟩
    exact (strip_slashes_length filename).trans hle

/-- **The path of a name**: three bytes for each of its own, or the default. -/
theorem munge_fname_avoids {fname : List UInt8} (hlen : 3 * fname.length + 16 < 2 ^ 31) :
    Avoids .fault (fun r => (r.getD TNEF_DEFAULT_FILENAME).length ≤ 3 * fname.length + 8)
      (munge_fname o (some fname)) := by
  have hsplit := split_fname_sizes o fname
  cases fname with
  | nil =>
    show Avoids Stop.fault _ (Except.ok none)
    rw [avoids_ok]
    decide
  | cons c fname =>
    unfold munge_fname
    simp only [Option.getD_some]
    refine Avoids.bind (sanitize_filename_ne_fault o _) fun base hbase => ?_
    have hbaselen := (sanitize_length o (split_fname o (c :: fname)).2).2
    rw [sanitize_filename_ok hbase, encode_eq]
    have hconcat := @concat_fname_avoids o (split_fname o (c :: fname)).1
      ((split_fname o (c :: fname)).2.flatMap (sanitize_char o)) (by omega)
    refine Avoids.bind hconcat.1 fun r hr => ?_
    have hle := hconcat.2 r hr
    have hdefault : TNEF_DEFAULT_FILENAME.length = 8 := by decide
    split
    · rw [pure_eq_ok, avoids_ok, Option.getD_none]
      omega
    · rw [pure_eq_ok, avoids_ok]
      cases r with
      | none =>
        rw [Option.getD_none]
        omega
      | some p =>
        have hp := hle p rfl
        rw [Option.getD_some]
        omega

end Paths

/-! ## Records in order -/

/-- A record in order: it is ready to be written, and its name is a C string of at most `n`
bytes. -/
structure InOrder (o : Options) (n : ℕ) (file : File) : Prop where
  ready : Ready o file
  named : ∀ b, file.name = some b → b.Terminated ∧ b.text.length ≤ n

theorem in_order_empty (o : Options) (n : ℕ) : InOrder o n {} := ⟨ready_empty o, nofun⟩

/-- The record once `file_write` has given it its name and its path; the rest is as in `file`. -/
structure Prepared (file file' : File) : Prop where
  named : ∃ b, file'.name = some b ∧ b.Terminated
  bytes : ∃ bs, data_bytes file' = .ok bs
  same : file'.dt = file.dt ∧ file'.mime_type = file.mime_type ∧ file'.content_id = file.content_id

section Write

variable {o : Options}

/-- **The path of a record** is made without a fault. -/
theorem file_path_avoids {directory : Option (List UInt8)} {file : File} {n : ℕ}
    (hfile : InOrder o n file) (hn : 8 ≤ n) (hlen : (directory.getD []).length + 3 * n + 16 < 2 ^ 31) :
    Avoids .fault (fun r => Prepared file r.1) (file_path o directory file) := by
  have hname : (file.name.getD (strdup TNEF_DEFAULT_FILENAME)).Terminated
      ∧ (file.name.getD (strdup TNEF_DEFAULT_FILENAME)).text.length ≤ n := by
    cases hsome : file.name with
    | none => exact ⟨by decide, (show _ ≤ 8 by decide).trans hn⟩
    | some b => exact hfile.named b hsome
  obtain ⟨hterminated, hle⟩ := hname
  unfold file_path
  rw [hfile.ready.fresh]
  simp only [c_str_of_terminated hterminated, ok_bind]
  have hmunge := @munge_fname_avoids o
    (file.name.getD (strdup TNEF_DEFAULT_FILENAME)).text (by omega)
  refine Avoids.bind hmunge.1 fun r hr => ?_
  have hrlen := hmunge.2 r hr
  rw [pure_eq_ok, ok_bind]
  have hconcat := @concat_fname_avoids o directory (r.getD TNEF_DEFAULT_FILENAME) (by omega)
  refine Avoids.bind hconcat.1 fun p _ => ?_
  rw [pure_eq_ok, avoids_ok]
  exact ⟨⟨_, rfl, hterminated⟩, hfile.ready.filled.data_bytes, rfl, rfl, rfl⟩

/-! ## The listing -/

/-- The line printed for the record goes on behind a string that has no terminator. -/
structure Unprintable (o : Options) (file : File) : Prop where
  listmime : o.listmime = true
  date : o.list = true ∧ o.verbose = true → file.dt.dow.toNat ≤ 6
  string : ∃ b, (file.mime_type = some b ∨ file.content_id = some b) ∧ ¬ b.Terminated

/-- Reading a string of the record, if it has one. -/
def read_string (s : Option Buffer) : M Unit :=
  match s with
  | none => .ok ()
  | some b => do let _ ← b.c_str

theorem read_string_terminated {s : Option Buffer} (h : ∀ b, s = some b → b.Terminated) :
    read_string s = .ok () := by
  cases s with
  | none => rfl
  | some b =>
    rw [read_string, c_str_of_terminated (h b rfl)]
    rfl

theorem read_string_unterminated {b : Buffer} (h : ¬ b.Terminated) :
    read_string (some b) = .error .fault := by
  rw [read_string, Buffer.c_str, if_neg h]
  rfl

theorem print_results (text : List UInt8) : Results (.ok ()) (print text) := results_modify _

theorem print_or_results (s : Option Buffer) (default : List UInt8) :
    Results (read_string s) (print_or s default) := by
  unfold print_or
  cases s with
  | none => exact print_results default
  | some b => exact (results_lift b.c_str).bind fun _ => print_results _

/-- How the two parts of the listing end that not every option set prints. -/
def date_result (o : Options) (file : File) : M Unit :=
  if o.list ∧ o.verbose then do let _ ← date_to_str file.dt
  else .ok ()

def mime_result (o : Options) (file : File) : M Unit :=
  if o.listmime then do
    read_string file.mime_type
    read_string file.content_id
  else .ok ()

theorem list_file_results (file : File) (path : List UInt8) :
    Results (do date_result o file; read_string file.name; mime_result o file)
      (list_file o file path) := by
  have hdate : Results (date_result o file) (list_length_and_date o file) := by
    unfold list_length_and_date date_result
    split_ifs
    · exact (results_lift _).bind fun _ => print_results _
    · exact results_pure ()
  have hmime : Results (mime_result o file) (list_mime o file) := by
    unfold list_mime mime_result
    split_ifs
    · exact (print_results _).bind fun _ => (print_or_results _ _).bind fun _ =>
        (print_results _).bind fun _ => print_or_results _ _
    · exact results_pure ()
  have hall := hdate.bind fun _ => (print_or_results file.name []).bind fun _ =>
    (print_results (separator ++ path)).bind fun _ => hmime.bind fun _ => print_results [0x0a]
  have heq : ∀ m : M Unit, (m >>= fun _ => .ok ()) = m := fun m => by cases m <;> rfl
  simp only [ok_bind, heq] at hall
  exact hall

theorem date_result_fault (file : File) : date_result o file ≠ .error .fault
    ∧ (date_result o file = .ok () ↔ (o.list = true ∧ o.verbose = true → file.dt.dow.toNat ≤ 6)) := by
  unfold date_result
  by_cases hdate : o.list = true ∧ o.verbose = true
  · have hassert : (date_to_str file.dt >>= fun _ => .ok ())
        = assert (file.dt.dow.toNat ≤ 6) := by
      unfold date_to_str dow_str
      cases assert (file.dt.dow.toNat ≤ 6) <;> rfl
    rw [if_pos hdate]
    show (date_to_str file.dt >>= fun _ => .ok ()) ≠ _ ∧ ((date_to_str file.dt >>= fun _ => .ok ()) = _ ↔ _)
    rw [hassert]
    exact ⟨assert_ne_fault _, assert_eq_ok.trans ⟨fun h _ => h, fun h => h hdate⟩⟩
  · rw [if_neg hdate]
    exact ⟨by simp, ⟨fun _ h => absurd h hdate, fun _ => rfl⟩⟩

theorem mime_result_fault (file : File) : mime_result o file = .error .fault
    ↔ o.listmime = true ∧ ∃ b, (file.mime_type = some b ∨ file.content_id = some b) ∧ ¬ b.Terminated := by
  unfold mime_result
  by_cases hlist : o.listmime = true
  · rw [if_pos hlist]
    by_cases hmime : ∃ b, file.mime_type = some b ∧ ¬ b.Terminated
    · obtain ⟨b, hb, hnot⟩ := hmime
      rw [hb, read_string_unterminated hnot, error_bind]
      exact ⟨fun _ => ⟨hlist, b, .inl rfl, hnot⟩, fun _ => rfl⟩
    · have hread : ∀ b, file.mime_type = some b → b.Terminated := by
        intro b hb
        by_contra hnot
        exact hmime ⟨b, hb, hnot⟩
      rw [read_string_terminated hread, ok_bind]
      by_cases hid : ∃ b, file.content_id = some b ∧ ¬ b.Terminated
      · obtain ⟨b, hb, hnot⟩ := hid
        rw [hb, read_string_unterminated hnot]
        exact ⟨fun _ => ⟨hlist, b, .inr rfl, hnot⟩, fun _ => rfl⟩
      · have hread' : ∀ b, file.content_id = some b → b.Terminated := by
          intro b hb
          by_contra hnot
          exact hid ⟨b, hb, hnot⟩
        rw [read_string_terminated hread']
        constructor
        · intro h
          cases h
        · rintro ⟨-, b, hb | hb, hnot⟩
          · exact absurd (hread b hb) hnot
          · exact absurd (hread' b hb) hnot
  · rw [if_neg hlist]
    constructor
    · intro h
      cases h
    · intro h
      exact absurd h.1 hlist

/-- **The listing goes wrong** on a string without a terminator, and on nothing else. -/
theorem list_file_fault_iff {file file' : File} (hfile : Prepared file file') (path : List UInt8)
    (w : World) : (exec (list_file o file' path) w).1 = .error .fault ↔ Unprintable o file := by
  obtain ⟨⟨b, hb, hterminated⟩, -, hdt, hmime, hid⟩ := hfile
  have hname : read_string file'.name = .ok () := by
    rw [hb]
    exact read_string_terminated fun b' hb' => by cases hb'; exact hterminated
  obtain ⟨hnever, hdate⟩ := date_result_fault (o := o) file'
  rw [list_file_results file' path w, hname]
  have hmimefault := mime_result_fault (o := o) file'
  rw [hmime, hid] at hmimefault
  rw [hdt] at hdate
  constructor
  · intro h
    rcases bind_eq_error.mp h with hstop | ⟨_, hok, h⟩
    · exact absurd hstop hnever
    · rw [ok_bind, hmimefault] at h
      exact ⟨h.1, hdate.mp hok, h.2⟩
  · rintro ⟨hlist, hdow, hstring⟩
    rw [hdate.mpr hdow, ok_bind, ok_bind]
    exact hmimefault.mpr ⟨hlist, hstring⟩

/-! ## The file -/

/-- The path is taken, and so is every number that fits in the block. -/
structure NumbersOut (o : Options) (files : List UInt8 → Option (List UInt8)) (path : List UInt8) :
    Prop where
  kept : o.overwrite = false
  counts : o.numbered = true
  taken : files path ≠ none
  granted : path.length + 7 < 2 ^ 64 ∧ o.Admits (path.length + 7)
  numbers : ∀ n, 1 ≤ n → n < 10 ^ 5 → files (numbered path n) ≠ none

theorem find_free_number_fault_iff (file_exists : List UInt8 → Bool) (path : List UInt8) :
    find_free_number o file_exists path = .error .fault
      ↔ (path.length + 7 < 2 ^ 64 ∧ o.Admits (path.length + 7))
        ∧ ∀ n, 1 ≤ n → n < 10 ^ 5 → file_exists (numbered path n) = true := by
  have hloop : ∀ e, find_free_number_loop file_exists path 1 = .error e → e = .fault := by
    intro e
    induction (1 : ℕ) using find_free_number_loop.induct file_exists path with
    | case1 counter hfits hexists ih =>
      rw [find_free_number_loop, dif_pos hfits, if_pos hexists]
      exact ih
    | case2 counter hfits hexists =>
      rw [find_free_number_loop, dif_pos hfits, if_neg hexists]
      intro h
      cases h
    | case3 counter hfits =>
      rw [find_free_number_loop, dif_neg hfits]
      intro h
      cases h
      rfl
  have hfound : (∃ p, find_free_number_loop file_exists path 1 = .ok p)
      ↔ ∃ n, 1 ≤ n ∧ n < 10 ^ 5 ∧ ¬ file_exists (numbered path n) = true := by
    simp only [find_free_number_loop_eq_ok]
    rw [← exists_found_iff]
    constructor
    · rintro ⟨p, n, hn, -⟩
      exact ⟨n, hn⟩
    · rintro ⟨n, hn⟩
      exact ⟨_, n, hn, rfl⟩
  have hrun : find_free_number o file_exists path
      = checked_xmalloc o (path.length + 1 + 5 + 1) 1 0
        >>= fun _ => find_free_number_loop file_exists path 1 := rfl
  rw [hrun, bind_eq_error]
  constructor
  · rintro (hstop | ⟨r, hgrant, hrest⟩)
    · exact absurd hstop (checked_xmalloc_ne_fault _ _ _ _)
    · obtain ⟨hlt, hadm, -⟩ := numbered_request.mp hgrant
      refine ⟨⟨hlt, hadm⟩, fun n hle hn => ?_⟩
      by_contra hfree
      obtain ⟨p, hp⟩ := hfound.mpr ⟨n, hle, hn, hfree⟩
      rw [hp] at hrest
      cases hrest
  · rintro ⟨⟨hlt, hadm⟩, hall⟩
    refine .inr ⟨_, numbered_request.mpr ⟨hlt, hadm, rfl⟩, ?_⟩
    cases hloop' : find_free_number_loop file_exists path 1 with
    | error e => rw [hloop e hloop']
    | ok p =>
      obtain ⟨n, hle, hn, hfree⟩ := hfound.mp ⟨p, hloop'⟩
      exact absurd (hall n hle hn) hfree

theorem free_path_fault_iff (w : World) (path : List UInt8) :
    free_path o w path = .error .fault ↔ NumbersOut o w.files path := by
  have hexists : ∀ p, file_exists w p = true ↔ w.files p ≠ none := by
    intro p
    rw [ne_eq, ← file_exists_false, Bool.not_eq_false]
  unfold free_path
  by_cases htaken : ¬ o.overwrite = true ∧ file_exists w path = true
  · rw [if_pos htaken]
    by_cases hnumbered : o.numbered = true
    · have hbind : (find_free_number o (file_exists w) path >>= fun p => (.ok (some p) : M _)) = .error .fault
          ↔ find_free_number o (file_exists w) path = .error .fault := by
        cases find_free_number o (file_exists w) path with
        | error e => rw [error_bind, Except.error.injEq, Except.error.injEq]
        | ok p => simp
      rw [if_neg (not_not.mpr hnumbered)]
      refine hbind.trans ?_
      rw [find_free_number_fault_iff]
      simp only [hexists]
      exact ⟨fun h => ⟨by simpa using htaken.1, hnumbered, (hexists path).mp htaken.2, h.1, h.2⟩,
        fun h => ⟨h.granted, h.numbers⟩⟩
    · rw [if_pos hnumbered]
      exact ⟨fun h => (by cases h), fun h => absurd h.counts hnumbered⟩
  · rw [if_neg htaken]
    exact ⟨fun h => (by cases h), fun h =>
      absurd ⟨by simp [h.kept], (hexists path).mpr h.taken⟩ htaken⟩

/-- The user is asked and there is no answer, not even an empty line. -/
def Unanswered (o : Options) (w : World) : Prop := o.confirm = true ∧ w.stdin = []

/-- How the question ends. -/
theorem confirm_action_cases (prompt : List UInt8) (w : World) :
    (Unanswered o w ∧ (exec (confirm_action o prompt) w).1 = .error .fault)
      ∨ (¬ Unanswered o w ∧ Accepts o w ∧ (exec (confirm_action o prompt) w).1 = .ok true)
      ∨ (¬ Unanswered o w ∧ ¬ Accepts o w ∧ (exec (confirm_action o prompt) w).1 = .ok false) := by
  by_cases hconfirm : o.confirm = true
  · obtain ⟨files, unwritable, stdin, stdout, calls⟩ := w
    cases stdin with
    | nil =>
      refine .inl ⟨⟨hconfirm, rfl⟩, ?_⟩
      rw [confirm_action, if_pos hconfirm]
      rfl
    | cons c s =>
      have hanswered : ¬ Unanswered o ⟨files, unwritable, c :: s, stdout, calls⟩ := by
        rintro ⟨-, h⟩
        cases h
      by_cases hyes : c = 0x79 ∨ c = 0x59
      · have haccepts : Accepts o ⟨files, unwritable, c :: s, stdout, calls⟩ := fun _ => ⟨c, s, rfl, hyes⟩
        exact .inr (.inl ⟨hanswered, haccepts, confirm_action_accepts o haccepts prompt⟩)
      · refine .inr (.inr ⟨hanswered, ?_, ?_⟩)
        · intro haccepts
          obtain ⟨c', s', heq, hyes'⟩ := haccepts hconfirm
          cases heq
          exact hyes hyes'
        · rw [confirm_action, if_pos hconfirm]
          show Except.ok (decide (c = 0x79 ∨ c = 0x59)) = _
          rw [decide_eq_false hyes]
  · have haccepts : Accepts o w := fun h => absurd h hconfirm
    exact .inr (.inl ⟨fun h => hconfirm h.1, haccepts, confirm_action_accepts o haccepts prompt⟩)

theorem write_file_fault {file : File} {bytes : List UInt8} (hbytes : data_bytes file = .ok bytes)
    (p : List UInt8) (w : World) : exec (write_file file p) w
      = if w.unwritable p = true then (.error (.exit 1), w)
        else (.ok (), { w with files := Function.update (Function.update w.files p (some [])) p (some bytes) }) := by
  unfold write_file
  rw [exec_get_bind]
  split_ifs
  · rfl
  · rw [hbytes, lift_ok]
    rfl

/-- Where the data of the record go, if the user is asked nothing or says yes. -/
def Lands (o : Options) (w : World) (path p : List UInt8) : Prop :=
  Accepts o w ∧ free_path o w path = .ok (some p) ∧ w.unwritable p = false

theorem Accepts.answered {w : World} (h : Accepts o w) : ¬ Unanswered o w := by
  rintro ⟨hconfirm, hstdin⟩
  obtain ⟨c, s, heq, -⟩ := h hconfirm
  rw [hstdin] at heq
  cases heq

/-- **Extracting a record**: how it ends. -/
theorem extract_file_ends {file file' : File} (hfile : Prepared file file') (path : List UInt8)
    (w : World) :
    ((exec (extract_file o file' path) w).1 = .error .fault
        ↔ Unanswered o w ∨ (Accepts o w ∧ NumbersOut o w.files path))
      ∧ ∀ p, (exec (extract_file o file' path) w).1 = .ok (some p) ↔ Lands o w path p := by
  obtain ⟨⟨b, hb, hterminated⟩, ⟨bytes, hbytes⟩, -⟩ := hfile
  have hdisk := confirm_action_keeps o disk_offTerminal (ascii "extract " ++ b.text ++ ascii "?") w
  have hcases := confirm_action_cases (o := o) (ascii "extract " ++ b.text ++ ascii "?") w
  unfold extract_file
  rw [hb, Option.getD_some, c_str_of_terminated hterminated, lift_ok, pure_bind, exec_bind]
  rcases hasked : exec (confirm_action o (ascii "extract " ++ b.text ++ ascii "?")) w with ⟨answer, w'⟩
  rw [hasked] at hdisk hcases
  have hfree : free_path o w' path = free_path o w path := free_path_congr o (congrArg Prod.fst hdisk) path
  have hunwritable : w'.unwritable = w.unwritable := congrArg Prod.snd hdisk
  rcases hcases with ⟨hun, hanswer⟩ | ⟨hun, haccepts, hanswer⟩ | ⟨hun, haccepts, hanswer⟩
  · simp only at hanswer
    subst hanswer
    refine ⟨iff_of_true rfl (.inl hun), fun p => iff_of_false ?_ fun h => h.1.answered hun⟩
    intro h
    cases h
  · simp only at hanswer
    subst hanswer
    simp only [if_true, exec_get_bind, hfree, ← free_path_fault_iff, Lands]
    rcases free_path o w path with e | _ | q
    · refine ⟨?_, fun p => iff_of_false (fun h => by cases h) (fun h => by cases h.2.1)⟩
      exact ⟨fun h => .inr ⟨haccepts, h⟩, fun h => h.elim (absurd · hun) fun h => h.2⟩
    · refine ⟨iff_of_false (fun h => by cases h) ?_,
        fun p => iff_of_false (fun h => by cases h) (fun h => by cases h.2.1)⟩
      rintro (h | ⟨-, h⟩)
      · exact hun h
      · cases h
    · simp only [lift_ok, pure_bind]
      rw [exec_bind, write_file_fault hbytes, hunwritable]
      by_cases hq : w.unwritable q = true
      · rw [if_pos hq]
        refine ⟨iff_of_false (fun h => by cases h) ?_, fun p => iff_of_false (fun h => by cases h) ?_⟩
        · rintro (h | ⟨-, h⟩)
          · exact hun h
          · cases h
        · rintro ⟨-, hp, hwritable⟩
          cases hp
          rw [hq] at hwritable
          cases hwritable
      · rw [if_neg hq]
        refine ⟨iff_of_false (fun h => by cases h) ?_, fun p => ?_⟩
        · rintro (h | ⟨-, h⟩)
          · exact hun h
          · cases h
        · constructor
          · intro h
            cases h
            exact ⟨haccepts, rfl, by simpa using hq⟩
          · rintro ⟨-, hp, -⟩
            cases hp
            rfl
  · simp only at hanswer
    subst hanswer
    refine ⟨iff_of_false (fun h => by cases h) ?_,
      fun p => iff_of_false (fun h => by cases h) fun h => haccepts h.1⟩
    rintro (h | ⟨h, -⟩)
    · exact hun h
    · exact haccepts h

/-! ## A call -/

/-- What makes a call of `file_write` go wrong: the listing under `--list`, and otherwise the
question, the number or, under `--verbose`, the line behind the extraction. -/
def WriteFaults (o : Options) (directory : Option (List UInt8)) (w : World) (file : File) : Prop :=
  ∃ file' path, file_path o directory file = .ok (file', path)
    ∧ ((o.list = true ∧ Unprintable o file)
      ∨ (o.list = false ∧ (Unanswered o w ∨ (Accepts o w ∧ NumbersOut o w.files path)
        ∨ (∃ p, Lands o w path p) ∧ o.verbose = true ∧ Unprintable o file)))

theorem list_written_fault_iff {file file' : File} (hfile : Prepared file file')
    (path : List UInt8) (w : World) : (exec (list_written o file' (some path)) w).1 = .error .fault
      ↔ (o.list = true ∨ o.verbose = true) ∧ Unprintable o file := by
  unfold list_written
  simp only
  split_ifs with hlist
  · rw [list_file_fault_iff hfile, and_iff_right hlist]
  · exact iff_of_false (fun h => by cases h) fun h => hlist h.1

/-- **When a call goes wrong.** -/
theorem file_write_fault_iff {directory : Option (List UInt8)} {file : File} {n : ℕ}
    (hfile : InOrder o n file) (hn : 8 ≤ n) (hlen : (directory.getD []).length + 3 * n + 16 < 2 ^ 31)
    (w : World) : (exec (file_write o directory file) w).1 = .error .fault
      ↔ WriteFaults o directory w file := by
  obtain ⟨hnever, hwritten⟩ := file_path_avoids hfile hn hlen
  unfold WriteFaults
  rcases hpath : file_path o directory file with e | ⟨file', path⟩
  · have hrun : (exec (file_write o directory file) w).1 = .error e := by
      rw [file_write, hpath]
      rfl
    rw [hrun]
    constructor
    · intro h
      rw [hpath, Except.error.inj h] at hnever
      exact absurd rfl hnever
    · rintro ⟨_, _, h, -⟩
      cases h
  · have hrecord : Prepared file file' := hwritten _ hpath
    rw [file_write_of_path o directory hpath]
    simp only [Except.ok.injEq, Prod.mk.injEq, exists_eq_left', exists_and_left, and_assoc]
    by_cases hlist : o.list = true
    · rw [if_pos hlist, list_written_fault_iff hrecord]
      simp [hlist]
    · obtain ⟨hfault, hsome⟩ := extract_file_ends (o := o) hrecord path
        { w with calls := w.calls ++ [file] }
      have hoff : o.list = false := by simpa using hlist
      rw [if_neg hlist, exec_bind]
      simp only [hoff, Bool.false_eq_true, false_and, false_or, true_and]
      rcases hrun : exec (extract_file o file' path) { w with calls := w.calls ++ [file] }
        with ⟨e | p, w'⟩
      · rw [hrun] at hfault hsome
        have hnone : ¬ ∃ p, Lands o w path p := by
          rintro ⟨p, hp⟩
          cases (hsome p).mpr hp
        simp only [hnone, false_and, or_false, Except.error.injEq] at hfault ⊢
        exact hfault
      · rw [hrun] at hfault hsome
        have hno : ¬ (Unanswered o w ∨ (Accepts o w ∧ NumbersOut o w.files path)) :=
          fun h => by cases hfault.mpr h
        rw [not_or] at hno
        simp only [hno.1, hno.2, false_or]
        cases p with
        | none =>
          have hnone : ¬ ∃ p, Lands o w path p := by
            rintro ⟨p, hp⟩
            cases (hsome p).mpr hp
          exact iff_of_false (fun h => by cases h) fun h => hnone h.1
        | some p =>
          have hlands : ∃ p, Lands o w path p := ⟨p, (hsome p).mp rfl⟩
          refine (list_written_fault_iff hrecord p w').trans ?_
          simp [hlist, hlands]

end Write

end Tnef
