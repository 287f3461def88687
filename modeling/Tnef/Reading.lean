/-
Which options the reading of a stream depends on.

The options that say what to do with an attachment, from `--list` to `--save-body`, are looked
at where files are written and nowhere else: taking a stream apart, filling in a record and
making a path of its name come to the same without them. Two option sets that agree in the
others therefore read alike, and a comparison of two runs is left with what `file_write`
does in them (`parse_file_agree`).
-/
import Tnef.Calls
import Tnef.Lib.Script

set_option autoImplicit false

namespace Tnef

open ExceptRules Stateful

/-- The options without those that only `file_write` and the end of a run look at. -/
def Options.reading (o : Options) : Options := { o with
  verbose := false, list := false, overwrite := false, confirm := false, numbered := false,
  listmime := false, cruft_ok := false }

section Reading

variable (o : Options)

/-! ## Property lists -/

theorem read_values_reading (len : ℕ) (buf : List UInt8) (type : UInt16) (n : ℕ) : ∀ s,
    read_values o.reading len buf type n s = read_values o len buf type n s := by
  induction n with
  | zero =>
    intro s
    rfl
  | succ n ih =>
    intro s
    have hone : read_value o.reading len buf type s = read_value o len buf type s := rfl
    rw [read_values, read_values, hone]
    apply bind_congr_ok
    intro r _
    rcases r with _ | s'
    · rfl
    · exact ih s'

theorem read_properties_reading (len : ℕ) (buf : List UInt8) (n : ℕ) : ∀ idx attrs,
    read_properties o.reading len buf n idx attrs = read_properties o len buf n idx attrs := by
  have hone : ∀ idx, read_property o.reading len buf idx = read_property o len buf idx := by
    intro idx
    have hheader : read_header o.reading len buf idx = read_header o len buf idx := rfl
    have halloc : alloc_mapi_values o.reading = alloc_mapi_values o := rfl
    rw [read_property, read_property, hheader]
    simp only [halloc, read_values_reading]
  induction n with
  | zero =>
    intro idx attrs
    rfl
  | succ n ih =>
    intro idx attrs
    rw [read_properties, read_properties, hone]
    apply bind_congr_ok
    intro r _
    rcases r with _ | ⟨a, idx'⟩
    · rfl
    · exact ih idx' (attrs ++ [a])

theorem mapi_attr_read_reading (len : ℕ) (buf : List UInt8) :
    mapi_attr_read o.reading len buf = mapi_attr_read o len buf := by
  have hgrant : ∀ num size extra, checked_xmalloc o.reading num size extra
      = checked_xmalloc o num size extra := fun _ _ _ => rfl
  simp only [mapi_attr_read, read_properties_reading, hgrant]

/-! ## Attributes -/

theorem file_add_attr_reading (file : File) (attr : Attr) :
    file_add_attr o.reading file attr = file_add_attr o file attr := by
  have hcopy : copy_len o.reading = copy_len o := rfl
  have hattrs : ∀ attrs file,
      file_add_mapi_attrs o.reading file attrs = file_add_mapi_attrs o file attrs := by
    intro attrs
    induction attrs with
    | nil =>
      intro file
      rfl
    | cons a attrs ih =>
      intro file
      rcases a with _ | a
      · rfl
      · have hone : file_add_mapi_attr o.reading file a = file_add_mapi_attr o file a := rfl
        rw [file_add_mapi_attrs, file_add_mapi_attrs, hone]
        exact bind_congr_ok fun file' _ => ih file'
  simp only [file_add_attr, mapi_attr_read_reading, hattrs, hcopy]

theorem message_attr_reading (body : MessageBody) (attr : Attr) :
    message_attr o.reading body attr = message_attr o body attr := by
  have htext : get_text_data o.reading = get_text_data o := rfl
  have hattrs : ∀ attrs body,
      message_properties o.reading body attrs = message_properties o body attrs := by
    intro attrs
    induction attrs with
    | nil =>
      intro body
      rfl
    | cons a attrs ih =>
      intro body
      rcases a with _ | a
      · rfl
      · have hone : message_property o.reading body a = message_property o body a := rfl
        rw [message_properties, message_properties, hone]
        exact bind_congr_ok fun body' _ => ih body'
  simp only [message_attr, mapi_attr_read_reading, hattrs, htext]

theorem add_attr_reading (attr : Attr) (s : ParseState) :
    add_attr o.reading attr s = add_attr o attr s := by
  simp only [add_attr, message_attr_reading, file_add_attr_reading]

theorem read_object_reading (inp : Input) : read_object o.reading inp = read_object o inp := rfl

/-! ## Paths and bodies -/

theorem get_body_files_reading (filename : List UInt8) (pref : UInt8) (body : MessageBody) :
    get_body_files o.reading filename pref body = get_body_files o filename pref body := by
  have hfiles : ∀ name mime data,
      body_files o.reading name mime data = body_files o name mime data := by
    intro name mime data
    induction data with
    | nil => rfl
    | cons d data ih =>
      rcases d with _ | d
      · rfl
      · have hcopy : copy_len o.reading = copy_len o := rfl
        rw [body_files, body_files, hcopy, ih]
  have hgrant : ∀ num size extra, checked_xcalloc o.reading num size extra
      = checked_xcalloc o num size extra := fun _ _ _ => rfl
  simp only [get_body_files, hfiles, hgrant]

end Reading

/-! ## What is handed over -/

/-- Options that read like `o`, and a directory. -/
structure Setting (o : Options) where
  options : Options
  directory : Option (List UInt8)
  alike : options.reading = o.reading

/-- `file_write` in a setting. -/
def Setting.write {o : Options} (i : Setting o) (file : File) : Run Unit :=
  file_write i.options i.directory file

/-- All settings call `file_write` with the same records. -/
abbrev Hands (o : Options) {α : Type} (Q : α → Prop) (x : Setting o → Run α) : Prop :=
  Scripted Setting.write (Ready o) Q x

section Runs

/-- The loop makes no calls but those of its body. -/
theorem attr_loop_scripted {ω β σ ι : Type} {op : ι → β → Act Stop ω PUnit} {P : β → Prop}
    {I : σ → Prop} {o : Options} {options : ι → Options} {body : ι → Attr → σ → Act Stop ω σ}
    (hread : ∀ i inp, read_object (options i) inp = read_object o inp)
    (hbody : ∀ attr s, I s → Scripted op P I fun i => body i attr s) (inp : Input) :
    ∀ s, I s → Scripted op P (fun r => I r.2) fun i => attr_loop (options i) (body i) inp s := by
  -- on the length of what is left
  induction hn : inp.rest.length using Nat.strong_induction_on generalizing inp with
  | _ n ih =>
    intro s hs
    have hsame := fun i => data_left_any (options i) o inp
    rcases hleft : data_left o inp with e | _ | _
    · have hstop : (fun i => attr_loop (options i) (body i) inp s) = fun _ => throw e := by
        funext i
        rw [attr_loop, (hsame i).trans hleft]
        rfl
      rw [hstop]
      exact scripted_throw e
    · have hstop : (fun i => attr_loop (options i) (body i) inp s) = fun _ => pure (inp, s) :=
        funext fun i => attr_loop_stop ((hsame i).trans hleft)
      rw [hstop]
      exact scripted_pure hs
    · rcases hobject : read_object o inp with e | ⟨_ | attr, inp'⟩
      · have hstop : (fun i => attr_loop (options i) (body i) inp s) = fun _ => throw e :=
          funext fun i => attr_loop_error ((hsame i).trans hleft) ((hread i inp).trans hobject)
        rw [hstop]
        exact scripted_throw e
      · have hstop : (fun i => attr_loop (options i) (body i) inp s) = fun _ => pure (inp', s) :=
          funext fun i => attr_loop_end ((hsame i).trans hleft) ((hread i inp).trans hobject)
        rw [hstop]
        exact scripted_pure hs
      · have hturn : (fun i => attr_loop (options i) (body i) inp s)
            = fun i => body i attr s >>= attr_loop (options i) (body i) inp' :=
          funext fun i => attr_loop_attr ((hsame i).trans hleft) ((hread i inp).trans hobject)
        rw [hturn]
        exact (hbody attr s hs).bind fun s' hs' =>
          ih _ (hn ▸ read_object_length_lt hobject) inp' rfl s' hs'

variable {o : Options}

theorem file_write_hands_over {file : File} (h : Ready o file) :
    Hands o (fun _ => True) fun i => file_write i.options i.directory file :=
  @scripted_call _ _ _ _ Setting.write _ file h _ trivial

theorem parse_attr_hands_over (attr : Attr) {s : ParseState} (hs : Collected o s) :
    Hands o (Collected o) fun i => parse_attr i.options i.directory attr s := by
  have hadd : ∀ (i : Setting o) s, add_attr i.options attr s = add_attr o attr s := by
    intro i s
    rw [← add_attr_reading i.options, i.alike, add_attr_reading]
  have hgrant : ∀ i : Setting o,
      checked_xcalloc i.options 1 sizeof_File 0 = checked_xcalloc o 1 sizeof_File 0 := by
    intro i
    show checked_xcalloc i.options.reading 1 sizeof_File 0 = checked_xcalloc o.reading 1 sizeof_File 0
    rw [i.alike]
  have hlift : ∀ file, (∀ f, file = some f → Ready o f) →
      Hands o (Collected o) fun _ => lift (add_attr o attr { s with file := file }) := by
    intro file hfile
    exact scripted_lift fun s' hs' => add_attr_collected (s := { s with file := file })
      ⟨hfile, hs.body⟩ hs'
  have hempty : ∀ f, some ({} : File) = some f → Ready o f := by
    rintro f ⟨⟩
    exact ready_empty o
  have hbegin : Hands o (fun file => ∀ f, file = some f → Ready o f)
      fun i => begin_file i.options i.directory s.file := by
    have hfile := hs.file
    revert hfile
    generalize s.file = pending
    intro hfile
    rcases pending with _ | file
    · simp only [begin_file, hgrant]
      exact (scripted_lift (Q := fun _ => True) fun _ _ => trivial).bind fun _ _ =>
        scripted_pure hempty
    · simp only [begin_file]
      exact (file_write_hands_over (hfile file rfl)).bind fun _ _ => scripted_pure hempty
  simp only [parse_attr, hadd]
  split_ifs
  · exact hbegin.bind hlift
  · exact (scripted_pure (P := Ready o) hs.file).bind hlift

theorem write_body_files_hands_over (files : List File) (hfiles : ∀ file ∈ files, Ready o file) :
    Hands o (fun _ => True) fun i => write_body_files i.options i.directory files := by
  induction files using shared_files_induction with
  | nil =>
    simp only [write_body_files]
    exact scripted_pure trivial
  | cons file files ih =>
    simp only [write_body_files]
    refine (file_write_hands_over (hfiles file (List.mem_cons_self ..))).bind fun _ _ => ?_
    apply ih
    intro f hf
    obtain ⟨g, hg, rfl⟩ := List.mem_map.mp hf
    exact (hfiles g (List.mem_cons_of_mem _ hg)).shared_released

theorem save_bodies_loop_hands_over {filename pref : List UInt8} {all_flag : Bool}
    {body : MessageBody} (hbody : WholeBodies body) (n : ℕ) :
    Hands o (fun _ => True)
      fun i => save_bodies_loop i.options i.directory filename pref all_flag body n := by
  have hfiles : ∀ (i : Setting o) c,
      get_body_files i.options filename c body = get_body_files o filename c body := by
    intro i c
    rw [← get_body_files_reading i.options, i.alike, get_body_files_reading]
  induction n using save_bodies_loop.induct with
  | case1 n hn ih =>
    unfold save_bodies_loop
    simp only [if_pos hn, hfiles]
    refine (scripted_lift (Q := fun _ => True) fun _ _ => trivial).bind fun c _ => ?_
    refine (scripted_lift fun files hfiles => hfiles).bind fun files hfiles => ?_
    rcases files with _ | files
    · exact ih
    · have hready := get_body_files_ready hbody hfiles
      refine (write_body_files_hands_over files hready).bind fun _ _ => ?_
      split_ifs
      · exact ih
      · exact scripted_pure trivial
  | case2 n hn =>
    have hstop : ∀ i : Setting o,
        save_bodies_loop i.options i.directory filename pref all_flag body n = pure ⟨⟩ := by
      intro i
      rw [save_bodies_loop, if_neg hn]
    simp only [hstop]
    exact scripted_pure trivial

theorem finish_file_hands_over (body_filename body_pref : List UInt8) {s : ParseState}
    (hs : Collected o s) : Hands o (fun _ => True)
      fun i => finish_file i.options i.directory body_filename body_pref s := by
  have hpending : Hands o (fun _ => True)
      fun i => write_pending i.options i.directory s.file := by
    unfold write_pending
    cases hfile : s.file with
    | none => exact scripted_pure trivial
    | some file => exact file_write_hands_over (hs.file file hfile)
  have hsave : Hands o (fun _ => True)
      fun i => save_bodies i.options i.directory body_filename body_pref s.body := by
    have hflag : ∀ i : Setting o, i.options.savebody = o.savebody := by
      intro i
      show i.options.reading.savebody = o.reading.savebody
      rw [i.alike]
    simp only [save_bodies, hflag]
    split_ifs
    · exact save_bodies_loop_hands_over hs.body _
    · exact save_bodies_loop_hands_over hs.body _
    · exact scripted_pure trivial
  exact hpending.bind fun _ _ => hsave.bind fun _ _ => scripted_pure trivial

/-- **What a stream hands over is a matter of the stream.** For every input that does not
begin with a wrong signature there are records and an ending such that a run, whatever the
options that read like `o`, the directory and the world, is the calls of `file_write` with
these records, one after the other, and then that ending. -/
theorem parse_file_hands_over (body_filename body_pref : List UInt8) {inp : Input}
    (hsig : ∀ inp', read_signature inp ≠ .ok (false, inp')) :
    Hands o (fun _ => True)
      fun i => parse_file i.options i.directory body_filename body_pref inp := by
  have hobject : ∀ (i : Setting o) inp, read_object i.options inp = read_object o inp := by
    intro i inp
    rw [← read_object_reading i.options, i.alike, read_object_reading]
  have hinit : Collected o {} := ⟨by simp, by simp, by simp, by simp⟩
  unfold parse_file
  refine (scripted_lift fun r hr => hr).bind fun r hr => ?_
  obtain ⟨known, inp'⟩ := r
  simp only
  cases known with
  | false => exact absurd hr (hsig inp')
  | true =>
    simp only [if_true]
    have hloop : Hands o (fun r => Collected o r.2)
        fun i => attr_loop i.options (parse_attr i.options i.directory) inp' {} :=
      attr_loop_scripted hobject (fun attr s hs => parse_attr_hands_over attr hs) inp' {} hinit
    exact hloop.bind fun r hr => finish_file_hands_over body_filename body_pref hr

end Runs

/-! ## Two runs -/

/-- A stream with a wrong signature is announced, and that is all. -/
theorem parse_file_unknown {inp inp' : Input} (h : read_signature inp = .ok (false, inp'))
    (o : Options) (directory : Option (List UInt8)) (body_filename body_pref : List UInt8) :
    parse_file o directory body_filename body_pref inp
      = (print (ascii "Seems not to be a TNEF file\n") >>= fun _ => pure 1) := by
  rw [parse_file, h]
  rfl

/-- The line is the same in two worlds, whatever it says. -/
theorem list_file_agree {R : World → World → Prop} (hprint : ∀ text w v, R w v →
      R { w with stdout := w.stdout ++ text } { v with stdout := v.stdout ++ text })
    (o : Options) (file : File) (path : List UInt8) :
    Agree R (fun _ => True) (list_file o file path) (list_file o file path) := by
  have htext : ∀ text, Agree R (fun _ => True) (print text) (print text) := fun text =>
    agree_modify trivial (hprint text)
  have hor : ∀ s default, Agree R (fun _ => True) (print_or s default) (print_or s default) := by
    intro s default
    rcases s with _ | b
    · exact htext default
    · exact (agree_lift (I := fun _ => True) fun _ _ => trivial).bind fun _ _ => htext _
  have hdate : Agree R (fun _ => True) (list_length_and_date o file) (list_length_and_date o file) := by
    unfold list_length_and_date
    split_ifs
    · exact (agree_lift (I := fun _ => True) fun _ _ => trivial).bind fun _ _ => htext _
    · exact agree_pure trivial
  have hmime : Agree R (fun _ => True) (list_mime o file) (list_mime o file) := by
    unfold list_mime
    split_ifs
    · exact (htext _).bind fun _ _ => (hor _ _).bind fun _ _ => (htext _).bind fun _ _ => hor _ _
    · exact agree_pure trivial
  exact hdate.bind fun _ _ => (hor _ _).bind fun _ _ => (htext _).bind fun _ _ =>
    hmime.bind fun _ _ => htext _

/-- **Two runs that read alike agree if their calls of `file_write` do.** -/
theorem parse_file_agree {o o' : Options} {R : World → World → Prop} (h : o'.reading = o.reading)
    (directory : Option (List UInt8)) (hwrite : ∀ file, Ready o file →
      Agree R (fun _ => True) (file_write o directory file) (file_write o' directory file))
    (hprint : ∀ text w v, R w v → R { w with stdout := w.stdout ++ text }
      { v with stdout := v.stdout ++ text }) (body_filename body_pref : List UInt8) (inp : Input) :
    Agree R (fun _ => True) (parse_file o directory body_filename body_pref inp)
      (parse_file o' directory body_filename body_pref inp) := by
  by_cases hsig : ∃ inp', read_signature inp = .ok (false, inp')
  · obtain ⟨inp', hsig⟩ := hsig
    rw [parse_file_unknown hsig, parse_file_unknown hsig]
    exact (agree_modify (I := fun _ => True) trivial (hprint _)).bind fun _ _ => agree_pure trivial
  · obtain ⟨s, hready, -, hrun⟩ := parse_file_hands_over (o := o) body_filename body_pref
      (not_exists.mp hsig)
    have hone : parse_file o directory body_filename body_pref inp = _ := hrun ⟨o, directory, rfl⟩
    have hother : parse_file o' directory body_filename body_pref inp = _ := hrun ⟨o', directory, h⟩
    rw [hone, hother]
    exact Script.agree hwrite s hready

end Tnef
