/-
Which bodies are saved.

`save_bodies` goes through three positions of the preference and takes the first array that
is there, empty or not; the array itself is read up to its first NULL. So what is handed to
`file_write` is not always what the message offers of the first kind that has any: a kind
whose values are not recognised ends the search, an unrecognised value cuts the list short,
and a preference of one letter is read past its end. `save_bodies_preferred` is the exact
condition under which none of this shows.
-/
import Mathlib.Data.List.ReduceOption
import Tnef.Bodies
import Tnef.Main

set_option autoImplicit false

namespace Tnef

open ExceptRules Stateful

/-! ## Up to the first empty slot -/

section Slots

variable {α : Type}

/-- What a reader finds that stops at the first empty slot. -/
def present (s : List (Option α)) : List α := (s.takeWhile Option.isSome).reduceOption

/-- No slot behind an empty one is taken. -/
def Unbroken (s : List (Option α)) : Prop :=
  ∃ (xs : List α) (n : ℕ), s = xs.map some ++ List.replicate n none

@[simp] theorem present_none (s : List (Option α)) : present (none :: s) = [] := rfl

@[simp] theorem present_some (x : α) (s : List (Option α)) :
    present (some x :: s) = x :: present s := rfl

theorem present_front (s : List (Option α)) : present s <+: s.reduceOption :=
  List.IsPrefix.filterMap id (List.takeWhile_prefix Option.isSome)

/-- **Nothing is missed exactly when nothing stands behind an empty slot.** -/
theorem present_eq_iff (s : List (Option α)) : present s = s.reduceOption ↔ Unbroken s := by
  constructor
  · intro h
    induction s with
    | nil => exact ⟨[], 0, rfl⟩
    | cons x s ih =>
      cases x with
      | none =>
        rw [present_none, List.reduceOption_cons_of_none, eq_comm,
          List.reduceOption_eq_nil_iff] at h
        obtain ⟨n, rfl⟩ := h
        exact ⟨[], n + 1, rfl⟩
      | some y =>
        rw [present_some, List.reduceOption_cons_of_some, List.cons.injEq] at h
        obtain ⟨xs, n, rfl⟩ := ih h.2
        exact ⟨y :: xs, n, rfl⟩
  · rintro ⟨xs, n, rfl⟩
    induction xs with
    | nil =>
      cases n with
      | zero => rfl
      | succ n => exact List.reduceOption_replicate_none.symm
    | cons x xs ih =>
      rw [List.map_cons, List.cons_append, present_some, List.reduceOption_cons_of_some, ih]

end Slots

/-! ## Calls in a row -/

section Calls

variable (o : Options) (directory : Option (List UInt8))

/-- `file_write` on one record after the other. -/
def write_all : List File → Run Unit
  | [] => return ()
  | file :: files => do
    file_write o directory file
    write_all files

/-- Every call but the last returns. -/
def CallsReturn : World → List File → Prop
  | _, [] => True
  | w, file :: files => files = [] ∨ ((exec (file_write o directory file) w).1 = .ok ()
    ∧ CallsReturn (call o directory w file) files)

theorem write_all_append (a b : List File) : write_all o directory (a ++ b)
    = write_all o directory a >>= fun _ => write_all o directory b := by
  induction a with
  | nil =>
    rw [List.nil_append, write_all, pure_bind]
  | cons file a ih =>
    rw [List.cons_append, write_all, write_all, ih, bind_assoc]

/-- The calls that are made come from the front of the list, and they are all of it exactly
when only the last can have stopped. -/
theorem write_all_calls (files : List File) : ∀ w : World, ∃ made, made <+: files
    ∧ (exec (write_all o directory files) w).2.calls = w.calls ++ made
    ∧ (made = files ↔ CallsReturn o directory w files) := by
  induction files with
  | nil =>
    intro w
    exact ⟨[], List.prefix_rfl, (List.append_nil _).symm, by simp [CallsReturn]⟩
  | cons file files ih =>
    intro w
    have hcall : (call o directory w file).calls = w.calls ++ [file] :=
      file_write_calls o directory file w
    obtain ⟨made, hprefix, hcalls, hall⟩ := ih (call o directory w file)
    have hsame : (call o directory w file) = (exec (file_write o directory file) w).2 := rfl
    rw [write_all, exec_bind]
    rw [hsame] at hcall hcalls
    -- a call that stops the run has been logged, and is the last one
    match hrun : exec (file_write o directory file) w with
    | (.ok u, w₁) =>
      rw [hrun] at hcall hcalls
      refine ⟨file :: made, ?_, ?_, ?_⟩
      · exact List.prefix_cons_inj file |>.mpr hprefix
      · simp only
        rw [hcalls, hcall, List.append_assoc, List.singleton_append]
      · rw [List.cons.injEq, CallsReturn, hrun, ← hall]
        constructor
        · exact fun h => .inr ⟨rfl, h.2⟩
        · rintro (hnil | ⟨-, h⟩)
          · subst hnil
            exact ⟨rfl, List.prefix_nil.mp hprefix⟩
          · exact ⟨rfl, h⟩
    | (.error e, w₁) =>
      rw [hrun] at hcall
      refine ⟨[file], ?_, hcall, ?_⟩
      · exact ⟨files, rfl⟩
      · rw [CallsReturn, hrun]
        simp [eq_comm]

end Calls

/-! ## The records of a kind -/

/-- The record a body is handed over in. -/
def body_record (filename : List UInt8) (c : UInt8) (content : List UInt8) : File :=
  { name := some (strdup (filename ++ body_ext c)), mime_type := some (strdup (body_type c)),
    len := content.length, data := some (.full content) }

/-- Records that share their strings, which are released with the first. -/
def sharing : List File → List File
  | [] => []
  | file :: files => file :: files.map File.shared_released

/-- The records the bodies of one kind are handed over in. -/
def kind_records (filename : List UInt8) (c : UInt8) (contents : List (List UInt8)) : List File :=
  sharing (contents.map (body_record filename c))

theorem data_bytes_body_record (filename : List UInt8) (c : UInt8) (content : List UInt8) :
    data_bytes (body_record filename c content) = .ok content := by
  simp [data_bytes, body_record, Buffer.read]

/-- What is in a record is not released with its strings. -/
theorem kind_records_data (filename : List UInt8) (c : UInt8) (contents : List (List UInt8)) :
    (kind_records filename c contents).map data_bytes = contents.map .ok := by
  cases contents with
  | nil => rfl
  | cons content contents =>
    rw [kind_records, List.map_cons, sharing, List.map_cons, List.map_cons, List.map_map,
      List.map_map, data_bytes_body_record]
    congr 1
    apply List.map_congr_left
    intro x _
    exact data_bytes_body_record filename c x

theorem File.shared_released_twice (file : File) :
    file.shared_released.shared_released = file.shared_released := by
  cases file with
  | mk name path len data dt mime_type content_id => cases name <;> cases mime_type <;> rfl

theorem write_body_files_released (o : Options) (directory : Option (List UInt8))
    (files : List File) : write_body_files o directory (files.map File.shared_released)
      = write_all o directory (files.map File.shared_released) := by
  induction files with
  | nil =>
    rw [List.map_nil, write_body_files, write_all]
  | cons file files ih =>
    have htwice : (files.map File.shared_released).map File.shared_released
        = files.map File.shared_released := by
      rw [List.map_map]
      apply List.map_congr_left
      intro f _
      exact f.shared_released_twice
    rw [List.map_cons, write_body_files, write_all, htwice, ih]

theorem write_body_files_eq (o : Options) (directory : Option (List UInt8)) (files : List File) :
    write_body_files o directory files = write_all o directory (sharing files) := by
  cases files with
  | nil =>
    rw [sharing, write_body_files, write_all]
  | cons file files =>
    rw [sharing, write_body_files, write_all, write_body_files_released]

/-- A record whose strings have been released stops the call it is handed to. -/
theorem file_write_released (o : Options) (directory : Option (List UInt8)) {file : File}
    (hname : file.name.isSome) (hpath : file.path = none) (w : World) :
    (exec (file_write o directory file.shared_released) w).1 = .error .fault := by
  obtain ⟨name, hname⟩ := Option.isSome_iff_exists.mp hname
  have hname' : file.shared_released.name = some name.released := by
    rw [File.shared_released, hname]
    rfl
  have hpath' : file.shared_released.path = none := hpath
  have hstr : name.released.c_str = .error .fault := if_neg (List.not_mem_nil)
  have hstop : file_path o directory file.shared_released = .error .fault := by
    unfold file_path
    rw [hname', hpath', Option.getD_some]
    simp only [hstr]
    rfl
  rw [file_write, exec_bind]
  simp only
  rw [hstop]
  rfl

/-- So of one kind no third body is handed over, and nothing behind a second. -/
theorem CallsReturn.kind {o : Options} {directory : Option (List UInt8)} {filename : List UInt8}
    {c : UInt8} {x y : List UInt8} {contents : List (List UInt8)} {files : List File} {w : World}
    (h : CallsReturn o directory w (kind_records filename c (x :: y :: contents) ++ files)) :
    contents = [] ∧ files = [] := by
  rw [kind_records, List.map_cons, List.map_cons, sharing, List.map_cons, List.cons_append,
    List.cons_append] at h
  rcases h with hnil | ⟨-, hnil | ⟨hreturn, -⟩⟩
  · cases hnil
  · rw [List.append_eq_nil_iff, List.map_eq_nil_iff, List.map_eq_nil_iff] at hnil
    exact hnil
  · have hstop : (exec (file_write o directory (body_record filename c y).shared_released)
        (call o directory w (body_record filename c x))).1 = .error .fault :=
      file_write_released o directory rfl rfl _
    rw [hstop] at hreturn
    cases hreturn

/-! ## One kind -/

/-- The requests for the name and the type of a kind of body return. -/
def NamesGranted (o : Options) (filename : List UInt8) (c : UInt8) : Prop :=
  (∃ r, checked_xcalloc o (filename.length + (body_ext c).length + 1) 1 0 = .ok r)
    ∧ ∃ r, checked_xcalloc o ((body_type c).length + 1) 1 0 = .ok r

theorem Holding.tail {o : Options} {d : Option VarLenData} {data : List (Option VarLenData)}
    {x : Option (List UInt8)} {s : List (Option (List UInt8))}
    (h : Holding o (d :: data) (x :: s)) : d.map VarLenData.content = x ∧ Holding o data s := by
  obtain ⟨hcontents, hcopies⟩ := h
  rw [List.map_cons, List.cons_append, List.cons.injEq] at hcontents
  refine ⟨hcontents.1, hcontents.2, ?_⟩
  intro d' hd'
  exact hcopies d' (List.mem_cons_of_mem _ hd')

/-- The contents of a slot go into a block of their own size. -/
theorem copy_content {o : Options} {d : VarLenData} (hlen : d.len ≤ d.data.bytes.length)
    (hgrant : ∃ r, checked_xmalloc o d.len 1 0 = .ok r) :
    d.content.length = d.len ∧ copy_len o d.len d.data = .ok (.full d.content) := by
  obtain ⟨r, hr⟩ := hgrant
  have hlength : d.content.length = d.len := by
    rw [VarLenData.content, List.length_take]
    omega
  refine ⟨hlength, ?_⟩
  rw [copy_len, hr, ok_bind, Buffer.copy_of_le (hlen.trans d.data.fits)]
  congr 1
  simp only [Buffer.full, Buffer.mk.injEq]
  exact ⟨hlength.symm, rfl⟩

/-- The records go as far as the slots are filled. -/
theorem body_files_holding {o : Options} (name mime : Buffer) (s : List (Option (List UInt8))) :
    ∀ {data : List (Option VarLenData)}, Holding o data s →
    body_files o name mime data = .ok ((present s).map fun content =>
      { name := some name, mime_type := some mime, len := content.length,
        data := some (.full content) }) := by
  induction s with
  | nil =>
    intro data h
    match data, h with
    | none :: data, _ => rfl
    | [], h =>
      have hcontents := h.contents
      cases hcontents
    | some d :: data, h =>
      have hcontents := h.contents
      cases hcontents
  | cons x s ih =>
    intro data h
    match data, h with
    | [], h =>
      have hcontents := h.contents
      cases hcontents
    | none :: data, h =>
      obtain ⟨rfl, -⟩ := h.tail
      rfl
    | some d :: data, h =>
      -- a slot that is filled makes a record, and the rest follows
      obtain ⟨hlen, hgrant⟩ := h.copies d (List.mem_cons_self ..)
      obtain ⟨hlength, hcopy⟩ := copy_content hlen hgrant
      obtain ⟨rfl, hrest⟩ := h.tail
      rw [body_files, hcopy, ok_bind, ih hrest, ok_bind, Option.map_some, present_some, List.map_cons,
        hlength]
      rfl

section Kind

variable {o : Options} (directory : Option (List UInt8)) {filename : List UInt8}
  {body : MessageBody} {c : UInt8}

/-- One turn of the loop that saves the bodies, without the test of the flag. -/
def save_kind (o : Options) (directory : Option (List UInt8)) (filename : List UInt8)
    (body : MessageBody) (c : UInt8) : Run Unit := do
  match ← lift (get_body_files o filename c body) with
  | none => return ()
  | some files => write_body_files o directory files

theorem get_body_files_absent (h : Option.Rel (Holding o) (body_data body c) none) :
    get_body_files o filename c body = .ok none := by
  unfold get_body_files
  generalize body_data body c = data at h
  cases h
  rfl

theorem get_body_files_present {s : List (Option (List UInt8))}
    (h : Option.Rel (Holding o) (body_data body c) (some s)) (hgrant : NamesGranted o filename c) :
    get_body_files o filename c body = .ok (some ((present s).map (body_record filename c))) := by
  obtain ⟨⟨r, hname⟩, r', htype⟩ := hgrant
  unfold get_body_files
  generalize body_data body c = data at h
  cases h with
  | some hdata =>
    simp only [hname, htype, ok_bind]
    rw [body_files_holding _ _ s hdata]
    rfl

theorem get_body_files_refused {s : List (Option (List UInt8))}
    (h : Option.Rel (Holding o) (body_data body c) (some s)) (hgrant : ¬ NamesGranted o filename c) :
    ∃ e, get_body_files o filename c body = .error e := by
  unfold get_body_files
  generalize body_data body c = data at h
  cases h with
  | some hdata =>
    match hname : checked_xcalloc o (filename.length + (body_ext c).length + 1) 1 0 with
    | .error e => exact ⟨e, by simp only [error_bind]⟩
    | .ok r =>
      match htype : checked_xcalloc o ((body_type c).length + 1) 1 0 with
      | .error e => exact ⟨e, by simp only [ok_bind, error_bind]⟩
      | .ok r' => exact absurd ⟨⟨r, hname⟩, r', htype⟩ hgrant

theorem save_kind_absent (h : Option.Rel (Holding o) (body_data body c) none) :
    save_kind o directory filename body c = pure () := by
  rw [save_kind, get_body_files_absent h]
  rfl

theorem save_kind_present {s : List (Option (List UInt8))}
    (h : Option.Rel (Holding o) (body_data body c) (some s)) (hgrant : NamesGranted o filename c) :
    save_kind o directory filename body c
      = write_all o directory (kind_records filename c (present s)) := by
  rw [save_kind, get_body_files_present h hgrant, lift_ok, pure_bind]
  exact write_body_files_eq o directory _

theorem save_kind_refused {s : List (Option (List UInt8))}
    (h : Option.Rel (Holding o) (body_data body c) (some s)) (hgrant : ¬ NamesGranted o filename c) :
    ∃ e, save_kind o directory filename body c = throw e := by
  obtain ⟨e, he⟩ := get_body_files_refused h hgrant
  exact ⟨e, by rw [save_kind, he]; rfl⟩

end Kind

/-! ## The kinds in a row -/

section Kinds

variable {o : Options} {directory : Option (List UInt8)} {filename : List UInt8}
  {body : MessageBody} {sl : UInt8 → Option (List (Option (List UInt8)))}

/-- `save_kind` for one kind after the other. -/
def save_kinds (o : Options) (directory : Option (List UInt8)) (filename : List UInt8)
    (body : MessageBody) : List UInt8 → Run Unit
  | [] => return ()
  | c :: cs => do
    save_kind o directory filename body c
    save_kinds o directory filename body cs

/-- The records the kinds `cs` come to, with the contents `xs` of each. -/
def records (filename : List UInt8) (xs : UInt8 → List (List UInt8)) (cs : List UInt8) : List File :=
  cs.flatMap fun c => kind_records filename c (xs c)

/-- What is found of a kind, and what there is of it. -/
def found (sl : UInt8 → Option (List (Option (List UInt8)))) (c : UInt8) : List (List UInt8) :=
  present ((sl c).getD [])

def offered (sl : UInt8 → Option (List (Option (List UInt8)))) (c : UInt8) : List (List UInt8) :=
  ((sl c).getD []).reduceOption

theorem records_cons (xs : UInt8 → List (List UInt8)) (c : UInt8) (cs : List UInt8) :
    records filename xs (c :: cs) = kind_records filename c (xs c) ++ records filename xs cs := rfl

theorem records_data (filename : List UInt8) (xs : UInt8 → List (List UInt8)) (cs : List UInt8) :
    (records filename xs cs).map data_bytes = (cs.flatMap xs).map .ok := by
  induction cs with
  | nil => rfl
  | cons c cs ih =>
    rw [records_cons, List.map_append, kind_records_data, ih, List.flatMap_cons, List.map_append]

theorem records_length (filename : List UInt8) (xs : UInt8 → List (List UInt8)) (cs : List UInt8) :
    (records filename xs cs).length = (cs.flatMap xs).length := by
  have hdata := congrArg List.length (records_data filename xs cs)
  rw [List.length_map, List.length_map] at hdata
  exact hdata

/-- Every kind that is there gets its name. -/
def AllGranted (o : Options) (filename : List UInt8)
    (sl : UInt8 → Option (List (Option (List UInt8)))) (cs : List UInt8) : Prop :=
  ∀ c ∈ cs, (sl c).isSome → NamesGranted o filename c

theorem save_kinds_granted (directory : Option (List UInt8)) (filename : List UInt8)
    (hsl : ∀ c, Option.Rel (Holding o) (body_data body c) (sl c))
    (cs : List UInt8) (hgrant : AllGranted o filename sl cs) :
    save_kinds o directory filename body cs
      = write_all o directory (records filename (found sl) cs) := by
  induction cs with
  | nil => rfl
  | cons c cs ih =>
    have hc := hsl c
    have hfirst : save_kind o directory filename body c
        = write_all o directory (kind_records filename c (found sl c)) := by
      unfold found
      cases hs : sl c with
      | none =>
        rw [hs] at hc
        rw [save_kind_absent directory hc]
        rfl
      | some s =>
        rw [hs] at hc
        apply save_kind_present directory hc
        exact hgrant c (List.mem_cons_self ..) (by rw [hs]; rfl)
    rw [save_kinds, hfirst, ih fun c' hc' => hgrant c' (List.mem_cons_of_mem _ hc'), records_cons,
      write_all_append]

/-- Otherwise the run stops at the first kind whose name is refused. -/
theorem save_kinds_refused (directory : Option (List UInt8)) (filename : List UInt8)
    (hsl : ∀ c, Option.Rel (Holding o) (body_data body c) (sl c))
    (cs : List UInt8) (hrefused : ¬ AllGranted o filename sl cs) :
    ∃ a c b e, cs = a ++ c :: b ∧ (sl c).isSome ∧ save_kinds o directory filename body cs
      = write_all o directory (records filename (found sl) a) >>= fun _ => throw e := by
  induction cs with
  | nil => exact absurd (fun c hc => absurd hc List.not_mem_nil) hrefused
  | cons c cs ih =>
    have hc := hsl c
    by_cases hhere : (sl c).isSome → NamesGranted o filename c
    · -- this kind is granted, so the refusal comes later
      have hlater : ¬ AllGranted o filename sl cs := by
        intro hall
        apply hrefused
        intro c' hc' hsome
        rcases List.mem_cons.mp hc' with rfl | hc'
        · exact hhere hsome
        · exact hall c' hc' hsome
      obtain ⟨a, c', b, e, rfl, hsome, hrun⟩ := ih hlater
      refine ⟨c :: a, c', b, e, rfl, hsome, ?_⟩
      have hfirst := save_kinds_granted directory filename hsl [c]
        (by simpa [AllGranted] using hhere)
      have hlast : save_kinds o directory filename body [c] = save_kind o directory filename body c :=
        bind_pure_unit
      rw [hlast] at hfirst
      have hnil : records filename (found sl) [] = [] := rfl
      rw [save_kinds, hfirst, hrun, ← bind_assoc, ← write_all_append, records_cons, records_cons,
        hnil, List.append_nil]
    · rw [Classical.not_imp] at hhere
      obtain ⟨hsome, hnot⟩ := hhere
      obtain ⟨s, hs⟩ := Option.isSome_iff_exists.mp hsome
      rw [hs] at hc
      obtain ⟨e, he⟩ := save_kind_refused directory hc hnot
      refine ⟨[], c, cs, e, rfl, hsome, ?_⟩
      rw [save_kinds, he]
      rfl

end Kinds

/-! ## When everything is handed over -/

theorem flatMap_length_le {α β : Type} {f g : α → List β}
    (h : ∀ a, (f a).length ≤ (g a).length) (l : List α) :
    (l.flatMap f).length ≤ (l.flatMap g).length := by
  induction l with
  | nil => exact le_rfl
  | cons a l ih =>
    rw [List.flatMap_cons, List.flatMap_cons, List.length_append, List.length_append]
    exact Nat.add_le_add (h a) ih

/-- Shorter lists come to as much in all only when none of them is shorter. -/
theorem length_eq_of_flatMap_length_le {α β : Type} {f g : α → List β}
    (h : ∀ a, (f a).length ≤ (g a).length) (l : List α)
    (hle : (l.flatMap g).length ≤ (l.flatMap f).length) : ∀ a ∈ l, (f a).length = (g a).length := by
  induction l with
  | nil =>
    intro a ha
    cases ha
  | cons b l ih =>
    rw [List.flatMap_cons, List.flatMap_cons, List.length_append, List.length_append] at hle
    have hb := h b
    have hl := flatMap_length_le h l
    intro a ha
    rcases List.mem_cons.mp ha with rfl | ha
    · omega
    · exact ih (by omega) a ha

/-- The run `x` is the calls of `file_write` with the records `files`, all of them are made,
and what they write are the contents, in order. -/
structure HandsOver (o : Options) (directory : Option (List UInt8)) (x : Run Unit)
    (contents : List (List UInt8)) (w : World) (files : List File) : Prop where
  contents : files.map data_bytes = contents.map .ok
  run : exec x w = exec (write_all o directory files) w
  made : (exec x w).2.calls = w.calls ++ files

section Kinds

variable {o : Options} {directory : Option (List UInt8)} {filename : List UInt8}
  {body : MessageBody} {sl : UInt8 → Option (List (Option (List UInt8)))}

theorem HandsOver.length {x : Run Unit} {contents : List (List UInt8)} {w : World}
    {files : List File} (h : HandsOver o directory x contents w files) :
    files.length = contents.length := by
  have hlength := congrArg List.length h.contents
  rw [List.length_map, List.length_map] at hlength
  exact hlength

/-- What is handed over are the first of the records that are found; where a name is refused
they are those of the kinds before it, of which there are some. -/
theorem HandsOver.found {cs : List UInt8} {contents : List (List UInt8)} {w : World}
    {files : List File} (hsl : ∀ c, Option.Rel (Holding o) (body_data body c) (sl c))
    (h : HandsOver o directory (save_kinds o directory filename body cs) contents w files) :
    (AllGranted o filename sl cs ∧ files <+: records filename (found sl) cs)
      ∨ ∃ a c b, a ≠ [] ∧ cs = a ++ c :: b ∧ (sl c).isSome
        ∧ files <+: records filename (Tnef.found sl) a := by
  by_cases hgrant : AllGranted o filename sl cs
  · obtain ⟨made, hprefix, hcalls, -⟩ := write_all_calls o directory
      (records filename (Tnef.found sl) cs) w
    have hmade := h.made
    rw [save_kinds_granted directory filename hsl cs hgrant, hcalls, List.append_cancel_left_eq] at hmade
    subst hmade
    exact .inl ⟨hgrant, hprefix⟩
  · obtain ⟨a, c, b, e, rfl, hsome, hrun⟩ := save_kinds_refused directory filename hsl cs hgrant
    obtain ⟨made, hprefix, hcalls, -⟩ := write_all_calls o directory
      (records filename (Tnef.found sl) a) w
    have hmade := h.made
    rw [hrun, exec_bind_throw_snd, hcalls, List.append_cancel_left_eq] at hmade
    subst hmade
    refine .inr ⟨a, c, b, ?_, rfl, hsome, hprefix⟩
    -- at the first kind the run stops without a call
    rintro rfl
    have hnone : made = [] := List.prefix_nil.mp hprefix
    have hstop := h.run
    rw [hrun, hnone] at hstop
    cases congrArg Prod.fst hstop

theorem found_length_le (c : UInt8) : (found sl c).length ≤ (offered sl c).length :=
  (present_front _).length_le

/-- **Everything is handed over** exactly when the names are granted, no slot is taken behind
an empty one, and no call but the last stops. -/
theorem handsOver_kinds_iff (hsl : ∀ c, Option.Rel (Holding o) (body_data body c) (sl c))
    (cs : List UInt8) (hlater : ∀ c ∈ cs.tail, (sl c).isSome → offered sl c ≠ []) (w : World) :
    (∃ files, HandsOver o directory (save_kinds o directory filename body cs)
        (cs.flatMap (offered sl)) w files)
      ↔ AllGranted o filename sl cs ∧ (∀ c ∈ cs, Unbroken ((sl c).getD []))
        ∧ CallsReturn o directory w (records filename (offered sl) cs) := by
  constructor
  · rintro ⟨files, h⟩
    have hlength := h.length
    rcases h.found hsl with ⟨hgrant, hprefix⟩ | ⟨a, c, b, hne, rfl, hsome, hprefix⟩
    · have hle := hprefix.length_le
      rw [records_length, hlength] at hle
      have hsame := length_eq_of_flatMap_length_le found_length_le cs hle
      have hall : ∀ c ∈ cs, found sl c = offered sl c := fun c hc =>
        (present_front _).eq_of_length (hsame c hc)
      have hrecords : records filename (found sl) cs = records filename (offered sl) cs := by
        unfold records
        exact List.flatMap_congr fun c hc => by rw [hall c hc]
      have hfiles : files = records filename (offered sl) cs := by
        rw [hrecords] at hprefix
        apply hprefix.eq_of_length
        rw [hlength, records_length]
      refine ⟨hgrant, fun c hc => (present_eq_iff _).mp (hall c hc), ?_⟩
      obtain ⟨made, -, hcalls, hreturn⟩ := write_all_calls o directory
        (records filename (offered sl) cs) w
      have hmade := h.made
      rw [save_kinds_granted directory filename hsl cs hgrant, hrecords, hcalls,
        List.append_cancel_left_eq, hfiles] at hmade
      exact hreturn.mp hmade
    · -- there is something of the refused kind, and it is missing
      have hsomething : 0 < (offered sl c).length := by
        apply List.length_pos_of_ne_nil
        apply hlater c _ hsome
        obtain ⟨c', a, rfl⟩ := List.exists_cons_of_ne_nil hne
        exact List.mem_append_right a (List.mem_cons_self ..)
      have hle := hprefix.length_le
      have hfound := flatMap_length_le (g := offered sl) found_length_le a
      rw [records_length, hlength, List.flatMap_append, List.flatMap_cons, List.length_append,
        List.length_append] at hle
      omega
  · rintro ⟨hgrant, hunbroken, hreturn⟩
    have hrecords : records filename (found sl) cs = records filename (offered sl) cs := by
      unfold records
      apply List.flatMap_congr
      intro c hc
      rw [show found sl c = offered sl c from (present_eq_iff _).mpr (hunbroken c hc)]
    have hrun := save_kinds_granted directory filename hsl cs hgrant
    rw [hrecords] at hrun
    obtain ⟨made, -, hcalls, hall⟩ := write_all_calls o directory
      (records filename (offered sl) cs) w
    obtain rfl := hall.mpr hreturn
    exact ⟨_, records_data filename (offered sl) cs, by rw [hrun], by rw [hrun, hcalls]⟩

end Kinds

/-! ## The loop over the preference -/

section Loop

variable {o : Options} {directory : Option (List UInt8)} {filename : List UInt8}
  {body : MessageBody} {sl : UInt8 → Option (List (Option (List UInt8)))}

/-- With the flag of `all` a turn goes on to the next position. -/
theorem save_bodies_loop_all {pref : List UInt8} {i : ℕ} {c : UInt8} (hi : i < 3)
    (hc : rd pref i = .ok c) :
    save_bodies_loop o directory filename pref true body i
      = save_kind o directory filename body c
        >>= fun _ => save_bodies_loop o directory filename pref true body (i + 1) := by
  rw [save_bodies_loop, if_pos hi, hc, lift_ok, pure_bind, save_kind, bind_assoc]
  congr 1
  funext files
  cases files with
  | none => rfl
  | some files => rfl

theorem save_bodies_all (tail : List UInt8) :
    save_bodies_loop o directory filename (ascii "rht" ++ 0 :: tail) true body 0
      = save_kinds o directory filename body (ascii "rht") := by
  have hend : save_bodies_loop o directory filename (ascii "rht" ++ 0 :: tail) true body 3
      = pure () := by
    rw [save_bodies_loop, if_neg (by decide)]
  rw [save_bodies_loop_all (c := 0x72) (by decide) rfl, save_bodies_loop_all (c := 0x68) (by decide) rfl,
    save_bodies_loop_all (c := 0x74) (by decide) rfl, hend]
  rfl

/-- Where there is an array there are records, if only none of them. -/
theorem get_body_files_ne_none {c : UInt8} (h : (body_data body c).isSome) :
    get_body_files o filename c body ≠ .ok none := by
  intro hnone
  unfold get_body_files at hnone
  cases hdata : body_data body c with
  | none =>
    rw [hdata] at h
    cases h
  | some data =>
    rw [hdata] at hnone
    simp [bind_eq_ok] at hnone

/-- Without it a turn goes on where there is no array, and is the last one otherwise. -/
theorem save_bodies_loop_first {pref : List UInt8} {i : ℕ} {c : UInt8} (hi : i < 3)
    (hc : rd pref i = .ok c) :
    save_bodies_loop o directory filename pref false body i
      = if (body_data body c).isSome then save_kind o directory filename body c
        else save_bodies_loop o directory filename pref false body (i + 1) := by
  rw [save_bodies_loop, if_pos hi, hc, lift_ok, pure_bind]
  by_cases hdata : (body_data body c).isSome
  · rw [if_pos hdata, save_kind]
    rcases hget : get_body_files o filename c body with e | _ | files
    · rfl
    · exact absurd hget (get_body_files_ne_none hdata)
    · exact bind_pure_unit (x := write_body_files o directory files)
  · have hnone : get_body_files o filename c body = .ok none := by
      rw [Option.not_isSome_iff_eq_none] at hdata
      apply get_body_files_absent
      rw [hdata]
      exact .none
    rw [if_neg hdata, hnone]
    rfl

/-- Behind the letters that are left nothing is looked at while there is an array for one of
them. -/
theorem save_bodies_loop_letters (tail : List UInt8) (rest : List UInt8) : ∀ {before : List UInt8},
    (before ++ rest).length ≤ 3 →
    save_bodies_loop o directory filename (before ++ rest ++ 0 :: tail) false body before.length
      = match rest.find? fun c => (body_data body c).isSome with
        | some c => save_kind o directory filename body c
        | none => save_bodies_loop o directory filename (before ++ rest ++ 0 :: tail) false body
            (before ++ rest).length := by
  induction rest with
  | nil =>
    intro before _
    rw [List.append_nil]
    rfl
  | cons c rest ih =>
    intro before hlen
    have hi : before.length < 3 := by
      rw [List.length_append, List.length_cons] at hlen
      omega
    have hc : rd (before ++ c :: rest ++ 0 :: tail) before.length = .ok c := by
      rw [rd_eq_ok, List.append_assoc, List.getElem?_append_right le_rfl, Nat.sub_self]
      rfl
    rw [save_bodies_loop_first hi hc, List.find?_cons]
    by_cases hdata : (body_data body c).isSome
    · rw [if_pos hdata, hdata]
    · -- the letter that was looked at joins those before
      have hshift : before ++ c :: rest = (before ++ [c]) ++ rest := by
        rw [List.append_assoc, List.singleton_append]
      have hnext := @ih (before ++ [c]) (by rw [← hshift]; exact hlen)
      rw [List.length_append, List.length_singleton, ← hshift] at hnext
      rw [if_neg hdata, hnext, Bool.not_eq_true _ |>.mp hdata]

/-- At the terminator the loop is done, or it has only been through one letter: then it also
looks at what stands behind. -/
theorem save_bodies_loop_end {pref : List UInt8} (hlen : pref.length ≤ 3) :
    (2 ≤ pref.length → ∀ tail, save_bodies_loop o directory filename (pref ++ 0 :: tail) false body
        pref.length = pure ())
      ∧ (pref.length = 1 → save_bodies_loop o directory filename (pref ++ [0]) false body pref.length
        = throw .fault) := by
  have hterminator : ∀ tail, pref.length < 3 →
      save_bodies_loop o directory filename (pref ++ 0 :: tail) false body pref.length
        = save_bodies_loop o directory filename (pref ++ 0 :: tail) false body (pref.length + 1) := by
    intro tail hlt
    have hzero : rd (pref ++ 0 :: tail) pref.length = .ok 0 := by
      rw [rd_eq_ok, List.getElem?_append_right le_rfl, Nat.sub_self]
      rfl
    exact save_bodies_loop_first hlt hzero
  have hdone : ∀ tail, save_bodies_loop o directory filename (pref ++ 0 :: tail) false body 3
      = pure () := by
    intro tail
    rw [save_bodies_loop, if_neg (by decide)]
  refine ⟨?_, ?_⟩
  · intro hle tail
    -- the index stops at three, or the terminator is looked up first
    by_cases hthree : pref.length = 3
    · rw [hthree, hdone tail]
    · have htwo : pref.length = 2 := by omega
      rw [hterminator tail (by omega), htwo, hdone tail]
  · intro hone
    -- behind a single letter and its terminator the string has ended
    have hpast : rd (pref ++ [0]) 2 = .error .fault := by
      apply rd_of_le
      rw [List.length_append, hone, List.length_singleton]
    rw [hterminator [] (by omega), hone, save_bodies_loop, if_pos (by decide), hpast]
    rfl

end Loop

/-! ## The preference -/

/-- The kinds whose bodies are to be saved: all three, or the first that has any. -/
def kinds_wanted (o : Options) (as : List Attr) (pref : List UInt8) : List UInt8 :=
  if pref = ascii "all" then ascii "rht"
  else (pref.find? fun c => avail o as c ≠ []).toList

/-- The kinds the loop gets to: all three, or the first the message has a property or an
attribute for. -/
def kinds_reached (o : Options) (as : List Attr) (pref : List UInt8) : List UInt8 :=
  if pref = ascii "all" then ascii "rht"
  else (pref.find? fun c => (slots o as c).isSome).toList

/-- `save_bodies` with the bytes `tail` behind the string it goes through. -/
def save_bodies_before (o : Options) (directory : Option (List UInt8))
    (body_filename body_pref tail : List UInt8) (body : MessageBody) : Run Unit :=
  if body_pref = ascii "all" then
    save_bodies_loop o directory body_filename (ascii "rht" ++ 0 :: tail) true body 0
  else
    save_bodies_loop o directory body_filename (body_pref ++ 0 :: tail) false body 0

/-- **What the preference promises**: the bodies of the kinds that are wanted are handed to
`file_write`, in order, and nothing behind the preference string has a part in it. -/
structure Preferred (o : Options) (directory : Option (List UInt8)) (filename pref : List UInt8)
    (body : MessageBody) (as : List Attr) (w : World) : Prop where
  handed : ∃ files, HandsOver o directory (save_bodies o directory filename pref body)
    ((kinds_wanted o as pref).flatMap (avail o as)) w files
  only : ∀ tail, exec (save_bodies_before o directory filename pref tail body) w
    = exec (save_bodies o directory filename pref body) w

/-- **When the promise is kept.** -/
structure Served (o : Options) (directory : Option (List UInt8)) (filename pref : List UInt8)
    (as : List Attr) (w : World) : Prop where
  /-- The requests for the names return. -/
  granted : AllGranted o filename (slots o as) (kinds_reached o as pref)
  /-- No value is recognised behind one that is not. -/
  unbroken : ∀ c ∈ kinds_reached o as pref, Unbroken ((slots o as c).getD [])
  /-- The search does not end at a kind without a body while another has one. -/
  first : pref ≠ ascii "all" → ∀ c ∈ kinds_reached o as pref, avail o as c = [] →
    ∀ c' ∈ pref, avail o as c' = []
  /-- A preference of one letter finds what it asks for. -/
  within : pref ≠ ascii "all" → kinds_reached o as pref = [] → 2 ≤ pref.length
  /-- No call but the last stops. -/
  calls : CallsReturn o directory w (records filename (avail o as) (kinds_wanted o as pref))

theorem offered_slots (o : Options) (as : List Attr) : offered (slots o as) = avail o as := by
  funext c
  exact (avail_eq o as c).symm

/-- A kind the message has nothing for has no bodies. -/
theorem avail_of_slots_none {o : Options} {as : List Attr} {c : UInt8} (h : slots o as c = none) :
    avail o as c = [] := by
  rw [avail_eq, h]
  rfl

/-- Of HTML and text there are bodies wherever there is a property or an attribute. -/
theorem avail_ne_nil {o : Options} {as : List Attr} {c : UInt8} (hc : c ∈ ascii "ht")
    (h : (slots o as c).isSome) : avail o as c ≠ [] := by
  have hletters : ascii "ht" = [0x68, 0x74] := rfl
  have hc' : c = 0x68 ∨ c = 0x74 := by simpa [hletters] using hc
  rcases hc' with rfl | rfl
  · obtain ⟨s, hs⟩ := Option.isSome_iff_exists.mp h
    obtain ⟨a, ha, -⟩ := Option.map_eq_some_iff.mp hs
    show (last_binary o as MAPI_BODY_HTML).toList.flatMap (fun a => a.values.map value_bytes) ≠ []
    rw [ha, Option.toList_some, List.flatMap_singleton]
    exact fun hnil => last_binary_values ha (List.map_eq_nil_iff.mp hnil)
  · obtain ⟨s, hs⟩ := Option.isSome_iff_exists.mp h
    obtain ⟨attr, hattr, -⟩ := Option.map_eq_some_iff.mp hs
    show (last_text as).toList.map Attr.data ≠ []
    rw [hattr]
    exact List.cons_ne_nil _ _

/-- Behind the first kind that is reached there are bodies of every kind the message has
something for. -/
theorem avail_later {o : Options} {as : List Attr} {pref : List UInt8} :
    ∀ c ∈ (kinds_reached o as pref).tail, (slots o as c).isSome → avail o as c ≠ [] := by
  intro c hc
  unfold kinds_reached at hc
  split_ifs at hc
  · exact avail_ne_nil hc
  · cases hfind : pref.find? fun c => (slots o as c).isSome with
    | none =>
      rw [hfind] at hc
      cases hc
    | some c' =>
      rw [hfind] at hc
      cases hc

/-- Where the search does not end too early the kinds that are reached have what is wanted. -/
theorem kinds_wanted_flatMap {β : Type} {o : Options} {as : List Attr} {pref : List UInt8}
    {f : UInt8 → List β} (hf : ∀ c, avail o as c = [] → f c = [])
    (hfirst : pref ≠ ascii "all" → ∀ c ∈ kinds_reached o as pref, avail o as c = [] →
      ∀ c' ∈ pref, avail o as c' = []) :
    (kinds_wanted o as pref).flatMap f = (kinds_reached o as pref).flatMap f := by
  unfold kinds_wanted kinds_reached at *
  by_cases hall : pref = ascii "all"
  · rw [if_pos hall, if_pos hall]
  · rw [if_neg hall] at hfirst ⊢
    rw [if_neg hall]
    have hnone : (∀ c ∈ pref, avail o as c = []) → (pref.find? fun c => avail o as c ≠ []) = none := by
      intro hempty
      rw [List.find?_eq_none]
      intro c hc
      simpa using hempty c hc
    match hreach : pref.find? fun c => (slots o as c).isSome with
    | none =>
      have hempty : ∀ c ∈ pref, avail o as c = [] := by
        intro c hc
        have hslots := List.find?_eq_none.mp hreach c hc
        exact avail_of_slots_none (Option.not_isSome_iff_eq_none.mp hslots)
      rw [hnone hempty]
    | some c =>
      by_cases hc : avail o as c = []
      · have hempty := hfirst hall c (by rw [hreach]; exact List.mem_singleton_self c) hc
        rw [hnone hempty, Option.toList_some, List.flatMap_singleton, hf c hc]
        rfl
      · -- in front of it there is nothing of any kind
        obtain ⟨-, before, after, rfl, hbefore⟩ := List.find?_eq_some_iff_append.mp hreach
        have hwanted : (before ++ c :: after).find? (fun c => avail o as c ≠ []) = some c := by
          rw [List.find?_eq_some_iff_append]
          refine ⟨by simpa using hc, before, after, rfl, ?_⟩
          intro c' hc'
          have hslots : (slots o as c').isSome = false := by simpa using hbefore c' hc'
          have hempty := avail_of_slots_none (Option.isNone_iff_eq_none.mp (by simpa using hslots))
          simpa using hempty
        rw [hwanted]

section Preference

variable {o : Options} {directory : Option (List UInt8)} {filename pref : List UInt8}
  {body : MessageBody} {as : List Attr}

theorem isSome_of_rel {α β : Type} {R : α → β → Prop} {x : Option α} {y : Option β}
    (h : Option.Rel R x y) : x.isSome = y.isSome := by
  cases h with
  | none => rfl
  | some h => rfl

/-- The loop is the kinds it gets to, whatever stands behind the string, unless it has only
one letter and finds nothing. -/
theorem save_bodies_before_eq (directory : Option (List UInt8)) (filename : List UInt8)
    (hpref : BodyPref pref)
    (hsl : ∀ c, Option.Rel (Holding o) (body_data body c) (slots o as c))
    (hwithin : pref ≠ ascii "all" → kinds_reached o as pref = [] → 2 ≤ pref.length)
    (tail : List UInt8) : save_bodies_before o directory filename pref tail body
      = save_kinds o directory filename body (kinds_reached o as pref) := by
  unfold save_bodies_before
  unfold kinds_reached at *
  by_cases hall : pref = ascii "all"
  · rw [if_pos hall, if_pos hall]
    exact save_bodies_all tail
  · obtain ⟨⟨-, hlen⟩, -⟩ := hpref.resolve_left hall
    have hsame : (fun c => (body_data body c).isSome) = fun c => (slots o as c).isSome := by
      funext c
      exact isSome_of_rel (hsl c)
    have hloop := @save_bodies_loop_letters o directory filename body tail pref [] hlen
    rw [List.nil_append, hsame] at hloop
    rw [if_neg hall] at hwithin ⊢
    rw [if_neg hall]
    refine hloop.trans ?_
    match hfind : pref.find? fun c => (slots o as c).isSome with
    | none =>
      rw [hfind] at hwithin
      exact (save_bodies_loop_end hlen).1 (hwithin hall rfl) tail
    | some c =>
      exact (bind_pure_unit (x := save_kind o directory filename body c)).symm

/-- The one letter is followed by its terminator, and the next read is behind both. -/
theorem save_bodies_before_past (directory : Option (List UInt8)) (filename : List UInt8)
    (as : List Attr) (hpref : BodyPref pref)
    (hsl : ∀ c, Option.Rel (Holding o) (body_data body c) (slots o as c))
    (hall : pref ≠ ascii "all") (hnone : kinds_reached o as pref = []) (hlt : ¬ 2 ≤ pref.length) :
    save_bodies_before o directory filename pref [] body = throw .fault := by
  obtain ⟨⟨hpos, hlen⟩, -⟩ := hpref.resolve_left hall
  have hfind : (pref.find? fun c => (slots o as c).isSome) = none := by
    unfold kinds_reached at hnone
    rw [if_neg hall] at hnone
    exact Option.toList_eq_nil_iff.mp hnone
  have hsame : (fun c => (body_data body c).isSome) = fun c => (slots o as c).isSome := by
    funext c
    exact isSome_of_rel (hsl c)
  have hloop := @save_bodies_loop_letters o directory filename body [] pref [] hlen
  rw [List.nil_append, hsame, hfind] at hloop
  rw [save_bodies_before, if_neg hall]
  exact hloop.trans ((save_bodies_loop_end hlen).2 (by omega))

/-- Where the search ends at a kind without a body nothing is handed over; if that is right,
no kind of the preference has any. -/
theorem HandsOver.first (hsl : ∀ c, Option.Rel (Holding o) (body_data body c) (slots o as c))
    (hall : pref ≠ ascii "all") {w : World} {files : List File}
    (h : HandsOver o directory (save_kinds o directory filename body (kinds_reached o as pref))
      ((kinds_wanted o as pref).flatMap (avail o as)) w files)
    {c : UInt8} (hc : c ∈ kinds_reached o as pref) (hempty : avail o as c = []) :
    ∀ c' ∈ pref, avail o as c' = [] := by
  have hreach : kinds_reached o as pref = [c] := by
    unfold kinds_reached at hc ⊢
    rw [if_neg hall, Option.mem_toList] at hc
    rw [if_neg hall, hc, Option.toList_some]
  have hlength := h.length
  rw [hreach] at h
  -- the one kind that is reached has no records to hand over
  have hnothing : files.length = 0 := by
    rcases h.found hsl with ⟨-, hprefix⟩ | ⟨a, c', b, hne, hsplit, -, -⟩
    · have hle := hprefix.length_le
      have hfound : (Tnef.found (slots o as) c).length ≤ (offered (slots o as) c).length :=
        found_length_le c
      rw [offered_slots, hempty, List.length_nil] at hfound
      rw [records_length, List.flatMap_singleton] at hle
      omega
    · obtain ⟨c'', a, rfl⟩ := List.exists_cons_of_ne_nil hne
      have hlonger := congrArg List.length hsplit
      simp at hlonger
  intro c' hc'
  by_contra hsome
  unfold kinds_wanted at hlength
  rw [if_neg hall, hnothing] at hlength
  -- so the kind that is wanted has none either
  match hfind : pref.find? fun c => avail o as c ≠ [] with
  | none =>
    have hnot := List.find?_eq_none.mp hfind c' hc'
    exact hnot (decide_eq_true hsome)
  | some d =>
    have hd : avail o as d ≠ [] := by simpa using List.find?_some hfind
    rw [hfind, Option.toList_some, List.flatMap_singleton] at hlength
    exact hd (List.length_eq_zero_iff.mp hlength.symm)

theorem save_bodies_eq (hsave : o.savebody = true) :
    save_bodies o directory filename pref body
      = save_bodies_before o directory filename pref [] body := by
  rw [save_bodies, if_pos hsave]
  rfl

/-- The preference in terms of the arrays after the reading loop. -/
theorem preferred_iff (hsave : o.savebody = true) (hpref : BodyPref pref)
    (hsl : ∀ c, Option.Rel (Holding o) (body_data body c) (slots o as c)) (w : World) :
    Preferred o directory filename pref body as w ↔ Served o directory filename pref as w := by
  have hlater : ∀ c ∈ (kinds_reached o as pref).tail, (slots o as c).isSome →
      offered (slots o as) c ≠ [] := by
    rw [offered_slots]
    exact avail_later
  have hrecords : ∀ c, avail o as c = [] → kind_records filename c (avail o as c) = [] := by
    intro c hc
    rw [hc]
    rfl
  constructor
  · rintro ⟨⟨files, hfiles⟩, -⟩
    have hwithin : pref ≠ ascii "all" → kinds_reached o as pref = [] → 2 ≤ pref.length := by
      intro hall hnone
      by_contra hlt
      have hstop := save_bodies_before_past directory filename as hpref hsl hall hnone hlt
      -- the run stops without a call
      obtain ⟨-, hrun, hmade⟩ := hfiles
      rw [save_bodies_eq hsave, hstop] at hrun hmade
      have hnil : files = [] := List.self_eq_append_right.mp hmade
      rw [hnil] at hrun
      cases congrArg Prod.fst hrun
    have heq := save_bodies_before_eq directory filename hpref hsl hwithin
    rw [save_bodies_eq hsave, heq] at hfiles
    have hfirst : pref ≠ ascii "all" → ∀ c ∈ kinds_reached o as pref, avail o as c = [] →
        ∀ c' ∈ pref, avail o as c' = [] := fun hall c hc hempty => hfiles.first hsl hall hc hempty
    rw [kinds_wanted_flatMap (fun c hc => hc) hfirst] at hfiles
    have hall := (handsOver_kinds_iff hsl _ hlater w).mp ⟨files, by rw [offered_slots]; exact hfiles⟩
    obtain ⟨hgranted, hunbroken, hcalls⟩ := hall
    refine ⟨hgranted, hunbroken, hfirst, hwithin, ?_⟩
    rw [records, kinds_wanted_flatMap hrecords hfirst]
    rw [offered_slots] at hcalls
    exact hcalls
  · rintro ⟨hgranted, hunbroken, hfirst, hwithin, hcalls⟩
    have heq := save_bodies_before_eq directory filename hpref hsl hwithin
    rw [records, kinds_wanted_flatMap hrecords hfirst] at hcalls
    have hall := (handsOver_kinds_iff hsl _ hlater w).mpr
      ⟨hgranted, hunbroken, by rw [offered_slots]; exact hcalls⟩
    refine ⟨?_, ?_⟩
    · rw [save_bodies_eq hsave, heq, kinds_wanted_flatMap (fun c hc => hc) hfirst, ← offered_slots]
      exact hall
    · intro tail
      rw [save_bodies_eq hsave, heq tail, heq []]

end Preference

/-- **The body preference.** For a message whose reading loop returns and whose last
attachment is written, the rest of the run is the saving of the bodies; it hands over what
the preference asks for, and looks at nothing but the preference, exactly when `Served`
holds. -/
theorem save_bodies_preferred {o : Options} (hsave : o.savebody = true) {optarg pref : List UInt8}
    (hpref : validate_body_pref optarg = .ok pref) (directory : Option (List UInt8))
    (filename : List UInt8) (key : UInt16) (as : List (Attr × UInt16)) {tail : List UInt8}
    (htail : NoAttr tail) (is_stdin : Bool) {w w₁ w₂ : World} {inp : Input} {s : ParseState}
    (hloop : exec (attr_loop o (parse_attr o directory)
      { rest := attr_bytes as ++ tail, is_stdin := is_stdin } {}) w = (.ok (inp, s), w₁))
    (hpending : exec (write_pending o directory s.file) w₁ = (.ok (), w₂)) :
    exec (parse_file o directory filename pref
        { rest := stream key as ++ tail, is_stdin := is_stdin }) w
      = exec (save_bodies o directory filename pref s.body >>= fun _ => pure 0) w₂
    ∧ (Preferred o directory filename pref s.body (as.map (·.1)) w₂
      ↔ Served o directory filename pref (as.map (·.1)) w₂) := by
  have hoffers := loop_offers (loop_of_fold o directory (fold_of_loop_tail o directory htail hloop))
  refine ⟨?_, preferred_iff hsave (validate_body_pref_ok hpref) hoffers w₂⟩
  rw [stream_append, parse_file_stream, exec_bind, hloop]
  simp only [after_loop, finish_file]
  rw [exec_bind, hpending]

/-- Two groups with a text between them, and the option `--body-pref=T`. -/
theorem save_bodies_preferred_witness : ∃ body w₂,
    exec (parse_file { savebody := true, list := true } none (ascii "message") (ascii "t")
        { rest := stream 0 two_groups ++ [] }) {}
      = exec (save_bodies { savebody := true, list := true } none (ascii "message") (ascii "t") body
        >>= fun _ => pure 0) w₂
    ∧ (Preferred { savebody := true, list := true } none (ascii "message") (ascii "t") body
        (two_groups.map (·.1)) w₂
      ↔ Served { savebody := true, list := true } none (ascii "message") (ascii "t")
        (two_groups.map (·.1)) w₂) := by
  have hreturns : (exec (attr_loop { savebody := true, list := true }
      (parse_attr { savebody := true, list := true } none) { rest := attr_bytes two_groups ++ [] } {}
        >>= fun r => write_pending { savebody := true, list := true } none r.2.file) {}).1.toBool
      = true := by
    decide +kernel
  match hrun : exec (attr_loop { savebody := true, list := true }
      (parse_attr { savebody := true, list := true } none) { rest := attr_bytes two_groups ++ [] } {}
        >>= fun r => write_pending { savebody := true, list := true } none r.2.file) {} with
  | (.error e, w₂) =>
    rw [hrun] at hreturns
    exact absurd hreturns Bool.false_ne_true
  | (.ok (), w₂) =>
    obtain ⟨⟨inp, s⟩, w₁, hloop, hpending⟩ := exec_bind_eq_ok.mp hrun
    have hpref : validate_body_pref (ascii "T") = .ok (ascii "t") := by decide
    exact ⟨s.body, w₂, save_bodies_preferred rfl hpref none (ascii "message") 0 two_groups
      (no_attr_of_short (by decide)) false hloop hpending⟩

/-- Of a message without anything the preference `r` is read past its terminator. -/
theorem save_bodies_reads_past :
    ¬ ∀ (o : Options) (directory : Option (List UInt8)) (filename optarg pref : List UInt8)
      (as : List (Attr × UInt16)) (w w₁ w₂ : World) (inp : Input) (s : ParseState),
      o.savebody = true → validate_body_pref optarg = .ok pref →
      exec (attr_loop o (parse_attr o directory) { rest := attr_bytes as } {}) w = (.ok (inp, s), w₁) →
      exec (write_pending o directory s.file) w₁ = (.ok (), w₂) →
      Preferred o directory filename pref s.body (as.map (·.1)) w₂ := by
  intro h
  have hpref : validate_body_pref (ascii "r") = .ok (ascii "r") := by decide
  have hloop : exec (attr_loop { savebody := true } (parse_attr { savebody := true } none)
      { rest := attr_bytes [] } {}) {} = (.ok ({ rest := [], eof := true }, {}), {}) := by
    rw [attr_bytes, List.flatMap_nil, attr_loop_end_of_input]
    rfl
  have hpreferred := h { savebody := true } none [] (ascii "r") (ascii "r") [] {} {} {} _ {} rfl hpref
    hloop rfl
  obtain ⟨files, -, hrun, hmade⟩ := hpreferred.handed
  -- nothing is found up to the terminator, so the next letter is read
  have hfault : exec (save_bodies { savebody := true } none [] (ascii "r") {}) {}
      = (.error .fault, {}) := by
    rw [save_bodies_eq rfl, save_bodies_before_past none [] [] (validate_body_pref_ok hpref)]
    · rfl
    · exact loop_offers hloop
    · decide
    · decide
    · decide
  rw [hfault] at hrun hmade
  have hnil : files = [] := List.self_eq_append_right.mp hmade
  rw [hnil] at hrun
  cases congrArg Prod.fst hrun

end Tnef
