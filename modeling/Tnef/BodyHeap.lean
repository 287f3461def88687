/-
Who owns the strings of the bodies.

Here a record holds pointers, as in the source, and `get_body_files`, `file_write` and
`file_free` work on a heap in which a released block can neither be read nor released
again. `write_body_files_refines` says that this comes to what the records with their
contents in them come to. All records of a kind point to one name and one MIME type, so
only the first has them: with one record the strings are live in the only call there is
and everything is released once, with more the second call finds them gone. There is a
second record if the values begin with two that give a body (`body_strings_live_iff`).
-/
import Tnef.Lib.Heap
import Tnef.Preference

set_option autoImplicit false

namespace Tnef

open ExceptRules Stateful HeapModel

/-! ## Records in memory -/

/-- A `File` in memory: its strings and its data are pointers. -/
structure FileRecord where
  name : Option ℕ := none
  path : Option ℕ := none
  len : ℕ := 0
  data : Option ℕ := none
  dt : date := .zero
  mime_type : Option ℕ := none
  content_id : Option ℕ := none
  deriving DecidableEq, Repr

/-- The heap beside the world, with what is said of both in the end. -/
structure Memory where
  heap : Heap Buffer := {}
  world : World := {}
  /-- Name and MIME type of the records `file_write` has been called with, where live. -/
  handed : List (Option Buffer × Option Buffer) := []
  /-- The pointers `file_free` has released, or tried to. -/
  freed : List ℕ := []

abbrev HeapRun (α : Type) := Act Stop Memory α

/-- What a reader finds behind a pointer: in a released block there is nothing to read. -/
def look (h : Heap Buffer) (p : ℕ) : Buffer :=
  match h.read p with
  | some b => b
  | none => (h.blocks.getD p (.full [])).released

/-- The record with what its pointers point to. -/
def FileRecord.view (h : Heap Buffer) (f : FileRecord) : File :=
  { name := f.name.map (look h), path := f.path.map fun p => (look h p).text, len := f.len,
    data := f.data.map (look h), dt := f.dt, mime_type := f.mime_type.map (look h),
    content_id := f.content_id.map (look h) }

/-- A new block, with its contents. -/
def malloc (b : Buffer) : HeapRun ℕ := do
  let m ← get
  set { m with heap := m.heap.allocs [b] }
  return m.heap.next

/-- `XFREE` of a pointer that is not NULL. -/
def xfree (p : ℕ) : HeapRun Unit := do
  modify fun m => { m with freed := m.freed ++ [p] }
  let m ← get
  match m.heap.release p with
  | none => throw .fault
  | some heap => set { m with heap := heap }

/-- What happens outside the heap. -/
def outside {α : Type} (x : Run α) : HeapRun α :=
  ExceptT.mk fun m => ((exec x m.world).1, { m with world := (exec x m.world).2 })

/-! ## The functions on the heap -/

/-- `for (i = 0; data[i]; i++)`, with the two pointers that all records get. -/
def body_files_heap (o : Options) (tmp mime : ℕ) : List (Option VarLenData) → HeapRun (List FileRecord)
  | [] => throw .fault
  | none :: _ => return []
  | some d :: data => do
    let copy ← lift (copy_len o d.len d.data)
    let p ← malloc copy
    let files ← body_files_heap o tmp mime data
    return { name := some tmp, mime_type := some mime, len := d.len, data := some p } :: files

/-- The two strings are made once, in front of the loop over the values. -/
def get_body_files_heap (o : Options) (filename : List UInt8) (pref : UInt8) (body : MessageBody) :
    HeapRun (Option (List FileRecord)) :=
  match body_data body pref with
  | none => return none
  | some data => do
    let _ ← lift (checked_xcalloc o (filename.length + (body_ext pref).length + 1) 1 0)
    let tmp ← malloc (strdup (filename ++ body_ext pref))
    let _ ← lift (checked_xcalloc o ((body_type pref).length + 1) 1 0)
    let mime ← malloc (strdup (body_type pref))
    return some (← body_files_heap o tmp mime data)

/-- A pointer that is there stays, one that is missing is to a new block. -/
def fill_pointer (p : Option ℕ) (b : Option Buffer) : HeapRun (Option ℕ) :=
  match p, b with
  | some p, _ => return some p
  | none, some b => do return some (← malloc b)
  | none, none => return none

/-- The name and the path that `file_write` has filled in. -/
def fill_record (o : Options) (directory : Option (List UInt8)) (f : FileRecord) (file : File) :
    HeapRun FileRecord := do
  let (file, _) ← lift (file_path o directory file)
  let name ← fill_pointer f.name file.name
  let path ← fill_pointer f.path (file.path.map strdup)
  return { f with name := name, path := path }

/-- The strings of the record that can be read. -/
def FileRecord.strings (h : Heap Buffer) (f : FileRecord) : Option Buffer × Option Buffer :=
  (f.name.bind h.read, f.mime_type.bind h.read)

/-- The call sees the record as it is in the heap, and leaves its name and path there. -/
def file_write_heap (o : Options) (directory : Option (List UInt8)) (f : FileRecord) :
    HeapRun FileRecord := do
  let m ← get
  set { m with handed := m.handed ++ [f.strings m.heap] }
  outside (file_write o directory (f.view m.heap))
  fill_record o directory f (f.view m.heap)

/-- The pointers of a record, in the order in which they are released. -/
def FileRecord.pointers (f : FileRecord) : List ℕ :=
  [f.name, f.data, f.mime_type, f.content_id, f.path].reduceOption

def file_free_heap (f : FileRecord) : HeapRun Unit := f.pointers.forM xfree

/-- `for (j = 0; files[j]; j++)`. -/
def write_body_files_heap (o : Options) (directory : Option (List UInt8)) :
    List FileRecord → HeapRun Unit
  | [] => return ()
  | f :: files => do
    let f ← file_write_heap o directory f
    file_free_heap f
    write_body_files_heap o directory files

/-! ## Building the records -/

/-- The pointer behind a live block reads as it did before, whatever is allocated. -/
theorem look_of_read {h : Heap Buffer} {p : ℕ} {b : Buffer} (hread : h.read p = some b) :
    look h p = b := by
  rw [look, hread]

/-- Nothing is left to read in a block that has been released. -/
theorem look_of_released {h : Heap Buffer} {p : ℕ} {b : Buffer} (hread : h.read p = none)
    (hblock : h.blocks[p]? = some b) : look h p = b.released := by
  rw [look, hread]
  simp only [List.getD_eq_getElem?_getD, hblock, Option.getD_some]

theorem exec_malloc (b : Buffer) (m : Memory) :
    exec (malloc b) m = (.ok m.heap.next, { m with heap := m.heap.allocs [b] }) := rfl

/-- A record of a kind whose name and MIME type are `tmp` and `mime`, with its own length and
data. -/
def shared_record (tmp mime : ℕ) (d : ℕ × ℕ) : FileRecord :=
  { name := some tmp, mime_type := some mime, len := d.1, data := some d.2 }

/-- **Every record gets a block for its data**, and the two pointers that all of them get. -/
theorem body_files_heap_spec (o : Options) (tmp mime : ℕ) (data : List (Option VarLenData)) :
    ∀ {m m₁ : Memory} {r : Except Stop (List FileRecord)},
    exec (body_files_heap o tmp mime data) m = (r, m₁) →
    (∀ e, r = .error e → ∀ name type, body_files o name type data = .error e)
      ∧ ∀ files, r = .ok files → ∃ (bs : List Buffer) (ds : List (ℕ × ℕ)),
        m₁ = { m with heap := m.heap.allocs bs } ∧ files = ds.map (shared_record tmp mime)
          ∧ ds.map Prod.snd = List.range' m.heap.next bs.length
          ∧ ∀ name type, body_files o name type data = .ok (ds.map fun d =>
            { name := some name, mime_type := some type, len := d.1, data := some (look m₁.heap d.2) }) := by
  induction data with
  | nil =>
    intro m m₁ r h
    cases h
    refine ⟨?_, ?_⟩
    · rintro e ⟨⟩ name type
      rfl
    · rintro files ⟨⟩
  | cons d data ih =>
    intro m m₁ r h
    cases d with
    | none =>
      cases h
      refine ⟨?_, ?_⟩
      · rintro e ⟨⟩
      · rintro files ⟨⟩
        exact ⟨[], [], by rw [Heap.allocs_nil], rfl, rfl, fun _ _ => rfl⟩
    | some d =>
      cases hcopy : copy_len o d.len d.data with
      | error e =>
        rw [body_files_heap, hcopy, exec_bind] at h
        cases h
        refine ⟨?_, ?_⟩
        · rintro e ⟨⟩ name type
          rw [body_files, hcopy, error_bind]
        · rintro files ⟨⟩
      | ok b =>
        rw [body_files_heap, hcopy, lift_ok, pure_bind, exec_bind, exec_malloc] at h
        simp only [exec_bind] at h
        generalize hrest : exec (body_files_heap o tmp mime data)
          { m with heap := m.heap.allocs [b] } = rest at h
        obtain ⟨hstops, hbuilds⟩ := ih hrest
        obtain ⟨e | files, m₂⟩ := rest
        · cases h
          refine ⟨?_, ?_⟩
          · rintro e ⟨⟩ name type
            rw [body_files, hcopy, ok_bind, hstops e rfl name type, error_bind]
          · rintro files ⟨⟩
        · cases h
          refine ⟨?_, ?_⟩
          · rintro e ⟨⟩
          rintro files' ⟨⟩
          obtain ⟨bs, ds, hm, rfl, hds, hfiles⟩ := hbuilds files rfl
          rw [Heap.allocs_allocs, List.singleton_append] at hm
          refine ⟨b :: bs, (d.len, m.heap.next) :: ds, hm, rfl, ?_, ?_⟩
          · rw [List.map_cons, List.length_cons, List.range'_succ, hds, Heap.next_allocs]
            rfl
          · -- the block of this record reads the same once the others have theirs
            have hheap : m₁.heap = m.heap.allocs (b :: bs) := congrArg Memory.heap hm
            have hread : m₁.heap.read m.heap.next = some b := by
              rw [hheap]
              exact @Heap.read_allocs_new _ m.heap (b :: bs) 0 (Nat.succ_pos _)
            intro name type
            rw [body_files, hcopy, ok_bind, hfiles, ok_bind, List.map_cons, look_of_read hread]
            rfl

/-- The two strings of a kind are in live blocks, and every record has a block for its data. -/
structure Built (filename : List UInt8) (c : UInt8) (m : Memory) (tmp mime : ℕ)
    (ds : List (ℕ × ℕ)) : Prop where
  name : m.heap.read tmp = some (strdup (filename ++ body_ext c))
  type : m.heap.read mime = some (strdup (body_type c))
  distinct : (tmp :: mime :: ds.map Prod.snd).Nodup
  live : ∀ d ∈ ds, m.heap.Live d.2

/-- What `get_body_files` has allocated is live and distinct. -/
theorem built_of_allocs {filename : List UInt8} {c : UInt8} {m m₁ : Memory} {bs : List Buffer}
    {ds : List (ℕ × ℕ)} (hheap : m₁.heap
      = m.heap.allocs ([strdup (filename ++ body_ext c), strdup (body_type c)] ++ bs))
    (hds : ds.map Prod.snd = List.range' (m.heap.next + 2) bs.length) :
    Built filename c m₁ m.heap.next (m.heap.next + 1) ds := by
  have hlen : ([strdup (filename ++ body_ext c), strdup (body_type c)] ++ bs).length
      = bs.length + 2 := by
    simp
  refine ⟨?_, ?_, ?_, ?_⟩
  · rw [hheap]
    exact @Heap.read_allocs_new _ m.heap _ 0 (by omega)
  · rw [hheap]
    exact @Heap.read_allocs_new _ m.heap _ 1 (by omega)
  · -- the numbers are given out one after the other
    have hrange : m.heap.next :: (m.heap.next + 1) :: List.range' (m.heap.next + 2) bs.length
        = List.range' m.heap.next (bs.length + 2) := rfl
    rw [hds, hrange]
    exact List.nodup_range'
  · intro d hd
    have hmem : d.2 ∈ List.range' (m.heap.next + 2) bs.length := by
      rw [← hds]
      exact List.mem_map_of_mem hd
    obtain ⟨hle, hlt⟩ := List.mem_range'_1.mp hmem
    obtain ⟨k, hk⟩ := Nat.exists_eq_add_of_le hle
    rw [hheap, hk, Nat.add_assoc]
    exact Heap.live_allocs_new (by omega)

/-- A record that has been built looks like the one of `get_body_files`. -/
theorem Built.view_eq {filename : List UInt8} {c : UInt8} {m : Memory} {tmp mime : ℕ}
    {ds : List (ℕ × ℕ)} (h : Built filename c m tmp mime ds) (d : ℕ × ℕ) :
    (shared_record tmp mime d).view m.heap = ⟨some (strdup (filename ++ body_ext c)), none, d.1,
      some (look m.heap d.2), .zero, some (strdup (body_type c)), none⟩ := by
  rw [FileRecord.view, shared_record, ← look_of_read h.name, ← look_of_read h.type]
  rfl

/-- **What is built** on the heap is what `get_body_files` builds, with pointers. -/
theorem get_body_files_heap_spec {o : Options} {filename : List UInt8} {c : UInt8}
    {body : MessageBody} {m m₁ : Memory} {r : Except Stop (Option (List FileRecord))}
    (h : exec (get_body_files_heap o filename c body) m = (r, m₁)) :
    get_body_files o filename c body = (Option.map (List.map (FileRecord.view m₁.heap))) <$> r
      ∧ ∀ files, r = .ok (some files) → m₁.world = m.world
        ∧ ∃ tmp mime ds, files = ds.map (shared_record tmp mime) ∧ Built filename c m₁ tmp mime ds := by
  unfold get_body_files_heap at h
  unfold get_body_files
  cases hdata : body_data body c with
  | none =>
    rw [hdata] at h
    cases h
    exact ⟨rfl, nofun⟩
  | some data =>
    rw [hdata] at h
    simp only at h ⊢
    cases hname : checked_xcalloc o (filename.length + (body_ext c).length + 1) 1 0 with
    | error e =>
      rw [hname, exec_bind] at h
      cases h
      exact ⟨rfl, nofun⟩
    | ok n =>
      cases htype : checked_xcalloc o ((body_type c).length + 1) 1 0 with
      | error e =>
        rw [hname, htype, lift_ok, pure_bind, exec_bind, exec_malloc] at h
        cases h
        exact ⟨rfl, nofun⟩
      | ok k =>
        rw [hname, htype, lift_ok, pure_bind, exec_bind, exec_malloc] at h
        simp only [lift_ok, pure_bind, exec_bind, exec_malloc, Heap.next_allocs, Heap.allocs_allocs,
          List.singleton_append, List.length_singleton] at h
        -- name and MIME type are in the first two blocks, the data in those behind them
        generalize hfiles : exec (body_files_heap o m.heap.next (m.heap.next + 1) data)
          { m with heap := m.heap.allocs [strdup (filename ++ body_ext c), strdup (body_type c)] }
          = built at h
        match built, hfiles, h with
        | (.error e, m₂), hfiles, h =>
          cases h
          rw [ok_bind, ok_bind, (body_files_heap_spec o _ _ data hfiles).1 e rfl]
          exact ⟨rfl, nofun⟩
        | (.ok files, m₂), hfiles, h =>
          cases h
          obtain ⟨bs, ds, hm, rfl, hds, hview⟩ :=
            (body_files_heap_spec o _ _ data hfiles).2 files rfl
          rw [Heap.allocs_allocs] at hm
          rw [Heap.next_allocs] at hds
          have hbuilt := built_of_allocs (congrArg Memory.heap hm) hds
          refine ⟨?_, ?_⟩
          · have hsame : (fun d : ℕ × ℕ => (⟨some (strdup (filename ++ body_ext c)), none, d.1,
                  some (look m₁.heap d.2), .zero, some (strdup (body_type c)), none⟩ : File))
                = FileRecord.view m₁.heap ∘ shared_record m.heap.next (m.heap.next + 1) :=
              funext fun d => (hbuilt.view_eq d).symm
            rw [ok_bind, ok_bind, hview, ok_bind, hsame, ← List.map_map]
            rfl
          · rintro files' ⟨⟩
            exact ⟨by rw [hm], _, _, ds, rfl, hbuilt⟩

/-! ## Handing one record over -/

theorem exec_outside {α : Type} (x : Run α) (m : Memory) :
    exec (outside x) m = ((exec x m.world).1, { m with world := (exec x m.world).2 }) := rfl

/-- Live pointers that are all different are released one after the other. -/
theorem exec_forM_xfree (ps : List ℕ) : ∀ {m : Memory} {heap : Heap Buffer},
    m.heap.releaseAll ps = some heap →
    exec (ps.forM xfree) m = (.ok (), { m with heap := heap, freed := m.freed ++ ps }) := by
  induction ps with
  | nil =>
    intro m heap h
    cases h
    rw [List.append_nil]
    rfl
  | cons p ps ih =>
    intro m heap h
    obtain ⟨heap₁, hone, hrest⟩ := Option.bind_eq_some_iff.mp h
    have hfirst : exec (xfree p) m
        = (.ok (), { m with heap := heap₁, freed := m.freed ++ [p] }) := by
      have hrun : exec (xfree p) m = exec (match m.heap.release p with
          | none => throw .fault
          | some heap => set { m with heap := heap, freed := m.freed ++ [p] } : HeapRun Unit)
          { m with freed := m.freed ++ [p] } := rfl
      rw [hrun, hone]
      rfl
    have hcons : (p :: ps).forM xfree = xfree p >>= fun _ => ps.forM xfree := rfl
    rw [hcons, exec_bind, hfirst]
    simp only
    rw [ih hrest, List.append_assoc, List.singleton_append]

/-- A call that returns has found a path for the record. -/
theorem file_path_of_file_write {o : Options} {directory : Option (List UInt8)} {file : File}
    (hfresh : file.path = none) {w w' : World}
    (h : exec (file_write o directory file) w = (.ok (), w')) :
    ∃ file' path p, file_path o directory file = .ok (file', p) ∧ file'.path = some path := by
  unfold file_write at h
  obtain ⟨_, w₁, -, h⟩ := exec_bind_eq_ok.mp h
  obtain ⟨⟨file', p⟩, w₂, hpath, -⟩ := exec_bind_eq_ok.mp h
  obtain ⟨hpath, -⟩ := Prod.mk.inj hpath
  refine ⟨file', ?_⟩
  have hshape := hpath
  unfold file_path at hshape
  rw [hfresh] at hshape
  simp only [bind_eq_ok, pure_eq_ok, Except.ok.injEq, Prod.mk.injEq] at hshape
  obtain ⟨text, -, r, -, fpath, -, _, -, rfl, -⟩ := hshape
  exact ⟨_, p, hpath, rfl⟩

section Turn

variable {o : Options} {directory : Option (List UInt8)} {m : Memory} {f : FileRecord} {w : World}

theorem exec_file_write_heap : exec (file_write_heap o directory f) m
    = exec (outside (file_write o directory (f.view m.heap)) >>= fun _ =>
        fill_record o directory f (f.view m.heap)) { m with handed := m.handed ++ [f.strings m.heap] } := rfl

/-- A call that stops the run stops it here too. -/
theorem file_write_heap_stops {e : Stop}
    (h : exec (file_write o directory (f.view m.heap)) m.world = (.error e, w)) :
    exec (file_write_heap o directory f) m
      = (.error e, { m with world := w, handed := m.handed ++ [f.strings m.heap] }) := by
  rw [exec_file_write_heap, exec_bind, exec_outside]
  simp only [h]

/-- A record with a name gets a path of its own. -/
theorem file_write_heap_returns {tmp : ℕ} (hname : f.name = some tmp) (hpath : f.path = none)
    (h : exec (file_write o directory (f.view m.heap)) m.world = (.ok (), w)) :
    ∃ path : List UInt8, exec (file_write_heap o directory f) m
      = (.ok { f with path := some m.heap.next },
        ⟨m.heap.allocs [strdup path], w, m.handed ++ [f.strings m.heap], m.freed⟩) := by
  have hfresh : (f.view m.heap).path = none := by
    rw [FileRecord.view, hpath]
    rfl
  obtain ⟨file', path, p, hfile, hpath'⟩ := file_path_of_file_write hfresh h
  refine ⟨path, ?_⟩
  rw [exec_file_write_heap, exec_bind, exec_outside]
  simp only [h]
  rw [fill_record, hfile, lift_ok, pure_bind]
  simp only [hname, hpath, hpath']
  rfl

/-- The pointers the first record is released with: two strings, its data, and its path. -/
theorem Built.pointers {filename : List UInt8} {c : UInt8} {tmp mime : ℕ} {d : ℕ × ℕ}
    {ds : List (ℕ × ℕ)} (h : Built filename c m tmp mime (d :: ds)) :
    [tmp, d.2, mime, m.heap.next].Nodup
      ∧ ∀ p ∈ [tmp, d.2, mime, m.heap.next], ∀ b, (m.heap.allocs [b]).Live p := by
  have htmp : m.heap.Live tmp := Heap.live_iff_read.mpr ⟨_, h.name⟩
  have hmime : m.heap.Live mime := Heap.live_iff_read.mpr ⟨_, h.type⟩
  have hd := h.live d (List.mem_cons_self ..)
  have hdistinct := h.distinct
  simp only [List.map_cons, List.nodup_cons, List.mem_cons, not_or] at hdistinct
  simp only [List.nodup_cons, List.mem_cons, List.not_mem_nil, or_false, not_or, not_false_eq_true,
    List.nodup_nil, and_true, forall_eq_or_imp, forall_eq]
  refine ⟨⟨⟨hdistinct.1.2.1, hdistinct.1.1, htmp.1.ne⟩,
    ⟨Ne.symm hdistinct.2.1.1, hd.1.ne⟩, hmime.1.ne⟩, ?_⟩
  exact ⟨fun _ => htmp.allocs, fun _ => hd.allocs, fun _ => hmime.allocs,
    fun b => @Heap.live_allocs_new _ m.heap [b] 0 (Nat.succ_pos _)⟩

/-- **The first record**: its strings are live when it is handed over, and if the call returns
they are released with it, under the other records. -/
theorem Built.first_turn {filename : List UInt8} {c : UInt8} {tmp mime : ℕ} {d : ℕ × ℕ}
    {ds : List (ℕ × ℕ)} (h : Built filename c m tmp mime (d :: ds))
    (hcall : exec (file_write o directory ((shared_record tmp mime d).view m.heap)) m.world = (.ok (), w)) :
    ∃ m', (∀ files, exec (write_body_files_heap o directory (shared_record tmp mime d :: files)) m
        = exec (write_body_files_heap o directory files) m')
      ∧ m'.world = w ∧ m'.handed = m.handed ++ [(shared_record tmp mime d).strings m.heap]
      ∧ m'.freed = m.freed ++ [tmp, d.2, mime, m.heap.next]
      ∧ m'.heap.read tmp = none ∧ m'.heap.read mime = none
      ∧ ∀ d' ∈ ds, (shared_record tmp mime d').view m'.heap
        = ((shared_record tmp mime d').view m.heap).shared_released := by
  obtain ⟨path, hrun⟩ := file_write_heap_returns rfl rfl hcall
  obtain ⟨hnodup, hlive⟩ := h.pointers
  obtain ⟨heap, hheap⟩ : ∃ heap, (m.heap.allocs [strdup path]).releaseAll [tmp, d.2, mime, m.heap.next]
      = some heap := (Heap.releaseAll_returns_iff _).mpr ⟨hnodup, fun p hp => hlive p hp _⟩
  have hblocks := (Heap.releaseAll_eq_some _ hheap).1
  -- a string is gone, and the block it was in is the one it always was
  have hgone : ∀ {p b}, m.heap.read p = some b → p ∈ [tmp, d.2, mime, m.heap.next] →
      heap.read p = none ∧ heap.blocks[p]? = some b := by
    intro p b hread hp
    refine ⟨Heap.read_released hheap hp, ?_⟩
    rw [hblocks]
    apply Heap.block_of_read
    rw [Heap.read_allocs (Heap.live_iff_read.mpr ⟨b, hread⟩).1, hread]
  have hname := hgone h.name (List.mem_cons_self ..)
  have htype := hgone h.type (by simp)
  refine ⟨⟨heap, w, m.handed ++ [(shared_record tmp mime d).strings m.heap],
    m.freed ++ [tmp, d.2, mime, m.heap.next]⟩, ?_, rfl, rfl, rfl, hname.1, htype.1, ?_⟩
  · intro files
    have hfree : exec (file_free_heap { shared_record tmp mime d with path := some m.heap.next })
        ⟨m.heap.allocs [strdup path], w, m.handed ++ [(shared_record tmp mime d).strings m.heap], m.freed⟩
        = (.ok (), ⟨heap, w, m.handed ++ [(shared_record tmp mime d).strings m.heap],
          m.freed ++ [tmp, d.2, mime, m.heap.next]⟩) := exec_forM_xfree _ hheap
    rw [write_body_files_heap, exec_bind, hrun]
    simp only
    rw [exec_bind, hfree]
  · intro d' hd'
    obtain ⟨b, hb⟩ := Heap.live_iff_read.mp (h.live d' (List.mem_cons_of_mem _ hd'))
    have hother : d'.2 ∉ [tmp, d.2, mime, m.heap.next] := by
      have hlt := (h.live d' (List.mem_cons_of_mem _ hd')).1
      have hdistinct := h.distinct
      have hmem : d'.2 ∈ ds.map Prod.snd := List.mem_map_of_mem hd'
      simp only [List.map_cons, List.nodup_cons, List.mem_cons, not_or] at hdistinct
      simp only [List.mem_cons, List.not_mem_nil, or_false, not_or]
      refine ⟨?_, ?_, ?_, hlt.ne⟩
      · rintro heq
        exact hdistinct.1.2.2 (heq ▸ hmem)
      · rintro heq
        exact hdistinct.2.2.1 (heq ▸ hmem)
      · rintro heq
        exact hdistinct.2.1.2 (heq ▸ hmem)
    have hdata : heap.read d'.2 = some b := by
      rw [Heap.read_releaseAll hheap hother, Heap.read_allocs (Heap.live_iff_read.mpr ⟨b, hb⟩).1, hb]
    rw [h.view_eq, File.shared_released]
    simp only [FileRecord.view, shared_record, Option.map_some, look_of_released hname.1 hname.2,
      look_of_released htype.1 htype.2, look_of_read hdata, look_of_read hb]
    rfl

/-- **The second record**: its strings are gone, and the call stops. -/
theorem second_turn {m' : Memory} {tmp mime : ℕ} {d : ℕ × ℕ} {files : List FileRecord}
    (hname : m'.heap.read tmp = none) (htype : m'.heap.read mime = none)
    (hview : (shared_record tmp mime d).view m'.heap
      = ((shared_record tmp mime d).view m.heap).shared_released) :
    exec (write_body_files_heap o directory (shared_record tmp mime d :: files)) m'
      = (.error .fault, { m' with
          world := (exec (file_write o directory ((shared_record tmp mime d).view m'.heap)) m'.world).2,
          handed := m'.handed ++ [(none, none)] }) := by
  -- the path is made of the name, which can no longer be read
  have hfault : (exec (file_write o directory ((shared_record tmp mime d).view m'.heap)) m'.world).1
      = .error .fault := by
    rw [hview]
    exact file_write_released o directory rfl rfl _
  have hstrings : (shared_record tmp mime d).strings m'.heap = (none, none) := by
    rw [FileRecord.strings, shared_record]
    simp only [Option.bind_some, hname, htype]
  have hstop := file_write_heap_stops (Prod.ext hfault rfl :
    exec (file_write o directory ((shared_record tmp mime d).view m'.heap)) m'.world = (.error .fault, _))
  rw [write_body_files_heap, exec_bind, hstop, hstrings]

end Turn

/-! ## The loop -/

/-- **The loop over the records of a kind** does on the heap what it does on records that hold
their contents. -/
theorem write_body_files_refines (o : Options) (directory : Option (List UInt8))
    {filename : List UInt8} {c : UInt8} {m : Memory} {tmp mime : ℕ} {ds : List (ℕ × ℕ)}
    (h : Built filename c m tmp mime ds) :
    let x := exec (write_body_files_heap o directory (ds.map (shared_record tmp mime))) m
    let y := exec (write_body_files o directory ((ds.map (shared_record tmp mime)).map
      (FileRecord.view m.heap))) m.world
    x.1 = y.1 ∧ x.2.world = y.2 := by
  -- no induction: if the first call returns, the second stops the loop
  cases ds with
  | nil =>
    rw [List.map_nil, List.map_nil, write_body_files_heap, write_body_files]
    exact ⟨rfl, rfl⟩
  | cons d ds =>
    rw [List.map_cons, List.map_cons, write_body_files]
    rcases hcall : exec (file_write o directory ((shared_record tmp mime d).view m.heap)) m.world
      with ⟨e | ⟨⟩, w⟩
    · rw [write_body_files_heap, exec_bind, exec_bind, file_write_heap_stops hcall, hcall]
      exact ⟨rfl, rfl⟩
    · obtain ⟨m', hrun, rfl, -, -, hname, htype, hview⟩ := h.first_turn hcall
      rw [hrun, exec_bind, hcall]
      cases ds with
      | nil =>
        rw [List.map_nil, List.map_nil, List.map_nil, write_body_files_heap, write_body_files]
        exact ⟨rfl, rfl⟩
      | cons d' ds =>
        have hsecond := hview d' (List.mem_cons_self ..)
        rw [List.map_cons, List.map_cons, List.map_cons, write_body_files,
          second_turn hname htype hsecond, hsecond]
        simp only
        have hfault := @file_write_released o directory
          ((shared_record tmp mime d').view m.heap) rfl rfl m'.world
        rw [exec_bind]
        generalize exec (file_write o directory
          ((shared_record tmp mime d').view m.heap).shared_released) m'.world = r at hfault ⊢
        obtain ⟨_, w'⟩ := r
        simp only at hfault
        rw [hfault]
        exact ⟨rfl, rfl⟩

/-- All `n` records have been handed over with both strings live and right, and nothing has
been released twice. -/
structure LiveThroughout (filename : List UInt8) (c : UInt8) (n : ℕ) (m m' : Memory) : Prop where
  handed : m'.handed = m.handed
    ++ List.replicate n (some (strdup (filename ++ body_ext c)), some (strdup (body_type c)))
  freed_once : ∃ ps, m'.freed = m.freed ++ ps ∧ ps.Nodup ∧ ∀ p ∈ ps, p ∉ m.heap.released

/-- The strings are live throughout if there is no second record. -/
theorem live_throughout_iff (o : Options) (directory : Option (List UInt8))
    {filename : List UInt8} {c : UInt8} {body : MessageBody} {m m₁ : Memory}
    {files : List FileRecord}
    (hbuilt : exec (get_body_files_heap o filename c body) m = (.ok (some files), m₁)) :
    LiveThroughout filename c files.length m₁ (exec (write_body_files_heap o directory files) m₁).2
      ↔ files.length ≤ 1 := by
  obtain ⟨-, tmp, mime, ds, rfl, hrecords⟩ := (get_body_files_heap_spec hbuilt).2 files rfl
  have hstrings : ∀ d, (shared_record tmp mime d).strings m₁.heap
      = (some (strdup (filename ++ body_ext c)), some (strdup (body_type c))) := by
    intro d
    rw [FileRecord.strings, shared_record]
    simp only [Option.bind_some, hrecords.name, hrecords.type]
  match ds, hrecords with
  | [], _ =>
    refine ⟨fun _ => Nat.zero_le 1, fun _ => ⟨(List.append_nil _).symm, [], ?_⟩⟩
    exact ⟨(List.append_nil _).symm, List.nodup_nil, nofun⟩
  | [d], hrecords =>
    refine ⟨fun _ => le_rfl, fun _ => ?_⟩
    obtain ⟨hnodup, hlive⟩ := hrecords.pointers
    rw [List.map_singleton]
    match hcall : exec (file_write o directory ((shared_record tmp mime d).view m₁.heap)) m₁.world with
    | (.error e, w) =>
      rw [write_body_files_heap, exec_bind, file_write_heap_stops hcall]
      refine ⟨?_, [], (List.append_nil _).symm, List.nodup_nil, nofun⟩
      rw [hstrings]
      rfl
    | (.ok (), w) =>
      obtain ⟨m', hrun, -, hhanded, hfreed, -⟩ := hrecords.first_turn hcall
      rw [hrun, write_body_files_heap]
      refine ⟨?_, _, hfreed, hnodup, fun p hp => (hlive p hp (.full [])).2⟩
      rw [hstrings] at hhanded
      exact hhanded
  | d :: d' :: ds, hrecords =>
    refine ⟨fun hlive => ?_, fun hlen => by simp at hlen⟩
    exfalso
    have hhanded := hlive.handed
    rw [List.map_cons] at hhanded
    match hcall : exec (file_write o directory ((shared_record tmp mime d).view m₁.heap)) m₁.world with
    | (.error e, w) =>
      -- the run is over before the second record
      rw [write_body_files_heap, exec_bind, file_write_heap_stops hcall] at hhanded
      have hlen := congrArg List.length hhanded
      simp at hlen
    | (.ok (), w) =>
      obtain ⟨m', hrun, -, hfirst, -, hname, htype, hview⟩ := hrecords.first_turn hcall
      rw [hrun, List.map_cons, second_turn hname htype (hview d' (List.mem_cons_self ..))] at hhanded
      simp only at hhanded
      rw [hfirst, List.append_assoc, List.append_cancel_left_eq] at hhanded
      have hmem : (none, none) ∈ [(shared_record tmp mime d).strings m₁.heap] ++ [(none, none)] :=
        List.mem_append_right _ (List.mem_singleton_self _)
      rw [hhanded] at hmem
      cases List.eq_of_mem_replicate hmem

/-- Both the first value and the second one give a body: a value that is not recognised has an
empty slot. -/
def TwoBodies (values : List (Option (List UInt8))) : Prop :=
  ∃ x y rest, values = some x :: some y :: rest

/-- The condition, on the values in front of the first one without a body. -/
theorem not_twoBodies_iff (values : List (Option (List UInt8))) :
    ¬ TwoBodies values ↔ (present values).length ≤ 1 := by
  match values with
  | [] => exact ⟨fun _ => Nat.zero_le 1, fun _ => nofun⟩
  | none :: values => exact ⟨fun _ => Nat.zero_le 1, fun _ => nofun⟩
  | [some x] => exact ⟨fun _ => le_rfl, fun _ => nofun⟩
  | some x :: none :: values => exact ⟨fun _ => le_rfl, fun _ => nofun⟩
  | some x :: some y :: values =>
    refine ⟨fun h => absurd ⟨x, y, values, rfl⟩ h, fun h => ?_⟩
    rw [present_some, present_some, List.length_cons, List.length_cons] at h
    omega

/-- **The strings are live throughout exactly if no two values give a body** in front of the
first one that gives none. -/
theorem body_strings_live_iff (o : Options) (directory : Option (List UInt8))
    (filename : List UInt8) (c : UInt8) (as : List (Attr × UInt16)) {tail : List UInt8}
    (htail : NoAttr tail) (is_stdin : Bool) {w w₁ : World} {inp : Input} {s : ParseState}
    (hloop : exec (attr_loop o (parse_attr o directory)
      { rest := attr_bytes as ++ tail, is_stdin := is_stdin } {}) w = (.ok (inp, s), w₁))
    {m m₁ : Memory} {files : List FileRecord}
    (hbuilt : exec (get_body_files_heap o filename c s.body) m = (.ok (some files), m₁)) :
    ∃ values, slots o (as.map (·.1)) c = some values
      ∧ files.length = (present values).length
      ∧ (LiveThroughout filename c files.length m₁
          (exec (write_body_files_heap o directory files) m₁).2 ↔ ¬ TwoBodies values) := by
  have hoffers := loop_offers (loop_of_fold o directory (fold_of_loop_tail o directory htail hloop)) c
  have hfiles := (get_body_files_heap_spec hbuilt).1
  match hvalues : slots o (as.map (·.1)) c with
  | none =>
    -- without a property no record is built
    rw [hvalues] at hoffers
    rw [get_body_files_absent hoffers] at hfiles
    cases hfiles
  | some values =>
    rw [hvalues] at hoffers
    have hgrant : NamesGranted o filename c := by
      by_contra hrefused
      obtain ⟨e, he⟩ := get_body_files_refused hoffers hrefused
      rw [he] at hfiles
      cases hfiles
    have hlength : files.length = (present values).length := by
      rw [get_body_files_present hoffers hgrant] at hfiles
      have hlen := congrArg List.length (Option.some.inj (Except.ok.inj hfiles))
      rw [List.length_map, List.length_map] at hlen
      exact hlen.symm
    refine ⟨values, hvalues, hlength, ?_⟩
    rw [live_throughout_iff o directory hbuilt, hlength, not_twoBodies_iff]

/-- A message with a text. -/
def one_text : Attr × UInt16 :=
  (⟨.LVL_MESSAGE, szTEXT, attBODY, ascii "hi", by decide⟩, byte_sum (ascii "hi"))

/-- The text of a message is one value. -/
theorem body_strings_live_iff_witness : ∃ files m₁,
    exec (get_body_files_heap {} (ascii "message") 0x74
        { text_body := some [some ⟨2, .full (ascii "hi")⟩, none] }) {} = (.ok (some files), m₁)
      ∧ LiveThroughout (ascii "message") 0x74 files.length m₁
        (exec (write_body_files_heap {} none files) m₁).2 := by
  obtain ⟨files, m₁, hbuilt⟩ : ∃ files m₁, exec (get_body_files_heap {} (ascii "message") 0x74
      { text_body := some [some ⟨2, .full (ascii "hi")⟩, none] }) {} = (.ok (some files), m₁) :=
    ⟨_, _, rfl⟩
  refine ⟨files, m₁, hbuilt, ?_⟩
  have hreads : (exec (attr_loop {} (parse_attr {} none) { rest := attr_bytes [one_text] ++ [] } {})
      {}).1.toOption.map (fun r => r.2.body)
      = some { text_body := some [some ⟨2, .full (ascii "hi")⟩, none] } := by
    decide +kernel
  match hrun : exec (attr_loop {} (parse_attr {} none) { rest := attr_bytes [one_text] ++ [] } {}) {},
    hreads with
  | (.ok (inp, s), w₁), hreads =>
    have hbody : s.body = { text_body := some [some ⟨2, .full (ascii "hi")⟩, none] } :=
      Option.some.inj hreads
    rw [← hbody] at hbuilt
    obtain ⟨values, hvalues, -, hlive⟩ := body_strings_live_iff {} none (ascii "message") 0x74
      [one_text] (no_attr_of_short (by decide)) false hrun hbuilt
    refine hlive.mpr ?_
    cases hvalues
    rintro ⟨x, y, rest, heq⟩
    cases heq

/-- A message whose HTML body has two values, `a` and `b`. -/
def two_bodies : Attr :=
  ⟨.LVL_MESSAGE, szBYTE, attMAPIPROPS, [1, 0, 0, 0, 0x02, 0x11, 0x13, 0x10, 2, 0, 0, 0,
    1, 0, 0, 0, 97, 0, 0, 0, 1, 0, 0, 0, 98, 0, 0, 0], by decide⟩

/-- **The second record's strings have been released** with the first record. -/
theorem body_strings_released :
    ¬ ∀ (o : Options) (directory : Option (List UInt8)) (filename : List UInt8) (c : UInt8)
      (attr : Attr) (body : MessageBody) (m m₁ : Memory) (files : List FileRecord),
      message_attr o {} attr = .ok body →
      exec (get_body_files_heap o filename c body) m = (.ok (some files), m₁) → files ≠ [] →
      LiveThroughout filename c files.length m₁ (exec (write_body_files_heap o directory files) m₁).2 := by
  intro h
  have hbody : message_attr {} {} two_bodies = .ok
      { html_bodies := some [some ⟨1, .full [97]⟩, some ⟨1, .full [98]⟩, none] } := by
    decide +kernel
  have hlive := h {} none (ascii "message") 0x68 two_bodies _ {} _ _ hbody rfl (List.cons_ne_nil _ _)
  have hhanded := hlive.handed
  revert hhanded
  decide +kernel

end Tnef
