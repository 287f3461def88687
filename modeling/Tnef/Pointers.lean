/-
The run over a stream, with its pointers.

Everywhere else a record holds its strings and an attribute its data. Here they are in blocks: the
functions ask for every block they ask for in the source, release those they release there, and
drop the pointers they drop there, while what they put into a block is what the functions without
pointers compute. A block that is gone can neither be released nor looked at, and a structure is
looked at as a whole. Of structures and of arrays of pointers only the block is kept, and of a
path only what it says. What `--debug` reads of an attribute to print it is not looked at here. The
bodies are released at the end but not saved: the records `--save-body` makes share their strings,
and have a heap of their own (`get_body_files_heap`).
-/
import Tnef.Lib.Ownership
import Tnef.Parse

set_option autoImplicit false

namespace Tnef

open ExceptRules Stateful Ownership

/-! ## Blocks -/

abbrev Pointer := Ptr Buffer

abbrev MemRun (α : Type) := HAct Stop Buffer World α

/-- Blocks of their own for `bs`. -/
abbrev Held (bs : List Buffer) := { ps : List Pointer // ps.map Prod.snd = bs }

/-- A structure, or an array of pointers. -/
def Buffer.raw (size : ℕ) : Buffer := ⟨size, [], Nat.zero_le _⟩

def look_at (ps : List Pointer) : MemRun Unit := ps.forM (touch .fault)

/-- `XFREE` of one pointer after the other. -/
def free_all (ps : List Pointer) : MemRun Unit := ps.forM (release .fault)

/-- A pointer to a block of its own. -/
def point (b : Buffer) : MemRun Pointer := do return (← alloc b, b)

/-- NULL where there is nothing to point to. -/
def point_to (b : Option Buffer) : MemRun (Option Pointer) :=
  match b with
  | none => return none
  | some b => do return some (← point b)

/-- A pointer to a C string. -/
abbrev StringPtr := ℕ × List UInt8

def StringPtr.pointer (s : StringPtr) : Pointer := (s.1, strdup s.2)

def point_to_string (s : List UInt8) : MemRun StringPtr := do return (← alloc (strdup s), s)

/-! ## Attributes -/

structure AttrMem where
  attr : Attr
  self : ℕ
  buf : ℕ

def AttrMem.blocks (a : AttrMem) : List Pointer :=
  [(a.buf, .full a.attr.buf), (a.self, .raw sizeof_Attr)]

/-- What `attr_read` asks for. -/
def attr_alloc (attr : Attr) : MemRun AttrMem := do
  let self ← alloc (.raw sizeof_Attr)
  let buf ← alloc (.full attr.buf)
  return ⟨attr, self, buf⟩

/-- `attr_free (attr)` and `XFREE (attr)`. -/
def attr_free (a : AttrMem) : MemRun Unit := do
  look_at a.blocks
  free_all a.blocks

/-! ## Property lists -/

def guid_blocks (a : MAPI_Attr) : List Buffer := if a.guid.isSome then [.raw sizeof_GUID] else []

/-- The names, and the array they are in. -/
def name_blocks (a : MAPI_Attr) : List Buffer :=
  if a.num_names > 0 then a.names.map VarLenData.data ++ [.raw (a.num_names * sizeof_VarLenData)]
  else []

def MAPI_Data.block : MAPI_Data → Option Buffer
  | .buf b => some b
  | _ => none

/-- What `data.buf` points to, value by value. -/
def value_blocks (a : MAPI_Attr) : List Buffer := a.values.filterMap fun v => v.data.block

/-- A `MAPI_Attr` in memory. -/
structure PropertyMem where
  a : MAPI_Attr
  self : ℕ
  guid : Held (guid_blocks a)
  names : Held (name_blocks a)
  values : ℕ
  bufs : Held (value_blocks a)

def PropertyMem.self_pointer (r : PropertyMem) : Pointer := (r.self, .raw sizeof_MAPI_Attr)

def PropertyMem.values_pointer (r : PropertyMem) : Pointer :=
  (r.values, .raw (r.a.num_values * sizeof_MAPI_Value))

def PropertyMem.blocks (r : PropertyMem) : List Pointer :=
  r.bufs.1 ++ (r.names.1 ++ (r.values_pointer :: (r.guid.1 ++ [r.self_pointer])))

/-- The types whose blocks are released with the property: an object keeps them. -/
def released_type (type : UInt16) : Bool :=
  type = szMAPI_STRING ∨ type = szMAPI_UNICODE_STRING ∨ type = szMAPI_BINARY

/-- The values that are released, and those that are not. -/
def PropertyMem.freed (r : PropertyMem) : List Pointer :=
  if released_type r.a.type then r.bufs.1 else []

def PropertyMem.kept (r : PropertyMem) : List Pointer :=
  if released_type r.a.type then [] else r.bufs.1

/-- `mapi_attr_free (attrs[i])` and `XFREE (attrs[i])`. -/
def mapi_attr_free (r : PropertyMem) : MemRun Unit := do
  look_at [r.values_pointer, r.self_pointer]
  free_all r.freed
  free_all (if r.a.num_names > 0 then r.names.1 else [])
  free_all (r.values_pointer :: r.guid.1)
  free_all [r.self_pointer]

/-- The array `mapi_attr_read` returns. -/
structure PropertiesMem where
  num_properties : ℕ
  array : ℕ
  props : List PropertyMem

def PropertiesMem.array_pointer (l : PropertiesMem) : Pointer :=
  (l.array, .raw ((l.num_properties + 1) * sizeof_ptr))

/-- `mapi_attr_free_list (attrs)` and `XFREE (attrs)`. -/
def mapi_attr_free_list (l : PropertiesMem) : MemRun Unit := do
  look_at [l.array_pointer]
  l.props.forM mapi_attr_free
  free_all [l.array_pointer]

/-- One turn of the property loop. A type that is refused is refused at the first value, so no
value has a block then. -/
def read_property_mem (o : Options) (len : ℕ) (buf : List UInt8) (idx : ℕ) :
    MemRun (Option (PropertyMem × ℕ)) := do
  let (a, idx) ← lift (read_header o len buf idx)
  let self ← alloc (.raw sizeof_MAPI_Attr)
  let guid ← allocAll (guid_blocks a)
  let names ← allocAll (name_blocks a)
  let (num_values, idx) ← lift (read_num_values len buf a.type idx)
  let values ← lift (alloc_mapi_values o num_values)
  let array ← alloc (.raw (num_values * sizeof_MAPI_Value))
  let type := amend_type a.type
  match ← lift (read_values o len buf type num_values ⟨idx, values, 0⟩) with
  | none => return none
  | some s => do
    let a' : MAPI_Attr := { a with type := type, num_values := num_values, values := s.values }
    let bufs ← allocAll (value_blocks a')
    return some (⟨a', self, guid, names, array, bufs⟩, s.idx)

def read_properties_mem (o : Options) (len : ℕ) (buf : List UInt8) :
    ℕ → ℕ → List PropertyMem → MemRun (Option (List PropertyMem))
  | 0, _, props => return some props
  | n + 1, idx, props => do
    match ← read_property_mem o len buf idx with
    -- the properties read so far are not released
    | none => return none
    | some (r, idx') => read_properties_mem o len buf n idx' (props ++ [r])

def mapi_attr_read_mem (o : Options) (attr : AttrMem) : MemRun (Option PropertiesMem) := do
  look_at attr.blocks
  let len := attr.attr.len
  let buf := attr.attr.buf
  lift (assert (len > 4))
  let num_properties ← lift (GETINT32 buf 0)
  lift (assert (num_properties + 1 ≠ 0))
  let _ ← lift (checked_xmalloc o (num_properties + 1).toNat sizeof_ptr 0)
  let array ← alloc (.raw ((num_properties.toNat + 1) * sizeof_ptr))
  match ← read_properties_mem o len buf num_properties.toNat 4 [] with
  | none => return none
  | some props => return some ⟨num_properties.toNat, array, props⟩

/-! ## Records -/

/-- A `File` in memory. -/
structure FileMem where
  self : ℕ
  name : Option Pointer := none
  path : Option StringPtr := none
  len : ℕ := 0
  data : Option Pointer := none
  dt : date := .zero
  mime_type : Option Pointer := none
  content_id : Option Pointer := none

/-- What the record says. -/
def FileMem.val (f : FileMem) : File :=
  { name := f.name.map Prod.snd, path := f.path.map Prod.snd, len := f.len,
    data := f.data.map Prod.snd, dt := f.dt, mime_type := f.mime_type.map Prod.snd,
    content_id := f.content_id.map Prod.snd }

def FileMem.self_pointer (f : FileMem) : Pointer := (f.self, .raw sizeof_File)

/-- The pointers of the record, in the order in which they are released. -/
def FileMem.pointers (f : FileMem) : List Pointer :=
  f.name.toList ++ f.data.toList ++ f.mime_type.toList ++ f.content_id.toList
    ++ f.path.toList.map StringPtr.pointer

def FileMem.blocks (f : FileMem) : List Pointer := f.self_pointer :: f.pointers

/-- The record is cleared, and can be used again. -/
def file_free_mem (f : FileMem) : MemRun FileMem := do
  look_at [f.self_pointer]
  free_all f.pointers
  return { self := f.self }

/-- What was there before is released. -/
def replace_pointer (p : Option Pointer) (b : Option Buffer) : MemRun (Option Pointer) := do
  free_all p.toList
  point_to b

def file_add_mapi_attr_mem (o : Options) (f : FileMem) (r : PropertyMem) : MemRun FileMem := do
  look_at (f.blocks ++ r.blocks)
  let a := r.a
  let file ← lift (file_add_mapi_attr o f.val a)
  if a.num_values ≠ 0 then
    if a.name = MAPI_ATTACH_LONG_FILENAME then
      return { f with name := ← replace_pointer f.name file.name }
    else if a.name = MAPI_ATTACH_DATA_OBJ then
      return { f with len := file.len, data := ← replace_pointer f.data file.data }
    else if a.name = MAPI_ATTACH_MIME_TAG then
      return { f with mime_type := ← replace_pointer f.mime_type file.mime_type }
    else if a.name = MAPI_ATTACH_CONTENT_ID then
      return { f with content_id := ← replace_pointer f.content_id file.content_id }
    else
      return f
  else
    return f

/-- `for (i = 0; attrs[i]; i++)`. -/
def file_add_mapi_attrs_mem (o : Options) : FileMem → List PropertyMem → MemRun FileMem
  | f, [] => return f
  | f, r :: props => do
    let f ← file_add_mapi_attr_mem o f r
    file_add_mapi_attrs_mem o f props

/-- A title and the data take the place of what was there, which is not released. -/
def file_add_attr_mem (o : Options) (f : FileMem) (attr : AttrMem) : MemRun FileMem := do
  look_at (f.blocks ++ attr.blocks)
  if attr.attr.name = attATTACHMENT then
    match ← mapi_attr_read_mem o attr with
    | none => return f
    | some l => do
      let f ← file_add_mapi_attrs_mem o f l.props
      mapi_attr_free_list l
      return f
  else do
    let file ← lift (file_add_attr o f.val attr.attr)
    if attr.attr.name = attATTACHMODIFYDATE then
      return { f with dt := file.dt }
    else if attr.attr.name = attATTACHTITLE then
      return { f with name := ← point_to file.name }
    else if attr.attr.name = attATTACHDATA then
      return { f with len := file.len, data := ← point_to file.data }
    else
      return f

/-! ## Writing a record -/

/-- With nothing left of the name its block is not released. -/
def concat_fname_mem (o : Options) (fname1 fname2 : Option (List UInt8)) :
    MemRun (Option StringPtr) := do
  if fname1 = none ∧ fname2 = none then
    return none
  else
    let filename ← lift (copy_fnames o fname1 fname2)
    let p ← point_to_string (strip_slashes filename)
    if strip_slashes filename = [] then
      return none
    else
      return some p

/-- The copies that `dir` and `base` point into are released, and so is the sanitized base. -/
def munge_fname_mem (o : Options) (fname : List UInt8) : MemRun (Option StringPtr) := do
  if fname = [] then
    return none
  else
    let fpd ← allocAll (if o.paths ∧ could_be_a_windows_path fname then [strdup fname] else [])
    let fpb ← point (strdup fname)
    let sanitary ← lift (sanitize_filename o (split_fname o fname).2)
    let base ← point (strdup sanitary)
    let p ← concat_fname_mem o (split_fname o fname).1 (some sanitary)
    free_all (fpd.1 ++ [fpb, base])
    match p with
    | some (p, []) => do
      free_all [StringPtr.pointer (p, [])]
      return none
    | p => return p

/-- The default where there is no name. -/
def name_or_default (p : Option Pointer) : MemRun Pointer :=
  match p with
  | some p => return p
  | none => point (strdup TNEF_DEFAULT_FILENAME)

/-- The default where there is no path. -/
def or_default (p : Option StringPtr) : MemRun StringPtr :=
  match p with
  | some p => return p
  | none => point_to_string TNEF_DEFAULT_FILENAME

/-- The path the record has, or the one its name gives. -/
def path_or_munged (o : Options) (name : Pointer) (p : Option StringPtr) : MemRun StringPtr :=
  match p with
  | some p => return p
  | none => do
    look_at [name]
    let p ← munge_fname_mem o (← lift name.2.c_str)
    or_default p

/-- The record with its name and path filled in, and the path its data go to. -/
def file_path_mem (o : Options) (directory : Option (List UInt8)) (f : FileMem) :
    MemRun (FileMem × StringPtr) := do
  let name ← name_or_default f.name
  let fpath ← path_or_munged o name f.path
  let p ← concat_fname_mem o directory (some fpath.2)
  let path ← or_default p
  return ({ f with name := some name, path := some fpath }, path)

/-- A path with a number is in another block. -/
def free_path_mem (o : Options) (w : World) (path : StringPtr) : MemRun (Option StringPtr) :=
  if ¬ o.overwrite ∧ file_exists w path.2 then
    if ¬ o.numbered then return none
    else do
      let tmp ← lift (find_free_number o (file_exists w) path.2)
      let tmp ← point_to_string tmp
      free_all [path.pointer]
      return some tmp
  else
    return some path

/-- Up to `fclose`; `none` is a return on the way, where the path is not released. -/
def extract_file_mem (o : Options) (f : FileMem) (path : StringPtr) :
    MemRun (Option StringPtr) := do
  look_at (path.pointer :: f.pointers)
  let name ← lift ((f.val.name.getD (strdup [])).c_str)
  if ← onWorld (confirm_action o (ascii "extract " ++ name ++ ascii "?")) then
    match ← free_path_mem o (← onWorld get) path with
    | none => return none
    | some path => do
      look_at [path.pointer]
      onWorld (write_file f.val path.2)
      return some path
  else
    return none

/-- What comes behind a return on the way is not done. -/
def list_written_mem (o : Options) (f : FileMem) (p : Option StringPtr) : MemRun Unit :=
  match p with
  | none => return ()
  | some path => do
    look_at (path.pointer :: f.pointers)
    onWorld (list_written o f.val (some path.2))
    free_all [path.pointer]

def file_write_mem (o : Options) (directory : Option (List UInt8)) (f : FileMem) :
    MemRun FileMem := do
  look_at f.blocks
  onWorld (modify fun w => { w with calls := w.calls ++ [f.val] })
  let (f, path) ← file_path_mem o directory f
  let p ← if ¬ o.list then extract_file_mem o f path else pure (some path)
  list_written_mem o f p
  return f

/-! ## Bodies -/

/-- The blocks behind a pointer of the array. -/
def body_blocks : Option VarLenData → List Buffer
  | none => []
  | some d => [d.data, .raw sizeof_VarLenData]

/-- Blocks of their own for every entry. -/
abbrev HeldBodies (bodies : List (Option VarLenData)) :=
  { items : List (List Pointer) // items.map (List.map Prod.snd) = bodies.map body_blocks }

/-- An array of bodies in memory. -/
structure BodiesMem where
  bodies : List (Option VarLenData)
  array : ℕ
  items : HeldBodies bodies

def BodiesMem.array_pointer (b : BodiesMem) : Pointer :=
  (b.array, .raw (b.bodies.length * sizeof_ptr))

def BodiesMem.blocks (b : BodiesMem) : List Pointer := b.array_pointer :: b.items.1.flatten

def alloc_items : (bodies : List (Option VarLenData)) → MemRun (HeldBodies bodies)
  | [] => return ⟨[], rfl⟩
  | d :: bodies => do
    let ps ← allocAll (body_blocks d)
    let items ← alloc_items bodies
    return ⟨ps.1 :: items.1, congrArg₂ List.cons ps.2 items.2⟩

def alloc_bodies (bodies : List (Option VarLenData)) : MemRun BodiesMem := do
  let array ← alloc (.raw (bodies.length * sizeof_ptr))
  return ⟨bodies, array, ← alloc_items bodies⟩

/-- `while (len--)`. -/
def free_bodies (b : BodiesMem) : ℕ → MemRun Unit
  | 0 => return ()
  | len + 1 => do
    look_at [b.array_pointer]
    match b.items.1[len]? with
    | none => throw .fault
    | some ps => do
      free_all ps
      free_bodies b len

/-- `free_bodies (bodies, len)` and `XFREE (bodies)`. -/
def free_array (bodies : Option BodiesMem) (len : ℕ) : MemRun Unit :=
  match bodies with
  | none => throw .fault
  | some b => do
    free_bodies b len
    free_all [b.array_pointer]

/-- `if (size > 0)`. -/
def free_sized (bodies : Option BodiesMem) (size : ℕ) : MemRun Unit :=
  if size > 0 then free_array bodies size else return ()

/-- The text is one body, where it is there. -/
def free_text (text_body : Option BodiesMem) : MemRun Unit :=
  if text_body.isSome then free_array text_body 1 else return ()

/-- A `MessageBody` in memory, with the sizes `parse_file` keeps for it. -/
structure BodyMem where
  text_body : Option BodiesMem := none
  html_bodies : Option BodiesMem := none
  html_size : ℕ := 0
  rtf_bodies : Option BodiesMem := none
  rtf_size : ℕ := 0

def BodyMem.val (body : BodyMem) : MessageBody :=
  { text_body := body.text_body.map BodiesMem.bodies,
    html_bodies := body.html_bodies.map BodiesMem.bodies,
    rtf_bodies := body.rtf_bodies.map BodiesMem.bodies }

/-- An array that was there before is not released. -/
def message_property_mem (o : Options) (body : BodyMem) (r : PropertyMem) : MemRun BodyMem := do
  look_at r.blocks
  if r.a.type = szMAPI_BINARY ∧ r.a.name = MAPI_BODY_HTML then do
    let data ← lift (get_html_data o r.a)
    return { body with html_bodies := some (← alloc_bodies data), html_size := r.a.num_values }
  else if r.a.type = szMAPI_BINARY ∧ r.a.name = MAPI_RTF_COMPRESSED then do
    let data ← lift (get_rtf_data o r.a)
    return { body with rtf_bodies := some (← alloc_bodies data), rtf_size := r.a.num_values }
  else
    return body

def message_properties_mem (o : Options) : BodyMem → List PropertyMem → MemRun BodyMem
  | body, [] => return body
  | body, r :: props => do
    let body ← message_property_mem o body r
    message_properties_mem o body props

def message_attr_mem (o : Options) (body : BodyMem) (attr : AttrMem) : MemRun BodyMem := do
  look_at attr.blocks
  if attr.attr.name = attBODY then do
    let data ← lift (get_text_data o attr.attr)
    return { body with text_body := some (← alloc_bodies data) }
  else if attr.attr.name = attMAPIPROPS then do
    match ← mapi_attr_read_mem o attr with
    | none => return body
    | some l => do
      let body ← message_properties_mem o body l.props
      mapi_attr_free_list l
      return body
  else
    return body

/-! ## The stream -/

structure StateMem where
  file : Option FileMem := none
  body : BodyMem := {}

def StateMem.val (s : StateMem) : ParseState :=
  { file := s.file.map FileMem.val, body := s.body.val }

def begin_file_mem (o : Options) (directory : Option (List UInt8)) (file : Option FileMem) :
    MemRun (Option FileMem) :=
  match file with
  | some f => do
    let f ← file_write_mem o directory f
    return some (← file_free_mem f)
  | none => do
    let _ ← lift (checked_xcalloc o 1 sizeof_File 0)
    return some { self := ← alloc (.raw sizeof_File) }

def add_attr_mem (o : Options) (attr : AttrMem) (s : StateMem) : MemRun StateMem := do
  look_at attr.blocks
  match attr.attr.lvl_type with
  | .LVL_MESSAGE => return { s with body := ← message_attr_mem o s.body attr }
  | .LVL_ATTACHMENT =>
    match s.file with
    | none => throw .assertion
    | some f => return { s with file := some (← file_add_attr_mem o f attr) }

/-- One turn, from the blocks `attr_read` has asked for to their release. -/
def parse_attr_mem (o : Options) (directory : Option (List UInt8)) (attr : Attr) (s : StateMem) :
    MemRun StateMem := do
  let a ← attr_alloc attr
  let file ← if attr.name = attATTACHRENDDATA then begin_file_mem o directory s.file
    else pure s.file
  let s ← add_attr_mem o a { s with file := file }
  attr_free a
  return s

/-- The record still pending when the loop is left. -/
def write_pending_mem (o : Options) (directory : Option (List UInt8)) (file : Option FileMem) :
    MemRun Unit :=
  match file with
  | none => return ()
  | some f => do
    let f ← file_write_mem o directory f
    let f ← file_free_mem f
    free_all [f.self_pointer]

/-- What comes after the loop, without `--save-body`. -/
def finish_file_mem (o : Options) (directory : Option (List UInt8)) (s : StateMem) : MemRun ℕ := do
  write_pending_mem o directory s.file
  free_text s.body.text_body
  free_sized s.body.rtf_bodies s.body.rtf_size
  free_sized s.body.html_bodies s.body.html_size
  return 0

/-- `parse_file`, without `--save-body`. -/
def parse_file_mem (o : Options) (directory : Option (List UInt8)) (inp : Input) : MemRun ℕ := do
  let (known, inp) ← lift (read_signature inp)
  if known then
    let (_, s) ← attr_loop o (parse_attr_mem o directory) inp {}
    finish_file_mem o directory s
  else do
    onWorld (print (ascii "Seems not to be a TNEF file\n"))
    return 1

end Tnef
