/-
`tnef.c`: a whole stream, from the signature to the message bodies.

`parse_file` is cut into the body of its reading loop (`parse_attr`), the write that is
still due at the end of the input, and the loop that saves the bodies. The arrays of
bodies end in NULL, here `none`. The records `get_body_files` builds share one name and
one MIME type: after the first of them has been released, what the others point to can
no longer be read. Releasing the bodies themselves, and the sizes kept for it, are left
out.
-/
import Tnef.File
import Tnef.Rtf
import Tnef.Stream

set_option autoImplicit false

namespace Tnef

open ExceptRules Stateful

abbrev TNEF_SIGNATURE : UInt32 := 0x223e9f78

/-! ## Bodies -/

structure MessageBody where
  text_body : Option (List (Option VarLenData)) := none
  html_bodies : Option (List (Option VarLenData)) := none
  rtf_bodies : Option (List (Option VarLenData)) := none
  deriving DecidableEq, Repr

def get_text_data (o : Options) (attr : Attr) : M (List (Option VarLenData)) := do
  let _ ← checked_xcalloc o attr.len 1 0
  return [some ⟨attr.len, ← (Buffer.full attr.buf).copy attr.len⟩, none]

/-- One turn of the loop of `get_html_data`, for a binary property. -/
def html_value (o : Options) (v : MAPI_Value) : M (Option VarLenData) :=
  match v.data with
  | .buf b => do
    let _ ← xmalloc 1 sizeof_VarLenData 0
    let _ ← checked_xcalloc o v.len 1 0
    return some ⟨v.len, ← b.copy v.len⟩
  | _ => .error .fault

def get_html_data (o : Options) (a : MAPI_Attr) : M (List (Option VarLenData)) := do
  let _ ← xcalloc (a.num_values + 1) sizeof_ptr 0
  let body ← (a.values.take a.num_values).mapM fun v =>
    if a.type = szMAPI_BINARY then html_value o v else pure none
  return body ++ [none]

/-! ## The reading loop -/

/-- The variables of the loop: the pending record and the bodies. -/
structure ParseState where
  file : Option File := none
  body : MessageBody := {}
  deriving DecidableEq, Repr

/-- One turn of the loop over the properties of the message. -/
def message_property (o : Options) (body : MessageBody) (a : MAPI_Attr) : M MessageBody :=
  if a.type = szMAPI_BINARY ∧ a.name = MAPI_BODY_HTML then do
    return { body with html_bodies := some (← get_html_data o a) }
  else if a.type = szMAPI_BINARY ∧ a.name = MAPI_RTF_COMPRESSED then do
    return { body with rtf_bodies := some (← get_rtf_data o a) }
  else
    .ok body

/-- `for (i = 0; mapi_attrs[i]; i++)`. -/
def message_properties (o : Options) : MessageBody → List (Option MAPI_Attr) → M MessageBody
  | _, [] => .error .fault
  | body, none :: _ => .ok body
  | body, some a :: attrs => do
    let body ← message_property o body a
    message_properties o body attrs

/-- The case LVL_MESSAGE. -/
def message_attr (o : Options) (body : MessageBody) (attr : Attr) : M MessageBody :=
  if attr.name = attBODY then do
    return { body with text_body := some (← get_text_data o attr) }
  else if attr.name = attMAPIPROPS then do
    match ← mapi_attr_read o attr.len attr.buf with
    | none => return body
    | some mapi_attrs => message_properties o body mapi_attrs
  else
    .ok body

/-- The record of the attachment before is written when the next one begins. -/
def begin_file (o : Options) (directory : Option (List UInt8)) (file : Option File) :
    Run (Option File) :=
  match file with
  -- the record is cleared and used again
  | some file => do
    file_write o directory file
    return some (file_free file)
  | none => do
    let _ ← lift (checked_xcalloc o 1 sizeof_File 0)
    return some {}

/-- The `switch (attr->lvl_type)`. -/
def add_attr (o : Options) (attr : Attr) (s : ParseState) : M ParseState :=
  match attr.lvl_type with
  | .LVL_MESSAGE => do return { s with body := ← message_attr o s.body attr }
  | .LVL_ATTACHMENT =>
    match s.file with
    | none => .error .assertion
    | some file => do return { s with file := some (← file_add_attr o file attr) }

def parse_attr (o : Options) (directory : Option (List UInt8)) (attr : Attr) (s : ParseState) :
    Run ParseState := do
  let file ← if attr.name = attATTACHRENDDATA then begin_file o directory s.file else pure s.file
  lift (add_attr o attr { s with file := file })

/-- The record still pending when the loop is left. -/
def write_pending (o : Options) (directory : Option (List UInt8)) (file : Option File) : Run Unit :=
  match file with
  | none => return ()
  | some file => file_write o directory file

/-! ## Saving the bodies -/

def body_ext : UInt8 → List UInt8
  | 0x72 => ascii ".rtf"
  | 0x68 => ascii ".html"
  | 0x74 => ascii ".txt"
  | _ => []

def body_type : UInt8 → List UInt8
  | 0x72 => ascii "text/rtf"
  | 0x68 => ascii "text/html"
  | 0x74 => ascii "text/plain"
  | _ => ascii "unknown"

def body_data (body : MessageBody) : UInt8 → Option (List (Option VarLenData))
  | 0x72 => body.rtf_bodies
  | 0x68 => body.html_bodies
  | 0x74 => body.text_body
  | _ => none

/-- `for (i = 0; data[i]; i++)`. -/
def body_files (o : Options) (name mime : Buffer) : List (Option VarLenData) → M (List File)
  | [] => .error .fault
  | none :: _ => .ok []
  | some d :: data => do
    let copy ← copy_len o d.len d.data
    let files ← body_files o name mime data
    return { name := some name, mime_type := some mime, len := d.len, data := some copy } :: files

def get_body_files (o : Options) (filename : List UInt8) (pref : UInt8) (body : MessageBody) :
    M (Option (List File)) :=
  match body_data body pref with
  | none => .ok none
  | some data => do
    let _ ← checked_xcalloc o (filename.length + (body_ext pref).length + 1) 1 0
    let _ ← checked_xcalloc o ((body_type pref).length + 1) 1 0
    return some (← body_files o (strdup (filename ++ body_ext pref)) (strdup (body_type pref)) data)

/-- A block that has been released: nothing can be read from it. -/
def Buffer.released (b : Buffer) : Buffer := ⟨b.size, [], Nat.zero_le _⟩

/-- A record that shares its strings with one that has been released. -/
def File.shared_released (file : File) : File :=
  { file with name := file.name.map Buffer.released, mime_type := file.mime_type.map Buffer.released }

/-- `for (j = 0; files[j]; j++)`. -/
def write_body_files (o : Options) (directory : Option (List UInt8)) : List File → Run Unit
  | [] => return ()
  | file :: files => do
    file_write o directory file
    write_body_files o directory (files.map File.shared_released)
termination_by files => files.length
decreasing_by simp

/-- Induction along that loop: the records behind the first one have lost their strings. -/
@[elab_as_elim]
theorem shared_files_induction {motive : List File → Prop} (nil : motive [])
    (cons : ∀ file files, motive (files.map File.shared_released) → motive (file :: files))
    (files : List File) : motive files := by
  induction hn : files.length generalizing files with
  | zero =>
    rw [List.length_eq_zero_iff.mp hn]
    exact nil
  | succ n ih =>
    obtain ⟨file, rest, rfl⟩ := List.exists_cons_of_length_eq_add_one hn
    apply cons
    apply ih
    simpa using hn

/-- `for (; i < 3; i++)`; `pref` ends in its terminator. -/
def save_bodies_loop (o : Options) (directory : Option (List UInt8)) (filename pref : List UInt8)
    (all_flag : Bool) (body : MessageBody) (i : ℕ) : Run Unit :=
  if i < 3 then do
    match ← lift (get_body_files o filename (← lift (rd pref i)) body) with
    | none => save_bodies_loop o directory filename pref all_flag body (i + 1)
    | some files => do
      write_body_files o directory files
      -- without `all` the first kind of body that is there ends the loop
      if all_flag then
        save_bodies_loop o directory filename pref all_flag body (i + 1)
  else
    return ()
termination_by 3 - i

def save_bodies (o : Options) (directory : Option (List UInt8)) (body_filename body_pref : List UInt8)
    (body : MessageBody) : Run Unit :=
  if o.savebody then
    if body_pref = ascii "all" then
      save_bodies_loop o directory body_filename (ascii "rht" ++ [0]) true body 0
    else
      save_bodies_loop o directory body_filename (body_pref ++ [0]) false body 0
  else
    return ()

/-! ## The stream -/

/-- The signature and the key. -/
def read_signature (inp : Input) : M (Bool × Input) := do
  let (d, inp) ← geti32 inp
  if d ≠ TNEF_SIGNATURE then
    return (false, inp)
  else
    let (_, inp) ← geti16 inp
    return (true, inp)

/-- Everything that comes after the reading loop. -/
def finish_file (o : Options) (directory : Option (List UInt8)) (body_filename body_pref : List UInt8)
    (s : ParseState) : Run ℕ := do
  write_pending o directory s.file
  save_bodies o directory body_filename body_pref s.body
  return 0

def parse_file (o : Options) (directory : Option (List UInt8)) (body_filename body_pref : List UInt8)
    (inp : Input) : Run ℕ := do
  let (known, inp) ← lift (read_signature inp)
  if known then
    let (_, s) ← attr_loop o (parse_attr o directory) inp {}
    finish_file o directory body_filename body_pref s
  else do
    print (ascii "Seems not to be a TNEF file\n")
    return 1

end Tnef
