/-
`file.c`: an attachment being put together, and writing it out.

`name`, `mime_type` and `content_id` are the blocks behind the pointers, so that a
copy without its terminator stays one; `path` only ever holds a fresh C string. The
world is what `file_write` touches: the files `stat` finds, the paths `fopen` refuses,
the answers on standard input, what has been printed, and the records `file_write` has
been called with. Messages to standard error and the output of `--debug` are left out,
`fwrite` writes what it is asked to, and memory is released without a trace.
-/
import Tnef.Path
import Tnef.Lib.Stateful

set_option autoImplicit false

namespace Tnef

open ExceptRules Stateful

/-! ## The record -/

structure File where
  name : Option Buffer := none
  path : Option (List UInt8) := none
  len : ℕ := 0
  data : Option Buffer := none
  dt : date := .zero
  mime_type : Option Buffer := none
  content_id : Option Buffer := none
  deriving DecidableEq, Repr

abbrev sizeof_File : ℕ := 64

def TNEF_DEFAULT_FILENAME : List UInt8 := ascii "tnef-tmp"

/-- The record after its blocks have been released and `memset` has cleared it. -/
def file_free (_file : File) : File := {}

/-! ## Filling it in -/

/-- `values[0].len` and `values[0].data.buf`. -/
def first_value (a : MAPI_Attr) : M (ℕ × Buffer) :=
  match a.values with
  | ⟨len, .buf b⟩ :: _ => .ok (len, b)
  | _ => .error .fault

/-- A block of `len` bytes, with as many bytes of `b` moved into it. -/
def copy_len (o : Options) (len : ℕ) (b : Buffer) : M Buffer := do
  let _ ← checked_xmalloc o len 1 0
  b.copy len

def file_add_mapi_attr (o : Options) (file : File) (a : MAPI_Attr) : M File :=
  if a.num_values ≠ 0 then
    if a.name = MAPI_ATTACH_LONG_FILENAME then do
      assert (a.type = szMAPI_STRING ∨ a.type = szMAPI_UNICODE_STRING)
      let (_, b) ← first_value a
      return { file with name := some (strdup (← b.c_str)) }
    else if a.name = MAPI_ATTACH_DATA_OBJ then do
      assert (a.type = szMAPI_BINARY ∨ a.type = szMAPI_OBJECT)
      let (len, b) ← first_value a
      return { file with len := len, data := some (← copy_len o len b) }
    else if a.name = MAPI_ATTACH_MIME_TAG then do
      assert (a.type = szMAPI_STRING ∨ a.type = szMAPI_UNICODE_STRING)
      let (len, b) ← first_value a
      return { file with mime_type := some (← copy_len o len b) }
    else if a.name = MAPI_ATTACH_CONTENT_ID then do
      assert (a.type = szMAPI_STRING ∨ a.type = szMAPI_UNICODE_STRING)
      let (len, b) ← first_value a
      return { file with content_id := some (← copy_len o len b) }
    else
      .ok file
  else
    .ok file

/-- `for (i = 0; attrs[i]; i++)`. -/
def file_add_mapi_attrs (o : Options) : File → List (Option MAPI_Attr) → M File
  | _, [] => .error .fault
  | file, none :: _ => .ok file
  | file, some a :: attrs => do
    let file ← file_add_mapi_attr o file a
    file_add_mapi_attrs o file attrs

def file_add_attr (o : Options) (file : File) (attr : Attr) : M File :=
  if attr.name = attATTACHMODIFYDATE then do
    return { file with dt := ← copy_date_from_attr attr }
  else if attr.name = attATTACHMENT then do
    match ← mapi_attr_read o attr.len attr.buf with
    | none => return file
    | some mapi_attrs => file_add_mapi_attrs o file mapi_attrs
  else if attr.name = attATTACHTITLE then do
    return { file with name := some (strdup (← c_str_at attr.buf 0)) }
  else if attr.name = attATTACHDATA then do
    return { file with len := attr.len, data := some (← copy_len o attr.len (.full attr.buf)) }
  else
    .ok file

/-! ## The world -/

structure World where
  /-- Contents of the files there are, by path; `stat` succeeds at these paths. Two spellings
  of a path are two paths here. -/
  files : List UInt8 → Option (List UInt8) := fun _ => none
  /-- Paths `fopen` does not open for writing. -/
  unwritable : List UInt8 → Bool := fun _ => false
  stdin : List UInt8 := []
  /-- What is printed without `--debug`. -/
  stdout : List UInt8 := []
  /-- What `file_write` has been called with so far. -/
  calls : List File := []

abbrev Run (α : Type) := Act Stop World α

def file_exists (w : World) (fname : List UInt8) : Bool := (w.files fname).isSome

def print (text : List UInt8) : Run Unit := modify fun w => { w with stdout := w.stdout ++ text }

/-- `fopen (path, "wb")`, then what `fwrite` leaves in the file. -/
def put_file (path bytes : List UInt8) : Run Unit :=
  modify fun w => { w with files := Function.update w.files path (some bytes) }

/-! ## Writing it out -/

abbrev BUFSIZ : ℕ := 8192

/-- How many characters `fgets (buf, n, stdin)` takes. -/
def fgets_length (n : ℕ) (s : List UInt8) : ℕ := min (n - 1) ((s.takeWhile (· ≠ 0x0a)).length + 1)

/-- At the end of the input `fgets` leaves `buf` as it was, and nothing has written it. -/
def confirm_action (o : Options) (prompt : List UInt8) : Run Bool :=
  if o.confirm then do
    print prompt
    let w ← get
    match w.stdin with
    | [] => throw .fault
    | c :: _ => do
      set { w with stdin := w.stdin.drop (fgets_length BUFSIZ w.stdin) }
      return c = 0x79 ∨ c = 0x59
  else
    return true

/-- The record with its name and path filled in, and the path its data go to. -/
def file_path (o : Options) (directory : Option (List UInt8)) (file : File) :
    M (File × List UInt8) := do
  let name := file.name.getD (strdup TNEF_DEFAULT_FILENAME)
  let fpath ← match file.path with
    | some fpath => pure fpath
    | none => do
      let fpath ← munge_fname o (some (← name.c_str))
      pure (fpath.getD TNEF_DEFAULT_FILENAME)
  let path ← concat_fname o directory (some fpath)
  return ({ file with name := some name, path := some fpath }, path.getD TNEF_DEFAULT_FILENAME)

/-- The path that is not taken yet, or `none` where the file is skipped. -/
def free_path (o : Options) (w : World) (path : List UInt8) : M (Option (List UInt8)) :=
  if ¬ o.overwrite ∧ file_exists w path then
    if ¬ o.numbered then .ok none
    else do return some (← find_free_number o (file_exists w) path)
  else
    .ok (some path)

/-- `fwrite (file->data, 1, file->len, fp)`. -/
def data_bytes (file : File) : M (List UInt8) :=
  match file.data with
  | none => if file.len = 0 then .ok [] else .error .fault
  | some data => data.read file.len

/-- `fopen` to `fclose`. -/
def write_file (file : File) (path : List UInt8) : Run Unit := do
  let w ← get
  if w.unwritable path then
    throw (.exit 1)
  else
    put_file path []
    put_file path (← lift (data_bytes file))

/-- Up to `fclose`; `none` is a return on the way. -/
def extract_file (o : Options) (file : File) (path : List UInt8) : Run (Option (List UInt8)) := do
  let name ← lift ((file.name.getD (strdup [])).c_str)
  if ← confirm_action o (ascii "extract " ++ name ++ ascii "?") then
    match ← lift (free_path o (← get) path) with
    | none => return none
    | some path => do
      write_file file path
      return some path
  else
    return none

/-- `printf ("%s", s ? s : default)`. -/
def print_or (s : Option Buffer) (default : List UInt8) : Run Unit := do
  match s with
  | none => print default
  | some b => print (← lift b.c_str)

abbrev separator : List UInt8 := [0x09, 0x7c, 0x09]

/-- `%11lu`. -/
def pad_length (n : ℕ) : List UInt8 :=
  let digits := ascii n.repr
  List.replicate (11 - digits.length) 0x20 ++ digits

/-- The length and the date, without the day of the week. -/
def list_length_and_date (o : Options) (file : File) : Run Unit :=
  if o.list ∧ o.verbose then do
    let date_str ← lift (date_to_str file.dt)
    print (pad_length file.len ++ separator ++ date_str.drop 4 ++ separator)
  else
    return ()

def list_mime (o : Options) (file : File) : Run Unit :=
  if o.listmime then do
    print separator
    print_or file.mime_type (ascii "unknown")
    print separator
    print_or file.content_id []
  else
    return ()

/-- The line `--list` and `--verbose` print. -/
def list_file (o : Options) (file : File) (path : List UInt8) : Run Unit := do
  list_length_and_date o file
  print_or file.name []
  print (separator ++ path)
  list_mime o file
  print [0x0a]

/-- Up to the return that follows the listing. -/
def list_written (o : Options) (file : File) (path : Option (List UInt8)) : Run Unit :=
  match path with
  | none => return ()
  | some path => if o.list ∨ o.verbose then list_file o file path else return ()

def file_write (o : Options) (directory : Option (List UInt8)) (file : File) : Run Unit := do
  modify fun w => { w with calls := w.calls ++ [file] }
  let (file, path) ← lift (file_path o directory file)
  let path ← if ¬ o.list then extract_file o file path else pure (some path)
  list_written o file path

end Tnef
