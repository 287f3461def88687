/-
`attr.c` and `date.c`: one attribute of the stream, read from a file.

The file is what is left of its bytes, with the end-of-file indicator. An
attribute's buffer has one byte more than its data, a NUL. `attr_dump`, which runs
under `--debug`, is here for what it reads and where it stops; the text it prints
is left out, and so is the search for a matching prefix in `check_checksum`.
-/
import Tnef.MapiAttr

set_option autoImplicit false

namespace Tnef

open ExceptRules

/-- The bytes of an ASCII string. -/
def ascii (s : String) : List UInt8 := s.toList.map fun c => UInt8.ofNat c.toNat

/-! ## Dates -/

structure date where
  year : UInt16
  month : UInt16
  day : UInt16
  hour : UInt16
  min : UInt16
  sec : UInt16
  dow : UInt16
  deriving DecidableEq, Repr

/-- The date `memset` leaves. -/
def date.zero : date := ⟨0, 0, 0, 0, 0, 0, 0⟩

def day_of_week : List String := ["Sun", "Mon", "Tue", "Wed", "Thu", "Fri", "Sat"]

def dow_str (dow : ℕ) : M (List UInt8) := do
  assert (dow ≤ 6)
  return ascii (day_of_week.getD dow "")

/-- `%0Nd`. -/
def pad_decimal (width n : ℕ) : List UInt8 :=
  let digits := ascii (toString n)
  List.replicate (width - digits.length) 48 ++ digits

/-- The buffer holds 31 characters and a terminator. -/
def date_to_str (dt : date) : M (List UInt8) := do
  let dow ← dow_str dt.dow.toNat
  let text := dow ++ ascii " " ++ pad_decimal 4 dt.year.toNat ++ ascii "/"
    ++ pad_decimal 2 dt.month.toNat ++ ascii "/" ++ pad_decimal 2 dt.day.toNat ++ ascii " "
    ++ pad_decimal 2 dt.hour.toNat ++ ascii ":" ++ pad_decimal 2 dt.min.toNat ++ ascii ":"
    ++ pad_decimal 2 dt.sec.toNat
  return text.take 31

def date_read (buf : List UInt8) : M date := do
  let year ← GETINT16 buf 0
  let month ← GETINT16 buf 2
  let day ← GETINT16 buf 4
  let hour ← GETINT16 buf 6
  let min ← GETINT16 buf 8
  let sec ← GETINT16 buf 10
  let dow ← GETINT16 buf 12
  return ⟨year, month, day, hour, min, sec, dow⟩

/-! ## Attributes -/

inductive level_type
  | LVL_MESSAGE
  | LVL_ATTACHMENT
  deriving DecidableEq, Repr

/-- The length comes from a 32-bit word, so the data fit one. -/
structure Attr where
  lvl_type : level_type
  type : UInt16
  name : UInt16
  data : List UInt8
  fits : data.length < 2 ^ 32
  deriving DecidableEq, Repr

def Attr.len (attr : Attr) : ℕ := attr.data.length

/-- The allocation: the data and a terminator. -/
def Attr.buf (attr : Attr) : List UInt8 := attr.data ++ [0]

abbrev sizeof_Attr : ℕ := 32

abbrev szTRIPLES : UInt16 := 0x0000
abbrev szSTRING : UInt16 := 0x0001
abbrev szTEXT : UInt16 := 0x0002
abbrev szDATE : UInt16 := 0x0003
abbrev szSHORT : UInt16 := 0x0004
abbrev szLONG : UInt16 := 0x0005
abbrev szBYTE : UInt16 := 0x0006
abbrev szWORD : UInt16 := 0x0007
abbrev szDWORD : UInt16 := 0x0008

abbrev attBODY : UInt16 := 0x800c
abbrev attATTACHDATA : UInt16 := 0x800f
abbrev attATTACHTITLE : UInt16 := 0x8010
abbrev attATTACHMODIFYDATE : UInt16 := 0x8013
abbrev attATTACHRENDDATA : UInt16 := 0x9002
abbrev attMAPIPROPS : UInt16 := 0x9003
abbrev attATTACHMENT : UInt16 := 0x9005
abbrev attOEMCODEPAGE : UInt16 := 0x9007

def copy_date_from_attr (attr : Attr) : M date := do
  assert (attr.type = szDATE)
  assert (attr.len ≥ 14)
  date_read attr.buf

/-- The C string at `buf + p`. -/
def c_str_at (buf : List UInt8) (p : ℕ) : M (List UInt8) :=
  if 0 ∈ buf.drop p then .ok ((buf.drop p).takeWhile (· ≠ 0)) else .error .fault

structure TRIPLE where
  id : UInt16
  chbgtrp : UInt16
  cch : UInt16
  cb : UInt16
  /-- Offsets of the two strings in the attribute's buffer. -/
  sender_display_name : ℕ
  sender_address : ℕ
  deriving DecidableEq, Repr

def copy_triple_from_attr (attr : Attr) : M TRIPLE := do
  assert (attr.type = szTRIPLES)
  assert (attr.len > 8)
  let id ← GETINT16 attr.buf 0
  let chbgtrp ← GETINT16 attr.buf 2
  let cch ← GETINT16 attr.buf 4
  let cb ← GETINT16 attr.buf 6
  assert (attr.len > 8 + cch.toNat)
  return ⟨id, chbgtrp, cch, cb, 8, 8 + cch.toNat⟩

/-- `for (i = start; i < len; i++)`, reading a byte a turn. -/
def dump_bytes (buf : List UInt8) (len i : ℕ) : M Unit :=
  if i < len then do
    let _ ← rd buf i
    dump_bytes buf len (i + 1)
  else
    .ok ()
termination_by len - i

/-- `for (i = 0; i < len; i += 2)`. -/
def dump_words (buf : List UInt8) (len i : ℕ) : M Unit :=
  if i < len then do
    let _ ← GETINT16 buf i
    dump_words buf len (i + 2)
  else
    .ok ()
termination_by len - i

/-- `for (i = 0; i < len; i += 4)`. -/
def dump_dwords (buf : List UInt8) (len i : ℕ) : M Unit :=
  if i < len then do
    let _ ← GETINT32 buf i
    dump_dwords buf len (i + 4)
  else
    .ok ()
termination_by len - i

def attr_dump (o : Options) (attr : Attr) : M Unit :=
  if attr.type = szBYTE then
    if attr.name = attOEMCODEPAGE then do
      let _ ← GETINT32 attr.buf 0
      let _ ← GETINT32 attr.buf 4
    else
      dump_bytes attr.buf attr.len 0
  else if attr.type = szSHORT then
    if attr.len < 2 then .error .abort
    else do
      let _ ← GETINT16 attr.buf 0
      dump_bytes attr.buf attr.len 2
  else if attr.type = szLONG then
    if attr.len < 4 then .error .abort
    else do
      let _ ← GETINT32 attr.buf 0
      dump_bytes attr.buf attr.len 4
  else if attr.type = szWORD then
    dump_words attr.buf attr.len 0
  else if attr.type = szDWORD then
    dump_dwords attr.buf attr.len 0
  else if attr.type = szDATE then do
    let dt ← copy_date_from_attr attr
    let _ ← date_to_str dt
  else if attr.type = szTEXT ∨ attr.type = szSTRING then do
    let _ ← checked_xmalloc o (attr.len + 1) 1 0
    let _ ← c_str_at attr.buf 0
  else if attr.type = szTRIPLES then do
    let triple ← copy_triple_from_attr attr
    let _ ← c_str_at attr.buf triple.sender_display_name
    let _ ← c_str_at attr.buf triple.sender_address
  else
    .ok ()

/-- The sum of the data bytes modulo 65536, as the loop keeps it. -/
def check_checksum (attr : Attr) (checksum : UInt16) : Bool :=
  attr.data.foldl (fun sum b => (sum + b.toUInt32) &&& 0xffff) 0 = checksum.toUInt32

/-! ## The input file -/

structure Input where
  /-- The bytes from the file position on. -/
  rest : List UInt8
  /-- The end-of-file indicator. -/
  eof : Bool := false
  is_stdin : Bool := false
  deriving DecidableEq, Repr

/-- `n` bytes from the file; a short read ends the program. -/
def getbuf (inp : Input) (n : ℕ) : M ({ bs : List UInt8 // bs.length = n } × Input) :=
  if h : n ≤ inp.rest.length then
    .ok (⟨inp.rest.take n, by rw [List.length_take, Nat.min_eq_left h]⟩,
      { inp with rest := inp.rest.drop n })
  else
    .error (.exit 1)

def geti32 (inp : Input) : M (UInt32 × Input) := do
  let (bs, inp) ← getbuf inp 4
  return (← GETINT32 bs.1 0, inp)

def geti16 (inp : Input) : M (UInt16 × Input) := do
  let (bs, inp) ← getbuf inp 2
  return (← GETINT16 bs.1 0, inp)

def geti8 (inp : Input) : M (UInt8 × Input) := do
  let (bs, inp) ← getbuf inp 1
  return (← rd bs.1 0, inp)

/-- What `attr_read` does between allocating the record and returning it, with the
attribute's bytes in hand. -/
def attr_checks (o : Options) (attr : Attr) (checksum : UInt16) : M Unit := do
  if ¬ check_checksum attr checksum then
    if ¬ o.checksum_ok then
      throw (.exit 1)
  if o.dbg_out then
    attr_dump o attr

def attr_read (o : Options) (inp : Input) : M (Attr × Input) := do
  let _ ← checked_xcalloc o 1 sizeof_Attr 0
  let (lvl, inp) ← geti8 inp
  assert (lvl = 1 ∨ lvl = 2)
  let lvl_type : level_type := if lvl = 1 then .LVL_MESSAGE else .LVL_ATTACHMENT
  let (type_and_name, inp) ← geti32 inp
  let type := (type_and_name >>> 16).toUInt16
  let name := ((type_and_name <<< 16) >>> 16).toUInt16
  let (len, inp) ← geti32 inp
  let _ ← checked_xcalloc o len.toNat 1 1
  let (data, inp) ← getbuf inp len.toNat
  let (checksum, inp) ← geti16 inp
  let attr : Attr := ⟨lvl_type, type, name, data.1, by rw [data.2]; exact len.toNat_lt⟩
  attr_checks o attr checksum
  return (attr, inp)

end Tnef
