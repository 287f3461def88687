/-
`rtf.c`: the bodies in MAPI_RTF_COMPRESSED values, stored or compressed.

The compressed form is an LZ77 variant over a circular 4096-byte dictionary that
starts with a preset text. `decompress_rtf_data` is cut here along its loops; the
record `LzState` holds the variables they share. `cin` and `cout` are exact
integers. Every access to `src`, `dest` and `dict` is checked, so an access out of
range would show as `fault`.
-/
import Tnef.MapiAttr

set_option autoImplicit false

namespace Tnef

open ExceptRules Slice LittleEndian

def rtf_uncompressed_magic : UInt32 := 0x414c454d
def rtf_compressed_magic : UInt32 := 0x75465a4c

/-- The text the dictionary starts with, without the string's terminator. -/
def rtf_prebuf : List UInt8 :=
  ("\x7b\\rtf1\\ansi\\mac\\deff0\\deftab720\x7b\\fonttbl;\x7d\x7b\\f0\\fnil \\froman \\fswiss " ++
    "\\fmodern \\fscript \\fdecor MS Sans SerifSymbolArialTimes New RomanCourier" ++
    "\x7b\\colortbl\\red0\\green0\\blue0\r\n\\par \\pard\\plain\\f0\\fs20\\b\\i\\u\\tab\\tx").toList.map
    fun c => UInt8.ofNat c.toNat

/-- The letters of a literal, without decoding it. -/
theorem toList_of_eq_ofList {s : String} {l : List Char} (h : s = String.ofList l) :
    s.toList = l := by
  rw [h, String.toList_ofList]

theorem rtf_prebuf_length : rtf_prebuf.length = 207 := by
  unfold rtf_prebuf
  simp only [String.toList_append]
  rw [toList_of_eq_ofList rfl, toList_of_eq_ofList rfl, toList_of_eq_ofList rfl]
  rfl

/-! ## The checksum -/

def crc_table : List UInt32 :=
  [
    0x00000000, 0x77073096, 0xee0e612c, 0x990951ba, 0x076dc419, 0x706af48f, 0xe963a535, 0x9e6495a3,
    0x0edb8832, 0x79dcb8a4, 0xe0d5e91e, 0x97d2d988, 0x09b64c2b, 0x7eb17cbd, 0xe7b82d07, 0x90bf1d91,
    0x1db71064, 0x6ab020f2, 0xf3b97148, 0x84be41de, 0x1adad47d, 0x6ddde4eb, 0xf4d4b551, 0x83d385c7,
    0x136c9856, 0x646ba8c0, 0xfd62f97a, 0x8a65c9ec, 0x14015c4f, 0x63066cd9, 0xfa0f3d63, 0x8d080df5,
    0x3b6e20c8, 0x4c69105e, 0xd56041e4, 0xa2677172, 0x3c03e4d1, 0x4b04d447, 0xd20d85fd, 0xa50ab56b,
    0x35b5a8fa, 0x42b2986c, 0xdbbbc9d6, 0xacbcf940, 0x32d86ce3, 0x45df5c75, 0xdcd60dcf, 0xabd13d59,
    0x26d930ac, 0x51de003a, 0xc8d75180, 0xbfd06116, 0x21b4f4b5, 0x56b3c423, 0xcfba9599, 0xb8bda50f,
    0x2802b89e, 0x5f058808, 0xc60cd9b2, 0xb10be924, 0x2f6f7c87, 0x58684c11, 0xc1611dab, 0xb6662d3d,
    0x76dc4190, 0x01db7106, 0x98d220bc, 0xefd5102a, 0x71b18589, 0x06b6b51f, 0x9fbfe4a5, 0xe8b8d433,
    0x7807c9a2, 0x0f00f934, 0x9609a88e, 0xe10e9818, 0x7f6a0dbb, 0x086d3d2d, 0x91646c97, 0xe6635c01,
    0x6b6b51f4, 0x1c6c6162, 0x856530d8, 0xf262004e, 0x6c0695ed, 0x1b01a57b, 0x8208f4c1, 0xf50fc457,
    0x65b0d9c6, 0x12b7e950, 0x8bbeb8ea, 0xfcb9887c, 0x62dd1ddf, 0x15da2d49, 0x8cd37cf3, 0xfbd44c65,
    0x4db26158, 0x3ab551ce, 0xa3bc0074, 0xd4bb30e2, 0x4adfa541, 0x3dd895d7, 0xa4d1c46d, 0xd3d6f4fb,
    0x4369e96a, 0x346ed9fc, 0xad678846, 0xda60b8d0, 0x44042d73, 0x33031de5, 0xaa0a4c5f, 0xdd0d7cc9,
    0x5005713c, 0x270241aa, 0xbe0b1010, 0xc90c2086, 0x5768b525, 0x206f85b3, 0xb966d409, 0xce61e49f,
    0x5edef90e, 0x29d9c998, 0xb0d09822, 0xc7d7a8b4, 0x59b33d17, 0x2eb40d81, 0xb7bd5c3b, 0xc0ba6cad,
    0xedb88320, 0x9abfb3b6, 0x03b6e20c, 0x74b1d29a, 0xead54739, 0x9dd277af, 0x04db2615, 0x73dc1683,
    0xe3630b12, 0x94643b84, 0x0d6d6a3e, 0x7a6a5aa8, 0xe40ecf0b, 0x9309ff9d, 0x0a00ae27, 0x7d079eb1,
    0xf00f9344, 0x8708a3d2, 0x1e01f268, 0x6906c2fe, 0xf762575d, 0x806567cb, 0x196c3671, 0x6e6b06e7,
    0xfed41b76, 0x89d32be0, 0x10da7a5a, 0x67dd4acc, 0xf9b9df6f, 0x8ebeeff9, 0x17b7be43, 0x60b08ed5,
    0xd6d6a3e8, 0xa1d1937e, 0x38d8c2c4, 0x4fdff252, 0xd1bb67f1, 0xa6bc5767, 0x3fb506dd, 0x48b2364b,
    0xd80d2bda, 0xaf0a1b4c, 0x36034af6, 0x41047a60, 0xdf60efc3, 0xa867df55, 0x316e8eef, 0x4669be79,
    0xcb61b38c, 0xbc66831a, 0x256fd2a0, 0x5268e236, 0xcc0c7795, 0xbb0b4703, 0x220216b9, 0x5505262f,
    0xc5ba3bbe, 0xb2bd0b28, 0x2bb45a92, 0x5cb36a04, 0xc2d7ffa7, 0xb5d0cf31, 0x2cd99e8b, 0x5bdeae1d,
    0x9b64c2b0, 0xec63f226, 0x756aa39c, 0x026d930a, 0x9c0906a9, 0xeb0e363f, 0x72076785, 0x05005713,
    0x95bf4a82, 0xe2b87a14, 0x7bb12bae, 0x0cb61b38, 0x92d28e9b, 0xe5d5be0d, 0x7cdcefb7, 0x0bdbdf21,
    0x86d3d2d4, 0xf1d4e242, 0x68ddb3f8, 0x1fda836e, 0x81be16cd, 0xf6b9265b, 0x6fb077e1, 0x18b74777,
    0x88085ae6, 0xff0f6a70, 0x66063bca, 0x11010b5c, 0x8f659eff, 0xf862ae69, 0x616bffd3, 0x166ccf45,
    0xa00ae278, 0xd70dd2ee, 0x4e048354, 0x3903b3c2, 0xa7672661, 0xd06016f7, 0x4969474d, 0x3e6e77db,
    0xaed16a4a, 0xd9d65adc, 0x40df0b66, 0x37d83bf0, 0xa9bcae53, 0xdebb9ec5, 0x47b2cf7f, 0x30b5ffe9,
    0xbdbdf21c, 0xcabac28a, 0x53b39330, 0x24b4a3a6, 0xbad03605, 0xcdd70693, 0x54de5729, 0x23d967bf,
    0xb3667a2e, 0xc4614ab8, 0x5d681b02, 0x2a6f2b94, 0xb40bbe37, 0xc30c8ea1, 0x5a05df1b, 0x2d02ef8d ]

/-- One turn of the loop of `generate_crc`. -/
def crc_step (crc : UInt32) (c : UInt8) : UInt32 :=
  let j := (crc ^^^ c.toUInt32) &&& 0xff
  crc_table.getD j.toNat 0 ^^^ (crc >>> 8)

def generate_crc (data : List UInt8) : UInt32 := data.foldl crc_step 0

/-! ## Decompression -/

/-- `buf[i] = b`. -/
def wr (buf : List UInt8) (i : ℕ) (b : UInt8) : M (List UInt8) :=
  if i < buf.length then .ok (buf.set i b) else .error .fault

/-- The variables of `decompress_rtf_data` that its loops change. -/
structure LzState where
  cin : ℕ
  cout : ℕ
  woff : ℕ
  eoff : ℕ
  dict : List UInt8
  dest : List UInt8
  endflag : ℤ
  deriving DecidableEq, Repr

/-- Writing one byte to the output and to the dictionary, and moving on. -/
def LzState.put (s : LzState) (b : UInt8) : M LzState := do
  let dest ← wr s.dest s.cout b
  let dict ← wr s.dict s.woff b
  return { s with
    cout := s.cout + 1, woff := (s.woff + 1) &&& 0xfff, dict := dict, dest := dest,
    eoff := if s.eoff < 4096 then s.eoff + 1 else s.eoff }

/-- `for (j = 0; j < rlen; j++)`, with `n` turns to go. -/
def copy_reference : ℕ → ℕ → LzState → M LzState
  | 0, _, s => .ok s
  | n + 1, roff, s => do
    let b ← rd s.dict roff
    let s ← s.put b
    copy_reference n ((roff + 1) &&& 0xfff) s

/-- The branch of a dictionary reference. -/
def lz_reference (src : List UInt8) (lenc lenu : ℕ) (s : LzState) : M LzState :=
  if s.cin + 2 > lenc then
    .ok { s with endflag := -1 }
  else do
    let b₀ ← rd src s.cin
    let b₁ ← rd src (s.cin + 1)
    let roff := (b₀.toNat <<< 4) + (b₁.toNat >>> 4)
    let rlen := (b₁.toNat &&& 0x0f) + 2
    let s := { s with cin := s.cin + 2 }
    -- a reference to the write offset ends the stream, whatever its length field says
    if roff = s.woff then
      .ok { s with endflag := 1 }
    else if s.cout + rlen > lenu then
      .ok { s with endflag := -1 }
    else
      copy_reference rlen roff s

/-- The branch of a literal byte. -/
def lz_literal (src : List UInt8) (lenc lenu : ℕ) (s : LzState) : M LzState :=
  if s.cin + 1 > lenc then
    .ok { s with endflag := -1 }
  else if s.cout + 1 > lenu then
    .ok { s with endflag := -1 }
  else do
    let b ← rd src s.cin
    let s ← s.put b
    return { s with cin := s.cin + 1 }

/-- `for ( i=0; i<8; i++ )` over the bits of a control byte. -/
def control_run (src : List UInt8) (lenc lenu control i : ℕ) (s : LzState) : M LzState :=
  if i < 8 then
    if s.endflag ≠ 0 then
      .ok s
    else if control &&& (1 <<< i) ≠ 0 then do
      let s ← lz_reference src lenc lenu s
      control_run src lenc lenu control (i + 1) s
    else do
      let s ← lz_literal src lenc lenu s
      control_run src lenc lenu control (i + 1) s
  else
    .ok s
termination_by 8 - i

theorem LzState.put_cin {s t : LzState} {b : UInt8} (h : s.put b = .ok t) : t.cin = s.cin := by
  simp only [LzState.put, bind_eq_ok, pure_eq_ok, Except.ok.injEq] at h
  obtain ⟨_, _, _, _, rfl⟩ := h
  rfl

theorem copy_reference_cin {n roff : ℕ} {s t : LzState} (h : copy_reference n roff s = .ok t) :
    t.cin = s.cin := by
  induction n generalizing roff s with
  | zero =>
    cases h
    rfl
  | succ n ih =>
    simp only [copy_reference, bind_eq_ok] at h
    obtain ⟨b, _, s', hput, hrest⟩ := h
    rw [ih hrest, LzState.put_cin hput]

theorem lz_reference_cin_le {src : List UInt8} {lenc lenu : ℕ} {s t : LzState}
    (h : lz_reference src lenc lenu s = .ok t) : s.cin ≤ t.cin := by
  unfold lz_reference at h
  split at h
  · cases h
    exact le_rfl
  · simp only [bind_eq_ok] at h
    obtain ⟨b₀, _, b₁, _, h⟩ := h
    split at h
    · cases h
      exact Nat.le_add_right _ _
    · split at h
      · cases h
        exact Nat.le_add_right _ _
      · rw [copy_reference_cin h]
        exact Nat.le_add_right _ _

theorem lz_literal_cin_le {src : List UInt8} {lenc lenu : ℕ} {s t : LzState}
    (h : lz_literal src lenc lenu s = .ok t) : s.cin ≤ t.cin := by
  unfold lz_literal at h
  split at h
  · cases h
    exact le_rfl
  · split at h
    · cases h
      exact le_rfl
    · simp only [bind_eq_ok, pure_eq_ok, Except.ok.injEq] at h
      obtain ⟨b, _, s', hput, rfl⟩ := h
      rw [LzState.put_cin hput]
      exact Nat.le_add_right _ _

/-- No token gives input back, so the control loop consumes at least its control byte. -/
theorem control_run_cin_le {src : List UInt8} {lenc lenu control : ℕ} (i : ℕ) (s : LzState)
    {t : LzState} (h : control_run src lenc lenu control i s = .ok t) : s.cin ≤ t.cin := by
  induction i, s using control_run.induct control with
  | case1 i s hi hflag =>
    rw [control_run, if_pos hi, if_pos hflag] at h
    cases h
    exact le_rfl
  | case2 i s hi hflag hbit ih =>
    rw [control_run, if_pos hi, if_neg hflag, if_pos hbit, bind_eq_ok] at h
    obtain ⟨s', hs', h⟩ := h
    exact (lz_reference_cin_le hs').trans (ih s' h)
  | case3 i s hi hflag hbit ih =>
    rw [control_run, if_pos hi, if_neg hflag, if_neg hbit, bind_eq_ok] at h
    obtain ⟨s', hs', h⟩ := h
    exact (lz_literal_cin_le hs').trans (ih s' h)
  | case4 i s hi =>
    rw [control_run, if_neg hi] at h
    cases h
    exact le_rfl

/-- `while (1)`: left by `endflag`, or by the input running out. -/
def decompress_loop (src : List UInt8) (lenc lenu : ℕ) (s : LzState) : M LzState :=
  if s.endflag ≠ 0 then
    .ok s
  else if s.cin + 1 > lenc then
    .ok { s with endflag := -1 }
  else
    match rd src s.cin with
    | .error e => .error e
    | .ok control =>
      match _hrun : control_run src lenc lenu control.toNat 0 { s with cin := s.cin + 1 } with
      | .error e => .error e
      | .ok t => decompress_loop src lenc lenu t
termination_by lenc - s.cin
decreasing_by
  have hle : s.cin + 1 ≤ t.cin := control_run_cin_le 0 _ _hrun
  omega

/-- The state in front of the processing loop. -/
def lz_init (lenu : ℕ) : LzState where
  cin := 0
  cout := 0
  woff := rtf_prebuf.length
  eoff := rtf_prebuf.length
  dict := rtf_prebuf ++ List.replicate (4096 - rtf_prebuf.length) 0
  dest := List.replicate lenu 0
  endflag := 0

/-- `src` is the buffer from the payload on. An overrun only adds a message. -/
def decompress_rtf_data (o : Options) (src : List UInt8) (lenc lenu : ℕ) : M (List UInt8) := do
  assert (lenu > 0)
  let _ ← checked_xcalloc o lenu 1 0
  assert (lenc > 0)
  let s ← decompress_loop src lenc lenu (lz_init lenu)
  return s.dest

/-! ## Values -/

def is_rtf_data (data : List UInt8) : M Bool := do
  let _compr_size ← GETINT32 data 0
  let _uncompr_size ← GETINT32 data 4
  let magic ← GETINT32 data 8
  return magic = rtf_uncompressed_magic ∨ magic = rtf_compressed_magic

/-- `*out_len` and `*out_data`. The source sets no `*out_data` for a third magic
value, which would leave the caller with an indeterminate pointer. -/
def get_rtf_data_from_buf (o : Options) (len : ℕ) (data : List UInt8) : M (ℕ × Buffer) := do
  assert (len > 16)
  let compr_size ← GETINT32 data 0
  let uncompr_size ← GETINT32 data 4
  let magic ← GETINT32 data 8
  let checksum ← GETINT32 data 12
  let idx := 16
  assert (compr_size.toNat + 4 = len)
  if magic = rtf_uncompressed_magic then
    let _ ← checked_xcalloc o uncompr_size.toNat 1 0
    -- from offset 4 of the value, not from `idx`
    let bytes ← rd_block data 4 uncompr_size.toNat
    return (uncompr_size.toNat, .full bytes)
  else if magic = rtf_compressed_magic then
    let payload ← rd_block data idx (len - idx)
    if checksum = generate_crc payload then
      let dest ← decompress_rtf_data o (data.drop idx) (len - idx) uncompr_size.toNat
      return (uncompr_size.toNat, .full dest)
    else
      -- a bad checksum leaves an empty document behind
      let _ ← checked_xcalloc o 4 1 0
      return (0, .full [0, 0, 0, 0])
  else
    .error .fault

/-- One turn of the loop of `get_rtf_data`. -/
def rtf_value (o : Options) (v : MAPI_Value) : M (Option VarLenData) :=
  if v.len > 12 then
    match v.data with
    | .buf b => do
      if ← is_rtf_data b.bytes then
        let _ ← xmalloc 1 sizeof_VarLenData 0
        let (out_len, out_data) ← get_rtf_data_from_buf o v.len b.bytes
        return some ⟨out_len, out_data⟩
      else
        return none
    | _ => .error .fault
  else
    .ok none

/-- The array of `num_values + 1` pointers, NULL where a value was not recognised. -/
def get_rtf_data (o : Options) (a : MAPI_Attr) : M (List (Option VarLenData)) := do
  let _ ← checked_xcalloc o (a.num_values + 1) sizeof_ptr 0
  let body ← (a.values.take a.num_values).mapM (rtf_value o)
  return body ++ [none]

/-! ## The function once its header is read -/

/-- The words of a header that lies within the data. -/
structure HeaderWords (data : List UInt8) (compr_size uncompr_size magic checksum : UInt32) :
    Prop where
  compr : At data 0 (le32 compr_size)
  uncompr : At data 4 (le32 uncompr_size)
  magic : At data 8 (le32 magic)
  checksum : At data 12 (le32 checksum)

theorem HeaderWords.append_right {data : List UInt8} {c n m k : UInt32}
    (hw : HeaderWords data c n m k) (extra : List UInt8) : HeaderWords (data ++ extra) c n m k :=
  ⟨hw.compr.append_right _, hw.uncompr.append_right _, hw.magic.append_right _,
    hw.checksum.append_right _⟩

theorem exists_headerWords {data : List UInt8} (h : 16 ≤ data.length) :
    ∃ c n m k, HeaderWords data c n m k := by
  obtain ⟨c, -, hc⟩ := @GETINT32_of_le data 0 (by omega)
  obtain ⟨n, -, hn⟩ := @GETINT32_of_le data 4 (by omega)
  obtain ⟨m, -, hm⟩ := @GETINT32_of_le data 8 (by omega)
  obtain ⟨k, -, hk⟩ := @GETINT32_of_le data 12 (by omega)
  exact ⟨c, n, m, k, hc, hn, hm, hk⟩

theorem is_rtf_data_of_words {data : List UInt8} {c n m k : UInt32}
    (hw : HeaderWords data c n m k) :
    is_rtf_data data = .ok (decide (m = rtf_uncompressed_magic ∨ m = rtf_compressed_magic)) := by
  rw [is_rtf_data, GETINT32_of_at hw.compr, ok_bind, GETINT32_of_at hw.uncompr, ok_bind,
    GETINT32_of_at hw.magic, ok_bind, pure_eq_ok]

/-- The function once its header is read and its assertions hold. -/
theorem get_rtf_data_from_buf_eq (o : Options) {len : ℕ} {data : List UInt8}
    {c n m k : UInt32} (hw : HeaderWords data c n m k) (hlen : len > 16) (hc : c.toNat + 4 = len) :
    get_rtf_data_from_buf o len data =
      if m = rtf_uncompressed_magic then do
        let _ ← checked_xcalloc o n.toNat 1 0
        let bytes ← rd_block data 4 n.toNat
        return (n.toNat, .full bytes)
      else if m = rtf_compressed_magic then do
        let payload ← rd_block data 16 (len - 16)
        if k = generate_crc payload then
          let dest ← decompress_rtf_data o (data.drop 16) (len - 16) n.toNat
          return (n.toNat, .full dest)
        else
          let _ ← checked_xcalloc o 4 1 0
          return (0, .full [0, 0, 0, 0])
      else
        .error .fault := by
  rw [get_rtf_data_from_buf, assert_of hlen, ok_bind, GETINT32_of_at hw.compr, ok_bind,
    GETINT32_of_at hw.uncompr, ok_bind, GETINT32_of_at hw.magic, ok_bind,
    GETINT32_of_at hw.checksum, ok_bind]
  simp only
  rw [assert_of hc, ok_bind]

/-- A length or a size word that is wrong fails an assertion, whatever else stands there. -/
theorem get_rtf_data_from_buf_header (o : Options) {len : ℕ} {data : List UInt8}
    (hle : len ≤ data.length)
    (h : ¬ (16 < len ∧ ∃ c : UInt32, At data 0 (le32 c) ∧ c.toNat + 4 = len)) :
    get_rtf_data_from_buf o len data = .error .assertion := by
  by_cases hlen : len > 16
  · obtain ⟨c, n, m, k, hw⟩ := exists_headerWords (hlen.le.trans hle)
    have hc : ¬ c.toNat + 4 = len := fun hc => h ⟨hlen, c, hw.compr, hc⟩
    rw [get_rtf_data_from_buf, assert_of hlen, ok_bind, GETINT32_of_at hw.compr, ok_bind,
      GETINT32_of_at hw.uncompr, ok_bind, GETINT32_of_at hw.magic, ok_bind,
      GETINT32_of_at hw.checksum, ok_bind]
    simp only
    rw [assert_eq_error.mpr ⟨hc, rfl⟩, error_bind]
  · rw [get_rtf_data_from_buf, assert_eq_error.mpr ⟨hlen, rfl⟩, error_bind]

/-- A value that is recognised is the result of `get_rtf_data_from_buf` in a fresh record. -/
theorem rtf_value_eq (o : Options) {len : ℕ} {data : List UInt8} (hlen : len > 12)
    (hrtf : is_rtf_data data = .ok true) : rtf_value o ⟨len, .buf (.full data)⟩
      = get_rtf_data_from_buf o len data >>= fun r => .ok (some ⟨r.1, r.2⟩) := by
  have hmalloc : xmalloc 1 sizeof_VarLenData 0 = .ok 16 := xmalloc_of_lt (by decide)
  simp only [rtf_value, if_pos hlen, Buffer.full_bytes, hrtf, ok_bind, if_true, hmalloc]
  rfl

end Tnef
