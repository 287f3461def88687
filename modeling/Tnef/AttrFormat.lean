/-
One attribute as a format: what a sender writes and what `attr_read` takes off.

`encode_attr` is the format, `encode_raw` the same with any checksum word. A file is
compared with the file some bytes further on through `Input.before`; each reader is
characterised by one equivalence, `geti32 inp = .ok (x, inp')` exactly when `inp` is
`inp'` before the bytes of `x`, so nothing but an encoded attribute is ever taken off.
-/
import Tnef.Attr

set_option autoImplicit false

namespace Tnef

open ExceptRules Slice LittleEndian

/-! ## The format -/

/-- The sum of the bytes, modulo 65536. -/
def byte_sum (data : List UInt8) : UInt16 := UInt16.ofNat (data.map UInt8.toNat).sum

def level_byte : level_type → UInt8
  | .LVL_MESSAGE => 1
  | .LVL_ATTACHMENT => 2

def type_and_name (attr : Attr) : UInt32 := attr.type.toUInt32 <<< 16 ||| attr.name.toUInt32

/-- An attribute in the stream, with an arbitrary checksum word. -/
def encode_raw (attr : Attr) (checksum : UInt16) : List UInt8 :=
  [level_byte attr.lvl_type] ++ le32 (type_and_name attr) ++ le32 (UInt32.ofNat attr.len)
    ++ attr.data ++ le16 checksum

/-- An attribute in the stream: level, type and name, length, data, byte sum. -/
def encode_attr (attr : Attr) : List UInt8 := encode_raw attr (byte_sum attr.data)

theorem encode_raw_length (attr : Attr) (k : UInt16) :
    (encode_raw attr k).length = attr.len + 11 := by
  simp only [encode_raw, Attr.len, List.length_append, List.length_singleton, le32_length,
    le16_length]
  omega

/-! ## Type, name and checksum -/

theorem type_and_name_toNat (attr : Attr) :
    (type_and_name attr).toNat = 2 ^ 16 * attr.type.toNat + attr.name.toNat := by
  have htype := attr.type.toNat_lt
  have hname := attr.name.toNat_lt
  have hshift : attr.type.toNat <<< 16 % 2 ^ 32 = attr.type.toNat <<< 16 := by
    rw [Nat.shiftLeft_eq]
    exact Nat.mod_eq_of_lt (by omega)
  rw [type_and_name, UInt32.toNat_or, UInt32.toNat_shiftLeft, UInt16.toNat_toUInt32,
    UInt16.toNat_toUInt32]
  simp only [UInt32.reduceToNat, Nat.reduceMod, hshift]
  rw [← Nat.shiftLeft_add_eq_or_of_lt hname, Nat.shiftLeft_eq, Nat.mul_comm]

/-- The type is the upper half of the word. -/
theorem type_of_word (attr : Attr) : (type_and_name attr >>> 16).toUInt16 = attr.type := by
  apply UInt16.toNat_inj.mp
  have htype := attr.type.toNat_lt
  have hname := attr.name.toNat_lt
  rw [UInt32.toNat_toUInt16, UInt32.toNat_shiftRight, type_and_name_toNat,
    Nat.shiftRight_eq_div_pow]
  simp only [UInt32.reduceToNat, Nat.reduceMod]
  omega

/-- The name is the lower half of the word. -/
theorem name_of_word (attr : Attr) :
    ((type_and_name attr <<< 16) >>> 16).toUInt16 = attr.name := by
  apply UInt16.toNat_inj.mp
  have htype := attr.type.toNat_lt
  have hname := attr.name.toNat_lt
  rw [UInt32.toNat_toUInt16, UInt32.toNat_shiftRight, UInt32.toNat_shiftLeft, type_and_name_toNat,
    Nat.shiftRight_eq_div_pow, Nat.shiftLeft_eq]
  simp only [UInt32.reduceToNat, Nat.reduceMod]
  omega

/-- Taking a word apart and putting it together again. -/
theorem word_of_halves (w : UInt32) :
    (w >>> 16).toUInt16.toUInt32 <<< 16 ||| ((w <<< 16) >>> 16).toUInt16.toUInt32 = w := by
  have hw := w.toNat_lt
  have h := type_and_name_toNat
    ⟨.LVL_MESSAGE, (w >>> 16).toUInt16, ((w <<< 16) >>> 16).toUInt16, [], by decide⟩
  apply UInt32.toNat_inj.mp
  rw [type_and_name] at h
  rw [h, UInt32.toNat_toUInt16, UInt32.toNat_toUInt16, UInt32.toNat_shiftRight,
    UInt32.toNat_shiftRight, UInt32.toNat_shiftLeft, Nat.shiftRight_eq_div_pow,
    Nat.shiftRight_eq_div_pow, Nat.shiftLeft_eq]
  simp only [UInt32.reduceToNat, Nat.reduceMod]
  omega

/-- The loop keeps the sum modulo 65536. -/
theorem checksum_loop_toNat (data : List UInt8) : ∀ sum : UInt32, sum.toNat < 2 ^ 16 →
    (data.foldl (fun sum b => (sum + b.toUInt32) &&& 0xffff) sum).toNat
      = (sum.toNat + (data.map UInt8.toNat).sum) % 2 ^ 16 := by
  induction data with
  | nil =>
    intro sum hsum
    simp only [List.foldl_nil, List.map_nil, List.sum_nil, Nat.add_zero]
    exact (Nat.mod_eq_of_lt hsum).symm
  | cons b data ih =>
    intro sum hsum
    have hb := b.toNat_lt
    -- the sum stays below 2 ^ 16, so adding a byte does not overflow the word
    have hstep : ((sum + b.toUInt32) &&& 0xffff).toNat = (sum.toNat + b.toNat) % 2 ^ 16 := by
      rw [UInt32.toNat_and, UInt32.toNat_add, UInt8.toNat_toUInt32,
        Nat.mod_eq_of_lt (show sum.toNat + b.toNat < 2 ^ 32 by omega)]
      exact Nat.and_two_pow_sub_one_eq_mod _ 16
    rw [List.foldl_cons, ih _ (by rw [hstep]; exact Nat.mod_lt _ (by decide)), hstep,
      Nat.mod_add_mod, List.map_cons, List.sum_cons, Nat.add_assoc]

/-- **The checksum that passes is the byte sum, and only that.** -/
theorem check_checksum_iff (attr : Attr) (k : UInt16) :
    check_checksum attr k = true ↔ k = byte_sum attr.data := by
  have hsum := checksum_loop_toNat attr.data 0 (by decide)
  rw [check_checksum, decide_eq_true_iff, ← UInt32.toNat_inj, ← UInt16.toNat_inj, hsum,
    UInt16.toNat_toUInt32, byte_sum, UInt16.toNat_ofNat']
  simp only [UInt32.reduceToNat, Nat.zero_add]
  exact eq_comm

/-! ## The file before some bytes -/

/-- The file from which `bs` has still to be read to reach `inp`. -/
def Input.before (inp : Input) (bs : List UInt8) : Input := { inp with rest := bs ++ inp.rest }

@[simp] theorem Input.before_nil (inp : Input) : inp.before [] = inp := rfl

@[simp] theorem Input.before_rest (inp : Input) (bs : List UInt8) :
    (inp.before bs).rest = bs ++ inp.rest := rfl

theorem Input.before_before (inp : Input) (a b : List UInt8) :
    (inp.before b).before a = inp.before (a ++ b) := by
  simp [Input.before]

theorem getbuf_before (inp : Input) {n : ℕ} (bs : { bs : List UInt8 // bs.length = n }) :
    getbuf (inp.before bs.1) n = .ok (bs, inp) := by
  obtain ⟨bs, rfl⟩ := bs
  have hle : bs.length ≤ (inp.before bs).rest.length := by
    rw [Input.before_rest, List.length_append]
    omega
  rw [getbuf, dif_pos hle]
  simp [Input.before]

/-- What `getbuf` returns is what stood in front of the rest. -/
theorem getbuf_inv {inp inp' : Input} {n : ℕ} {bs : { bs : List UInt8 // bs.length = n }}
    (h : getbuf inp n = .ok (bs, inp')) : inp = inp'.before bs.1 := by
  unfold getbuf at h
  split at h
  · cases h
    simp [Input.before]
  · cases h

theorem geti32_eq_ok {inp inp' : Input} {x : UInt32} :
    geti32 inp = .ok (x, inp') ↔ inp = inp'.before (le32 x) := by
  constructor
  · intro h
    simp only [geti32, bind_eq_ok, pure_eq_ok, Except.ok.injEq, GETINT32_eq_ok] at h
    obtain ⟨⟨⟨bs, hlen⟩, inp₁⟩, hbuf, x', hx, heq⟩ := h
    cases heq
    have hbs : bs = le32 x := hx.eq_of_length hlen
    rw [getbuf_inv hbuf, ← hbs]
  · rintro rfl
    have hbuf := getbuf_before inp' ⟨le32 x, le32_length x⟩
    rw [geti32, hbuf, ok_bind]
    simp only [GETINT32_of_at (at_zero (le32 x)), ok_bind, pure_eq_ok]

theorem geti16_eq_ok {inp inp' : Input} {x : UInt16} :
    geti16 inp = .ok (x, inp') ↔ inp = inp'.before (le16 x) := by
  constructor
  · intro h
    simp only [geti16, bind_eq_ok, pure_eq_ok, Except.ok.injEq, GETINT16_eq_ok] at h
    obtain ⟨⟨⟨bs, hlen⟩, inp₁⟩, hbuf, x', hx, heq⟩ := h
    cases heq
    have hbs : bs = le16 x := hx.eq_of_length hlen
    rw [getbuf_inv hbuf, ← hbs]
  · rintro rfl
    have hbuf := getbuf_before inp' ⟨le16 x, le16_length x⟩
    rw [geti16, hbuf, ok_bind]
    simp only [GETINT16_of_at (at_zero (le16 x)), ok_bind, pure_eq_ok]

theorem geti8_eq_ok {inp inp' : Input} {x : UInt8} :
    geti8 inp = .ok (x, inp') ↔ inp = inp'.before [x] := by
  constructor
  · intro h
    simp only [geti8, bind_eq_ok, pure_eq_ok, Except.ok.injEq, rd_eq_ok] at h
    obtain ⟨⟨⟨bs, hlen⟩, inp₁⟩, hbuf, x', hx, heq⟩ := h
    cases heq
    have hbs : bs = [x] := by
      obtain ⟨y, rfl⟩ := List.length_eq_one_iff.mp hlen
      simpa using hx
    rw [getbuf_inv hbuf, ← hbs]
  · rintro rfl
    have hbuf : getbuf (inp'.before [x]) 1 = .ok (⟨[x], rfl⟩, inp') := getbuf_before inp' ⟨[x], rfl⟩
    rw [geti8, hbuf, ok_bind]
    rfl

/-! ## Reading one attribute -/

/-- What can stop `attr_read` although the bytes are there: the allocation limit, the
checksum, and the dump under `--debug`. -/
def attr_gate (o : Options) (attr : Attr) (checksum : UInt16) : M Unit := do
  let _ ← checked_xcalloc o 1 sizeof_Attr 0
  let _ ← checked_xcalloc o attr.len 1 1
  attr_checks o attr checksum

/-- A checksum that is wrong and not forgiven stops the program; otherwise there is only the
output of `--debug`. -/
theorem attr_checks_eq (o : Options) (attr : Attr) (k : UInt16) : attr_checks o attr k
    = if check_checksum attr k = true ∨ o.checksum_ok = true then
        if o.dbg_out = true then attr_dump o attr else pure ()
      else .error (.exit 1) := by
  unfold attr_checks
  by_cases hsum : check_checksum attr k = true
  · rw [if_neg (not_not.mpr hsum), if_pos (Or.inl hsum)]
  · by_cases hok : o.checksum_ok = true
    · rw [if_pos hsum, if_neg (not_not.mpr hok), if_pos (Or.inr hok)]
    · rw [if_pos hsum, if_pos hok, if_neg (not_or.mpr ⟨hsum, hok⟩)]
      rfl

theorem level_byte_ok (attr : Attr) :
    (level_byte attr.lvl_type = 1 ∨ level_byte attr.lvl_type = 2)
      ∧ (if level_byte attr.lvl_type = 1 then level_type.LVL_MESSAGE else .LVL_ATTACHMENT)
        = attr.lvl_type := by
  cases attr.lvl_type <;> decide

theorem encode_raw_before (inp : Input) (attr : Attr) (k : UInt16) :
    inp.before (encode_raw attr k)
      = ((((inp.before (le16 k)).before attr.data).before (le32 (UInt32.ofNat attr.len))).before
        (le32 (type_and_name attr))).before [level_byte attr.lvl_type] := by
  simp only [Input.before_before, encode_raw, List.append_assoc]

/-- **`attr_read` takes off one encoded attribute**, and returns it if nothing stops it. -/
theorem attr_read_before (o : Options) (inp : Input) (attr : Attr) (k : UInt16) :
    attr_read o (inp.before (encode_raw attr k))
      = attr_gate o attr k >>= fun _ => .ok (attr, inp) := by
  obtain ⟨hlvl, hlevel⟩ := level_byte_ok attr
  have hlen : (UInt32.ofNat attr.len).toNat = attr.len := UInt32.toNat_ofNat_of_lt' attr.fits
  have hdata : ∀ n (hn : attr.data.length = n),
      getbuf ((inp.before (le16 k)).before attr.data) n
        = .ok (⟨attr.data, hn⟩, inp.before (le16 k)) := fun n hn => getbuf_before _ ⟨attr.data, hn⟩
  rw [attr_read, attr_gate, encode_raw_before]
  cases checked_xcalloc o 1 sizeof_Attr 0 with
  | error e => rfl
  | ok _ =>
    rw [ok_bind, ok_bind, geti8_eq_ok.mpr rfl, ok_bind]
    simp only
    rw [assert_of hlvl, ok_bind, geti32_eq_ok.mpr rfl, ok_bind]
    simp only
    rw [geti32_eq_ok.mpr rfl, ok_bind]
    simp only [hlen, hlevel, type_of_word, name_of_word]
    cases checked_xcalloc o attr.len 1 1 with
    | error e => rfl
    | ok _ =>
      rw [ok_bind, ok_bind, hdata _ hlen.symm, ok_bind]
      simp only
      rw [geti16_eq_ok.mpr rfl, ok_bind, pure_eq_ok]

/-- **Nothing else is taken off**: what `attr_read` returns stood encoded in front of the
rest of the file. -/
theorem attr_read_inv {o : Options} {inp inp' : Input} {attr : Attr}
    (h : attr_read o inp = .ok (attr, inp')) : ∃ k, inp = inp'.before (encode_raw attr k) := by
  simp only [attr_read, bind_eq_ok, assert_eq_ok, pure_eq_ok, Except.ok.injEq] at h
  obtain ⟨_, _, ⟨lvl, inp₁⟩, h₁, _, hlvl, ⟨w, inp₂⟩, h₂, ⟨len, inp₃⟩, h₃, _, _,
    ⟨⟨data, hlen⟩, inp₄⟩, h₄, ⟨k, inp₅⟩, h₅, _, _, heq⟩ := h
  cases heq
  refine ⟨k, ?_⟩
  have hword : UInt32.ofNat data.length = len := by
    rw [hlen]
    exact UInt32.ofNat_toNat
  have hlevel : level_byte (if lvl = 1 then .LVL_MESSAGE else .LVL_ATTACHMENT) = lvl := by
    rcases hlvl with rfl | rfl <;> decide
  -- each reader says what stood in front of the file it leaves
  have e₁ := geti8_eq_ok.mp h₁
  have e₂ : inp₁ = inp₂.before (le32 w) := geti32_eq_ok.mp h₂
  have e₃ : inp₂ = inp₃.before (le32 len) := geti32_eq_ok.mp h₃
  have e₄ : inp₃ = inp₄.before data := getbuf_inv h₄
  have e₅ : inp₄ = inp₅.before (le16 k) := geti16_eq_ok.mp h₅
  rw [encode_raw_before, e₁, e₂, e₃, e₄, e₅]
  simp only [Attr.len, hword, hlevel, type_and_name, word_of_halves]

theorem attr_read_eq_ok {o : Options} {inp inp' : Input} {attr : Attr} :
    attr_read o inp = .ok (attr, inp')
      ↔ ∃ k, inp = inp'.before (encode_raw attr k) ∧ attr_gate o attr k = .ok () := by
  constructor
  · intro h
    obtain ⟨k, rfl⟩ := attr_read_inv h
    rw [attr_read_before, bind_eq_ok] at h
    obtain ⟨_, hgate, _⟩ := h
    exact ⟨k, rfl, hgate⟩
  · rintro ⟨k, rfl, hgate⟩
    rw [attr_read_before, hgate, ok_bind]

end Tnef
