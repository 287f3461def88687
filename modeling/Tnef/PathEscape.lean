/-
What the escaping of names keeps, and what `--unix-paths` leaves in a path.

`sanitize_filename` loses nothing: decoding the escapes of its result gives the name back,
and no two names become the same. It escapes the base of a name. The directories of a
Windows path only have their separators turned round, so under `--unix-paths` the path is
free of unfriendly characters exactly when they were.
-/
import Tnef.PathSafe
import Tnef.Lib.Escape

set_option autoImplicit false

namespace Tnef

open ExceptRules Escape

/-! ## Decoding escapes -/

/-- The value of a hexadecimal digit in upper case. -/
def hex_value (c : UInt8) : Option UInt8 :=
  if 0x30 ≤ c ∧ c ≤ 0x39 then some (c - 0x30)
  else if 0x41 ≤ c ∧ c ≤ 0x46 then some (c - 0x41 + 10)
  else none

/-- The byte two digits spell. -/
def hex_byte (x y : UInt8) : Option UInt8 :=
  match hex_value x, hex_value y with
  | some hi, some lo => some (16 * hi + lo)
  | _, _ => none

/-- Each `%XY` is replaced by the byte its digits spell. -/
def percent_decode (s : List UInt8) : List UInt8 := decode percent hex_byte s

theorem hex_byte_left {x : UInt8} (h : hex_value x = none) (y : UInt8) : hex_byte x y = none := by
  rw [hex_byte, h]

theorem hex_byte_right {y : UInt8} (h : hex_value y = none) (x : UInt8) : hex_byte x y = none := by
  rw [hex_byte, h]
  cases hex_value x <;> rfl

/-! ## The escaping of `sanitize_filename` -/

/-- The index of a digit is its value, and the digit itself is no character to escape. -/
theorem hex_digits_spec : ∀ i < 16, hex_value (hex_digits.getD i 0) = some (UInt8.ofNat i)
    ∧ ∀ u, stet { unix_paths := u } (hex_digits.getD i 0) = true := by
  decide +kernel

theorem high_nibble (c : UInt8) : (c >>> 4 &&& 0xf).toNat = c.toNat / 16 := by
  have hlow := Nat.and_two_pow_sub_one_eq_mod (c >>> 4).toNat 4
  have hshift : (c >>> 4).toNat = c.toNat / 16 := by
    rw [UInt8.toNat_shiftRight, Nat.shiftRight_eq_div_pow]
    rfl
  have hlt := c.toNat_lt
  rw [UInt8.toNat_and]
  refine hlow.trans ?_
  rw [hshift]
  omega

theorem low_nibble (c : UInt8) : (c &&& 0xf).toNat = c.toNat % 16 := by
  rw [UInt8.toNat_and]
  exact Nat.and_two_pow_sub_one_eq_mod c.toNat 4

theorem nibbles (c : UInt8) : (16 : UInt8) * (c >>> 4 &&& 0xf) + (c &&& 0xf) = c := by
  have hlt := c.toNat_lt
  apply UInt8.toNat_inj.mp
  rw [UInt8.toNat_add, UInt8.toNat_mul, high_nibble, low_nibble]
  show (16 * (c.toNat / 16) % 256 + c.toNat % 16) % 256 = c.toNat
  omega

theorem nibble_lt (n : UInt8) : (n &&& 0xf).toNat < 16 := by
  rw [low_nibble]
  exact Nat.mod_lt _ (by decide)

theorem hex_value_digit (n : UInt8) : hex_value (hex_digits.getD (n &&& 0xf).toNat 0)
    = some (n &&& 0xf) := by
  rw [(hex_digits_spec _ (nibble_lt n)).1, UInt8.ofNat_toNat]

/-- Only `unix_paths` has a say in what is kept. -/
theorem stet_eq (o : Options) (c : UInt8) : stet o c = stet { unix_paths := o.unix_paths } c := rfl

/-- The escaping, with upper-case hexadecimal digits. -/
def percent_code (o : Options) : Code UInt8 where
  esc := percent
  spell := hex_byte
  keep := stet o
  digits c := (hex_digits.getD (c >>> 4 &&& 0xf).toNat 0, hex_digits.getD (c &&& 0xf).toNat 0)
  esc_not_kept := by
    rw [stet_eq]
    cases o.unix_paths <;> decide
  spell_digits := by
    intro c
    simp only [hex_byte, hex_value_digit, nibbles]
  digit_ne := by
    have hno : hex_value percent = none := by decide
    intro x y v h
    refine ⟨?_, ?_⟩
    · rintro rfl
      rw [hex_byte_left hno] at h
      cases h
    · rintro rfl
      rw [hex_byte_right hno] at h
      cases h

theorem encode_eq (o : Options) (s : List UInt8) :
    (percent_code o).encode s = s.flatMap (sanitize_char o) := rfl

/-- A digit is one of the characters that are kept. -/
theorem stet_digit (o : Options) (n : UInt8) :
    stet o (hex_digits.getD (n &&& 0xf).toNat 0) = true := by
  rw [stet_eq]
  exact (hex_digits_spec _ (nibble_lt n)).2 o.unix_paths

/-- What stands in an escaped name is a kept character or begins an escape. -/
theorem mem_sanitize {o : Options} {s : List UInt8} {c : UInt8}
    (h : c ∈ s.flatMap (sanitize_char o)) : stet o c = true ∨ c = percent := by
  rw [← encode_eq] at h
  rcases (percent_code o).mem_encode h with hkeep | hesc | ⟨d, hd⟩
  · exact Or.inl hkeep
  · exact Or.inr hesc
  · left
    rcases hd with rfl | rfl
    · exact stet_digit o (d >>> 4)
    · exact stet_digit o d

theorem stet_eq_true {o : Options} {c : UInt8} (h : stet o c = true) :
    iscntrl c = false ∧ c ∉ unsanitary_windows_chars
      ∧ (o.unix_paths = true → isascii c = true ∧ c ∉ unsavory_unix_chars) := by
  unfold stet at h
  split_ifs at h with hcntrl hwin hunix hperc
  refine ⟨by simpa using hcntrl, hwin, fun hu => ?_⟩
  by_contra hbad
  refine hunix ⟨hu, ?_⟩
  by_cases hascii : isascii c = true
  · right
    by_contra hno
    exact hbad ⟨hascii, hno⟩
  · exact Or.inl hascii

/-! ## Nothing is lost -/

theorem sanitize_filename_ok {o : Options} {fname r : List UInt8}
    (h : sanitize_filename o fname = .ok r) : r = (percent_code o).encode fname := by
  by_cases hne : fname = []
  · subst hne
    rw [sanitize_filename, if_pos rfl] at h
    simp only [bind_eq_ok, pure_eq_ok, Except.ok.injEq] at h
    obtain ⟨_, -, h⟩ := h
    exact h.symm
  · exact sanitize_filename_eq_ok hne h

/-- The escaped name and its terminator fit in the block. -/
theorem sanitize_fits (o : Options) (fname : List UInt8) :
    (fname.flatMap (sanitize_char o) ++ [0]).length ≤ 3 * fname.length + SLOP := by
  have hlen := (sanitize_length o fname).2
  rw [List.length_append, List.length_singleton]
  show _ ≤ 3 * fname.length + 4
  omega

theorem sanitize_filename_of_admits {o : Options} {fname : List UInt8}
    (hsize : 3 * fname.length + SLOP < 2 ^ 64) (hlimit : o.Admits (3 * fname.length + SLOP)) :
    sanitize_filename o fname = .ok ((percent_code o).encode fname) := by
  have hcalloc : checked_xcalloc o (3 * fname.length + SLOP) 1 0
      = .ok (3 * fname.length + SLOP) := by
    rw [checked_xcalloc_of_lt o (by omega), Nat.mul_one, if_pos hlimit, Nat.add_zero]
  unfold sanitize_filename
  by_cases hne : fname = []
  · subst hne
    have hslop : checked_xcalloc o SLOP 1 0 = .ok SLOP := hcalloc
    rw [if_pos rfl, hslop]
    rfl
  · rw [if_neg hne, hcalloc, ok_bind, Buffer.fill_of_le (sanitize_fits o fname)]
    rfl

theorem sanitize_filename_ne_fault (o : Options) (fname : List UInt8) :
    sanitize_filename o fname ≠ .error .fault := by
  unfold sanitize_filename
  split_ifs with hne
  · exact bind_ne_error (checked_xcalloc_ne_fault _ _ _ _) fun size hsize => by simp
  · refine bind_ne_error (checked_xcalloc_ne_fault _ _ _ _) ?_
    intro size hcalloc
    have hlt := checked_xcalloc_lt hcalloc
    obtain ⟨-, rfl⟩ := (checked_xcalloc_eq_ok (by omega)).mp hcalloc
    rw [Buffer.fill_of_le (by simpa using sanitize_fits o fname)]
    simp

/-- **Escaping a name.** The result spells the name and no other, holds no character that is
to be escaped and no '%' but in front of an escape, and fits with its terminator in the block
requested for it. The one way not to return is the allocator's. -/
theorem sanitize_filename_spells (o : Options) (s : List UInt8) :
    (∀ r, sanitize_filename o s = .ok r →
      percent_decode r = s
      ∧ (∀ s', sanitize_filename o s' = .ok r → s' = s)
      ∧ (∀ c ∈ r, iscntrl c = false ∧ c ∉ unsanitary_windows_chars
          ∧ (o.unix_paths = true → isascii c = true ∧ c ∉ unsavory_unix_chars))
      ∧ Proper percent hex_byte r
      ∧ r.length + 1 ≤ 3 * s.length + 4)
    ∧ (3 * s.length + 4 < 2 ^ 64 → o.Admits (3 * s.length + 4) → ∃ r, sanitize_filename o s = .ok r)
    ∧ sanitize_filename o s ≠ .error .fault := by
  refine ⟨?_, ?_, ?_⟩
  · intro r h
    obtain rfl := sanitize_filename_ok h
    refine ⟨(percent_code o).decode_encode s, ?_, ?_, (percent_code o).proper_encode s, ?_⟩
    · intro s' h'
      exact ((percent_code o).encode_injective (sanitize_filename_ok h')).symm
    · intro c hc
      rcases mem_sanitize hc with hstet | rfl
      · exact stet_eq_true hstet
      · exact ⟨by decide, by decide, fun _ => ⟨by decide, by decide⟩⟩
    · have hfits := sanitize_fits o s
      rw [List.length_append, List.length_singleton] at hfits
      exact hfits
  · intro hsize hlimit
    exact ⟨_, sanitize_filename_of_admits hsize hlimit⟩
  · exact sanitize_filename_ne_fault o s

theorem sanitize_filename_spells_witness :
    percent_decode (ascii "a%25b%20%5Bc") = ascii "a%b [c"
      ∧ ∃ r, sanitize_filename { unix_paths := true } (ascii "a%b [c") = .ok r :=
  have h := sanitize_filename_spells { unix_paths := true } (ascii "a%b [c")
  ⟨(h.1 (ascii "a%25b%20%5Bc") (by decide +kernel)).1, h.2.1 (by decide) (by decide)⟩

/-! ## The path under `--unix-paths` -/

/-- Nothing in the path but separators, characters that are kept, and escapes. -/
structure Friendly (o : Options) (sep : UInt8) (p : List UInt8) : Prop where
  chars : ∀ c ∈ p, c = sep ∨ stet o c = true ∨ c = percent
  escapes : Proper percent hex_byte p

/-- What stands in front of the last backslash. -/
def dir_part (fname : List UInt8) : List UInt8 :=
  fname.take ((rindex fname backslash).getD 0)

variable {o : Options}

theorem friendly_encode (sep : UInt8) (s : List UInt8) :
    Friendly o sep (s.flatMap (sanitize_char o)) :=
  ⟨fun _ hc => Or.inr (mem_sanitize hc), (percent_code o).proper_encode s⟩

theorem friendly_separated {sep : UInt8} (hsep : sep = slash ∨ sep = backslash)
    {p q : List UInt8} : Friendly o sep (p ++ sep :: q) ↔ Friendly o sep p ∧ Friendly o sep q := by
  have hne : sep ≠ percent := by rcases hsep with rfl | rfl <;> decide
  have hvalue : hex_value sep = none := by rcases hsep with rfl | rfl <;> decide
  -- no escape reaches across a separator, which is no hexadecimal digit
  have hproper := proper_separated (s := p) (t := q) hne (hex_byte_left hvalue)
    (hex_byte_right hvalue)
  constructor
  · intro h
    obtain ⟨hp, hq⟩ := hproper.mp h.escapes
    exact ⟨⟨fun c hc => h.chars c (by simp [hc]), hp⟩, ⟨fun c hc => h.chars c (by simp [hc]), hq⟩⟩
  · rintro ⟨hp, hq⟩
    refine ⟨?_, hproper.mpr ⟨hp.escapes, hq.escapes⟩⟩
    intro c hc
    rw [List.mem_append, List.mem_cons] at hc
    rcases hc with hc | rfl | hc
    · exact hp.chars c hc
    · exact Or.inl rfl
    · exact hq.chars c hc

/-- Leading slashes make no difference. -/
theorem friendly_dropWhile (p : List UInt8) :
    Friendly o slash (p.dropWhile (· = slash)) ↔ Friendly o slash p := by
  induction p with
  | nil => exact Iff.rfl
  | cons c p ih =>
    by_cases hc : c = slash
    · subst hc
      have hcons : Friendly o slash ([] ++ slash :: p) ↔ _ := friendly_separated (Or.inl rfl)
      have hnil : Friendly o slash [] := friendly_encode slash []
      rw [List.dropWhile_cons_of_pos (by simp), ih]
      rw [List.nil_append, and_iff_right hnil] at hcons
      exact hcons.symm
    · rw [List.dropWhile_cons_of_neg (by simpa using hc)]

/-- Neither does the way the separators are turned. -/
theorem friendly_flip {m : List UInt8} (hm : slash ∉ m) :
    Friendly o slash (m.map fun p => if p = backslash then slash else p)
      ↔ Friendly o backslash m := by
  have hvalue : ∀ c, hex_value (if c = backslash then slash else c) = hex_value c := by
    intro c
    split_ifs with hc
    · rw [hc]
      decide
    · rfl
  have hesc : ∀ c, (if c = backslash then slash else c) = percent ↔ c = percent := by
    intro c
    split_ifs with hc
    · rw [hc]
      decide
    · exact Iff.rfl
  -- an escape is spelt in digits, which are not turned
  have hspell : ∀ x y, hex_byte (if x = backslash then slash else x)
      (if y = backslash then slash else y) = hex_byte x y := by
    intro x y
    rw [hex_byte, hvalue, hvalue, hex_byte]
  have hproper : Proper percent hex_byte (m.map fun p => if p = backslash then slash else p)
      ↔ Proper percent hex_byte m := proper_map hesc hspell
  constructor
  · intro h
    refine ⟨?_, hproper.mp h.escapes⟩
    intro c hc
    -- a separator that was turned was a backslash, as there is no slash
    have hflip := h.chars _ (List.mem_map_of_mem hc)
    by_cases hback : c = backslash
    · exact Or.inl hback
    · rw [if_neg hback] at hflip
      exact Or.inr (hflip.resolve_left fun hs => hm (hs ▸ hc))
  · intro h
    refine ⟨?_, hproper.mpr h.escapes⟩
    intro c hc
    obtain ⟨d, hd, rfl⟩ := List.mem_map.mp hc
    split_ifs with hback
    · exact Or.inl rfl
    · exact Or.inr ((h.chars d hd).resolve_left hback)

/-- What is dropped in front of the directories does not show. -/
theorem friendly_kept_dir (m : List UInt8) {base : List UInt8} (hhead : base.head? ≠ some slash) :
    Friendly o slash (kept_dir o m ++ base) ↔ Friendly o slash
      ((m.map fun p => if p = backslash then slash else p) ++ slash :: base) := by
  have hdrop : base.dropWhile (· = slash) = base := by
    cases base with
    | nil => rfl
    | cons c base =>
      have hc : ¬ c = slash := fun hc => hhead (by rw [hc, List.head?_cons])
      exact List.dropWhile_cons_of_neg (by simpa using hc)
  unfold kept_dir windows_dir
  rw [List.append_cons _ slash base]
  generalize (m.map fun p => if p = backslash then slash else p) ++ [slash] = dir
  by_cases habs : o.absolute_paths = true
  · rw [if_pos habs]
  · have hkept : dir.dropWhile (· = slash) ++ base = (dir ++ base).dropWhile (· = slash) := by
      rw [List.dropWhile_append, hdrop]
      split_ifs with hnil
      · rw [List.isEmpty_iff.mp hnil, List.nil_append]
      · rfl
    rw [if_neg habs, hkept]
    exact friendly_dropWhile _

theorem dir_part_eq {m b : List UInt8}
    (hidx : rindex (m ++ backslash :: b) backslash = some m.length) :
    dir_part (m ++ backslash :: b) = m := by
  rw [dir_part, hidx, Option.getD_some, List.take_left]

/-- **Friendly paths.** Under `--unix-paths` the path of a name is friendly exactly when the
name is not taken for a Windows path, or what stands in front of its last backslash is. -/
theorem munge_fname_friendly (o : Options) {fname p : List UInt8}
    (h : munge_fname o (some fname) = .ok (some p)) : Friendly o slash p
      ↔ (o.paths = true → could_be_a_windows_path fname = true →
          Friendly o backslash (dir_part fname)) := by
  have hne : fname ≠ [] := by
    rintro rfl
    cases h
  obtain ⟨hp, -⟩ := munge_fname_eq_ok hne h
  cases hp
  by_cases hwin : o.paths = true ∧ could_be_a_windows_path fname = true
  · obtain ⟨hpaths, hwin⟩ := hwin
    obtain ⟨m, b, rfl, -, hb, hslash, hidx⟩ := windows_path_split hwin
    have hbase := relative_of_no_slash (sanitize_ne_nil (o := o) hb) (slash_not_mem_sanitize o b)
    have hm : slash ∉ m := fun hmem => hslash (List.mem_append_left _ hmem)
    -- the directories are only turned round, so they decide; the name behind them is escaped
    rw [munged_eq hpaths hwin hidx, friendly_kept_dir m hbase.head,
      friendly_separated (Or.inl rfl), friendly_flip hm, and_iff_left (friendly_encode slash b),
      dir_part_eq hidx]
    exact ⟨fun hm _ _ => hm, fun hm => hm hpaths hwin⟩
  · have hmunged : munged o fname = fname.flatMap (sanitize_char o) := by
      rw [munged, split_fname_plain hwin]
      rfl
    rw [hmunged]
    exact iff_of_true (friendly_encode slash fname) fun hpaths hpath => absurd ⟨hpaths, hpath⟩ hwin

theorem munge_fname_friendly_witness :
    Friendly { paths := true, unix_paths := true } slash (ascii "docs/a%20b")
      ↔ (true = true → could_be_a_windows_path (ascii "docs\\a b") = true →
          Friendly { paths := true, unix_paths := true } backslash (dir_part (ascii "docs\\a b"))) :=
  @munge_fname_friendly { paths := true, unix_paths := true } (ascii "docs\\a b") _
    (by decide +kernel)

/-- With `--use-paths`, a space in a directory stays. -/
theorem munge_fname_unfriendly :
    ¬ ∀ (o : Options) (fname p : List UInt8), o.unix_paths = true →
      munge_fname o (some fname) = .ok (some p) → Friendly o slash p := by
  intro h
  have hmunge : munge_fname { paths := true, unix_paths := true } (some (ascii "my dir\\x"))
      = .ok (some (ascii "my dir/x")) := by decide +kernel
  have hspace := (h _ _ _ rfl hmunge).chars 0x20 (by decide +kernel)
  exact absurd hspace (by decide +kernel)

end Tnef
