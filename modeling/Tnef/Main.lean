/-
`main.c` and `options.c`: the command line.

`getopt_long` belongs to the C library: the model starts from what its calls return, one
`Getopt` for each, and from the operands behind the options. The flag word is the `Options`
record; the texts of `--help` and `--version`, of which nothing is read again, are left
out. `strtoul` is that of a machine where `unsigned long` and `size_t` have 64 bits.
-/
import Mathlib.Data.List.TakeWhile
import Tnef.Parse

set_option autoImplicit false

namespace Tnef

open ExceptRules Stateful

/-! ## Numerals -/

def isspace (c : UInt8) : Bool := c = 0x20 ∨ (0x09 ≤ c ∧ c ≤ 0x0d)

def isdigit (c : UInt8) : Bool := 0x30 ≤ c ∧ c ≤ 0x39

def tolower (c : UInt8) : UInt8 := if 0x41 ≤ c ∧ c ≤ 0x5a then c + 0x20 else c

/-- The number the digits `ds` write. -/
def decimal (ds : List UInt8) : ℕ := ds.foldl (fun n c => 10 * n + (c.toNat - 0x30)) 0

/-- Whether there is a minus sign, and what follows the sign. -/
def strtoul_sign : List UInt8 → Bool × List UInt8
  | 0x2d :: s => (true, s)
  | 0x2b :: s => (false, s)
  | s => (false, s)

/-- `strtoul (s, &end_ptr, 10)`: the value, and the string `end_ptr` points to. A minus
sign negates in `unsigned long`; too large a number gives ULONG_MAX whatever its sign. -/
def strtoul (s : List UInt8) : ℕ × List UInt8 :=
  let (negative, t) := strtoul_sign (s.dropWhile isspace)
  let ds := t.takeWhile isdigit
  -- without a digit nothing is taken, not even the blanks
  if ds = [] then (0, s)
  else if 2 ^ 64 ≤ decimal ds then (2 ^ 64 - 1, t.dropWhile isdigit)
  else if negative then ((2 ^ 64 - decimal ds) % 2 ^ 64, t.dropWhile isdigit)
  else (decimal ds, t.dropWhile isdigit)

/-! ## The command line -/

/-- What a call of `getopt_long` returns: a short option and its long form are one. -/
inductive Getopt
  | debug
  | use_paths
  | unix_paths
  | allow_absolute_paths
  | overwrite
  | number_backups
  | save_body (optarg : Option (List UInt8))
  | body_pref (optarg : List UInt8)
  | list_with_mime_types
  | ignore_encode
  | ignore_cruft
  /-- `'V'` -/
  | version
  /-- `'v'` -/
  | verbose
  /-- `'f'` -/
  | file (optarg : List UInt8)
  /-- `'C'` -/
  | directory (optarg : List UInt8)
  /-- `'x'` -/
  | maxsize (optarg : List UInt8)
  /-- `'h'` -/
  | help
  /-- `'t'` -/
  | list
  /-- `'w'` -/
  | interactive
  /-- `'K'` -/
  | ignore_checksum
  /-- `'?'` -/
  | unknown
  deriving DecidableEq, Repr

/-- The variables of `main` that `parse_cmdline` writes. -/
structure Cmdline where
  in_file : Option (List UInt8) := none
  out_dir : Option (List UInt8) := none
  body_file : Option (List UInt8) := none
  body_pref : List UInt8 := ascii "rht"
  max_size : ℕ := 0
  flags : Options := {}
  deriving DecidableEq, Repr

/-- The characters `--body-pref` may contain. -/
abbrev body_types : List UInt8 := ascii "rht"

def validate_body_pref (optarg : List UInt8) : M (List UInt8) :=
  if optarg.length = 0 ∨ optarg.length > 3 then .error .abort
  else if optarg.map tolower ≠ ascii "all" ∧ ∃ c ∈ optarg.map tolower, c ∉ body_types then
    .error .abort
  else .ok (optarg.map tolower)

/-- The case `'x'`. -/
def maxsize_option (c : Cmdline) (optarg : List UInt8) : M Cmdline :=
  let (max_size, end_ptr) := strtoul optarg
  if end_ptr ≠ [] then .error (.exit (-1))
  -- the test for a sign looks at the low 32 bits
  else if 0 > toInt max_size then .ok { c with max_size := 0 }
  else .ok { c with max_size := max_size }

/-- One turn of the loop of `parse_cmdline`. -/
def cmdline_option (c : Cmdline) : Getopt → M Cmdline
  | .debug => .ok { c with flags := { c.flags with dbg_out := true } }
  | .use_paths => .ok { c with flags := { c.flags with paths := true } }
  | .unix_paths => .ok { c with flags := { c.flags with unix_paths := true } }
  | .allow_absolute_paths => .ok { c with flags := { c.flags with absolute_paths := true } }
  | .overwrite => .ok { c with flags := { c.flags with overwrite := true } }
  | .number_backups => .ok { c with flags := { c.flags with numbered := true } }
  | .save_body optarg => .ok { c with
      flags := { c.flags with savebody := true }
      body_file := some (optarg.getD (ascii "message")) }
  | .body_pref optarg => do return { c with body_pref := ← validate_body_pref optarg }
  | .list_with_mime_types => .ok { c with flags := { c.flags with list := true, listmime := true } }
  | .ignore_encode => .ok { c with flags := { c.flags with encode_ok := true } }
  | .ignore_cruft => .ok { c with flags := { c.flags with cruft_ok := true } }
  | .version => .error (.exit 0)
  | .verbose => .ok { c with flags := { c.flags with verbose := true, listmime := true } }
  | .file optarg => .ok { c with in_file := if optarg = ascii "-" then none else some optarg }
  | .directory optarg => .ok { c with out_dir := some optarg }
  | .maxsize optarg => maxsize_option c optarg
  | .help => .error (.exit 0)
  | .list => .ok { c with flags := { c.flags with list := true } }
  | .interactive => .ok { c with flags := { c.flags with confirm := true } }
  | .ignore_checksum => .ok { c with flags := { c.flags with checksum_ok := true } }
  | .unknown => .error (.exit 1)

/-- Operands behind the first are reported and not used. -/
def parse_cmdline (opts : List Getopt) (operands : List (List UInt8)) : M Cmdline := do
  let c ← opts.foldlM cmdline_option {}
  return { c with in_file := operands.head?.or c.in_file }

/-- `set_alloc_limit (max_size)`. -/
def Cmdline.options (c : Cmdline) : Options := { c.flags with alloc_limit := c.max_size }

/-! ## `main` -/

/-- `input` is what opening a file for reading finds, and `piped` what standard input
holds. -/
def main (input : List UInt8 → Option (List UInt8)) (piped : List UInt8)
    (opts : List Getopt) (operands : List (List UInt8)) : Run ℕ := do
  let c ← lift (parse_cmdline opts operands)
  match c.in_file with
  | some in_file =>
    match input in_file with
    | none => throw (.exit 1)
    | some bytes =>
      parse_file c.options c.out_dir (c.body_file.getD []) c.body_pref { rest := bytes }
  | none =>
    if c.flags.confirm then throw (.exit 1)
    else
      parse_file c.options c.out_dir (c.body_file.getD []) c.body_pref
        { rest := piped, is_stdin := true }

/-! ## The preference -/

/-- What `validate_body_pref` lets through: `all`, or one to three of the letters. -/
def BodyPref (pref : List UInt8) : Prop :=
  pref = ascii "all" ∨ ((0 < pref.length ∧ pref.length ≤ 3) ∧ ∀ c ∈ pref, c ∈ body_types)

theorem validate_body_pref_ok {optarg pref : List UInt8}
    (h : validate_body_pref optarg = .ok pref) : BodyPref pref := by
  unfold validate_body_pref at h
  split_ifs at h with hlen hchars
  cases h
  by_cases hall : optarg.map tolower = ascii "all"
  · exact .inl hall
  · refine .inr ⟨?_, ?_⟩
    · rw [List.length_map]
      omega
    · intro c hc
      by_contra hout
      exact hchars ⟨hall, c, hc, hout⟩

/-- The default is one of the settings the option itself accepts. -/
theorem default_body_pref : BodyPref ({} : Cmdline).body_pref := by
  refine .inr ⟨?_, fun c hc => hc⟩
  decide

/-- What one option does to the preference and to the size: it writes one of them, or it
leaves both alone. -/
theorem cmdline_option_step {c c' : Cmdline} {opt : Getopt} (h : cmdline_option c opt = .ok c') :
    (∃ s, opt = .maxsize s ∧ maxsize_option c s = .ok c')
      ∨ (∃ s pref, opt = .body_pref s ∧ validate_body_pref s = .ok pref
        ∧ c' = { c with body_pref := pref })
      ∨ (c'.body_pref = c.body_pref ∧ c'.max_size = c.max_size) := by
  cases opt with
  | maxsize s => exact .inl ⟨s, rfl, h⟩
  | body_pref s =>
    simp only [cmdline_option, bind_eq_ok, pure_eq_ok, Except.ok.injEq] at h
    obtain ⟨pref, hpref, rfl⟩ := h
    exact .inr (.inl ⟨s, pref, rfl, hpref, rfl⟩)
  | version => cases h
  | help => cases h
  | unknown => cases h
  | _ =>
    cases h
    exact .inr (.inr ⟨rfl, rfl⟩)

theorem maxsize_option_ok {c c' : Cmdline} {s : List UInt8} (h : maxsize_option c s = .ok c') :
    (strtoul s).2 = []
      ∧ c' = { c with max_size := if 0 > toInt (strtoul s).1 then 0 else (strtoul s).1 } := by
  simp only [maxsize_option] at h
  split_ifs at h with hend hneg
  · cases h
    exact ⟨not_not.mp hend, by rw [if_pos hneg]⟩
  · cases h
    exact ⟨not_not.mp hend, by rw [if_neg hneg]⟩

theorem cmdline_options_body_pref {opts : List Getopt} : ∀ {c c' : Cmdline},
    BodyPref c.body_pref → opts.foldlM cmdline_option c = .ok c' → BodyPref c'.body_pref := by
  induction opts with
  | nil =>
    intro c c' hc h
    cases h
    exact hc
  | cons opt opts ih =>
    intro c c' hc h
    rw [List.foldlM_cons, bind_eq_ok] at h
    obtain ⟨c₁, hopt, h⟩ := h
    refine ih ?_ h
    rcases cmdline_option_step hopt with ⟨s, -, hsize⟩ | ⟨s, pref, -, hpref, rfl⟩ | ⟨hsame, -⟩
    · obtain ⟨-, rfl⟩ := maxsize_option_ok hsize
      exact hc
    · exact validate_body_pref_ok hpref
    · rw [hsame]
      exact hc

/-- Whatever is on the command line, parsing runs with a preference that has been checked. -/
theorem parse_cmdline_body_pref {opts : List Getopt} {operands : List (List UInt8)} {c : Cmdline}
    (h : parse_cmdline opts operands = .ok c) : BodyPref c.body_pref := by
  simp only [parse_cmdline, bind_eq_ok, pure_eq_ok, Except.ok.injEq] at h
  obtain ⟨c₁, hopts, rfl⟩ := h
  have hpref : BodyPref c₁.body_pref := cmdline_options_body_pref default_body_pref hopts
  exact hpref

/-! ## The size limit -/

/-- A string of digits is read to its end, and its value is the number it writes, up to
ULONG_MAX. -/
theorem strtoul_digits {ds : List UInt8} (hne : ds ≠ []) (hds : ∀ c ∈ ds, isdigit c = true) :
    strtoul ds = (if 2 ^ 64 ≤ decimal ds then 2 ^ 64 - 1 else decimal ds, []) := by
  obtain ⟨c, s, rfl⟩ := List.exists_cons_of_ne_nil hne
  have hc : 0x30 ≤ c ∧ c ≤ 0x39 := by simpa [isdigit] using hds c (List.mem_cons_self ..)
  have hlow : 0x30 ≤ c.toNat := UInt8.le_iff_toNat_le.mp hc.1
  -- a digit is neither a blank nor a sign
  have hblank : (c :: s).dropWhile isspace = c :: s := by
    have hspace : isspace c = false := by
      rw [isspace, decide_eq_false_iff_not]
      rintro (rfl | ⟨-, hle⟩)
      · exact absurd hc.1 (by decide)
      · have hhigh : c.toNat ≤ 0x0d := UInt8.le_iff_toNat_le.mp hle
        omega
    rw [List.dropWhile_cons, hspace]
    rfl
  have hsign : strtoul_sign (c :: s) = (false, c :: s) := by
    unfold strtoul_sign
    split
    · next heq =>
      cases heq
      exact absurd hc.1 (by decide)
    · next heq =>
      cases heq
      exact absurd hc.1 (by decide)
    · rfl
  have htake : (c :: s).takeWhile isdigit = c :: s := List.takeWhile_eq_self_iff.mpr hds
  have hdrop : (c :: s).dropWhile isdigit = [] := List.dropWhile_eq_nil_iff.mpr hds
  unfold strtoul
  rw [hblank, hsign]
  simp only [htake, hdrop]
  rw [if_neg hne, if_neg Bool.false_ne_true]
  split_ifs
  · rfl
  · rfl

/-- The sign test sees the low 32 bits: their top one decides. -/
theorem toInt_neg_iff (n : ℕ) : 0 > toInt n ↔ ¬ n % 2 ^ 32 < 2 ^ 31 := by
  unfold toInt
  rw [Int.bmod_def]
  split_ifs <;> omega

theorem cmdline_options_max_size {opts : List Getopt} (hopts : ∀ s, .maxsize s ∉ opts) :
    ∀ {c c' : Cmdline}, opts.foldlM cmdline_option c = .ok c' → c'.max_size = c.max_size := by
  induction opts with
  | nil =>
    intro c c' h
    cases h
    rfl
  | cons opt opts ih =>
    intro c c' h
    rw [List.foldlM_cons, bind_eq_ok] at h
    obtain ⟨c₁, hopt, h⟩ := h
    rw [ih (fun s hs => hopts s (List.mem_cons_of_mem _ hs)) h]
    rcases cmdline_option_step hopt with ⟨s, rfl, -⟩ | ⟨s, pref, -, -, rfl⟩ | ⟨-, hsame⟩
    · exact absurd (List.mem_cons_self ..) (hopts s)
    · rfl
    · exact hsame

/-- The limit in force is `size`: a larger request stops the run, and any other one goes
the way of the allocator without a limit. -/
structure LimitInForce (o : Options) (size : ℕ) : Prop where
  limit : o.alloc_limit = size
  xmalloc_over : ∀ num sz extra, size < num * sz → ∃ e, checked_xmalloc o num sz extra = .error e
  xcalloc_over : ∀ num sz extra, size < num * sz → ∃ e, checked_xcalloc o num sz extra = .error e
  xmalloc_within : ∀ num sz extra, num * sz ≤ size →
    checked_xmalloc o num sz extra = xmalloc num sz extra
  xcalloc_within : ∀ num sz extra, num * sz ≤ size →
    checked_xcalloc o num sz extra = xcalloc num sz extra

theorem limitInForce_iff {o : Options} {size : ℕ} (hpos : 0 < size) :
    LimitInForce o size ↔ o.alloc_limit = size := by
  refine ⟨fun h => h.limit, ?_⟩
  rintro rfl
  have hover : ∀ {n}, o.alloc_limit < n → ¬ o.Admits n := by
    intro n hn
    unfold Options.Admits
    omega
  exact {
    limit := rfl
    xmalloc_over := fun num sz extra h => checked_xmalloc_of_not_admits (hover h) extra
    xcalloc_over := fun num sz extra h => checked_xcalloc_of_not_admits (hover h) extra
    xmalloc_within := fun num sz extra h => checked_xmalloc_of_admits (.inr h) extra
    xcalloc_within := fun num sz extra h => checked_xcalloc_of_admits (.inr h) extra }

/-- **When `--maxsize` takes effect**: with `ds` the numeral of the last `--maxsize`, the
limit is the number it writes exactly when the low 32 bits of that number, read as an
`int`, are not negative; otherwise there is no limit at all. -/
theorem maxsize_in_force {before after : List Getopt} {operands : List (List UInt8)}
    {ds : List UInt8} {c : Cmdline} (hds : ∀ d ∈ ds, isdigit d = true) (hpos : 0 < decimal ds)
    (hlt : decimal ds < 2 ^ 64) (hlast : ∀ s, .maxsize s ∉ after)
    (hparse : parse_cmdline (before ++ .maxsize ds :: after) operands = .ok c) :
    LimitInForce c.options (decimal ds) ↔ decimal ds % 2 ^ 32 < 2 ^ 31 := by
  have hne : ds ≠ [] := by
    rintro rfl
    exact absurd hpos (by decide)
  simp only [parse_cmdline, List.foldlM_append, List.foldlM_cons, bind_eq_ok, pure_eq_ok,
    Except.ok.injEq] at hparse
  obtain ⟨c₃, ⟨c₁, -, c₂, hsize, hafter⟩, rfl⟩ := hparse
  obtain ⟨-, rfl⟩ := maxsize_option_ok hsize
  have hmax : c₃.max_size = if 0 > toInt (decimal ds) then 0 else decimal ds := by
    have hsame := cmdline_options_max_size hlast hafter
    simp only [strtoul_digits hne hds, if_neg (not_le.mpr hlt)] at hsame
    exact hsame
  have hlimit : LimitInForce ({ c₃ with in_file := operands.head?.or c₃.in_file } : Cmdline).options
      (decimal ds) ↔ (if 0 > toInt (decimal ds) then 0 else decimal ds) = decimal ds := by
    rw [limitInForce_iff hpos, ← hmax]
    rfl
  rw [hlimit, ← not_not (a := decimal ds % 2 ^ 32 < 2 ^ 31), ← toInt_neg_iff]
  split_ifs with hneg
  · exact ⟨fun h => absurd h (by omega), fun h => absurd hneg h⟩
  · exact ⟨fun _ => hneg, fun _ => rfl⟩

theorem maxsize_in_force_33 :
    LimitInForce { verbose := true, listmime := true, list := true, alloc_limit := 33 } 33
      ↔ 33 % 2 ^ 32 < 2 ^ 31 := by
  have hparse : parse_cmdline ([.verbose] ++ .maxsize (ascii "33") :: [.list]) []
      = .ok { max_size := 33, flags := { verbose := true, listmime := true, list := true } } := rfl
  exact maxsize_in_force (by decide +kernel) (by decide) (by decide) (by simp) hparse

/-- `--maxsize=2147483648` is taken for a negative number, and nothing is limited. -/
theorem maxsize_not_in_force : ¬ ∀ (ds : List UInt8) (c : Cmdline),
    (∀ d ∈ ds, isdigit d = true) → 0 < decimal ds → decimal ds < 2 ^ 64 →
    parse_cmdline [.maxsize ds] [] = .ok c → LimitInForce c.options (decimal ds) := by
  intro hclaim
  have hforce := hclaim (ascii "2147483648") {} (by decide +kernel) (by decide) (by decide) rfl
  exact absurd hforce.limit (by decide)

end Tnef
