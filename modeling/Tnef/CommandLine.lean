/-
What a command line means.

`parse_cmdline` goes through the options from left to right and changes its variables as it
goes. What comes of it can be said without the order: a flag is set if some option sets it,
and a value is that of the last option that gives one. `parse_cmdline_eq` says so of every
command line that is accepted, and which option it is that stops the others.
-/
import Tnef.Main

set_option autoImplicit false

namespace Tnef

open ExceptRules

/-! ## The options one by one -/

instance (pref : List UInt8) : Decidable (BodyPref pref) := inferInstanceAs (Decidable (_ ∨ _))

/-- How the program ends at an option, where it ends. -/
def Getopt.refusal : Getopt → Option Stop
  | .version => some (.exit 0)
  | .help => some (.exit 0)
  | .unknown => some (.exit 1)
  | .body_pref optarg => if BodyPref (optarg.map tolower) then none else some .abort
  | .maxsize optarg => if (strtoul optarg).2 = [] then none else some (.exit (-1))
  | _ => none

def Getopt.in_file : Getopt → Option (Option (List UInt8))
  | .file optarg => some (if optarg = ascii "-" then none else some optarg)
  | _ => none

def Getopt.out_dir : Getopt → Option (List UInt8)
  | .directory optarg => some optarg
  | _ => none

def Getopt.body_file : Getopt → Option (List UInt8)
  | .save_body optarg => some (optarg.getD (ascii "message"))
  | _ => none

def Getopt.pref : Getopt → Option (List UInt8)
  | .body_pref optarg => some (optarg.map tolower)
  | _ => none

/-- A size whose low 32 bits look negative counts as no limit. -/
def size_limit (n : ℕ) : ℕ := if 0 > toInt n then 0 else n

def Getopt.max_size : Getopt → Option ℕ
  | .maxsize optarg => some (size_limit (strtoul optarg).1)
  | _ => none

/-- What the last option that says something says. -/
def last_of {α : Type} (f : Getopt → Option α) (opts : List Getopt) : Option α :=
  (opts.filterMap f).getLast?

/-- The flags and values the options stand for, wherever they stand. -/
def settings (opts : List Getopt) : Cmdline where
  in_file := (last_of Getopt.in_file opts).getD none
  out_dir := last_of Getopt.out_dir opts
  body_file := last_of Getopt.body_file opts
  body_pref := (last_of Getopt.pref opts).getD (ascii "rht")
  max_size := (last_of Getopt.max_size opts).getD 0
  flags := {
    verbose := .verbose ∈ opts
    dbg_out := .debug ∈ opts
    list := .list ∈ opts ∨ .list_with_mime_types ∈ opts
    paths := .use_paths ∈ opts
    overwrite := .overwrite ∈ opts
    confirm := .interactive ∈ opts
    numbered := .number_backups ∈ opts
    savebody := (last_of Getopt.body_file opts).isSome
    listmime := .verbose ∈ opts ∨ .list_with_mime_types ∈ opts
    checksum_ok := .ignore_checksum ∈ opts
    encode_ok := .ignore_encode ∈ opts
    cruft_ok := .ignore_cruft ∈ opts
    unix_paths := .unix_paths ∈ opts
    absolute_paths := .allow_absolute_paths ∈ opts }

/-! ## One turn of the loop -/

theorem last_of_snoc {α : Type} (f : Getopt → Option α) (opts : List Getopt) (x : Getopt) :
    last_of f (opts ++ [x]) = (f x).or (last_of f opts) := by
  rw [last_of, last_of, List.filterMap_append, List.filterMap_cons, List.filterMap_nil]
  cases f x with
  | none => rw [List.append_nil, Option.none_or]
  | some a => rw [List.getLast?_append, List.getLast?_singleton, Option.some_or]

theorem validate_body_pref_eq (optarg : List UInt8) : validate_body_pref optarg
    = if BodyPref (optarg.map tolower) then .ok (optarg.map tolower) else .error .abort := by
  have hlen : (optarg.map tolower).length = optarg.length := List.length_map _
  unfold validate_body_pref
  by_cases hall : optarg.map tolower = ascii "all"
  · have hthree : optarg.length = 3 := by
      rw [← hlen, hall]
      rfl
    have hpref : BodyPref (optarg.map tolower) := .inl hall
    rw [if_neg (show ¬ (optarg.length = 0 ∨ optarg.length > 3) by omega), if_neg fun h => h.1 hall,
      if_pos hpref]
  · have hpref : BodyPref (optarg.map tolower) ↔ ¬ (optarg.length = 0 ∨ optarg.length > 3)
        ∧ ¬ ∃ c ∈ optarg.map tolower, c ∉ body_types := by
      unfold BodyPref
      rw [hlen]
      push Not
      constructor
      · rintro (h | ⟨hpos, hchars⟩)
        · exact absurd h hall
        · exact ⟨by omega, hchars⟩
      · rintro ⟨hpos, hchars⟩
        exact .inr ⟨by omega, hchars⟩
    by_cases hshort : optarg.length = 0 ∨ optarg.length > 3
    · rw [if_pos hshort, if_neg fun h => (hpref.mp h).1 hshort]
    · by_cases hchars : ∃ c ∈ optarg.map tolower, c ∉ body_types
      · rw [if_neg hshort, if_pos ⟨hall, hchars⟩, if_neg fun h => (hpref.mp h).2 hchars]
      · rw [if_neg hshort, if_neg fun h => hchars h.2, if_pos (hpref.mpr ⟨hshort, hchars⟩)]

theorem maxsize_option_eq (c : Cmdline) (optarg : List UInt8) : maxsize_option c optarg
    = if (strtoul optarg).2 = [] then .ok { c with max_size := size_limit (strtoul optarg).1 }
      else .error (.exit (-1)) := by
  rw [maxsize_option, size_limit]
  simp only
  by_cases hend : (strtoul optarg).2 = []
  · rw [if_neg (not_not.mpr hend), if_pos hend]
    split_ifs
    · rfl
    · rfl
  · rw [if_pos hend, if_neg hend]

theorem settings_maxsize (opts : List Getopt) (optarg : List UInt8) :
    settings (opts ++ [.maxsize optarg])
      = { settings opts with max_size := size_limit (strtoul optarg).1 } := by
  -- the size itself is of no interest here, and `strtoul` better left alone
  have hsize : ∀ n, (Getopt.maxsize optarg).max_size = some n →
      settings (opts ++ [.maxsize optarg]) = { settings opts with max_size := n } := by
    intro n hmax
    simp [settings, last_of_snoc, Getopt.in_file, Getopt.out_dir, Getopt.body_file, Getopt.pref, hmax]
  exact hsize _ rfl

/-- **One turn**: an option that is not refused is one more in the settings. -/
theorem cmdline_option_settings (opts : List Getopt) (x : Getopt) :
    cmdline_option (settings opts) x
      = match x.refusal with
        | none => .ok (settings (opts ++ [x]))
        | some e => .error e := by
  cases x with
  | body_pref optarg =>
    rw [cmdline_option, validate_body_pref_eq]
    simp only [Getopt.refusal]
    split_ifs
    · simp [settings, last_of_snoc, Getopt.in_file, Getopt.out_dir, Getopt.body_file, Getopt.pref,
        Getopt.max_size]
    · rfl
  | maxsize optarg =>
    have hrefusal : (Getopt.maxsize optarg).refusal
        = if (strtoul optarg).2 = [] then none else some (.exit (-1)) := rfl
    rw [cmdline_option, maxsize_option_eq, hrefusal]
    by_cases hend : (strtoul optarg).2 = []
    · rw [if_pos hend, if_pos hend, settings_maxsize]
    · rw [if_neg hend, if_neg hend]
  | version => rfl
  | help => rfl
  | unknown => rfl
  | _ =>
    simp [cmdline_option, Getopt.refusal, settings, last_of_snoc, Getopt.in_file, Getopt.out_dir,
      Getopt.body_file, Getopt.pref, Getopt.max_size]

/-! ## The loop -/

/-- **The loop** comes to the settings, or it stops at the first option that is refused. -/
theorem cmdline_options_settings (opts : List Getopt) : ∀ before : List Getopt,
    opts.foldlM cmdline_option (settings before)
      = match opts.findSome? Getopt.refusal with
        | none => .ok (settings (before ++ opts))
        | some e => .error e := by
  induction opts with
  | nil =>
    intro before
    rw [List.append_nil]
    rfl
  | cons x opts ih =>
    intro before
    rw [List.foldlM_cons, cmdline_option_settings, List.findSome?_cons]
    cases hx : x.refusal with
    | some e => rfl
    | none =>
      rw [ok_bind, ih, List.append_assoc, List.singleton_append]

/-- The first option that is refused stops the program. -/
theorem parse_cmdline_refused {opts : List Getopt} {e : Stop}
    (h : opts.findSome? Getopt.refusal = some e) (operands : List (List UInt8)) :
    parse_cmdline opts operands = .error e := by
  have hloop := cmdline_options_settings opts []
  rw [h] at hloop
  rw [parse_cmdline, show opts.foldlM cmdline_option {} = _ from hloop]
  rfl

theorem parse_cmdline_accepted {opts : List Getopt} (h : opts.findSome? Getopt.refusal = none)
    (operands : List (List UInt8)) : parse_cmdline opts operands
      = .ok { settings opts with in_file := operands.head?.or (settings opts).in_file } := by
  have hloop := cmdline_options_settings opts []
  rw [h] at hloop
  rw [parse_cmdline, show opts.foldlM cmdline_option {} = _ from hloop]
  rfl

/-- **A command line is what its options say**, wherever they stand; one that is refused
stops the program, the first one if there are several. -/
theorem parse_cmdline_eq (opts : List Getopt) (operands : List (List UInt8)) :
    parse_cmdline opts operands
      = match opts.findSome? Getopt.refusal with
        | none => .ok { settings opts with in_file := operands.head?.or (settings opts).in_file }
        | some e => .error e := by
  cases h : opts.findSome? Getopt.refusal with
  | none => exact parse_cmdline_accepted h operands
  | some e => exact parse_cmdline_refused h operands

end Tnef
