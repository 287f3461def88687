/-
Where a run writes.

Without `--allow-absolute-paths` every path a run changes lies in the extraction directory:
it is the directory followed by a relative path, the one the name of a record leads to or a
numbered version of it; paths are told apart as strings. Unless `--use-paths` lets a name
bring its own directories along, that path is a single component; with it, the path climbs
only where the name does (`main_confined`).
-/
import Tnef.CommandLine
import Tnef.NoClobber
import Tnef.PathSafe

set_option autoImplicit false

namespace Tnef

open ExceptRules PathWalk Search Stateful

/-! ## Numbers behind a path -/

/-- The bytes of a numeral are digits. -/
theorem repr_isdigit {n : ℕ} {c : UInt8} (h : c ∈ ascii n.repr) : isdigit c = true := by
  rw [ascii, List.mem_map, Nat.toList_repr] at h
  obtain ⟨digit, hmem, rfl⟩ := h
  have hdigit := Char.isDigit_iff_toNat.mp (Nat.isDigit_of_mem_toDigits (by decide) le_rfl hmem)
  have hlt : digit.toNat < 256 := lt_of_le_of_lt hdigit.2 (by decide)
  refine decide_eq_true ⟨UInt8.le_iff_toNat_le.mpr ?_, UInt8.le_iff_toNat_le.mpr ?_⟩
  · rw [UInt8.toNat_ofNat_of_lt' hlt]
    exact hdigit.1
  · rw [UInt8.toNat_ofNat_of_lt' hlt]
    exact hdigit.2

/-- What `find_free_number` appends stays in the directory. -/
theorem slash_not_mem_number (n : ℕ) : slash ∉ dot :: ascii n.repr := by
  intro hmem
  rcases List.mem_cons.mp hmem with hdot | hdigit
  · exact absurd hdot (by decide)
  · exact absurd (repr_isdigit hdigit) (by decide)

/-- A component with a number behind it does not lead up. -/
theorem number_ne_up (c : List UInt8) (n : ℕ) : c ++ dot :: ascii n.repr ≠ [dot, dot] := by
  intro h
  have hne : ascii n.repr ≠ [] := by
    intro hnil
    have hlen := congrArg List.length hnil
    rw [ascii_length, List.length_nil] at hlen
    have hrepr := Nat.length_repr_pos (n := n)
    omega
  have hlast : (ascii n.repr).getLast hne = dot := by
    have hopt : (c ++ dot :: ascii n.repr).getLast? = some ((ascii n.repr).getLast hne) := by
      rw [List.getLast?_append_of_ne_nil _ (by simp), List.getLast?_cons_of_ne_nil hne,
        List.getLast?_eq_getLast_of_ne_nil hne]
    rw [h] at hopt
    exact (Option.some.inj hopt).symm
  have hdigit := repr_isdigit (List.getLast_mem hne)
  rw [hlast] at hdigit
  exact absurd hdigit (by decide)

theorem under_append (directory : Option (List UInt8)) (p s : List UInt8) :
    under directory (p ++ s) = under directory p ++ s := by
  unfold under
  split
  · rfl
  · split_ifs
    · rw [List.append_assoc]
    · rw [List.append_assoc, List.cons_append]

/-! ## One call -/

/-- The name a record goes by. -/
def File.title (file : File) : List UInt8 := (file.name.getD (strdup TNEF_DEFAULT_FILENAME)).text

/-- The path a name leads to, or, under `--number-backups`, a numbered version of it. -/
def LeadsTo (o : Options) (name q : List UInt8) : Prop :=
  q = relative_path o name ∨ o.numbered = true ∧ ∃ n, q = numbered (relative_path o name) n

/-- What a path below the directory looks like that a record called `name` may change. -/
structure Confined (o : Options) (name q : List UInt8) : Prop where
  named : LeadsTo o name q
  ne_nil : q ≠ []
  relative : q.head? ≠ some slash
  single : o.paths = false → slash ∉ q
  below : q = [dot, dot] ∨ StaysBelow dot slash q
    ∨ o.paths = true ∧ could_be_a_windows_path name = true ∧ ¬ StaysBelow dot backslash name

section Confined

variable {o : Options}

theorem confined_relative_path (habs : o.absolute_paths = false) (name : List UInt8) :
    Confined o name (relative_path o name) := by
  obtain ⟨hrel, hbelow⟩ := relative_path_below habs name
  by_cases hwin : o.paths = true ∧ could_be_a_windows_path name = true
  · rw [if_pos hwin] at hbelow
    refine ⟨.inl rfl, hrel.ne_nil, hrel.head, fun hpaths => absurd hwin.1 (by simp [hpaths]), ?_⟩
    by_cases hstays : StaysBelow dot backslash name
    · exact .inr (.inl (hbelow.mpr hstays))
    · exact .inr (.inr ⟨hwin.1, hwin.2, hstays⟩)
  · rw [if_neg hwin] at hbelow
    refine ⟨.inl rfl, hrel.ne_nil, hrel.head, fun _ => hbelow.1, ?_⟩
    by_cases hup : relative_path o name = [dot, dot]
    · exact .inl hup
    · exact .inr (.inl (hbelow.2 hup))

/-- A number behind the path leads nowhere else. -/
theorem Confined.with_number (hnumbered : o.numbered = true) {name : List UInt8}
    (h : Confined o name (relative_path o name)) (n : ℕ) :
    Confined o name (numbered (relative_path o name) n) := by
  have hnamed : LeadsTo o name (numbered (relative_path o name) n) := .inr ⟨hnumbered, n, rfl⟩
  generalize relative_path o name = q at h hnamed
  obtain ⟨c, q, rfl⟩ := List.exists_cons_of_ne_nil h.ne_nil
  refine ⟨hnamed, List.cons_ne_nil _ _, h.relative, ?_, ?_⟩
  · intro hpaths hmem
    rcases List.mem_append.mp hmem with hslash | hslash
    · exact h.single hpaths hslash
    · exact slash_not_mem_number n hslash
  · rcases h.below with hup | hstays | hclimbs
    · rw [hup]
      -- "..", with a number behind it, is a name like any other
      have hno : slash ∉ numbered [dot, dot] n := by
        intro hmem
        rcases List.mem_append.mp hmem with hslash | hslash
        · exact absurd hslash (by decide)
        · exact slash_not_mem_number n hslash
      refine .inr (.inl ?_)
      rw [StaysBelow, moves_of_not_mem hno, below_singleton]
      exact move_ne_up (number_ne_up [dot, dot] n)
    · exact .inr (.inl (staysBelow_append (slash_not_mem_number n) (number_ne_up · n) hstays))
    · exact .inr (.inr hclimbs)

/-- **The path of a record** is its relative path under the directory. -/
theorem file_path_under (habs : o.absolute_paths = false) {directory : Option (List UInt8)}
    {file file' : File} {path : List UInt8} (hfresh : file.path = none)
    (h : file_path o directory file = .ok (file', path)) :
    path = under directory (relative_path o file.title) := by
  unfold file_path at h
  rw [hfresh] at h
  simp only [bind_eq_ok, c_str_eq_ok_iff, pure_eq_ok, Except.ok.injEq, Prod.mk.injEq] at h
  obtain ⟨_, ⟨-, rfl⟩, fpath, hmunge, _, rfl, r, hconcat, -, rfl⟩ := h
  obtain ⟨hrel, -⟩ := relative_path_below habs file.title
  obtain ⟨hr, hkept⟩ := munge_fname_relative hmunge
  rw [hr] at hconcat
  obtain ⟨rfl, -⟩ := concat_fname_eq_ok hrel.ne_nil hrel.head hrel.last hkept hconcat
  rfl

/-- A path that is free is the one asked for, with a number behind it or not. -/
theorem free_path_shape {w : World} {path p : List UInt8}
    (h : free_path o w path = .ok (some p)) :
    p = path ∨ o.numbered = true ∧ ∃ n, p = numbered path n := by
  unfold free_path at h
  split_ifs at h with htaken hnumbered
  · simp only [bind_eq_ok, pure_eq_ok, Except.ok.injEq, Option.some.injEq] at h
    obtain ⟨_, hnumber, rfl⟩ := h
    obtain ⟨-, n, -, rfl⟩ := find_free_number_eq_ok.mp hnumber
    exact .inr ⟨hnumbered, n, rfl⟩
  · cases h
  · cases h
    exact .inl rfl

/-- **Where a call may write**: at one path, below the directory. -/
theorem goesTo_confined (habs : o.absolute_paths = false) {directory : Option (List UInt8)}
    {w : World} {file : File} {p : List UInt8} (hfresh : file.path = none)
    (h : GoesTo o directory w file p) : ∃ q, p = under directory q ∧ Confined o file.title q := by
  obtain ⟨file', path, hpath, hfree⟩ := h.path
  have hunder := file_path_under habs hfresh hpath
  have hconfined := confined_relative_path habs file.title
  rcases free_path_shape hfree with rfl | ⟨hnumbered, n, rfl⟩
  · exact ⟨_, hunder, hconfined⟩
  · refine ⟨numbered (relative_path o file.title) n, ?_, hconfined.with_number hnumbered n⟩
    rw [hunder, numbered, numbered, under_append]

end Confined

/-! ## A run -/

/-- Whatever is at `p` in the end was there before, or is the data of one of the records, at
a path that this record's name leads to. -/
def Accounted (o : Options) (directory : Option (List UInt8)) (files : List File) (w w' : World)
    (p : List UInt8) : Prop :=
  w'.files p = w.files p
    ∨ ∃ file ∈ files, w'.files p = some file.contents
      ∧ ∃ q, p = under directory q ∧ Confined o file.title q

/-- The last call that wrote to a path accounts for it. -/
theorem after_calls_accounted {o : Options} (habs : o.absolute_paths = false)
    (directory : Option (List UInt8)) (w : World) (files : List File)
    (hready : ∀ file ∈ files, Ready o file) (p : List UInt8) :
    Accounted o directory files w (after_calls o directory w files) p := by
  induction files using List.reverseRecOn with
  | nil => exact .inl rfl
  | append_singleton files file ih =>
    have hbefore := ih fun f hf => hready f (List.mem_append_left _ hf)
    have hmem : file ∈ files ++ [file] := List.mem_append_right _ (List.mem_singleton_self _)
    have hstep : after_calls o directory w (files ++ [file])
        = call o directory (after_calls o directory w files) file := after_calls_append directory w files [file]
    have hkept : Accounted o directory (files ++ [file]) w (after_calls o directory w files) p := by
      rcases hbefore with hsame | ⟨f, hf, hplace⟩
      · exact .inl hsame
      · exact .inr ⟨f, List.mem_append_left _ hf, hplace⟩
    rw [hstep]
    unfold Accounted at hkept ⊢
    rcases call_files o directory (hready file hmem).fresh (after_calls o directory w files)
      with hsame | ⟨p', hgoes, hfiles⟩
    · rw [hsame]
      exact hkept
    · rw [hfiles]
      by_cases hp : p = p'
      · subst hp
        rw [Function.update_self]
        exact .inr ⟨file, hmem, rfl, goesTo_confined habs (hready file hmem).fresh hgoes⟩
      · rw [Function.update_of_ne hp]
        exact hkept

/-- A run changes what its calls change. -/
theorem parse_file_accounted {o : Options} (habs : o.absolute_paths = false)
    (directory : Option (List UInt8)) (body_filename body_pref : List UInt8) (inp : Input)
    (w : World) :
    ∃ files, (exec (parse_file o directory body_filename body_pref inp) w).2.calls = w.calls ++ files
      ∧ ∀ p, Accounted o directory files w
        (exec (parse_file o directory body_filename body_pref inp) w).2 p := by
  obtain ⟨files, hready, hcalls, hfiles⟩ := parse_file_calls directory body_filename body_pref inp w
  refine ⟨files, hcalls, ?_⟩
  intro p
  have hplaces := after_calls_accounted habs directory w files hready p
  unfold Accounted at hplaces ⊢
  rw [hfiles]
  exact hplaces

end Tnef
