/-
The numbers under `--number-backups`, over a whole run.

A record goes to the path of its name if nothing is there, and else to the least number that
is free. So the records of one name fill what gaps there are in their order, and the disk at
the end of a run can be read off the disk at its start and the records (`parse_file_backups`).
-/
import Tnef.Lib.Slots
import Tnef.Records

set_option autoImplicit false

namespace Tnef

open ExceptRules Stateful Search Slots

/-- `p`, `p.1`, `p.2` and so on. -/
def place (p : List UInt8) : ℕ → List UInt8
  | 0 => p
  | n + 1 => numbered p (n + 1)

/-- The block for a numbered path is granted. -/
def Numbers (o : Options) (p : List UInt8) : Prop :=
  p.length + 7 < 2 ^ 64 ∧ o.Admits (p.length + 7)

/-- What goes where: the paths of the records that have one, with their contents. -/
def deliveries (o : Options) (directory : Option (List UInt8)) (files : List File) :
    List (List UInt8 × List UInt8) :=
  files.filterMap fun file => (file_path o directory file).toOption.map fun r => (r.2, file.contents)

section Place

variable {o : Options} {w : World} {path : List UInt8}

theorem not_taken_iff {n : ℕ} : ¬ Taken (file_exists w) path (n + 1) ↔ w.files (place path (n + 1)) = none := by
  rw [Taken, Bool.not_eq_true, file_exists_false]
  rfl

/-- **The path that is found** is the first place that is free. -/
theorem free_path_place (hover : o.overwrite = false) (hnumbered : o.numbered = true)
    (hgrant : Numbers o path) {q : List UInt8} : free_path o w path = .ok (some q)
      ↔ ∃ n < 10 ^ 5, q = place path n ∧ w.files (place path n) = none
        ∧ ∀ m < n, w.files (place path m) ≠ none := by
  unfold free_path
  simp only [hover, hnumbered, Bool.false_eq_true, not_false_eq_true, true_and, not_true_eq_false,
    if_false]
  by_cases hexists : file_exists w path = true
  · have htaken : w.files (place path 0) ≠ none := fun h => by
      rw [place] at h
      rw [file_exists, h] at hexists
      exact Bool.false_ne_true hexists
    rw [if_pos hexists]
    simp only [bind_eq_ok, pure_eq_ok, Except.ok.injEq, Option.some.injEq, find_free_number_eq_ok,
      found_iff_isLeast]
    constructor
    · rintro ⟨p, ⟨-, n, ⟨⟨⟨hle, hfree⟩, hleast⟩, hlt⟩, rfl⟩, rfl⟩
      obtain ⟨n, rfl⟩ := Nat.exists_eq_add_of_le' hle
      refine ⟨n + 1, hlt, rfl, ?_, ?_⟩
      · exact not_taken_iff.mp hfree
      · intro m hm hnone
        cases m with
        | zero => exact htaken hnone
        | succ m => exact absurd (hleast ⟨Nat.succ_pos m, not_taken_iff.mpr hnone⟩) (not_le.mpr hm)
    · rintro ⟨n, hlt, rfl, hfree, hleast⟩
      cases n with
      | zero => exact absurd hfree htaken
      | succ n =>
        refine ⟨_, ⟨hgrant, n + 1, ⟨⟨⟨Nat.succ_pos n, not_taken_iff.mpr hfree⟩, ?_⟩, hlt⟩, rfl⟩, rfl⟩
        rintro m ⟨hm, hmfree⟩
        obtain ⟨m, rfl⟩ := Nat.exists_eq_add_of_le' hm
        by_contra hlt'
        exact hleast (m + 1) (not_le.mp hlt') (not_taken_iff.mp hmfree)
  · rw [if_neg hexists]
    have hfree : w.files path = none := file_exists_false.mp (by simpa using hexists)
    rw [Except.ok.injEq, Option.some.injEq]
    constructor
    · rintro rfl
      exact ⟨0, by norm_num, rfl, hfree, fun m hm => absurd hm (Nat.not_lt_zero m)⟩
    · rintro ⟨n, -, rfl, -, hleast⟩
      cases n with
      | zero => rfl
      | succ n => exact absurd hfree (hleast 0 (Nat.succ_pos n))

end Place

section Run

variable {o : Options} (hover : o.overwrite = false) (hnumbered : o.numbered = true)
  (hlist : o.list = false) (hconfirm : o.confirm = false) (directory : Option (List UInt8))

theorem deliveries_snoc (files : List File) (file : File) :
    deliveries o directory (files ++ [file]) = deliveries o directory files
      ++ ((file_path o directory file).toOption.map fun r => (r.2, file.contents)).toList := by
  cases h : (file_path o directory file).toOption with
  | none => simp [deliveries, h]
  | some r => simp [deliveries, h]

include hover hnumbered hlist hconfirm in
/-- One call puts its record in the first place that is free. -/
theorem call_puts {file file' : File} {path : List UInt8} (hready : Ready o file)
    (hpath : file_path o directory file = .ok (file', path)) (hgrant : Numbers o path) {w : World}
    (hwritable : ∀ p, w.unwritable p = false) :
    Put place (10 ^ 5) w.files (path, file.contents) (call o directory w file).files := by
  have hunasked : o.unasked = o := by
    cases o
    cases hconfirm
    rfl
  have hfiles := call_unasked hlist directory hready hpath w
  rw [hunasked] at hfiles
  rw [hfiles]
  have hplace := fun q => @free_path_place o w path hover hnumbered hgrant q
  unfold written_files
  split
  · next p hfree =>
    obtain ⟨n, hn, rfl, hnone, hleast⟩ := (hplace p).mp hfree
    rw [if_neg (by rw [hwritable]; exact Bool.false_ne_true)]
    exact .slot (x := (path, file.contents)) n hn hnone hleast
  · next hno =>
    refine .full fun n => ?_
    -- a free place below the bound would have been found
    induction n using Nat.strong_induction_on with
    | _ n ih =>
      intro hn hnone
      exact hno (place path n) ((hplace _).mpr ⟨n, hn, rfl, hnone, fun m hm => ih m hm (hm.trans hn)⟩)

include hover hnumbered hlist hconfirm in
theorem after_calls_fill {w : World} (hwritable : ∀ p, w.unwritable p = false) (files : List File) :
    (∀ file ∈ files, Ready o file) → (∀ x ∈ deliveries o directory files, Numbers o x.1) →
    Fill place (10 ^ 5) w.files (deliveries o directory files) (after_calls o directory w files).files := by
  induction files using List.reverseRecOn with
  | nil => exact fun _ _ => .nil
  | append_singleton files file ih =>
    intro hready hgrant
    rw [deliveries_snoc] at hgrant ⊢
    have hbefore := ih (fun f hf => hready f (List.mem_append_left _ hf))
      fun x hx => hgrant x (List.mem_append_left _ hx)
    have hfile := hready file (List.mem_append_right _ (List.mem_singleton_self file))
    rw [after_calls_append]
    have hstill : ∀ p, (after_calls o directory w files).unwritable p = false := by
      rw [after_calls_unwritable]
      exact hwritable
    cases hpath : file_path o directory file with
    | error e =>
      rw [show after_calls o directory (after_calls o directory w files) [file]
          = call o directory (after_calls o directory w files) file from rfl,
        call_without_path o directory hpath]
      show Fill _ _ _ (_ ++ []) _
      rw [List.append_nil]
      exact hbefore
    | ok r =>
      obtain ⟨file', path⟩ := r
      rw [hpath] at hgrant
      have hone := call_puts hover hnumbered hlist hconfirm directory hfile hpath
        (hgrant (path, file.contents) (List.mem_append_right _ (List.mem_singleton_self _))) hstill
      exact hbefore.snoc hone

include hover hnumbered hlist hconfirm in
/-- **The backups of a run**, over a disk where every path can be written. Let the blocks for
numbered paths be granted, and no path be a numbered version of another. Then the places of
a name that were free and have at most five digits hold, in order, the data of the records
of that name, in theirs: the one whose rank is the number of free places below. What was
there is kept, and nothing comes anywhere else. -/
theorem parse_file_backups (body_filename body_pref : List UInt8) (inp : Input) {w : World}
    (hwritable : ∀ p, w.unwritable p = false) :
    ∃ files, (exec (parse_file o directory body_filename body_pref inp) w).2.calls = w.calls ++ files
      ∧ ((∀ x ∈ deliveries o directory files, Numbers o x.1) →
        (Apart place {p | ∃ x ∈ deliveries o directory files, x.1 = p} →
          ∀ x ∈ deliveries o directory files, ∀ n < 10 ^ 5, w.files (place x.1 n) = none →
            (exec (parse_file o directory body_filename body_pref inp) w).2.files (place x.1 n)
              = (itemsOf x.1 (deliveries o directory files))[gaps place w.files x.1 n]?)
        ∧ ∀ q, (w.files q ≠ none ∨ ∀ x ∈ deliveries o directory files, ∀ n < 10 ^ 5, q ≠ place x.1 n) →
          (exec (parse_file o directory body_filename body_pref inp) w).2.files q = w.files q) := by
  obtain ⟨files, hready, hcalls, hfiles⟩ := parse_file_calls directory body_filename body_pref inp w
  refine ⟨files, hcalls, fun hgrant => ?_⟩
  have hfill := after_calls_fill hover hnumbered hlist hconfirm directory hwritable files hready hgrant
  rw [← hfiles] at hfill
  refine ⟨fun hapart x hx n hn hfree => ?_, fun q hq => hfill.kept hq⟩
  exact hfill.slots hapart (fun y hy => ⟨y, hy, rfl⟩) ⟨x, hx, rfl⟩ hn hfree

end Run

/-- The disk on which `a` is taken. -/
theorem parse_file_backups_witness :
    let o : Options := { numbered := true }
    let inp : Input := { rest := stream 0 one_attachment }
    let w : World := { files := fun p => if p = ascii "a" then some [1] else none }
    ∃ files, (exec (parse_file o none [] [] inp) w).2.calls = [] ++ files
      ∧ ((∀ x ∈ deliveries o none files, Numbers o x.1) →
        (Apart place {p | ∃ x ∈ deliveries o none files, x.1 = p} →
          ∀ x ∈ deliveries o none files, ∀ n < 10 ^ 5, w.files (place x.1 n) = none →
            (exec (parse_file o none [] [] inp) w).2.files (place x.1 n)
              = (itemsOf x.1 (deliveries o none files))[gaps place w.files x.1 n]?)
        ∧ ∀ q, (w.files q ≠ none ∨ ∀ x ∈ deliveries o none files, ∀ n < 10 ^ 5, q ≠ place x.1 n) →
          (exec (parse_file o none [] [] inp) w).2.files q = w.files q) :=
  parse_file_backups rfl rfl rfl rfl none [] [] _ fun _ => rfl

end Tnef
