/-
A listing as a dry run.

`--list` prints what `--verbose` prints of the files it has written, so a listing foretells
an extraction (as `--verbose` brings the MIME types, the listing is the one of
`--list-with-mime-types`): over a disk where every path can be written, without questions and
with `--overwrite`, the two runs print the same, call `file_write` with the same records and end
the same way, on any input (`parse_file_dry_run`). The listing leaves the disk as it is; the
extraction puts each record at its path, the later one in place of the earlier.
-/
import Tnef.NoClobber
import Tnef.Reading

set_option autoImplicit false

namespace Tnef

open ExceptRules Stateful

/-- With `--list`, and with MIME types or without them. -/
def Options.listing (o : Options) : Options := { o with list := true, verbose := false }

/-- With `--verbose` and `--overwrite` in place of `--list`. -/
def Options.extracting (o : Options) : Options :=
  { o with list := false, verbose := true, overwrite := true }

/-- The files after a record has gone to the path its name makes, whatever was there. -/
def deposit (o : Options) (directory : Option (List UInt8))
    (files : List UInt8 → Option (List UInt8)) (file : File) : List UInt8 → Option (List UInt8) :=
  match file_path o directory file with
  | .ok (_, path) => Function.update files path (some file.contents)
  | .error _ => files

/-- The listing, begun in `w₀`, has come to `w`, and the extraction, begun in `v₀`, to `v`. -/
structure Foretold (o : Options) (directory : Option (List UInt8)) (w₀ v₀ w v : World) : Prop where
  stdout : v.stdout = w.stdout
  calls : v.calls = w.calls
  kept : w.files = w₀.files
  writable : ∀ p, v.unwritable p = false
  written : ∃ files, v.calls = v₀.calls ++ files
    ∧ v.files = files.foldl (deposit o directory) v₀.files

section Call

variable {o : Options} (hconfirm : o.confirm = false) (directory : Option (List UInt8)) {w₀ v₀ : World}

/-- Printing is foretold. -/
theorem Foretold.print {w v : World} (h : Foretold o directory w₀ v₀ w v) (text : List UInt8) :
    Foretold o directory w₀ v₀ { w with stdout := w.stdout ++ text }
      { v with stdout := v.stdout ++ text } := by
  refine ⟨?_, h.calls, h.kept, h.writable, h.written⟩
  show v.stdout ++ text = w.stdout ++ text
  rw [h.stdout]

/-- A call in both, with the record put down in the second. -/
theorem Foretold.call {w v : World} (h : Foretold o directory w₀ v₀ w v) (file : File) :
    Foretold o directory w₀ v₀ { w with calls := w.calls ++ [file] }
      { v with calls := v.calls ++ [file], files := deposit o directory v.files file } := by
  obtain ⟨files, hcalls, hfiles⟩ := h.written
  refine ⟨h.stdout, ?_, h.kept, h.writable, files ++ [file], ?_, ?_⟩
  · show v.calls ++ [file] = w.calls ++ [file]
    rw [h.calls]
  · show v.calls ++ [file] = v₀.calls ++ (files ++ [file])
    rw [hcalls, List.append_assoc]
  · show deposit o directory v.files file = _
    rw [List.foldl_append, ← hfiles]
    rfl

theorem write_file_returns {file : File} {bytes path : List UInt8} {v : World}
    (hbytes : data_bytes file = .ok bytes) (hwritable : v.unwritable path = false) :
    exec (write_file file path) v
      = (.ok (), { v with files := Function.update v.files path (some bytes) }) := by
  have hrun : exec (write_file file path) v = exec (if v.unwritable path then throw (.exit 1)
      else put_file path [] >>= fun _ => lift (data_bytes file) >>= put_file path) v := rfl
  have hdisk : Function.update (Function.update v.files path (some [])) path (some bytes)
      = Function.update v.files path (some bytes) := Function.update_idem _ _ _
  rw [hrun, hwritable, hbytes, ← hdisk]
  rfl

include hconfirm in
/-- Unasked and with `--overwrite` the data go to their path. -/
theorem extract_file_returns {file : File} {name bytes path : List UInt8} {v : World}
    (hname : (file.name.getD (strdup [])).c_str = .ok name) (hbytes : data_bytes file = .ok bytes)
    (hwritable : v.unwritable path = false) :
    exec (extract_file o.extracting file path) v
      = (.ok (some path), { v with files := Function.update v.files path (some bytes) }) := by
  have hyes : ∀ prompt, confirm_action o.extracting prompt = pure true := by
    intro prompt
    have hflag : ¬ o.extracting.confirm = true := by
      rw [show o.extracting.confirm = o.confirm from rfl, hconfirm]
      exact Bool.false_ne_true
    rw [confirm_action, if_neg hflag]
  have hfree : free_path o.extracting v path = .ok (some path) := if_neg fun h => h.1 rfl
  unfold extract_file
  rw [hname, lift_ok, pure_bind, hyes, pure_bind, if_pos rfl, exec_get_bind, hfree, lift_ok, pure_bind]
  simp only
  rw [exec_bind, write_file_returns hbytes hwritable]
  rfl

/-- Making a path does not touch the data. -/
theorem file_path_data {file file' : File} {path : List UInt8} (hfresh : file.path = none)
    (h : file_path o directory file = .ok (file', path)) :
    file'.len = file.len ∧ file'.data = file.data := by
  unfold file_path at h
  rw [hfresh] at h
  simp only [bind_eq_ok, pure_eq_ok, Except.ok.injEq, Prod.mk.injEq] at h
  obtain ⟨_, -, _, -, _, -, _, -, rfl, -⟩ := h
  exact ⟨rfl, rfl⟩

include hconfirm in
/-- **One call**: the line is printed in both runs, behind the data in the second one. -/
theorem file_write_foretold {file : File} (hready : Ready o file) :
    Agree (Foretold o directory w₀ v₀) (fun _ => True)
      (file_write o.listing directory file) (file_write o.extracting directory file) := by
  intro w v h
  have hcall := h.call directory file
  unfold deposit at hcall
  cases hpath : file_path o directory file with
  | error e =>
    -- the call is logged, and that is all
    rw [hpath] at hcall
    have hlisting : exec (file_write o.listing directory file) w
        = (.error e, { w with calls := w.calls ++ [file] }) := by
      rw [file_write, show file_path o.listing directory file = _ from hpath]
      rfl
    have hextracting : exec (file_write o.extracting directory file) v
        = (.error e, { v with calls := v.calls ++ [file] }) := by
      rw [file_write, show file_path o.extracting directory file = _ from hpath]
      rfl
    rw [hlisting, hextracting]
    exact .stops hcall
  | ok r =>
    obtain ⟨file', path⟩ := r
    rw [hpath] at hcall
    obtain ⟨-, name, hname⟩ := file_path_fresh o directory hready.fresh hpath
    obtain ⟨bytes, hbytes⟩ := hready.filled.data_bytes
    have hbytes' : data_bytes file' = .ok bytes := by
      obtain ⟨hlen, hdata⟩ := file_path_data directory hready.fresh hpath
      rw [data_bytes, hlen, hdata]
      exact hbytes
    rw [File.contents_eq hbytes] at hcall
    have hlisting := file_write_of_path o.listing directory hpath w
    have hextracting := file_write_of_path o.extracting directory hpath v
    rw [if_pos (show o.listing.list = true from rfl)] at hlisting
    rw [if_neg (show ¬ o.extracting.list = true from Bool.false_ne_true), exec_bind,
      extract_file_returns (v := { v with calls := v.calls ++ [file] }) hconfirm hname hbytes'
        (h.writable path)] at hextracting
    -- with one of the two options the line is without length and date
    have hline : list_file o.listing file' path = list_file o.extracting file' path := by
      have hdate : list_length_and_date o.listing file' = list_length_and_date o.extracting file' := by
        rw [list_length_and_date, list_length_and_date, if_neg fun h => Bool.false_ne_true h.2,
          if_neg fun h => Bool.false_ne_true h.1]
      rw [list_file, list_file, hdate]
      rfl
    have hprint : ∀ text w v, Foretold o directory w₀ v₀ w v → Foretold o directory w₀ v₀
        { w with stdout := w.stdout ++ text } { v with stdout := v.stdout ++ text } :=
      fun text w v h => h.print directory text
    have hends := list_file_agree hprint o.extracting file' path _ _ hcall
    have hlisted : list_written o.listing file' (some path) = list_file o.listing file' path := by
      rw [list_written]
      exact if_pos (.inl rfl)
    have hwritten : list_written o.extracting file' (some path)
        = list_file o.extracting file' path := by
      rw [list_written]
      exact if_pos (.inr rfl)
    rw [hlisting, hextracting, hlisted, hline]
    show Outcomes _ _ _ (exec (list_written o.extracting file' (some path)) _)
    rw [hwritten]
    exact hends

end Call

end Tnef
