/-
Where an attachment's path leads.

The path `file_write` opens is the extraction directory followed by a relative path.
Without `--use-paths`, or for a name that is not recognised as a Windows path, that is
a single component. With it, the name's own directories are kept, and the path climbs
exactly where the name does: only the base name is escaped, and ".." is left alone.
Lengths that do not fit an `int` need no assumption: a string on which the stripping of
trailing slashes would look at the wrong byte never leaves `concat_nonempty`.
-/
import Tnef.File
import Tnef.Lib.PathWalk

set_option autoImplicit false

namespace Tnef

open ExceptRules PathWalk

/-! ## Splitting a name -/

theorem rindex_eq_some {s : List UInt8} {c : UInt8} {i : ℕ} (h : rindex s c = some i) :
    ∃ x y, s = x ++ c :: y ∧ c ∉ y ∧ x.length = i := by
  unfold rindex at h
  split at h
  · next hmem =>
    rw [Option.some.injEq] at h
    obtain ⟨x, y, hsplit, hnot⟩ := List.eq_append_cons_of_mem (List.mem_reverse.mpr hmem)
    have hs : s = y.reverse ++ c :: x.reverse := by
      rw [← List.reverse_reverse s, hsplit]
      simp
    have hidx : s.reverse.idxOf c = x.length := by
      rw [hsplit, List.idxOf_append_of_notMem hnot, List.idxOf_cons_self, Nat.add_zero]
    refine ⟨y.reverse, x.reverse, hs, by simpa using hnot, ?_⟩
    rw [← h, hidx, hs]
    simp only [List.length_append, List.length_cons, List.length_reverse]
    omega
  · cases h

/-- A name taken for a Windows path is directories, a backslash, and a base name. -/
theorem windows_path_split {fname : List UInt8} (h : could_be_a_windows_path fname = true) :
    ∃ m b, fname = m ++ backslash :: b ∧ backslash ∉ b ∧ b ≠ [] ∧ slash ∉ fname
      ∧ rindex fname backslash = some m.length := by
  unfold could_be_a_windows_path at h
  split at h
  · cases h
  · next up hup =>
    obtain ⟨m, b, rfl, hb, rfl⟩ := rindex_eq_some hup
    simp only [Bool.if_false_left, Bool.and_eq_true, Bool.not_eq_true', decide_eq_false_iff_not,
      not_exists, not_and] at h
    obtain ⟨hend, hchars, -⟩ := h
    refine ⟨m, b, rfl, hb, ?_, ?_, hup⟩
    · rintro rfl
      exact hend (by simp)
    · exact hchars slash (by decide) (by decide)

theorem split_fname_plain {o : Options} {fname : List UInt8}
    (h : ¬ (o.paths = true ∧ could_be_a_windows_path fname = true)) :
    split_fname o fname = (none, fname) := by
  unfold split_fname
  by_cases hpaths : o.paths = true
  · rw [if_pos hpaths]
    have hwin : could_be_a_windows_path fname = false := by
      simpa using fun hwin => h ⟨hpaths, hwin⟩
    rw [hwin]
    cases rindex fname backslash <;> rfl
  · rw [if_neg hpaths]

/-- The directories of a Windows path: separators turned round, leading ones dropped. -/
def windows_dir (m : List UInt8) : List UInt8 :=
  ((m.map fun p => if p = backslash then slash else p) ++ [slash]).dropWhile (· = slash)

/-- All of them, for `--allow-absolute-paths`. -/
def kept_dir (o : Options) (m : List UInt8) : List UInt8 :=
  if o.absolute_paths then (m.map fun p => if p = backslash then slash else p) ++ [slash]
  else windows_dir m

theorem kept_dir_relative {o : Options} (habs : o.absolute_paths = false) (m : List UInt8) :
    kept_dir o m = windows_dir m := by
  rw [kept_dir, habs]
  rfl

theorem split_fname_windows {o : Options} (hpaths : o.paths = true) {m b : List UInt8}
    (hwin : could_be_a_windows_path (m ++ backslash :: b) = true)
    (hidx : rindex (m ++ backslash :: b) backslash = some m.length) :
    split_fname o (m ++ backslash :: b)
      = (if kept_dir o m = [] then none else some (kept_dir o m), b) := by
  have hdir : ((m ++ backslash :: b).take (m.length + 1)).map
      (fun p => if p = backslash then slash else p)
      = (m.map fun p => if p = backslash then slash else p) ++ [slash] := by
    rw [List.take_length_add_append, List.map_append]
    rfl
  have hbase : (m ++ backslash :: b).drop (m.length + 1) = b := by
    rw [List.drop_length_add_append]
    rfl
  unfold split_fname kept_dir windows_dir
  rw [if_pos hpaths, hidx, hwin]
  simp only [hdir, hbase]
  generalize (m.map fun p => if p = backslash then slash else p) = m'
  by_cases habs : o.absolute_paths = true
  · rw [if_neg (fun h => h.2 habs), if_pos habs, if_neg (by simp)]
  · rw [if_neg habs]
    -- the source strips only where there is a leading slash, `windows_dir` always
    by_cases hhead : (m' ++ [slash]).head? = some slash
    · rw [if_pos ⟨hhead, habs⟩]
      cases (m' ++ [slash]).dropWhile (· = slash) with
      | nil => rfl
      | cons c cs => rfl
    · rw [if_neg (fun h => hhead h.1)]
      match m', hhead with
      | c :: m', hhead =>
        have hc : ¬ c = slash := fun h => hhead (by simp [h])
        simp [hc]

/-- What is left of the directories ends in a slash and does not begin with one. -/
theorem windows_dir_cases (m : List UInt8) : windows_dir m = []
    ∨ (∃ x, windows_dir m = x ++ [slash]) ∧ (windows_dir m).head? ≠ some slash := by
  unfold windows_dir
  generalize (m.map fun p => if p = backslash then slash else p) = m'
  induction m' with
  | nil => exact Or.inl rfl
  | cons c m' ih =>
    by_cases hc : c = slash
    · subst hc
      rw [List.cons_append, List.dropWhile_cons_of_pos (by simp)]
      exact ih
    · right
      rw [List.cons_append, List.dropWhile_cons_of_neg (by simpa using hc)]
      exact ⟨⟨c :: m', rfl⟩, by simpa using hc⟩

/-- Whatever is kept ends in a slash. -/
theorem kept_dir_cases (o : Options) (m : List UInt8) :
    kept_dir o m = [] ∨ ∃ x, kept_dir o m = x ++ [slash] := by
  unfold kept_dir
  split_ifs
  · exact Or.inr ⟨_, rfl⟩
  · exact (windows_dir_cases m).imp_right fun h => h.1

/-! ## Sanitizing -/

theorem hex_digit_ne (n : UInt8) : hex_digits.getD (n &&& 0xf).toNat 0 ≠ slash := by
  have hlt : (n &&& 0xf).toNat < 16 := by
    rw [UInt8.toNat_and]
    exact Nat.and_lt_two_pow (n := 4) _ (by decide)
  have hall : ∀ i < 16, hex_digits.getD i 0 ≠ slash := by decide
  exact hall _ hlt

/-- No slash is kept, and none is spelt. -/
theorem slash_not_mem_sanitize (o : Options) (base : List UInt8) :
    slash ∉ base.flatMap (sanitize_char o) := by
  rw [List.mem_flatMap]
  rintro ⟨c, -, hc⟩
  unfold sanitize_char at hc
  split at hc
  · next hstet =>
    rw [List.mem_singleton] at hc
    subst hc
    have hno : stet o slash = false := rfl
    exact absurd (hno.symm.trans hstet) (by decide)
  · simp only [List.mem_cons, List.not_mem_nil, or_false] at hc
    rcases hc with hc | hc | hc
    · exact absurd hc (by decide)
    · exact hex_digit_ne _ hc.symm
    · exact hex_digit_ne _ hc.symm

theorem sanitize_char_length (o : Options) (c : UInt8) :
    1 ≤ (sanitize_char o c).length ∧ (sanitize_char o c).length ≤ 3 := by
  unfold sanitize_char
  split <;> simp

theorem sanitize_length (o : Options) (base : List UInt8) :
    base.length ≤ (base.flatMap (sanitize_char o)).length
      ∧ (base.flatMap (sanitize_char o)).length ≤ 3 * base.length := by
  induction base with
  | nil => simp
  | cons c base ih =>
    have hc := sanitize_char_length o c
    rw [List.flatMap_cons, List.length_append, List.length_cons]
    omega

theorem sanitize_char_dot (o : Options) : sanitize_char o dot = [dot] := by
  have h : stet o dot = true := by
    unfold stet
    by_cases hunix : o.unix_paths = true
    · simp only [hunix]
      decide
    · simp only [hunix]
      decide
  rw [sanitize_char, if_pos h]

/-- An escape is not a dot. -/
theorem sanitize_char_eq_dot {o : Options} {c : UInt8} {rest : List UInt8}
    (h : (sanitize_char o c ++ rest).head? = some dot) : c = dot := by
  unfold sanitize_char at h
  split at h
  · simpa using h
  · exact absurd h (by simp [percent, dot])

/-- **Escaping neither makes nor unmakes a "." or a "..".** -/
theorem move_sanitize (o : Options) (base : List UInt8) :
    move dot (base.flatMap (sanitize_char o)) = move dot base := by
  have hiff : ∀ ds : List UInt8, (∀ d ∈ ds, d = dot) →
      (base.flatMap (sanitize_char o) = ds ↔ base = ds) := by
    induction base with
    | nil =>
      intro ds _
      rfl
    | cons c base ih =>
      intro ds hds
      -- a list of dots is met character by character; an escape never begins with one
      match ds with
      | [] =>
        have hlen := (sanitize_char_length o c).1
        constructor
        · intro h
          have hzero := congrArg List.length h
          rw [List.flatMap_cons, List.length_append, List.length_nil] at hzero
          omega
        · intro h
          cases h
      | d :: ds =>
        have hd : d = dot := hds d (List.mem_cons_self ..)
        subst hd
        have hrest := ih ds fun e he => hds e (List.mem_cons_of_mem _ he)
        constructor
        · intro h
          have hc : c = dot := sanitize_char_eq_dot (by rw [← List.flatMap_cons, h]; rfl)
          rw [List.flatMap_cons, hc, sanitize_char_dot, List.singleton_append, List.cons.injEq] at h
          rw [hc, hrest.mp h.2]
        · intro h
          rw [List.cons.injEq] at h
          rw [List.flatMap_cons, h.1, sanitize_char_dot, hrest.mpr h.2, List.singleton_append]
  unfold move
  simp only [hiff [] (by simp), hiff [dot] (by simp), hiff [dot, dot] (by simp)]

/-! ## Joining -/

theorem strip_slashes_of_no_slash {s : List UInt8} (h : slash ∉ s) : strip_slashes s = s := by
  unfold strip_slashes
  simp only
  split_ifs with hpos hlast
  · exact absurd (List.mem_of_getElem? hlast) h
  · rfl
  · rfl

theorem strip_slashes_of_neg {s : List UInt8} (h : toInt s.length ≤ 0) : strip_slashes s = s := by
  unfold strip_slashes
  simp only
  rw [if_neg (by omega)]

theorem toInt_of_lt {n : ℕ} (h : n < 2 ^ 31) : toInt n = n := by
  unfold toInt
  rw [Int.bmod_def]
  omega

theorem strip_slashes_of_last {s : List UInt8} (hlen : s.length < 2 ^ 31)
    (hlast : s.getLast? ≠ some slash) : strip_slashes s = s := by
  unfold strip_slashes
  simp only [toInt_of_lt hlen]
  split_ifs with hpos hidx
  · have hlast' : s.getLast? = some slash := by
      rw [List.getLast?_eq_getElem?, ← hidx]
      congr 1
      omega
    exact absurd hlast' hlast
  · rfl
  · rfl

theorem join_fname_last {fname1 fname2 : List UInt8} (hne : fname2 ≠ [])
    (hlast : fname2.getLast? ≠ some slash) :
    (join_fname fname1 (some fname2)).getLast? ≠ some slash := by
  obtain ⟨init, c, rfl⟩ := List.eq_nil_or_concat' fname2 |>.resolve_left hne
  unfold join_fname
  simp only
  split_ifs
  · rw [← List.cons_append, ← List.append_assoc, List.getLast?_concat]
    simpa using hlast
  · simpa using hlast

theorem join_fname_length (fname1 fname2 : List UInt8) :
    fname1.length + fname2.length ≤ (join_fname fname1 (some fname2)).length
      ∧ (join_fname fname1 (some fname2)).length ≤ fname1.length + fname2.length + 1 := by
  unfold join_fname
  simp only
  split_ifs
  · simp only [List.length_append, List.length_cons]
    omega
  · rw [List.length_append]
    omega

/-- A length that reads as positive fits its block only if it is the true length. -/
theorem length_exact {l j : ℕ} (hle : l ≤ j) (hlt : j ≤ l + 1) (hover : toInt l + 2 < 2 ^ 31)
    (hfits : j + 1 ≤ ((toInt l + 2) % 2 ^ 64).toNat) (hpos : 0 < toInt j) : j < 2 ^ 31 := by
  unfold toInt at hover hfits hpos
  rw [Int.bmod_def] at hover hfits hpos
  omega

/-- **What `concat_nonempty` returns is not stripped**: where the `int` length is not the
length, the block is too small or the length is negative. -/
theorem concat_nonempty_eq_ok {o : Options} {fname1 fname2 r : List UInt8} (hne : fname2 ≠ [])
    (hlast : fname2.getLast? ≠ some slash) (h : concat_nonempty o fname1 (some fname2) = .ok r) :
    r = join_fname fname1 (some fname2) ∧ strip_slashes r = r := by
  unfold concat_nonempty at h
  simp only [Option.getD_some] at h
  split at h
  · next hover =>
    simp only [bind_eq_ok, pure_eq_ok, Except.ok.injEq] at h
    obtain ⟨size, hsize, _, hfill, rfl⟩ := h
    refine ⟨rfl, ?_⟩
    have hlen := join_fname_length fname1 fname2
    have hsmall : ((toInt (fname1.length + fname2.length) + 2) % 2 ^ 64).toNat * 1 + 0 < 2 ^ 64 := by
      omega
    have hfull := ((checked_xmalloc_eq_ok hsmall).mp hsize).2
    rw [Nat.mul_one, Nat.add_zero] at hfull
    -- the string and its terminator have gone into the block
    have hfits : (join_fname fname1 (some fname2)).length + 1
        ≤ ((toInt (fname1.length + fname2.length) + 2) % 2 ^ 64).toNat := by
      unfold Buffer.fill at hfill
      split at hfill
      · next hle =>
        rw [List.length_append, List.length_singleton, hfull] at hle
        exact hle
      · cases hfill
    by_cases hpos : 0 < toInt (join_fname fname1 (some fname2)).length
    · exact strip_slashes_of_last (length_exact hlen.1 hlen.2 hover hfits hpos)
        (join_fname_last hne hlast)
    · exact strip_slashes_of_neg (by omega)
  · cases h

theorem concat_nonempty_of_small {o : Options} (hlimit : o.alloc_limit = 0)
    {fname1 fname2 : List UInt8} (hlen : fname1.length + fname2.length + 2 < 2 ^ 31) :
    concat_nonempty o fname1 (some fname2) = .ok (join_fname fname1 (some fname2)) := by
  have hjoin := join_fname_length fname1 fname2
  have hint : toInt (fname1.length + fname2.length) = (fname1.length + fname2.length : ℕ) :=
    toInt_of_lt (by omega)
  have hsize : ((((fname1.length + fname2.length : ℕ) : ℤ) + 2) % 2 ^ 64).toNat
      = fname1.length + fname2.length + 2 := by omega
  unfold concat_nonempty
  simp only [Option.getD_some, hint, hsize]
  rw [if_pos (by omega), checked_xmalloc_of_lt o (by omega), if_pos (show o.Admits _ from Or.inl hlimit), ok_bind,
    Buffer.fill_of_le (by rw [List.length_append, List.length_singleton]; omega)]
  rfl

/-- `directory`, a slash unless it ends in one, and `p`; or just `p`. -/
def under (directory : Option (List UInt8)) (p : List UInt8) : List UInt8 :=
  match directory.getD [] with
  | [] => p
  | d => if d.getLast? = some slash then d ++ p else d ++ slash :: p

theorem join_fname_eq_under {directory : Option (List UInt8)} {p : List UInt8}
    (hd : directory.getD [] = [] → False) (hhead : p.head? ≠ some slash) :
    join_fname (directory.getD []) (some p) = under directory p := by
  unfold join_fname under
  simp only [hhead, not_false_eq_true, and_true, ne_eq, ite_not]

theorem under_ne_nil {directory : Option (List UInt8)} {p : List UInt8} (hp : p ≠ []) :
    under directory p ≠ [] := by
  unfold under
  split
  · exact hp
  · split_ifs <;> simp [hp]

/-- What `concat_fname` returns for a relative path that stripping leaves alone, and that
stripping leaves the result alone too. -/
theorem concat_fname_eq_ok {o : Options} {directory r : Option (List UInt8)} {p : List UInt8}
    (hne : p ≠ []) (hhead : p.head? ≠ some slash) (hlast : p.getLast? ≠ some slash)
    (hstrip : strip_slashes p = p) (h : concat_fname o directory (some p) = .ok r) :
    r = some (under directory p) ∧ strip_slashes (under directory p) = under directory p := by
  unfold concat_fname at h
  rw [if_neg (fun hnone => absurd hnone.2 (by simp)), bind_eq_ok] at h
  obtain ⟨filename, hfile, h⟩ := h
  have hfilename : filename = under directory p ∧ strip_slashes filename = filename := by
    unfold copy_fnames at hfile
    split at hfile
    · next hempty =>
      simp only [xstrdup, bind_eq_ok, pure_eq_ok, Except.ok.injEq] at hfile
      obtain ⟨_, ⟨_, -, rfl⟩, hfile⟩ := hfile
      cases hfile
      rw [under, hempty]
      exact ⟨rfl, hstrip⟩
    · next d hd =>
      obtain ⟨rfl, hkept⟩ := concat_nonempty_eq_ok hne hlast hfile
      exact ⟨join_fname_eq_under hd hhead, hkept⟩
  obtain ⟨rfl, hkept⟩ := hfilename
  rw [hkept, if_neg (under_ne_nil hne)] at h
  cases h
  exact ⟨rfl, hkept⟩

theorem concat_fname_of_small {o : Options} (hlimit : o.alloc_limit = 0)
    (directory : Option (List UInt8)) (p : List UInt8)
    (hlen : (directory.getD []).length + p.length + 2 < 2 ^ 31) :
    ∃ r, concat_fname o directory (some p) = .ok r := by
  have hfile : ∃ filename, copy_fnames o directory (some p) = .ok filename := by
    unfold copy_fnames
    split
    · refine ⟨p, ?_⟩
      rw [xstrdup, alloc_limit_assert_eq, if_pos (show o.Admits _ from Or.inl hlimit)]
      rfl
    · exact ⟨_, concat_nonempty_of_small hlimit hlen⟩
  obtain ⟨filename, hfile⟩ := hfile
  unfold concat_fname
  rw [if_neg (fun hnone => absurd hnone.2 (by simp)), hfile, ok_bind]
  split_ifs
  · exact ⟨_, rfl⟩
  · exact ⟨_, rfl⟩

/-! ## The path of a name -/

/-- The directories a name brings along, and its escaped base. -/
def munged (o : Options) (fname : List UInt8) : List UInt8 :=
  under (split_fname o fname).1 ((split_fname o fname).2.flatMap (sanitize_char o))

/-- A relative path that ends in a name. -/
structure Relative (p : List UInt8) : Prop where
  ne_nil : p ≠ []
  head : p.head? ≠ some slash
  last : p.getLast? ≠ some slash

theorem relative_of_no_slash {p : List UInt8} (hne : p ≠ []) (h : slash ∉ p) : Relative p :=
  ⟨hne, fun hhead => h (List.mem_of_head? hhead), fun hlast => h (List.mem_of_getLast? hlast)⟩

theorem sanitize_ne_nil {o : Options} {base : List UInt8} (hne : base ≠ []) :
    base.flatMap (sanitize_char o) ≠ [] := by
  intro h
  have hlen := (sanitize_length o base).1
  rw [h, List.length_nil, Nat.le_zero, List.length_eq_zero_iff] at hlen
  exact hne hlen

theorem sanitize_filename_eq_ok {o : Options} {base r : List UInt8} (hne : base ≠ [])
    (h : sanitize_filename o base = .ok r) : r = base.flatMap (sanitize_char o) := by
  unfold sanitize_filename at h
  rw [if_neg hne] at h
  simp only [bind_eq_ok, pure_eq_ok, Except.ok.injEq] at h
  obtain ⟨_, -, _, -, h⟩ := h
  exact h.symm

/-- What is left of a Windows path ends in its base, and so does every other name. -/
theorem split_fname_base {o : Options} {fname : List UInt8} (hne : fname ≠ []) : (split_fname o fname).2 ≠ [] := by
  by_cases hwin : o.paths = true ∧ could_be_a_windows_path fname = true
  · obtain ⟨m, b, rfl, -, hb, -, hidx⟩ := windows_path_split hwin.2
    rw [split_fname_windows hwin.1 hwin.2 hidx]
    exact hb
  · rw [split_fname_plain hwin]
    exact hne

theorem munge_fname_eq_ok {o : Options} {fname : List UInt8} {r : Option (List UInt8)} (hne : fname ≠ []) (h : munge_fname o (some fname) = .ok r) :
    r = some (munged o fname) ∧ strip_slashes (munged o fname) = munged o fname := by
  have hbase := split_fname_base (o := o) hne
  have hrel := relative_of_no_slash (sanitize_ne_nil (o := o) hbase)
    (slash_not_mem_sanitize o (split_fname o fname).2)
  unfold munge_fname at h
  match fname, hne with
  | c :: fname, _ =>
    simp only [Option.getD_some, bind_eq_ok] at h
    obtain ⟨base, hsan, p, hconcat, h⟩ := h
    rw [sanitize_filename_eq_ok hbase hsan] at hconcat
    obtain ⟨rfl, hkept⟩ := concat_fname_eq_ok hrel.ne_nil hrel.head hrel.last
      (strip_slashes_of_no_slash (slash_not_mem_sanitize o _)) hconcat
    refine ⟨?_, hkept⟩
    split at h
    · next heq =>
      rw [Option.some.injEq] at heq
      exact absurd heq (under_ne_nil hrel.ne_nil)
    · cases h
      rfl

/-- A name that is not taken for a path becomes one component. -/
theorem munged_plain {o : Options} {fname : List UInt8} (hne : fname ≠ [])
    (h : ¬ (o.paths = true ∧ could_be_a_windows_path fname = true)) :
    Relative (munged o fname) ∧ slash ∉ munged o fname := by
  have heq : munged o fname = fname.flatMap (sanitize_char o) := by
    rw [munged, split_fname_plain h]
    rfl
  rw [heq]
  exact ⟨relative_of_no_slash (sanitize_ne_nil hne) (slash_not_mem_sanitize o fname),
    slash_not_mem_sanitize o fname⟩

/-- A Windows path keeps its directories in front of its escaped base. -/
theorem munged_eq {o : Options} (hpaths : o.paths = true) {m b : List UInt8}
    (hwin : could_be_a_windows_path (m ++ backslash :: b) = true)
    (hidx : rindex (m ++ backslash :: b) backslash = some m.length) :
    munged o (m ++ backslash :: b) = kept_dir o m ++ b.flatMap (sanitize_char o) := by
  rw [munged, split_fname_windows hpaths hwin hidx]
  rcases kept_dir_cases o m with hnil | ⟨x, hx⟩
  · simp [hnil, under]
  · rw [hx]
    simp [under]

/-- **A Windows path climbs as its name does.** -/
theorem munged_windows {o : Options} (habs : o.absolute_paths = false) {fname : List UInt8}
    (hpaths : o.paths = true) (hwin : could_be_a_windows_path fname = true) :
    Relative (munged o fname)
      ∧ (StaysBelow dot slash (munged o fname) ↔ StaysBelow dot backslash fname) := by
  obtain ⟨m, b, rfl, hback, hb, hslash, hidx⟩ := windows_path_split hwin
  have hbase := sanitize_ne_nil (o := o) hb
  have hno := slash_not_mem_sanitize o b
  have hrel := relative_of_no_slash hbase hno
  rw [munged_eq hpaths hwin hidx, kept_dir_relative habs]
  refine ⟨⟨?_, ?_, ?_⟩, ?_⟩
  · simp [hbase]
  · -- with the directories gone the escaped base is in front
    rcases windows_dir_cases m with hnil | ⟨⟨x, hx⟩, hhead⟩
    · rw [hnil]
      exact hrel.head
    · rw [List.head?_append_of_ne_nil _ (by rw [hx]; simp)]
      exact hhead
  · rw [List.getLast?_append_of_ne_nil _ hbase]
    exact hrel.last
  · have hm : slash ∉ m := fun h => hslash (List.mem_append_left _ h)
    rw [windows_dir, staysBelow_dropWhile, StaysBelow, StaysBelow, moves_append, moves_append,
      moves_replace hm, moves_of_not_mem hno, moves_of_not_mem hback, move_sanitize]

/-! ## The path comes out -/

theorem split_fname_length {o : Options} (habs : o.absolute_paths = false) (fname : List UInt8) :
    ((split_fname o fname).1.getD []).length + 3 * (split_fname o fname).2.length
      ≤ 3 * fname.length := by
  by_cases hwin : o.paths = true ∧ could_be_a_windows_path fname = true
  · obtain ⟨m, b, rfl, -, -, -, hidx⟩ := windows_path_split hwin.2
    have hdir : (windows_dir m).length ≤ m.length + 1 := by
      unfold windows_dir
      refine (List.dropWhile_suffix _).length_le.trans ?_
      rw [List.length_append, List.length_map, List.length_singleton]
    rw [split_fname_windows hwin.1 hwin.2 hidx, kept_dir_relative habs, List.length_append,
      List.length_cons]
    split_ifs with hnil
    · show 0 + 3 * b.length ≤ _
      omega
    · show (windows_dir m).length + 3 * b.length ≤ _
      omega
  · rw [split_fname_plain hwin]
    show 0 + 3 * fname.length ≤ _
    omega

theorem under_length_le (directory : Option (List UInt8)) (p : List UInt8) :
    (under directory p).length ≤ (directory.getD []).length + 1 + p.length := by
  unfold under
  split
  · next h =>
    rw [h]
    simp
  · split_ifs
    · rw [List.length_append]
      omega
    · rw [List.length_append, List.length_cons]
      omega

theorem munged_length_le {o : Options} (habs : o.absolute_paths = false) (fname : List UInt8) :
    (munged o fname).length ≤ 3 * fname.length + 1 := by
  have hsplit := split_fname_length habs fname
  have hsan := (sanitize_length o (split_fname o fname).2).2
  have hunder := under_length_le (split_fname o fname).1
    ((split_fname o fname).2.flatMap (sanitize_char o))
  unfold munged
  omega

theorem munge_fname_of_small {o : Options} (habs : o.absolute_paths = false)
    (hlimit : o.alloc_limit = 0) {fname : List UInt8} (hne : fname ≠ [])
    (hlen : 3 * fname.length + 16 < 2 ^ 31) : munge_fname o (some fname) = .ok (some (munged o fname)) := by
  have hbase := split_fname_base (o := o) hne
  have hsplit := split_fname_length habs fname
  have hsan := (sanitize_length o (split_fname o fname).2).2
  have hsize : (3 * (split_fname o fname).2.length + SLOP) * 1 + 0 < 2 ^ 64 := by
    show (3 * (split_fname o fname).2.length + 4) * 1 + 0 < 2 ^ 64
    omega
  -- three bytes for each one are room enough
  have hsanitize : sanitize_filename o (split_fname o fname).2
      = .ok ((split_fname o fname).2.flatMap (sanitize_char o)) := by
    unfold sanitize_filename
    rw [if_neg hbase, checked_xcalloc_of_lt o hsize, if_pos (show o.Admits _ from Or.inl hlimit),
      ok_bind, Buffer.fill_of_le]
    · rfl
    · rw [List.length_append, List.length_singleton]
      show _ ≤ (3 * (split_fname o fname).2.length + 4) * 1 + 0
      omega
  obtain ⟨r, hr⟩ := concat_fname_of_small hlimit (split_fname o fname).1
    ((split_fname o fname).2.flatMap (sanitize_char o)) (by omega)
  have hmunge : ∃ r, munge_fname o (some fname) = .ok r := by
    unfold munge_fname
    match fname, hne with
    | c :: fname, _ =>
      simp only [Option.getD_some, hsanitize, hr, ok_bind]
      split
      · exact ⟨_, rfl⟩
      · exact ⟨_, rfl⟩
  obtain ⟨r', hr'⟩ := hmunge
  rw [hr', (munge_fname_eq_ok hne hr').1]

theorem strdup_c_str {name : List UInt8} (h : 0 ∉ name) : (strdup name).c_str = .ok name := by
  rw [Buffer.c_str, if_pos (strdup_terminated name), Buffer.text, strdup, Buffer.full_bytes,
    List.takeWhile_append_of_pos fun c hc => by simpa using fun h0 : c = 0 => h (h0 ▸ hc)]
  simp

theorem file_path_of_name {o : Options} (directory : Option (List UInt8)) {name : List UInt8}
    (hname : 0 ∉ name) : file_path o directory { name := some (strdup name) } = (do
      let fpath ← munge_fname o (some name)
      let path ← concat_fname o directory (some (fpath.getD TNEF_DEFAULT_FILENAME))
      return ({ name := some (strdup name), path := some (fpath.getD TNEF_DEFAULT_FILENAME) },
        path.getD TNEF_DEFAULT_FILENAME)) := by
  unfold file_path
  simp only [Option.getD_some, strdup_c_str hname, ok_bind, pure_bind]

/-- The relative path of a name: what `munge_fname` makes of it, or the default. -/
def relative_path (o : Options) (name : List UInt8) : List UInt8 :=
  if name = [] then TNEF_DEFAULT_FILENAME else munged o name

theorem munge_fname_relative {o : Options} {name : List UInt8} {r : Option (List UInt8)}
    (h : munge_fname o (some name) = .ok r) :
    r.getD TNEF_DEFAULT_FILENAME = relative_path o name
      ∧ strip_slashes (relative_path o name) = relative_path o name := by
  unfold relative_path
  split_ifs with hne
  · subst hne
    cases h
    exact ⟨rfl, strip_slashes_of_no_slash (by decide)⟩
  · obtain ⟨rfl, hkept⟩ := munge_fname_eq_ok hne h
    exact ⟨rfl, hkept⟩

/-- One component, or as far up and down as the name goes. -/
theorem relative_path_below {o : Options} (habs : o.absolute_paths = false) (name : List UInt8) :
    Relative (relative_path o name)
      ∧ if o.paths = true ∧ could_be_a_windows_path name = true then
          (StaysBelow dot slash (relative_path o name) ↔ StaysBelow dot backslash name)
        else slash ∉ relative_path o name
          ∧ (relative_path o name ≠ [dot, dot] → StaysBelow dot slash (relative_path o name)) := by
  -- the one component that leads up is ".."
  have hsingle : ∀ p : List UInt8, slash ∉ p → p ≠ [dot, dot] → StaysBelow dot slash p := by
    intro p hp hup
    rw [StaysBelow, moves_of_not_mem hp, below_singleton, move]
    split_ifs <;> decide
  by_cases hwin : o.paths = true ∧ could_be_a_windows_path name = true
  · have hne : name ≠ [] := by
      rintro rfl
      exact absurd hwin.2 (by decide)
    rw [if_pos hwin, relative_path, if_neg hne]
    exact munged_windows habs hwin.1 hwin.2
  · rw [if_neg hwin, relative_path]
    split_ifs with hne
    · exact ⟨⟨by decide, by decide, by decide⟩, by decide, fun _ => by decide⟩
    · obtain ⟨hrel, hno⟩ := munged_plain hne hwin
      exact ⟨hrel, hno, hsingle _ hno⟩

/-- **Where an attachment's data go**: under the extraction directory, at a relative path
that is a single component, or climbs as the name does. -/
theorem file_path_below (o : Options) (habs : o.absolute_paths = false)
    (directory : Option (List UInt8)) (name : List UInt8) (hname : 0 ∉ name) :
    (o.alloc_limit = 0 → (directory.getD []).length + 3 * name.length + 16 < 2 ^ 31 →
      ∃ r, file_path o directory { name := some (strdup name) } = .ok r)
    ∧ ∀ file path, file_path o directory { name := some (strdup name) } = .ok (file, path) →
      ∃ p, path = under directory p ∧ p.head? ≠ some slash
        ∧ if o.paths = true ∧ could_be_a_windows_path name = true then
            (StaysBelow dot slash p ↔ StaysBelow dot backslash name)
          else slash ∉ p ∧ (p ≠ [dot, dot] → StaysBelow dot slash p) := by
  rw [file_path_of_name directory hname]
  refine ⟨?_, ?_⟩
  · intro hlimit hlen
    -- without a limit every allocation is granted at these lengths
    have hmunge : ∃ r, munge_fname o (some name) = .ok r
        ∧ (r.getD TNEF_DEFAULT_FILENAME).length ≤ 3 * name.length + 8 := by
      by_cases hne : name = []
      · subst hne
        exact ⟨none, rfl, by decide⟩
      · have hle := munged_length_le habs name
        refine ⟨_, munge_fname_of_small habs hlimit hne (by omega), ?_⟩
        show (munged o name).length ≤ _
        omega
    obtain ⟨r, hr, hle⟩ := hmunge
    obtain ⟨r', hr'⟩ := concat_fname_of_small hlimit directory (r.getD TNEF_DEFAULT_FILENAME)
      (by omega)
    rw [hr, ok_bind, hr', ok_bind]
    exact ⟨_, rfl⟩
  · intro file path h
    simp only [bind_eq_ok, pure_eq_ok, Except.ok.injEq] at h
    obtain ⟨r, hmunge, r', hconcat, h⟩ := h
    -- a path that is made is the relative one, under the directory
    obtain ⟨hrel, hbelow⟩ := relative_path_below habs name
    obtain ⟨hr, hkept⟩ := munge_fname_relative hmunge
    rw [hr] at hconcat
    obtain ⟨rfl, -⟩ := concat_fname_eq_ok hrel.ne_nil hrel.head hrel.last hkept hconcat
    cases h
    exact ⟨relative_path o name, rfl, hrel.head, hbelow⟩

theorem file_path_below_witness :
    (∃ r, file_path { paths := true } (some (ascii "out"))
      { name := some (strdup (ascii "docs\\x")) } = .ok r)
    ∧ ∃ p, ascii "out/docs/x" = under (some (ascii "out")) p ∧ p.head? ≠ some slash
      ∧ (StaysBelow dot slash p ↔ StaysBelow dot backslash (ascii "docs\\x")) :=
  have h := file_path_below { paths := true } rfl (some (ascii "out")) (ascii "docs\\x") (by decide)
  ⟨h.1 rfl (by decide), h.2 { name := some (strdup (ascii "docs\\x")), path := some (ascii "docs/x") }
    (ascii "out/docs/x") (by decide +kernel)⟩

/-- With `--use-paths`, the name `..\x` leads out of the extraction directory. -/
theorem file_path_climbs :
    ∃ file, file_path { paths := true } (some (ascii "out"))
        { name := some (strdup (ascii "..\\x")) } = .ok (file, ascii "out/../x")
      ∧ under (some (ascii "out")) (ascii "../x") = ascii "out/../x"
      ∧ (ascii "../x").splitOn slash = [ascii "..", ascii "x"]
      ∧ ¬ StaysBelow dot slash (ascii "../x") := by
  refine ⟨{ name := some (strdup (ascii "..\\x")), path := some (ascii "../x") }, ?_, ?_, ?_, ?_⟩
  · decide +kernel
  · decide
  · decide
  · decide

end Tnef
