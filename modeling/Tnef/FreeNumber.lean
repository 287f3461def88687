/-
The number `find_free_number` finds.

The loop ends at the least number that is free, as `Found` says, if there is room for that
number: the block holds a name with five digits. So a directory with few enough numbered
copies in it is no trouble (`find_free_number_of_card`), and one with all the copies from 1
to 99999 in it sends `sprintf` beyond the block.
-/
import Tnef.Lib.Search
import Tnef.Path

set_option autoImplicit false

namespace Tnef

open ExceptRules Search

/-! ## The names -/

/-- The digits are read back from their bytes. -/
theorem map_ascii_repr (k : ℕ) :
    (ascii k.repr).map (fun b => Char.ofNat b.toNat) = Nat.toDigits 10 k := by
  rw [ascii, List.map_map, Nat.toList_repr]
  have hsame : ∀ c ∈ Nat.toDigits 10 k,
      ((fun b : UInt8 => Char.ofNat b.toNat) ∘ fun c => UInt8.ofNat c.toNat) c = id c := by
    intro c hc
    have hdigit := Nat.isDigit_of_mem_toDigits (by decide) le_rfl hc
    have hlt : c.toNat < 256 := lt_of_le_of_lt (Char.isDigit_iff_toNat.mp hdigit).2 (by decide)
    rw [Function.comp, UInt8.toNat_ofNat_of_lt' hlt, Char.ofNat_toNat, id]
  rw [List.map_congr_left hsame, List.map_id]

/-- Different numbers make different names. -/
theorem numbered_injective (fname : List UInt8) : Function.Injective (numbered fname) := by
  intro m n h
  have hdigits : ascii m.repr = ascii n.repr := by
    rw [numbered, numbered, List.append_cancel_left_eq] at h
    exact (List.cons.inj h).2
  rw [← @Nat.ofDigitChars_ten_toDigits m, ← map_ascii_repr, hdigits, map_ascii_repr,
    Nat.ofDigitChars_ten_toDigits]

/-! ## The search -/

/-- The name with this number exists. -/
abbrev Taken (file_exists : List UInt8 → Bool) (fname : List UInt8) (n : ℕ) : Prop :=
  file_exists (numbered fname n) = true

section Loop

variable {file_exists : List UInt8 → Bool} {fname : List UInt8}

theorem numbered_fits_iff (counter : ℕ) :
    (numbered fname counter).length + 1 ≤ fname.length + 1 + 5 + 1 ↔ counter < 10 ^ 5 := by
  rw [← @numbered_length_le_iff fname counter 5 (by decide)]
  omega

/-- **The loop returns** the least free number, if there is room for it in the block. -/
theorem find_free_number_loop_eq_ok (counter : ℕ) {p : List UInt8} :
    find_free_number_loop file_exists fname counter = .ok p
      ↔ ∃ n, (Found (Taken file_exists fname) counter n ∧ n < 10 ^ 5) ∧ p = numbered fname n := by
  induction counter using find_free_number_loop.induct file_exists fname with
  | case1 counter hfits hexists ih =>
    have htaken : Taken file_exists fname counter := hexists
    rw [find_free_number_loop, dif_pos hfits, if_pos hexists, ih]
    simp only [found_of_taken htaken]
  | case2 counter hfits hexists =>
    rw [find_free_number_loop, dif_pos hfits, if_neg hexists, Except.ok.injEq]
    -- it ends at the first number it looks at that is free
    have hhere : Found (Taken file_exists fname) counter counter := .here hexists
    constructor
    · rintro rfl
      exact ⟨counter, ⟨hhere, (numbered_fits_iff counter).mp hfits⟩, rfl⟩
    · rintro ⟨n, ⟨hfound, -⟩, rfl⟩
      rw [hhere.unique hfound]
  | case3 counter hfits =>
    rw [find_free_number_loop, dif_neg hfits]
    refine ⟨nofun, ?_⟩
    rintro ⟨n, ⟨hfound, hlt⟩, -⟩
    -- the number that is found comes after this one, which has too many digits already
    have hle := (found_iff_isLeast.mp hfound).1.1
    exact absurd ((numbered_fits_iff counter).mpr (by omega)) hfits

end Loop

theorem numbered_request {o : Options} {n r : ℕ} :
    checked_xmalloc o n 1 0 = .ok r ↔ n < 2 ^ 64 ∧ o.Admits n ∧ r = n := by
  rw [(checked_eq_ok (by decide)).1, Nat.mul_one, Nat.add_zero, and_assoc]

/-- What `find_free_number` returns, the block included. -/
theorem find_free_number_eq_ok {o : Options} {file_exists : List UInt8 → Bool}
    {fname p : List UInt8} : find_free_number o file_exists fname = .ok p
      ↔ (fname.length + 7 < 2 ^ 64 ∧ o.Admits (fname.length + 7))
        ∧ ∃ n, (Found (Taken file_exists fname) 1 n ∧ n < 10 ^ 5) ∧ p = numbered fname n := by
  simp only [find_free_number, bind_eq_ok, numbered_request, find_free_number_loop_eq_ok]
  constructor
  · rintro ⟨_, ⟨hlt, hadm, -⟩, hfound⟩
    exact ⟨⟨hlt, hadm⟩, hfound⟩
  · rintro ⟨⟨hlt, hadm⟩, hfound⟩
    exact ⟨_, ⟨hlt, hadm, rfl⟩, hfound⟩

/-! ## What it is for -/

/-- The result has the least number that is free, and every name the loop has formatted on
the way has been in the block with its terminator. -/
structure FreeNumber (o : Options) (file_exists : List UInt8 → Bool) (fname : List UInt8) :
    Prop where
  returns : ∃ n, IsLeast {n | 1 ≤ n ∧ file_exists (numbered fname n) = false} n
    ∧ find_free_number o file_exists fname = .ok (numbered fname n)
  fits : ∀ n, Reached (Taken file_exists fname) 1 n →
    (numbered fname n).length + 1 ≤ fname.length + 7

theorem found_iff_least {file_exists : List UInt8 → Bool} {fname : List UInt8} {n : ℕ} :
    Found (Taken file_exists fname) 1 n
      ↔ IsLeast {n | 1 ≤ n ∧ file_exists (numbered fname n) = false} n := by
  rw [found_iff_isLeast]
  simp only [Bool.not_eq_true]

/-- The numbers up to the one that is found have at most as many digits. -/
theorem fits_of_found {file_exists : List UInt8 → Bool} {fname : List UInt8} {n : ℕ}
    (h : Found (Taken file_exists fname) 1 n) (hlt : n < 10 ^ 5) (k : ℕ)
    (hk : Reached (Taken file_exists fname) 1 k) :
    (numbered fname k).length + 1 ≤ fname.length + 7 := by
  -- the loop does not go on behind a free number
  have hle : k ≤ n := by
    by_contra hgt
    exact h.free ((reached_iff.mp hk).2 n (reached_iff.mp h.reached).1 (not_le.mp hgt))
  exact (numbered_fits_iff k).mpr (lt_of_le_of_lt hle hlt)

/-- **When a free number is found**: if the block is granted and one of the numbers from 1 to
99999 is free. -/
theorem find_free_number_least (o : Options) (file_exists : List UInt8 → Bool)
    (fname : List UInt8) : FreeNumber o file_exists fname
      ↔ (fname.length + 7 < 2 ^ 64 ∧ o.Admits (fname.length + 7))
        ∧ ∃ n, 1 ≤ n ∧ n < 10 ^ 5 ∧ file_exists (numbered fname n) = false := by
  have hfound := @exists_found_iff (Taken file_exists fname) 1 (10 ^ 5)
  simp only [Bool.not_eq_true] at hfound
  rw [← hfound]
  constructor
  · rintro ⟨⟨n, -, hreturns⟩, -⟩
    obtain ⟨hblock, m, hm, -⟩ := find_free_number_eq_ok.mp hreturns
    exact ⟨hblock, m, hm⟩
  · rintro ⟨hblock, n, hn⟩
    -- all the candidates fit because the last one does
    refine ⟨⟨n, found_iff_least.mp hn.1, ?_⟩, fits_of_found hn.1 hn.2⟩
    exact find_free_number_eq_ok.mpr ⟨hblock, n, hn, rfl⟩

/-- The paths of a finite set, as `stat` finds them. -/
def exists_in (paths : Finset (List UInt8)) (p : List UInt8) : Bool := p ∈ paths

/-- **Few copies are no trouble**: fewer than 99999 paths leave one of the numbers free. -/
theorem find_free_number_of_card (o : Options) {paths : Finset (List UInt8)}
    {fname : List UInt8} (hblock : fname.length + 7 < 2 ^ 64 ∧ o.Admits (fname.length + 7))
    (hcard : paths.card < 99999) : ∃ n, IsLeast {n | 1 ≤ n ∧ numbered fname n ∉ paths} n
      ∧ find_free_number o (exists_in paths) fname = .ok (numbered fname n) := by
  obtain ⟨n, hle, hlt, hfree⟩ :=
    exists_free_of_card (numbered_injective fname) (show paths.card < 10 ^ 5 - 1 from hcard)
  have htaken : ∀ k, Taken (exists_in paths) fname k ↔ numbered fname k ∈ paths := fun k => by
    rw [Taken, exists_in, decide_eq_true_iff]
  obtain ⟨m, hm, hmlt⟩ := exists_found_iff.mpr ⟨n, hle, hlt, (htaken n).not.mpr hfree⟩
  refine ⟨m, ?_, find_free_number_eq_ok.mpr ⟨hblock, m, ⟨hm, hmlt⟩, rfl⟩⟩
  have hleast := found_iff_isLeast.mp hm
  simp only [htaken] at hleast
  exact hleast

/-- **All the copies there is room for**: the next name is one byte too long. -/
theorem find_free_number_runs_out : ¬ ∀ (fname : List UInt8) (paths : Finset (List UInt8)),
    FreeNumber {} (exists_in paths) fname := by
  intro h
  have hfits := (h (ascii "a") ((Finset.Ico 1 (10 ^ 5)).image (numbered (ascii "a")))).fits (10 ^ 5)
  have hreached : Reached (Taken (exists_in ((Finset.Ico 1 (10 ^ 5)).image (numbered (ascii "a"))))
      (ascii "a")) 1 (10 ^ 5) := by
    -- the loop goes on until all five digits are nines
    refine reached_iff.mpr ⟨by decide, fun k hle hlt => ?_⟩
    rw [Taken, exists_in, decide_eq_true_iff]
    exact Finset.mem_image_of_mem _ (Finset.mem_Ico.mpr ⟨hle, hlt⟩)
  exact absurd ((numbered_fits_iff _).mp (hfits hreached)) (lt_irrefl _)

end Tnef
