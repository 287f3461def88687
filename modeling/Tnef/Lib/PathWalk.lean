/-
Relative paths, and whether they climb above the place they start from.

A path is cut at its separators into components, and each component is a move: an
empty one or "." stays, ".." goes up, any other goes down. The path stays below its
start when no prefix of its moves has more ups than downs. Characters, dot and
separator are arbitrary, so one path can be compared with another spelling of it.
-/
import Mathlib.Tactic

set_option autoImplicit false

namespace PathWalk

variable {α : Type} [DecidableEq α]

inductive Move
  | stay
  | up
  | down
  deriving DecidableEq, Repr

/-- What walking through one component does. -/
def move (dot : α) (c : List α) : Move :=
  if c = [] ∨ c = [dot] then .stay else if c = [dot, dot] then .up else .down

def moves (dot sep : α) (path : List α) : List Move := (path.splitOn sep).map (move dot)

/-- Read from the left, at no point are there more ups than downs. -/
def Below (ms : List Move) : Prop := ∀ p ∈ ms.inits, p.count .up ≤ p.count .down

instance (ms : List Move) : Decidable (Below ms) := inferInstanceAs (Decidable (∀ _ ∈ _, _))

/-- Every component of the path, in order, is reached from the start without leaving it. -/
def StaysBelow (dot sep : α) (path : List α) : Prop := Below (moves dot sep path)

instance (dot sep : α) (path : List α) : Decidable (StaysBelow dot sep path) :=
  inferInstanceAs (Decidable (Below _))

/-! ## Moves -/

theorem below_stay {ms : List Move} : Below (.stay :: ms) ↔ Below ms := by
  unfold Below
  simp only [List.mem_inits]
  constructor
  · intro h p hp
    simpa using h (.stay :: p) (List.cons_prefix_cons.mpr ⟨rfl, hp⟩)
  · intro h p hp
    rcases List.prefix_cons_iff.mp hp with rfl | ⟨q, rfl, hq⟩
    · simp
    · simpa using h q hq

theorem below_singleton {m : Move} : Below [m] ↔ m ≠ .up := by
  cases m <;> decide

theorem below_concat {ms : List Move} {m : Move} (h : Below ms) (hm : m ≠ .up) :
    Below (ms ++ [m]) := by
  unfold Below at *
  simp only [List.mem_inits] at *
  intro p hp
  rcases List.prefix_concat_iff.mp hp with rfl | hp
  · have hall := h ms (List.prefix_refl ms)
    have hup : [m].count .up = 0 := List.count_eq_zero.mpr (by simpa using hm.symm)
    rw [List.count_append, List.count_append, hup]
    omega
  · exact h p hp

theorem below_of_append {ms ms' : List Move} (h : Below (ms ++ ms')) : Below ms := by
  unfold Below at *
  simp only [List.mem_inits] at *
  intro p hp
  exact h p (hp.trans (List.prefix_append ms ms'))

/-! ## Components -/

theorem moves_of_not_mem {dot sep : α} {path : List α} (h : sep ∉ path) :
    moves dot sep path = [move dot path] := by
  rw [moves, List.splitOn_eq_singleton h, List.map_singleton]

theorem move_ne_up {dot : α} {c : List α} (h : c ≠ [dot, dot]) : move dot c ≠ .up := by
  rw [move, if_neg h]
  split_ifs <;> decide

theorem moves_append (dot sep : α) (x y : List α) :
    moves dot sep (x ++ sep :: y) = moves dot sep x ++ moves dot sep y := by
  rw [moves, List.splitOn_append_cons_self, List.map_append, moves, moves]

theorem moves_cons (dot sep : α) (path : List α) :
    moves dot sep (sep :: path) = .stay :: moves dot sep path := moves_append dot sep [] path

/-- What makes a component out of the last one that does not lead up keeps a path below. -/
theorem staysBelow_append {dot sep : α} {path s : List α} (hsep : sep ∉ s)
    (hup : ∀ c, c ++ s ≠ [dot, dot]) (h : StaysBelow dot sep path) :
    StaysBelow dot sep (path ++ s) := by
  by_cases hmem : sep ∈ path
  · -- the part behind the last separator is the last component
    obtain ⟨y, x, hsplit, hnot⟩ := List.eq_append_cons_of_mem (List.mem_reverse.mpr hmem)
    have hpath : path = x.reverse ++ sep :: y.reverse := by
      rw [← List.reverse_reverse path, hsplit]
      simp
    have hnew : sep ∉ y.reverse ++ s := by
      rw [List.mem_append, List.mem_reverse]
      exact not_or.mpr ⟨hnot, hsep⟩
    rw [hpath, StaysBelow, moves_append] at h
    rw [hpath, List.append_assoc, List.cons_append, StaysBelow, moves_append,
      moves_of_not_mem hnew]
    exact below_concat (below_of_append h) (move_ne_up (hup y.reverse))
  · have hnew : sep ∉ path ++ s := by
      rw [List.mem_append]
      exact not_or.mpr ⟨hmem, hsep⟩
    rw [StaysBelow, moves_of_not_mem hnew]
    exact below_singleton.mpr (move_ne_up (hup path))

/-- Separators at the front of a directory are no moves. -/
theorem staysBelow_dropWhile {dot sep : α} (dir base : List α) :
    StaysBelow dot sep ((dir ++ [sep]).dropWhile (· = sep) ++ base)
      ↔ StaysBelow dot sep (dir ++ sep :: base) := by
  unfold StaysBelow
  induction dir with
  | nil => rw [List.nil_append, List.dropWhile_cons_of_pos (by simp), List.nil_append, moves_cons,
      below_stay, List.dropWhile_nil, List.nil_append]
  | cons c dir ih =>
    by_cases hc : c = sep
    · subst hc
      rw [List.cons_append, List.dropWhile_cons_of_pos (by simp), ih, List.cons_append, moves_cons,
        below_stay]
    · rw [List.cons_append, List.dropWhile_cons_of_neg (by simpa using hc), ← List.cons_append,
        List.append_assoc, List.singleton_append]

/-- Writing another separator, one the path does not use, changes no component. -/
theorem splitOn_replace {sep sep' : α} {path : List α} (h : sep' ∉ path) :
    (path.map fun c => if c = sep then sep' else c).splitOn sep' = path.splitOn sep := by
  induction path with
  | nil => rfl
  | cons c path ih =>
    have hc : c ≠ sep' := fun hc => h (hc ▸ List.mem_cons_self ..)
    have hpath : sep' ∉ path := fun hp => h (List.mem_cons_of_mem _ hp)
    rw [List.map_cons, List.splitOn_cons_eq_if_modifyHead, List.splitOn_cons_eq_if_modifyHead,
      ih hpath]
    by_cases hsep : c = sep
    · simp [hsep]
    · simp [hsep, hc]

theorem moves_replace {dot sep sep' : α} {path : List α} (h : sep' ∉ path) :
    moves dot sep' (path.map fun c => if c = sep then sep' else c) = moves dot sep path := by
  rw [moves, splitOn_replace h, moves]

end PathWalk
