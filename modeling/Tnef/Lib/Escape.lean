/-
Strings some characters of which are escaped.

An escape is the escape character with two digits behind it, and stands for the character
they spell. Encoding keeps some characters and writes an escape for each of the others;
decoding puts what it spells in the place of every escape. What is decoded is what was
encoded as soon as the escape character is among those escaped.
-/
import Mathlib.Tactic

set_option autoImplicit false

namespace Escape

variable {α : Type}

/-- A character that starts no escape is kept. -/
def decode [DecidableEq α] (esc : α) (spell : α → α → Option α) : List α → List α
  | c :: x :: y :: s =>
    match if c = esc then spell x y else none with
    | some v => v :: decode esc spell s
    | none => c :: decode esc spell (x :: y :: s)
  | s => s

/-- Two digits that spell a character. -/
def Spelt (spell : α → α → Option α) (s : List α) : Prop :=
  ∃ x y v t, s = x :: y :: t ∧ spell x y = some v

/-- The escape character stands nowhere but in front of two digits. -/
def Proper (esc : α) (spell : α → α → Option α) (s : List α) : Prop :=
  ∀ u t, s = u ++ esc :: t → Spelt spell t

/-- A way of escaping: the characters that are kept, and the digits of the others. -/
structure Code (α : Type) where
  esc : α
  spell : α → α → Option α
  keep : α → Bool
  digits : α → α × α
  esc_not_kept : keep esc = false
  spell_digits : ∀ c, spell (digits c).1 (digits c).2 = some c
  digit_ne : ∀ x y v, spell x y = some v → x ≠ esc ∧ y ≠ esc

namespace Code

def encode_char (code : Code α) (c : α) : List α :=
  if code.keep c then [c] else [code.esc, (code.digits c).1, (code.digits c).2]

def encode (code : Code α) (s : List α) : List α := s.flatMap code.encode_char

end Code

/-! ## Decoding from the left -/

section Decode

variable [DecidableEq α] {esc : α} {spell : α → α → Option α}

theorem decode_kept {c : α} (h : c ≠ esc) (s : List α) :
    decode esc spell (c :: s) = c :: decode esc spell s := by
  match s with
  | [] => rfl
  | [x] => rfl
  | x :: y :: s => rw [decode, if_neg h]

theorem decode_escape {x y v : α} (h : spell x y = some v) (s : List α) :
    decode esc spell (esc :: x :: y :: s) = v :: decode esc spell s := by
  rw [decode, if_pos rfl, h]

end Decode

/-! ## Where the escape character stands -/

section Proper

variable {esc : α} {spell : α → α → Option α}

theorem proper_nil : Proper esc spell [] := by
  intro u t h
  simp at h

theorem proper_cons {c : α} {s : List α} :
    Proper esc spell (c :: s) ↔ (c = esc → Spelt spell s) ∧ Proper esc spell s := by
  constructor
  · intro h
    refine ⟨?_, ?_⟩
    · rintro rfl
      exact h [] s rfl
    · intro u t hs
      exact h (c :: u) t (by rw [hs, List.cons_append])
  · rintro ⟨hhead, htail⟩ u t h
    match u with
    | [] =>
      obtain ⟨hc, rfl⟩ := List.cons.inj h
      exact hhead hc
    | d :: u =>
      exact htail u t (List.cons.inj h).2

theorem proper_kept {c : α} (h : c ≠ esc) {s : List α} :
    Proper esc spell (c :: s) ↔ Proper esc spell s := by
  rw [proper_cons, and_iff_right (fun hc => absurd hc h)]

theorem Spelt.append {s : List α} (h : Spelt spell s) (t : List α) : Spelt spell (s ++ t) := by
  obtain ⟨x, y, v, s, rfl, hv⟩ := h
  exact ⟨x, y, v, s ++ t, rfl, hv⟩

theorem Proper.append {s t : List α} (hs : Proper esc spell s) (ht : Proper esc spell t) :
    Proper esc spell (s ++ t) := by
  induction s with
  | nil => exact ht
  | cons c s ih =>
    rw [proper_cons] at hs
    rw [List.cons_append, proper_cons]
    exact ⟨fun hc => (hs.1 hc).append t, ih hs.2⟩

theorem Proper.of_append_right {s t : List α} (h : Proper esc spell (s ++ t)) :
    Proper esc spell t := by
  intro u r ht
  exact h (s ++ u) r (by rw [ht, List.append_assoc])

/-- No escape reaches over a character that is no digit. -/
theorem proper_separated {sep : α} (hsep : sep ≠ esc) (hleft : ∀ x, spell sep x = none)
    (hright : ∀ x, spell x sep = none) {s t : List α} :
    Proper esc spell (s ++ sep :: t) ↔ Proper esc spell s ∧ Proper esc spell t := by
  constructor
  · intro h
    refine ⟨?_, (proper_kept hsep).mp h.of_append_right⟩
    rintro u r rfl
    obtain ⟨x, y, v, r', hr, hv⟩ := h u (r ++ sep :: t) (by simp)
    match r with
    | [] =>
      obtain ⟨rfl, -⟩ := List.cons.inj hr
      rw [hleft y] at hv
      cases hv
    | [d] =>
      obtain ⟨-, hr⟩ := List.cons.inj hr
      obtain ⟨rfl, -⟩ := List.cons.inj hr
      rw [hright x] at hv
      cases hv
    | d :: e :: r =>
      simp only [List.cons_append, List.cons.injEq] at hr
      obtain ⟨rfl, rfl, -⟩ := hr
      exact ⟨d, e, v, r, rfl, hv⟩
  · rintro ⟨hs, ht⟩
    exact hs.append ((proper_kept hsep).mpr ht)

/-- Replacing characters by others moves no escape, if none of them has a part in one. -/
theorem proper_map {f : α → α} (hesc : ∀ c, f c = esc ↔ c = esc)
    (hspell : ∀ x y, spell (f x) (f y) = spell x y) {s : List α} :
    Proper esc spell (s.map f) ↔ Proper esc spell s := by
  have hspelt : ∀ s : List α, Spelt spell (s.map f) ↔ Spelt spell s := by
    intro s
    constructor
    · rintro ⟨x, y, v, t, hs, hv⟩
      match s, hs with
      | x' :: y' :: s, hs =>
        simp only [List.map_cons, List.cons.injEq] at hs
        obtain ⟨rfl, rfl, -⟩ := hs
        exact ⟨x', y', v, s, rfl, by rw [← hspell, hv]⟩
    · rintro ⟨x, y, v, t, rfl, hv⟩
      exact ⟨f x, f y, v, t.map f, rfl, by rw [hspell, hv]⟩
  induction s with
  | nil => exact Iff.rfl
  | cons c s ih =>
    rw [List.map_cons, proper_cons, proper_cons, hesc, hspelt]
    exact and_congr_right fun _ => ih

end Proper

/-! ## What an encoding is -/

namespace Code

variable (code : Code α)

theorem ne_esc {c : α} (h : code.keep c = true) : c ≠ code.esc := by
  rintro rfl
  rw [code.esc_not_kept] at h
  cases h

theorem decode_encode_char [DecidableEq α] (c : α) (s : List α) :
    decode code.esc code.spell (code.encode_char c ++ s)
      = c :: decode code.esc code.spell s := by
  unfold encode_char
  split_ifs with hkeep
  · exact decode_kept (code.ne_esc hkeep) s
  · exact decode_escape (code.spell_digits c) s

/-- **What is decoded is what was encoded.** -/
theorem decode_encode [DecidableEq α] (s : List α) : decode code.esc code.spell (code.encode s) = s := by
  induction s with
  | nil => rfl
  | cons c s ih =>
    have hcons : code.encode (c :: s) = code.encode_char c ++ code.encode s := rfl
    rw [hcons, decode_encode_char, ih]

theorem encode_injective : Function.Injective code.encode :=
  haveI := Classical.decEq α
  Function.LeftInverse.injective code.decode_encode

theorem proper_encode_char (c : α) : Proper code.esc code.spell (code.encode_char c) := by
  unfold encode_char
  split_ifs with hkeep
  · exact (proper_kept (code.ne_esc hkeep)).mpr proper_nil
  · -- the digits are no escape characters themselves
    have hspell := code.spell_digits c
    obtain ⟨hx, hy⟩ := code.digit_ne _ _ _ hspell
    rw [proper_cons, proper_kept hx, proper_kept hy]
    exact ⟨fun _ => ⟨_, _, c, [], rfl, hspell⟩, proper_nil⟩

theorem proper_encode (s : List α) : Proper code.esc code.spell (code.encode s) := by
  induction s with
  | nil => exact proper_nil
  | cons c s ih => exact (code.proper_encode_char c).append ih

theorem mem_encode {s : List α} {c : α} (h : c ∈ code.encode s) :
    code.keep c = true ∨ c = code.esc ∨ ∃ d, c = (code.digits d).1 ∨ c = (code.digits d).2 := by
  obtain ⟨d, -, hc⟩ := List.mem_flatMap.mp h
  unfold encode_char at hc
  split_ifs at hc with hkeep
  · rw [List.mem_singleton] at hc
    exact Or.inl (hc ▸ hkeep)
  · rw [List.mem_cons, List.mem_pair] at hc
    rcases hc with hc | hc
    · exact Or.inr (Or.inl hc)
    · exact Or.inr (Or.inr ⟨d, hc⟩)

end Code

end Escape
