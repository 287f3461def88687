/-
Computations that return less often.

`Approx x y`: whatever `x` returns, `y` returns; where `x` stops, nothing is said about `y`.
It is the order in which a program with more checks lies below the same program with fewer,
and every construct a program is put together from respects it. `Tracks` is the same for
computations on a state: the state that is left is part of what they return.
-/
import Tnef.Lib.Stateful

set_option autoImplicit false

namespace ExceptRules

variable {ε α β : Type}

/-- `y` returns whatever `x` returns. -/
def Approx (x y : Except ε α) : Prop := ∀ a, x = .ok a → y = .ok a

section Approx

variable {x y : Except ε α}

theorem Approx.refl (x : Except ε α) : Approx x x := fun _ h => h

theorem Approx.trans {z : Except ε α} (hxy : Approx x y) (hyz : Approx y z) : Approx x z :=
  fun a h => hyz a (hxy a h)

theorem approx_error (e : ε) (y : Except ε α) : Approx (.error e) y := by
  rintro a ⟨⟩

theorem approx_of_eq (h : x = y) : Approx x y := h ▸ Approx.refl x

/-- Sequences are compared step by step; the second steps only on what the first returns. -/
theorem Approx.bind {f g : α → Except ε β} (h : Approx x y)
    (hfg : ∀ a, x = .ok a → Approx (f a) (g a)) : Approx (x >>= f) (y >>= g) := by
  intro b hb
  obtain ⟨a, hx, hf⟩ := bind_eq_ok.mp hb
  exact bind_eq_ok.mpr ⟨a, h a hx, hfg a hx b hf⟩

/-- With the same first step there is only the second to compare. -/
theorem approx_bind {f g : α → Except ε β} (x : Except ε α)
    (hfg : ∀ a, x = .ok a → Approx (f a) (g a)) : Approx (x >>= f) (x >>= g) :=
  (Approx.refl x).bind hfg

theorem approx_mapM {f g : α → Except ε β} {xs : List α} (hfg : ∀ a ∈ xs, Approx (f a) (g a)) :
    Approx (xs.mapM f) (xs.mapM g) := by
  induction xs with
  | nil => exact Approx.refl _
  | cons a xs ih =>
    rw [List.mapM_cons, List.mapM_cons]
    apply (hfg a (List.mem_cons_self ..)).bind
    intro b _
    apply (ih fun a' ha' => hfg a' (List.mem_cons_of_mem _ ha')).bind
    intro bs _
    exact Approx.refl _

end Approx

end ExceptRules

namespace Stateful

open ExceptRules

variable {ε ω α β : Type}

/-- Where `x` returns, `y` returns the same and leaves the same state. -/
def Tracks (x y : Act ε ω α) : Prop := ∀ w a w', exec x w = (.ok a, w') → exec y w = (.ok a, w')

section Tracks

variable {x y : Act ε ω α}

theorem Tracks.refl (x : Act ε ω α) : Tracks x x := fun _ _ _ h => h

theorem tracks_throw (e : ε) (y : Act ε ω α) : Tracks (throw e) y := by
  rintro w a w' ⟨⟩

theorem tracks_lift {x y : Except ε α} (h : Approx x y) :
    Tracks (lift x : Act ε ω α) (lift y) := by
  intro w a w' hrun
  have hx : x = .ok a := congrArg Prod.fst hrun
  have hw : w = w' := congrArg Prod.snd hrun
  exact Prod.ext (h a hx) hw

theorem Tracks.bind {f g : α → Act ε ω β} (h : Tracks x y) (hfg : ∀ a, Tracks (f a) (g a)) :
    Tracks (x >>= f) (y >>= g) := by
  intro w b w'' hb
  obtain ⟨a, w', hx, hf⟩ := exec_bind_eq_ok.mp hb
  exact exec_bind_eq_ok.mpr ⟨a, w', h w a w' hx, hfg a w' b w'' hf⟩

/-- With the same first step there is only the second to compare. -/
theorem tracks_bind {f g : α → Act ε ω β} (x : Act ε ω α) (hfg : ∀ a, Tracks (f a) (g a)) :
    Tracks (x >>= f) (x >>= g) :=
  (Tracks.refl x).bind hfg

end Tracks

end Stateful
