/-
Two computations side by side, each on a state of its own.

`Coupled P Q E x y`: started in states that `P` relates, `x` and `y` end the same way; if they
return, `Q` relates what they return and the states they leave, and if they stop it is with
the same error, in states that `E` relates. It is a Hoare triple about two programs at
once: a sequence is compared half by half (`Coupled.bind`). `Agree` is the case in which the
two return the same and one relation is kept throughout.
-/
import Tnef.Lib.Stateful

set_option autoImplicit false

namespace Stateful

variable {ε ω υ α β γ δ : Type}

/-- The two runs have ended alike. -/
inductive Outcomes (Q : α → ω → β → υ → Prop) (E : ω → υ → Prop) :
    Except ε α × ω → Except ε β × υ → Prop
  | returns {a : α} {w : ω} {b : β} {v : υ} (h : Q a w b v) : Outcomes Q E (.ok a, w) (.ok b, v)
  | stops {e : ε} {w : ω} {v : υ} (h : E w v) : Outcomes Q E (.error e, w) (.error e, v)

def Coupled (P : ω → υ → Prop) (Q : α → ω → β → υ → Prop) (E : ω → υ → Prop) (x : Act ε ω α)
    (y : Act ε υ β) : Prop :=
  ∀ w v, P w v → Outcomes Q E (exec x w) (exec y v)

section Coupled

variable {P : ω → υ → Prop} {Q : α → ω → β → υ → Prop} {E : ω → υ → Prop}
  {x : Act ε ω α} {y : Act ε υ β}

/-- Two results, related wherever the two start. -/
theorem coupled_pure {a : α} {b : β} (h : ∀ w v, P w v → Q a w b v) :
    Coupled P Q E (pure a : Act ε ω α) (pure b : Act ε υ β) := fun w v hP => .returns (h w v hP)

/-- The same error on both sides. -/
theorem coupled_throw (e : ε) (h : ∀ w v, P w v → E w v) :
    Coupled P Q E (throw e : Act ε ω α) (throw e : Act ε υ β) := fun w v hP => .stops (h w v hP)

/-- A change of the state on each side. -/
theorem coupled_modify {f : ω → ω} {g : υ → υ} {Q : PUnit → ω → PUnit → υ → Prop}
    (h : ∀ w v, P w v → Q ⟨⟩ (f w) ⟨⟩ (g v)) :
    Coupled P Q E (modify f : Act ε ω PUnit) (modify g : Act ε υ PUnit) :=
  fun w v hP => .returns (h w v hP)

/-- **Sequencing.** -/
theorem Coupled.bind {T : γ → ω → δ → υ → Prop} {f : α → Act ε ω γ} {g : β → Act ε υ δ}
    (hx : Coupled P Q E x y) (hf : ∀ a b, Coupled (fun w v => Q a w b v) T E (f a) (g b)) :
    Coupled P T E (x >>= f) (y >>= g) := by
  intro w v hP
  have hends := hx w v hP
  rw [exec_bind, exec_bind]
  revert hends
  generalize exec x w = r
  generalize exec y v = s
  intro hends
  cases hends with
  | returns h => exact hf _ _ _ _ h
  | stops h => exact .stops h

end Coupled

/-! ## The same results -/

/-- `x` and `y` return the same, a value in `I`, and keep `R`, also where they stop. -/
def Agree (R : ω → υ → Prop) (I : α → Prop) (x : Act ε ω α) (y : Act ε υ α) : Prop :=
  Coupled R (fun a w b v => a = b ∧ I a ∧ R w v) R x y

section Agree

variable {R : ω → υ → Prop} {I : α → Prop} {x : Act ε ω α} {y : Act ε υ α}

/-- The same result on both sides. -/
theorem agree_pure {a : α} (h : I a) : Agree R I (pure a : Act ε ω α) (pure a : Act ε υ α) :=
  coupled_pure fun _ _ hR => ⟨rfl, h, hR⟩

/-- Where both stop, nothing is asked of the result. -/
theorem agree_throw (e : ε) : Agree R I (throw e : Act ε ω α) (throw e : Act ε υ α) :=
  coupled_throw e fun _ _ hR => hR

/-- A computation without a state is the same on both sides. -/
theorem agree_lift {x : Except ε α} (h : ∀ a, x = .ok a → I a) :
    Agree R I (lift x : Act ε ω α) (lift x : Act ε υ α) := by
  cases x with
  | error e => exact agree_throw e
  | ok a => exact agree_pure (h a rfl)

/-- Two changes that keep the relation. -/
theorem agree_modify {f : ω → ω} {g : υ → υ} {I : PUnit → Prop} (hI : I ⟨⟩)
    (h : ∀ w v, R w v → R (f w) (g v)) :
    Agree R I (modify f : Act ε ω PUnit) (modify g : Act ε υ PUnit) :=
  coupled_modify fun w v hR => ⟨rfl, hI, h w v hR⟩

/-- Sequencing: what the first half is known to return goes on to the second. -/
theorem Agree.bind {J : β → Prop} {f : α → Act ε ω β} {g : α → Act ε υ β} (hx : Agree R I x y)
    (hf : ∀ a, I a → Agree R J (f a) (g a)) : Agree R J (x >>= f) (y >>= g) := by
  refine Coupled.bind hx fun a b w v h => ?_
  obtain ⟨rfl, hI, hR⟩ := h
  exact hf a hI w v hR

/-- Read off: the two end the same way, in related states. -/
theorem Agree.result (h : Agree R I x y) {w : ω} {v : υ} (hR : R w v) :
    (exec x w).1 = (exec y v).1 ∧ R (exec x w).2 (exec y v).2 := by
  have hends := h w v hR
  revert hends
  generalize exec x w = r
  generalize exec y v = s
  intro hends
  cases hends with
  | returns h => exact ⟨congrArg Except.ok h.1, h.2.2⟩
  | stops h => exact ⟨rfl, h⟩

end Agree

end Stateful
