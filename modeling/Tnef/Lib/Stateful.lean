/-
Computations on a state that may stop with an error and keep the state when they do.

A program that has written files before it exits has still written them, so the
state belongs outside the error. `exec` runs such a computation, and `exec_bind_eq_ok`
takes a successful run of a sequence apart. `Keeps` is the frame rule: what a
computation leaves alone, whether it returns or stops. `Commutes` says what it does not
look at, and `Performs` what it does do: a sequence of steps of one kind. `Results` is for
those that end in the same way from every state. Error type and state are arbitrary.
-/
import Tnef.Lib.Except

set_option autoImplicit false

namespace Stateful

variable {ε ω α β : Type}

/-- Computations on the state `ω` that return an `α` or stop with an `ε`. -/
abbrev Act (ε ω α : Type) := ExceptT ε (StateM ω) α

/-- A computation that does not look at the state. -/
def lift (x : Except ε α) : Act ε ω α := ExceptT.mk (pure x)

/-- How the computation ends from the state `w`, and in which state. -/
def exec (x : Act ε ω α) (w : ω) : Except ε α × ω := StateT.run (ExceptT.run x) w

@[simp] theorem lift_ok (a : α) : (lift (.ok a) : Act ε ω α) = pure a := rfl

theorem lift_bind (x : Except ε α) (f : α → Except ε β) :
    (lift (x >>= f) : Act ε ω β) = lift x >>= fun a => lift (f a) := by
  cases x <;> rfl

@[simp] theorem exec_pure (a : α) (w : ω) : exec (pure a : Act ε ω α) w = (.ok a, w) := rfl

/-- A sequence runs its first half, and the second from where that left off. -/
theorem exec_bind (x : Act ε ω α) (f : α → Act ε ω β) (w : ω) :
    exec (x >>= f) w = match exec x w with
      | (.ok a, w') => exec (f a) w'
      | (.error e, w') => (.error e, w') := by
  simp only [exec, ExceptT.run_bind, StateT.run_bind]
  match StateT.run (ExceptT.run x) w with
  | (.ok a, w') => rfl
  | (.error e, w') => rfl

theorem exec_bind_eq_ok {x : Act ε ω α} {f : α → Act ε ω β} {w w'' : ω} {b : β} :
    exec (x >>= f) w = (.ok b, w'')
      ↔ ∃ a w', exec x w = (.ok a, w') ∧ exec (f a) w' = (.ok b, w'') := by
  rw [exec_bind]
  match exec x w with
  | (.ok a, w') => simp
  | (.error e, w') => simp

/-- A sequence stops where its first half does, or where the second does behind it. -/
theorem exec_bind_eq_error {x : Act ε ω α} {f : α → Act ε ω β} {w : ω} {e : ε} :
    (exec (x >>= f) w).1 = .error e
      ↔ (exec x w).1 = .error e ∨ ∃ a w', exec x w = (.ok a, w') ∧ (exec (f a) w').1 = .error e := by
  rw [exec_bind]
  match exec x w with
  | (.ok a, w') => simp
  | (.error e', w') => simp

theorem exec_get_bind (f : ω → Act ε ω β) (w : ω) : exec (get >>= f) w = exec (f w) w := rfl

/-- What is returned at the end does not matter for the state. -/
theorem exec_bind_pure_snd (x : Act ε ω α) (f : α → β) (w : ω) :
    (exec (x >>= fun a => pure (f a)) w).2 = (exec x w).2 := by
  rw [exec_bind]
  match exec x w with
  | (.ok a, w') => rfl
  | (.error e, w') => rfl

/-- A computation that stops behind `x` leaves the state `x` has left. -/
theorem exec_bind_throw_snd (x : Act ε ω α) (e : ε) (w : ω) :
    (exec (x >>= fun _ => (throw e : Act ε ω β)) w).2 = (exec x w).2 := by
  rw [exec_bind]
  match exec x w with
  | (.ok a, w') => rfl
  | (.error e, w') => rfl

/-! ## What is left alone -/

/-- However `x` ends, `f` of the state is what it was. -/
def Keeps {κ : Type} (f : ω → κ) (x : Act ε ω α) : Prop := ∀ w, f (exec x w).2 = f w

section Keeps

variable {κ : Type} {f : ω → κ}

theorem keeps_pure (a : α) : Keeps f (pure a : Act ε ω α) := fun _ => rfl

theorem keeps_throw (e : ε) : Keeps f (throw e : Act ε ω α) := fun _ => rfl

theorem keeps_lift (x : Except ε α) : Keeps f (lift x : Act ε ω α) := fun _ => rfl

theorem keeps_get : Keeps f (get : Act ε ω ω) := fun _ => rfl

theorem keeps_modify {g : ω → ω} (h : ∀ w, f (g w) = f w) :
    Keeps f (modify g : Act ε ω PUnit) := fun w => h w

theorem Keeps.bind {x : Act ε ω α} {g : α → Act ε ω β} (hx : Keeps f x)
    (hg : ∀ a, Keeps f (g a)) : Keeps f (x >>= g) := by
  intro w
  have hfirst := hx w
  rw [exec_bind]
  match hrun : exec x w with
  | (.ok a, w') =>
    rw [hrun] at hfirst
    exact (hg a w').trans hfirst
  | (.error e, w') =>
    rw [hrun] at hfirst
    exact hfirst

/-- A computation that begins by looking at the state may use what it finds. -/
theorem keeps_get_bind {g : ω → Act ε ω β} (hg : ∀ w, f (exec (g w) w).2 = f w) :
    Keeps f (get >>= g) := fun w => hg w

end Keeps

/-! ## What is not looked at -/

/-- `x` does not see whether the state has been changed by `g`, and `g` may as well come last. -/
def Commutes (g : ω → ω) (x : Act ε ω α) : Prop :=
  ∀ w, exec x (g w) = ((exec x w).1, g (exec x w).2)

section Commutes

variable {g : ω → ω}

theorem commutes_pure (a : α) : Commutes g (pure a : Act ε ω α) := fun _ => rfl

theorem commutes_throw (e : ε) : Commutes g (throw e : Act ε ω α) := fun _ => rfl

theorem commutes_lift (x : Except ε α) : Commutes g (lift x : Act ε ω α) := fun _ => rfl

theorem commutes_modify {h : ω → ω} (hg : ∀ w, h (g w) = g (h w)) :
    Commutes g (modify h : Act ε ω PUnit) := fun w => Prod.ext rfl (hg w)

theorem Commutes.bind {x : Act ε ω α} {f : α → Act ε ω β} (hx : Commutes g x)
    (hf : ∀ a, Commutes g (f a)) : Commutes g (x >>= f) := by
  intro w
  rw [exec_bind, exec_bind, hx w]
  match exec x w with
  | (.ok a, w') => exact hf a w'
  | (.error e, w') => rfl

/-- What a computation finds when it looks at the state must not depend on `g`. -/
theorem commutes_get_bind {f : ω → Act ε ω β} (hsame : ∀ w, f (g w) = f w)
    (hf : ∀ w, Commutes g (f w)) : Commutes g (get >>= f) := by
  intro w
  show exec (f (g w)) (g w) = _
  rw [hsame w]
  exact hf w w

end Commutes

/-! ## What is done -/

section Performs

variable {ι : Type}

/-- However `x` ends, it has changed the state by a sequence of steps with indices in `P`,
and what it returns satisfies `Q`. -/
def Performs (step : ω → ι → ω) (P : ι → Prop) (Q : α → Prop) (x : Act ε ω α) : Prop :=
  ∀ w, (∃ is : List ι, (∀ i ∈ is, P i) ∧ (exec x w).2 = is.foldl step w)
    ∧ ∀ a, (exec x w).1 = .ok a → Q a

variable {step : ω → ι → ω} {P : ι → Prop} {Q : α → Prop} {R : β → Prop}

theorem performs_pure {a : α} (h : Q a) : Performs step P Q (pure a : Act ε ω α) := by
  intro w
  refine ⟨⟨[], by simp, rfl⟩, ?_⟩
  rintro a ⟨⟩
  exact h

theorem performs_throw (e : ε) : Performs step P Q (throw e : Act ε ω α) := by
  intro w
  refine ⟨⟨[], by simp, rfl⟩, ?_⟩
  rintro a ⟨⟩

theorem performs_lift {x : Except ε α} (h : ∀ a, x = .ok a → Q a) :
    Performs step P Q (lift x : Act ε ω α) := fun _ => ⟨⟨[], by simp, rfl⟩, h⟩

/-- A computation that is one step, however it ends. -/
theorem performs_step {x : Act ε ω α} {i : ι} (hi : P i) (hstep : ∀ w, (exec x w).2 = step w i)
    (hQ : ∀ a, Q a) : Performs step P Q x :=
  fun w => ⟨⟨[i], by simpa using hi, hstep w⟩, fun a _ => hQ a⟩

theorem Performs.bind {x : Act ε ω α} {f : α → Act ε ω β} (hx : Performs step P Q x)
    (hf : ∀ a, Q a → Performs step P R (f a)) : Performs step P R (x >>= f) := by
  intro w
  obtain ⟨⟨is, his, hfirst⟩, hQ⟩ := hx w
  rw [exec_bind]
  match hrun : exec x w with
  | (.ok a, w') =>
    rw [hrun] at hfirst hQ
    obtain ⟨⟨js, hjs, hrest⟩, hR⟩ := hf a (hQ a rfl) w'
    refine ⟨⟨is ++ js, ?_, ?_⟩, hR⟩
    · intro i hi
      rcases List.mem_append.mp hi with hi | hi
      · exact his i hi
      · exact hjs i hi
    · rw [List.foldl_append, ← hfirst]
      exact hrest
  | (.error e, w') =>
    rw [hrun] at hfirst
    refine ⟨⟨is, his, hfirst⟩, ?_⟩
    rintro b ⟨⟩

end Performs

/-! ## What comes out whatever the state -/

/-- From every state `x` ends with `m`. -/
def Results (m : Except ε α) (x : Act ε ω α) : Prop := ∀ w, (exec x w).1 = m

section Results

variable {m : Except ε α}

theorem results_pure (a : α) : Results (.ok a) (pure a : Act ε ω α) := fun _ => rfl

theorem results_lift (x : Except ε α) : Results x (lift x : Act ε ω α) := fun _ => rfl

theorem results_modify (g : ω → ω) : Results (.ok ()) (modify g : Act ε ω PUnit) := fun _ => rfl

theorem Results.bind {x : Act ε ω α} {f : α → Act ε ω β} {k : α → Except ε β} (hx : Results m x)
    (hf : ∀ a, Results (k a) (f a)) : Results (m >>= k) (x >>= f) := by
  intro w
  have hfirst := hx w
  rw [exec_bind, ← hfirst]
  match exec x w with
  | (.ok a, w') => exact hf a w'
  | (.error e, w') => rfl

end Results

/-! ## Folds -/

/-- A fold stops the way the first of its steps does that stops. -/
theorem foldlM_eq_error {f : β → α → Act ε ω β} (as : List α) : ∀ {b : β} {w : ω} {e : ε},
    (exec (as.foldlM f b) w).1 = .error e ↔ ∃ before a after b' w', as = before ++ a :: after
      ∧ exec (before.foldlM f b) w = (.ok b', w') ∧ (exec (f b' a) w').1 = .error e := by
  induction as with
  | nil =>
    intro b w e
    simp
  | cons a as ih =>
    intro b w e
    rw [List.foldlM_cons, exec_bind]
    constructor
    · intro h
      rcases hrun : exec (f b a) w with ⟨e' | b', w'⟩
      · rw [hrun] at h
        exact ⟨[], a, as, b, w, rfl, rfl, by rw [hrun]; exact h⟩
      · rw [hrun] at h
        obtain ⟨before, a', after, b'', w'', rfl, hbefore, hstop⟩ := ih.mp h
        refine ⟨a :: before, a', after, b'', w'', rfl, ?_, hstop⟩
        rw [List.foldlM_cons, exec_bind, hrun]
        exact hbefore
    · rintro ⟨before, a', after, b', w', hsplit, hbefore, hstop⟩
      rcases List.cons_eq_append_iff.mp hsplit with ⟨rfl, hcons⟩ | ⟨before, rfl, rfl⟩
      · cases hcons
        cases hbefore
        rcases hrun : exec (f b a) w with ⟨e' | b', w'⟩
        · rw [hrun] at hstop
          exact hstop
        · rw [hrun] at hstop
          cases hstop
      · rw [List.foldlM_cons, exec_bind_eq_ok] at hbefore
        obtain ⟨b₁, w₁, hone, hbefore⟩ := hbefore
        rw [hone]
        exact ih.mpr ⟨before, a', after, b', w', rfl, hbefore, hstop⟩

end Stateful
