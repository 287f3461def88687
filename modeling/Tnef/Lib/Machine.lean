/-
Machines that take one step after another and leave a trace.

A machine is a step function: from a configuration it stops with an error, or halts, or
goes on to a next configuration and leaves the events of the step behind. `Steps` is a
run of it with its whole trace. `Steps.invariant` is the induction over runs, for
properties of configuration and trace together; `Steps.exists_halt` gives an end to the
runs of a machine with a measure, and `Steps.to_halt` says that of a machine that halts
every run is the beginning of the same one. `Steps.of_agree` carries a run over to a machine
that takes the same steps under an invariant. Errors, events and configurations are
arbitrary.
-/
import Mathlib.Tactic

set_option autoImplicit false

namespace Machine

variable {ε κ σ : Type}

/-- `none` is the step of a configuration that halts. -/
abbrev StepFn (ε κ σ : Type) := σ → Except ε (Option (List κ × σ))

/-- A run from `c` with the events it leaves. -/
inductive Steps (step : StepFn ε κ σ) (c : σ) : List κ → σ → Prop
  | refl : Steps step c [] c
  | snoc {tr es : List κ} {c' c'' : σ} : Steps step c tr c' → step c' = .ok (some (es, c'')) →
    Steps step c (tr ++ es) c''

variable {step : StepFn ε κ σ}

theorem Steps.single {c c' : σ} {es : List κ} (h : step c = .ok (some (es, c'))) :
    Steps step c es c' := .snoc .refl h

theorem Steps.trans {c c' c'' : σ} {tr tr' : List κ} (h : Steps step c tr c')
    (h' : Steps step c' tr' c'') : Steps step c (tr ++ tr') c'' := by
  induction h' with
  | refl => rwa [List.append_nil]
  | snoc _ hstep ih =>
    rw [← List.append_assoc]
    exact .snoc ih hstep

/-- **Induction over runs**: what holds at the start and is kept by every step holds
at every point, of the configuration and of the trace so far. -/
theorem Steps.invariant {I : List κ → σ → Prop} {c c' : σ} {tr : List κ}
    (h : Steps step c tr c') (hinit : I [] c)
    (hkeep : ∀ tr c es c', I tr c → step c = .ok (some (es, c')) → I (tr ++ es) c') : I tr c' := by
  induction h with
  | refl => exact hinit
  | snoc _ hstep ih => exact hkeep _ _ _ _ ih hstep

/-- A run is empty, or it has a first step. -/
theorem Steps.head {c c' : σ} {tr : List κ} (h : Steps step c tr c') :
    (c' = c ∧ tr = []) ∨ ∃ es c₁ tr', step c = .ok (some (es, c₁)) ∧ Steps step c₁ tr' c'
      ∧ tr = es ++ tr' := by
  induction h with
  | refl => exact .inl ⟨rfl, rfl⟩
  | snoc _ hstep ih =>
    right
    rcases ih with ⟨rfl, rfl⟩ | ⟨es, c₁, tr', hfirst, hrest, rfl⟩
    · exact ⟨_, _, [], hstep, .refl, by rw [List.nil_append, List.append_nil]⟩
    · exact ⟨es, c₁, _, hfirst, .snoc hrest hstep, List.append_assoc ..⟩

/-- Two runs from one configuration: one continues the other. -/
theorem Steps.linear {c c₁ c₂ : σ} {tr₁ tr₂ : List κ} (h₁ : Steps step c tr₁ c₁)
    (h₂ : Steps step c tr₂ c₂) :
    (∃ tr, Steps step c₁ tr c₂ ∧ tr₂ = tr₁ ++ tr) ∨ ∃ tr, Steps step c₂ tr c₁ ∧ tr₁ = tr₂ ++ tr := by
  induction h₂ with
  | refl => exact .inr ⟨tr₁, h₁, rfl⟩
  | snoc _ hstep ih =>
    rcases ih with ⟨tr, hrun, rfl⟩ | ⟨tr, hrun, rfl⟩
    · exact .inl ⟨_, .snoc hrun hstep, List.append_assoc ..⟩
    · -- the first run is ahead: unless it has stopped here, it took the same step
      rcases hrun.head with ⟨rfl, rfl⟩ | ⟨es, c', tr', hfirst, hrest, rfl⟩
      · exact .inl ⟨_, .single hstep, by rw [List.append_nil]⟩
      · have hsame := hfirst.symm.trans hstep
        simp only [Except.ok.injEq, Option.some.injEq, Prod.mk.injEq] at hsame
        obtain ⟨rfl, rfl⟩ := hsame
        exact .inr ⟨tr', hrest, (List.append_assoc ..).symm⟩

/-- From a configuration that halts there is nowhere to go. -/
theorem Steps.of_halted {c c' : σ} {tr : List κ} (hhalt : step c = .ok none)
    (h : Steps step c tr c') : c' = c ∧ tr = [] := by
  rcases h.head with hempty | ⟨es, c₁, tr', hfirst, -, -⟩
  · exact hempty
  · exact absurd (hfirst.symm.trans hhalt) (by simp)

/-- **A machine that halts has one run**: every run from its start goes on to the halt. -/
theorem Steps.to_halt {c c' d : σ} {tr tr' : List κ} (h : Steps step c tr d)
    (hhalt : step d = .ok none) (h' : Steps step c tr' c') :
    ∃ tr'', Steps step c' tr'' d ∧ tr = tr' ++ tr'' := by
  rcases h.linear h' with ⟨tr'', hrest, rfl⟩ | hbefore
  · obtain ⟨rfl, rfl⟩ := hrest.of_halted hhalt
    exact ⟨[], .refl, by rw [List.append_nil, List.append_nil]⟩
  · exact hbefore

/-- **Machines that agree where an invariant holds** have the same runs from there. -/
theorem Steps.of_agree {step' : StepFn ε κ σ} {I : σ → Prop} (hagree : ∀ c, I c → step c = step' c)
    (hkeep : ∀ c es c', I c → step c = .ok (some (es, c')) → I c') {c c' : σ} {tr : List κ}
    (h : Steps step c tr c') (hinit : I c) : Steps step' c tr c' ∧ I c' := by
  induction h with
  | refl => exact ⟨.refl, hinit⟩
  | snoc _ hstep ih =>
    obtain ⟨hrun, hI⟩ := ih
    exact ⟨.snoc hrun ((hagree _ hI).symm.trans hstep), hkeep _ _ _ hI hstep⟩

/-- **A machine that never stops with an error and has a measure halts**: under an invariant
of configuration and trace, every run goes on to a configuration with no next step. -/
theorem Steps.exists_halt {I : List κ → σ → Prop} (μ : σ → ℕ)
    (hstep : ∀ tr c, I tr c → ∃ next, step c = .ok next
      ∧ ∀ es c', next = some (es, c') → I (tr ++ es) c' ∧ μ c' < μ c) (n : ℕ) :
    ∀ {c c' : σ} {tr : List κ}, μ c' = n → Steps step c tr c' → I tr c' →
      ∃ tr' d, Steps step c tr' d ∧ step d = .ok none ∧ I tr' d := by
  induction n using Nat.strong_induction_on with
  | _ n ih =>
    intro c c' tr hn hrun hI
    obtain ⟨next, hnext, hkeep⟩ := hstep tr c' hI
    match next, hnext, hkeep with
    | none, hnext, _ => exact ⟨tr, c', hrun, hnext, hI⟩
    | some (es, c''), hnext, hkeep =>
      obtain ⟨hI', hless⟩ := hkeep es c'' rfl
      exact ih (μ c'') (hn ▸ hless) rfl (.snoc hrun hnext) hI'

end Machine
