/-
Computations that are a list of calls and nothing else.

A `Script` lists what is called and says how the computation ends behind the last call. A
family of computations is `Scripted` if one script says what every member does, so that two
members differ in nothing but what their calls do. Where a call stops the script stops; up to
there it has made a beginning of its calls (`Script.exec_run`).
-/
import Tnef.Lib.Coupling

set_option autoImplicit false

namespace Stateful

open ExceptRules

variable {ε ω υ α γ β : Type}

/-- What is called, one after the other, and how it ends if all calls return. -/
structure Script (ε β α : Type) where
  calls : List β
  ending : Except ε α

def Script.run (op : β → Act ε ω PUnit) (s : Script ε β α) : Act ε ω α := do
  forM s.calls op
  lift s.ending

/-! ## Families -/

section Scripted

variable {ι : Type} {op : ι → β → Act ε ω PUnit} {P : β → Prop} {Q : α → Prop}

/-- One script for all members: what it calls is in `P`, and what it returns in `Q`. -/
def Scripted (op : ι → β → Act ε ω PUnit) (P : β → Prop) (Q : α → Prop) (x : ι → Act ε ω α) : Prop :=
  ∃ s : Script ε β α, (∀ b ∈ s.calls, P b) ∧ (∀ a, s.ending = .ok a → Q a)
    ∧ ∀ i, x i = s.run (op i)

theorem scripted_lift {x : Except ε α} (h : ∀ a, x = .ok a → Q a) :
    Scripted op P Q fun _ => lift x := by
  refine ⟨⟨[], x⟩, ?_, h, fun i => ?_⟩
  · intro b hb
    exact absurd hb List.not_mem_nil
  · simp only [Script.run, List.forM_nil, pure_bind]

theorem scripted_pure {a : α} (h : Q a) : Scripted op P Q fun _ => (pure a : Act ε ω α) := by
  refine scripted_lift (x := .ok a) ?_
  rintro _ ⟨⟩
  exact h

theorem scripted_throw (e : ε) : Scripted op P Q fun _ => (throw e : Act ε ω α) := by
  refine scripted_lift (x := .error e) ?_
  rintro _ ⟨⟩

theorem scripted_call {b : β} (hb : P b) {Q : PUnit → Prop} (hQ : Q ⟨⟩) :
    Scripted op P Q fun i => op i b := by
  refine ⟨⟨[b], .ok ⟨⟩⟩, ?_, fun _ _ => hQ, fun i => ?_⟩
  · intro c hc
    rw [List.mem_singleton.mp hc]
    exact hb
  · have hone : ∀ x : Act ε ω PUnit, x = (x >>= fun _ => pure ⟨⟩) := fun x => (bind_pure x).symm
    simp only [Script.run, List.forM_cons, List.forM_nil, lift_ok]
    rw [← hone, ← hone]

/-- **Sequencing**: the scripts are joined where the first one ends well. -/
theorem Scripted.bind {R : γ → Prop} {x : ι → Act ε ω α} {f : ι → α → Act ε ω γ}
    (hx : Scripted op P Q x) (hf : ∀ a, Q a → Scripted op P R fun i => f i a) :
    Scripted op P R fun i => x i >>= f i := by
  obtain ⟨⟨calls, ending⟩, hcalls, hQ, hrun⟩ := hx
  cases ending with
  | error e =>
    refine ⟨⟨calls, .error e⟩, hcalls, ?_, fun i => ?_⟩
    · rintro _ ⟨⟩
    · simp only [hrun, Script.run, bind_assoc]
      rfl
  | ok a =>
    obtain ⟨⟨calls', ending'⟩, hcalls', hR, hrest⟩ := hf a (hQ a rfl)
    refine ⟨⟨calls ++ calls', ending'⟩, ?_, hR, fun i => ?_⟩
    · intro b hb
      rcases List.mem_append.mp hb with hb | hb
      · exact hcalls b hb
      · exact hcalls' b hb
    · simp only [hrun, Script.run, bind_assoc, lift_ok, pure_bind, hrest, List.forM_append]

end Scripted

/-! ## Runs -/

section Run

variable (op : β → Act ε ω PUnit)

/-- The state behind the calls, whether they return or stop. -/
def after (w : ω) (bs : List β) : ω := bs.foldl (fun w b => (exec (op b) w).2) w

/-- All the calls return. -/
def Returns (w : ω) (bs : List β) : Prop :=
  ∀ before b, before ++ [b] <+: bs → (exec (op b) (after op w before)).1 = .ok ⟨⟩

variable {op}

theorem returns_nil (w : ω) : Returns op w [] := by
  intro before b hpre
  have hlen := hpre.length_le
  rw [List.length_append, List.length_singleton, List.length_nil] at hlen
  omega

theorem Returns.cons {w : ω} {b : β} {bs : List β} (hfirst : (exec (op b) w).1 = .ok ⟨⟩)
    (hrest : Returns op (exec (op b) w).2 bs) : Returns op w (b :: bs) := by
  intro before c hpre
  cases before with
  | nil =>
    rw [List.nil_append, List.cons_prefix_cons] at hpre
    rw [hpre.1]
    exact hfirst
  | cons d before =>
    rw [List.cons_append, List.cons_prefix_cons] at hpre
    rw [hpre.1]
    exact hrest before c hpre.2

/-- **A script runs to its end, or to the first call that stops.** -/
theorem Script.exec_run (s : Script ε β α) (op : β → Act ε ω PUnit) (w : ω) :
    (Returns op w s.calls ∧ exec (s.run op) w = (s.ending, after op w s.calls))
      ∨ ∃ before b rest e, s.calls = before ++ b :: rest ∧ Returns op w before
        ∧ (exec (op b) (after op w before)).1 = .error e
        ∧ exec (s.run op) w = (.error e, after op w (before ++ [b])) := by
  obtain ⟨calls, ending⟩ := s
  have hrun : ∀ w b bs, exec (Script.run op ⟨b :: bs, ending⟩) w
      = exec (op b >>= fun _ => Script.run op ⟨bs, ending⟩) w := by
    intro w b bs
    rw [Script.run, List.forM_cons, bind_assoc]
    rfl
  induction calls generalizing w with
  | nil =>
    left
    exact ⟨returns_nil w, by rw [Script.run, List.forM_nil, pure_bind]; rfl⟩
  | cons b bs ih =>
    rw [hrun, exec_bind]
    rcases hcall : exec (op b) w with ⟨e | ⟨⟩, w'⟩
    · right
      refine ⟨[], b, bs, e, rfl, returns_nil w, congrArg Prod.fst hcall, ?_⟩
      show _ = (Except.error e, (exec (op b) w).2)
      rw [hcall]
    · have hfirst : (exec (op b) w).1 = .ok ⟨⟩ := congrArg Prod.fst hcall
      have hw' : (exec (op b) w).2 = w' := congrArg Prod.snd hcall
      have hafter : ∀ bs, after op w (b :: bs) = after op w' bs := by
        intro bs
        rw [← hw']
        rfl
      rcases ih w' with ⟨hreturns, hends⟩ | ⟨before, c, rest, e, hbs, hreturns, hstop, hends⟩
      · left
        rw [hafter]
        exact ⟨Returns.cons hfirst (hw'.symm ▸ hreturns), hends⟩
      · right
        simp only at hbs
        refine ⟨b :: before, c, rest, e, by rw [hbs, List.cons_append], ?_, ?_, ?_⟩
        · exact Returns.cons hfirst (hw'.symm ▸ hreturns)
        · rw [hafter]
          exact hstop
        · rw [List.cons_append, hafter]
          exact hends

/-- Two runs of one script agree if their calls do. -/
theorem Script.agree {op' : β → Act ε υ PUnit} {R : ω → υ → Prop} {P : β → Prop}
    (hop : ∀ b, P b → Agree R (fun _ => True) (op b) (op' b)) (s : Script ε β α)
    (hP : ∀ b ∈ s.calls, P b) : Agree R (fun _ => True) (s.run op) (s.run op') := by
  have hcalls : ∀ bs : List β, (∀ b ∈ bs, P b) →
      Agree R (fun _ => True) (forM bs op) (forM bs op') := by
    intro bs
    induction bs with
    | nil => exact fun _ => agree_pure trivial
    | cons b bs ih =>
      intro hbs
      rw [List.forM_cons, List.forM_cons]
      exact (hop b (hbs b (List.mem_cons_self ..))).bind fun _ _ =>
        ih fun c hc => hbs c (List.mem_cons_of_mem _ hc)
  exact (hcalls s.calls hP).bind fun _ _ => agree_lift fun _ _ => trivial

end Run

end Stateful
