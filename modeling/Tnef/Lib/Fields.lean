/-
Records that are written one field at a time.

A run goes through a list of steps, each of which writes one field of a record, writes none,
or stops. The last write of a field decides, so a step put in between makes no difference
exactly when it writes nothing, or what the field holds already, or what is written again
later (`FieldAccess.run_insert_iff`). Where no field is written twice the order of the steps
makes no difference (`FieldAccess.foldlM_reorder`). Fields, values, record and steps are
arbitrary.
-/
import Tnef.Lib.Except

set_option autoImplicit false

namespace Fields

open ExceptRules

variable {κ σ α ε : Type} {ν : κ → Type}

/-- Reading and writing the fields `κ` of a record. -/
structure FieldAccess (ν : κ → Type) (σ : Type) where
  get : (k : κ) → σ → ν k
  put : (k : κ) → ν k → σ → σ
  get_put : ∀ k v s, get k (put k v s) = v
  get_put_ne : ∀ k k' v s, k' ≠ k → get k (put k' v s) = get k s
  put_get : ∀ k s, put k (get k s) s = s
  put_put : ∀ k v w s, put k v (put k w s) = put k v s
  put_comm : ∀ k k' v w s, k ≠ k' → put k v (put k' w s) = put k' w (put k v s)

namespace FieldAccess

variable (A : FieldAccess ν σ) (write : α → Except ε (Option (Σ k, ν k)))

/-- One write, or none. -/
def apply (s : σ) : Option (Σ k, ν k) → σ
  | none => s
  | some ⟨k, v⟩ => A.put k v s

/-- What the steps make of the record. -/
def run : List α → σ → Except ε σ
  | [], s => .ok s
  | a :: as, s => do
    let w ← write a
    run as (A.apply s w)

/-- Some step of the list writes the field. -/
def Writes (k : κ) (as : List α) : Prop := ∃ a ∈ as, ∃ v, write a = .ok (some ⟨k, v⟩)

variable {A write}

theorem run_append (as bs : List α) : ∀ s : σ,
    A.run write (as ++ bs) s = A.run write as s >>= A.run write bs := by
  induction as with
  | nil =>
    intro s
    rfl
  | cons a as ih =>
    intro s
    rw [List.cons_append, run, run, bind_assoc]
    congr 1
    funext w
    exact ih _

/-- In a run that returns no step has stopped. -/
theorem run_mem {as : List α} : ∀ {s t : σ}, A.run write as s = .ok t → ∀ a ∈ as,
    ∃ w, write a = .ok w := by
  induction as with
  | nil =>
    intro s t _ a ha
    cases ha
  | cons b as ih =>
    intro s t h a ha
    rw [run, bind_eq_ok] at h
    obtain ⟨w, hw, h⟩ := h
    rcases List.mem_cons.mp ha with rfl | ha
    · exact ⟨w, hw⟩
    · exact ih h a ha

/-- When the field a step writes can be told from the step, so can whether a run writes it. -/
theorem writes_iff (Selects : κ → α → Prop) {as : List α} {s t : σ}
    (hrun : A.run write as s = .ok t)
    (hsome : ∀ a k v, write a = .ok (some ⟨k, v⟩) → Selects k a)
    (hnone : ∀ a ∈ as, write a = .ok none → ∀ k, ¬ Selects k a)
    (hone : ∀ a k k', Selects k a → Selects k' a → k = k') (k : κ) :
    Writes write k as ↔ ∃ a ∈ as, Selects k a := by
  constructor
  · rintro ⟨a, ha, v, hv⟩
    exact ⟨a, ha, hsome a k v hv⟩
  · rintro ⟨a, ha, hk⟩
    refine ⟨a, ha, ?_⟩
    obtain ⟨w, hw⟩ := run_mem hrun a ha
    match w, hw with
    | none, hw => exact absurd hk (hnone a ha hw k)
    | some ⟨k', v⟩, hw =>
      obtain rfl : k' = k := hone a k' k (hsome a k' v hw) hk
      exact ⟨v, hw⟩

theorem put_eq_self_iff {k : κ} {v : ν k} {s : σ} : A.put k v s = s ↔ A.get k s = v := by
  constructor
  · intro h
    rw [← h, A.get_put]
  · rintro rfl
    exact A.put_get k s

/-- **The last write decides**: a field written before the run is written again by it, or
comes out as it went in. -/
theorem run_put {as : List α} {k : κ} {v : ν k} : ∀ {s t : σ}, A.run write as s = .ok t →
    (Writes write k as → A.run write as (A.put k v s) = .ok t)
      ∧ (¬ Writes write k as →
        A.run write as (A.put k v s) = .ok (A.put k v t) ∧ A.get k t = A.get k s) := by
  induction as with
  | nil =>
    intro s t h
    cases h
    refine ⟨?_, fun _ => ⟨rfl, rfl⟩⟩
    rintro ⟨a, ha, -⟩
    cases ha
  | cons a as ih =>
    intro s t h
    rw [run, bind_eq_ok] at h
    obtain ⟨w, hw, h⟩ := h
    rw [run, hw, ok_bind]
    have hskip : (∀ v', w ≠ some ⟨k, v'⟩) → (Writes write k (a :: as) ↔ Writes write k as) := by
      intro hne
      constructor
      · rintro ⟨b, hb, v', hv'⟩
        rcases List.mem_cons.mp hb with rfl | hb
        · exact absurd (Except.ok.inj (hw.symm.trans hv')) (hne v')
        · exact ⟨b, hb, v', hv'⟩
      · rintro ⟨b, hb, hv'⟩
        exact ⟨b, List.mem_cons_of_mem _ hb, hv'⟩
    match w, hw, h, hskip with
    | none, _, h, hskip =>
      rw [hskip fun v' => nofun]
      exact ih h
    | some ⟨k', v'⟩, hw, h, hskip =>
      -- a write of the same field hides the first one, a write of another one commutes with it
      by_cases hk : k' = k
      · subst hk
        have hhere : Writes write k' (a :: as) := ⟨a, List.mem_cons_self .., v', hw⟩
        rw [apply, A.put_put]
        exact ⟨fun _ => h, fun hnot => absurd hhere hnot⟩
      · have hnext := ih h
        rw [apply, A.get_put_ne _ _ _ _ hk] at hnext
        rw [apply, A.put_comm _ _ _ _ _ hk, hskip fun v'' heq => hk (by cases heq; rfl)]
        exact hnext

/-- **A step that makes no difference.** -/
theorem run_insert_iff {as bs : List α} {a : α} {s u t : σ} (hbefore : A.run write as s = .ok u)
    (hafter : A.run write bs u = .ok t) : A.run write (as ++ a :: bs) s = .ok t
      ↔ write a = .ok none
        ∨ ∃ k v, write a = .ok (some ⟨k, v⟩) ∧ (A.get k u = v ∨ Writes write k bs) := by
  rw [run_append, hbefore, ok_bind, run]
  match hw : write a with
  | .error e => simp
  | .ok none =>
    rw [ok_bind]
    exact ⟨fun _ => .inl rfl, fun _ => hafter⟩
  | .ok (some ⟨k, v⟩) =>
    obtain ⟨hagain, honce⟩ := run_put (v := v) hafter
    rw [ok_bind, apply]
    constructor
    · intro h
      refine .inr ⟨k, v, rfl, ?_⟩
      by_cases hwrites : Writes write k bs
      · exact .inr hwrites
      · obtain ⟨hrun, hget⟩ := honce hwrites
        have hsame : A.put k v t = t := Except.ok.inj (hrun.symm.trans h)
        exact .inl (hget.symm.trans (put_eq_self_iff.mp hsame))
    · rintro (h | ⟨k', v', h, hor⟩)
      · cases h
      · cases h
        rcases hor with hget | hwrites
        · rw [put_eq_self_iff.mpr hget]
          exact hafter
        · exact hagain hwrites

/-! ## Writes in any order -/

/-- A list of writes, the first one first. -/
def puts (A : FieldAccess ν σ) (ws : List (Σ k, ν k)) (s : σ) : σ :=
  ws.foldl (fun s w => A.put w.1 w.2 s) s

theorem puts_append (ws ws' : List (Σ k, ν k)) (s : σ) :
    A.puts (ws ++ ws') s = A.puts ws' (A.puts ws s) := List.foldl_append ..

/-- A run makes all the writes of its steps. -/
theorem run_eq_puts (as : List α) : ∀ s : σ,
    A.run write as s = as.mapM write >>= fun ws => .ok (A.puts ws.reduceOption s) := by
  induction as with
  | nil =>
    intro s
    rfl
  | cons a as ih =>
    intro s
    rw [run, List.mapM_cons]
    cases write a with
    | error e => rfl
    | ok w =>
      rw [ok_bind, ok_bind, ih]
      cases as.mapM write with
      | error e => rfl
      | ok ws => cases w <;> rfl

/-- **Where no field is written twice, any order will do.** -/
theorem puts_perm {ws ws' : List (Σ k, ν k)} (hperm : ws.Perm ws')
    (hone : (ws.map Sigma.fst).Nodup) (s : σ) : A.puts ws s = A.puts ws' s := by
  apply hperm.foldl_eq'
  intro w hw w' hw' s
  by_cases hk : w.1 = w'.1
  · rw [List.inj_on_of_nodup_map hone hw hw' hk]
  · exact (A.put_comm w.1 w'.1 w.2 w'.2 s hk).symm

section Steps

variable {f : σ → α → Except ε σ} {writes : α → Except ε (List (Σ k, ν k))}
  (hf : ∀ s a, f s a = writes a >>= fun ws => .ok (A.puts ws s))

include hf

/-- Steps of several writes each. -/
theorem foldlM_eq_puts (as : List α) : ∀ s : σ,
    as.foldlM f s = as.mapM writes >>= fun wss => .ok (A.puts wss.flatten s) := by
  induction as with
  | nil =>
    intro s
    rfl
  | cons a as ih =>
    intro s
    rw [List.foldlM_cons, List.mapM_cons, hf]
    cases writes a with
    | error e => rfl
    | ok ws =>
      rw [ok_bind, ok_bind, ok_bind, ih]
      cases as.mapM writes with
      | error e => rfl
      | ok wss =>
        rw [ok_bind, ok_bind, pure_eq_ok, ok_bind, List.flatten_cons, puts_append]

omit hf in
/-- The counterparts of steps that return. -/
theorem mapM_counterparts {as bs : List α} (hsteps : List.Forall₂ (fun a b =>
      (∃ ws ws', writes a = .ok ws ∧ writes b = .ok ws' ∧ ws.Perm ws')
        ∨ (∃ e, writes a = .error e) ∧ ∃ e, writes b = .error e) as bs) :
    ∀ {wss}, as.mapM writes = .ok wss →
      ∃ wss', bs.mapM writes = .ok wss' ∧ List.Forall₂ List.Perm wss wss' := by
  induction hsteps with
  | nil =>
    intro wss h
    cases h
    exact ⟨[], rfl, .nil⟩
  | cons hone _ ih =>
    intro wss h
    simp only [List.mapM_cons, bind_eq_ok, pure_eq_ok, Except.ok.injEq] at h
    obtain ⟨ws, hws, wss, hrest, rfl⟩ := h
    obtain ⟨wss', hwss', hsame⟩ := ih hrest
    rcases hone with ⟨ws₁, ws', hws₁, hws', hperm⟩ | ⟨⟨e, he⟩, -⟩
    · obtain rfl : ws₁ = ws := Except.ok.inj (hws₁.symm.trans hws)
      exact ⟨ws' :: wss', by rw [List.mapM_cons, hws', ok_bind, hwss']; rfl, .cons hperm hsame⟩
    · rw [hws] at he
      cases he

/-- **Steps in any order.** Let the steps of a list be replaced by others that make the same
writes in any order, or stop as they do, and then be put into any order. If the first list
writes no field twice, both stop or both come to the same record. -/
theorem foldlM_reorder {as bs cs : List α} (hsteps : List.Forall₂ (fun a b =>
      (∃ ws ws', writes a = .ok ws ∧ writes b = .ok ws' ∧ ws.Perm ws')
        ∨ (∃ e, writes a = .error e) ∧ ∃ e, writes b = .error e) as bs)
    (hperm : bs.Perm cs)
    (hone : ∀ wss, as.mapM writes = .ok wss → (wss.flatten.map Sigma.fst).Nodup) (s : σ) :
    ((∃ e, as.foldlM f s = .error e) ∧ ∃ e, cs.foldlM f s = .error e)
      ∨ ∃ t, as.foldlM f s = .ok t ∧ cs.foldlM f s = .ok t := by
  rw [foldlM_eq_puts hf, foldlM_eq_puts hf]
  match has : as.mapM writes with
  | .error e =>
    -- a step that stops has its counterpart, which is somewhere in the other list
    obtain ⟨a, ha, e', he'⟩ := mapM_error_iff.mp ⟨e, has⟩
    obtain ⟨i, hi, rfl⟩ := List.getElem_of_mem ha
    have hib : i < bs.length := hsteps.length_eq ▸ hi
    have hcs : ∃ e, cs.mapM writes = .error e := by
      refine mapM_error_iff.mpr ⟨bs[i], hperm.subset (List.getElem_mem hib), ?_⟩
      rcases hsteps.get hi hib with ⟨ws, ws', hws, -, -⟩ | ⟨-, he⟩
      · rw [List.get_eq_getElem, he'] at hws
        cases hws
      · exact he
    obtain ⟨e'', hcs⟩ := hcs
    rw [hcs]
    exact Or.inl ⟨⟨e, rfl⟩, e'', rfl⟩
  | .ok wss =>
    obtain ⟨wss', hbs, hsame⟩ := mapM_counterparts hsteps has
    obtain ⟨wss'', hcs, hmixed⟩ := mapM_perm hbs hperm
    have hflat : wss.flatten.Perm wss''.flatten := (List.Perm.flatten_congr hsame).trans hmixed.flatten
    rw [hcs]
    exact Or.inr ⟨_, rfl, congrArg Except.ok (puts_perm hflat (hone wss has) s).symm⟩

end Steps

end FieldAccess

end Fields
