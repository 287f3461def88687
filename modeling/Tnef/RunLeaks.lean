/-
The run with pointers beside the run without.

The paths, the records that are written, the bodies, and the reading loop. On every input and from
any state of the world `parse_file_mem` ends as `parse_file` does: it releases no block twice
and looks at none that is gone. What is live when it returns is what `parse_file_lost` counts.
-/
import Tnef.PathSafe
import Tnef.NoClobber
import Tnef.Leaks

set_option autoImplicit false

namespace Tnef

open ExceptRules Stateful Ownership

/-! ## Paths -/

section Paths

variable (o : Options)

/-- A name that stripping leaves alone, whatever it is joined to. -/
structure Solid (p : List UInt8) : Prop where
  ne_nil : p ≠ []
  last : p.getLast? ≠ some slash
  kept : strip_slashes p = p

theorem solid_of_no_slash {p : List UInt8} (hne : p ≠ []) (h : slash ∉ p) : Solid p :=
  ⟨hne, (relative_of_no_slash hne h).last, strip_slashes_of_no_slash h⟩

theorem solid_default : Solid TNEF_DEFAULT_FILENAME :=
  solid_of_no_slash (by decide) (by decide)

theorem copy_fnames_solid {o : Options} {directory : Option (List UInt8)} {p filename : List UInt8}
    (hp : Solid p) (h : copy_fnames o directory (some p) = .ok filename) : Solid filename := by
  unfold copy_fnames at h
  split at h
  · simp only [xstrdup, bind_eq_ok, pure_eq_ok, Except.ok.injEq] at h
    obtain ⟨_, ⟨_, -, rfl⟩, h⟩ := h
    cases h
    exact hp
  · obtain ⟨rfl, hkept⟩ := concat_nonempty_eq_ok hp.ne_nil hp.last h
    refine ⟨?_, join_fname_last hp.ne_nil hp.last, hkept⟩
    have hpos := List.length_pos_iff.mpr hp.ne_nil
    have hlen := (join_fname_length (directory.getD []) p).1
    exact List.length_pos_iff.mp (by omega)

/-- How the two makers of a path end. -/
def PathMade (p : Option StringPtr) (v : Option (List UInt8)) (cs : Cells Buffer) : Prop :=
  ∃ q text, Solid text ∧ p = some (q, text) ∧ v = some text ∧ cs = {StringPtr.pointer (q, text)}

theorem concat_fname_refines {p : List UInt8} (hp : Solid p) (directory : Option (List UInt8)) :
    Refines 0 (concat_fname_mem o directory (some p)) (lift (concat_fname o directory (some p)))
      PathMade := by
  have hsome : ¬ (directory = none ∧ some p = none) := fun h => by simp at h
  rw [concat_fname_mem, concat_fname, if_neg hsome, if_neg hsome, lift_bind]
  refine refines_lift fun filename hcopy => refines_point_to_string fun q => ?_
  have hsolid := copy_fnames_solid hp hcopy
  rw [hsolid.kept, if_neg hsolid.ne_nil, if_neg hsolid.ne_nil]
  exact refines_pure ⟨q, filename, hsolid, rfl, rfl, add_zero _⟩

/-- **All the copies made for a path are released.** -/
theorem munge_fname_refines (fname : List UInt8) : Refines 0 (munge_fname_mem o fname)
    (lift (munge_fname o (some fname))) fun p v cs =>
      (p = none ∧ v = none ∧ cs = 0) ∨ PathMade p v cs := by
  cases fname with
  | nil => exact refines_pure (.inl ⟨rfl, rfl, rfl⟩)
  | cons c name =>
    generalize hfname : c :: name = fname
    have hne : fname ≠ [] := hfname ▸ List.cons_ne_nil c name
    rw [munge_fname_mem, if_neg hne]
    subst hfname
    simp only [munge_fname, Option.getD_some, lift_bind]
    refine refines_allocAll fun fpd => refines_point fun fpb => refines_lift fun base hsan =>
      refines_point fun b => ?_
    have hbase : Solid base := by
      rw [sanitize_filename_eq_ok (split_fname_base hne) hsan]
      exact solid_of_no_slash (sanitize_ne_nil (split_fname_base hne)) (slash_not_mem_sanitize o _)
    refine Refines.of_eq
      (c := 0 + bag (fpd.1 ++ [(fpb, strdup (c :: name)), (b, strdup base)])) ?_ ?_
    · refine (concat_fname_refines o hbase _).bind_frame ?_
      rintro _ _ _ ⟨q, text, hsolid, rfl, rfl, rfl⟩
      rw [add_comm]
      refine refines_free_all ?_
      cases text with
      | nil => exact absurd rfl hsolid.ne_nil
      | cons c text => exact refines_pure (.inr ⟨q, c :: text, hsolid, rfl, rfl, rfl⟩)
    · simp only [bag_append, bag_cons, bag_nil]
      ac_rfl

theorem refines_or_default {α γ : Type} {pre : Cells Buffer} {z : Run γ}
    {after : α → γ → Cells Buffer → Prop} {p : Option StringPtr} {v : Option (List UInt8)}
    {cs : Cells Buffer} {k : StringPtr → MemRun α}
    (hp : (p = none ∧ v = none ∧ cs = 0) ∨ PathMade p v cs)
    (h : ∀ q, Solid (v.getD TNEF_DEFAULT_FILENAME) →
      Refines ({StringPtr.pointer (q, v.getD TNEF_DEFAULT_FILENAME)} + pre)
        (k (q, v.getD TNEF_DEFAULT_FILENAME)) z after) :
    Refines (cs + pre) (or_default p >>= k) z after := by
  rcases hp with ⟨rfl, rfl, rfl⟩ | ⟨q, text, hsolid, rfl, rfl, rfl⟩
  · rw [zero_add]
    exact refines_point_to_string fun q => h q solid_default
  · exact h q hsolid

theorem refines_name_or_default {α γ : Type} {pre : Cells Buffer} {z : Run γ}
    {after : α → γ → Cells Buffer → Prop} {name : Option Pointer} {k : Pointer → MemRun α}
    (h : ∀ p, p.2 = (name.map Prod.snd).getD (strdup TNEF_DEFAULT_FILENAME) →
      Refines ({p} + pre) (k p) z after) :
    Refines (bag name.toList + pre) (name_or_default name >>= k) z after := by
  cases name with
  | none =>
    rw [Option.toList_none, bag_nil, zero_add]
    exact refines_point fun p => h _ rfl
  | some name =>
    rw [Option.toList_some, bag_cons, bag_nil, add_zero]
    exact h name rfl

/-- **The path of a record**, and the copy its data go to. -/
theorem file_path_refines (directory : Option (List UInt8)) {f : FileMem} (hfresh : f.path = none) :
    Refines (bag f.blocks) (file_path_mem o directory f) (lift (file_path o directory f.val))
      fun r v cs => r.1.val = v.1 ∧ r.2.2 = v.2 ∧ r.1.self = f.self
        ∧ cs = bag r.1.blocks + {r.2.pointer} := by
  have hpath : f.val.path = none := by simp [FileMem.val, hfresh]
  rw [file_path_mem, f.bag_name]
  refine refines_name_or_default fun name hname => ?_
  simp only [file_path, path_or_munged, hpath, hfresh, lift_bind, bind_assoc]
  refine refines_look_at (by simp) ?_
  have hname' : name.2 = f.val.name.getD (strdup TNEF_DEFAULT_FILENAME) := hname
  rw [← hname']
  refine refines_lift fun text _ => Refines.of_eq ?_ (zero_add _).symm
  refine (munge_fname_refines o text).bind_frame fun p v cs hmunged => ?_
  refine refines_or_default hmunged fun q hsolid => Refines.of_eq ?_ (zero_add _).symm
  refine (concat_fname_refines o hsolid directory).bind_frame fun p' v' cs' hmade => ?_
  refine refines_or_default (.inr hmade) fun q' _ => refines_pure ⟨?_, rfl, rfl, ?_⟩
  · simp only [FileMem.val, hname', Option.map_some]
  · simp only [FileMem.bag_blocks, FileMem.self_pointer, Option.toList_none, Option.toList_some,
      bag_nil, bag_cons, List.map_nil, List.map_cons, add_zero]
    abel

end Paths

/-! ## Writing a record -/

section Write

variable (o : Options)

/-- How the two ways to a path that is free end: the path that was there before is released where
another takes its place. -/
def PathFreed (path : StringPtr) (p : Option StringPtr) (v : Option (List UInt8))
    (cs : Cells Buffer) : Prop :=
  (p = none ∧ v = none ∧ cs = bag [path.pointer])
    ∨ ∃ p', p = some p' ∧ v = some p'.2 ∧ cs = bag [p'.pointer]

theorem free_path_refines (w : World) (path : StringPtr) :
    Refines (bag [path.pointer]) (free_path_mem o w path) (lift (free_path o w path.2))
      (PathFreed path) := by
  unfold free_path_mem free_path
  split_ifs with htaken hnumbered
  · rw [lift_bind]
    refine refines_lift fun tmp _ => refines_point_to_string fun q => ?_
    have hfreed : Refines (bag [path.pointer] + bag [StringPtr.pointer (q, tmp)])
        (free_all [path.pointer] >>= fun _ => pure (some (q, tmp))) (lift (pure (some tmp)))
        (PathFreed path) := refines_free_all (refines_pure (.inr ⟨(q, tmp), rfl, rfl, rfl⟩))
    refine hfreed.of_eq ?_
    simp only [bag_cons, bag_nil, add_zero]
    abel
  · exact refines_pure (.inl ⟨rfl, rfl, rfl⟩)
  · exact refines_pure (.inr ⟨path, rfl, rfl, rfl⟩)

theorem pointers_live (f : FileMem) (path : StringPtr) :
    ∀ p ∈ path.pointer :: f.pointers, p ∈ bag [path.pointer] + bag f.blocks := by
  intro p hp
  rw [← bag_append, mem_bag, List.singleton_append]
  exact List.cons_subset_cons _ (List.subset_cons_self ..) hp

theorem extract_file_refines (f : FileMem) (path : StringPtr) :
    Refines (bag [path.pointer] + bag f.blocks) (extract_file_mem o f path)
      (extract_file o f.val path.2) fun p v cs =>
        ∃ cs', PathFreed path p v cs' ∧ cs = cs' + bag f.blocks := by
  rw [extract_file_mem, extract_file]
  refine refines_look_at (pointers_live f path)
    (refines_lift fun name _ => refines_onWorld fun yes => ?_)
  cases yes with
  | false => exact refines_pure ⟨_, .inl ⟨rfl, rfl, rfl⟩, rfl⟩
  | true =>
    rw [if_pos rfl, if_pos rfl]
    refine refines_onWorld fun w => (free_path_refines o w path).bind_frame ?_
    rintro p v cs (⟨rfl, rfl, rfl⟩ | ⟨p', rfl, rfl, rfl⟩)
    · exact refines_pure ⟨_, .inl ⟨rfl, rfl, rfl⟩, rfl⟩
    · refine refines_look_at (by simp) (refines_onWorld fun _ => refines_pure ?_)
      exact ⟨_, .inr ⟨p', rfl, rfl, rfl⟩, rfl⟩

/-- Behind the listing nothing is left of the path. -/
theorem list_written_refines {f : FileMem} {path : StringPtr} {p : Option StringPtr}
    {v : Option (List UInt8)} {cs : Cells Buffer} (hp : PathFreed path p v cs) :
    Refines (cs + bag f.blocks) (list_written_mem o f p >>= fun _ => pure f)
      (list_written o f.val v >>= fun _ => pure (path_lost path.2 v)) fun f' lost cs =>
        f'.self = f.self ∧ Leaves (bag f'.blocks) lost cs := by
  rcases hp with ⟨rfl, rfl, rfl⟩ | ⟨path', rfl, rfl, rfl⟩
  · exact refines_pure ⟨rfl, bag [path.pointer], add_comm .., rfl⟩
  · simp only [list_written_mem, bind_assoc]
    exact refines_look_at (pointers_live f path') (refines_onWorld fun _ =>
      refines_free_all (refines_pure ⟨rfl, leaves_nothing _⟩))

/-- **Writing a record** leaves its path where it returns early. -/
theorem file_write_refines (directory : Option (List UInt8)) {f : FileMem}
    (hfresh : f.path = none) :
    Refines (bag f.blocks) (file_write_mem o directory f) (file_write_lost o directory f.val)
      fun f' lost cs => f'.self = f.self ∧ Leaves (bag f'.blocks) lost cs := by
  rw [file_write_mem, file_write_lost]
  refine refines_look_at (fun p hp => mem_bag.mpr hp) (refines_onWorld fun _ => ?_)
  refine (file_path_refines o directory hfresh).bind ?_
  rintro ⟨f₁, path⟩ ⟨file, _⟩ _ ⟨rfl, rfl, hself, rfl⟩
  have hpath : bag f₁.blocks + {path.pointer} = bag [path.pointer] + bag f₁.blocks := by
    rw [bag_cons, bag_nil, add_zero, add_comm]
  rw [← hself]
  refine Refines.of_eq ?_ hpath
  by_cases hlist : o.list
  · simp only [hlist]
    exact list_written_refines o (.inr ⟨path, rfl, rfl, rfl⟩)
  · simp only [hlist]
    refine (extract_file_refines o f₁ path).bind ?_
    rintro p v _ ⟨cs, hp, rfl⟩
    exact list_written_refines o hp

theorem refines_file_free {α γ : Type} {pre : Cells Buffer} {z : Run γ}
    {after : α → γ → Cells Buffer → Prop} {f : FileMem} {k : FileMem → MemRun α}
    (h : Refines (bag [f.self_pointer] + pre) (k { self := f.self }) z after) :
    Refines (bag f.blocks + pre) (file_free_mem f >>= k) z after := by
  have hblocks : bag f.blocks = bag f.pointers + bag [f.self_pointer] := by
    simp only [FileMem.blocks, bag_cons, bag_nil, add_zero]
    abel
  simp only [file_free_mem, bind_assoc]
  refine refines_look_at (by simp [FileMem.blocks]) ?_
  rw [hblocks, add_assoc]
  exact refines_free_all h

/-- The blocks of the pending record, where there is one. -/
def file_blocks (file : Option FileMem) : List Pointer := file.elim [] FileMem.blocks

/-- No path has been worked out yet for the pending record. -/
def Pending (file : Option FileMem) : Prop := ∀ f, file = some f → Ready o f.val

theorem Ready.path_none {o : Options} {f : FileMem} (h : Ready o f.val) : f.path = none := by
  simpa [FileMem.val] using h.fresh

theorem begin_file_refines (directory : Option (List UInt8)) {file : Option FileMem}
    (hfile : Pending o file) : Refines (bag (file_blocks file)) (begin_file_mem o directory file)
      (begin_file_lost o directory (file.map FileMem.val)) fun file' r cs =>
        file'.map FileMem.val = r.1 ∧ Pending o file' ∧ Leaves (bag (file_blocks file')) r.2 cs := by
  have hempty : ∀ self, Pending o (some { self := self }) := by
    rintro self f ⟨⟩
    exact ready_empty o
  cases file with
  | none =>
    rw [begin_file_mem, Option.map_none, begin_file_lost]
    refine refines_lift fun _ _ => refines_alloc fun self =>
      refines_pure ⟨rfl, hempty self, 0, ?_, rfl⟩
    simp [file_blocks, FileMem.blocks, FileMem.pointers, FileMem.self_pointer]
  | some f =>
    rw [begin_file_mem, Option.map_some, begin_file_lost]
    refine (file_write_refines o directory (hfile f rfl).path_none).bind ?_
    rintro f' lost _ ⟨-, left, rfl, hleft⟩
    refine refines_file_free (refines_pure ⟨rfl, hempty f'.self, left, ?_, hleft⟩)
    simp [file_blocks, FileMem.blocks, FileMem.pointers, FileMem.self_pointer]

theorem write_pending_refines (directory : Option (List UInt8)) {file : Option FileMem}
    (hfile : Pending o file) : Refines (bag (file_blocks file)) (write_pending_mem o directory file)
      (write_pending_lost o directory (file.map FileMem.val)) fun _ lost cs =>
        cs.map Prod.snd = lost := by
  cases file with
  | none => exact refines_pure rfl
  | some f =>
    rw [write_pending_mem, Option.map_some, write_pending_lost,
      ← bind_pure (file_write_lost o directory f.val)]
    refine (file_write_refines o directory (hfile f rfl).path_none).bind ?_
    rintro f' lost _ ⟨-, left, rfl, hleft⟩
    refine refines_file_free ?_
    rw [← bind_pure (free_all _)]
    exact refines_free_all (refines_pure hleft)

end Write

/-! ## Releasing the bodies -/

section Release

variable {α γ : Type} {pre : Cells Buffer} {z : Run γ} {after : α → γ → Cells Buffer → Prop}
  {k : Unit → MemRun α}

theorem refines_free_bodies (b : BodiesMem)
    (h : Refines (bag [b.array_pointer] + pre) (k ()) z after) : ∀ n, n ≤ b.items.1.length →
    Refines (bag (b.items.1.take n).flatten + (bag [b.array_pointer] + pre))
      (free_bodies b n >>= k) z after := by
  intro n
  induction n with
  | zero =>
    intro _
    exact h.of_eq (zero_add _)
  | succ n ih =>
    intro hn
    have hget : b.items.1[n]? = some b.items.1[n] := List.getElem?_eq_getElem hn
    have htake : b.items.1.take (n + 1) = b.items.1.take n ++ [b.items.1[n]] :=
      (List.take_concat_get' b.items.1 n hn).symm
    simp only [free_bodies, bind_assoc, hget, htake, List.flatten_append, List.flatten_singleton,
      bag_append]
    refine refines_look_at (by simp) ?_
    rw [add_comm (bag (b.items.1.take n).flatten), add_assoc]
    exact refines_free_all (ih (by omega))

/-- Behind what the size counts there is nothing. -/
theorem Counted.take_items {b : BodiesMem} {size : ℕ} (h : Counted (some b) size) :
    size ≤ b.items.1.length ∧ (b.items.1.take size).flatten = b.items.1.flatten := by
  obtain ⟨-, ds, rfl, hbodies⟩ := h
  have hitems : b.items.1.map (List.map Prod.snd) = ds.map body_blocks ++ [[]] := by
    rw [b.items.2, hbodies, List.map_append]
    rfl
  have hlen : b.items.1.length = ds.length + 1 := by simpa using congrArg List.length hitems
  have hrest : (b.items.1.drop ds.length).map (List.map Prod.snd) = [[]] := by
    rw [List.map_drop, hitems]
    simp
  have hlast : (b.items.1.drop ds.length).flatten = [] := by
    have hflat := congrArg List.flatten hrest
    rw [← List.map_flatten] at hflat
    exact List.map_eq_nil_iff.mp hflat
  refine ⟨by omega, ?_⟩
  conv_rhs => rw [← List.take_append_drop ds.length b.items.1, List.flatten_append, hlast,
    List.append_nil]

theorem refines_free_array {b : BodiesMem} {size : ℕ} (hsize : Counted (some b) size)
    (h : Refines pre (k ()) z after) :
    Refines (bag b.blocks + pre) (free_array (some b) size >>= k) z after := by
  obtain ⟨hle, htake⟩ := hsize.take_items
  simp only [free_array, bind_assoc]
  refine (refines_free_bodies b (refines_free_all h) size hle).of_eq ?_
  rw [htake, BodiesMem.blocks, ← List.singleton_append, bag_append]
  abel

/-- An array is released where its size says that there is one. -/
theorem refines_free_sized {bodies : Option BodiesMem} {size : ℕ} (hsize : Counted bodies size)
    (h : Refines pre (k ()) z after) :
    Refines (bag (bodies_blocks bodies) + pre) (free_sized bodies size >>= k) z after := by
  cases bodies with
  | none =>
    have hzero : ¬ size > 0 := by
      rw [show size = 0 from hsize]
      exact lt_irrefl 0
    rw [free_sized, if_neg hzero]
    exact h.of_eq (zero_add pre)
  | some b =>
    rw [free_sized, if_pos hsize.1]
    exact refines_free_array hsize h

theorem refines_free_text {text_body : Option BodiesMem}
    (hsize : Counted text_body (text_body.elim 0 fun _ => 1)) (h : Refines pre (k ()) z after) :
    Refines (bag (bodies_blocks text_body) + pre) (free_text text_body >>= k) z after := by
  cases text_body with
  | none => exact h.of_eq (zero_add pre)
  | some b => exact refines_free_array hsize h

end Release

/-! ## The run -/

section Stream

variable (o : Options) (directory : Option (List UInt8))

def StateMem.blocks (s : StateMem) : List Pointer := file_blocks s.file ++ s.body.blocks

/-- What the loop keeps true of its variables. -/
structure StateMem.Kept (s : StateMem) : Prop where
  file : Pending o s.file
  body : s.body.Sized

theorem add_attr_refines {s : StateMem} (hs : s.Kept o) (attr : AttrMem) :
    Refines (bag s.blocks + bag attr.blocks) (add_attr_mem o attr s)
      (lift (add_attr o attr.attr s.val)) fun s' v cs => s'.val = v ∧ s'.Kept o
        ∧ Leaves (bag s'.blocks + bag attr.blocks) (attr_lost o attr.attr s.val) cs := by
  obtain ⟨file, body⟩ := s
  have hlook : ∀ p ∈ attr.blocks, p ∈ bag (StateMem.blocks ⟨file, body⟩) + bag attr.blocks :=
    fun p hp => Multiset.mem_add.mpr (.inr (mem_bag.mpr hp))
  rw [add_attr_mem]
  refine refines_look_at hlook ?_
  unfold add_attr attr_lost
  cases hlevel : attr.attr.lvl_type with
  | LVL_MESSAGE =>
    have hframe : bag (StateMem.blocks ⟨file, body⟩) + bag attr.blocks
        = bag body.blocks + bag attr.blocks + bag (file_blocks file) := by
      simp only [StateMem.blocks, bag_append]
      abel
    simp only [lift_bind, hframe]
    refine (message_attr_refines o hs.body attr).bind_frame ?_
    rintro body' v _ ⟨rfl, hbody', left, rfl, hleft⟩
    refine refines_pure ⟨rfl, ⟨hs.file, hbody'⟩, left, ?_, hleft⟩
    simp only [StateMem.blocks, bag_append]
    abel
  | LVL_ATTACHMENT =>
    cases file with
    | none => exact refines_throw _
    | some f =>
      have hframe : bag (StateMem.blocks ⟨some f, body⟩) + bag attr.blocks
          = bag f.blocks + bag attr.blocks + bag body.blocks := by
        simp only [StateMem.blocks, file_blocks, Option.elim_some, bag_append]
        abel
      simp only [StateMem.val, Option.map_some, lift_bind, hframe]
      refine (file_add_attr_refines o f attr).of_lift.bind_frame ?_
      rintro f' v _ ⟨hadd, rfl, left, rfl, hleft⟩
      have hready : Pending o (some f') := by
        rintro _ ⟨⟩
        exact file_add_attr_ready (hs.file f rfl) hadd
      refine refines_pure ⟨rfl, ⟨hready, hs.body⟩, left, ?_, hleft⟩
      simp only [StateMem.blocks, file_blocks, Option.elim_some, bag_append]
      abel

/-- The run with pointers beside the one with the account: what is live belongs to the variables
of the loop, or is in the account. -/
def InAccount (s : StateMem) (v : ParseState × Multiset Buffer) (cs : Cells Buffer) : Prop :=
  s.val = v.1 ∧ s.Kept o ∧ Leaves (bag s.blocks) v.2 cs

/-- The rest of a turn, once the record of the attribute is there. -/
theorem turn_refines {a : AttrMem} {s : StateMem} (hs : s.Kept o) {lost lost' : Multiset Buffer}
    {left left' : Cells Buffer} (hleft : left.map Prod.snd = lost)
    (hleft' : left'.map Prod.snd = lost') :
    Refines (bag s.blocks + left' + (left + bag a.blocks))
      (add_attr_mem o a s >>= fun s' => attr_free a >>= fun _ => pure s')
      (lift (add_attr o a.attr s.val)
        >>= fun v => pure (v, lost + lost' + attr_lost o a.attr s.val))
      (InAccount o) := by
  have hframe : bag s.blocks + left' + (left + bag a.blocks)
      = bag s.blocks + bag a.blocks + (left + left') := by
    abel
  rw [hframe]
  refine (add_attr_refines o hs a).bind_frame ?_
  rintro s' v _ ⟨rfl, hs', left'', rfl, hleft''⟩
  rw [add_comm (bag s'.blocks), add_assoc, add_assoc]
  refine refines_attr_free (refines_pure ⟨rfl, hs', left + left' + left'', ?_, ?_⟩)
  · abel
  · rw [Multiset.map_add, Multiset.map_add, hleft, hleft', hleft'']

/-- **One turn of the reading loop.** -/
theorem parse_attr_refines (attr : Attr) {s : StateMem} {v : ParseState × Multiset Buffer}
    {cs : Cells Buffer} (h : InAccount o s v cs) :
    Refines cs (parse_attr_mem o directory attr s) (parse_attr_lost o directory attr v)
      (InAccount o) := by
  obtain ⟨v, lost⟩ := v
  obtain ⟨rfl, hs, left, rfl, hleft⟩ := h
  rw [parse_attr_mem, parse_attr_lost]
  refine refines_attr_alloc fun a ha => ?_
  subst ha
  have hframe : bag a.blocks + (bag s.blocks + left)
      = bag (file_blocks s.file) + (bag s.body.blocks + (left + bag a.blocks)) := by
    simp only [StateMem.blocks, bag_append]
    abel
  rw [hframe]
  by_cases hbegin : a.attr.name = attATTACHRENDDATA
  · simp only [if_pos hbegin]
    refine (begin_file_refines o directory hs.file).bind_frame ?_
    rintro file' ⟨_, lost'⟩ _ ⟨rfl, hfile', left', rfl, hleft'⟩
    have hs' : StateMem.Kept o { s with file := file' } := ⟨hfile', hs.body⟩
    refine (turn_refines o hs' hleft hleft').of_eq ?_
    simp only [StateMem.blocks, bag_append]
    abel
  · simp only [if_neg hbegin]
    have hnone : (0 : Cells Buffer).map Prod.snd = 0 := rfl
    refine (turn_refines o hs hleft hnone).of_eq ?_
    simp only [StateMem.blocks, bag_append]
    abel

/-- What the reading loop does with an input, whatever its body. -/
inductive LoopTurn (o : Options) (inp : Input) : Prop
  | stops (e : Stop) (h : ∀ {ω σ : Type} (x : Attr → σ → Act Stop ω σ) (s : σ),
      attr_loop o x inp s = throw e)
  | leaves (inp' : Input) (h : ∀ {ω σ : Type} (x : Attr → σ → Act Stop ω σ) (s : σ),
      attr_loop o x inp s = pure (inp', s))
  | turns (attr : Attr) (inp' : Input) (hlt : inp'.rest.length < inp.rest.length)
      (h : ∀ {ω σ : Type} (x : Attr → σ → Act Stop ω σ) (s : σ),
        attr_loop o x inp s = x attr s >>= attr_loop o x inp')

theorem loop_turn (inp : Input) : LoopTurn o inp := by
  rcases hleft : data_left o inp with e | _ | _
  · refine .stops e fun x s => ?_
    rw [attr_loop, hleft]
    rfl
  · exact .leaves inp fun x s => attr_loop_stop hleft
  · rcases hobject : read_object o inp with e | ⟨_ | attr, inp'⟩
    · exact .stops e fun x s => attr_loop_error hleft hobject
    · exact .leaves inp' fun x s => attr_loop_end hleft hobject
    · exact .turns attr inp' (read_object_length_lt hobject) fun x s =>
        attr_loop_attr hleft hobject

/-- **The reading loop**, over bodies that refine one another. -/
theorem attr_loop_refines {ω β σ τ : Type} {R : σ → τ → Cells β → Prop}
    {x : Attr → σ → HAct Stop β ω σ} {y : Attr → τ → Act Stop ω τ}
    (hbody : ∀ attr s t cs, R s t cs → Refines cs (x attr s) (y attr t) R) (inp : Input) :
    ∀ {s t cs}, R s t cs → Refines cs (attr_loop o x inp s) (attr_loop o y inp t)
      fun r r' cs => r.1 = r'.1 ∧ R r.2 r'.2 cs := by
  -- on the length of what is left
  induction hn : inp.rest.length using Nat.strong_induction_on generalizing inp with
  | _ n ih =>
    intro s t cs hst
    cases loop_turn o inp with
    | stops e h =>
      rw [h, h]
      exact refines_throw e
    | leaves inp' h =>
      rw [h, h]
      exact refines_pure ⟨rfl, hst⟩
    | turns attr inp' hlt h =>
      rw [h, h]
      exact (hbody attr s t cs hst).bind fun s' t' cs' hst' => ih _ (hn ▸ hlt) inp' rfl hst'

/-- **What is live when the run returns is what the account says.** -/
theorem parse_file_refines (inp : Input) : Refines 0 (parse_file_mem o directory inp)
    (parse_file_lost o directory inp) fun n r cs => n = r.1 ∧ cs.map Prod.snd = r.2 := by
  rw [parse_file_mem, parse_file_lost]
  refine refines_lift ?_
  rintro ⟨_ | _, inp'⟩ -
  · exact refines_onWorld fun _ => refines_pure ⟨rfl, rfl⟩
  have hempty : InAccount o {} ({}, 0) 0 :=
    ⟨rfl, ⟨by rintro f ⟨⟩, ⟨rfl, rfl, rfl⟩⟩, leaves_nothing _⟩
  have hloop := attr_loop_refines o
    (fun attr s v cs h => parse_attr_refines o directory attr h) inp' hempty
  refine hloop.bind ?_
  rintro ⟨_, s⟩ ⟨_, v, lost⟩ _ ⟨rfl, rfl, hs, left, rfl, hleft⟩
  have hblocks : bag s.blocks + left
      = bag (file_blocks s.file) + (bag (bodies_blocks s.body.text_body)
        + (bag (bodies_blocks s.body.rtf_bodies)
          + (bag (bodies_blocks s.body.html_bodies) + left))) := by
    simp only [StateMem.blocks, BodyMem.blocks, bag_append]
    abel
  simp only [finish_file_mem, hblocks]
  refine (write_pending_refines o directory hs.file).bind_frame ?_
  rintro _ lost' cs hlost'
  rw [add_comm cs, add_assoc, add_assoc, add_assoc]
  refine refines_free_text hs.body.text (refines_free_sized hs.body.rtf
    (refines_free_sized hs.body.html (refines_pure ⟨rfl, ?_⟩)))
  rw [Multiset.map_add, hleft, hlost']

/-! ### Without the account -/

theorem file_write_lost_run (file : File) :
    (fun _ => ()) <$> file_write_lost o directory file = file_write o directory file := by
  simp only [file_write_lost, file_write, map_bind]
  congr 1
  funext _
  congr 1
  funext r
  split_ifs <;> simp only [map_bind, map_pure, bind_pure_unit]

theorem begin_file_lost_run (file : Option File) :
    Prod.fst <$> begin_file_lost o directory file = begin_file o directory file := by
  cases file with
  | none => simp only [begin_file_lost, begin_file, map_bind, map_pure]
  | some file =>
    simp only [begin_file_lost, begin_file, map_bind, map_pure, ← file_write_lost_run,
      bind_map_left]

theorem parse_attr_lost_run (attr : Attr) (v : ParseState × Multiset Buffer) :
    Prod.fst <$> parse_attr_lost o directory attr v = parse_attr o directory attr v.1 := by
  unfold parse_attr_lost parse_attr
  split_ifs
  · simp only [map_bind, map_pure, bind_pure, ← begin_file_lost_run, bind_map_left]
  · simp only [map_bind, map_pure, bind_pure, pure_bind]

theorem write_pending_lost_run (file : Option File) :
    (fun _ => ()) <$> write_pending_lost o directory file = write_pending o directory file := by
  cases file with
  | none => rfl
  | some file => exact file_write_lost_run o directory file

theorem attr_loop_map {ω σ τ : Type} {f : σ → τ} {x : Attr → σ → Act Stop ω σ}
    {y : Attr → τ → Act Stop ω τ} (hbody : ∀ attr s, f <$> x attr s = y attr (f s)) (inp : Input) :
    ∀ s, (fun r => (r.1, f r.2)) <$> attr_loop o x inp s = attr_loop o y inp (f s) := by
  -- on the length of what is left
  induction hn : inp.rest.length using Nat.strong_induction_on generalizing inp with
  | _ n ih =>
    intro s
    cases loop_turn o inp with
    | stops e h =>
      rw [h, h]
      rfl
    | leaves inp' h => rw [h, h, map_pure]
    | turns attr inp' hlt h =>
      have hrest := ih _ (hn ▸ hlt) inp' rfl
      rw [h, h, ← hbody, map_bind, bind_map_left]
      simp only [hrest]

/-- The account takes nothing from the run. -/
theorem parse_file_lost_run (hbody : o.savebody = false) (body_filename body_pref : List UInt8)
    (inp : Input) : Prod.fst <$> parse_file_lost o directory inp
      = parse_file o directory body_filename body_pref inp := by
  unfold parse_file_lost parse_file
  rw [map_bind]
  congr 1
  funext ⟨known, inp'⟩
  cases known with
  | false => simp only [Bool.false_eq_true, if_false, map_bind, map_pure]
  | true =>
    have hloop := attr_loop_map o (parse_attr_lost_run o directory) inp' ({}, 0)
    simp only [if_true, finish_file, save_bodies, hbody, Bool.false_eq_true, if_false,
      ← write_pending_lost_run, ← hloop, map_bind, map_pure, bind_map_left, pure_bind]

/-- **The run with pointers ends as the run without them does**: no block is released twice, or
looked at when it is gone. When it returns, what has not been released is what the account
says; there the block of a path is as long as its text, not what `concat_fname` asks for. -/
theorem parse_file_leaks (hbody : o.savebody = false) (body_filename body_pref : List UInt8)
    (inp : Input) (w : World) :
    ∃ heap, exec (parse_file_mem o directory inp) ⟨{}, w⟩
        = ((exec (parse_file o directory body_filename body_pref inp) w).1,
            ⟨heap, (exec (parse_file o directory body_filename body_pref inp) w).2⟩)
      ∧ ∀ n w', exec (parse_file o directory body_filename body_pref inp) w = (.ok n, w') →
        ∃ lost, exec (parse_file_lost o directory inp) w = (.ok (n, lost), w')
          ∧ (cells heap).map Prod.snd = lost := by
  have hempty : cells ({} : HeapModel.Heap Buffer) = 0 + 0 := cells_empty.trans (zero_add 0).symm
  have hrefines := parse_file_refines o directory inp
  rw [← parse_file_lost_run o directory hbody, ← bind_pure_comp, exec_bind]
  rcases hlost : exec (parse_file_lost o directory inp) w with ⟨e | ⟨n, lost⟩, w'⟩
  · obtain ⟨heap, hmem⟩ := hrefines.stops (s := ⟨{}, w⟩) hempty hlost
    refine ⟨heap, hmem, ?_⟩
    rintro n w'' ⟨⟩
  · obtain ⟨_, cs, heap, hmem, ⟨rfl, hcs⟩, hheap⟩ := hrefines.returns (s := ⟨{}, w⟩) hempty hlost
    refine ⟨heap, hmem, ?_⟩
    rintro _ _ ⟨⟩
    refine ⟨lost, rfl, ?_⟩
    rw [hheap, add_zero, hcs]

end Stream

theorem second_title_fits : (ascii "b").length < 2 ^ 32 := by decide

/-- A record with two titles. -/
def title_twice : List (Attr × UInt16) :=
  ([⟨.LVL_ATTACHMENT, szBYTE, attATTACHRENDDATA, [], no_data_fits⟩,
    ⟨.LVL_ATTACHMENT, szSTRING, attATTACHTITLE, ascii "a", title_fits⟩,
    ⟨.LVL_ATTACHMENT, szSTRING, attATTACHTITLE, ascii "b", second_title_fits⟩] : List Attr).map
    fun attr => (attr, byte_sum attr.data)

/-- The first of the titles is left. -/
theorem parse_file_leaks_witness :
    let o : Options := { list := true }
    let inp : Input := { rest := stream 0 title_twice }
    ∃ heap, exec (parse_file_mem o none inp) ⟨{}, {}⟩
        = ((exec (parse_file o none [] [] inp) {}).1,
            ⟨heap, (exec (parse_file o none [] [] inp) {}).2⟩)
      ∧ (cells heap).map Prod.snd = {strdup (ascii "a")} := by
  obtain ⟨heap, hrun, hreturns⟩ := parse_file_leaks { list := true } none rfl [] []
    { rest := stream 0 title_twice } {}
  have hresult : (exec (parse_file { list := true } none [] [] { rest := stream 0 title_twice }) {}).1
      = .ok 0 := by
    decide +kernel
  have haccount : (exec (parse_file_lost { list := true } none
      { rest := stream 0 title_twice }) {}).1 = .ok (0, {strdup (ascii "a")}) := by
    decide +kernel
  obtain ⟨lost, hlost, hcells⟩ := hreturns 0 _ (Prod.ext hresult rfl)
  rw [hlost] at haccount
  cases haccount
  exact ⟨heap, hrun, hcells⟩

end Tnef
