/-
What is left on the heap.

What a run has not released when it returns is counted by functions without
pointers (`parse_file_lost`): the property list of an attribute with a type that is refused, the
objects of the others, a title, data or an array of bodies that another takes the place of, and the
path of a record that is not written. Here the functions with pointers are held against them, up to
the records and the bodies; the paths and the run are in `RunLeaks.lean`.
-/
import Mathlib.Tactic.Abel
import Tnef.Calls
import Tnef.FileOrder
import Tnef.Pointers

set_option autoImplicit false

namespace Tnef

open ExceptRules Stateful Ownership

/-! ## What is not released -/

def property_blocks (a : MAPI_Attr) : List Buffer :=
  value_blocks a ++ (name_blocks a ++ (.raw (a.num_values * sizeof_MAPI_Value)
    :: (guid_blocks a ++ [.raw sizeof_MAPI_Attr])))

/-- The blocks of a property whose type is refused. -/
def refused_blocks (o : Options) (len : ℕ) (buf : List UInt8) (idx : ℕ) : List Buffer :=
  match read_header o len buf idx with
  | .error _ => []
  | .ok (a, idx) =>
    match read_num_values len buf a.type idx with
    | .error _ => []
    | .ok (num_values, _) => name_blocks a ++ (.raw (num_values * sizeof_MAPI_Value)
      :: (guid_blocks a ++ [.raw sizeof_MAPI_Attr]))

/-- The blocks of the properties in front of the one that is refused, and its own. -/
def abandoned_blocks (o : Options) (len : ℕ) (buf : List UInt8) : ℕ → ℕ → List Buffer
  | 0, _ => []
  | n + 1, idx =>
    match read_property o len buf idx with
    | .error _ => []
    | .ok none => refused_blocks o len buf idx
    | .ok (some (a, idx')) => property_blocks a ++ abandoned_blocks o len buf n idx'

/-- The values `mapi_attr_free` passes over. -/
def kept_blocks (a : MAPI_Attr) : List Buffer :=
  if released_type a.type then [] else value_blocks a

/-- What the property list of an attribute leaves. -/
def list_lost (o : Options) (attr : Attr) : Multiset Buffer :=
  match mapi_attr_read o attr.len attr.buf, GETINT32 attr.buf 0 with
  | .ok (some attrs), _ => (attrs.reduceOption.flatMap kept_blocks : List Buffer)
  | .ok none, .ok num_properties =>
    (.raw ((num_properties.toNat + 1) * sizeof_ptr)
      :: abandoned_blocks o attr.len attr.buf num_properties.toNat 4 : List Buffer)
  | _, _ => 0

/-- What adding an attribute to a record leaves. -/
def record_lost (o : Options) (file : File) (attr : Attr) : Multiset Buffer :=
  if attr.name = attATTACHMENT then list_lost o attr
  else if attr.name = attATTACHMODIFYDATE then 0
  else if attr.name = attATTACHTITLE then (file.name.toList : List Buffer)
  else if attr.name = attATTACHDATA then (file.data.toList : List Buffer)
  else 0

/-- An array of bodies that another takes the place of. -/
def bodies_lost (bodies : Option (List (Option VarLenData))) : Multiset Buffer :=
  match bodies with
  | none => 0
  | some bodies => (.raw (bodies.length * sizeof_ptr) :: bodies.flatMap body_blocks : List Buffer)

def property_lost (body : MessageBody) (a : MAPI_Attr) : Multiset Buffer :=
  if a.type = szMAPI_BINARY ∧ a.name = MAPI_BODY_HTML then bodies_lost body.html_bodies
  else if a.type = szMAPI_BINARY ∧ a.name = MAPI_RTF_COMPRESSED then bodies_lost body.rtf_bodies
  else 0

def properties_lost (o : Options) : MessageBody → List (Option MAPI_Attr) → Multiset Buffer
  | body, some a :: attrs =>
    match message_property o body a with
    | .error _ => 0
    | .ok body' => property_lost body a + properties_lost o body' attrs
  | _, _ => 0

/-- What an attribute of the message leaves. -/
def message_lost (o : Options) (body : MessageBody) (attr : Attr) : Multiset Buffer :=
  if attr.name = attBODY then bodies_lost body.text_body
  else if attr.name = attMAPIPROPS then
    match mapi_attr_read o attr.len attr.buf with
    | .ok (some attrs) => properties_lost o body attrs + list_lost o attr
    | _ => list_lost o attr
  else 0

def attr_lost (o : Options) (attr : Attr) (s : ParseState) : Multiset Buffer :=
  match attr.lvl_type, s.file with
  | .LVL_MESSAGE, _ => message_lost o s.body attr
  | .LVL_ATTACHMENT, some file => record_lost o file attr
  | .LVL_ATTACHMENT, none => 0

/-- The path is released behind the listing only. -/
def path_lost (path : List UInt8) : Option (List UInt8) → Multiset Buffer
  | none => {strdup path}
  | some _ => 0

/-- `file_write`, with the path of a record that is not written. -/
def file_write_lost (o : Options) (directory : Option (List UInt8)) (file : File) :
    Run (Multiset Buffer) := do
  modify fun w => { w with calls := w.calls ++ [file] }
  let (file, path) ← lift (file_path o directory file)
  let p ← if ¬ o.list then extract_file o file path else pure (some path)
  list_written o file p
  return path_lost path p

def begin_file_lost (o : Options) (directory : Option (List UInt8)) (file : Option File) :
    Run (Option File × Multiset Buffer) :=
  match file with
  | some file => do
    let lost ← file_write_lost o directory file
    return (some (file_free file), lost)
  | none => do
    let _ ← lift (checked_xcalloc o 1 sizeof_File 0)
    return (some {}, 0)

/-- One turn of the loop, with what the turns so far have left. -/
def parse_attr_lost (o : Options) (directory : Option (List UInt8)) (attr : Attr)
    (s : ParseState × Multiset Buffer) : Run (ParseState × Multiset Buffer) := do
  let (file, lost) ← if attr.name = attATTACHRENDDATA then begin_file_lost o directory s.1.file
    else pure (s.1.file, 0)
  let s' ← lift (add_attr o attr { s.1 with file := file })
  return (s', s.2 + lost + attr_lost o attr { s.1 with file := file })

def write_pending_lost (o : Options) (directory : Option (List UInt8)) (file : Option File) :
    Run (Multiset Buffer) :=
  match file with
  | none => return 0
  | some file => file_write_lost o directory file

/-- `parse_file` without `--save-body`, with what it leaves on the heap. -/
def parse_file_lost (o : Options) (directory : Option (List UInt8)) (inp : Input) :
    Run (ℕ × Multiset Buffer) := do
  let (known, inp) ← lift (read_signature inp)
  if known then
    let (_, s, lost) ← attr_loop o (parse_attr_lost o directory) inp ({}, 0)
    let lost' ← write_pending_lost o directory s.file
    return (0, lost + lost')
  else do
    print (ascii "Seems not to be a TNEF file\n")
    return (1, 0)

/-! ## Steps -/

section Steps

variable {α γ : Type} {pre : Cells Buffer} {z : Run γ} {after : α → γ → Cells Buffer → Prop}

/-- Reading through pointers to blocks that are held. -/
theorem refines_look_at {ps : List Pointer} {k : Unit → MemRun α} (hps : ∀ p ∈ ps, p ∈ pre)
    (h : Refines pre (k ()) z after) : Refines pre (look_at ps >>= k) z after :=
  refines_touchAll hps h

/-- Releasing blocks that are held: they are gone from what comes after. -/
theorem refines_free_all {ps : List Pointer} {k : Unit → MemRun α}
    (h : Refines pre (k ()) z after) : Refines (bag ps + pre) (free_all ps >>= k) z after :=
  refines_releaseAll h

/-- A new block is held by what comes after, -/
theorem refines_point {b : Buffer} {k : Pointer → MemRun α}
    (h : ∀ p, Refines ({(p, b)} + pre) (k (p, b)) z after) :
    Refines pre (point b >>= k) z after := by
  rw [point, bind_assoc]
  refine refines_alloc fun p => ?_
  rw [pure_bind]
  exact h p

/-- and so is a new string. -/
theorem refines_point_to_string {s : List UInt8} {k : StringPtr → MemRun α}
    (h : ∀ p, Refines ({StringPtr.pointer (p, s)} + pre) (k (p, s)) z after) :
    Refines pre (point_to_string s >>= k) z after := by
  rw [point_to_string, bind_assoc]
  refine refines_alloc fun p => ?_
  rw [pure_bind]
  exact h p

/-- Where there may be a block or none. -/
theorem refines_point_to {b : Option Buffer} {k : Option Pointer → MemRun α}
    (h : ∀ p, p.map Prod.snd = b → Refines (bag p.toList + pre) (k p) z after) :
    Refines pre (point_to b >>= k) z after := by
  cases b with
  | none =>
    rw [point_to, pure_bind]
    exact (h none rfl).of_eq (zero_add pre).symm
  | some b =>
    rw [point_to, bind_assoc]
    refine refines_point fun p => ?_
    rw [pure_bind]
    exact h (some (p, b)) rfl

/-- The block behind a pointer makes way for another one. -/
theorem refines_replace_pointer {p : Option Pointer} {b : Option Buffer}
    {k : Option Pointer → MemRun α}
    (h : ∀ q, q.map Prod.snd = b → Refines (bag q.toList + pre) (k q) z after) :
    Refines (bag p.toList + pre) (replace_pointer p b >>= k) z after := by
  rw [replace_pointer, bind_assoc]
  exact refines_free_all (refines_point_to h)

/-! ## Attributes and property lists -/

/-- An attribute is read into two blocks. -/
theorem refines_attr_alloc {attr : Attr} {k : AttrMem → MemRun α}
    (h : ∀ a : AttrMem, a.attr = attr → Refines (bag a.blocks + pre) (k a) z after) :
    Refines pre (attr_alloc attr >>= k) z after := by
  rw [attr_alloc, bind_assoc]
  refine refines_alloc fun self => ?_
  rw [bind_assoc]
  refine refines_alloc fun buf => ?_
  rw [pure_bind]
  refine (h ⟨attr, self, buf⟩ rfl).of_eq ?_
  simp only [AttrMem.blocks, bag_cons, bag_nil, add_zero, add_assoc]

/-- Both of them are released with it. -/
theorem refines_attr_free {a : AttrMem} {k : Unit → MemRun α} (h : Refines pre (k ()) z after) :
    Refines (bag a.blocks + pre) (attr_free a >>= k) z after := by
  rw [attr_free, bind_assoc]
  exact refines_look_at (fun p hp => Multiset.mem_add.mpr (.inl (mem_bag.mpr hp)))
    (refines_free_all h)

/-- The blocks of a property hold what the heap-free account says. -/
theorem PropertyMem.contents (r : PropertyMem) : r.blocks.map Prod.snd = property_blocks r.a := by
  simp only [blocks, property_blocks, List.map_append, List.map_cons, List.map_nil, r.bufs.2,
    r.names.2, r.guid.2]
  rfl

/-- So do those of them that are not released. -/
theorem PropertyMem.kept_contents (r : PropertyMem) : r.kept.map Prod.snd = kept_blocks r.a := by
  unfold kept kept_blocks
  split_ifs
  · rfl
  · exact r.bufs.2

/-- The blocks of the values are the released ones and the kept ones. -/
theorem PropertyMem.bag_bufs (r : PropertyMem) : bag r.bufs.1 = bag r.freed + bag r.kept := by
  unfold freed kept
  split_ifs
  · exact (add_zero _).symm
  · exact (zero_add _).symm

/-- **Releasing a property** leaves the blocks of an object. -/
theorem refines_mapi_attr_free {r : PropertyMem} {k : Unit → MemRun α}
    (h : Refines (bag r.kept + pre) (k ()) z after) :
    Refines (bag r.blocks + pre) (mapi_attr_free r >>= k) z after := by
  have hnames : (if r.a.num_names > 0 then r.names.1 else []) = r.names.1 := by
    split_ifs with hpos
    · rfl
    · have hnone : r.names.1.map Prod.snd = [] := by rw [r.names.2, name_blocks, if_neg hpos]
      exact (List.map_eq_nil_iff.mp hnone).symm
  simp only [mapi_attr_free, bind_assoc, hnames]
  refine refines_look_at (by simp [PropertyMem.blocks]) ?_
  refine Refines.of_eq
    (refines_free_all (refines_free_all (refines_free_all (refines_free_all h)))) ?_
  simp only [PropertyMem.blocks, r.bag_bufs, bag_append, bag_cons, bag_nil, add_zero]
  ac_rfl

/-- All blocks of a list of properties, and those that stay when it is released. -/
def props_blocks (props : List PropertyMem) : List Pointer := props.flatMap PropertyMem.blocks

def props_kept (props : List PropertyMem) : List Pointer := props.flatMap PropertyMem.kept

/-- Releasing the properties of a list leaves what of each is kept, by induction on the list. -/
theorem refines_free_props {props : List PropertyMem} {k : Unit → MemRun α}
    (h : Refines (bag (props_kept props) + pre) (k ()) z after) :
    Refines (bag (props_blocks props) + pre) (props.forM mapi_attr_free >>= k) z after := by
  induction props generalizing pre with
  | nil => exact h
  | cons r props ih =>
    have hcons : (r :: props).forM mapi_attr_free >>= k
        = mapi_attr_free r >>= fun _ => props.forM mapi_attr_free >>= k := bind_assoc ..
    have hrest : Refines (bag (props_blocks props) + (bag r.kept + pre))
        (props.forM mapi_attr_free >>= k) z after := by
      refine ih (h.of_eq ?_)
      simp only [props_kept, List.flatMap_cons, bag_append]
      ac_rfl
    rw [hcons]
    have hone : Refines (bag r.blocks + (bag (props_blocks props) + pre))
        (mapi_attr_free r >>= fun _ => props.forM mapi_attr_free >>= k) z after := by
      refine refines_mapi_attr_free (hrest.of_eq ?_)
      ac_rfl
    refine hone.of_eq ?_
    simp only [props_blocks, List.flatMap_cons, bag_append, add_assoc]

def PropertiesMem.blocks (l : PropertiesMem) : List Pointer :=
  l.array_pointer :: props_blocks l.props

/-- Releasing the list with its array. -/
theorem refines_mapi_attr_free_list {l : PropertiesMem} {k : Unit → MemRun α}
    (h : Refines (bag (props_kept l.props) + pre) (k ()) z after) :
    Refines (bag l.blocks + pre) (mapi_attr_free_list l >>= k) z after := by
  simp only [mapi_attr_free_list, bind_assoc]
  refine refines_look_at (by simp [PropertiesMem.blocks]) ?_
  have harray : Refines (bag (props_kept l.props) + (bag [l.array_pointer] + pre))
      (free_all [l.array_pointer] >>= k) z after := by
    refine (refines_free_all h).of_eq ?_
    ac_rfl
  refine (refines_free_props harray).of_eq ?_
  simp only [PropertiesMem.blocks, bag_cons, bag_nil, add_zero]
  ac_rfl

end Steps

/-! ## Reading a property list -/

section Read

variable (o : Options) (len : ℕ) (buf : List UInt8)

/-- How the two readers of a property end. -/
def PropertyRead (idx : ℕ) : Option (PropertyMem × ℕ) → Option (MAPI_Attr × ℕ) → Cells Buffer → Prop
  | none, none, cs => cs.map Prod.snd = (refused_blocks o len buf idx : List Buffer)
  | some (r, j), some (a, j'), cs => j = j' ∧ r.a = a ∧ cs = bag r.blocks
  | _, _, _ => False

/-- Reading one property: it holds its blocks, or the list is given up. -/
theorem read_property_refines (idx : ℕ) : Refines 0 (read_property_mem o len buf idx)
    (lift (read_property o len buf idx)) (PropertyRead o len buf idx) := by
  simp only [read_property_mem, read_property, lift_bind]
  refine refines_lift ?_
  rintro ⟨a, idx₁⟩ hheader
  refine refines_alloc fun self => refines_allocAll fun guid => refines_allocAll fun names =>
    refines_lift ?_
  rintro ⟨num_values, idx₂⟩ hnum
  refine refines_lift fun values _ => refines_alloc fun array => refines_lift ?_
  rintro (_ | s) hvalues
  · refine refines_pure ?_
    have hrefused : refused_blocks o len buf idx = name_blocks a ++
        (.raw (num_values * sizeof_MAPI_Value) :: (guid_blocks a ++ [.raw sizeof_MAPI_Attr])) := by
      simp only [refused_blocks, hheader, hnum]
    have hcontents : (names.1 ++ ((array, Buffer.raw (num_values * sizeof_MAPI_Value))
        :: (guid.1 ++ [(self, Buffer.raw sizeof_MAPI_Attr)]))).map Prod.snd
        = refused_blocks o len buf idx := by
      rw [hrefused, List.map_append, List.map_cons, List.map_append, names.2, guid.2]
      rfl
    show Multiset.map Prod.snd _ = _
    rw [← hcontents, ← bag_contents]
    simp only [bag_append, bag_cons, bag_nil, add_zero]
    ac_rfl
  · refine refines_allocAll fun bufs => refines_pure ⟨rfl, rfl, ?_⟩
    simp only [PropertyMem.blocks, PropertyMem.values_pointer, PropertyMem.self_pointer, bag_append,
      bag_cons, bag_nil, add_zero]
    ac_rfl

/-- How the readers of the properties behind `props` end. -/
def PropertiesRead (idx n : ℕ) (props : List PropertyMem) :
    Option (List PropertyMem) → Option (List MAPI_Attr) → Cells Buffer → Prop
  | none, none, cs => cs.map Prod.snd = ((props_blocks props).map Prod.snd
      ++ abandoned_blocks o len buf n idx : List Buffer)
  | some props', some attrs, cs => attrs = props'.map PropertyMem.a ∧ cs = bag (props_blocks props')
  | _, _, _ => False

/-- Reading them all, by induction on their number, the ones before held along. -/
theorem read_properties_refines (n : ℕ) : ∀ (idx : ℕ) (props : List PropertyMem),
    Refines (bag (props_blocks props)) (read_properties_mem o len buf n idx props)
      (lift (read_properties o len buf n idx (props.map PropertyMem.a)))
      (PropertiesRead o len buf idx n props) := by
  induction n with
  | zero =>
    intro idx props
    exact refines_pure ⟨rfl, rfl⟩
  | succ n ih =>
    intro idx props
    rw [read_properties_mem, read_properties, lift_bind]
    refine Refines.of_eq (c := 0 + bag (props_blocks props)) ?_ (zero_add _).symm
    refine (read_property_refines o len buf idx).of_lift.bind_frame ?_
    rintro (_ | ⟨r, j⟩) (_ | ⟨a, j'⟩) cs ⟨hone, hread⟩
    · refine refines_pure ?_
      show Multiset.map Prod.snd _ = _
      rw [Multiset.map_add, bag_contents, show cs.map Prod.snd = _ from hread, add_comm,
        Multiset.coe_add, abandoned_blocks, hone]
    · exact hread.elim
    · exact hread.elim
    · obtain ⟨rfl, rfl, rfl⟩ := hread
      have hprops : props_blocks (props ++ [r]) = props_blocks props ++ r.blocks := by
        simp [props_blocks]
      have hrest := ih j (props ++ [r])
      rw [List.map_append, List.map_singleton, hprops, bag_append] at hrest
      refine (hrest.of_eq (add_comm ..)).mono ?_
      rintro (_ | props') (_ | attrs) cs' hcs
      · show Multiset.map Prod.snd _ = _
        rw [show cs'.map Prod.snd = _ from hcs, abandoned_blocks, hone, hprops, List.map_append,
          r.contents, List.append_assoc]
      · exact hcs
      · exact hcs
      · exact hcs

end Read

/-! ### The list of an attribute -/

section List

variable {o : Options}

/-- How the two readers of a property list end. -/
def ListRead (o : Options) (attr : AttrMem) :
    Option PropertiesMem → Option (List (Option MAPI_Attr)) → Cells Buffer → Prop
  | none, none, cs => Leaves (bag attr.blocks) (list_lost o attr.attr) cs
  | some l, some attrs, cs => attrs = (l.props.map PropertyMem.a).map some ++ [none]
      ∧ cs = bag attr.blocks + bag l.blocks
  | _, _, _ => False

/-- Reading a list: the attribute stays held, and what has been read of a list that is given
up is left behind. -/
theorem mapi_attr_read_refines (o : Options) (attr : AttrMem) :
    Refines (bag attr.blocks) (mapi_attr_read_mem o attr)
      (lift (mapi_attr_read o attr.attr.len attr.attr.buf)) (ListRead o attr) := by
  simp only [mapi_attr_read_mem, mapi_attr_read, lift_bind]
  refine refines_look_at (fun p hp => mem_bag.mpr hp) ?_
  refine refines_lift fun _ hlen => refines_lift fun num_properties hnum =>
    refines_lift fun _ hwrap => refines_lift fun _ hgrant => refines_alloc fun array => ?_
  have hrest :=
    (read_properties_refines o attr.attr.len attr.attr.buf num_properties.toNat 4 []).of_lift
  refine Refines.of_eq (c := bag (props_blocks []) + _) ?_ (zero_add _).symm
  refine hrest.bind_frame ?_
  rintro (_ | props) (_ | attrs) cs ⟨hprops, hcs⟩
  · have hlist : mapi_attr_read o attr.attr.len attr.attr.buf = .ok none := by
      simp only [mapi_attr_read, hlen, hnum, hwrap, hgrant, ok_bind]
      rw [show read_properties _ _ _ _ _ [] = _ from hprops]
      rfl
    refine refines_pure
      ⟨{(array, Buffer.raw ((num_properties.toNat + 1) * sizeof_ptr))} + cs, ?_, ?_⟩
    · ac_rfl
    · rw [Multiset.map_add, show cs.map Prod.snd = _ from hcs, list_lost, hlist, hnum]
      rfl
  · exact hcs.elim
  · exact hcs.elim
  · obtain ⟨rfl, rfl⟩ := hcs
    refine refines_pure ⟨rfl, ?_⟩
    simp only [PropertiesMem.blocks, PropertiesMem.array_pointer, bag_cons]
    ac_rfl

/-- What is left of a list that has been read. -/
theorem kept_contents {attr : Attr} {props : List PropertyMem}
    (hread : mapi_attr_read o attr.len attr.buf
      = .ok (some ((props.map PropertyMem.a).map some ++ [none]))) :
    (bag (props_kept props)).map Prod.snd = list_lost o attr := by
  have hkept : (props_kept props).map Prod.snd = (props.map PropertyMem.a).flatMap kept_blocks := by
    simp only [props_kept, List.map_flatMap, List.flatMap_map, PropertyMem.kept_contents]
  simp only [list_lost, hread, reduceOption_terminated, bag_contents, hkept]

/-- Every property of the list is in the data. -/
theorem props_at {attr : Attr} {props : List PropertyMem}
    (hread : mapi_attr_read o attr.len attr.buf
      = .ok (some ((props.map PropertyMem.a).map some ++ [none]))) :
    ∀ r ∈ props, ∃ i j, PropertyAt o attr.data i r.a j := by
  obtain ⟨as, has, hat⟩ := mapi_attr_read_properties hread
  have hsame : props.map PropertyMem.a = as :=
    List.map_injective_iff.mpr (Option.some_injective _) (List.append_left_injective _ has)
  intro r hr
  exact hat r.a (hsame ▸ List.mem_map_of_mem hr)

end List

/-! ## Records -/

section Records

variable (o : Options)

/-- The blocks of a record: its own, its strings, its data and its path. -/
theorem FileMem.bag_blocks (f : FileMem) : bag f.blocks = {f.self_pointer} + bag f.name.toList
    + bag f.data.toList + bag f.mime_type.toList + bag f.content_id.toList
    + bag (f.path.toList.map StringPtr.pointer) := by
  simp only [FileMem.blocks, FileMem.pointers, bag_cons, bag_append]
  ac_rfl

section Fields

variable (f : FileMem)

/-- One of the record's pointers can be set apart: the name, -/
theorem FileMem.bag_name :
    bag f.blocks = bag f.name.toList + bag { f with name := none }.blocks := by
  simp only [FileMem.bag_blocks, FileMem.self_pointer, Option.toList_none, bag_nil, add_zero]
  ac_rfl

/-- the data, -/
theorem FileMem.bag_data (len : ℕ) :
    bag f.blocks = bag f.data.toList + bag { f with len := len, data := none }.blocks := by
  simp only [FileMem.bag_blocks, FileMem.self_pointer, Option.toList_none, bag_nil, add_zero]
  ac_rfl

/-- the MIME type, -/
theorem FileMem.bag_mime_type :
    bag f.blocks = bag f.mime_type.toList + bag { f with mime_type := none }.blocks := by
  simp only [FileMem.bag_blocks, FileMem.self_pointer, Option.toList_none, bag_nil, add_zero]
  ac_rfl

/-- and the content id. -/
theorem FileMem.bag_content_id :
    bag f.blocks = bag f.content_id.toList + bag { f with content_id := none }.blocks := by
  simp only [FileMem.bag_blocks, FileMem.self_pointer, Option.toList_none, bag_nil, add_zero]
  ac_rfl

end Fields

/-- **A field takes a new block**, and the one before is released. -/
theorem refines_set_field {f : FileMem} {g : Option Pointer → FileMem} {p : Option Pointer}
    {b : Option Buffer} {file : File} {rest others : Cells Buffer}
    (hbefore : bag f.blocks = bag p.toList + rest)
    (hafter : ∀ q, bag (g q).blocks = bag q.toList + rest)
    (hval : ∀ q, q.map Prod.snd = b → (g q).val = file) :
    Refines (bag f.blocks + others) (replace_pointer p b >>= fun q => pure (g q))
      (pure file : Run File) fun f' file cs => f'.val = file ∧ cs = bag f'.blocks + others := by
  rw [hbefore, add_assoc]
  refine refines_replace_pointer fun q hq => refines_pure ⟨hval q hq, ?_⟩
  rw [hafter, add_assoc]

/-- A property copied into a record: what it takes the place of is released first. -/
theorem file_add_mapi_attr_refines (f : FileMem) (r : PropertyMem) :
    Refines (bag f.blocks + bag r.blocks) (file_add_mapi_attr_mem o f r)
      (lift (file_add_mapi_attr o f.val r.a)) fun f' file cs =>
        f'.val = file ∧ cs = bag f'.blocks + bag r.blocks := by
  rw [file_add_mapi_attr_mem]
  refine refines_look_at (fun p hp => by simpa using hp) (refines_lift_pure fun file hfile => ?_)
  unfold file_add_mapi_attr at hfile
  split_ifs at hfile ⊢ with hnum hname hdata hmime hcid
  · simp only [bind_eq_ok, pure_eq_ok, Except.ok.injEq] at hfile
    obtain ⟨_, -, _, -, text, -, rfl⟩ := hfile
    refine refines_set_field f.bag_name (fun q => FileMem.bag_name { f with name := q }) ?_
    intro q hq
    simp only [FileMem.val, hq]
  · simp only [bind_eq_ok, pure_eq_ok, Except.ok.injEq] at hfile
    obtain ⟨_, -, ⟨len, b⟩, -, copy, -, rfl⟩ := hfile
    refine refines_set_field (f.bag_data len)
      (fun q => FileMem.bag_data { f with len := len, data := q } len) ?_
    intro q hq
    simp only [FileMem.val, hq]
  · simp only [bind_eq_ok, pure_eq_ok, Except.ok.injEq] at hfile
    obtain ⟨_, -, ⟨len, b⟩, -, copy, -, rfl⟩ := hfile
    refine refines_set_field f.bag_mime_type
      (fun q => FileMem.bag_mime_type { f with mime_type := q }) ?_
    intro q hq
    simp only [FileMem.val, hq]
  · simp only [bind_eq_ok, pure_eq_ok, Except.ok.injEq] at hfile
    obtain ⟨_, -, ⟨len, b⟩, -, copy, -, rfl⟩ := hfile
    refine refines_set_field f.bag_content_id
      (fun q => FileMem.bag_content_id { f with content_id := q }) ?_
    intro q hq
    simp only [FileMem.val, hq]
  · cases hfile
    exact refines_pure ⟨rfl, rfl⟩
  · cases hfile
    exact refines_pure ⟨rfl, rfl⟩

/-- By induction on the list. -/
theorem file_add_mapi_attrs_refines (props : List PropertyMem) : ∀ f : FileMem,
    Refines (bag f.blocks + bag (props_blocks props)) (file_add_mapi_attrs_mem o f props)
      (lift (file_add_mapi_attrs o f.val ((props.map PropertyMem.a).map some ++ [none])))
      fun f' file cs => f'.val = file ∧ cs = bag f'.blocks + bag (props_blocks props) := by
  induction props with
  | nil =>
    intro f
    exact refines_pure ⟨rfl, rfl⟩
  | cons r props ih =>
    intro f
    have hblocks : bag (props_blocks (r :: props)) = bag r.blocks + bag (props_blocks props) := by
      simp [props_blocks]
    simp only [List.map_cons, List.cons_append, file_add_mapi_attrs_mem, file_add_mapi_attrs,
      lift_bind, hblocks, ← add_assoc]
    refine (file_add_mapi_attr_refines o f r).bind_frame ?_
    rintro f₁ _ _ ⟨rfl, rfl⟩
    refine (((ih f₁).frame (bag r.blocks)).of_eq ?_).mono ?_
    · ac_rfl
    · rintro f' file _ ⟨_, ⟨hval, rfl⟩, rfl⟩
      refine ⟨hval, ?_⟩
      ac_rfl

/-- **A field takes a new block**, and the one before is dropped. -/
theorem refines_drop_field {f : FileMem} {g : Option Pointer → FileMem} {p : Option Pointer}
    {b : Option Buffer} {file : File} {rest others : Cells Buffer}
    (hbefore : bag f.blocks = bag p.toList + rest)
    (hafter : ∀ q, bag (g q).blocks = bag q.toList + rest)
    (hval : ∀ q, q.map Prod.snd = b → (g q).val = file) :
    Refines (bag f.blocks + others) (point_to b >>= fun q => pure (g q)) (pure file : Run File)
      fun f' file cs => f'.val = file
        ∧ Leaves (bag f'.blocks + others) ((p.map Prod.snd).toList : List Buffer) cs := by
  have hcontents : (bag p.toList).map Prod.snd = ((p.map Prod.snd).toList : List Buffer) := by
    rw [bag_contents]
    cases p <;> rfl
  refine refines_point_to fun q hq => refines_pure ⟨hval q hq, bag p.toList, ?_, hcontents⟩
  rw [hafter, hbefore]
  ac_rfl

/-- An attribute copied into a record: a title or data take the place of what is not released. -/
theorem file_add_attr_refines (f : FileMem) (attr : AttrMem) :
    Refines (bag f.blocks + bag attr.blocks) (file_add_attr_mem o f attr)
      (lift (file_add_attr o f.val attr.attr)) fun f' file cs => f'.val = file
        ∧ Leaves (bag f'.blocks + bag attr.blocks) (record_lost o f.val attr.attr) cs := by
  rw [file_add_attr_mem]
  refine refines_look_at (fun p hp => by simpa using hp) ?_
  by_cases hlist : attr.attr.name = attATTACHMENT
  · have hdate : attr.attr.name ≠ attATTACHMODIFYDATE := by
      rw [hlist]
      decide
    have hlost : record_lost o f.val attr.attr = list_lost o attr.attr := if_pos hlist
    rw [if_pos hlist, file_add_attr, if_neg hdate, if_pos hlist, lift_bind, hlost]
    rw [add_comm (bag f.blocks)]
    refine (mapi_attr_read_refines o attr).of_lift.bind_frame ?_
    rintro (_ | l) (_ | attrs) cs ⟨hread, hcs⟩
    · obtain ⟨lost, rfl, hlost⟩ := hcs
      refine refines_pure ⟨rfl, lost, ?_, hlost⟩
      ac_rfl
    · exact hcs.elim
    · exact hcs.elim
    · obtain ⟨rfl, rfl⟩ := hcs
      have hadd : Refines (bag f.blocks + bag (props_blocks l.props)
            + (bag attr.blocks + {l.array_pointer}))
          (file_add_mapi_attrs_mem o f l.props >>= fun f' => mapi_attr_free_list l
            >>= fun _ => pure f')
          (lift (file_add_mapi_attrs o f.val ((l.props.map PropertyMem.a).map some ++ [none])))
          fun f' file cs => f'.val = file
            ∧ Leaves (bag f'.blocks + bag attr.blocks) (list_lost o attr.attr) cs := by
        refine (file_add_mapi_attrs_refines o l.props f).then_frame ?_
        rintro f' file _ ⟨hval, rfl⟩
        refine Refines.of_eq (c := bag l.blocks + (bag f'.blocks + bag attr.blocks))
          (refines_mapi_attr_free_list (refines_pure ?_)) ?_
        · refine ⟨hval, bag (props_kept l.props), ?_, kept_contents hread⟩
          ac_rfl
        · simp only [PropertiesMem.blocks, bag_cons]
          ac_rfl
      refine hadd.of_eq ?_
      simp only [PropertiesMem.blocks, bag_cons]
      ac_rfl
  · rw [if_neg hlist]
    refine refines_lift_pure fun file hfile => ?_
    unfold file_add_attr at hfile
    rw [record_lost, if_neg hlist]
    split_ifs at hfile ⊢ with hdate htitle hdata
    · simp only [bind_eq_ok, pure_eq_ok, Except.ok.injEq] at hfile
      obtain ⟨dt, -, rfl⟩ := hfile
      exact refines_pure ⟨rfl, leaves_nothing _⟩
    · simp only [bind_eq_ok, pure_eq_ok, Except.ok.injEq] at hfile
      obtain ⟨title, -, rfl⟩ := hfile
      refine refines_drop_field f.bag_name (fun q => FileMem.bag_name { f with name := q }) ?_
      intro q hq
      simp only [FileMem.val, hq]
    · simp only [bind_eq_ok, pure_eq_ok, Except.ok.injEq] at hfile
      obtain ⟨copy, -, rfl⟩ := hfile
      refine refines_drop_field (f.bag_data attr.attr.len)
        (fun q => FileMem.bag_data { f with len := attr.attr.len, data := q } attr.attr.len) ?_
      intro q hq
      simp only [FileMem.val, hq]
    · cases hfile
      exact refines_pure ⟨rfl, leaves_nothing _⟩

end Records

/-! ## Bodies -/

section Bodies

variable (o : Options)

/-- The blocks of an array of bodies, where there is one. -/
def bodies_blocks (bodies : Option BodiesMem) : List Pointer := bodies.elim [] BodiesMem.blocks

def BodyMem.blocks (body : BodyMem) : List Pointer :=
  bodies_blocks body.text_body ++ bodies_blocks body.html_bodies ++ bodies_blocks body.rtf_bodies

/-- The blocks of an array hold what the heap-free account says. -/
theorem bodies_contents (bodies : Option BodiesMem) :
    (bag (bodies_blocks bodies)).map Prod.snd = bodies_lost (bodies.map BodiesMem.bodies) := by
  rw [bag_contents]
  cases bodies with
  | none => rfl
  | some b =>
    have hitems : b.items.1.flatten.map Prod.snd = b.bodies.flatMap body_blocks := by
      rw [List.map_flatten, b.items.2, List.flatMap_def]
    have hblocks : b.blocks.map Prod.snd
        = .raw (b.bodies.length * sizeof_ptr) :: b.bodies.flatMap body_blocks := by
      rw [BodiesMem.blocks, List.map_cons, hitems]
      rfl
    exact congrArg Multiset.ofList hblocks

/-- A block or two for each body, by induction on the array. -/
theorem refines_alloc_items {α γ : Type} {pre : Cells Buffer} {z : Run γ}
    {after : α → γ → Cells Buffer → Prop} {bodies : List (Option VarLenData)}
    {k : HeldBodies bodies → MemRun α}
    (h : ∀ items, Refines (bag items.1.flatten + pre) (k items) z after) :
    Refines pre (alloc_items bodies >>= k) z after := by
  induction bodies generalizing pre with
  | nil => exact (h ⟨[], rfl⟩).of_eq (zero_add pre).symm
  | cons d bodies ih =>
    simp only [alloc_items, bind_assoc]
    refine refines_allocAll fun ps => ih fun items => ?_
    rw [pure_bind]
    refine (h _).of_eq ?_
    simp only [List.flatten_cons, bag_append]
    abel

/-- The array and what is in it. -/
theorem refines_alloc_bodies {α γ : Type} {pre : Cells Buffer} {z : Run γ}
    {after : α → γ → Cells Buffer → Prop} {bodies : List (Option VarLenData)}
    {k : BodiesMem → MemRun α}
    (h : ∀ b : BodiesMem, b.bodies = bodies → Refines (bag b.blocks + pre) (k b) z after) :
    Refines pre (alloc_bodies bodies >>= k) z after := by
  simp only [alloc_bodies, bind_assoc]
  refine refines_alloc fun array => refines_alloc_items fun items => ?_
  rw [pure_bind]
  refine (h ⟨bodies, array, items⟩ rfl).of_eq ?_
  simp only [BodiesMem.blocks, BodiesMem.array_pointer, bag_cons]
  abel

/-- The size that is kept for an array is that of what is in front of its NULL. -/
def Counted (bodies : Option BodiesMem) (size : ℕ) : Prop :=
  match bodies with
  | none => size = 0
  | some b => 0 < size ∧ ∃ ds, ds.length = size ∧ b.bodies = ds ++ [none]

structure BodyMem.Sized (body : BodyMem) : Prop where
  text : Counted body.text_body (body.text_body.elim 0 fun _ => 1)
  html : Counted body.html_bodies body.html_size
  rtf : Counted body.rtf_bodies body.rtf_size

/-- The lengths the source counts with: one text, -/
theorem get_text_data_length {attr : Attr} {data : List (Option VarLenData)}
    (h : get_text_data o attr = .ok data) : ∃ ds, ds.length = 1 ∧ data = ds ++ [none] := by
  unfold get_text_data at h
  simp only [bind_eq_ok, pure_eq_ok, Except.ok.injEq] at h
  obtain ⟨_, -, copy, -, rfl⟩ := h
  exact ⟨[_], rfl, rfl⟩

/-- as many values as are announced, -/
theorem values_length {data : List UInt8} {i j : ℕ} {a : MAPI_Attr} (ha : PropertyAt o data i a j)
    (htype : a.type = szMAPI_BINARY) : (a.values.take a.num_values).length = a.num_values := by
  rw [List.length_take, ← (ha.blocks (.inl htype)).1, min_self]

/-- a place for each of them in the array of the HTML bodies, -/
theorem get_html_data_length {data : List UInt8} {i j : ℕ} {a : MAPI_Attr}
    (ha : PropertyAt o data i a j) (htype : a.type = szMAPI_BINARY)
    {body : List (Option VarLenData)} (h : get_html_data o a = .ok body) :
    ∃ ds, ds.length = a.num_values ∧ body = ds ++ [none] := by
  unfold get_html_data at h
  simp only [bind_eq_ok, pure_eq_ok, Except.ok.injEq] at h
  obtain ⟨_, -, ds, hds, rfl⟩ := h
  exact ⟨ds, (mapM_eq_ok.mp hds).length_eq.symm.trans (values_length o ha htype), rfl⟩

/-- and in that of the RTF bodies. -/
theorem get_rtf_data_length {data : List UInt8} {i j : ℕ} {a : MAPI_Attr}
    (ha : PropertyAt o data i a j) (htype : a.type = szMAPI_BINARY)
    {body : List (Option VarLenData)} (h : get_rtf_data o a = .ok body) :
    ∃ ds, ds.length = a.num_values ∧ body = ds ++ [none] := by
  unfold get_rtf_data at h
  simp only [bind_eq_ok, pure_eq_ok, Except.ok.injEq] at h
  obtain ⟨_, -, ds, hds, rfl⟩ := h
  exact ⟨ds, (mapM_eq_ok.mp hds).length_eq.symm.trans (values_length o ha htype), rfl⟩

/-- How the bodies are after a step that leaves `lost`. -/
def BodyStep (others : Cells Buffer) (lost : Multiset Buffer) (body : BodyMem) (v : MessageBody)
    (cs : Cells Buffer) : Prop :=
  body.val = v ∧ body.Sized ∧ Leaves (bag body.blocks + others) lost cs

/-- **An array of bodies takes the place of another**, which is dropped. -/
theorem refines_set_bodies {body : BodyMem} {g : Option BodiesMem → BodyMem} {p : Option BodiesMem}
    {bodies : List (Option VarLenData)} {v : MessageBody} {rest others : Cells Buffer}
    (hbefore : bag body.blocks = bag (bodies_blocks p) + rest)
    (hafter : ∀ q, bag (g q).blocks = bag (bodies_blocks q) + rest)
    (hval : ∀ b : BodiesMem, b.bodies = bodies → (g (some b)).val = v ∧ (g (some b)).Sized) :
    Refines (bag body.blocks + others) (alloc_bodies bodies >>= fun b => pure (g (some b)))
      (pure v : Run MessageBody) (BodyStep others (bodies_lost (p.map BodiesMem.bodies))) := by
  refine refines_alloc_bodies fun b hb => refines_pure
    ⟨(hval b hb).1, (hval b hb).2, bag (bodies_blocks p), ?_, bodies_contents p⟩
  rw [hafter, hbefore, show bodies_blocks (some b) = b.blocks from rfl]
  ac_rfl

section Fields

variable (body : BodyMem)

/-- One of the three arrays can be set apart: the text, -/
theorem BodyMem.bag_text_body : bag body.blocks
    = bag (bodies_blocks body.text_body) + bag { body with text_body := none }.blocks := by
  simp only [BodyMem.blocks, bag_append, show bodies_blocks none = [] from rfl, bag_nil]
  ac_rfl

/-- the HTML bodies, -/
theorem BodyMem.bag_html_bodies : bag body.blocks
    = bag (bodies_blocks body.html_bodies) + bag { body with html_bodies := none }.blocks := by
  simp only [BodyMem.blocks, bag_append, show bodies_blocks none = [] from rfl, bag_nil]
  ac_rfl

/-- and the RTF bodies. -/
theorem BodyMem.bag_rtf_bodies : bag body.blocks
    = bag (bodies_blocks body.rtf_bodies) + bag { body with rtf_bodies := none }.blocks := by
  simp only [BodyMem.blocks, bag_append, show bodies_blocks none = [] from rfl, bag_nil]
  ac_rfl

end Fields

/-- A property that holds bodies: the array it takes the place of is left behind. -/
theorem message_property_refines {body : BodyMem} {r : PropertyMem} {data : List UInt8} {i j : ℕ}
    (hbody : body.Sized) (hr : PropertyAt o data i r.a j) :
    Refines (bag body.blocks + bag r.blocks) (message_property_mem o body r)
      (lift (message_property o body.val r.a))
      (BodyStep (bag r.blocks) (property_lost body.val r.a)) := by
  have hpos : 0 < r.a.num_values := Nat.pos_of_ne_zero hr.num_values_ne
  rw [message_property_mem]
  refine refines_look_at (fun p hp => by simp [hp]) ?_
  unfold message_property property_lost
  split_ifs with hhtml hrtf
  · rw [lift_bind]
    have hafter := fun q =>
      BodyMem.bag_html_bodies { body with html_bodies := q, html_size := r.a.num_values }
    refine refines_lift fun bodies hbodies =>
      refines_set_bodies body.bag_html_bodies hafter ?_
    rintro b rfl
    exact ⟨rfl, hbody.text, ⟨hpos, get_html_data_length o hr hhtml.1 hbodies⟩, hbody.rtf⟩
  · rw [lift_bind]
    have hafter := fun q =>
      BodyMem.bag_rtf_bodies { body with rtf_bodies := q, rtf_size := r.a.num_values }
    refine refines_lift fun bodies hbodies =>
      refines_set_bodies body.bag_rtf_bodies hafter ?_
    rintro b rfl
    exact ⟨rfl, hbody.text, hbody.html, ⟨hpos, get_rtf_data_length o hr hrtf.1 hbodies⟩⟩
  · exact refines_pure ⟨rfl, hbody, leaves_nothing _⟩

/-- By induction on the list. -/
theorem message_properties_refines {data : List UInt8} (props : List PropertyMem) :
    ∀ {body : BodyMem}, body.Sized → (∀ r ∈ props, ∃ i j, PropertyAt o data i r.a j) →
    Refines (bag body.blocks + bag (props_blocks props)) (message_properties_mem o body props)
      (lift (message_properties o body.val ((props.map PropertyMem.a).map some ++ [none])))
      (BodyStep (bag (props_blocks props))
        (properties_lost o body.val ((props.map PropertyMem.a).map some ++ [none]))) := by
  induction props with
  | nil =>
    intro body hbody _
    exact refines_pure ⟨rfl, hbody, leaves_nothing _⟩
  | cons r props ih =>
    intro body hbody hprops
    obtain ⟨i, j, hr⟩ := hprops r (List.mem_cons_self ..)
    have hblocks : bag (props_blocks (r :: props)) = bag r.blocks + bag (props_blocks props) := by
      simp [props_blocks]
    simp only [List.map_cons, List.cons_append, message_properties_mem, message_properties,
      lift_bind, hblocks, ← add_assoc]
    refine (message_property_refines o hbody hr).of_lift.bind_frame ?_
    rintro body₁ _ _ ⟨hone, rfl, hbody₁, left, rfl, hleft⟩
    have hrest := ih hbody₁ fun r' hr' => hprops r' (List.mem_cons_of_mem _ hr')
    refine ((hrest.frame (bag r.blocks + left)).of_eq ?_).mono ?_
    · ac_rfl
    · rintro body' v _ ⟨_, ⟨hval, hbody', left', rfl, hleft'⟩, rfl⟩
      refine ⟨hval, hbody', left + left', ?_, ?_⟩
      · ac_rfl
      · rw [Multiset.map_add, hleft, hleft', properties_lost, hone]

/-- An attribute of the message, read, used and released but for what the account names. -/
theorem message_attr_refines {body : BodyMem} (hbody : body.Sized) (attr : AttrMem) :
    Refines (bag body.blocks + bag attr.blocks) (message_attr_mem o body attr)
      (lift (message_attr o body.val attr.attr))
      (BodyStep (bag attr.blocks) (message_lost o body.val attr.attr)) := by
  rw [message_attr_mem]
  refine refines_look_at (fun p hp => by simp [hp]) ?_
  unfold message_attr message_lost
  split_ifs with htext hprops
  · rw [lift_bind]
    refine refines_lift fun bodies hbodies => refines_set_bodies body.bag_text_body
      (fun q => BodyMem.bag_text_body { body with text_body := q }) ?_
    rintro b rfl
    exact ⟨rfl, ⟨Nat.one_pos, get_text_data_length o hbodies⟩, hbody.html, hbody.rtf⟩
  · rw [lift_bind, add_comm (bag body.blocks)]
    refine (mapi_attr_read_refines o attr).of_lift.bind_frame ?_
    rintro (_ | l) (_ | attrs) cs ⟨hread, hcs⟩
    · obtain ⟨left, rfl, hleft⟩ := hcs
      rw [hread]
      refine refines_pure ⟨rfl, hbody, left, ?_, hleft⟩
      ac_rfl
    · exact hcs.elim
    · exact hcs.elim
    · obtain ⟨rfl, rfl⟩ := hcs
      have hl := props_at hread
      rw [hread]
      have hadd : Refines (bag body.blocks + bag (props_blocks l.props)
            + (bag attr.blocks + {l.array_pointer}))
          (message_properties_mem o body l.props >>= fun body' => mapi_attr_free_list l
            >>= fun _ => pure body')
          (lift (message_properties o body.val ((l.props.map PropertyMem.a).map some ++ [none])))
          (BodyStep (bag attr.blocks)
            (properties_lost o body.val ((l.props.map PropertyMem.a).map some ++ [none])
              + list_lost o attr.attr)) := by
        refine (message_properties_refines o l.props hbody hl).then_frame ?_
        rintro body' v _ ⟨hval, hbody', left, rfl, hleft⟩
        refine Refines.of_eq (c := bag l.blocks + (bag body'.blocks + bag attr.blocks + left))
          (refines_mapi_attr_free_list (refines_pure ?_)) ?_
        · refine ⟨hval, hbody', left + bag (props_kept l.props), ?_, ?_⟩
          · ac_rfl
          · rw [Multiset.map_add, hleft, kept_contents hread]
        · simp only [PropertiesMem.blocks, bag_cons]
          ac_rfl
      refine hadd.of_eq ?_
      simp only [PropertiesMem.blocks, bag_cons]
      ac_rfl
  · exact refines_pure ⟨rfl, hbody, leaves_nothing _⟩

end Bodies

end Tnef
