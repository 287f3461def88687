/-
The order of what an attachment is made of.

Every attribute of a group writes fields of the record, and which ones does not depend on
what is there (`file_add_attr_eq`). So where each field has one source, the attributes of
a group may come in any order, and so may the properties of each list
(`file_add_attr_any_order`). The exception is a list that holds both a property at which
`--ignore-encode` gives it up and one at which the program stops: there the one that comes
first decides.
-/
import Mathlib.Data.List.ReduceOption
import Tnef.MapiInert
import Tnef.MapiSkip

set_option autoImplicit false

namespace Tnef

open ExceptRules Slice LittleEndian Layout Fields

/-! ## The fields of a record -/

/-- What an attribute of a group may set: the date, or what a property sets. -/
inductive GroupField
  | date
  | property (k : FileField)
  deriving DecidableEq, Repr

def GroupField.Value : GroupField → Type
  | .date => Tnef.date
  | .property k => k.Value

def group_access : FieldAccess GroupField.Value File where
  get
    | .date, file => file.dt
    | .property k, file => file_access.get k file
  put
    | .date, v, file => { file with dt := v }
    | .property k, v, file => file_access.put k v file
  get_put k v s := by
    cases k with
    | date => rfl
    | property k => exact file_access.get_put k v s
  get_put_ne k k' v s h := by
    cases k with
    | date =>
      cases k' with
      | date => exact absurd rfl h
      | property k' => cases k' <;> rfl
    | property k =>
      cases k' with
      | date => cases k <;> rfl
      | property k' => exact file_access.get_put_ne k k' v s fun heq => h (congrArg _ heq)
  put_get k s := by
    cases k with
    | date => rfl
    | property k => exact file_access.put_get k s
  put_put k v w s := by
    cases k with
    | date => rfl
    | property k => exact file_access.put_put k v w s
  put_comm k k' v w s h := by
    cases k with
    | date =>
      cases k' with
      | date => exact absurd rfl h
      | property k' => cases k' <;> rfl
    | property k =>
      cases k' with
      | date => cases k <;> rfl
      | property k' => exact file_access.put_comm k k' v w s fun heq => h (congrArg _ heq)

/-- The fields an attribute is a source of, one for each of its relevant properties. -/
def attr_sources (o : Options) (attr : Attr) : List GroupField :=
  if attr.name = attATTACHMODIFYDATE then [.date]
  else if attr.name = attATTACHMENT then
    match mapi_attr_read o attr.len attr.buf with
    | .ok (some mapi_attrs) =>
      (mapi_attrs.reduceOption.map property_source).reduceOption.map GroupField.property
    | _ => []
  else if attr.name = attATTACHTITLE then [.property .name]
  else if attr.name = attATTACHDATA then [.property .data]
  else []

/-! ## What an attribute writes -/

/-- A write of a property, as one of the group. -/
def group_write (w : Σ k, FileField.Value k) : Σ k, GroupField.Value k := ⟨.property w.1, w.2⟩

/-- What an attribute writes, in the order in which it does. -/
def attr_writes (o : Options) (attr : Attr) : M (List (Σ k, GroupField.Value k)) :=
  if attr.name = attATTACHMODIFYDATE then do
    return [⟨.date, ← copy_date_from_attr attr⟩]
  else if attr.name = attATTACHMENT then do
    match ← mapi_attr_read o attr.len attr.buf with
    | none => return []
    | some mapi_attrs =>
      let ws ← mapi_attrs.reduceOption.mapM (file_written o)
      return ws.reduceOption.map group_write
  else if attr.name = attATTACHTITLE then do
    return [⟨.property .name, some (strdup (← c_str_at attr.buf 0))⟩]
  else if attr.name = attATTACHDATA then do
    return [⟨.property .data, (attr.len, some (← copy_len o attr.len (.full attr.buf)))⟩]
  else
    .ok []

theorem puts_group_write (ws : List (Σ k, FileField.Value k)) (file : File) :
    group_access.puts (ws.map group_write) file = file_access.puts ws file := by
  rw [FieldAccess.puts, List.foldl_map]
  rfl

theorem reduceOption_terminated (as : List MAPI_Attr) : (as.map some ++ [none]).reduceOption = as := by
  rw [List.reduceOption_append, List.reduceOption_cons_of_none, List.reduceOption_nil,
    List.append_nil, List.reduceOption, List.filterMap_map, Function.id_comp, List.filterMap_some]

/-- The list that is read ends in the one NULL it has. -/
theorem mapi_attr_read_terminated {o : Options} {attr : Attr} {mapi_attrs : List (Option MAPI_Attr)}
    (h : mapi_attr_read o attr.len attr.buf = .ok (some mapi_attrs)) :
    mapi_attrs = mapi_attrs.reduceOption.map some ++ [none] := by
  obtain ⟨as, rfl, -⟩ := mapi_attr_read_properties h
  rw [reduceOption_terminated]

/-- **An attribute writes the record field by field**, whatever is in it. -/
theorem file_add_attr_eq (o : Options) (file : File) (attr : Attr) :
    file_add_attr o file attr = attr_writes o attr >>= fun ws => .ok (group_access.puts ws file) := by
  unfold file_add_attr attr_writes
  split_ifs
  · rw [bind_assoc]
    rfl
  · cases hread : mapi_attr_read o attr.len attr.buf with
    | error e => rfl
    | ok r =>
      match r with
      | none => rfl
      | some mapi_attrs =>
        have hrun := file_add_mapi_attrs_eq o mapi_attrs.reduceOption file
        rw [← mapi_attr_read_terminated hread, FieldAccess.run_eq_puts] at hrun
        rw [ok_bind, ok_bind, bind_assoc]
        simp only [pure_eq_ok, ok_bind, puts_group_write]
        exact hrun
  · rw [bind_assoc]
    rfl
  · rw [bind_assoc]
    rfl
  · rfl

/-- The writes of an attribute go to its sources. -/
theorem attr_writes_sources {o : Options} {attr : Attr} {ws : List (Σ k, GroupField.Value k)}
    (h : attr_writes o attr = .ok ws) : ws.map Sigma.fst = attr_sources o attr := by
  unfold attr_writes at h
  unfold attr_sources
  split_ifs at h ⊢
  · simp only [bind_eq_ok, pure_eq_ok, Except.ok.injEq] at h
    obtain ⟨_, -, rfl⟩ := h
    rfl
  · rw [bind_eq_ok] at h
    obtain ⟨r, hr, h⟩ := h
    rw [hr]
    match r, h with
    | none, h =>
      cases h
      rfl
    | some mapi_attrs, h =>
      simp only [bind_eq_ok, pure_eq_ok, Except.ok.injEq] at h
      obtain ⟨ws, hws, rfl⟩ := h
      -- the list is read in order, one write a property
      have hsources : ws.map (Option.map Sigma.fst) = mapi_attrs.reduceOption.map property_source :=
        mapM_map (fun a _ w hw => file_written_source hw) hws
      simp only
      rw [← hsources, List.reduceOption_map, List.map_map, List.map_map]
      rfl
  · simp only [bind_eq_ok, pure_eq_ok, Except.ok.injEq] at h
    obtain ⟨_, -, rfl⟩ := h
    rfl
  · simp only [bind_eq_ok, pure_eq_ok, Except.ok.injEq] at h
    obtain ⟨_, -, rfl⟩ := h
    rfl
  · cases h
    rfl

/-! ## Another order -/

/-- The attribute as it was, or a list whose items have been put into another order. `P` says
in which lists they may be. -/
inductive Reordered (o : Options) (P : List (ListItem o) → Prop) : Attr → Attr → Prop
  | same (attr : Attr) : Reordered o P attr attr
  | list {attr attr' : Attr} {its its' : List (ListItem o)} {num_properties : UInt32}
      {rest : List UInt8} (name : attr.name = attATTACHMENT) (name' : attr'.name = attATTACHMENT)
      (list_of : ListOf its num_properties rest attr.data)
      (list_of' : ListOf its' num_properties rest attr'.data) (perm : its.Perm its')
      (allowed : P its) : Reordered o P attr attr'

/-- The attributes in another order, and the items of each list in another order. -/
def Shuffled (o : Options) (P : List (ListItem o) → Prop) (as as' : List Attr) : Prop :=
  ∃ bs, List.Forall₂ (Reordered o P) as bs ∧ bs.Perm as'

/-- Both runs stop, or both come to the same record. -/
def SameEnd (x x' : M File) : Prop :=
  ((∃ e, x = .error e) ∧ ∃ e, x' = .error e) ∨ ∃ file, x = .ok file ∧ x' = .ok file

/-- **A list in another order** writes the same fields in another order, or stops as before. -/
theorem Reordered.writes {o : Options} {attr attr' : Attr}
    (h : Reordered o (fun its => ¬ Mixed its) attr attr') :
    (∃ ws ws', attr_writes o attr = .ok ws ∧ attr_writes o attr' = .ok ws' ∧ ws.Perm ws')
      ∨ (∃ e, attr_writes o attr = .error e) ∧ ∃ e, attr_writes o attr' = .error e := by
  cases h with
  | same =>
    cases hws : attr_writes o attr with
    | ok ws => exact .inl ⟨ws, ws, rfl, rfl, .refl ws⟩
    | error e => exact .inr ⟨⟨e, rfl⟩, e, rfl⟩
  | list name name' list_of list_of' perm allowed =>
    have hlist : ∀ {attr : Attr}, attr.name = attATTACHMENT → attr_writes o attr
        = mapi_attr_read o attr.len attr.buf >>= fun r => match r with
          | none => .ok []
          | some mapi_attrs => mapi_attrs.reduceOption.mapM (file_written o)
            >>= fun ws => .ok (ws.reduceOption.map group_write) := by
      intro attr hname
      rw [attr_writes, if_neg (by rw [hname]; decide), if_pos hname]
      rfl
    rw [hlist name, hlist name']
    -- both lists are read, or both are given up, or the program stops at both
    rcases mapi_attr_read_perm list_of list_of' perm allowed with
      ⟨as, as', hperm, hread, hread'⟩ | ⟨hread, hread'⟩ | ⟨⟨e, he⟩, e', he'⟩
    · rw [hread, hread', ok_bind, ok_bind]
      simp only [reduceOption_terminated]
      cases hws : as.mapM (file_written o) with
      | ok ws =>
        obtain ⟨ws', hws', hsame⟩ := mapM_perm hws hperm
        rw [hws', ok_bind, ok_bind]
        exact .inl ⟨_, _, rfl, rfl, (hsame.filterMap id).map group_write⟩
      | error e =>
        -- a property that stops the one run stops the other
        obtain ⟨a, ha, hstop⟩ := mapM_error_iff.mp ⟨e, hws⟩
        obtain ⟨e', he'⟩ := mapM_error_iff.mpr ⟨a, hperm.subset ha, hstop⟩
        rw [he']
        exact .inr ⟨⟨e, rfl⟩, e', rfl⟩
    · rw [hread, hread']
      exact .inl ⟨[], [], rfl, rfl, .refl []⟩
    · rw [he, he']
      exact .inr ⟨⟨e, rfl⟩, e', rfl⟩

/-- **The order makes no difference** where every field has at most one source, unless a list
is mixed. -/
theorem file_add_attr_any_order (o : Options) {as as' : List Attr}
    (hone : (as.flatMap (attr_sources o)).Nodup)
    (hshuffled : Shuffled o (fun its => ¬ Mixed its) as as') (file : File) :
    SameEnd (as.foldlM (file_add_attr o) file) (as'.foldlM (file_add_attr o) file) := by
  obtain ⟨bs, hsteps, hperm⟩ := hshuffled
  refine FieldAccess.foldlM_reorder (file_add_attr_eq o)
    (hsteps.imp fun _ _ h => h.writes) hperm ?_ file
  intro wss hwss
  have hsources : wss.map (List.map Sigma.fst) = as.map (attr_sources o) :=
    mapM_map (fun _ _ _ h => attr_writes_sources h) hwss
  rwa [List.map_flatten, hsources, ← List.flatMap_def]

/-- A property of the null type. -/
def null_property : Undecoded where
  bytes := le16 szMAPI_NULL ++ le16 0x3001
  header := { type := szMAPI_NULL, name := 0x3001 }
  header_end := 4
  num_values := 1
  count_end := 4
  header_at := .plain szMAPI_NULL 0x3001 (admits_unlimited _) (at_zero _) (by decide)
  count_at := ⟨rfl, rfl⟩
  no_shape := rfl

/-- The attribute a list of items comes in. -/
def items_attr {o : Options} (its : List (ListItem o))
    (h : (le32 (UInt32.ofNat its.length) ++ its.flatMap ListItem.bytes).length < 2 ^ 32) : Attr :=
  ⟨.LVL_ATTACHMENT, szBYTE, attATTACHMENT, _, h⟩

/-- A file name, and two integers that change places. -/
theorem file_add_attr_any_order_witness :
    SameEnd
      ([⟨.LVL_ATTACHMENT, szSTRING, attATTACHTITLE, ascii "a", by decide⟩, @items_attr {}
        [.decoded attach_num, .decoded three_values] (by decide)].foldlM (file_add_attr {}) {})
      ([@items_attr {} [.decoded three_values, .decoded attach_num] (by decide),
        ⟨.LVL_ATTACHMENT, szSTRING, attATTACHTITLE, ascii "a", by decide⟩].foldlM
          (file_add_attr {}) {}) := by
  apply file_add_attr_any_order
  · decide +kernel
  · refine ⟨_, .cons (.same _) (.cons (.list rfl rfl ⟨rfl, (List.append_nil _).symm⟩
      ⟨rfl, (List.append_nil _).symm⟩ (.swap _ _ _) ?_) .nil), .swap _ _ _⟩
    rintro ⟨⟨it, hit, hgives⟩, -⟩
    -- both items decode where they stand, so neither gives the list up
    have hread := hgives it.bytes 0
    simp only [List.mem_cons, List.not_mem_nil, or_false] at hit
    rcases hit with rfl | rfl
    · exact absurd (hread (by decide) (at_zero _)) (by decide +kernel)
    · exact absurd (hread (by decide) (at_zero _)) (by decide +kernel)

/-- A property that is not decoded, and one without values behind it. -/
def null_first : Attr :=
  @items_attr { encode_ok := true } [.undecoded null_property, .decoded no_values] (by decide)

/-- The same the other way round. -/
def null_last : Attr :=
  @items_attr { encode_ok := true } [.decoded no_values, .undecoded null_property] (by decide)

/-- **Under `--ignore-encode` the order can decide** whether the program stops: the list is given
up at a property of the null type, and an assertion fails at a property without values. -/
theorem file_add_attr_order_matters :
    ¬ ∀ (o : Options) (as as' : List Attr), (as.flatMap (attr_sources o)).Nodup →
      Shuffled o (fun _ => True) as as' → ∀ file : File,
      SameEnd (as.foldlM (file_add_attr o) file) (as'.foldlM (file_add_attr o) file) := by
  intro h
  have hsame := h { encode_ok := true } [null_first] [null_last] (by decide +kernel)
    ⟨_, .cons (.list rfl rfl ⟨rfl, (List.append_nil _).symm⟩ ⟨rfl, (List.append_nil _).symm⟩
      (.swap _ _ _) trivial) .nil, .refl _⟩ {}
  have hskipped : [null_first].foldlM (file_add_attr { encode_ok := true }) {} = .ok {} := by
    decide +kernel
  have hstopped : [null_last].foldlM (file_add_attr { encode_ok := true }) {}
      = .error .assertion := by
    decide +kernel
  rw [hskipped, hstopped] at hsame
  rcases hsame with ⟨⟨e, he⟩, -⟩ | ⟨file, -, hfile⟩
  · cases he
  · cases hfile

end Tnef
