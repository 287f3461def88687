/-
The reading loop of `tnef.c`.

`attr_loop` is the `while` loop of `parse_file` with its body left open: it asks
`data_left`, reads one attribute, and hands it on. `attr_loop_before` runs it over a
list of encoded attributes, whatever the body does with them; `attr_loop_iff` is the
framing as a bijection, for the body that only collects.
-/
import Tnef.AttrFormat
import Tnef.Lib.Stateful

set_option autoImplicit false

namespace Tnef

open ExceptRules Slice LittleEndian Stateful

abbrev MINIMUM_ATTR_LENGTH : ℕ := 8

/-! ## The loop -/

/-- On a regular file `st_size - pos` is the number of bytes left. The messages
about the cruft behind the last attribute are left out. -/
def data_left (o : Options) (inp : Input) : M Bool :=
  if inp.eof then .ok false
  else if ¬ inp.is_stdin then
    let data_left := inp.rest.length
    if data_left > 0 ∧ data_left < MINIMUM_ATTR_LENGTH then
      -- the first of the two bytes is looked at, for the message, and put back
      if o.cruft_ok ∧ data_left = 2 then
        match inp.rest with
        | [] => .error (.exit 1)
        | _ :: _ => .ok false
      else
        .ok false
    else
      .ok true
  else
    .ok true

/-- Cruft only chooses a message. -/
theorem data_left_any (o o' : Options) (inp : Input) : data_left o inp = data_left o' inp := by
  unfold data_left
  rcases inp.rest with _ | ⟨b, rest⟩
  · rfl
  · simp only [ite_self]

/-- `fgetc` at the end of the file sets the indicator; otherwise the byte is put back. -/
def read_object (o : Options) (inp : Input) : M (Option Attr × Input) :=
  match inp.rest with
  | [] => .ok (none, { inp with eof := true })
  | _ :: _ => do
    let (attr, inp) ← attr_read o inp
    return (some attr, inp)

theorem read_object_inv {o : Options} {inp inp' : Input} {attr : Attr}
    (h : read_object o inp = .ok (some attr, inp')) : attr_read o inp = .ok (attr, inp') := by
  unfold read_object at h
  split at h
  · cases h
  · simp only [bind_eq_ok, pure_eq_ok, Except.ok.injEq] at h
    obtain ⟨⟨attr', inp₁⟩, hread, heq⟩ := h
    cases heq
    exact hread

theorem read_object_length_lt {o : Options} {inp inp' : Input} {attr : Attr}
    (h : read_object o inp = .ok (some attr, inp')) : inp'.rest.length < inp.rest.length := by
  obtain ⟨k, rfl⟩ := attr_read_inv (read_object_inv h)
  rw [Input.before_rest, List.length_append, encode_raw_length]
  omega

/-- `while ( data_left( input_file ) )`, with the loop's variables in `s` and the rest
of its body in `body`. -/
def attr_loop {ω σ : Type} (o : Options) (body : Attr → σ → Act Stop ω σ) (inp : Input) (s : σ) :
    Act Stop ω (Input × σ) := do
  if ← lift (data_left o inp) then
    match _hread : read_object o inp with
    | .error e => throw e
    | .ok (none, inp') => return (inp', s)
    | .ok (some attr, inp') =>
      let s ← body attr s
      attr_loop o body inp' s
  else
    return (inp, s)
termination_by inp.rest.length
decreasing_by exact read_object_length_lt _hread

/-! ## One turn -/

section Turn

variable {ω σ : Type} {o : Options} {body : Attr → σ → Act Stop ω σ} {inp inp' : Input} {s : σ}

theorem attr_loop_stop (hleft : data_left o inp = .ok false) :
    attr_loop o body inp s = pure (inp, s) := by
  rw [attr_loop, hleft, lift_ok, pure_bind]
  rfl

theorem attr_loop_error {e : Stop} (hleft : data_left o inp = .ok true)
    (hread : read_object o inp = .error e) : attr_loop o body inp s = throw e := by
  rw [attr_loop, hleft, lift_ok, pure_bind, if_pos rfl]
  split
  · next e' he =>
    rw [hread] at he
    cases he
    rfl
  · next h =>
    rw [hread] at h
    cases h
  · next h =>
    rw [hread] at h
    cases h

theorem attr_loop_end (hleft : data_left o inp = .ok true)
    (hread : read_object o inp = .ok (none, inp')) :
    attr_loop o body inp s = pure (inp', s) := by
  rw [attr_loop, hleft, lift_ok, pure_bind, if_pos rfl]
  split
  · next h =>
    rw [hread] at h
    cases h
  · next h =>
    rw [hread] at h
    cases h
    rfl
  · next h =>
    rw [hread] at h
    cases h

theorem attr_loop_attr {attr : Attr} (hleft : data_left o inp = .ok true)
    (hread : read_object o inp = .ok (some attr, inp')) :
    attr_loop o body inp s = body attr s >>= fun s => attr_loop o body inp' s := by
  rw [attr_loop, hleft, lift_ok, pure_bind, if_pos rfl]
  split
  · next h =>
    rw [hread] at h
    cases h
  · next h =>
    rw [hread] at h
    cases h
  · next h =>
    rw [hread] at h
    cases h
    rfl

/-- At the end of the file, and only there, no attribute is read. -/
theorem read_object_none (hread : read_object o inp = .ok (none, inp')) :
    inp.rest = [] ∧ inp'.rest = [] := by
  unfold read_object at hread
  split at hread
  · next hrest =>
    cases hread
    exact ⟨hrest, hrest⟩
  · simp only [bind_eq_ok, pure_eq_ok, Except.ok.injEq, Prod.mk.injEq, reduceCtorEq,
      false_and, and_false, exists_false] at hread

end Turn

/-- **Induction along the loop**: it stops the program, leaves with the input it has come to,
or hands an attribute to its body and goes on behind it. -/
@[elab_as_elim]
theorem attr_loop_induction {ω σ : Type} (o : Options) (body : Attr → σ → Act Stop ω σ)
    {motive : Input → Prop}
    (throws : ∀ inp e, (∀ s, attr_loop o body inp s = throw e) → motive inp)
    (leaves : ∀ inp inp', inp'.rest = inp.rest →
      (∀ s, attr_loop o body inp s = pure (inp', s)) → motive inp)
    (turn : ∀ inp attr inp', read_object o inp = .ok (some attr, inp') →
      (∀ s, attr_loop o body inp s = body attr s >>= fun s => attr_loop o body inp' s) →
      motive inp' → motive inp)
    (inp : Input) : motive inp := by
  -- on the length of what is left
  induction hn : inp.rest.length using Nat.strong_induction_on generalizing inp with
  | _ n ih =>
    rcases hleft : data_left o inp with e | _ | _
    · refine throws inp e fun s => ?_
      rw [attr_loop, hleft]
      rfl
    · exact leaves inp inp rfl fun s => attr_loop_stop hleft
    · rcases hread : read_object o inp with e | ⟨_ | attr, inp'⟩
      · exact throws inp e fun s => attr_loop_error hleft hread
      · obtain ⟨hrest, hrest'⟩ := read_object_none hread
        exact leaves inp inp' (hrest'.trans hrest.symm) fun s => attr_loop_end hleft hread
      · have hlt := read_object_length_lt hread
        exact turn inp attr inp' hread (fun s => attr_loop_attr hleft hread)
          (ih _ (by omega) inp' rfl)

/-! ## Encoded attributes -/

/-- No attribute is short enough to be taken for cruft. -/
theorem data_left_before (o : Options) {inp : Input} (heof : inp.eof = false) (attr : Attr)
    (k : UInt16) : data_left o (inp.before (encode_raw attr k)) = .ok true := by
  have hlen : ¬ ((inp.before (encode_raw attr k)).rest.length > 0
      ∧ (inp.before (encode_raw attr k)).rest.length < MINIMUM_ATTR_LENGTH) := by
    rw [Input.before_rest, List.length_append, encode_raw_length]
    show ¬ (_ ∧ _ < 8)
    omega
  have heof' : ¬ (inp.before (encode_raw attr k)).eof = true := by
    rw [show (inp.before (encode_raw attr k)).eof = inp.eof from rfl, heof]
    decide
  unfold data_left
  simp only [if_neg heof', if_neg hlen, ite_self]

theorem read_object_before (o : Options) (inp : Input) (attr : Attr) (k : UInt16) :
    read_object o (inp.before (encode_raw attr k))
      = attr_gate o attr k >>= fun _ => .ok (some attr, inp) := by
  have hcons : ∃ b bs, (inp.before (encode_raw attr k)).rest = b :: bs := ⟨_, _, rfl⟩
  obtain ⟨b, bs, hrest⟩ := hcons
  unfold read_object
  rw [hrest]
  simp only
  rw [attr_read_before]
  cases attr_gate o attr k with
  | error e => rfl
  | ok u => rfl

/-- **The loop over a list of encoded attributes** passes each one through the gate and
to the body, in order, whatever the body does. -/
theorem attr_loop_before {ω σ : Type} (o : Options) (body : Attr → σ → Act Stop ω σ) {inp : Input}
    (heof : inp.eof = false) (as : List (Attr × UInt16)) : ∀ s : σ,
    attr_loop o body (inp.before (as.flatMap fun x => encode_raw x.1 x.2)) s
      = as.foldlM (fun s x => lift (attr_gate o x.1 x.2) >>= fun _ => body x.1 s) s
        >>= fun s => attr_loop o body inp s := by
  induction as with
  | nil =>
    intro s
    rw [List.flatMap_nil, Input.before_nil, List.foldlM_nil, pure_bind]
  | cons x as ih =>
    intro s
    rw [List.flatMap_cons, ← Input.before_before, List.foldlM_cons]
    have hleft : data_left o ((inp.before (as.flatMap fun x => encode_raw x.1 x.2)).before
        (encode_raw x.1 x.2)) = .ok true := data_left_before o heof x.1 x.2
    have hread := read_object_before o (inp.before (as.flatMap fun x => encode_raw x.1 x.2)) x.1 x.2
    -- the gate stops both sides, or both go on to the body
    cases hgate : attr_gate o x.1 x.2 with
    | error e =>
      rw [hgate, error_bind] at hread
      rw [attr_loop_error hleft hread]
      rfl
    | ok u =>
      rw [hgate, ok_bind] at hread
      rw [attr_loop_attr hleft hread, lift_ok, pure_bind, bind_assoc]
      exact congrArg _ (funext ih)

/-- **What the loop does is what its body does**: if the body keeps `I` and performs
steps of one kind, so does the loop, however it ends. -/
theorem attr_loop_performs {ω σ ι : Type} {step : ω → ι → ω} {P : ι → Prop} {I : σ → Prop}
    {o : Options} {body : Attr → σ → Act Stop ω σ}
    (hbody : ∀ attr s, I s → Performs step P I (body attr s)) (inp : Input) :
    ∀ s, I s → Performs step P (fun r => I r.2) (attr_loop o body inp s) := by
  induction inp using attr_loop_induction o body with
  | throws inp e hloop =>
    intro s _
    rw [hloop]
    exact performs_throw e
  | leaves inp inp' _ hloop =>
    intro s hs
    rw [hloop]
    exact performs_pure hs
  | turn inp attr inp' _ hloop ih =>
    intro s hs
    rw [hloop]
    exact (hbody attr s hs).bind fun s' hs' => ih s' hs'

/-! ## The framing -/

/-- The loop body that keeps the attributes and does nothing else. -/
def collect (attr : Attr) (as : List Attr) : Act Stop Unit (List Attr) := pure (as ++ [attr])

/-- What an attribute needs to be read besides its bytes: the allocation limit lets its
record and its data through, and under `--debug` it can be printed. -/
structure Readable (o : Options) (attr : Attr) : Prop where
  record : o.Admits sizeof_Attr
  data : o.Admits attr.len
  dump : o.dbg_out = true → attr_dump o attr = .ok ()

theorem attr_gate_eq_ok {o : Options} (hk : o.checksum_ok = false) {attr : Attr} {k : UInt16} :
    attr_gate o attr k = .ok () ↔ k = byte_sum attr.data ∧ Readable o attr := by
  have hlen : attr.len * 1 + 1 < 2 ^ 64 := by
    have hfits := attr.fits
    unfold Attr.len
    omega
  have hchecks : attr_checks o attr k = .ok ()
      ↔ k = byte_sum attr.data ∧ (o.dbg_out = true → attr_dump o attr = .ok ()) := by
    rw [← check_checksum_iff]
    unfold attr_checks
    by_cases hsum : check_checksum attr k = true
    · by_cases hdbg : o.dbg_out = true
      · simp [hsum, hdbg]
      · simp [hsum, hdbg]
    · simp [hsum, hk]
  unfold attr_gate
  simp only [bind_eq_ok, checked_xcalloc_eq_ok (show 1 * sizeof_Attr + 0 < 2 ^ 64 by decide),
    checked_xcalloc_eq_ok hlen, hchecks, Nat.mul_one, Nat.one_mul]
  constructor
  · rintro ⟨_, ⟨hrecord, -⟩, _, ⟨hdata, -⟩, hsum, hdump⟩
    exact ⟨hsum, hrecord, hdata, hdump⟩
  · rintro ⟨hsum, hrecord, hdata, hdump⟩
    exact ⟨_, ⟨hrecord, rfl⟩, _, ⟨hdata, rfl⟩, hsum, hdump⟩

/-- At the end of a regular file the loop leaves, with the indicator set. -/
theorem attr_loop_at_end {ω σ : Type} (o : Options) (body : Attr → σ → Act Stop ω σ) (s : σ) :
    attr_loop o body { rest := [] } s = pure ({ rest := [], eof := true }, s) :=
  attr_loop_end rfl rfl

/-- Forward: a list of encoded attributes is collected, and the end is the end. -/
theorem attr_loop_collect {o : Options} (hk : o.checksum_ok = false) (as : List Attr)
    (hread : ∀ a ∈ as, Readable o a) (s : List Attr) :
    attr_loop o collect { rest := as.flatMap encode_attr } s
      = pure ({ rest := [], eof := true }, s ++ as) := by
  have hbefore : ({ rest := as.flatMap encode_attr } : Input)
      = ({ rest := [] } : Input).before
        ((as.map fun a => (a, byte_sum a.data)).flatMap fun x => encode_raw x.1 x.2) := by
    rw [List.flatMap_map, Input.before, List.append_nil]
    rfl
  have hfold : ∀ (as : List Attr), (∀ a ∈ as, Readable o a) → ∀ s : List Attr,
      (as.map fun a => (a, byte_sum a.data)).foldlM (m := Act Stop Unit)
        (fun s x => lift (attr_gate o x.1 x.2) >>= fun _ => collect x.1 s) s = pure (s ++ as) := by
    intro as
    induction as with
    | nil =>
      intro _ s
      rw [List.append_nil]
      rfl
    | cons a as ih =>
      intro hread s
      have ha : attr_gate o a (byte_sum a.data) = .ok () :=
        (attr_gate_eq_ok hk).mpr ⟨rfl, hread a (List.mem_cons_self ..)⟩
      rw [List.map_cons, List.foldlM_cons, ha, lift_ok, pure_bind, collect, pure_bind,
        ih (fun b hb => hread b (List.mem_cons_of_mem _ hb)), List.append_assoc,
        List.singleton_append]
  rw [hbefore, attr_loop_before o collect rfl, hfold as hread, pure_bind, attr_loop_at_end]

/-- Backward: what a clean run has collected stood encoded in the file. -/
theorem attr_loop_collected {o : Options} (hk : o.checksum_ok = false) {inp inp' : Input}
    {s as : List Attr} (hrest : inp'.rest = [])
    (h : exec (attr_loop o collect inp s) () = (.ok (inp', as), ())) :
    ∃ bs, as = s ++ bs ∧ inp.rest = bs.flatMap encode_attr ∧ ∀ a ∈ bs, Readable o a := by
  induction inp using attr_loop_induction o collect generalizing s with
  | throws inp e hloop =>
    rw [hloop] at h
    cases h
  | leaves inp inp₁ hsame hloop =>
    rw [hloop] at h
    cases h
    refine ⟨[], by rw [List.append_nil], ?_, by simp⟩
    rw [← hsame, hrest, List.flatMap_nil]
  | turn inp a inp₁ hread hloop ih =>
    rw [hloop, collect, pure_bind] at h
    obtain ⟨bs, has, hbs, hall⟩ := ih h
    obtain ⟨k, hinp, hgate⟩ := attr_read_eq_ok.mp (read_object_inv hread)
    obtain ⟨rfl, ha⟩ := (attr_gate_eq_ok hk).mp hgate
    refine ⟨a :: bs, ?_, ?_, ?_⟩
    · rw [has, List.append_assoc, List.singleton_append]
    · rw [hinp, Input.before_rest, hbs, List.flatMap_cons, encode_attr]
    · intro b hb
      rcases List.mem_cons.mp hb with rfl | hb
      · exact ha
      · exact hall b hb

/-- Without a limit and without `--debug`, every attribute can be read. -/
theorem readable_of_unlimited {o : Options} (hlimit : o.alloc_limit = 0) (hdbg : o.dbg_out = false)
    (attr : Attr) : Readable o attr :=
  ⟨Or.inl hlimit, Or.inl hlimit, fun h => absurd (hdbg.symm.trans h) (by decide)⟩

/-- **The framing is a bijection.** Unlimited and quiet, the loop reads every list of
encoded attributes back and stops at the end; and under any options that keep the
checksum, the files it reads to the end with nothing left over are exactly the encodings
of lists of readable attributes, each giving its own list. -/
theorem attr_loop_iff (o : Options) (hk : o.checksum_ok = false) :
    (o.alloc_limit = 0 → o.dbg_out = false → ∀ as : List Attr,
      exec (attr_loop o collect { rest := as.flatMap encode_attr } []) ()
        = (.ok ({ rest := [], eof := true }, as), ()))
    ∧ ∀ (bs : List UInt8) (as : List Attr),
      (∃ inp', exec (attr_loop o collect { rest := bs } []) () = (.ok (inp', as), ())
        ∧ inp'.rest = [])
      ↔ bs = as.flatMap encode_attr ∧ ∀ a ∈ as, Readable o a := by
  have hforward : ∀ as : List Attr, (∀ a ∈ as, Readable o a) →
      exec (attr_loop o collect { rest := as.flatMap encode_attr } []) ()
        = (.ok ({ rest := [], eof := true }, as), ()) := by
    intro as hread
    rw [attr_loop_collect hk as hread, List.nil_append, exec_pure]
  refine ⟨?_, ?_⟩
  · intro hlimit hdbg as
    exact hforward as fun a _ => readable_of_unlimited hlimit hdbg a
  · intro bs as
    constructor
    · rintro ⟨inp', h, hrest⟩
      obtain ⟨as', has, hbs, hread⟩ := attr_loop_collected hk hrest h
      rw [List.nil_append] at has
      subst has
      exact ⟨hbs, hread⟩
    · rintro ⟨rfl, hread⟩
      exact ⟨_, hforward as hread, rfl⟩

theorem attr_loop_iff_witness :
    exec (attr_loop {} collect { rest := [1, 0x0c, 0x80, 2, 0, 1, 0, 0, 0, 65, 65, 0,
        2, 0x02, 0x90, 6, 0, 0, 0, 0, 0, 0, 0] } []) ()
      = (.ok ({ rest := [], eof := true },
          [⟨.LVL_MESSAGE, szTEXT, attBODY, [65], by decide⟩,
            ⟨.LVL_ATTACHMENT, szBYTE, attATTACHRENDDATA, [], by decide⟩]), ()) := by
  have hbytes : ([1, 0x0c, 0x80, 2, 0, 1, 0, 0, 0, 65, 65, 0,
        2, 0x02, 0x90, 6, 0, 0, 0, 0, 0, 0, 0] : List UInt8)
      = ([⟨.LVL_MESSAGE, szTEXT, attBODY, [65], by decide⟩,
          ⟨.LVL_ATTACHMENT, szBYTE, attATTACHRENDDATA, [], by decide⟩] : List Attr).flatMap
        encode_attr := by decide
  rw [hbytes]
  exact (attr_loop_iff {} rfl).1 rfl rfl _

end Tnef
