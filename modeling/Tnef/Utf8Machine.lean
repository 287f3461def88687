/-
The conversion step by step: every read of the buffer and every write of the block.

`unicode_step` is `unicode_to_utf8` as a machine, one store at a time, with `i` and `j`
exact integers. At every point what has been written and what is still to come make up the
same text (`ConvSound.text`), so `j` is bounded by the length of that text, whatever
mixture of one, two and three bytes it is made of.
-/
import Tnef.Lib.Machine
import Tnef.Util

set_option autoImplicit false

namespace Tnef

open ExceptRules Machine Slice LittleEndian

/-! ## The machine -/

/-- A cell of the buffer or of the block. -/
inductive ConvAccess
  | buf (k : ℕ)
  | utf8 (k : ℕ)
  deriving DecidableEq, Repr

/-- Where the run is; `utf8` holds the `j` bytes written so far. -/
inductive ConvPoint
  /-- The top of `for (i = 0; i < len - 1; i += 2)`. -/
  | head (i : ℕ) (utf8 : List UInt8)
  /-- In a turn of the loop, with `bytes` still to be stored. -/
  | put (i : ℕ) (bytes utf8 : List UInt8)
  /-- Behind `utf8[j] = '\0'`. -/
  | done (i : ℕ) (utf8 : List UInt8)
  deriving DecidableEq, Repr

def ConvPoint.i : ConvPoint → ℕ
  | .head i _ => i
  | .put i _ _ => i
  | .done i _ => i

def ConvPoint.utf8 : ConvPoint → List UInt8
  | .head _ utf8 => utf8
  | .put _ _ utf8 => utf8
  | .done _ utf8 => utf8

/-- The index of the next store. The terminator does not move it. -/
def ConvPoint.j (c : ConvPoint) : ℕ := c.utf8.length

/-- The size of the block. -/
abbrev utf8_size (len : ℕ) : ℕ := 3 * len / 2 + 1

/-- A store through `utf8[j]`. -/
def utf8_store (len : ℕ) (utf8 : List UInt8) (next : ConvPoint) :
    M (Option (List ConvAccess × ConvPoint)) :=
  if utf8.length < utf8_size len then .ok (some ([.utf8 utf8.length], next)) else .error .fault

def unicode_step (len : ℕ) (buf : List UInt8) : StepFn Stop ConvAccess ConvPoint
  | .head i utf8 =>
    -- the loop stands behind `if (len > 0)`, so `len - 1` does not wrap
    if len > 0 ∧ i < len - 1 then do
      let c ← GETINT16 buf i
      return some ([.buf i, .buf (i + 1)], .put i (utf8_unit c.toUInt32) utf8)
    else
      utf8_store len utf8 (.done i utf8)
  | .put i (b :: bytes) utf8 => utf8_store len utf8 (.put i bytes (utf8 ++ [b]))
  | .put i [] utf8 => .ok (some ([], .head (i + 2) utf8))
  | .done _ _ => .ok none

/-- A run of `unicode_to_utf8` from behind its setup. -/
abbrev ConvRun (len : ℕ) (buf : List UInt8) (tr : List ConvAccess) (c : ConvPoint) : Prop :=
  Steps (unicode_step len buf) (.head 0 []) tr c

theorem utf8_store_ne_none {len : ℕ} {utf8 : List UInt8} {next : ConvPoint} :
    utf8_store len utf8 next ≠ .ok none := by
  unfold utf8_store
  split_ifs <;> simp

/-- The machine halts behind the terminator only. -/
theorem done_of_halt {len : ℕ} {buf : List UInt8} {c : ConvPoint}
    (h : unicode_step len buf c = .ok none) : ∃ i utf8, c = .done i utf8 := by
  cases c with
  | done i utf8 => exact ⟨i, utf8, rfl⟩
  | head i utf8 =>
    rw [unicode_step] at h
    split_ifs at h
    · simp only [bind_eq_ok, pure_eq_ok, Except.ok.injEq] at h
      obtain ⟨_, -, h⟩ := h
      cases h
    · exact absurd h utf8_store_ne_none
  | put i bytes utf8 =>
    cases bytes with
    | nil => cases h
    | cons b bytes => exact absurd h utf8_store_ne_none

/-! ## Every point of a run -/

/-- The cell lies in the buffer, or in the block. -/
def ConvAccess.Within (len : ℕ) : ConvAccess → Prop
  | .buf k => k < len
  | .utf8 k => k < utf8_size len

def ConvAccess.utf8? : ConvAccess → Option ℕ
  | .utf8 k => some k
  | .buf _ => none

/-- The cells of the block that have been written, in order. -/
def utf8_writes (tr : List ConvAccess) : List ℕ := tr.filterMap ConvAccess.utf8?

/-- What the run has still to write in front of the terminator. -/
def ConvPoint.pending (bs : List UInt8) : ConvPoint → List UInt8
  | .head i _ => utf8_units (bs.drop i)
  | .put i bytes _ => bytes ++ utf8_units (bs.drop (i + 2))
  | .done _ _ => []

/-- How many bytes have been written. -/
def ConvPoint.written : ConvPoint → ℕ
  | .head _ utf8 => utf8.length
  | .put _ _ utf8 => utf8.length
  | .done _ utf8 => utf8.length + 1

/-- Where `i` can be. -/
def ConvPoint.Placed (len : ℕ) : ConvPoint → Prop
  | .head i _ => i ≤ len
  | .put i _ _ => i + 2 ≤ len
  | .done i _ => i ≤ len ∧ len ≤ i + 1

/-- What holds at every point of a run over the bytes `bs`. -/
structure ConvSound (bs : List UInt8) (tr : List ConvAccess) (c : ConvPoint) : Prop where
  text : c.utf8 ++ c.pending bs = utf8_units bs
  even : c.i % 2 = 0
  placed : c.Placed bs.length
  within : ∀ a ∈ tr, a.Within bs.length
  writes : utf8_writes tr = List.range c.written

section Invariant

variable {bs : List UInt8} {tr : List ConvAccess}

theorem convSound_init : ConvSound bs [] (.head 0 []) :=
  ⟨rfl, rfl, Nat.zero_le _, by simp, rfl⟩

/-- **`j` stays below the length of the text**: what is written and what is pending make it up. -/
theorem ConvSound.j_add {c : ConvPoint} (hs : ConvSound bs tr c) :
    c.j + (c.pending bs).length = (utf8_units bs).length := by
  rw [← hs.text, List.length_append]
  rfl

/-- Where `utf8[j]` is stored to, the block has a cell. -/
theorem ConvSound.room {c : ConvPoint} (hs : ConvSound bs tr c) : c.j < utf8_size bs.length := by
  have htext := utf8_units_length_le bs
  have hj := hs.j_add
  show c.j < 3 * bs.length / 2 + 1
  omega

theorem ConvSound.store_ok {c : ConvPoint} (hs : ConvSound bs tr c) (next : ConvPoint) :
    utf8_store bs.length c.utf8 next = .ok (some ([.utf8 c.j], next)) := if_pos hs.room

/-- A store keeps the invariant if it takes its byte from what is pending. -/
theorem ConvSound.store {c next : ConvPoint} (hs : ConvSound bs tr c)
    (hcount : c.written = c.j) (hwritten : next.written = c.j + 1)
    (htext : next.utf8 ++ next.pending bs = c.utf8 ++ c.pending bs) (heven : next.i = c.i)
    (hplaced : next.Placed bs.length) : ConvSound bs (tr ++ [.utf8 c.j]) next := by
  refine ⟨htext.trans hs.text, by rw [heven]; exact hs.even, hplaced, ?_, ?_⟩
  · intro a ha
    rcases List.mem_append.mp ha with ha | ha
    · exact hs.within a ha
    · rw [List.mem_singleton.mp ha]
      exact hs.room
  · have hone : utf8_writes [.utf8 c.j] = [c.j] := rfl
    rw [utf8_writes, List.filterMap_append, ← utf8_writes, ← utf8_writes, hs.writes, hone, hcount,
      hwritten, List.range_succ]

/-- A turn begins: the unit that is read is the first of what was pending. -/
theorem ConvSound.read {i : ℕ} {bytes utf8 : List UInt8} (hs : ConvSound bs tr (.head i utf8))
    (hunit : i + 1 < bs.length)
    (hbytes : utf8_units (bs.drop i) = bytes ++ utf8_units (bs.drop (i + 2))) :
    ConvSound bs (tr ++ [.buf i, .buf (i + 1)]) (.put i bytes utf8) := by
  refine ⟨?_, hs.even, hunit, ?_, ?_⟩
  · rw [← hs.text]
    exact congrArg (utf8 ++ ·) hbytes.symm
  · intro a ha
    rcases List.mem_append.mp ha with ha | ha
    · exact hs.within a ha
    · simp only [List.mem_cons, List.not_mem_nil, or_false] at ha
      rcases ha with rfl | rfl
      · exact (Nat.lt_succ_self i).trans hunit
      · exact hunit
  · have hnone : utf8_writes [.buf i, .buf (i + 1)] = [] := rfl
    rw [utf8_writes, List.filterMap_append, ← utf8_writes, ← utf8_writes, hnone,
      List.append_nil]
    exact hs.writes

/-- A turn ends: nothing is stored and nothing is read. -/
theorem ConvSound.turn_end {i : ℕ} {utf8 : List UInt8} (hs : ConvSound bs tr (.put i [] utf8)) :
    ConvSound bs (tr ++ []) (.head (i + 2) utf8) := by
  have heven : i % 2 = 0 := hs.even
  rw [List.append_nil]
  refine ⟨hs.text, ?_, hs.placed, hs.within, hs.writes⟩
  show (i + 2) % 2 = 0
  omega

/-- How many steps are left at most: a turn takes five. -/
def ConvPoint.todo (len : ℕ) : ConvPoint → ℕ
  | .head i _ => 5 * (len - i) + 1
  | .put i bytes _ => 5 * (len - (i + 2)) + bytes.length + 2
  | .done _ _ => 0

/-- **One step** from a point where the invariant holds: it does not fault, the invariant
holds where it leads, and fewer steps are left. -/
theorem ConvSound.step {buf : List UInt8} {c : ConvPoint} (hbuf : At buf 0 bs)
    (hs : ConvSound bs tr c) : ∃ next, unicode_step bs.length buf c = .ok next
      ∧ ∀ es c', next = some (es, c') →
        ConvSound bs (tr ++ es) c' ∧ c'.todo bs.length < c.todo bs.length := by
  cases c with
  | head i utf8 =>
    have hi : i ≤ bs.length := hs.placed
    by_cases hloop : bs.length > 0 ∧ i < bs.length - 1
    · have hunit : i + 1 < bs.length := by omega
      have hread := GETINT16_of_block hbuf hunit
      rw [Nat.zero_add] at hread
      refine ⟨_, by rw [unicode_step, if_pos hloop, hread]; rfl, ?_⟩
      rintro es c' ⟨⟩
      refine ⟨hs.read hunit (utf8_units_drop hunit), ?_⟩
      have hthree := utf8_unit_length_le (ofLe16 bs[i] bs[i + 1]).toUInt32
      show 5 * (bs.length - (i + 2)) + (utf8_unit _).length + 2 < 5 * (bs.length - i) + 1
      omega
    · refine ⟨_, by rw [unicode_step, if_neg hloop]; exact hs.store_ok _, ?_⟩
      rintro es c' ⟨⟩
      refine ⟨hs.store rfl rfl ?_ rfl ⟨hi, by omega⟩, Nat.succ_pos _⟩
      -- a stray last byte is not converted
      show utf8 ++ [] = utf8 ++ utf8_units (bs.drop i)
      rw [utf8_units_drop_end (by omega)]
  | put i bytes utf8 =>
    have hi : i + 2 ≤ bs.length := hs.placed
    cases bytes with
    | nil =>
      refine ⟨_, rfl, ?_⟩
      rintro es c' ⟨⟩
      refine ⟨hs.turn_end, ?_⟩
      show 5 * (bs.length - (i + 2)) + 1 < 5 * (bs.length - (i + 2)) + 0 + 2
      omega
    | cons b bytes =>
      refine ⟨_, hs.store_ok _, ?_⟩
      rintro es c' ⟨⟩
      refine ⟨hs.store rfl ?_ ?_ rfl hi, ?_⟩
      · exact List.length_append
      · show (utf8 ++ [b]) ++ (bytes ++ _) = utf8 ++ (b :: bytes ++ _)
        rw [List.append_assoc, List.singleton_append, List.cons_append]
      · show 5 * (bs.length - (i + 2)) + bytes.length + 2
          < 5 * (bs.length - (i + 2)) + (b :: bytes).length + 2
        rw [List.length_cons]
        omega
  | done i utf8 =>
    refine ⟨none, rfl, ?_⟩
    rintro es c' ⟨⟩

/-- **The invariant holds at every point of every run.** -/
theorem ConvRun.sound {buf : List UInt8} {c : ConvPoint} (hbuf : At buf 0 bs)
    (h : ConvRun bs.length buf tr c) : ConvSound bs tr c := by
  refine h.invariant convSound_init ?_
  intro tr c es c' hs hstep
  obtain ⟨next, hnext, hkeep⟩ := hs.step hbuf
  exact (hkeep es c' (Except.ok.inj (hnext.symm.trans hstep))).1

/-- **The run comes to an end**, and at its end the text is written. -/
theorem convRun_ends {buf : List UInt8} (hbuf : At buf 0 bs) : ∃ tr i,
    ConvRun bs.length buf tr (.done i (utf8_units bs))
      ∧ ConvSound bs tr (.done i (utf8_units bs)) := by
  obtain ⟨tr, d, hrun, hhalt, hs⟩ := Steps.exists_halt (ConvPoint.todo bs.length)
    (fun tr c hs => ConvSound.step hbuf hs) _ rfl .refl (@convSound_init bs)
  obtain ⟨i, utf8, rfl⟩ := done_of_halt hhalt
  have htext : utf8 ++ [] = utf8_units bs := hs.text
  rw [List.append_nil] at htext
  subst htext
  exact ⟨tr, i, hrun, hs⟩

end Invariant

theorem at_take {buf : List UInt8} {len : ℕ} (h : len ≤ buf.length) : At buf 0 (buf.take len) :=
  at_take_drop buf 0 len (by rwa [Nat.zero_add])

/-- **Reads and writes of the conversion**, for any bytes and any number of them. Every run
goes on to the same end, reads below `len` and writes the cells of the block once each from
the first one on; text and terminator are in the `3 * len / 2 + 1` bytes that are allocated,
and are what the function returns. -/
theorem unicode_to_utf8_run {len : ℕ} {buf : List UInt8} (hbuf : len ≤ buf.length) :
    (∀ tr c, ConvRun len buf tr c → ∀ a ∈ tr, a.Within len)
    ∧ ∃ tr i utf8, ConvRun len buf tr (.done i utf8)
      ∧ (∀ tr' c, ConvRun len buf tr' c →
        ∃ tr'', Steps (unicode_step len buf) c tr'' (.done i utf8) ∧ tr = tr' ++ tr'')
      ∧ utf8_writes tr = List.range (utf8.length + 1) ∧ utf8.length + 1 ≤ 3 * len / 2 + 1
      ∧ ∃ b, unicode_to_utf8 len buf 0 = .ok b ∧ b.bytes = utf8 ++ [0]
        ∧ b.size = 3 * len / 2 + 1 := by
  have hat := at_take hbuf
  have hlen : (buf.take len).length = len := List.length_take_of_le hbuf
  generalize buf.take len = bs at hat hlen
  subst hlen
  refine ⟨fun tr c h => (ConvRun.sound hat h).within, ?_⟩
  obtain ⟨tr, i, hrun, hs⟩ := convRun_ends hat
  refine ⟨tr, i, utf8_units bs, hrun, fun tr' c h => hrun.to_halt rfl h, hs.writes, hs.room, ?_⟩
  exact ⟨utf8_block bs, unicode_to_utf8_of_at hat, rfl, rfl⟩

/-- Three bytes of which the last one is dropped, with memory behind them. -/
theorem unicode_to_utf8_run_witness : ∃ tr i utf8,
    ConvRun 3 [0xac, 0x20, 0x41, 0x42] tr (.done i utf8) ∧ (∀ a ∈ tr, a.Within 3)
      ∧ utf8_writes tr = List.range (utf8.length + 1) ∧ utf8.length + 1 ≤ 5 := by
  have hbuf : 3 ≤ [(0xac : UInt8), 0x20, 0x41, 0x42].length := by decide
  obtain ⟨hwithin, tr, i, utf8, hrun, -, hwrites, hroom, -⟩ := unicode_to_utf8_run hbuf
  exact ⟨tr, i, utf8, hrun, hwithin tr _ hrun, hwrites, hroom⟩

end Tnef
