/-
The stored form of a body beside the compressed one.

Both carry the sixteen-byte header, and both are meant to give the document back.
The compressed branch starts behind the header. The stored branch starts at offset
4, so it returns the last twelve header bytes and then the front of the document;
`get_rtf_data_stored` says so, and `stored_agrees_iff` which documents cannot tell
the difference: those that go round in the twelve bytes of their own header.
-/
import Tnef.RtfSafe

set_option autoImplicit false

namespace Tnef

open ExceptRules Slice LittleEndian

/-! ## Going round in a block -/

/-- `u` is the front of `w` repeated without end. -/
def Repeats {α : Type} (w u : List α) : Prop := ∀ i, i < u.length → u[i]? = w[i % w.length]?

/-- A list does not change when `w` is put in front and the excess cut off behind,
exactly when it repeats `w`. -/
theorem take_append_self_iff {α : Type} {w u : List α} (hw : w ≠ []) :
    (w ++ u).take u.length = u ↔ Repeats w u := by
  have hpos : 0 < w.length := List.length_pos_iff.mpr hw
  have hcell : ∀ i, i < u.length → ((w ++ u).take u.length)[i]?
      = if i < w.length then w[i]? else u[i - w.length]? := by
    intro i hi
    rw [List.getElem?_take_of_lt hi]
    by_cases hiw : i < w.length
    · rw [if_pos hiw, List.getElem?_append_left hiw]
    · rw [if_neg hiw, List.getElem?_append_right (by omega)]
  -- one block further back the residue is the same
  have hmod : ∀ i, ¬ i < w.length → (i - w.length) % w.length = i % w.length := by
    intro i hi
    rw [← Nat.add_mod_right (i - w.length) w.length, Nat.sub_add_cancel (by omega)]
  constructor
  · intro h i
    induction i using Nat.strong_induction_on with
    | _ i ih =>
      intro hi
      have hshift := hcell i hi
      rw [h] at hshift
      by_cases hiw : i < w.length
      · rw [hshift, if_pos hiw, Nat.mod_eq_of_lt hiw]
      · rw [hshift, if_neg hiw, ih (i - w.length) (by omega) (by omega), hmod i hiw]
  · intro h
    apply List.ext_getElem?
    intro i
    by_cases hi : i < u.length
    · rw [hcell i hi, h i hi]
      by_cases hiw : i < w.length
      · rw [if_pos hiw, Nat.mod_eq_of_lt hiw]
      · rw [if_neg hiw, h (i - w.length) (by omega), hmod i hiw]
    · rw [List.getElem?_eq_none (by rw [List.length_take]; omega),
        List.getElem?_eq_none (by omega)]

/-! ## The stored branch -/

/-- The stored value of `u`. -/
def rtf_stored (u : List UInt8) (checksum : UInt32) : List UInt8 :=
  rtf_header (u.length + 12) u.length rtf_uncompressed_magic checksum ++ u

/-- The header without its first word. -/
def stored_words (u : List UInt8) (checksum : UInt32) : List UInt8 :=
  le32 (UInt32.ofNat u.length) ++ le32 rtf_uncompressed_magic ++ le32 checksum

theorem stored_words_length (u : List UInt8) (k : UInt32) : (stored_words u k).length = 12 := rfl

/-- What the stored branch returns: the front of header and document from offset 4 on. -/
theorem get_rtf_data_stored (o : Options) {u : List UInt8} (k : UInt32) (hu : u ≠ [])
    (hlen : u.length + 12 < 2 ^ 32) (hlim : o.Admits 16) (hlim' : o.Admits u.length) :
    get_rtf_data o (rtf_attr (rtf_stored u k))
      = .ok [some ⟨u.length, .full ((stored_words u k ++ u).take u.length)⟩, none] := by
  have hpos : 0 < u.length := List.length_pos_iff.mpr hu
  have hvlen : (rtf_stored u k).length = 16 + u.length := by
    rw [rtf_stored, List.length_append, rtf_header_length]
  have hcompr : (UInt32.ofNat (u.length + 12)).toNat = u.length + 12 :=
    UInt32.toNat_ofNat_of_lt' hlen
  have huncompr : (UInt32.ofNat u.length).toNat = u.length :=
    UInt32.toNat_ofNat_of_lt' (show _ < 2 ^ 32 by omega)
  have hw := rtf_header_words (u.length + 12) u.length rtf_uncompressed_magic k (u ++ [0])
  rw [← List.append_assoc, ← rtf_stored] at hw
  have hdrop : (rtf_stored u k ++ [0]).drop 4 = stored_words u k ++ u ++ [0] := rfl
  have hblock : rd_block (rtf_stored u k ++ [0]) 4 u.length
      = .ok ((stored_words u k ++ u).take u.length) := by
    rw [rd_block, if_pos (by rw [List.length_append, hvlen]; omega), hdrop,
      List.take_append_of_le_length (by rw [List.length_append]; omega)]
  have hgrant : checked_xcalloc o u.length 1 0 = .ok (u.length * 1 + 0) := by
    rw [checked_xcalloc_of_lt o (by omega), if_pos (by rw [Nat.mul_one]; exact hlim')]
  have hbuf : get_rtf_data_from_buf o (rtf_stored u k).length (rtf_stored u k ++ [0])
      = .ok (u.length, .full ((stored_words u k ++ u).take u.length)) := by
    rw [get_rtf_data_from_buf_eq o hw (by omega) (by rw [hcompr, hvlen]; omega),
      if_pos rfl, huncompr, hgrant, ok_bind, hblock, ok_bind, pure_eq_ok]
  rw [rtf_stored] at hbuf ⊢
  rw [get_rtf_data_header o _ _ _ (.inl rfl) hlim, hbuf, ok_bind]

/-- **When the two forms agree.** The stored value of `u` gives `u` back, as every
compressed value of `u` does, exactly when `u` repeats the header behind its first word. -/
theorem stored_agrees_iff (o : Options) {u : List UInt8} (k : UInt32)
    {toks : List (Window.Token UInt8)} {elen : ℕ} (hu : u ≠ []) (htoks : Tokenises toks u)
    (helo : 2 ≤ elen) (hehi : elen ≤ 17) (hlen : u.length + 12 < 2 ^ 32)
    (hpay : (lzfu_payload elen toks).length + 12 < 2 ^ 32) (hlim : o.Admits 16)
    (hlim' : o.Admits u.length) :
    (get_rtf_data o (rtf_attr (rtf_stored u k)) = .ok [some ⟨u.length, .full u⟩, none]
      ∧ get_rtf_data o (rtf_attr (rtf_stored u k)) = get_rtf_data o (rtf_attr (lzfu elen u toks)))
      ↔ Repeats (stored_words u k) u := by
  have hlzfu : get_rtf_data o (rtf_attr (lzfu elen u toks))
      = .ok [some ⟨u.length, .full u⟩, none] := by
    have hbuf := get_rtf_data_from_buf_lzfu o hu htoks helo hehi (by omega) hpay hlim'
    rw [lzfu] at hbuf ⊢
    rw [get_rtf_data_header o _ _ _ (.inr rfl) hlim, hbuf, ok_bind]
  have hw : stored_words u k ≠ [] := by
    intro h
    have h12 := stored_words_length u k
    rw [h] at h12
    exact absurd h12 (by decide)
  rw [hlzfu, and_self, get_rtf_data_stored o k hu hlen hlim hlim', ← take_append_self_iff hw]
  constructor
  · intro h
    simpa [Buffer.full] using h
  · intro h
    rw [h]

theorem tokenises_lit (b : UInt8) : Tokenises [.lit b] [b] := by
  refine ⟨?_, Window.expand_lit rtf_prebuf b⟩
  simp [TokenOk]

/-- Two items in one group: the control byte, the literal and the end reference. -/
theorem lzfu_payload_lit_length (elen : ℕ) (b : UInt8) :
    (lzfu_payload elen [.lit b]).length = 4 := by
  rw [lzfu_payload, pack_of_ne_nil (items_ne_nil _ _ _)]
  simp [items, token_item, ref_bytes, pack]

/-- A document of the single byte 1 is the first byte of its own length word. -/
theorem stored_agrees_iff_witness :
    (get_rtf_data {} (rtf_attr (rtf_stored [1] 0)) = .ok [some ⟨1, .full [1]⟩, none]
      ∧ get_rtf_data {} (rtf_attr (rtf_stored [1] 0))
        = get_rtf_data {} (rtf_attr (lzfu 2 [1] [.lit 1])))
      ↔ Repeats (stored_words [1] 0) [1] :=
  @stored_agrees_iff {} [1] 0 [.lit 1] 2 (by decide) (tokenises_lit 1) (by decide) (by decide)
    (by decide) (by rw [lzfu_payload_lit_length]; decide) (.inl rfl) (.inl rfl)

/-- A document of the single letter `A` comes back as the byte 1. -/
theorem stored_disagrees :
    ¬ ∀ (o : Options) (u : List UInt8) (k : UInt32) (toks : List (Window.Token UInt8)) (elen : ℕ),
      u ≠ [] → Tokenises toks u → 2 ≤ elen → elen ≤ 17 → u.length + 12 < 2 ^ 32 →
      (lzfu_payload elen toks).length + 12 < 2 ^ 32 → o.Admits 16 → o.Admits u.length →
      get_rtf_data o (rtf_attr (rtf_stored u k)) = .ok [some ⟨u.length, .full u⟩, none]
        ∧ get_rtf_data o (rtf_attr (rtf_stored u k))
          = get_rtf_data o (rtf_attr (lzfu elen u toks)) := by
  intro h
  have hsame := (h {} [65] 0 [.lit 65] 2 (by decide) (tokenises_lit 65) (by decide) (by decide)
    (by decide) (by rw [lzfu_payload_lit_length]; decide) (.inl rfl) (.inl rfl)).1
  revert hsame
  decide +kernel

end Tnef
