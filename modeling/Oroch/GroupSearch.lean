import Oroch.IntegerArray

/-!
# Searching a group

Whatever the encoding of a group, its search gives the position that a scan of the
decoded elements finds. The scans in place read the elements that the decoder reads; a
probe whose width exceeds the stored width cannot be among the elements.
-/

namespace Oroch

open Cursor

namespace IntegerGroup

variable {T : IntType}

/-- A code that needs more bits than the stored width is not below the power that bounds
the stored codes. -/
theorem absent_of_wide {src : List T.Original} {nbits : Nat} {code : T.Original → T.Unsigned}
    (narrow : ∀ v ∈ src, (code v).toNat < 2 ^ nbits) {value : T.Original}
    (wide : T.usedcount (code value) > nbits) : src.findIdx? (· = value) = none := by
  rw [List.findIdx?_eq_none_iff]
  intro v hv
  rw [decide_eq_false_iff_not]
  rintro rfl
  rw [usedcount_eq] at wide
  exact absurd (Nat.size_le.mpr (narrow v hv)) (Nat.not_le.mpr wide)

/-- In a constant sequence only the front can be found. -/
theorem findIdx?_constant {src : List T.Original} {origin : T.Original}
    (constant : ∀ v ∈ src, v = origin) (some : src ≠ []) (value : T.Original) :
    src.findIdx? (· = value) = if value = origin then Option.some 0 else none := by
  cases src with
  | nil => exact absurd rfl some
  | cons v src =>
    obtain rfl : v = origin := constant v List.mem_cons_self
    by_cases hit : value = v
    · rw [List.findIdx?_cons, if_pos (decide_eq_true hit.symm), if_pos hit]
    · rw [if_neg hit, List.findIdx?_eq_none_iff]
      intro w hw
      rw [constant w hw, decide_eq_false_iff_not]
      exact fun same => hit same.symm

/-- The result of a scan, from the position that it finds. -/
theorem elim_notFound (position : Option Nat) :
    position.elim notFound (0 + ·) = position.getD notFound := by
  cases position with
  | none => rfl
  | some i => exact Nat.zero_add i

theorem findDecoded_eq {self : IntegerGroup T} {src : List T.Original} (h : self.Stores src true)
    (full : src.length = groupSize) (storage : Storage T) (value : T.Original) :
    self.findDecoded storage value = .ok ((src.findIdx? (· = value)).getD notFound) := by
  rw [findDecoded, h.decode_buffer full]
  rfl

/-- A probe is rejected by its width or looked for among the decoded elements. -/
theorem probe_eq {self : IntegerGroup T} {src : List T.Original} {storage : Storage T}
    {value : T.Original} {nbits : Nat} {code : T.Original → T.Unsigned}
    (narrow : ∀ v ∈ src, (code v).toNat < 2 ^ nbits)
    (decoded : self.findDecoded storage value = .ok ((src.findIdx? (· = value)).getD notFound)) :
    (if T.usedcount (code value) > nbits then pure notFound
      else self.findDecoded storage value : Outcome Nat) =
      .ok ((src.findIdx? (· = value)).getD notFound) := by
  split
  · next wide =>
    rw [absent_of_wide narrow wide]
    rfl
  · exact decoded

/-- A scan of the encoded elements of a group. -/
theorem scan_eq {decode : ByteReader T.Original} {encode : T.Original → Bytes}
    (consumes : ∀ v, Consumes decode (encode v) v) {src : List T.Original}
    (full : src.length = groupSize) (value : T.Original) :
    ∃ left, (scan decode (· = value) notFound groupSize 0).run (src.flatMap encode) =
      .ok ((src.findIdx? (· = value)).getD notFound, left) := by
  obtain ⟨left, result⟩ := scan_result consumes (· = value) notFound src 0 []
  rw [full, List.append_nil, List.map_id', elim_notFound] at result
  exact ⟨left, result⟩

theorem find_eq {self : IntegerGroup T} {src : List T.Original} (h : self.Stores src true)
    (full : src.length = groupSize) (storage : Storage T) (value : T.Original) :
    self.find storage value = .ok ((src.findIdx? (· = value)).getD notFound) := by
  have decoded := findDecoded_eq h full storage value
  obtain ⟨m, k, bytes, described, agrees, written, located⟩ := h.locate (room_of_full full)
  have same := agrees.valueDesc.encoding
  have origin := agrees.valueDesc.origin
  have nbits := agrees.valueDesc.nbits
  rw [find, located]
  simp only [bind, Except.bind, ← same]
  rcases described.suits with ⟨fits, -⟩ | ⟨fits, -⟩
  · rw [IntegerCodec.encode, if_neg fits.not_patched, IntegerCodec.encodeBasic] at written
    rw [IntegerCodec.Fits] at fits
    cases encoding : m.valueDesc.encoding with
    | naught =>
      simp only [encoding] at fits origin ⊢
      have some : src ≠ [] := List.ne_nil_of_length_pos (full ▸ groupSize_pos)
      rw [← origin rfl, findIdx?_constant fits some]
      split <;> rfl
    | normal =>
      simp only [encoding] at written ⊢
      obtain ⟨left, scanned⟩ := scan_eq (consumes_loadInt T) full value
      obtain rfl : NormalCodec.encode src = bytes := Except.ok.inj written
      rw [NormalCodec.encode, scanned]
      rfl
    | varint =>
      simp only [encoding] at written ⊢
      obtain ⟨left, scanned⟩ := scan_eq
        (VarintCodec.consumes_valueEncode (ZigzagCodec.mk (T := T))) full value
      obtain rfl : VarintCodec.encode src (ZigzagCodec.mk (T := T)) = bytes :=
        Except.ok.inj written
      rw [VarintCodec.encode, scanned]
      rfl
    | bitpck =>
      simp only [encoding] at fits nbits ⊢
      rw [← nbits rfl]
      exact probe_eq fits.2 decoded
    | bitfor =>
      simp only [encoding] at fits origin nbits ⊢
      rw [← origin rfl, ← nbits rfl]
      exact probe_eq fits.2 decoded
    | varfor => exact decoded
    | bitpfr => rw [encoding] at fits; exact fits.elim
    | unnamed id h => exact decoded
  · rw [fits.encoding]
    exact decoded

end IntegerGroup

end Oroch
