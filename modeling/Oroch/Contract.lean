import Oroch.IntegerCodec

/-!
# Metadata that describes a sequence

Encoding is faithful when the metadata suits the sequence: the origin and the width
of a packed encoding hold every value, the outlier descriptors of the patched one
hold the outliers. `Describes` adds that the sizes in the metadata are the sizes of
what is written. Everything a reader of the format relies on follows from it;
how the metadata came about does not matter.
-/

namespace Oroch

open Cursor

namespace IntegerCodec

section Basic

variable {I : IntType}

/-- The parameters of a basic encoding hold the values. -/
def Fits (desc : Descriptor I) (vs : List I.Original) : Prop :=
  match desc.encoding with
  | .naught => ∀ v ∈ vs, v = desc.origin
  | .normal | .varint | .varfor => True
  | .bitpck => (1 ≤ desc.nbits ∧ desc.nbits ≤ 64) ∧
      ∀ v ∈ vs, (code (ZigzagCodec.mk (T := I)) v).toNat < 2 ^ desc.nbits
  | .bitfor => (1 ≤ desc.nbits ∧ desc.nbits ≤ 64) ∧
      ∀ v ∈ vs, (v - desc.origin : I.Unsigned).toNat < 2 ^ desc.nbits
  | .bitpfr | .unnamed _ _ => False

/-- The bytes a basic encoding takes. -/
def basicSpace (desc : Descriptor I) (vs : List I.Original) : Nat :=
  match desc.encoding with
  | .normal => NormalCodec.space I vs.length
  | .varint => VarintCodec.space vs (ZigzagCodec.mk (T := I))
  | .varfor => VarintCodec.space vs (OriginCodec.mk desc.origin)
  | .bitpck | .bitfor => BitpckCodec.space vs.length desc.nbits
  | .naught | .bitpfr | .unnamed _ _ => 0

/-- A basic encoding whose parameters fit is written in the predicted space and read
back from it. -/
theorem basic_run {desc : Descriptor I} {vs : List I.Original} (fits : Fits desc vs) :
    ∃ bs, encodeBasic vs desc = .ok bs ∧ bs.length = basicSpace desc vs ∧
      ∀ dst : List I.Original, dst.length = vs.length → Consumes (decodeBasic dst desc) bs vs := by
  rcases desc with ⟨e, dataspace, metaspace, origin, nbits⟩
  cases e with
  | naught =>
    refine ⟨_, rfl, rfl, ?_⟩
    intro dst len
    rw [decodeBasic, len]
    exact NaughtCodec.consumes_encode fits
  | normal =>
    refine ⟨_, rfl, NormalCodec.length_encode vs, ?_⟩
    intro dst len
    rw [decodeBasic, len]
    exact NormalCodec.consumes_encode vs
  | varint =>
    refine ⟨_, rfl, VarintCodec.length_encode vs _, ?_⟩
    intro dst len
    rw [decodeBasic, len]
    exact VarintCodec.consumes_encode _ vs
  | varfor =>
    refine ⟨_, rfl, VarintCodec.length_encode vs _, ?_⟩
    intro dst len
    rw [decodeBasic, len]
    exact VarintCodec.consumes_encode _ vs
  | bitpck =>
    obtain ⟨⟨h1, h64⟩, fits⟩ := fits
    refine ⟨_, rfl, (BitpckCodec.encode_run h1 h64 vs _).2.1, ?_⟩
    intro dst len
    rw [decodeBasic, len]
    exact BitpckCodec.consumes_encode_of_fits h1 h64 _ vs fits
  | bitfor =>
    obtain ⟨⟨h1, h64⟩, fits⟩ := fits
    refine ⟨_, rfl, BitforCodec.length_encode h1 h64 vs, ?_⟩
    intro dst len
    rw [decodeBasic, len]
    exact BitforCodec.consumes_encode h1 h64 vs fits
  | bitpfr => exact fits.elim
  | unnamed id h => exact fits.elim

/-- Decoding depends on no more of a descriptor than its serialised content. -/
theorem decodeBasic_agrees {d e : Descriptor I} (h : d.Agrees e) (dst : List I.Original) :
    decodeBasic dst d = decodeBasic dst e := by
  rcases d with ⟨k, dataspace, metaspace, origin, nbits⟩
  rcases e with ⟨k', dataspace', metaspace', origin', nbits'⟩
  obtain rfl : k = k' := h.encoding
  have sameOrigin := h.origin
  have sameNbits := h.nbits
  cases k with
  | naught | varfor =>
    obtain rfl : origin = origin' := sameOrigin rfl
    rfl
  | normal | varint | bitpfr | unnamed => rfl
  | bitpck =>
    obtain rfl : nbits = nbits' := sameNbits rfl
    rfl
  | bitfor =>
    obtain rfl : origin = origin' := sameOrigin rfl
    obtain rfl : nbits = nbits' := sameNbits rfl
    rfl

end Basic

variable {T : IntType}

/-- The outliers of a sequence under the metadata of a patched encoding. -/
def outliers (m : Metadata T) (s : List T.Original) : BitpfrCodec.Exceptions T :=
  BitpfrCodec.outliers m.valueDesc.nbits m.valueDesc.origin s

/-- The parameters of a patched encoding hold the values and their outliers. -/
structure FitsPatched (m : Metadata T) (s : List T.Original) : Prop where
  encoding : m.valueDesc.encoding = .bitpfr
  width : 1 ≤ m.valueDesc.nbits ∧ m.valueDesc.nbits ≤ 63
  noutliers : m.noutliers.toNat = (outliers m s).indices.length
  index : Fits m.outlierIndexDesc (outliers m s).indices
  value : Fits (I := T.makeUnsigned) m.outlierValueDesc (outliers m s).values

/-- The bytes a patched encoding takes. -/
def patchedSpace (m : Metadata T) (s : List T.Original) : Nat :=
  BitpckCodec.space s.length m.valueDesc.nbits +
    basicSpace (I := T.makeUnsigned) m.outlierValueDesc (outliers m s).values +
    basicSpace m.outlierIndexDesc (outliers m s).indices

/-- The metadata describes the sequence: it suits the values, announces its own size
and the size of the data, and can be written. -/
structure Describes (m : Metadata T) (s : List T.Original) : Prop where
  suits : Fits m.valueDesc s ∧ m.dataspace = basicSpace m.valueDesc s ∨
    FitsPatched m s ∧ m.dataspace = patchedSpace m s
  metaspace : m.encode.length = m.metaspace
  expressible : m.Expressible

theorem Fits.not_patched {desc : Descriptor T} {s : List T.Original} (h : Fits desc s) :
    desc.encoding ≠ .bitpfr := by
  intro patched
  rw [Fits, patched] at h
  exact h

theorem outliers_lengths (m : Metadata T) (s : List T.Original) :
    (outliers m s).values.length = (outliers m s).indices.length := by
  simp only [outliers, BitpfrCodec.outliers, List.length_map, length_gaps,
    BitpfrCodec.length_highs]

theorem patched_run {m : Metadata T} {s : List T.Original} (fits : FitsPatched m s)
    (room : s.length < 2 ^ 64) :
    ∃ bs, encodeBitpfr s m = .ok bs ∧ bs.length = patchedSpace m s ∧
      ∀ (k : Metadata T) (dst : List T.Original), m.Agrees k → dst.length = s.length →
        Consumes (decodeBitpfr dst k) bs s := by
  obtain ⟨h1, h63⟩ := fits.width
  obtain ⟨rs, writtenRegular, lenRegular, readRegular⟩ :=
    BitpfrCodec.encode_run h1 h63 m.valueDesc.origin s
  obtain ⟨is, writtenIndices, lenIndices, readIndices⟩ := basic_run fits.index
  obtain ⟨vs, writtenValues, lenValues, readValues⟩ := basic_run fits.value
  refine ⟨rs ++ (is ++ vs), ?_, ?_, ?_⟩
  · rw [outliers] at writtenIndices writtenValues
    rw [encodeBitpfr]
    simp only [writtenRegular, writtenIndices, writtenValues]
    rfl
  · rw [List.length_append, List.length_append, lenRegular, lenIndices, lenValues, patchedSpace]
    omega
  · intro k dst agrees same
    have origin : m.valueDesc.origin = k.valueDesc.origin :=
      agrees.valueDesc.origin (by rw [fits.encoding]; rfl)
    have nbits : m.valueDesc.nbits = k.valueDesc.nbits :=
      agrees.valueDesc.nbits (by rw [fits.encoding]; rfl)
    have count : (List.replicate k.noutliers.toNat (0 : sizeT.Original)).length =
        (outliers m s).indices.length := by
      rw [List.length_replicate, ← agrees.noutliers fits.encoding, fits.noutliers]
    have countValues : (List.replicate k.noutliers.toNat (0 : T.Unsigned)).length =
        (outliers m s).values.length := by
      rw [outliers_lengths, ← count, List.length_replicate, List.length_replicate]
    have patched := BitpfrCodec.decodePatch_run m.valueDesc.nbits m.valueDesc.origin s 0
      (Nat.le_of_lt room)
    rw [decodeBitpfr, ← origin, ← nbits, same,
      ← decodeBasic_agrees (agrees.outlierIndexDesc fits.encoding),
      ← decodeBasic_agrees (agrees.outlierValueDesc fits.encoding)]
    refine (readRegular _).bind ((readIndices _ count).bind ?_)
    rw [← List.append_nil vs]
    refine (readValues _ countValues).bind ?_
    intro rest
    rw [outliers, patched]
    rfl

/-- What is written for a described sequence takes the announced space, and any
metadata with the same serialised content reads it back. -/
theorem described_run {m : Metadata T} {s : List T.Original} (h : Describes m s)
    (room : s.length < 2 ^ 64) :
    ∃ bs, encode s m = .ok bs ∧ bs.length = m.dataspace ∧
      ∀ (k : Metadata T) (dst : List T.Original), m.Agrees k → dst.length = s.length →
        Consumes (decode dst k) bs s := by
  rcases h.suits with ⟨fits, space⟩ | ⟨fits, space⟩
  · obtain ⟨bs, written, len, read⟩ := basic_run fits
    refine ⟨bs, ?_, len.trans space.symm, ?_⟩
    · rw [encode, if_neg fits.not_patched, written]
    · intro k dst agrees same
      have basic : k.valueDesc.encoding ≠ .bitpfr := by
        rw [← agrees.valueDesc.encoding]
        exact fits.not_patched
      rw [decode, if_neg basic, ← decodeBasic_agrees agrees.valueDesc]
      exact read dst same
  · obtain ⟨bs, written, len, read⟩ := patched_run fits room
    refine ⟨bs, ?_, len.trans space.symm, ?_⟩
    · rw [encode, if_pos fits.encoding, written]
    · intro k dst agrees same
      have patched : k.valueDesc.encoding = .bitpfr := by
        rw [← agrees.valueDesc.encoding]
        exact fits.encoding
      rw [decode, if_pos patched]
      exact read k dst agrees same

end IntegerCodec

end Oroch
