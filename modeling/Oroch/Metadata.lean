import Oroch.Varint

/-!
# Encoding metadata

An encoded sequence is described by a few bytes: the encoding, then, depending on
it, the origin as a varint and the width as one byte; for the patched encoding
also the number of outliers and one byte for each of the two outlier streams,
in which 0 stands for varint and any other value for a packing width.

Reading goes into an existing object and leaves the fields that the encoding does
not carry as they were.
-/

namespace Oroch

open Cursor

/-- `encoding_t`; the enumeration has a fixed underlying type, so every byte is a
value of it. -/
inductive Encoding where
  | naught | normal | varint | varfor | bitpck | bitfor | bitpfr
  | unnamed (id : Byte) (h : 7 ≤ id.toNat)
  deriving DecidableEq, Repr

namespace Encoding

def toByte : Encoding → Byte
  | naught => 0
  | normal => 1
  | varint => 2
  | varfor => 3
  | bitpck => 4
  | bitfor => 5
  | bitpfr => 6
  | unnamed id _ => id

/-- `static_cast<encoding_t>(b)` -/
def ofByte (b : Byte) : Encoding :=
  if h : 7 ≤ b.toNat then unnamed b h
  else match b.toNat with
    | 0 => naught
    | 1 => normal
    | 2 => varint
    | 3 => varfor
    | 4 => bitpck
    | 5 => bitfor
    | _ => bitpfr

@[simp] theorem ofByte_toByte (e : Encoding) : ofByte e.toByte = e := by
  cases e with
  | unnamed id h => exact dif_pos h
  | _ => rfl

/-- The metadata carries an origin. -/
def hasOrigin : Encoding → Bool
  | naught | varfor | bitfor | bitpfr => true
  | _ => false

/-- The metadata carries a width. -/
def hasNbits : Encoding → Bool
  | bitpck | bitfor | bitpfr => true
  | _ => false

end Encoding

/-- `encoding_descriptor` -/
structure Descriptor (T : IntType) where
  encoding : Encoding
  dataspace : Nat
  metaspace : Nat
  origin : T.Original
  nbits : Nat
  deriving Repr

/-- `encoding_metadata` -/
structure Metadata (T : IntType) where
  valueDesc : Descriptor T
  noutliers : sizeT.Original
  outlierIndexDesc : Descriptor sizeT
  outlierValueDesc : Descriptor T.makeUnsigned
  deriving Repr

namespace Descriptor

variable {T : IntType}

/-- `clear`, which the constructor calls. -/
def clear (T : IntType) : Descriptor T := ⟨.normal, 0, 0, 0, 0⟩

/-- Two descriptors with the same serialised content. -/
structure Agrees (d e : Descriptor T) : Prop where
  encoding : d.encoding = e.encoding
  origin : d.encoding.hasOrigin = true → d.origin = e.origin
  nbits : d.encoding.hasNbits = true → d.nbits = e.nbits

end Descriptor

namespace Metadata

variable {T : IntType}

/-- A new object, or one after `clear`. -/
def fresh (T : IntType) : Metadata T := ⟨.clear T, 0, .clear sizeT, .clear T.makeUnsigned⟩

def dataspace (m : Metadata T) : Nat := m.valueDesc.dataspace

def metaspace (m : Metadata T) : Nat := 1 + m.valueDesc.metaspace

section Basic

variable {I : IntType}

/-- The `switch` of `encode_basic`. -/
def encodeFields (desc : Descriptor I) : Bytes :=
  match desc.encoding with
  | .naught | .varfor => VarintCodec.valueEncode desc.origin (ZigzagCodec.mk (T := I))
  | .normal | .varint => []
  | .bitpfr | .bitfor =>
    VarintCodec.valueEncode desc.origin (ZigzagCodec.mk (T := I)) ++ [BitVec.ofNat 8 desc.nbits]
  | .bitpck => [BitVec.ofNat 8 desc.nbits]
  | .unnamed _ _ => []

def encodeBasic (desc : Descriptor I) : Bytes := desc.encoding.toByte :: encodeFields desc

/-- The `switch` of `decode_basic`. -/
def decodeFields (desc : Descriptor I) : ByteReader (Descriptor I) :=
  match desc.encoding with
  | .naught | .varfor => do
    let origin ← VarintCodec.valueDecode (ZigzagCodec.mk (T := I))
    pure { desc with origin := origin }
  | .normal | .varint => pure desc
  | .bitpfr | .bitfor => do
    let origin ← VarintCodec.valueDecode (ZigzagCodec.mk (T := I))
    let nbits ← next
    pure { desc with origin := origin, nbits := nbits.toNat }
  | .bitpck => do
    let nbits ← next
    pure { desc with nbits := nbits.toNat }
  | .unnamed _ _ => pure desc

def decodeBasic (desc : Descriptor I) : ByteReader (Descriptor I) := do
  let encoding ← next
  decodeFields { desc with encoding := .ofByte encoding }

def encodeExtra (desc : Descriptor I) : Bytes :=
  [if desc.encoding = .bitpck then BitVec.ofNat 8 desc.nbits else 0]

def decodeExtra (desc : Descriptor I) : ByteReader (Descriptor I) := do
  let nbits ← next
  if nbits = 0 then
    pure { desc with encoding := .varint }
  else
    pure { desc with encoding := .bitpck, nbits := nbits.toNat }

end Basic

def encode (m : Metadata T) : Bytes :=
  encodeBasic m.valueDesc ++
    if m.valueDesc.encoding = .bitpfr then
      VarintCodec.valueEncode m.noutliers (ZigzagCodec.mk (T := sizeT)) ++
        (encodeExtra m.outlierIndexDesc ++ encodeExtra m.outlierValueDesc)
    else []

def decode (m : Metadata T) : ByteReader (Metadata T) := do
  let valueDesc ← decodeBasic m.valueDesc
  let m := { m with valueDesc := valueDesc }
  if valueDesc.encoding = .bitpfr then
    let noutliers ← VarintCodec.valueDecode (ZigzagCodec.mk (T := sizeT))
    let index ← decodeExtra m.outlierIndexDesc
    let value ← decodeExtra m.outlierValueDesc
    pure { m with noutliers := noutliers, outlierIndexDesc := index, outlierValueDesc := value }
  else
    pure m

theorem length_varint_le {I : IntType} (v : I.Original) :
    (VarintCodec.valueEncode v (ZigzagCodec.mk (T := I))).length ≤ 10 := by
  have most := VarintCodec.valueSpace_le_nbytemax v (ZigzagCodec.mk (T := I))
  have wide := I.nbits_le
  rw [VarintCodec.nbytemax, VarintCodec.nbitsSpace] at most
  rw [VarintCodec.length_valueEncode]
  omega

theorem length_encodeFields_le {I : IntType} (desc : Descriptor I) :
    (encodeFields desc).length ≤ 11 := by
  have origin := length_varint_le desc.origin
  rw [encodeFields]
  split <;> simp <;> omega

theorem length_encode_le (m : Metadata T) : (encode m).length ≤ 24 := by
  have fields := length_encodeFields_le m.valueDesc
  have noutliers := length_varint_le m.noutliers
  rw [encode, encodeBasic]
  split <;> simp [encodeExtra] <;> omega

section Restore

variable {I : IntType}

/-- A descriptor after reading the fields of another one. -/
def restore (prev desc : Descriptor I) : Descriptor I :=
  { prev with
    encoding := desc.encoding
    origin := if desc.encoding.hasOrigin then desc.origin else prev.origin
    nbits := if desc.encoding.hasNbits then desc.nbits else prev.nbits }

theorem agrees_restore (prev desc : Descriptor I) : desc.Agrees (restore prev desc) where
  encoding := rfl
  origin h := (if_pos h).symm
  nbits h := (if_pos h).symm

theorem consumes_width {n : Nat} (h : n < 256) (f : Nat → Descriptor I) :
    Consumes (do let nbits ← next; pure (f nbits.toNat)) [BitVec.ofNat 8 n] (f n) := by
  have read := (consumes_item Failure.undefined (BitVec.ofNat 8 n)).map fun b => f b.toNat
  rwa [BitVec.toNat_ofNat, Nat.mod_eq_of_lt h] at read

theorem consumes_origin (v : I.Original) :
    Consumes (VarintCodec.valueDecode (ZigzagCodec.mk (T := I)))
      (VarintCodec.valueEncode v (ZigzagCodec.mk (T := I))) v :=
  VarintCodec.consumes_valueEncode _ v

theorem consumes_decodeFields (prev desc : Descriptor I) (width : desc.nbits < 256) :
    Consumes (decodeFields { prev with encoding := desc.encoding }) (encodeFields desc)
      (restore prev desc) := by
  have origin := consumes_origin desc.origin
  rcases desc with ⟨e, dataspace, metaspace, base, nbits⟩
  cases e with
  | naught | varfor => exact origin.map _
  | normal | varint => exact consumes_pure _
  | unnamed id h => exact consumes_pure _
  | bitpfr | bitfor => exact origin.bind (consumes_width width _)
  | bitpck => exact consumes_width width _

theorem consumes_decodeBasic (prev desc : Descriptor I) (width : desc.nbits < 256) :
    Consumes (decodeBasic prev) (encodeBasic desc) (restore prev desc) := by
  have fields := consumes_decodeFields prev desc width
  rw [← Encoding.ofByte_toByte desc.encoding] at fields
  exact (consumes_item Failure.undefined desc.encoding.toByte).bind fields

/-- What `encode_extra` can express. -/
def Extra (desc : Descriptor I) : Prop :=
  desc.encoding = .varint ∨ desc.encoding = .bitpck ∧ 1 ≤ desc.nbits ∧ desc.nbits < 256

theorem consumes_decodeExtra (prev desc : Descriptor I) (h : Extra desc) :
    Consumes (decodeExtra prev) (encodeExtra desc) (restore prev desc) := by
  rcases desc with ⟨e, dataspace, metaspace, base, nbits⟩
  rcases h with rfl | ⟨rfl, positive, width⟩
  · exact (consumes_item Failure.undefined 0).bind (consumes_pure _)
  · have nonzero : ¬ BitVec.ofNat 8 nbits = 0 := by
      intro zero
      have value := congrArg BitVec.toNat zero
      rw [BitVec.toNat_ofNat, Nat.mod_eq_of_lt width] at value
      exact absurd value (Nat.pos_iff_ne_zero.mp positive)
    refine (consumes_item Failure.undefined (BitVec.ofNat 8 nbits)).bind ?_
    rw [if_neg nonzero, BitVec.toNat_ofNat, Nat.mod_eq_of_lt width]
    exact consumes_pure _

end Restore

/-- What the format can express. -/
structure Expressible (m : Metadata T) : Prop where
  width : m.valueDesc.nbits < 256
  index : m.valueDesc.encoding = .bitpfr → Extra m.outlierIndexDesc
  value : m.valueDesc.encoding = .bitpfr → Extra m.outlierValueDesc

/-- Two objects with the same serialised content. -/
structure Agrees (m k : Metadata T) : Prop where
  valueDesc : m.valueDesc.Agrees k.valueDesc
  noutliers : m.valueDesc.encoding = .bitpfr → m.noutliers = k.noutliers
  outlierIndexDesc : m.valueDesc.encoding = .bitpfr →
    m.outlierIndexDesc.Agrees k.outlierIndexDesc
  outlierValueDesc : m.valueDesc.encoding = .bitpfr →
    m.outlierValueDesc.Agrees k.outlierValueDesc

/-- The serialised content of `m`, read into `prev`. -/
def restored (prev m : Metadata T) : Metadata T :=
  if m.valueDesc.encoding = .bitpfr then
    ⟨restore prev.valueDesc m.valueDesc, m.noutliers,
      restore prev.outlierIndexDesc m.outlierIndexDesc,
      restore prev.outlierValueDesc m.outlierValueDesc⟩
  else { prev with valueDesc := restore prev.valueDesc m.valueDesc }

theorem agrees_restored (prev m : Metadata T) : m.Agrees (restored prev m) := by
  by_cases patched : m.valueDesc.encoding = .bitpfr
  · rw [restored, if_pos patched]
    exact ⟨agrees_restore _ _, fun _ => rfl, fun _ => agrees_restore _ _,
      fun _ => agrees_restore _ _⟩
  · rw [restored, if_neg patched]
    exact ⟨agrees_restore _ _, fun h => absurd h patched, fun h => absurd h patched,
      fun h => absurd h patched⟩

theorem consumes_decode (prev m : Metadata T) (h : m.Expressible) :
    Consumes (decode prev) (encode m) (restored prev m) := by
  refine (consumes_decodeBasic prev.valueDesc m.valueDesc h.width).bind ?_
  by_cases patched : m.valueDesc.encoding = .bitpfr
  · rw [restored, if_pos patched, if_pos patched]
    change Consumes (if m.valueDesc.encoding = .bitpfr then _ else _) _ _
    rw [if_pos patched]
    refine (consumes_origin m.noutliers).bind ?_
    refine (consumes_decodeExtra prev.outlierIndexDesc _ (h.index patched)).bind ?_
    exact (consumes_decodeExtra prev.outlierValueDesc _ (h.value patched)).map _
  · rw [restored, if_neg patched, if_neg patched]
    change Consumes (if m.valueDesc.encoding = .bitpfr then _ else _) _ _
    rw [if_neg patched]
    exact consumes_pure _

/-- Decoding written metadata, into any object and whatever follows, consumes what
was written and restores everything the encoding carries. -/
theorem decode_restores (m prev : Metadata T) (width : m.valueDesc.nbits < 256)
    (index : m.valueDesc.encoding = .bitpfr → m.outlierIndexDesc.encoding = .varint ∨
      m.outlierIndexDesc.encoding = .bitpck ∧ 1 ≤ m.outlierIndexDesc.nbits ∧
        m.outlierIndexDesc.nbits < 256)
    (value : m.valueDesc.encoding = .bitpfr → m.outlierValueDesc.encoding = .varint ∨
      m.outlierValueDesc.encoding = .bitpck ∧ 1 ≤ m.outlierValueDesc.nbits ∧
        m.outlierValueDesc.nbits < 256) :
    ∃ k : Metadata T, (∀ rest, (decode prev).run (encode m ++ rest) = .ok (k, rest)) ∧
      m.Agrees k :=
  ⟨restored prev m, consumes_decode prev m ⟨width, index, value⟩, agrees_restored prev m⟩

/-- A patched encoding with a negative origin, read into an object that held
something else. -/
theorem decode_restores_int32 :
    let m : Metadata int32 := ⟨⟨.bitpfr, 0, 0, -5, 12⟩, 300, ⟨.varint, 0, 0, 0, 0⟩,
      ⟨.bitpck, 0, 0, 0, 20⟩⟩
    ∃ k : Metadata int32,
      (∀ rest, (decode ⟨⟨.naught, 9, 9, 9, 9⟩, 9, ⟨.bitpck, 9, 9, 9, 9⟩,
        ⟨.varint, 9, 9, 9, 9⟩⟩).run (encode m ++ rest) = .ok (k, rest)) ∧ m.Agrees k := by
  intro m
  exact decode_restores m ⟨⟨.naught, 9, 9, 9, 9⟩, 9, ⟨.bitpck, 9, 9, 9, 9⟩,
    ⟨.varint, 9, 9, 9, 9⟩⟩ (by decide) (fun _ => .inl rfl)
    (fun _ => .inr ⟨rfl, by decide, by decide⟩)

end Metadata

end Oroch
