import Oroch.Packed

/-!
# Bit-packing with a frame of reference

The packed values are the differences from an origin. The codec is the one for
packed blocks with `origin_codec` as its value code; its parameters carry the
origin and the width together.
-/

namespace Oroch

open Cursor

namespace BitforCodec

/-- `parameters` -/
structure Parameters (T : IntType) extends OriginCodec T where
  nbits : Nat
  deriving Repr

instance (T : IntType) : ValueCodec T (Parameters T) where
  valueEncode params v := (params.toOriginCodec.encode v, params)
  valueDecode params u := params.toOriginCodec.decode u

instance (T : IntType) : StatelessCodec T (Parameters T) where
  encode_state _ _ := rfl
  decode_code params v := decode_code params.toOriginCodec v
  code_decode params u := code_decode params.toOriginCodec u

variable {T : IntType}

def encode (src : List T.Original) (params : Parameters T) : Bytes :=
  (BitpckCodec.encode src params.nbits params).1

/-- Decode into `n` slots. -/
def decode (n : Nat) (params : Parameters T) : ByteReader (List T.Original) :=
  BitpckCodec.decode n params.nbits params

def fetch (src : Bytes) (index : Nat) (params : Parameters T) : Outcome T.Original :=
  BitpckCodec.fetch src index params.nbits params

theorem length_encode {params : Parameters T} (h1 : 1 ≤ params.nbits) (h64 : params.nbits ≤ 64)
    (src : List T.Original) :
    (encode src params).length = BitpckCodec.space src.length params.nbits :=
  (BitpckCodec.encode_run h1 h64 src params).2.1

theorem consumes_encode {params : Parameters T} (h1 : 1 ≤ params.nbits)
    (h64 : params.nbits ≤ 64) (src : List T.Original)
    (fits : ∀ v ∈ src, (v - params.origin).toNat < 2 ^ params.nbits) :
    Consumes (decode src.length params) (encode src params) src :=
  BitpckCodec.consumes_encode_of_fits h1 h64 params src fits

end BitforCodec

section Readers

variable {T : IntType} {V : Type} [ValueCodec T V]

/-- Sequential decoding of any content returns what random access returns one by
one, and moves past the space of the sequence. -/
theorem BitpckCodec.decode_fetch {nbits : Nat} (h1 : 1 ≤ nbits) (h64 : nbits ≤ 64) (vcodec : V)
    (n : Nat) (buffer : Bytes) (room : BitpckCodec.space n nbits ≤ buffer.length) :
    ∃ vs, (BitpckCodec.decode n nbits vcodec).run buffer =
        .ok (vs, buffer.drop (BitpckCodec.space n nbits)) ∧
      vs.length = n ∧
      ∀ i, i < n → ∃ v, vs[i]? = some v ∧ BitpckCodec.fetch buffer i nbits vcodec = .ok v := by
  have read := BitpckCodec.decode_run h1 h64 vcodec n (buffer.take (BitpckCodec.space n nbits))
    (by rw [List.length_take, Nat.min_eq_left room]) (buffer.drop (BitpckCodec.space n nbits))
  rw [List.take_append_drop] at read
  refine ⟨_, read, by simp, ?_⟩
  intro i hi
  refine ⟨BitpckCodec.element nbits vcodec buffer i, ?_,
    BitpckCodec.fetch_run h1 h64 vcodec buffer room hi⟩
  rw [List.getElem?_map, List.getElem?_range hi, Option.map_some, BitpckCodec.element,
    BitpckCodec.elementBits_take h1 h64 buffer hi]
  rfl

/-- A decoder with room for `k` values stops early in the same sequence. -/
theorem BitpckCodec.blockDecode_until {nbits : Nat} (h1 : 1 ≤ nbits) (h64 : nbits ≤ 64)
    (vcodec : V) (block rest : Bytes) (len : block.length = BitpckCodec.blockSize) :
    ∃ vs, (BitpckCodec.blockDecode nbits vcodec).run (block ++ rest) = .ok (vs, rest) ∧
      vs.length = BitpckCodec.capacity nbits ∧
      ∀ k, (BitpckCodec.blockDecodeUntil k nbits vcodec).run (block ++ rest) =
        .ok (vs.take (min k (BitpckCodec.capacity nbits)), rest) := by
  have whole := BitpckCodec.blockDecodeUntil_run h1 h64 (BitpckCodec.capacity nbits) vcodec
    block len rest
  rw [← BitpckCodec.blockDecode_eq h1 h64, Nat.min_self] at whole
  refine ⟨_, whole, by simp, ?_⟩
  intro k
  rw [BitpckCodec.blockDecodeUntil_run h1 h64 k vcodec block len rest, ← List.map_take,
    List.take_range, Nat.min_assoc, Nat.min_self]

/-- The three readers of packed blocks agree on every content, and so do the two
of the codec with a frame of reference. -/
theorem readers_agree {nbits : Nat} (h1 : 1 ≤ nbits) (h64 : nbits ≤ 64) (vcodec : V) :
    (∀ (n : Nat) (buffer : Bytes), BitpckCodec.space n nbits ≤ buffer.length →
      ∃ vs rest, (BitpckCodec.decode n nbits vcodec).run buffer = .ok (vs, rest) ∧
        vs.length = n ∧
        ∀ i, i < n → ∃ v, vs[i]? = some v ∧
          BitpckCodec.fetch buffer i nbits vcodec = .ok v) ∧
    (∀ block rest : Bytes, block.length = BitpckCodec.blockSize →
      ∃ vs, (BitpckCodec.blockDecode nbits vcodec).run (block ++ rest) = .ok (vs, rest) ∧
        vs.length = BitpckCodec.capacity nbits ∧
        ∀ k, (BitpckCodec.blockDecodeUntil k nbits vcodec).run (block ++ rest) =
          .ok (vs.take (min k (BitpckCodec.capacity nbits)), rest)) ∧
    ∀ (origin : T.Original) (n : Nat) (buffer : Bytes),
      BitpckCodec.space n nbits ≤ buffer.length →
      ∃ vs rest, (BitforCodec.decode n ⟨⟨origin⟩, nbits⟩).run buffer = .ok (vs, rest) ∧
        vs.length = n ∧
        ∀ i, i < n → ∃ v, vs[i]? = some v ∧
          BitforCodec.fetch buffer i ⟨⟨origin⟩, nbits⟩ = .ok v := by
  refine ⟨fun n buffer room => ?_, BitpckCodec.blockDecode_until h1 h64 vcodec,
    fun origin n buffer room => ?_⟩
  · obtain ⟨vs, read, rest⟩ := BitpckCodec.decode_fetch h1 h64 vcodec n buffer room
    exact ⟨vs, _, read, rest⟩
  · obtain ⟨vs, read, rest⟩ := BitpckCodec.decode_fetch h1 h64
      (⟨⟨origin⟩, nbits⟩ : BitforCodec.Parameters T) n buffer room
    exact ⟨vs, _, read, rest⟩

/-- Thirty values of five bits, in bytes that nothing encoded: one of them lies across the two
words of the first block, and the last block has room for more. -/
theorem readers_agree_across :
    ∃ vs rest, (BitpckCodec.decode (T := sizeT) 30 5 ZigzagCodec.mk).run
        (List.replicate 33 0xa5) = .ok (vs, rest) ∧ vs.length = 30 ∧
      ∀ i, i < 30 → ∃ v, vs[i]? = some v ∧
        BitpckCodec.fetch (T := sizeT) (List.replicate 33 0xa5) i 5 ZigzagCodec.mk = .ok v :=
  (readers_agree (T := sizeT) (by decide : 1 ≤ 5) (by decide : 5 ≤ 64) ZigzagCodec.mk).1 30
    (List.replicate 33 0xa5) (by decide)

end Readers

end Oroch
