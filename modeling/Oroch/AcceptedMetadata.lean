import Oroch.Reselection
import Oroch.Truncation

/-!
# Headers that are accepted

The reader of metadata takes more headers than the writer makes: a varint may be longer than
needed, or carry bits above the width of its type. Whatever header it accepts, the content
read from it can be written again, in no more bytes; and the bytes are the same exactly if
the header is one that some object is written as.
-/

namespace Oroch

open Cursor

namespace VarintCodec

variable {T : IntType}

/-- The loop stops behind a delimited string. -/
theorem delimited_of_run {xs rest : Bytes} {value v : T.Unsigned} {shift : Nat}
    (run : decodeLoop T value shift xs = .ok (v, rest)) :
    ∃ bs, xs = bs ++ rest ∧ Groups.Delimited bs := by
  induction xs generalizing value shift with
  | nil => cases run
  | cons b xs ih =>
    by_cases low : b.toNat < 128
    · rw [decodeLoop_last low] at run
      cases run
      exact ⟨[b], rfl, [], b, rfl, by simp, low⟩
    · have top := Nat.le_of_not_lt low
      rw [decodeLoop_more top] at run
      obtain ⟨_, rfl, init, last, rfl, init_top, last_low⟩ := ih run
      refine ⟨b :: (init ++ [last]), rfl, b :: init, last, rfl, ?_, last_low⟩
      rintro c (_ | ⟨_, hc⟩)
      · exact top
      · exact init_top c hc

/-- A value is written in no more bytes than it was read from. -/
theorem length_encode_of_decode {V : Type} [ValueCodec T V] [StatelessCodec T V] {vcodec : V}
    {xs rest : Bytes} {v : T.Original} (run : (valueDecode vcodec).run xs = .ok (v, rest)) :
    (valueEncode v vcodec).length + rest.length ≤ xs.length := by
  obtain ⟨u, left, unsigned, last⟩ := run_bind_ok run
  rw [decodeUnsigned_eq_loop] at unsigned
  obtain ⟨bs, rfl, delimited⟩ := delimited_of_run unsigned
  have read := consumes_decodeUnsigned (T := T) delimited left
  rw [decodeUnsigned_eq_loop, unsigned] at read
  cases read
  cases last
  have small : Groups.value bs % 2 ^ T.nbits < 2 ^ (7 * bs.length) :=
    Nat.lt_of_le_of_lt (Nat.mod_le _ _) (Groups.value_lt bs)
  have positive : 0 < bs.length := by
    obtain ⟨init, last, rfl, -⟩ := delimited
    simp
  rw [valueEncode_eq, code_decode, BitVec.toNat_ofNat, List.length_append]
  exact Nat.add_le_add_right (Groups.length_groups_le positive small) _

end VarintCodec

namespace Metadata

variable {T : IntType}

section Descriptors

variable {I : IntType}

theorem encodeFields_of_decode {desc d : Descriptor I} {xs rest : Bytes}
    (run : (decodeFields desc).run xs = .ok (d, rest)) (width : desc.nbits < 256) :
    d.encoding = desc.encoding ∧ d.nbits < 256 ∧
      (encodeFields d).length + rest.length ≤ xs.length := by
  rcases desc with ⟨e, dataspace, metaspace, origin, nbits⟩
  cases e with
  | normal | varint | unnamed =>
    cases run
    exact ⟨rfl, width, Nat.le_of_eq (Nat.zero_add _)⟩
  | naught | varfor =>
    obtain ⟨v, left, read, last⟩ := run_bind_ok run
    cases last
    exact ⟨rfl, width, VarintCodec.length_encode_of_decode read⟩
  | bitpck =>
    obtain ⟨b, left, read, last⟩ := run_bind_ok run
    cases last
    obtain rfl := eq_cons_of_item read
    exact ⟨rfl, b.isLt, Nat.le_of_eq (Nat.add_comm ..)⟩
  | bitfor | bitpfr =>
    obtain ⟨v, left, read, later⟩ := run_bind_ok run
    obtain ⟨b, left', read', last⟩ := run_bind_ok later
    cases last
    obtain rfl := eq_cons_of_item read'
    have shorter := VarintCodec.length_encode_of_decode read
    refine ⟨rfl, b.isLt, ?_⟩
    simp only [encodeFields, List.length_append, List.length_cons, List.length_nil] at shorter ⊢
    omega

theorem encodeBasic_of_decode {desc d : Descriptor I} {xs rest : Bytes}
    (run : (decodeBasic desc).run xs = .ok (d, rest)) (width : desc.nbits < 256) :
    d.nbits < 256 ∧ (encodeBasic d).length + rest.length ≤ xs.length := by
  obtain ⟨b, left, read, later⟩ := run_bind_ok run
  obtain rfl := eq_cons_of_item read
  obtain ⟨-, narrow, shorter⟩ := encodeFields_of_decode later width
  refine ⟨narrow, ?_⟩
  rw [encodeBasic, List.length_cons, List.length_cons]
  omega

theorem extra_of_decode {desc d : Descriptor I} {xs rest : Bytes}
    (run : (decodeExtra desc).run xs = .ok (d, rest)) :
    Extra d ∧ (encodeExtra d).length + rest.length = xs.length := by
  obtain ⟨b, left, read, later⟩ := run_bind_ok run
  obtain rfl := eq_cons_of_item read
  by_cases zero : b = 0
  · rw [if_pos zero] at later
    cases later
    exact ⟨.inl rfl, Nat.add_comm ..⟩
  · rw [if_neg zero] at later
    cases later
    have positive : 0 < b.toNat := by
      rw [Nat.pos_iff_ne_zero]
      exact fun h => zero (BitVec.eq_of_toNat_eq h)
    exact ⟨.inr ⟨rfl, positive, b.isLt⟩, Nat.add_comm ..⟩

/-- A byte holds the width modulo 256. -/
theorem ofNat_mod (nbits : Nat) : BitVec.ofNat 8 (nbits % 256) = BitVec.ofNat 8 nbits :=
  BitVec.eq_of_toNat_eq (Nat.mod_mod nbits 256)

theorem exists_narrow (desc : Descriptor I) :
    ∃ d : Descriptor I, d.encoding = desc.encoding ∧ d.nbits < 256 ∧
      encodeBasic d = encodeBasic desc := by
  refine ⟨{ desc with nbits := desc.nbits % 256 }, rfl, Nat.mod_lt _ (by decide), ?_⟩
  simp only [encodeBasic, encodeFields, ofNat_mod]

/-- The byte of a stream stands for varints or for a width. -/
theorem exists_extra (desc : Descriptor I) :
    ∃ d : Descriptor I, Extra d ∧ encodeExtra d = encodeExtra desc := by
  by_cases packed : desc.encoding = .bitpck ∧ BitVec.ofNat 8 desc.nbits ≠ 0
  · obtain ⟨packed, some⟩ := packed
    have positive : 0 < desc.nbits % 256 := by
      rw [Nat.pos_iff_ne_zero]
      exact fun zero => some (BitVec.eq_of_toNat_eq zero)
    refine ⟨{ desc with nbits := desc.nbits % 256 },
      .inr ⟨packed, positive, Nat.mod_lt _ (by decide)⟩, ?_⟩
    simp only [encodeExtra, ofNat_mod]
  · refine ⟨{ desc with encoding := .varint }, .inl rfl, ?_⟩
    rw [encodeExtra, encodeExtra, if_neg (by simp)]
    split
    · rename_i same
      rw [not_and, not_not] at packed
      rw [packed same]
    · rfl

end Descriptors

/-- Whatever an object is written as, an expressible one is written as. -/
theorem exists_expressible (k : Metadata T) : ∃ m : Metadata T, m.Expressible ∧
    m.encode = k.encode := by
  obtain ⟨value, same, narrow, basic⟩ := exists_narrow k.valueDesc
  obtain ⟨index, indexExtra, indexByte⟩ := exists_extra k.outlierIndexDesc
  obtain ⟨outlier, outlierExtra, outlierByte⟩ := exists_extra k.outlierValueDesc
  refine ⟨⟨value, k.noutliers, index, outlier⟩,
    ⟨narrow, fun _ => indexExtra, fun _ => outlierExtra⟩, ?_⟩
  rw [encode, encode, same, basic, indexByte, outlierByte]

/-- Whatever is read can be written, in no more bytes. -/
theorem encode_of_decode {prev m : Metadata T} {xs rest : Bytes}
    (run : (decode prev).run xs = .ok (m, rest)) (width : prev.valueDesc.nbits < 256) :
    m.Expressible ∧ m.encode.length + rest.length ≤ xs.length := by
  obtain ⟨d, left, read, later⟩ := run_bind_ok run
  obtain ⟨narrow, shorter⟩ := encodeBasic_of_decode read width
  by_cases patched : d.encoding = .bitpfr
  · simp only [if_pos patched] at later
    obtain ⟨n, left₁, read₁, later₁⟩ := run_bind_ok later
    obtain ⟨index, left₂, read₂, later₂⟩ := run_bind_ok later₁
    obtain ⟨value, left₃, read₃, last⟩ := run_bind_ok later₂
    cases last
    have count := VarintCodec.length_encode_of_decode read₁
    obtain ⟨indexExtra, indexByte⟩ := extra_of_decode read₂
    obtain ⟨valueExtra, valueByte⟩ := extra_of_decode read₃
    refine ⟨⟨narrow, fun _ => indexExtra, fun _ => valueExtra⟩, ?_⟩
    rw [encode, if_pos patched]
    simp only [List.length_append]
    omega
  · simp only [if_neg patched] at later
    cases later
    refine ⟨⟨narrow, fun h => absurd h patched, fun h => absurd h patched⟩, ?_⟩
    rw [encode, if_neg patched, List.append_nil]
    exact shorter

/-- The metadata read from any accepted header can be written again: the bytes are at most
as many as the header's, read back to the same content into any object, are no more than
those of any other header with this content, and are the header itself exactly if it was
written from some object. -/
theorem accepted_header (src left : Bytes) (m : Metadata T)
    (run : (decode (fresh T)).run src = .ok (m, left)) :
    ∃ header, src = header ++ left ∧ m.encode.length ≤ header.length ∧
      (∀ prev : Metadata T, ∃ k, Consumes (decode prev) m.encode k ∧ m.Agrees k) ∧
      (∀ (k : Metadata T) (other : Bytes), Consumes (decode (fresh T)) other k → m.Agrees k →
        m.encode.length ≤ other.length) ∧
      (m.encode = header ↔ ∃ k : Metadata T, k.encode = header) := by
  obtain ⟨header, rfl, read⟩ := (local_decode (fresh T)).consumed run
  obtain ⟨expressible, shorter⟩ := encode_of_decode run (show 0 < 256 by decide)
  rw [List.length_append] at shorter
  refine ⟨header, rfl, Nat.le_of_add_le_add_right shorter, ?_, ?_, ?_, ?_⟩
  · exact fun prev => ⟨restored prev m, consumes_decode prev m expressible, agrees_restored prev m⟩
  · intro k other accepted agrees
    have others := (encode_of_decode (accepted []) (show 0 < 256 by decide)).2
    rw [encode_agrees agrees]
    simpa using others
  · exact fun same => ⟨m, same⟩
  · rintro ⟨k', rfl⟩
    obtain ⟨k, expressible', same⟩ := exists_expressible k'
    rw [← same] at run ⊢
    have own := consumes_decode (fresh T) k expressible' left
    rw [run] at own
    cases own
    exact (encode_agrees (agrees_restored (fresh T) k)).symm

/-- A header whose origin takes a byte more than needed. -/
theorem accepted_header_int32 :
    let m : Metadata int32 := ⟨⟨.varfor, 0, 0, 5, 0⟩, 0, .clear _, .clear _⟩
    ∃ header, ([3, 0x8a, 0x00, 7] : Bytes) = header ++ [7] ∧ m.encode.length < header.length := by
  intro m
  obtain ⟨header, split, -, -, least, -⟩ := accepted_header [3, 0x8a, 0x00, 7] [7] m rfl
  have short := least m [3, 0x0a] (fun _ => rfl) (IntegerCodec.agrees_refl m)
  have long := congrArg List.length split
  rw [List.length_append] at long
  refine ⟨header, split, ?_⟩
  simp only [List.length_cons, List.length_nil] at short long
  omega

end Metadata

end Oroch
