import Oroch.Common
import Oroch.ValueCodec

/-!
# Variable byte encoding

An unsigned code is written in groups of seven bits, the lowest first. The
encoder's loop writes the delimited groups of `Groups.groups`; the decoder, with
its first three bytes unrolled, reads any delimited byte string and reduces its
value to the width of the type.
-/

namespace Oroch

open Cursor

namespace VarintCodec

def nbitsSpace (nbits : Nat) : Nat := (nbits + 6) / 7

def nbytemax (T : IntType) : Nat := nbitsSpace T.nbits

section Codec

variable {T : IntType} {V : Type} [ValueCodec T V]

def valueSpace (src : T.Original) (vcodec : V) : Nat :=
  let value := code vcodec src
  if value = 0 then 1 else nbitsSpace (T.makeUnsigned.usedcount value)

/-- The loop of `value_encode` and the byte after it. -/
def encodeLoop {w : Nat} (value : BitVec w) : Bytes :=
  if 0x80 ≤ value.toNat then (value ||| 0x80).setWidth 8 :: encodeLoop (value >>> 7)
  else [value.setWidth 8]
termination_by value.toNat
decreasing_by
  rw [BitVec.toNat_ushiftRight, Nat.shiftRight_eq_div_pow]
  omega

def valueEncode (src : T.Original) (vcodec : V) : Bytes := encodeLoop (code vcodec src)

/-- The loop over the fourth and later bytes. -/
def decodeLoop (T : IntType) : (value : T.Unsigned) → (shift : Nat) → ByteReader T.Unsigned
  | _, _, [] => .error .undefined
  | value, shift, b :: src =>
    let byte : T.Unsigned := b.setWidth T.nbits
    if byte &&& 0x80 = 0 then .ok (value ||| byte <<< shift, src)
    else decodeLoop T (value ||| (byte &&& 0x7f) <<< shift) (shift + 7) src

/-- The unsigned code read by `value_decode`, the first three bytes unrolled. -/
def decodeUnsigned (T : IntType) : ByteReader T.Unsigned := do
  let value : T.Unsigned := (← next).setWidth T.nbits
  if value &&& 0x80 ≠ 0 then
    let value := value &&& 0x7f
    let byte : T.Unsigned := (← next).setWidth T.nbits
    if byte &&& 0x80 = 0 then
      pure (value ||| byte <<< 7)
    else
      let value := value ||| (byte &&& 0x7f) <<< 7
      let byte : T.Unsigned := (← next).setWidth T.nbits
      if byte &&& 0x80 = 0 then
        pure (value ||| byte <<< 14)
      else
        decodeLoop T (value ||| (byte &&& 0x7f) <<< 14) 21
  else
    pure value

def valueDecode (vcodec : V) : ByteReader T.Original := do
  let value ← decodeUnsigned T
  pure (ValueCodec.valueDecode vcodec value)

def space (src : List T.Original) (vcodec : V) : Nat :=
  src.foldl (fun count v => count + valueSpace v vcodec) 0

def encode (src : List T.Original) (vcodec : V) : Bytes :=
  src.flatMap fun v => valueEncode v vcodec

/-- Decode into `n` slots. -/
def decode (n : Nat) (vcodec : V) : ByteReader (List T.Original) :=
  times (valueDecode vcodec) n

end Codec

theorem or_top_bit (n : Nat) : (n ||| 128) % 256 = n % 128 + 128 := by
  have low : ∀ m : Fin 256, m.val ||| 128 = m.val % 128 + 128 := by decide +kernel
  have whole := low ⟨n % 256, Nat.mod_lt _ (by decide)⟩
  rw [show 256 = 2 ^ 8 from rfl, Nat.or_mod_two_pow]
  refine whole.trans ?_
  simp only
  omega

theorem and_top_bit (b : Byte) : b.toNat &&& 128 = if b.toNat < 128 then 0 else 128 := by
  have all : ∀ m : Fin 256, m.val &&& 128 = if m.val < 128 then 0 else 128 := by decide +kernel
  exact all ⟨b.toNat, b.isLt⟩

theorem and_low_bits (n : Nat) : n &&& 127 = n % 128 := Nat.and_two_pow_sub_one_eq_mod n 7

section Bytes

variable {T : IntType}

theorem literal_toNat {n : Nat} (h : n < 256) : (BitVec.ofNat T.nbits n).toNat = n := by
  rw [BitVec.toNat_ofNat]
  have wide := T.nbits_cases
  have : 2 ^ 8 ≤ 2 ^ T.nbits := Nat.pow_le_pow_right Nat.two_pos (by omega)
  exact Nat.mod_eq_of_lt (by omega)

theorem byte_toNat (b : Byte) : (b.setWidth T.nbits).toNat = b.toNat := by
  have wide := T.nbits_cases
  have narrow := b.isLt
  have : 2 ^ 8 ≤ 2 ^ T.nbits := Nat.pow_le_pow_right Nat.two_pos (by omega)
  rw [BitVec.toNat_setWidth]
  exact Nat.mod_eq_of_lt (by omega)

theorem byte_top_iff (b : Byte) :
    b.setWidth T.nbits &&& (0x80 : T.Unsigned) = 0 ↔ b.toNat < 128 := by
  have value : (b.setWidth T.nbits &&& (0x80 : T.Unsigned)).toNat = b.toNat &&& 128 := by
    rw [BitVec.toNat_and, byte_toNat, BitVec.ofNat_eq_ofNat, literal_toNat (by decide)]
  rw [and_top_bit] at value
  constructor
  · intro zero
    rw [zero] at value
    by_contra top
    rw [if_neg top] at value
    simp at value
  · intro low
    apply BitVec.eq_of_toNat_eq
    rw [value, if_pos low]
    simp

theorem byte_low (b : Byte) :
    b.setWidth T.nbits &&& (0x7f : T.Unsigned) = BitVec.ofNat T.nbits (b.toNat % 128) := by
  apply BitVec.eq_of_toNat_eq
  rw [BitVec.toNat_and, byte_toNat, BitVec.ofNat_eq_ofNat, literal_toNat (by decide),
    literal_toNat (by omega), and_low_bits]

theorem byte_small {b : Byte} (h : b.toNat < 128) :
    b.setWidth T.nbits = BitVec.ofNat T.nbits (b.toNat % 128) := by
  apply BitVec.eq_of_toNat_eq
  rw [byte_toNat, literal_toNat (by omega), Nat.mod_eq_of_lt h]

end Bytes

theorem encodeLoop_eq {w : Nat} (value : BitVec w) (wide : 8 ≤ w) :
    encodeLoop value = Groups.groups value.toNat := by
  induction hn : value.toNat using Nat.strongRecOn generalizing value with
  | ind n ih =>
    subst hn
    by_cases large : 128 ≤ value.toNat
    · have shifted : (value >>> 7).toNat = value.toNat / 128 := by
        rw [BitVec.toNat_ushiftRight, Nat.shiftRight_eq_div_pow]
      have literal : (0x80 : BitVec w).toNat = 128 := by
        have : 2 ^ 8 ≤ 2 ^ w := Nat.pow_le_pow_right Nat.two_pos wide
        rw [BitVec.ofNat_eq_ofNat, BitVec.toNat_ofNat]
        exact Nat.mod_eq_of_lt (Nat.lt_of_lt_of_le (by decide) this)
      have head : (value ||| 0x80).setWidth 8 = BitVec.ofNat 8 (value.toNat % 128 + 128) := by
        apply BitVec.eq_of_toNat_eq
        rw [BitVec.toNat_setWidth, BitVec.toNat_or, literal, BitVec.toNat_ofNat]
        have := or_top_bit value.toNat
        omega
      rw [encodeLoop, if_pos large, Groups.groups_large large, head,
        ih _ (by omega) (value >>> 7) shifted]
    · have narrow : value.setWidth 8 = BitVec.ofNat 8 value.toNat := by
        apply BitVec.eq_of_toNat_eq
        rw [BitVec.toNat_setWidth, BitVec.toNat_ofNat]
      rw [encodeLoop, if_neg large, Groups.groups_small (by omega), narrow]

section Decode

variable {T : IntType}

theorem decodeLoop_last {b : Byte} (low : b.toNat < 128) (value : T.Unsigned) (shift : Nat)
    (src : Bytes) : decodeLoop T value shift (b :: src) =
      .ok (value ||| BitVec.ofNat T.nbits (b.toNat % 128) <<< shift, src) := by
  rw [decodeLoop, if_pos ((byte_top_iff b).mpr low), byte_small low]

theorem decodeLoop_more {b : Byte} (top : 128 ≤ b.toNat) (value : T.Unsigned) (shift : Nat)
    (src : Bytes) : decodeLoop T value shift (b :: src) =
      decodeLoop T (value ||| BitVec.ofNat T.nbits (b.toNat % 128) <<< shift) (shift + 7) src := by
  have more : ¬ b.setWidth T.nbits &&& (0x80 : T.Unsigned) = 0 := by
    rw [byte_top_iff]
    omega
  rw [decodeLoop, if_neg more, byte_low]

/-- The loop adds the value of the string behind the bits already read. -/
theorem decodeLoop_run (init : Bytes) (last : Byte) (rest : Bytes)
    (init_top : ∀ b ∈ init, 128 ≤ b.toNat) (last_low : last.toNat < 128)
    (value : T.Unsigned) (shift : Nat) (h : value.toNat < 2 ^ shift) :
    decodeLoop T value shift (init ++ last :: rest) =
      .ok (BitVec.ofNat T.nbits
        (value.toNat + 2 ^ shift * Groups.value (init ++ [last])), rest) := by
  induction init generalizing value shift with
  | nil =>
    rw [List.nil_append, decodeLoop_last last_low, Slots.or_ofNat_shiftLeft value shift _ h]
    simp
  | cons b init ih =>
    have next_low : (value ||| BitVec.ofNat T.nbits (b.toNat % 128) <<< shift).toNat <
        2 ^ (shift + 7) := by
      rw [Slots.or_ofNat_shiftLeft value shift _ h, BitVec.toNat_ofNat]
      exact Nat.lt_of_le_of_lt (Nat.mod_le _ _)
        (Slots.join_lt h (Nat.mod_lt b.toNat (Nat.two_pow_pos 7)))
    rw [List.cons_append, decodeLoop_more (init_top b List.mem_cons_self),
      ih (fun c hc => init_top c (List.mem_cons_of_mem b hc)) _ _ next_low,
      Slots.or_ofNat_shiftLeft value shift _ h, List.cons_append, Groups.value_cons]
    congr 2
    apply BitVec.eq_of_toNat_eq
    simp only [BitVec.toNat_ofNat, Nat.pow_add]
    rw [Nat.mod_add_mod]
    congr 1
    ring

/-- The unrolled first bytes compute what the loop computes from the start. -/
theorem decodeUnsigned_eq_loop (src : Bytes) :
    (decodeUnsigned T).run src = decodeLoop T 0 0 src := by
  have start (b : Byte) : (0 : T.Unsigned) ||| BitVec.ofNat T.nbits (b.toNat % 128) <<< 0 =
      BitVec.ofNat T.nbits (b.toNat % 128) := by simp
  rcases src with _ | ⟨b, src⟩
  · rfl
  rw [decodeUnsigned, next, item_bind_cons]
  by_cases low : b.toNat < 128
  · rw [if_neg (not_not.mpr ((byte_top_iff b).mpr low)), decodeLoop_last low, start,
      ← byte_small low]
    rfl
  rw [if_pos ((byte_top_iff b).not.mpr low), decodeLoop_more (by omega), start, byte_low]
  rcases src with _ | ⟨c, src⟩
  · rfl
  rw [item_bind_cons]
  by_cases low : c.toNat < 128
  · rw [if_pos ((byte_top_iff c).mpr low), decodeLoop_last low, byte_small low]
    rfl
  rw [if_neg ((byte_top_iff c).not.mpr low), decodeLoop_more (by omega), byte_low]
  rcases src with _ | ⟨d, src⟩
  · rfl
  rw [item_bind_cons]
  by_cases low : d.toNat < 128
  · rw [if_pos ((byte_top_iff d).mpr low), decodeLoop_last low, byte_small low]
    rfl
  rw [if_neg ((byte_top_iff d).not.mpr low), decodeLoop_more (by omega), byte_low]
  rfl

/-- Any delimited string is read to its end and yields its value, reduced to the
width of the type. -/
theorem consumes_decodeUnsigned {bs : Bytes} (h : Groups.Delimited bs) :
    Consumes (decodeUnsigned T) bs (BitVec.ofNat T.nbits (Groups.value bs)) := by
  obtain ⟨init, last, rfl, init_top, last_low⟩ := h
  intro rest
  rw [decodeUnsigned_eq_loop, List.append_assoc, List.singleton_append,
    decodeLoop_run init last rest init_top last_low 0 0 (by simp)]
  simp

end Decode

section Sequences

variable {T : IntType} {V : Type} [ValueCodec T V]

theorem valueEncode_eq (v : T.Original) (vcodec : V) :
    valueEncode v vcodec = Groups.groups (code vcodec v).toNat :=
  encodeLoop_eq _ (by have := T.nbits_cases; omega)

theorem length_valueEncode (v : T.Original) (vcodec : V) :
    (valueEncode v vcodec).length = valueSpace v vcodec := by
  have zero : (code vcodec v).toNat = 0 ↔ code vcodec v = 0 :=
    ⟨fun h => BitVec.eq_of_toNat_eq (by simpa using h), fun h => by simp [h]⟩
  rw [valueEncode_eq, Groups.length_groups, valueSpace, usedcount_eq]
  simp only [zero, nbitsSpace]

theorem valueSpace_le_nbytemax (v : T.Original) (vcodec : V) :
    valueSpace v vcodec ≤ nbytemax T := by
  have bound (u : T.Unsigned) : T.makeUnsigned.usedcount u ≤ T.nbits :=
    usedcount_le_nbits T.makeUnsigned u
  have used := bound (code vcodec v)
  have wide := T.nbits_cases
  rw [valueSpace]
  simp only [nbitsSpace, nbytemax]
  split <;> omega

theorem space_eq_sum (src : List T.Original) (vcodec : V) :
    space src vcodec = (src.map fun v => valueSpace v vcodec).sum := by
  rw [List.sum_eq_foldl_nat, List.foldl_map, space]

theorem length_encode (src : List T.Original) (vcodec : V) :
    (encode src vcodec).length = space src vcodec := by
  rw [encode, List.length_flatMap, space_eq_sum]
  simp only [length_valueEncode]

/-- Every value takes a byte at least. -/
theorem valueSpace_pos (v : T.Original) (vcodec : V) : 1 ≤ valueSpace v vcodec := by
  rw [valueSpace, usedcount_eq]
  split
  · exact Nat.le_refl 1
  · next nonzero =>
    have bits : 0 < (code vcodec v).toNat.size := by
      rw [Nat.size_pos, Nat.pos_iff_ne_zero]
      exact fun zero => nonzero (BitVec.eq_of_toNat_eq (by simpa using zero))
    rw [nbitsSpace]
    omega

theorem length_le_space (src : List T.Original) (vcodec : V) : src.length ≤ space src vcodec := by
  induction src with
  | nil => exact Nat.zero_le _
  | cons v src ih =>
    have first := valueSpace_pos v vcodec
    rw [space_eq_sum] at ih ⊢
    rw [List.length_cons, List.map_cons, List.sum_cons]
    omega

/-- Any delimited string is decoded, also one the encoder would not write. -/
theorem consumes_valueDecode (vcodec : V) {bs : Bytes} (h : Groups.Delimited bs) :
    Consumes (valueDecode vcodec) bs
      (ValueCodec.valueDecode vcodec (BitVec.ofNat T.nbits (Groups.value bs))) :=
  (consumes_decodeUnsigned h).map _

variable [StatelessCodec T V]

theorem consumes_valueEncode (vcodec : V) (v : T.Original) :
    Consumes (valueDecode vcodec) (valueEncode v vcodec) v := by
  rw [valueEncode_eq]
  have read := consumes_valueDecode vcodec (Groups.groups_delimited (code vcodec v).toNat)
  rw [Groups.value_groups, BitVec.ofNat_toNat, BitVec.setWidth_eq, decode_code] at read
  exact read

theorem consumes_encode (vcodec : V) (src : List T.Original) :
    Consumes (decode src.length vcodec) (encode src vcodec) src := by
  have all := consumes_times (consumes_valueEncode vcodec) src
  rwa [List.map_id'] at all

/-- Re-encoding a decoded string gives it back exactly when its value fits the
type and no shorter string has that value. -/
theorem valueEncode_decoded_iff (vcodec : V) (init : Bytes) (last : Byte)
    (init_top : ∀ b ∈ init, 128 ≤ b.toNat) (last_low : last.toNat < 128) :
    valueEncode (ValueCodec.valueDecode vcodec
        (BitVec.ofNat T.nbits (Groups.value (init ++ [last])))) vcodec = init ++ [last] ↔
      Groups.value (init ++ [last]) < 2 ^ T.nbits ∧ (init = [] ∨ last ≠ 0) := by
  rw [valueEncode_eq, code_decode, BitVec.toNat_ofNat,
    ← Groups.groups_value_iff init last init_top last_low]
  constructor
  · intro same
    have value := congrArg Groups.value same
    rw [Groups.value_groups] at value
    have fits : Groups.value (init ++ [last]) < 2 ^ T.nbits := by
      rw [← value]
      exact Nat.mod_lt _ (Nat.two_pow_pos _)
    rw [Nat.mod_eq_of_lt fits] at same
    exact ⟨fits, same⟩
  · rintro ⟨fits, same⟩
    rw [Nat.mod_eq_of_lt fits]
    exact same

/-- A stream up to its first byte without a top bit is a delimited string. -/
theorem delimited_take {stream : Bytes} {k : Nat}
    (first : stream.findIdx? (fun b => b.toNat < 0x80) = some k) :
    ∃ init last, stream = init ++ last :: stream.drop (k + 1) ∧
      stream.take (k + 1) = init ++ [last] ∧ init.length = k ∧ stream[k]? = some last ∧
      (∀ b ∈ init, 128 ≤ b.toNat) ∧ last.toNat < 128 := by
  obtain ⟨inside, low, before⟩ := List.findIdx?_eq_some_iff_getElem.mp first
  refine ⟨stream.take k, stream[k], ?_, ?_, ?_, List.getElem?_eq_getElem inside, ?_,
    of_decide_eq_true low⟩
  · rw [← List.drop_eq_getElem_cons inside, List.take_append_drop]
  · rw [List.take_succ_eq_append_getElem inside]
  · rw [List.length_take, Nat.min_eq_left (Nat.le_of_lt inside)]
  · intro b hb
    obtain ⟨j, hj, rfl⟩ := List.mem_iff_getElem.mp hb
    rw [List.length_take] at hj
    have top := before j (by omega)
    rw [List.getElem_take]
    simpa using top

/-- The varint code of a sequence is as long as predicted and is read back whatever
follows it. Any stream is decoded up to its first byte below `0x80`; the value
read is written the same way exactly when the bytes fit the type and are the
shortest ones. -/
theorem code_exact (vcodec : V) :
    (∀ s : List T.Original,
      (encode s vcodec).length = space s vcodec ∧
      (∀ v ∈ s, (valueEncode v vcodec).length = valueSpace v vcodec ∧
        valueSpace v vcodec ≤ nbytemax T) ∧
      ∀ rest, (decode s.length vcodec).run (encode s vcodec ++ rest) = .ok (s, rest)) ∧
    ∀ (stream : Bytes) (k : Nat), k < nbytemax T →
      stream.findIdx? (fun b => b.toNat < 0x80) = some k →
      ∃ v : T.Original,
        v = ValueCodec.valueDecode vcodec
          (BitVec.ofNat T.nbits (Groups.value (stream.take (k + 1)))) ∧
        (valueDecode vcodec).run stream = .ok (v, stream.drop (k + 1)) ∧
        (valueEncode v vcodec = stream.take (k + 1) ↔
          Groups.value (stream.take (k + 1)) < 2 ^ T.nbits ∧ (k = 0 ∨ stream[k]? ≠ some 0)) := by
  refine ⟨fun s => ⟨length_encode s vcodec, fun v _ => ⟨length_valueEncode v vcodec,
    valueSpace_le_nbytemax v vcodec⟩, consumes_encode vcodec s⟩, ?_⟩
  intro stream k _ first
  obtain ⟨init, last, split, taken, len, at_k, init_top, last_low⟩ := delimited_take first
  refine ⟨_, rfl, ?_, ?_⟩
  · have read := consumes_valueDecode vcodec ⟨init, last, taken, init_top, last_low⟩
    have whole := read (stream.drop (k + 1))
    rwa [List.take_append_drop] at whole
  · have empty : k = 0 ↔ init = [] := by rw [← len, List.length_eq_zero_iff]
    rw [taken, valueEncode_decoded_iff vcodec init last init_top last_low, at_k, empty]
    simp

/-- A negative value among others, and a three-byte stream for the code 1, which is
longer than needed. -/
theorem code_exact_int32 :
    (decode (T := int32) 3 (ZigzagCodec.mk)).run
        (encode (T := int32) [-1, 300, 0] ZigzagCodec.mk ++ [7]) = .ok ([-1, 300, 0], [7]) ∧
    ∃ v : int32.Original,
      (valueDecode (OriginCodec.mk (T := int32) 5)).run [0x81, 0x80, 0x00, 0xff] =
        .ok (v, [0xff]) ∧
      valueEncode v (OriginCodec.mk (T := int32) 5) ≠ [0x81, 0x80, 0x00] := by
  refine ⟨((code_exact (T := int32) ZigzagCodec.mk).1 [-1, 300, 0]).2.2 [7], ?_⟩
  obtain ⟨v, -, read, again⟩ := (code_exact (OriginCodec.mk (T := int32) 5)).2
    [0x81, 0x80, 0x00, 0xff] 2 (by decide) (by decide)
  exact ⟨v, read, again.not.mpr (by simp)⟩

end Sequences

end VarintCodec

end Oroch
