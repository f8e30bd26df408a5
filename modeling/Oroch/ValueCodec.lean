import Oroch.IntegerTraits

/-!
# Value codes

The codecs for sequences are templates over a value codec `V`, which maps one
integer to an unsigned code and back. A codec may carry state: `valueEncode`
also returns the codec it leaves behind. Decoding never changes the codec in the
instances used this way.

`zigzag_codec` interleaves the negative and the non-negative numbers,
`origin_codec` subtracts a fixed origin. `offset_codec` subtracts a running
origin in both directions and therefore stands on its own.
-/

namespace Oroch

/-- The template parameter `V` of a codec for `T`. -/
class ValueCodec (T : outParam IntType) (V : Type) where
  valueEncode : V → T.Original → T.Unsigned × V
  valueDecode : V → T.Unsigned → T.Original

export ValueCodec (valueEncode valueDecode)

/-- The code of a value under a codec in a given state. -/
def code {T : IntType} {V : Type} [ValueCodec T V] (vcodec : V) (v : T.Original) : T.Unsigned :=
  (valueEncode vcodec v).1

/-- A codec without state whose two directions are inverse to each other. -/
class StatelessCodec (T : outParam IntType) (V : Type) [ValueCodec T V] : Prop where
  encode_state : ∀ (vcodec : V) (v : T.Original), (valueEncode vcodec v).2 = vcodec
  decode_code : ∀ (vcodec : V) (v : T.Original), valueDecode vcodec (code vcodec v) = v
  code_decode : ∀ (vcodec : V) (u : T.Unsigned), code vcodec (valueDecode vcodec u) = u

export StatelessCodec (encode_state decode_code code_decode)

/-- The codes of a sequence, the codec threaded through, and the codec it leaves. -/
def codes {T : IntType} {V : Type} [ValueCodec T V] (vcodec : V) :
    List T.Original → List T.Unsigned × V
  | [] => ([], vcodec)
  | v :: vs =>
    let (u, vcodec) := valueEncode vcodec v
    let (us, vcodec) := codes vcodec vs
    (u :: us, vcodec)

section Codes

variable {T : IntType} {V : Type} [ValueCodec T V]

@[simp] theorem length_codes (vcodec : V) (vs : List T.Original) :
    (codes vcodec vs).1.length = vs.length := by
  induction vs generalizing vcodec with
  | nil => rfl
  | cons v vs ih => simp [codes, ih]

theorem codes_append (vcodec : V) (vs ws : List T.Original) :
    codes vcodec (vs ++ ws) =
      ((codes vcodec vs).1 ++ (codes (codes vcodec vs).2 ws).1,
        (codes (codes vcodec vs).2 ws).2) := by
  induction vs generalizing vcodec with
  | nil => rfl
  | cons v vs ih => simp [codes, ih]

theorem codes_stateless [StatelessCodec T V] (vcodec : V) (vs : List T.Original) :
    codes vcodec vs = (vs.map (code vcodec), vcodec) := by
  induction vs with
  | nil => rfl
  | cons v vs ih => simp [codes, encode_state, ih, code]

end Codes

structure ZigzagCodec (T : IntType) where
  deriving Repr

namespace ZigzagCodec

variable (T : IntType)

def signShift : Nat := T.nbits - 1

def encode (s : T.Original) : T.Unsigned := (s <<< 1) ^^^ s.sshiftRight (signShift T)

def decode (u : T.Unsigned) : T.Original := (u >>> 1) ^^^ -(u &&& 1)

def encodeIfSigned (v : T.Original) : T.Unsigned := if T.signed then encode T v else v

def decodeIfSigned (u : T.Unsigned) : T.Original := if T.signed then decode T u else u

end ZigzagCodec

instance (T : IntType) : ValueCodec T (ZigzagCodec T) where
  valueEncode vcodec v := (ZigzagCodec.encodeIfSigned T v, vcodec)
  valueDecode _ u := ZigzagCodec.decodeIfSigned T u

namespace ZigzagCodec

variable {T : IntType}

/-- The bit patterns of `T` come in two halves. -/
theorem two_pow_half (T : IntType) : 2 ^ T.nbits = 2 * 2 ^ (T.nbits - 1) := by
  have wide := T.width.nbits_pos
  rw [← Nat.pow_succ', Nat.succ_eq_add_one, Nat.sub_add_cancel wide]

/-- The patterns of the non-negative numbers are doubled; those of the negative
ones fill the odd codes, counted from the top. -/
theorem toNat_encode (s : T.Original) :
    (encode T s).toNat = if 2 * s.toNat < 2 ^ T.nbits then 2 * s.toNat
      else 2 * (2 ^ T.nbits - s.toNat) - 1 := by
  have hs := s.isLt
  have half := two_pow_half T
  by_cases h : 2 * s.toNat < 2 ^ T.nbits
  · have msb : s.msb = false := BitVec.msb_eq_false_iff_two_mul_lt.mpr h
    have sign : s.sshiftRight (signShift T) = 0#T.nbits := by
      rw [BitVec.sshiftRight_eq_of_msb_false msb]
      apply BitVec.eq_of_toNat_eq
      rw [BitVec.toNat_ushiftRight, Nat.shiftRight_eq_div_pow]
      exact Nat.div_eq_of_lt (by rw [signShift]; omega)
    rw [encode, sign, if_pos h, BitVec.xor_zero, BitVec.toNat_shiftLeft, Nat.shiftLeft_eq]
    rw [Nat.mod_eq_of_lt (by omega)]
    omega
  · have msb : s.msb = true := BitVec.msb_eq_true_iff_two_mul_ge.mpr (by omega)
    have sign : s.sshiftRight (signShift T) = BitVec.allOnes T.nbits := by
      have small : (~~~s) >>> signShift T = 0#T.nbits := by
        apply BitVec.eq_of_toNat_eq
        rw [BitVec.toNat_ushiftRight, Nat.shiftRight_eq_div_pow, BitVec.toNat_not]
        exact Nat.div_eq_of_lt (by rw [signShift]; omega)
      rw [BitVec.sshiftRight_eq_of_msb_true msb, small, BitVec.not_zero]
    have doubled : s.toNat * 2 % 2 ^ T.nbits = 2 * s.toNat - 2 ^ T.nbits := by
      rw [show s.toNat * 2 = 2 * s.toNat - 2 ^ T.nbits + 2 ^ T.nbits by omega, Nat.add_mod_right]
      exact Nat.mod_eq_of_lt (by omega)
    rw [encode, sign, if_neg h, BitVec.xor_allOnes, BitVec.toNat_not, BitVec.toNat_shiftLeft,
      Nat.shiftLeft_eq, Nat.pow_one, doubled]
    omega

theorem toNat_decode (u : T.Unsigned) :
    (decode T u).toNat = if u.toNat % 2 = 0 then u.toNat / 2
      else 2 ^ T.nbits - 1 - u.toNat / 2 := by
  have wide := T.width.nbits_pos
  have one : (1 : T.Unsigned).toNat = 1 := by
    have := two_pow_half T
    have := Nat.two_pow_pos (T.nbits - 1)
    simp only [BitVec.ofNat_eq_ofNat, BitVec.toNat_ofNat]
    exact Nat.mod_eq_of_lt (by omega)
  have low : (u &&& 1).toNat = u.toNat % 2 := by
    rw [BitVec.toNat_and, one, Nat.and_one_is_mod]
  have shifted : (u >>> 1).toNat = u.toNat / 2 := by
    rw [BitVec.toNat_ushiftRight, Nat.shiftRight_eq_div_pow, Nat.pow_one]
  by_cases even : u.toNat % 2 = 0
  · have zero : u &&& 1 = 0 := BitVec.eq_of_toNat_eq (by rw [low, even]; simp)
    rw [decode, zero, if_pos even]
    simpa using shifted
  · have odd : u &&& 1 = 1 := BitVec.eq_of_toNat_eq (by rw [low, one]; omega)
    have ones : -(1 : T.Unsigned) = BitVec.allOnes T.nbits := BitVec.neg_one_eq_allOnes
    rw [decode, odd, ones, if_neg even, BitVec.xor_allOnes, BitVec.toNat_not, shifted]

theorem decode_encode (s : T.Original) : decode T (encode T s) = s := by
  have hs := s.isLt
  have half := two_pow_half T
  apply BitVec.eq_of_toNat_eq
  rw [toNat_decode, toNat_encode]
  split <;> split <;> omega

theorem encode_decode (u : T.Unsigned) : encode T (decode T u) = u := by
  have hu : u.toNat < 2 ^ T.nbits := u.isLt
  have half := two_pow_half T
  apply BitVec.eq_of_toNat_eq
  rw [toNat_encode, toNat_decode]
  split <;> split <;> omega

theorem code_eq (vcodec : ZigzagCodec T) (v : T.Original) :
    code vcodec v = encodeIfSigned T v := rfl

instance : StatelessCodec T (ZigzagCodec T) where
  encode_state _ _ := rfl
  decode_code vcodec v := by
    change decodeIfSigned T (encodeIfSigned T v) = v
    cases hs : T.signed with
    | true => simp [decodeIfSigned, encodeIfSigned, hs, decode_encode]
    | false => simp [decodeIfSigned, encodeIfSigned, hs]
  code_decode vcodec u := by
    change encodeIfSigned T (decodeIfSigned T u) = u
    cases hs : T.signed with
    | true => simp [decodeIfSigned, encodeIfSigned, hs, encode_decode]
    | false => simp [decodeIfSigned, encodeIfSigned, hs]

/-- The code grows with the distance from zero on either side, so the codes of
the two extremes bound the codes of everything between them. -/
theorem code_between {lo v hi : T.Original} (h1 : T.toInt lo ≤ T.toInt v)
    (h2 : T.toInt v ≤ T.toInt hi) :
    (encodeIfSigned T v).toNat ≤
      max (encodeIfSigned T lo).toNat (encodeIfSigned T hi).toNat := by
  have half := two_pow_half T
  cases hs : T.signed with
  | true =>
    simp only [IntType.toInt, encodeIfSigned, hs, if_true, toNat_encode] at h1 h2 ⊢
    have il := toInt_cases lo
    have iv := toInt_cases v
    have ih := toInt_cases hi
    have := lo.isLt
    have := v.isLt
    have := hi.isLt
    split <;> split <;> split <;> omega
  | false =>
    simp only [IntType.toInt, encodeIfSigned, hs, Bool.false_eq_true, if_false] at h1 h2 ⊢
    omega

theorem encodeIfSigned_inj {a b : T.Original} (h : encodeIfSigned T a = encodeIfSigned T b) :
    a = b := by
  have round := decode_code (⟨⟩ : ZigzagCodec T)
  have := congrArg (decodeIfSigned T) h
  exact (round a).symm.trans (this.trans (round b))

end ZigzagCodec

structure OriginCodec (T : IntType) where
  origin : T.Original
  deriving Repr

namespace OriginCodec

variable {T : IntType}

def encode (vcodec : OriginCodec T) (v : T.Original) : T.Unsigned := v - vcodec.origin

def decode (vcodec : OriginCodec T) (u : T.Unsigned) : T.Original := u + vcodec.origin

end OriginCodec

instance (T : IntType) : ValueCodec T (OriginCodec T) where
  valueEncode vcodec v := (vcodec.encode v, vcodec)
  valueDecode vcodec u := vcodec.decode u

instance (T : IntType) : StatelessCodec T (OriginCodec T) where
  encode_state _ _ := rfl
  decode_code vcodec v := BitVec.sub_add_cancel v vcodec.origin
  code_decode vcodec u := BitVec.add_sub_cancel u vcodec.origin

/-- `origin_`, for a codec with template arguments `T` and `offset`. -/
structure OffsetCodec (T : IntType) (offset : T.Original) where
  origin : T.Original
  deriving Repr

namespace OffsetCodec

variable {T : IntType} {offset : T.Original}

/-- The constructor, for the template argument `taken_out`. -/
def init (takenOut : Bool) (origin : T.Original) : OffsetCodec T offset :=
  ⟨origin + if takenOut then offset else 0⟩

def valueEncode (vcodec : OffsetCodec T offset) (v : T.Original) :
    T.Unsigned × OffsetCodec T offset :=
  (v - vcodec.origin, ⟨v + offset⟩)

def valueDecode (vcodec : OffsetCodec T offset) (u : T.Unsigned) :
    T.Original × OffsetCodec T offset :=
  let v := vcodec.origin + u
  (v, ⟨v + offset⟩)

/-- One step: a decoder in the encoder's state returns the value and follows the
encoder to its next state. -/
theorem decode_step (vcodec : OffsetCodec T offset) (v : T.Original) :
    valueDecode vcodec (valueEncode vcodec v).1 = (v, (valueEncode vcodec v).2) := by
  have sum : vcodec.origin + (v - vcodec.origin) = v := by
    rw [BitVec.add_comm]
    exact BitVec.sub_add_cancel v vcodec.origin
  simp only [valueDecode, valueEncode, sum]

/-- The codes of a sequence, one after another. -/
def codes : OffsetCodec T offset → List T.Original → List T.Unsigned
  | _, [] => []
  | vcodec, v :: vs => (valueEncode vcodec v).1 :: codes (valueEncode vcodec v).2 vs

/-- The values of a sequence of codes, one after another. -/
def decodes : OffsetCodec T offset → List T.Unsigned → List T.Original
  | _, [] => []
  | vcodec, u :: us => (valueDecode vcodec u).1 :: decodes (valueDecode vcodec u).2 us

/-- A decoder that starts with the encoder stays with it. -/
theorem decodes_codes (vcodec : OffsetCodec T offset) (vs : List T.Original) :
    vcodec.decodes (vcodec.codes vs) = vs := by
  induction vs generalizing vcodec with
  | nil => rfl
  | cons v vs ih => rw [codes, decodes, decode_step, ih]

/-- The exact distances of integers from `next` on: each lies above the one before it and
the offset. -/
def distances (offset : Int) : (next : Int) → List Int → List Int
  | _, [] => []
  | next, v :: vs => (v - next) :: distances offset (v + offset) vs

/-- The origin from which the first value is counted. -/
def start (offset origin : T.Original) (takenOut : Bool) : Int :=
  T.toInt origin + if takenOut then T.toInt offset else 0

/-- The sequence advances at least by an offset that is not negative, from its start on. -/
structure Ascends (offset origin : T.Original) (takenOut : Bool) (s : List T.Original) :
    Prop where
  forward : 0 ≤ T.toInt offset
  first : ∀ v ∈ s.head?, start offset origin takenOut ≤ T.toInt v
  later : s.IsChain fun v w => T.toInt v + T.toInt offset ≤ T.toInt w

/-- The code of a value that lies above another one and the offset together is exact. -/
theorem toNat_code {v w : T.Original} (forward : 0 ≤ T.toInt offset)
    (above : T.toInt v + T.toInt offset ≤ T.toInt w) :
    ((w - (v + offset)).toNat : Int) = T.toInt w - (T.toInt v + T.toInt offset) := by
  have exact_offset := toNat_of_nonneg T forward
  have exact_step := toNat_sub_of_le T (show T.toInt v ≤ T.toInt w by omega)
  have split : w - (v + offset) = w - v - offset := (BitVec.sub_sub w v offset).symm
  have least : offset.toNat ≤ (w - v).toNat := by omega
  rw [split, BitVec.toNat_sub_of_le least]
  omega

/-- Behind a value, the codes are the exact distances. -/
theorem codes_behind {v : T.Original} {vs : List T.Original} (forward : 0 ≤ T.toInt offset)
    (later : (v :: vs).IsChain fun v w => T.toInt v + T.toInt offset ≤ T.toInt w) :
    ((⟨v + offset⟩ : OffsetCodec T offset).codes vs).map (fun u => (u.toNat : Int)) =
      distances (T.toInt offset) (T.toInt v + T.toInt offset) (vs.map T.toInt) := by
  induction vs generalizing v with
  | nil => rfl
  | cons w vs ih =>
    obtain ⟨above, later⟩ := List.isChain_cons_cons.mp later
    rw [codes, List.map_cons, List.map_cons, distances, ← ih later, ← toNat_code forward above]
    rfl

/-- Encoder and decoder stay synchronised on every sequence; on one that ascends by the
offset the codes are the exact distances. -/
theorem codes_synchronised (takenOut : Bool) (origin : T.Original) (s : List T.Original) :
    (init takenOut origin : OffsetCodec T offset).decodes
        ((init takenOut origin : OffsetCodec T offset).codes s) = s ∧
      (Ascends offset origin takenOut s →
        ((init takenOut origin : OffsetCodec T offset).codes s).map (fun u => (u.toNat : Int)) =
          distances (T.toInt offset) (start offset origin takenOut) (s.map T.toInt)) := by
  refine ⟨decodes_codes _ s, ?_⟩
  rintro ⟨forward, first, later⟩
  cases s with
  | nil => rfl
  | cons v vs =>
    have above := first v rfl
    have here : ((v - (init takenOut origin : OffsetCodec T offset).origin).toNat : Int) =
        T.toInt v - start offset origin takenOut := by
      cases takenOut with
      | true => exact toNat_code forward above
      | false =>
        have same : origin + 0 = origin := BitVec.add_zero origin
        rw [start] at above ⊢
        simp only [init, Bool.false_eq_true, if_false, same, Int.add_zero] at above ⊢
        exact toNat_sub_of_le T above
    rw [codes, List.map_cons, List.map_cons, distances, ← codes_behind forward later, ← here]
    rfl

theorem codes_synchronised_int32 :
    Ascends (T := int32) 1 0 true [1, 2, 3, 5] ∧
      ((init true 0 : OffsetCodec int32 1).codes [1, 2, 3, 5]).map (fun u => (u.toNat : Int)) =
        [0, 0, 0, 1] := by
  have ascends : Ascends (T := int32) 1 0 true [1, 2, 3, 5] :=
    ⟨by decide, by simp [start, IntType.toInt], by decide⟩
  exact ⟨ascends, (codes_synchronised true 0 [1, 2, 3, 5]).2 ascends⟩

end OffsetCodec

/-- The distances between consecutive positions, less one; `next` is the first
position that can occur. -/
def gaps : (next : Nat) → List Nat → List Nat
  | _, [] => []
  | next, p :: ps => (p - next) :: gaps (p + 1) ps

/-- The codec with offset 1 stores increasing positions as their gaps. -/
theorem OffsetCodec.codes_positions (next : Nat) (ps : List Nat) (above : ∀ p ∈ ps, next ≤ p)
    (increasing : ps.Pairwise (· < ·)) :
    (⟨toSize next⟩ : OffsetCodec sizeT 1).codes (ps.map toSize) = (gaps next ps).map toSize := by
  induction ps generalizing next with
  | nil => rfl
  | cons p ps ih =>
    obtain ⟨later, increasing⟩ := List.pairwise_cons.mp increasing
    have gap : toSize p - toSize next = toSize (p - next) :=
      calc toSize p - toSize next
          = toSize (p - next) + toSize next - toSize next := by
            rw [toSize, toSize, toSize, ← BitVec.ofNat_add,
              Nat.sub_add_cancel (above p List.mem_cons_self)]
        _ = toSize (p - next) := BitVec.add_sub_cancel _ _
    have after : toSize p + 1 = toSize (p + 1) := (BitVec.ofNat_add p 1).symm
    rw [List.map_cons, codes, gaps, List.map_cons, ← ih (p + 1) later increasing, ← gap, ← after]
    rfl

@[simp] theorem length_gaps (next : Nat) (ps : List Nat) : (gaps next ps).length = ps.length := by
  induction ps generalizing next with
  | nil => rfl
  | cons p ps ih => simp [gaps, ih]

theorem gaps_lt {next bound : Nat} {ps : List Nat} (inside : ∀ p ∈ ps, p < bound) :
    ∀ g ∈ gaps next ps, g < bound := by
  induction ps generalizing next with
  | nil => simp [gaps]
  | cons p ps ih =>
    intro g hg
    rcases List.mem_cons.mp hg with rfl | hg
    · exact Nat.lt_of_le_of_lt (Nat.sub_le _ _) (inside p List.mem_cons_self)
    · exact ih (fun q hq => inside q (List.mem_cons_of_mem p hq)) g hg

end Oroch
