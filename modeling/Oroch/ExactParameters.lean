import Oroch.Contract
import Oroch.Patching
import Oroch.SelectionBounds
import Oroch.Truncation

/-!
# Which parameters hold a sequence

Metadata can be filled in by hand; no width and no origin is refused. What does not fit is
cut: the packed codes to the width, the gaps and the high parts of the outliers to theirs.
With parameters in range the values are read back exactly if the parameters hold them:
nothing that was cut is restored by accident, neither a value by the exceptions of another
one nor an exception by its neighbours.
-/

namespace Oroch

open Cursor

theorem OffsetCodec.length_decodes {T : IntType} {offset : T.Original}
    (vcodec : OffsetCodec T offset) (us : List T.Unsigned) :
    (vcodec.decodes us).length = us.length := by
  induction us generalizing vcodec with
  | nil => rfl
  | cons u us ih => rw [decodes, List.length_cons, ih, List.length_cons]

theorem map_toSize_toNat (us : List sizeT.Original) : (us.map BitVec.toNat).map toSize = us := by
  rw [List.map_map]
  refine Eq.trans (List.map_congr_left fun u _ => ?_) (List.map_id' _)
  rw [Function.comp, toSize, BitVec.ofNat_toNat, BitVec.setWidth_eq]

theorem BitpckCodec.toNat_lowBits {T : IntType} (nbits : Nat) (u : T.Unsigned) :
    (lowBits nbits u).toNat = u.toNat % 2 ^ nbits := by
  rw [lowBits, BitVec.toNat_ofNat]
  exact Nat.mod_eq_of_lt (Nat.lt_of_le_of_lt (Nat.mod_le _ _) u.isLt)

theorem BitpckCodec.lowBits_eq_iff {T : IntType} (nbits : Nat) (u : T.Unsigned) :
    lowBits nbits u = u ↔ u.toNat < 2 ^ nbits := by
  constructor
  · intro same
    rw [← same, toNat_lowBits]
    exact Nat.mod_lt _ (Nat.two_pow_pos nbits)
  · exact lowBits_of_lt

/-- Unpacking that returns found all blocks. -/
theorem BitpckCodec.elements_of_decode {T : IntType} {V : Type} [ValueCodec T V] {nbits : Nat}
    (h1 : 1 ≤ nbits) (h64 : nbits ≤ 64) (vcodec : V) {n : Nat} {bs rest : Bytes}
    {vs : List T.Original} (read : (decode n nbits vcodec).run bs = .ok (vs, rest)) :
    vs = (List.range n).map (element nbits vcodec (bs.take (space n nbits))) := by
  by_cases room : space n nbits ≤ bs.length
  · have run := decode_run h1 h64 vcodec n (bs.take (space n nbits))
      (List.length_take_of_le room) (bs.drop (space n nbits))
    rw [List.take_append_drop, read] at run
    obtain ⟨rfl, -⟩ := Prod.mk.injEq .. ▸ Except.ok.inj run
    rfl
  · -- with the missing bytes the reader would have consumed them
    have padded : (bs ++ List.replicate (space n nbits - bs.length) 0).length = space n nbits := by
      rw [List.length_append, List.length_replicate]
      omega
    have ended := (local_decode n nbits vcodec).run_of_short
      (decode_run h1 h64 vcodec n _ padded) (List.prefix_append bs _) (by omega)
    rw [ended] at read
    cases read

theorem BitpckCodec.length_of_decode {T : IntType} {V : Type} [ValueCodec T V] {nbits : Nat}
    (h1 : 1 ≤ nbits) (h64 : nbits ≤ 64) (vcodec : V) {n : Nat} {bs rest : Bytes}
    {vs : List T.Original} (read : (decode n nbits vcodec).run bs = .ok (vs, rest)) :
    vs.length = n := by
  rw [elements_of_decode h1 h64 vcodec read, List.length_map, List.length_range]

/-- Whatever the bytes, the codes of what is unpacked fit the width. -/
theorem BitpckCodec.code_lt_of_decode {T : IntType} {V : Type} [ValueCodec T V] [StatelessCodec T V]
    {nbits : Nat} (h1 : 1 ≤ nbits) (h64 : nbits ≤ 64) (vcodec : V) {n : Nat} {bs rest : Bytes}
    {vs : List T.Original} (read : (decode n nbits vcodec).run bs = .ok (vs, rest)) :
    ∀ v ∈ vs, (code vcodec v).toNat < 2 ^ nbits := by
  intro v hv
  rw [elements_of_decode h1 h64 vcodec read] at hv
  obtain ⟨i, -, rfl⟩ := List.mem_map.mp hv
  rw [element, code_decode, BitVec.toNat_ofNat]
  exact Nat.lt_of_le_of_lt (Nat.mod_le _ _) (Slots.slot_lt _ _ _)

namespace BitpfrCodec

variable {T : IntType} {n : Nat} {f : T.Original} {s : List T.Original} {x : Exceptions T}

theorem low_of_outlier {v : T.Original} (out : outlier n f v = true) : low n f v ≠ v := by
  intro same
  have whole : BitpckCodec.lowBits n (v - f) = v - f := by
    rw [← BitVec.add_sub_cancel (BitpckCodec.lowBits n (v - f)) f]
    exact congrArg (· - f) same
  rw [outlier, decide_eq_true_iff] at out
  exact absurd ((BitpckCodec.lowBits_eq_iff n _).mp whole) (Nat.not_lt.mpr out)

/-- Of the high parts up to the true one only the true one restores the value. -/
theorem eq_high_of_patch {v : T.Original} {h : T.Unsigned} (le : h.toNat ≤ (high n f v).toNat)
    (restored : patch f n (low n f v) h = v) : h = high n f v := by
  have difference : BitpckCodec.lowBits n (v - f) ||| h <<< n = v - f := by
    have cancelled := congrArg (· - f) restored
    simp only [patch, low, BitVec.add_sub_cancel] at cancelled
    exact cancelled
  have joined := Slots.or_ofNat_shiftLeft (BitpckCodec.lowBits n (v - f)) n h.toNat
    (by rw [BitpckCodec.toNat_lowBits]; exact Nat.mod_lt _ (Nat.two_pow_pos n))
  have above : (high n f v).toNat = (v - f : T.Unsigned).toNat / 2 ^ n := by
    rw [high, BitVec.toNat_ushiftRight, Nat.shiftRight_eq_div_pow]
  have split := Nat.mod_add_div (v - f : T.Unsigned).toNat (2 ^ n)
  have small := Nat.mul_le_mul_left (2 ^ n) (above ▸ le)
  rw [BitVec.ofNat_toNat, BitVec.setWidth_eq, difference, BitpckCodec.toNat_lowBits] at joined
  have total := congrArg BitVec.toNat joined
  rw [BitVec.toNat_ofNat, Nat.mod_eq_of_lt (Nat.lt_of_le_of_lt (by omega) (v - f).isLt)] at total
  have product : 2 ^ n * h.toNat = 2 ^ n * (high n f v).toNat := by rw [above]; omega
  exact BitVec.eq_of_toNat_eq (Nat.eq_of_mul_eq_mul_left (Nat.two_pow_pos n) product)

theorem length_places (x : Exceptions T) : x.places.length = x.indices.length := by
  rw [Exceptions.places, List.length_map, OffsetCodec.length_decodes]

/-- What patching restores element by element. -/
theorem getElem?_of_patched {dst : List T.Original}
    (restored : decodePatch dst (Parameters.init f n x) = .ok s) :
    (x.places.zip x.values).map Prod.fst = x.places ∧
      ∀ j, s[j]? =
        dst[j]?.map ((Updates.operands (x.places.zip x.values) j).foldl (patch f n)) := by
  rw [decodePatch_eq_run] at restored
  split at restored
  · rename_i within
    obtain rfl := Except.ok.inj restored
    refine ⟨List.map_fst_zip ?_, fun j => Updates.getElem?_run ..⟩
    rw [length_places]
    exact within.1
  · simp at restored

/-- Every outlier is among the positions that were patched. -/
theorem positions_subset (restored : decodePatch (s.map (low n f)) (Parameters.init f n x) = .ok s) :
    positions n f 0 s ⊆ x.places := by
  intro p hp
  obtain ⟨v, here, out⟩ := (mem_positions_iff n f s p).mp hp
  obtain ⟨firsts, each⟩ := getElem?_of_patched restored
  by_contra other
  rw [← firsts] at other
  have same := each p
  rw [Updates.operands_of_not_mem other, List.getElem?_map, here] at same
  exact low_of_outlier (decide_eq_true out) (Option.some.inj same).symm

theorem positions_increasing (n : Nat) (f : T.Original) (s : List T.Original) :
    (positions n f 0 s).Pairwise (· < ·) := List.pairwise_findIdxs

theorem positions_distinct (n : Nat) (f : T.Original) (s : List T.Original) :
    (positions n f 0 s).Nodup := (positions_increasing n f s).imp Nat.ne_of_lt

theorem subperm_places (restored : decodePatch (s.map (low n f)) (Parameters.init f n x) = .ok s) :
    (positions n f 0 s).Subperm x.places :=
  (positions_distinct n f s).subperm (positions_subset restored)

/-- With no more exceptions than outliers, and positions that did not wrap around, the
exceptions stand at the outliers. -/
theorem places_eq_of_counted (count : x.indices.length ≤ (positions n f 0 s).length)
    (counted : x.places = places 0 (x.indices.map BitVec.toNat))
    (restored : decodePatch (s.map (low n f)) (Parameters.init f n x) = .ok s) :
    x.places = positions n f 0 s ∧ x.indices.map BitVec.toNat = gaps 0 (positions n f 0 s) := by
  have increasing := positions_increasing n f s
  rw [← length_places] at count
  have perm := (subperm_places restored).perm_of_length_le count
  have same : x.places = positions n f 0 s := by
    refine (perm.eq_of_pairwise (fun a b _ _ ab ba => absurd ab (Nat.lt_asymm ba)) increasing ?_).symm
    rw [counted]
    exact places_increasing 0 _
  refine ⟨same, places_injective 0 ?_⟩
  rw [← counted, same, places_gaps (fun _ _ => Nat.zero_le _) increasing]

/-- As many gaps as there are outliers, none larger than the true one: they lead to the true
positions or to other ones. -/
theorem places_eq_of_restored (room : s.length < 2 ^ 64)
    (smaller : List.Forall₂ (· ≤ ·) (x.indices.map BitVec.toNat) (gaps 0 (positions n f 0 s)))
    (restored : decodePatch (s.map (low n f)) (Parameters.init f n x) = .ok s) :
    x.places = positions n f 0 s ∧ x.indices.map BitVec.toNat = gaps 0 (positions n f 0 s) := by
  have count : x.indices.length = (positions n f 0 s).length := by
    have lengths := smaller.length_eq
    rwa [List.length_map, length_gaps] at lengths
  have below := places_le (Nat.le_refl 0) smaller
  rw [places_gaps (fun _ _ => Nat.zero_le _) (positions_increasing n f s)] at below
  have countable : ∀ p ∈ places 0 (x.indices.map BitVec.toNat), p < 2 ^ 64 := by
    intro p hp
    obtain ⟨i, inside, rfl⟩ := List.mem_iff_getElem.mp hp
    have inside' := below.length_eq ▸ inside
    obtain ⟨v, here, -⟩ := (mem_positions_iff n f s _).mp (List.getElem_mem inside')
    have le := below.get inside inside'
    have short := (List.getElem?_eq_some_iff.mp here).1
    simp only [List.get_eq_getElem] at le
    omega
  exact places_eq_of_counted (Nat.le_of_eq count) (OffsetCodec.decodes_places countable) restored

theorem values_eq_of_restored (same : x.places = positions n f 0 s)
    (smaller : List.Forall₂ (fun h h' => h.toNat ≤ h'.toNat) x.values (highs n f s))
    (restored : decodePatch (s.map (low n f)) (Parameters.init f n x) = .ok s) :
    x.values = highs n f s := by
  obtain ⟨firsts, each⟩ := getElem?_of_patched restored
  have distinct : ((x.places.zip x.values).map Prod.fst).Nodup := by
    rw [firsts, same]
    exact positions_distinct n f s
  refine List.ext_getElem smaller.length_eq ?_
  intro j hj hj'
  have hp : j < (positions n f 0 s).length := by rwa [← length_highs]
  obtain ⟨v, here, -⟩ := (mem_positions_iff n f s _).mp (List.getElem_mem hp)
  have true : (highs n f s)[j] = high n f v := by
    have all := congrArg (·[j]?) (highs_eq n f s)
    simp only [List.getElem?_map, List.getElem?_eq_getElem hj', List.getElem?_eq_getElem hp,
      Option.map_some, here] at all
    exact Option.some.inj (Option.some.inj all)
  have update : ((positions n f 0 s)[j], x.values[j]) ∈ x.places.zip x.values := by
    rw [List.mem_iff_getElem]
    refine ⟨j, by rw [List.length_zip, same]; omega, ?_⟩
    simp only [List.getElem_zip, same]
  have patched := each (positions n f 0 s)[j]
  rw [Updates.operands_of_mem distinct update, List.getElem?_map, here] at patched
  have le := smaller.get hj hj'
  simp only [List.get_eq_getElem, true] at le
  rw [true]
  exact eq_high_of_patch le (Option.some.inj patched).symm

/-- Exceptions cut in any place restore nothing. -/
theorem outliers_of_restored (room : s.length < 2 ^ 64)
    (gaps : List.Forall₂ (· ≤ ·) (x.indices.map BitVec.toNat) (gaps 0 (positions n f 0 s)))
    (highs : List.Forall₂ (fun h h' => h.toNat ≤ h'.toNat) x.values (highs n f s))
    (restored : decodePatch (s.map (low n f)) (Parameters.init f n x) = .ok s) :
    x.indices = (outliers n f s).indices ∧ x.values = (outliers n f s).values := by
  obtain ⟨same, true⟩ := places_eq_of_restored room gaps restored
  refine ⟨?_, values_eq_of_restored same highs restored⟩
  rw [outliers, ← true, map_toSize_toNat]

end BitpfrCodec

namespace IntegerCodec

section Basic

variable {I : IntType}

/-- A basic encoding, its width in the range for which the packer is defined. -/
def Usable (desc : Descriptor I) : Prop :=
  match desc.encoding with
  | .naught | .normal | .varint | .varfor => True
  | .bitpck | .bitfor => 1 ≤ desc.nbits ∧ desc.nbits ≤ 64
  | .bitpfr | .unnamed _ _ => False

/-- What is read back for a value, whether it fits or not. -/
def kept (desc : Descriptor I) (v : I.Original) : I.Original :=
  match desc.encoding with
  | .naught => desc.origin
  | .bitpck => ValueCodec.valueDecode (ZigzagCodec.mk (T := I))
      (BitpckCodec.lowBits desc.nbits (code (ZigzagCodec.mk (T := I)) v))
  | .bitfor => BitpckCodec.lowBits desc.nbits (v - desc.origin) + desc.origin
  | _ => v

/-- A basic encoding is read back value by value, cut or not. -/
theorem basic_run_kept {desc : Descriptor I} (usable : Usable desc) (vs : List I.Original) :
    ∃ bs, encodeBasic vs desc = .ok bs ∧ ∀ dst : List I.Original, dst.length = vs.length →
      Consumes (decodeBasic dst desc) bs (vs.map (kept desc)) := by
  have whole (fits : Fits desc vs) (same : vs.map (kept desc) = vs) :
      ∃ bs, encodeBasic vs desc = .ok bs ∧ ∀ dst : List I.Original, dst.length = vs.length →
        Consumes (decodeBasic dst desc) bs (vs.map (kept desc)) := by
    obtain ⟨bs, written, -, read⟩ := basic_run fits
    rw [same]
    exact ⟨bs, written, read⟩
  rcases desc with ⟨e, dataspace, metaspace, origin, nbits⟩
  cases e with
  | naught =>
    refine ⟨_, rfl, ?_⟩
    intro dst len
    have constant : List.replicate vs.length origin = vs.map fun _ => origin := by simp
    rw [decodeBasic, NaughtCodec.decode, len]
    exact constant ▸ consumes_pure _
  | normal | varint | varfor => exact whole trivial (List.map_id' vs)
  | bitpck =>
    refine ⟨_, rfl, ?_⟩
    intro dst len
    rw [decodeBasic, len]
    exact BitpckCodec.consumes_encode_stateless usable.1 usable.2 _ vs
  | bitfor =>
    refine ⟨_, rfl, ?_⟩
    intro dst len
    rw [decodeBasic, len]
    exact BitpckCodec.consumes_encode_stateless usable.1 usable.2
      (⟨⟨origin⟩, nbits⟩ : BitforCodec.Parameters I) vs
  | bitpfr => exact usable.elim
  | unnamed id h => exact usable.elim

/-- A value comes back exactly if the parameters hold it. -/
theorem map_kept_iff {desc : Descriptor I} (usable : Usable desc) (vs : List I.Original) :
    vs.map (kept desc) = vs ↔ Fits desc vs := by
  have each : vs.map (kept desc) = vs ↔ ∀ v ∈ vs, kept desc v = v := by
    conv_lhs => rw [← List.map_id' vs, List.map_map]
    exact List.map_inj_left
  rw [each]
  rcases desc with ⟨e, dataspace, metaspace, origin, nbits⟩
  cases e with
  | naught => exact forall₂_congr fun v _ => eq_comm
  | normal | varint | varfor => exact ⟨fun _ => trivial, fun _ _ _ => rfl⟩
  | bitpck =>
    refine Iff.trans (forall₂_congr fun v _ => ?_) (and_iff_right usable).symm
    rw [← BitpckCodec.lowBits_eq_iff]
    constructor
    · intro same
      have cut := congrArg (code (ZigzagCodec.mk (T := I))) same
      rwa [kept, code_decode] at cut
    · intro same
      rw [kept, same, decode_code]
  | bitfor =>
    refine Iff.trans (forall₂_congr fun v _ => ?_) (and_iff_right usable).symm
    rw [← BitpckCodec.lowBits_eq_iff]
    constructor
    · intro same
      have cut := congrArg (· - origin) same
      simpa only [kept, BitVec.add_sub_cancel] using cut
    · intro same
      rw [kept, same]
      exact BitVec.sub_add_cancel v origin
  | bitpfr => exact usable.elim
  | unnamed id h => exact usable.elim

/-- A decoder that returns has filled all slots. -/
theorem length_of_decodeBasic {desc : Descriptor I} (usable : Usable desc) {dst vs : List I.Original}
    {bs rest : Bytes} (read : (decodeBasic dst desc).run bs = .ok (vs, rest)) :
    vs.length = dst.length := by
  rcases desc with ⟨e, dataspace, metaspace, origin, nbits⟩
  cases e with
  | naught =>
    obtain ⟨rfl, -⟩ := Prod.mk.injEq .. ▸ Except.ok.inj read
    exact List.length_replicate
  | normal | varint | varfor => exact length_of_times read
  | bitpck => exact BitpckCodec.length_of_decode usable.1 usable.2 _ read
  | bitfor => exact BitpckCodec.length_of_decode usable.1 usable.2 _ read
  | bitpfr => exact usable.elim
  | unnamed id h => exact usable.elim

/-- The sequences that some bytes decode to are those that the parameters hold: what was read
from any bytes can be written again. -/
theorem decodable_iff {desc : Descriptor I} (usable : Usable desc) (vs : List I.Original) :
    (∃ (dst : List I.Original) (bs rest : Bytes), dst.length = vs.length ∧
      (decodeBasic dst desc).run bs = .ok (vs, rest)) ↔ Fits desc vs := by
  constructor
  · rintro ⟨dst, bs, rest, -, read⟩
    rcases desc with ⟨e, dataspace, metaspace, origin, nbits⟩
    cases e with
    | naught =>
      obtain ⟨rfl, -⟩ := Prod.mk.injEq .. ▸ Except.ok.inj read
      exact fun v hv => (List.mem_replicate.mp hv).2
    | normal | varint | varfor => trivial
    | bitpck => exact ⟨usable, BitpckCodec.code_lt_of_decode usable.1 usable.2 _ read⟩
    | bitfor =>
      exact ⟨usable, BitpckCodec.code_lt_of_decode usable.1 usable.2
        (⟨⟨origin⟩, nbits⟩ : BitforCodec.Parameters I) read⟩
    | bitpfr => exact usable.elim
    | unnamed id h => exact usable.elim
  · intro fits
    obtain ⟨bs, -, -, read⟩ := basic_run fits
    exact ⟨vs, bs ++ [], [], rfl, read vs rfl []⟩

/-- No bytes decode to a value that five bits above the origin do not hold. -/
theorem decodable_iff_int32 :
    ¬ ∃ (dst : List int32.Original) (bs rest : Bytes), dst.length = 1 ∧
      (decodeBasic dst ⟨.bitfor, 0, 0, -7, 5⟩).run bs = .ok ([25], rest) := by
  intro decoded
  have usable : Usable (⟨.bitfor, 0, 0, -7, 5⟩ : Descriptor int32) := by simp [Usable]
  have fits := (decodable_iff usable [25]).mp decoded
  exact absurd (fits.2 25 (by decide)) (by decide)

theorem Fits.usable {desc : Descriptor I} {vs : List I.Original} (h : Fits desc vs) :
    Usable desc := by
  rcases desc with ⟨e, dataspace, metaspace, origin, nbits⟩
  cases e with
  | naught | normal | varint | varfor => trivial
  | bitpck | bitfor => exact h.1
  | bitpfr => exact h.elim
  | unnamed id _ => exact h.elim

/-- An outlier stream only ever loses high bits. -/
theorem kept_le {desc : Descriptor I} (extra : Metadata.Extra desc) (unsigned : I.signed = false)
    (v : I.Original) : (kept desc v).toNat ≤ v.toNat := by
  rcases extra with varint | ⟨bitpck, -⟩
  · rw [kept, varint]
  · have back := code_decode (ZigzagCodec.mk (T := I)) (BitpckCodec.lowBits desc.nbits v)
    rw [code_unsigned unsigned] at back
    rw [kept, bitpck]
    simp only [code_unsigned unsigned, back, BitpckCodec.toNat_lowBits]
    exact Nat.mod_le _ _

end Basic

variable {T : IntType}

/-- The parameters of a patched encoding are in the range for which the packer is defined. -/
structure UsablePatched (m : Metadata T) : Prop where
  width : 1 ≤ m.valueDesc.nbits ∧ m.valueDesc.nbits ≤ 63
  index : Usable m.outlierIndexDesc
  value : Usable m.outlierValueDesc

theorem FitsPatched.usable {m : Metadata T} {s : List T.Original} (h : FitsPatched m s) :
    UsablePatched m := ⟨h.width, h.index.usable, h.value.usable⟩

/-- Metadata that can be written, with a named encoding and widths in range, and that
announces no more outliers than there are. -/
structure InRange (m : Metadata T) (s : List T.Original) : Prop where
  expressible : m.Expressible
  basic : m.valueDesc.encoding ≠ .bitpfr → Usable m.valueDesc
  patched : m.valueDesc.encoding = .bitpfr → UsablePatched m
  noutliers : m.valueDesc.encoding = .bitpfr →
    m.noutliers.toNat ≤ (outliers m s).indices.length

/-- The gaps as they are read back. -/
theorem kept_gaps_le {m : Metadata T} {s : List T.Original}
    (index : Metadata.Extra m.outlierIndexDesc) :
    List.Forall₂ (· ≤ ·)
      (((outliers m s).indices.map (kept m.outlierIndexDesc)).map BitVec.toNat)
      (gaps 0 (BitpfrCodec.positions m.valueDesc.nbits m.valueDesc.origin 0 s)) := by
  rw [outliers, BitpfrCodec.outliers, List.map_map, List.map_map, List.forall₂_map_left_iff]
  refine List.forall₂_same.mpr fun g _ => Nat.le_trans (kept_le index rfl (toSize g)) ?_
  rw [toSize, BitVec.toNat_ofNat]
  exact Nat.mod_le _ _

/-- The high parts as they are read back. -/
theorem kept_highs_le {m : Metadata T} {s : List T.Original}
    (value : Metadata.Extra m.outlierValueDesc) :
    List.Forall₂ (fun h h' => h.toNat ≤ h'.toNat)
      ((outliers m s).values.map (kept (I := T.makeUnsigned) m.outlierValueDesc))
      (BitpfrCodec.highs m.valueDesc.nbits m.valueDesc.origin s) := by
  rw [List.forall₂_map_left_iff]
  exact List.forall₂_same.mpr fun h _ => kept_le value rfl h

/-- The three streams of a patched encoding and what is read back from each. -/
theorem patched_streams {m : Metadata T} (usable : UsablePatched m) (s : List T.Original) :
    ∃ rs is vs, encodeBitpfr s m = .ok (rs ++ (is ++ vs)) ∧
      rs.length = BitpckCodec.space s.length m.valueDesc.nbits ∧
      (∀ x, Consumes (BitpfrCodec.decodeBasic s.length
          (BitpfrCodec.Parameters.init m.valueDesc.origin m.valueDesc.nbits x)) rs
        (s.map (BitpfrCodec.low m.valueDesc.nbits m.valueDesc.origin))) ∧
      (∀ dst : List sizeT.Original, dst.length = (outliers m s).indices.length →
        Consumes (decodeBasic dst m.outlierIndexDesc) is
          ((outliers m s).indices.map (kept m.outlierIndexDesc))) ∧
      ∀ dst : List T.Unsigned, dst.length = (outliers m s).values.length →
        Consumes (decodeBasic (I := T.makeUnsigned) dst m.outlierValueDesc) vs
          ((outliers m s).values.map (kept (I := T.makeUnsigned) m.outlierValueDesc)) := by
  obtain ⟨h1, h63⟩ := usable.width
  obtain ⟨rs, writtenRegular, len, readRegular⟩ :=
    BitpfrCodec.encode_run h1 h63 m.valueDesc.origin s
  obtain ⟨is, writtenIndices, readIndices⟩ := basic_run_kept usable.index (outliers m s).indices
  obtain ⟨vs, writtenValues, readValues⟩ := basic_run_kept usable.value (outliers m s).values
  refine ⟨rs, is, vs, ?_, len, readRegular, readIndices, readValues⟩
  rw [outliers] at writtenIndices writtenValues
  rw [encodeBitpfr]
  simp only [writtenRegular, writtenIndices, writtenValues]
  rfl

/-- Only the serialised content matters for decoding. -/
theorem decodeBitpfr_agrees {m k : Metadata T} (patched : m.valueDesc.encoding = .bitpfr)
    (agrees : m.Agrees k) (dst : List T.Original) : decodeBitpfr dst m = decodeBitpfr dst k := by
  have origin : m.valueDesc.origin = k.valueDesc.origin :=
    agrees.valueDesc.origin (by rw [patched]; rfl)
  have nbits : m.valueDesc.nbits = k.valueDesc.nbits :=
    agrees.valueDesc.nbits (by rw [patched]; rfl)
  rw [decodeBitpfr, decodeBitpfr, ← origin, ← nbits, ← agrees.noutliers patched,
    ← decodeBasic_agrees (agrees.outlierIndexDesc patched),
    ← decodeBasic_agrees (agrees.outlierValueDesc patched)]

/-- A patched encoding that is read back has parameters that hold the values. -/
theorem fitsPatched_of_read {m k : Metadata T} {s dst : List T.Original} (h : InRange m s)
    (patched : m.valueDesc.encoding = .bitpfr) (room : s.length < 2 ^ 64) (agrees : m.Agrees k)
    (len : dst.length = s.length) {bytes rest left : Bytes} (written : encodeBitpfr s m = .ok bytes)
    (read : (decodeBitpfr dst k).run (bytes ++ rest) = .ok (s, left)) : FitsPatched m s := by
  have usable := h.patched patched
  obtain ⟨rs, is, vs, streams, -, readRegular, readIndices, readValues⟩ := patched_streams usable s
  obtain rfl := Except.ok.inj (streams.symm.trans written)
  rw [← decodeBitpfr_agrees patched agrees, decodeBitpfr, len, List.append_assoc,
    List.append_assoc, (readRegular _).run_bind] at read
  obtain ⟨indices, behind, decodedIndices, later⟩ := run_bind_ok read
  obtain ⟨values, behind', decodedValues, last⟩ := run_bind_ok later
  have restored := run_lift_ok last
  have total : (outliers m s).indices.length =
      (BitpfrCodec.positions m.valueDesc.nbits m.valueDesc.origin 0 s).length := by
    rw [outliers, BitpfrCodec.outliers, List.length_map, length_gaps]
  -- every outlier takes an exception of its own
  have enough := (BitpfrCodec.subperm_places restored).length_le
  rw [BitpfrCodec.length_places, ← total, length_of_decodeBasic usable.index decodedIndices,
    List.length_replicate] at enough
  have count := Nat.le_antisymm (h.noutliers patched) enough
  rw [readIndices _ (List.length_replicate.trans count)] at decodedIndices
  obtain ⟨rfl, rfl⟩ := Prod.mk.injEq .. ▸ Except.ok.inj decodedIndices
  rw [readValues (List.replicate m.noutliers.toNat 0)
    (by rw [List.length_replicate, outliers_lengths, count])] at decodedValues
  obtain ⟨rfl, rfl⟩ := Prod.mk.injEq .. ▸ Except.ok.inj decodedValues
  obtain ⟨indices, values⟩ := BitpfrCodec.outliers_of_restored room
    (kept_gaps_le (h.expressible.index patched)) (kept_highs_le (h.expressible.value patched))
    restored
  exact ⟨patched, usable.width, count, (map_kept_iff usable.index _).mp indices,
    (map_kept_iff usable.value _).mp values⟩

theorem fits_of_read {m k : Metadata T} {s dst : List T.Original} (h : InRange m s)
    (basic : m.valueDesc.encoding ≠ .bitpfr) (agrees : m.Agrees k) (len : dst.length = s.length)
    {bytes rest left : Bytes} (written : encodeBasic s m.valueDesc = .ok bytes)
    (read : (decodeBasic dst k.valueDesc).run (bytes ++ rest) = .ok (s, left)) :
    Fits m.valueDesc s := by
  obtain ⟨bs, encoded, decoded⟩ := basic_run_kept (h.basic basic) s
  obtain rfl := Except.ok.inj (encoded.symm.trans written)
  rw [← decodeBasic_agrees agrees.valueDesc, decoded dst len] at read
  obtain ⟨same, -⟩ := Prod.mk.injEq .. ▸ Except.ok.inj read
  exact (map_kept_iff (h.basic basic) s).mp same

/-- Encoding refuses nothing in range. -/
theorem InRange.encode_ok {m : Metadata T} {s : List T.Original} (h : InRange m s) :
    ∃ bytes, encode s m = .ok bytes := by
  by_cases patched : m.valueDesc.encoding = .bitpfr
  · obtain ⟨rs, is, vs, streams, -⟩ := patched_streams (h.patched patched) s
    exact ⟨_, (if_pos patched).trans streams⟩
  · obtain ⟨bs, encoded, -⟩ := basic_run_kept (h.basic patched) s
    exact ⟨bs, (if_neg patched).trans encoded⟩

/-- Any object with the serialised content reads the values back exactly if the parameters
hold them. -/
theorem decode_iff {m k : Metadata T} {s dst : List T.Original} (h : InRange m s)
    (room : s.length < 2 ^ 64) (agrees : m.Agrees k) (len : dst.length = s.length)
    {bytes rest : Bytes} (written : encode s m = .ok bytes) :
    (decode dst k).run (bytes ++ rest) = .ok (s, rest) ↔
      Fits m.valueDesc s ∨ FitsPatched m s := by
  have same := agrees.valueDesc.encoding
  constructor
  · intro read
    by_cases patched : m.valueDesc.encoding = .bitpfr
    · rw [encode, if_pos patched] at written
      rw [decode, if_pos (same ▸ patched)] at read
      exact .inr (fitsPatched_of_read h patched room agrees len written read)
    · rw [encode, if_neg patched] at written
      rw [decode, if_neg (same ▸ patched)] at read
      exact .inl (fits_of_read h patched agrees len written read)
  · rintro (fits | fits)
    · obtain ⟨bs, encoded, -, read⟩ := basic_run fits
      rw [encode, if_neg fits.not_patched] at written
      obtain rfl := Except.ok.inj (encoded.symm.trans written)
      rw [decode, if_neg (same ▸ fits.not_patched), ← decodeBasic_agrees agrees.valueDesc]
      exact read dst len rest
    · obtain ⟨bs, encoded, -, read⟩ := patched_run fits room
      rw [encode, if_pos fits.encoding] at written
      obtain rfl := Except.ok.inj (encoded.symm.trans written)
      rw [decode, if_pos (same ▸ fits.encoding)]
      exact read k dst agrees len rest

/-- The metadata, read over an object, and the values, read over a buffer. -/
def readBack (prev : Metadata T) (dst : List T.Original) : ByteReader (List T.Original) := do
  let m ← Metadata.decode prev
  decode dst m

/-- Metadata in range is written together with any sequence, and the sequence is read back
exactly if the parameters hold it: every value, or every gap and every high part of the
outliers, and the number of the outliers. -/
theorem read_back_iff (m : Metadata T) (s : Sequence T) (h : InRange m s.vals) :
    ∃ bytes, written m s.vals = .ok bytes ∧
      ∀ (prev : Metadata T) (dst : List T.Original) (rest : Bytes),
        dst.length = s.vals.length →
          ((readBack prev dst).run (bytes ++ rest) = .ok (s.vals, rest) ↔
            Fits m.valueDesc s.vals ∨ FitsPatched m s.vals) := by
  obtain ⟨bytes, encoded⟩ := h.encode_ok
  refine ⟨m.encode ++ bytes, ?_, ?_⟩
  · rw [written, encoded]
    rfl
  · intro prev dst rest len
    rw [readBack, List.append_assoc, (Metadata.consumes_decode prev m h.expressible).run_bind]
    exact decode_iff h s.length_lt (Metadata.agrees_restored prev m) len encoded

/-- A gap of 4 in a width of 2: cut to 0 it would lead to another position. -/
theorem read_back_iff_int32 :
    let m : Metadata int32 := ⟨⟨.bitpfr, 0, 0, 0, 1⟩, 1, ⟨.bitpck, 0, 0, 0, 2⟩, ⟨.varint, 0, 0, 0, 0⟩⟩
    ∃ bytes, written m [0, 0, 0, 0, 9] = .ok bytes ∧
      (readBack (Metadata.fresh int32) [0, 0, 0, 0, 0]).run bytes ≠ .ok ([0, 0, 0, 0, 9], []) := by
  intro m
  have inRange : InRange m [0, 0, 0, 0, 9] :=
    ⟨⟨by decide, fun _ => .inr (by decide), fun _ => .inl rfl⟩, fun basic => absurd rfl basic,
      fun _ => ⟨by decide, by simp [Usable, m], trivial⟩, by decide⟩
  obtain ⟨bytes, stored, exact⟩ := read_back_iff m ⟨[0, 0, 0, 0, 9], by decide⟩ inRange
  refine ⟨bytes, stored, fun read => ?_⟩
  rw [← List.append_nil bytes] at read
  rcases (exact (Metadata.fresh int32) [0, 0, 0, 0, 0] [] rfl).mp read with fits | fits
  · exact fits.not_patched rfl
  · have gap := fits.index.2 4 (by decide)
    exact absurd gap (by decide)

end IntegerCodec

end Oroch
