import Oroch.IntegerGroup
import Oroch.ExactParameters

/-!
# Decoding the front of a sequence

The number of values is not stored: the destination tells how many are decoded, and it may
have fewer slots than there are values. Most encodings then return the front of the
sequence. The patched encoding keeps its exceptions behind the blocks, so the destination
has to reach into the last block to find them, and its exceptions are put back wherever they
belong, behind the end of the destination as well.
-/

namespace Oroch

open Cursor

namespace BitpckCodec

variable {T : IntType} {V : Type} [ValueCodec T V]

theorem space_le {k n : Nat} (front : k ≤ n) (nbits : Nat) : space k nbits ≤ space n nbits := by
  refine Nat.mul_le_mul_left _ (Nat.div_le_div_right ?_)
  omega

/-- Unpacking fewer values than there are. -/
theorem decode_front {nbits : Nat} (h1 : 1 ≤ nbits) (h64 : nbits ≤ 64) (vcodec : V) {k n : Nat}
    (front : k ≤ n) {bs : Bytes} {vs : List T.Original} (len : bs.length = space n nbits)
    (read : Consumes (decode n nbits vcodec) bs vs) (rest : Bytes) :
    (decode k nbits vcodec).run (bs ++ rest) =
      .ok (vs.take k, (bs ++ rest).drop (space k nbits)) := by
  have more := space_le front nbits
  obtain ⟨ws, run, count, each⟩ := decode_fetch h1 h64 vcodec n (bs ++ rest)
    (by rw [List.length_append]; omega)
  obtain ⟨us, run', count', each'⟩ := decode_fetch h1 h64 vcodec k (bs ++ rest)
    (by rw [List.length_append]; omega)
  obtain ⟨rfl, -⟩ := Prod.mk.injEq .. ▸ Except.ok.inj ((read rest).symm.trans run)
  have same : us = vs.take k := by
    apply List.ext_getElem?
    intro i
    by_cases hi : i < k
    · obtain ⟨v, here, fetched⟩ := each i (by omega)
      obtain ⟨v', here', fetched'⟩ := each' i hi
      obtain rfl := Except.ok.inj (fetched.symm.trans fetched')
      rw [List.getElem?_take_of_lt hi, here, here']
    · rw [List.getElem?_eq_none (by omega), List.getElem?_take_eq_none (by omega)]
  rw [run', same]

theorem decode_front_of_fits [StatelessCodec T V] {nbits : Nat} (h1 : 1 ≤ nbits) (h64 : nbits ≤ 64)
    (vcodec : V) {vs : List T.Original} (fits : ∀ v ∈ vs, (code vcodec v).toNat < 2 ^ nbits)
    {k : Nat} (front : k ≤ vs.length) (rest : Bytes) :
    ∃ left, (decode k nbits vcodec).run ((encode vs nbits vcodec).1 ++ rest) =
      .ok (vs.take k, left) := by
  have read := consumes_encode_of_fits h1 h64 vcodec vs fits
  exact ⟨_, decode_front h1 h64 vcodec front (encode_run h1 h64 vs vcodec).2.1 read rest⟩

end BitpckCodec

namespace BitpfrCodec

variable {T : IntType}

theorem places_outliers (n : Nat) (f : T.Original) {s : List T.Original}
    (room : s.length ≤ 2 ^ 64) (index : sizeT.Original) :
    ({ outliers n f s with index := index } : Exceptions T).places = positions n f 0 s := by
  rw [Exceptions.places, outliers, ← codes_positions, OffsetCodec.decodes_codes, List.map_map]
  refine Eq.trans (List.map_congr_left fun p hp => ?_) (List.map_id' _)
  have inside := List.lt_add_of_mem_findIdxs p hp
  exact toNat_toSize (by omega)

/-- Patching a front, which may be too short for the exceptions. -/
theorem decodePatch_front (n : Nat) (f : T.Original) {s : List T.Original}
    (room : s.length ≤ 2 ^ 64) (index : sizeT.Original) {k : Nat} (front : k ≤ s.length) :
    decodePatch ((s.map (low n f)).take k)
        (Parameters.init f n { outliers n f s with index := index }) =
      if ∀ p ∈ positions n f 0 s, p < k then .ok (s.take k) else .error .undefined := by
  have whole := decodePatch_run n f s index room
  rw [decodePatch_eq_run] at whole ⊢
  have enough : ({ outliers n f s with index := index } : Exceptions T).indices.length ≤
      ({ outliers n f s with index := index } : Exceptions T).values.length := by
    simp only [outliers, List.length_map, length_gaps, length_highs, Nat.le_refl]
  simp only [Exceptions.Within, places_outliers n f room, List.length_take, List.length_map,
    Nat.min_eq_left front, enough, true_and] at whole ⊢
  split
  · rename_i inside
    rw [if_pos fun p hp => Nat.lt_of_lt_of_le (inside p hp) front] at whole
    rw [Updates.run_take, Except.ok.inj whole]
  · rfl

end BitpfrCodec

namespace IntegerCodec

section Basic

variable {I : IntType}

/-- A basic encoding returns a front. -/
theorem basic_front {desc : Descriptor I} {vs : List I.Original} (fits : Fits desc vs) :
    ∃ bs, encodeBasic vs desc = .ok bs ∧ ∀ (dst : List I.Original) (rest : Bytes),
      dst.length ≤ vs.length →
        ∃ left, (decodeBasic dst desc).run (bs ++ rest) = .ok (vs.take dst.length, left) := by
  rcases desc with ⟨e, dataspace, metaspace, origin, nbits⟩
  cases e with
  | naught =>
    refine ⟨_, rfl, ?_⟩
    intro dst rest front
    have constant := NaughtCodec.consumes_encode fun v (hv : v ∈ vs.take dst.length) =>
      fits v (List.mem_of_mem_take hv)
    rw [List.length_take_of_le front] at constant
    exact ⟨rest, constant rest⟩
  | normal =>
    refine ⟨_, rfl, ?_⟩
    intro dst rest front
    exact run_times_front (consumes_loadInt I) vs front rest
  | varint | varfor =>
    refine ⟨_, rfl, ?_⟩
    intro dst rest front
    exact run_times_front (VarintCodec.consumes_valueEncode _) vs front rest
  | bitpck =>
    refine ⟨_, rfl, ?_⟩
    intro dst rest front
    exact BitpckCodec.decode_front_of_fits fits.1.1 fits.1.2 _ fits.2 front rest
  | bitfor =>
    refine ⟨_, rfl, ?_⟩
    intro dst rest front
    exact BitpckCodec.decode_front_of_fits fits.1.1 fits.1.2
      (⟨⟨origin⟩, nbits⟩ : BitforCodec.Parameters I) fits.2 front rest
  | bitpfr => exact fits.elim
  | unnamed id h => exact fits.elim

end Basic

variable {T : IntType}

/-- A patched encoding returns a front that reaches into the last block and holds all
outliers. -/
theorem patched_front {m : Metadata T} {s : List T.Original} (fits : FitsPatched m s)
    (room : s.length < 2 ^ 64) :
    ∃ bs, encodeBitpfr s m = .ok bs ∧
      ∀ (k : Metadata T) (dst : List T.Original) (rest : Bytes), m.Agrees k →
        dst.length ≤ s.length →
        BitpckCodec.space dst.length m.valueDesc.nbits =
          BitpckCodec.space s.length m.valueDesc.nbits →
        (decodeBitpfr dst k).run (bs ++ rest) =
          if ∀ p ∈ BitpfrCodec.positions m.valueDesc.nbits m.valueDesc.origin 0 s, p < dst.length
          then .ok (s.take dst.length, rest) else .error .undefined := by
  obtain ⟨h1, h63⟩ := fits.width
  obtain ⟨rs, is, vs, streams, len, readRegular, readIndices, readValues⟩ :=
    patched_streams fits.usable s
  rw [(map_kept_iff fits.index.usable _).mpr fits.index] at readIndices
  rw [(map_kept_iff fits.value.usable _).mpr fits.value] at readValues
  refine ⟨_, streams, ?_⟩
  intro k dst rest agrees front blocks
  have count : (List.replicate m.noutliers.toNat (0 : sizeT.Original)).length =
      (outliers m s).indices.length := by
    rw [List.length_replicate, fits.noutliers]
  have countValues : (List.replicate m.noutliers.toNat (0 : T.Unsigned)).length =
      (outliers m s).values.length := by
    rw [outliers_lengths, ← count, List.length_replicate, List.length_replicate]
  have unpacked (x : BitpfrCodec.Exceptions T) :
      (BitpfrCodec.decodeBasic dst.length
        (BitpfrCodec.Parameters.init m.valueDesc.origin m.valueDesc.nbits x)).run
          (rs ++ (is ++ (vs ++ rest))) =
        .ok ((s.map (BitpfrCodec.low m.valueDesc.nbits m.valueDesc.origin)).take dst.length,
          is ++ (vs ++ rest)) := by
    have run := BitpckCodec.decode_front h1 (by omega)
      (BitpfrCodec.Parameters.init m.valueDesc.origin m.valueDesc.nbits x) front len (readRegular x)
      (is ++ (vs ++ rest))
    rwa [blocks, ← len, List.drop_left] at run
  have patched := BitpfrCodec.decodePatch_front m.valueDesc.nbits m.valueDesc.origin
    (Nat.le_of_lt room) 0 front
  rw [← decodeBitpfr_agrees fits.encoding agrees, decodeBitpfr, List.append_assoc,
    List.append_assoc, run_bind_of_ok (unpacked _), (readIndices _ count).run_bind,
    (readValues _ countValues).run_bind, outliers, patched]
  split <;> rfl

end IntegerCodec

namespace IntegerGroup

variable {T : IntType}

/-- A group decoded into fewer slots than it has values. The basic encodings return the
front. The patched encoding, if the slots reach into its last block, returns the front
too unless an outlier lies behind it, which is written behind the end of the slots. -/
theorem decodes_front (s : Sequence T) (aligned : Bool) (storage : Storage T)
    (before : IntegerGroup T) :
    let desc := (IntegerCodec.select (Metadata.fresh T) s.vals).valueDesc
    ∃ self, (encode storage s.vals aligned).call before = (.ok (), self) ∧
      ∀ dst : List T.Original, dst.length ≤ s.vals.length →
        (desc.encoding ≠ .bitpfr → self.decode dst aligned = .ok (s.vals.take dst.length)) ∧
        (desc.encoding = .bitpfr →
          BitpckCodec.space dst.length desc.nbits = BitpckCodec.space s.vals.length desc.nbits →
            self.decode dst aligned =
              if ∀ p ∈ BitpfrCodec.positions desc.nbits desc.origin 0 s.vals, p < dst.length
              then .ok (s.vals.take dst.length) else .error .undefined) := by
  simp only
  obtain ⟨self, call, stored⟩ := encode_stores storage s.vals s.length_lt aligned before
  have described := IntegerCodec.select_describes s.vals s.length_lt
  obtain ⟨k, bytes, agrees, written, located⟩ := stored.locate_selected s.length_lt
  generalize IntegerCodec.select (Metadata.fresh T) s.vals = m at *
  have same := agrees.valueDesc.encoding
  refine ⟨self, call, fun dst front => ⟨fun basic => ?_, fun patched blocks => ?_⟩⟩
  · have fits : IntegerCodec.Fits m.valueDesc s.vals := by
      rcases described.suits with ⟨fits, -⟩ | ⟨fits, -⟩
      · exact fits
      · exact absurd fits.encoding basic
    obtain ⟨bs, encoded, read⟩ := IntegerCodec.basic_front fits
    rw [IntegerCodec.encode, if_neg basic] at written
    obtain rfl := Except.ok.inj (encoded.symm.trans written)
    obtain ⟨left, run⟩ := read dst [] front
    rw [List.append_nil, IntegerCodec.decodeBasic_agrees agrees.valueDesc] at run
    rw [IntegerGroup.decode, located]
    simp only [bind, Except.bind, IntegerCodec.decode, if_neg (same ▸ basic), run]
    rfl
  · have fits : IntegerCodec.FitsPatched m s.vals := by
      rcases described.suits with ⟨fits, -⟩ | ⟨fits, -⟩
      · exact absurd patched fits.not_patched
      · exact fits
    obtain ⟨bs, encoded, read⟩ := IntegerCodec.patched_front fits s.length_lt
    rw [IntegerCodec.encode, if_pos patched] at written
    obtain rfl := Except.ok.inj (encoded.symm.trans written)
    have run := read k dst [] agrees front blocks
    rw [List.append_nil] at run
    rw [IntegerGroup.decode, located]
    simp only [bind, Except.bind, IntegerCodec.decode, if_pos (same ▸ patched), run]
    by_cases inside : ∀ p ∈ BitpfrCodec.positions m.valueDesc.nbits m.valueDesc.origin 0 s.vals,
        p < dst.length
    · simp only [if_pos inside]
      rfl
    · simp only [if_neg inside]

end IntegerGroup

end Oroch
