import Oroch.Contract
import Oroch.Library.Cheapest

/-!
# What `select` selects

From new metadata `select` always arrives at metadata that describes the sequence.
For the basic encodings the widths come from the two extreme values; for the
patched one the loop keeps the metadata and the number of values above the width
in step, and its dry run computes the sizes of the streams that encoding collects.
-/

namespace Oroch

open Cursor

namespace IntegerCodec

variable {T : IntType}

/-- The metadata and the number of outliers when the search comes to a width. -/
def reach (m : Metadata T) (src : List T.Original) (nbits : Nat) : Metadata T × Nat :=
  let vstat := IntegerStats.collect src
  let m := { m with valueDesc := selectBasic m.valueDesc vstat src }
  let nbitsMax := rangeNbits vstat
  let vstat := vstat.buildHistogram src
  (List.range' 1 (nbits - 1)).foldl (tryWidth vstat src nbitsMax)
    (m, vstat.nvalues - vstat.histogramAt 0)

theorem select_nil (m : Metadata T) : select m [] =
    { m with
      valueDesc := { m.valueDesc with encoding := .normal, dataspace := 0, metaspace := 0 } } := rfl

theorem select_constant (m : Metadata T) {src : List T.Original} (some : src ≠ [])
    (constant : (IntegerStats.collect src).minvalue = (IntegerStats.collect src).maxvalue) :
    select m src =
      { m with
        valueDesc :=
          { m.valueDesc with
            encoding := .naught
            dataspace := 0
            metaspace := VarintCodec.valueSpace (IntegerStats.collect src).minvalue
              (ZigzagCodec.mk (T := T))
            origin := (IntegerStats.collect src).minvalue } } := by
  have count := IntegerStats.nvalues_collect src
  have positive := List.length_pos_iff.mpr some
  rw [select, if_neg (by omega), if_pos constant]

/-- The search starts from the best basic encoding, and its last metadata are selected. -/
theorem select_varied (m : Metadata T) {src : List T.Original}
    (varied : IntegerStats.Varied src) :
    select m src =
      if src.length < 5 then
        { m with valueDesc := selectBasic m.valueDesc (IntegerStats.collect src) src }
      else (reach m src (rangeNbits (IntegerStats.collect src))).1 := by
  obtain ⟨some, different⟩ := (IntegerStats.varied_iff src).mp varied
  have count := IntegerStats.nvalues_collect src
  have positive := List.length_pos_iff.mpr some
  rw [select, if_neg (by omega), if_neg different, ← count]
  rfl

/-- A sequence is empty, constant or varied. -/
theorem paths (src : List T.Original) :
    src = [] ∨
      src ≠ [] ∧ (IntegerStats.collect src).minvalue = (IntegerStats.collect src).maxvalue ∨
      IntegerStats.Varied src := by
  rw [IntegerStats.varied_iff]
  tauto

/-- A width taken from a bound holds everything below the bound. -/
theorem lt_two_pow_usedcount {u bound : T.Unsigned} (h : u.toNat ≤ bound.toNat) :
    u.toNat < 2 ^ T.makeUnsigned.usedcount bound := by
  have used : T.makeUnsigned.usedcount bound = bound.toNat.size := usedcount_eq T.makeUnsigned bound
  rw [used]
  exact Nat.lt_of_le_of_lt h (Nat.lt_size_self _)

theorem usedcount_width {bound : T.Unsigned} (h : 0 < bound.toNat) :
    1 ≤ T.makeUnsigned.usedcount bound ∧ T.makeUnsigned.usedcount bound ≤ 64 := by
  have used : T.makeUnsigned.usedcount bound = bound.toNat.size := usedcount_eq T.makeUnsigned bound
  have most : T.makeUnsigned.usedcount bound ≤ T.nbits := usedcount_le_nbits T.makeUnsigned bound
  exact ⟨used ▸ Nat.size_pos.mpr h, Nat.le_trans most T.nbits_le⟩

theorem toNat_umax (stat : IntegerStats T)
    (ordered : T.toInt stat.minvalue ≤ T.toInt stat.maxvalue) :
    (umax stat).toNat = max (ZigzagCodec.encodeIfSigned T stat.minvalue).toNat
      (ZigzagCodec.encodeIfSigned T stat.maxvalue).toNat := by
  cases hs : T.signed with
  | true =>
    simp only [umax, ZigzagCodec.encodeIfSigned, hs, if_true]
    split <;> omega
  | false =>
    simp only [IntType.toInt, hs, Bool.false_eq_true, if_false] at ordered
    simp only [umax, ZigzagCodec.encodeIfSigned, hs, Bool.false_eq_true, if_false]
    omega

section Extremes

variable {src : List T.Original}

theorem code_le_umax {v : T.Original} (hv : v ∈ src) :
    (code (ZigzagCodec.mk (T := T)) v).toNat ≤ (umax (IntegerStats.collect src)).toNat := by
  have bounds := IntegerStats.extremes_collect src
  rw [toNat_umax _ (IntegerStats.min_le_max (List.ne_nil_of_mem hv)), ZigzagCodec.code_eq]
  exact ZigzagCodec.code_between (bounds.min_le v hv) (bounds.le_max v hv)

theorem umax_pos (some : src ≠ [])
    (varied : (IntegerStats.collect src).minvalue ≠ (IntegerStats.collect src).maxvalue) :
    0 < (umax (IntegerStats.collect src)).toNat := by
  rw [toNat_umax _ (IntegerStats.min_le_max some)]
  by_contra none_left
  apply varied
  apply ZigzagCodec.encodeIfSigned_inj
  apply BitVec.eq_of_toNat_eq
  omega

theorem range_pos
    (varied : (IntegerStats.collect src).minvalue ≠ (IntegerStats.collect src).maxvalue) :
    0 < (range (IntegerStats.collect src)).toNat := by
  by_contra none_left
  apply varied
  apply BitVec.eq_of_toNat_eq
  have low := (IntegerStats.collect src).minvalue.isLt
  have diff := toNat_sub_cases (IntegerStats.collect src).minvalue
    (IntegerStats.collect src).maxvalue
  rw [range] at none_left
  omega

end Extremes

/-- A descriptor for a basic encoding that describes the sequence. -/
structure DescribesBasic (desc : Descriptor T) (src : List T.Original) : Prop where
  fits : Fits desc src
  dataspace : desc.dataspace = basicSpace desc src
  metaspace : (Metadata.encodeBasic desc).length = 1 + desc.metaspace
  width : desc.nbits < 256

theorem spaces_eq (src : List T.Original) (orig : OriginCodec T) (vi vf : Nat) :
    src.foldl (fun (vispace, vfspace) val =>
        (vispace + VarintCodec.valueSpace val (ZigzagCodec.mk (T := T)),
          vfspace + VarintCodec.valueSpace val orig)) (vi, vf) =
      (vi + VarintCodec.space src (ZigzagCodec.mk (T := T)), vf + VarintCodec.space src orig) := by
  induction src generalizing vi vf with
  | nil => rfl
  | cons v src ih =>
    rw [List.foldl_cons, ih]
    simp only [VarintCodec.space_eq_sum, List.map_cons, List.sum_cons, Nat.add_assoc]

/-- What two descriptors are compared by. -/
def cost (desc : Descriptor T) : Nat := desc.dataspace + desc.metaspace

/-- The base case; the announced size of its metadata is the old one. -/
def normal (desc : Descriptor T) (stat : IntegerStats T) : Descriptor T :=
  { desc with encoding := .normal, dataspace := stat.originalSpace }

/-- The encodings that are compared with the base case, in this order. -/
def candidates (stat : IntegerStats T) (src : List T.Original) : List (Descriptor T) :=
  let wide := T.makeUnsigned.usedcount (umax (T := T) stat)
  let near := rangeNbits stat
  let origin := VarintCodec.valueSpace stat.minvalue (ZigzagCodec.mk (T := T))
  [⟨.bitpck, BitpckCodec.space stat.nvalues wide, 1, 0, wide⟩,
    ⟨.bitfor, BitpckCodec.space stat.nvalues near, 1 + origin, stat.minvalue, near⟩,
    ⟨.varint, VarintCodec.space src (ZigzagCodec.mk (T := T)), 0, 0, 0⟩,
    ⟨.varfor, VarintCodec.space src (OriginCodec.mk stat.minvalue), origin, stat.minvalue, 0⟩]

theorem compare_eq (desc : Descriptor T) (encoding : Encoding) (metaspace dataspace : Nat)
    (origin : T.Original) (nbits : Nat) :
    compare desc encoding metaspace dataspace origin nbits =
      Cheapest.cheaper cost desc ⟨encoding, dataspace, metaspace, origin, nbits⟩ := rfl

/-- The best basic encoding is the cheapest of the base case and the candidates. -/
theorem selectBasic_eq (desc : Descriptor T) (stat : IntegerStats T) (src : List T.Original) :
    selectBasic desc stat src = Cheapest.select cost (normal desc stat) (candidates stat src) := by
  simp only [selectBasic, spaces_eq, Nat.zero_add, compare_eq, Cheapest.select, candidates,
    List.foldl_cons, List.foldl_nil, normal, rangeNbits]

theorem normal_describes {desc : Descriptor T} (src : List T.Original)
    (clear : desc.metaspace = 0) (width : desc.nbits < 256) :
    DescribesBasic (normal desc (IntegerStats.collect src)) src := by
  refine ⟨trivial, ?_, ?_, width⟩
  · rw [normal, IntegerStats.originalSpace, IntegerStats.nvalues_collect]
    rfl
  · simp [normal, Metadata.encodeBasic, Metadata.encodeFields, clear]

/-- Every candidate describes the sequence. -/
theorem candidates_describe {src : List T.Original} (varied : IntegerStats.Varied src)
    {desc : Descriptor T} (h : desc ∈ candidates (IntegerStats.collect src) src) :
    DescribesBasic desc src := by
  obtain ⟨some, different⟩ := (IntegerStats.varied_iff src).mp varied
  have wide := usedcount_width (umax_pos some different)
  have near := usedcount_width (range_pos different)
  simp only [candidates, List.mem_cons, List.not_mem_nil, or_false] at h
  rcases h with rfl | rfl | rfl | rfl
  · refine ⟨⟨wide, fun v hv => lt_two_pow_usedcount (code_le_umax hv)⟩, ?_, rfl, ?_⟩
    · rw [IntegerStats.nvalues_collect, basicSpace]
    · exact Nat.lt_of_le_of_lt wide.2 (by decide)
  · refine ⟨⟨near, fun v hv =>
      lt_two_pow_usedcount (IntegerStats.toNat_sub_le_range hv)⟩, ?_, ?_, ?_⟩
    · rw [IntegerStats.nvalues_collect, basicSpace]
    · simp [Metadata.encodeBasic, Metadata.encodeFields, VarintCodec.length_valueEncode]
      omega
    · exact Nat.lt_of_le_of_lt near.2 (by decide)
  · exact ⟨trivial, rfl, rfl, Nat.zero_lt_succ 255⟩
  · refine ⟨trivial, rfl, ?_, Nat.zero_lt_succ 255⟩
    simp [Metadata.encodeBasic, Metadata.encodeFields, VarintCodec.length_valueEncode]
    omega

theorem selectBasic_describes {desc : Descriptor T} {src : List T.Original}
    (varied : IntegerStats.Varied src) (clear : desc.metaspace = 0) (width : desc.nbits < 256) :
    DescribesBasic (selectBasic desc (IntegerStats.collect src) src) src := by
  have taken := Cheapest.select_mem cost (normal desc (IntegerStats.collect src))
    (candidates (IntegerStats.collect src) src)
  rw [selectBasic_eq]
  rcases List.mem_cons.mp taken with base | candidate
  · rw [base]
    exact normal_describes src clear width
  · exact candidates_describe varied candidate

theorem choose_dataspace (nbits pck var : Nat) :
    (choose nbits pck var).dataspace = min pck var := by
  rw [choose]
  split <;> simp only <;> omega

theorem code_unsigned {I : IntType} (unsigned : I.signed = false) (v : I.Original) :
    code (ZigzagCodec.mk (T := I)) v = v := by
  rw [ZigzagCodec.code_eq, ZigzagCodec.encodeIfSigned, unsigned]
  rfl

/-- The choice for a stream of outliers: whichever encoding it is, the stream fits and
takes the chosen space. -/
theorem choose_stream {I : IntType} (unsigned : I.signed = false) (vs : List I.Original)
    {width : Nat} (h1 : 1 ≤ width) (h64 : width ≤ 64) (fits : ∀ v ∈ vs, v.toNat < 2 ^ width)
    (desc : Descriptor I) {stream : Stream}
    (chosen : stream = choose width (BitpckCodec.space vs.length width)
      (VarintCodec.space vs (ZigzagCodec.mk (T := I)))) :
    Fits (stream.store desc) vs ∧ basicSpace (stream.store desc) vs = stream.dataspace ∧
      Metadata.Extra (stream.store desc) := by
  rw [choose] at chosen
  split at chosen
  · subst chosen
    refine ⟨⟨⟨h1, h64⟩, fun v hv => ?_⟩, rfl, Or.inr ⟨rfl, h1, ?_⟩⟩
    · rw [code_unsigned unsigned]
      exact fits v hv
    · exact Nat.lt_of_le_of_lt h64 (by decide)
  · subst chosen
    exact ⟨trivial, rfl, Or.inl rfl⟩

section Patched

variable (lo : T.Original) (src : List T.Original)

theorem outlier_eq (nbits : Nat) :
    BitpfrCodec.outlier nbits lo = fun v => decide (nbits + 1 ≤ IntegerStats.bucket lo v) := by
  funext v
  rw [BitpfrCodec.outlier, IntegerStats.bucket_eq, decide_eq_decide, Nat.succ_le_iff, Nat.lt_size]

theorem length_positions (nbits : Nat) :
    (BitpfrCodec.positions nbits lo 0 src).length =
      src.countP fun v => nbits + 1 ≤ IntegerStats.bucket lo v := by
  rw [BitpfrCodec.positions, List.length_findIdxs, outlier_eq]

/-- The high part of a difference has the bits beyond the width. -/
theorem size_high (nbits : Nat) (v : T.Original) :
    (BitpfrCodec.high nbits lo v).toNat.size = IntegerStats.bucket lo v - nbits := by
  rw [BitpfrCodec.high, BitVec.toNat_ushiftRight, Nat.shiftRight_eq_div_pow,
    Groups.size_div_two_pow, IntegerStats.bucket_eq]

theorem valueSpace_high {nbits : Nat} {v : T.Original}
    (out : nbits + 1 ≤ IntegerStats.bucket lo v) :
    VarintCodec.valueSpace (T := T.makeUnsigned) (BitpfrCodec.high nbits lo v)
        (ZigzagCodec.mk (T := T.makeUnsigned)) =
      VarintCodec.nbitsSpace (IntegerStats.bucket lo v - nbits) := by
  have size := size_high lo nbits v
  have used : T.makeUnsigned.usedcount (BitpfrCodec.high nbits lo v) =
      (BitpfrCodec.high nbits lo v).toNat.size := usedcount_eq T.makeUnsigned _
  have nonzero : ¬ BitpfrCodec.high nbits lo v = 0 := by
    intro zero
    rw [zero, BitVec.ofNat_eq_ofNat, BitVec.toNat_ofNat, Nat.zero_mod, Nat.size_zero] at size
    omega
  rw [VarintCodec.valueSpace, code_unsigned rfl]
  exact (if_neg nonzero).trans (congrArg VarintCodec.nbitsSpace (used.trans size))

/-- The histogram gives the space of the high parts as varints. -/
theorem valvar_eq {nbits nbitsMax : Nat} (hn : nbits ≤ nbitsMax) (hmax : nbitsMax ≤ T.nbits)
    (below : ∀ v ∈ src, IntegerStats.bucket (IntegerStats.collect src).minvalue v ≤ nbitsMax) :
    valvar ((IntegerStats.collect src).buildHistogram src) nbits nbitsMax =
      VarintCodec.space (T := T.makeUnsigned)
        (BitpfrCodec.highs nbits (IntegerStats.collect src).minvalue src)
        (ZigzagCodec.mk (T := T.makeUnsigned)) := by
  have counts : ((List.range' (nbits + 1) (nbitsMax - nbits)).map fun nb =>
      VarintCodec.nbitsSpace (nb - nbits) *
        ((IntegerStats.collect src).buildHistogram src).histogramAt nb) =
      (List.range' (nbits + 1) (nbitsMax - nbits)).map fun nb =>
        VarintCodec.nbitsSpace (nb - nbits) *
          src.countP fun v => IntegerStats.bucket (IntegerStats.collect src).minvalue v = nb := by
    apply List.map_congr_left
    intro nb hnb
    rw [List.mem_range'_1] at hnb
    rw [IntegerStats.histogramAt_eq src (by omega)]
  have outliers : (src.filter fun v =>
      nbits + 1 ≤ IntegerStats.bucket (IntegerStats.collect src).minvalue v ∧
        IntegerStats.bucket (IntegerStats.collect src).minvalue v <
          nbits + 1 + (nbitsMax - nbits)) =
      src.filter (BitpfrCodec.outlier nbits (IntegerStats.collect src).minvalue) := by
    apply List.filter_congr
    intro v hv
    have := below v hv
    rw [outlier_eq, decide_eq_decide]
    omega
  rw [valvar, ← List.foldl_map (f := fun nb => _) (g := fun a b => a + b),
    ← List.sum_eq_foldl_nat, counts, Tally.sum_counts, outliers, VarintCodec.space_eq_sum,
    BitpfrCodec.highs, List.map_map]
  apply congrArg List.sum
  apply List.map_congr_left
  intro v hv
  rw [List.mem_filter, outlier_eq, decide_eq_true_iff] at hv
  exact (valueSpace_high _ hv.2).symm

/-- The real outlier indices, coded from position `i` on, are what the dry run codes. -/
theorem indexPass_eq {nbits : Nat} (hn : nbits < T.nbits)
    (ordered : ∀ v ∈ src, T.toInt lo ≤ T.toInt v) (i : Nat) (c : OffsetCodec sizeT 1)
    (space : IndexSpace) :
    indexPass lo nbits i src c space =
      (c.codes ((BitpfrCodec.positions nbits lo i src).map toSize)).foldl IndexSpace.add space := by
  induction src generalizing i c space with
  | nil => rfl
  | cons v src ih =>
    have rest := ih fun w hw => ordered w (List.mem_cons_of_mem v hw)
    have small := subShiftRight_eq_zero_iff T (ordered v List.mem_cons_self) hn
    rw [indexPass, BitpfrCodec.positions, List.findIdxs_cons]
    by_cases out : BitpfrCodec.outlier nbits lo v = true
    · have shifted : ¬ T.subShiftRight v lo nbits = 0 := by
        rw [small, Nat.not_lt]
        exact of_decide_eq_true out
      simp only [shifted, out, if_true, if_false, List.map_cons, OffsetCodec.codes, List.foldl_cons]
      exact rest _ _ _
    · have shifted : T.subShiftRight v lo nbits = 0 := by
        rw [small, ← Nat.not_le]
        exact fun h => out (decide_eq_true h)
      simp only [shifted, out, if_true]
      exact rest _ _ _

end Patched

theorem foldl_add_space (js : List sizeT.Original) (space : IndexSpace) :
    (js.foldl IndexSpace.add space).indvar =
      space.indvar + VarintCodec.space js (ZigzagCodec.mk (T := sizeT)) := by
  induction js generalizing space with
  | nil => rfl
  | cons j js ih =>
    rw [List.foldl_cons, ih, IndexSpace.add]
    simp only [VarintCodec.space_eq_sum, List.map_cons, List.sum_cons, Nat.add_assoc]

/-- The width of the indices is at least the initial one and holds every index. -/
theorem foldl_add_width (js : List sizeT.Original) (space : IndexSpace)
    (h : space.indnbits ≤ 64) :
    space.indnbits ≤ (js.foldl IndexSpace.add space).indnbits ∧
      (js.foldl IndexSpace.add space).indnbits ≤ 64 ∧
      ∀ j ∈ js, j.toNat < 2 ^ (js.foldl IndexSpace.add space).indnbits := by
  induction js generalizing space with
  | nil => exact ⟨Nat.le_refl _, h, by simp⟩
  | cons j js ih =>
    have used := usedcount_eq sizeT j
    have most := usedcount_le_nbits sizeT j
    have most64 := sizeT.nbits_le
    have wider : (space.add j).indnbits = max space.indnbits (sizeT.usedcount j) := by
      simp only [IndexSpace.add]
      split <;> omega
    obtain ⟨above, below, all⟩ := ih (space.add j) (by omega)
    rw [List.foldl_cons]
    refine ⟨by omega, below, ?_⟩
    intro k hk
    rcases List.mem_cons.mp hk with rfl | hk
    · rw [← Nat.size_le, ← used]
      omega
    · exact all k hk

/-- Stored metadata describes the sequence when the trial counted the outliers and
its two streams fit them. -/
theorem Trial.describes {lo : T.Original} (t : Trial) (src : List T.Original) (m : Metadata T)
    (width : 1 ≤ t.nbits ∧ t.nbits ≤ 63)
    (count : (toSize t.noutliers).toNat = (BitpfrCodec.outliers t.nbits lo src).indices.length)
    (basicMetaspace : t.basicMetaspace = 1 + VarintCodec.valueSpace lo (ZigzagCodec.mk (T := T)))
    (extraMetaspace : t.extraMetaspace =
      2 + VarintCodec.valueSpace (toSize t.noutliers) (ZigzagCodec.mk (T := sizeT)))
    (basicDataspace : t.basicDataspace = BitpckCodec.space src.length t.nbits)
    (index : Fits (t.index.store m.outlierIndexDesc)
        (BitpfrCodec.outliers t.nbits lo src).indices ∧
      basicSpace (t.index.store m.outlierIndexDesc)
        (BitpfrCodec.outliers t.nbits lo src).indices = t.index.dataspace ∧
      Metadata.Extra (t.index.store m.outlierIndexDesc))
    (value : Fits (I := T.makeUnsigned) (t.value.store m.outlierValueDesc)
        (BitpfrCodec.outliers t.nbits lo src).values ∧
      basicSpace (I := T.makeUnsigned) (t.value.store m.outlierValueDesc)
        (BitpfrCodec.outliers t.nbits lo src).values = t.value.dataspace ∧
      Metadata.Extra (t.value.store m.outlierValueDesc)) :
    Describes (t.store lo m) src := by
  obtain ⟨indexFits, indexSpace, indexExtra⟩ := index
  obtain ⟨valueFits, valueSpace, valueExtra⟩ := value
  refine ⟨Or.inr ⟨⟨rfl, width, count, indexFits, valueFits⟩, ?_⟩, ?_,
    ⟨Nat.lt_of_le_of_lt width.2 (by decide), fun _ => indexExtra, fun _ => valueExtra⟩⟩
  · rw [patchedSpace, Metadata.dataspace]
    simp only [Trial.store, outliers, indexSpace, valueSpace, basicDataspace]
  · rw [Metadata.encode, Metadata.metaspace]
    simp only [Trial.store, if_true, Metadata.encodeBasic, Metadata.encodeFields,
      Metadata.encodeExtra, List.length_append, List.length_cons, List.length_nil,
      VarintCodec.length_valueEncode, basicMetaspace, extraMetaspace]
    omega

section Search

variable (src : List T.Original)

/-- The number of values whose difference from the minimum has at least `k` bits. -/
def above (k : Nat) : Nat :=
  src.countP fun v => k ≤ IntegerStats.bucket (IntegerStats.collect src).minvalue v

theorem bucket_le_range {v : T.Original} (hv : v ∈ src) :
    IntegerStats.bucket (IntegerStats.collect src).minvalue v ≤
      rangeNbits (IntegerStats.collect src) := by
  have whole : rangeNbits (IntegerStats.collect src) =
      (range (IntegerStats.collect src)).toNat.size := usedcount_eq T.makeUnsigned _
  rw [whole, IntegerStats.bucket_eq]
  exact Nat.size_le_size (IntegerStats.toNat_sub_le_range hv)

/-- The maximum is the value furthest from the minimum. -/
theorem bucket_max : IntegerStats.bucket (IntegerStats.collect src).minvalue
    (IntegerStats.collect src).maxvalue = rangeNbits (IntegerStats.collect src) := rfl

/-- Below the whole range some value is left above a width: the maximum. -/
theorem above_pos (some : src ≠ []) {k : Nat} (h : k ≤ rangeNbits (IntegerStats.collect src)) :
    1 ≤ above src k := by
  refine List.countP_pos_iff.mpr ⟨_, IntegerStats.max_mem_collect some, ?_⟩
  rw [bucket_max]
  exact decide_eq_true h

theorem rangeNbits_pos (varied : IntegerStats.Varied src) :
    1 ≤ rangeNbits (IntegerStats.collect src) :=
  (usedcount_width (range_pos ((IntegerStats.varied_iff src).mp varied).2)).1

theorem rangeNbits_le : rangeNbits (IntegerStats.collect src) ≤ T.nbits :=
  usedcount_le_nbits T.makeUnsigned _

theorem length_indices (nbits : Nat) :
    (BitpfrCodec.outliers nbits (IntegerStats.collect src).minvalue src).indices.length =
      above src (nbits + 1) := by
  simp only [BitpfrCodec.outliers, List.length_map, length_gaps, length_positions, above]

theorem length_values (nbits : Nat) :
    (BitpfrCodec.outliers nbits (IntegerStats.collect src).minvalue src).values.length =
      above src (nbits + 1) := by
  simp only [BitpfrCodec.outliers, BitpfrCodec.length_highs, length_positions, above]

/-- The dry run codes the indices that the encoder collects. -/
theorem indexSpace_eq {nbits : Nat} (hn : nbits < T.nbits) :
    indexSpace ((IntegerStats.collect src).buildHistogram src) src nbits =
      (BitpfrCodec.outliers nbits (IntegerStats.collect src).minvalue src).indices.foldl
        IndexSpace.add ⟨1, 0⟩ := by
  have ordered := (IntegerStats.extremes_collect src).min_le
  rw [indexSpace, IntegerStats.minvalue_buildHistogram, indexPass_eq _ src hn ordered,
    BitpfrCodec.codes_positions, BitpfrCodec.outliers]

/-- The stream chosen for the indices. -/
theorem index_stream {nbits : Nat} (hn : nbits < T.nbits) (noutliers nbitsMax : Nat)
    (count : noutliers = above src (nbits + 1)) (desc : Descriptor sizeT) :
    let index := (trial ((IntegerStats.collect src).buildHistogram src) src nbitsMax nbits
      noutliers).index
    let indices := (BitpfrCodec.outliers nbits (IntegerStats.collect src).minvalue src).indices
    Fits (index.store desc) indices ∧
      basicSpace (index.store desc) indices = index.dataspace ∧
      Metadata.Extra (index.store desc) := by
  intro index indices
  obtain ⟨h1, h64, fits⟩ := foldl_add_width indices ⟨1, 0⟩ (by decide)
  have var := foldl_add_space indices ⟨1, 0⟩
  rw [Nat.zero_add] at var
  have pass : indexSpace ((IntegerStats.collect src).buildHistogram src) src nbits = _ :=
    indexSpace_eq src hn
  refine choose_stream rfl indices h1 h64 fits desc ?_
  rw [length_indices, ← count, ← var, ← pass]
  rfl

/-- The high parts fit the bits beyond the width. -/
theorem high_lt {nbits : Nat} {h : T.Unsigned}
    (hh : h ∈ (BitpfrCodec.outliers nbits (IntegerStats.collect src).minvalue src).values) :
    h.toNat < 2 ^ (rangeNbits (IntegerStats.collect src) - nbits) := by
  obtain ⟨v, hv, rfl⟩ := List.mem_map.mp hh
  rw [← Nat.size_le, size_high]
  have := bucket_le_range src (List.mem_filter.mp hv).1
  omega

/-- The stream chosen for the high parts. -/
theorem value_stream {nbits : Nat} (hlt : nbits < rangeNbits (IntegerStats.collect src))
    (noutliers : Nat) (count : noutliers = above src (nbits + 1))
    (desc : Descriptor T.makeUnsigned) :
    let value := (trial ((IntegerStats.collect src).buildHistogram src) src
      (rangeNbits (IntegerStats.collect src)) nbits noutliers).value
    let values := (BitpfrCodec.outliers nbits (IntegerStats.collect src).minvalue src).values
    Fits (I := T.makeUnsigned) (value.store desc) values ∧
      basicSpace (I := T.makeUnsigned) (value.store desc) values = value.dataspace ∧
      Metadata.Extra (value.store desc) := by
  intro value values
  have most := rangeNbits_le src
  have narrow := T.nbits_le
  have h1 : 1 ≤ rangeNbits (IntegerStats.collect src) - nbits := by omega
  have h64 : rangeNbits (IntegerStats.collect src) - nbits ≤ 64 := by omega
  refine choose_stream (I := T.makeUnsigned) rfl values h1 h64 ?_ desc ?_
  · intro h hh
    exact high_lt src hh
  · have var := valvar_eq src (Nat.le_of_lt hlt) most fun v hv => bucket_le_range src hv
    have len : values.length = noutliers := (length_values src nbits).trans count.symm
    rw [len]
    exact congrArg (choose _ _) var

/-- The metadata stored for one width describes the sequence. -/
theorem store_describes (room : src.length < 2 ^ 64) {nbits : Nat} (h1 : 1 ≤ nbits)
    (hlt : nbits < rangeNbits (IntegerStats.collect src)) (m : Metadata T) :
    Describes ((trial ((IntegerStats.collect src).buildHistogram src) src
      (rangeNbits (IntegerStats.collect src)) nbits (above src (nbits + 1))).store
        (IntegerStats.collect src).minvalue m) src := by
  have most := rangeNbits_le src
  have narrow := T.nbits_le
  have few : above src (nbits + 1) < 2 ^ 64 := Nat.lt_of_le_of_lt List.countP_le_length room
  have index := index_stream src (by omega : nbits < T.nbits)
    (above src (nbits + 1)) (rangeNbits (IntegerStats.collect src)) rfl m.outlierIndexDesc
  have value := value_stream src hlt (above src (nbits + 1)) rfl m.outlierValueDesc
  refine Trial.describes _ src m ⟨h1, by change nbits ≤ 63; omega⟩ ?_ ?_ rfl ?_ index value
  · exact (toNat_toSize few).trans (length_indices src nbits).symm
  · simp only [trial, IntegerStats.minvalue_buildHistogram]
  · simp only [trial, IntegerStats.nvalues_buildHistogram, IntegerStats.nvalues_collect]

/-- The values of a width are no longer above it. -/
theorem above_sub {nbits : Nat} (h : nbits ≤ T.nbits) :
    above src nbits - ((IntegerStats.collect src).buildHistogram src).histogramAt nbits =
      above src (nbits + 1) := by
  have split := Tally.countP_above
    (IntegerStats.bucket (IntegerStats.collect src).minvalue) src nbits
  rw [IntegerStats.histogramAt_eq src h, above, above, split, Nat.add_sub_cancel]

/-- One width keeps the counter in step, whatever the metadata. -/
theorem tryWidth_counts (m : Metadata T) (nbitsMax : Nat) {nbits : Nat} (h : nbits ≤ T.nbits) :
    (tryWidth ((IntegerStats.collect src).buildHistogram src) src nbitsMax
      (m, above src nbits) nbits).2 = above src (nbits + 1) := by
  have left := above_sub src h
  simp only [tryWidth, left]
  split
  · rename_i empty
    rw [← left, empty, Nat.sub_zero]
  · split
    · rfl
    · split <;> rfl

/-- One width leaves the metadata or stores what it computed. -/
theorem tryWidth_cases (m : Metadata T) (nbitsMax : Nat) {nbits : Nat} (h : nbits ≤ T.nbits) :
    (tryWidth ((IntegerStats.collect src).buildHistogram src) src nbitsMax
        (m, above src nbits) nbits).1 = m ∨
      (tryWidth ((IntegerStats.collect src).buildHistogram src) src nbitsMax
        (m, above src nbits) nbits).1 =
        (trial ((IntegerStats.collect src).buildHistogram src) src nbitsMax nbits
          (above src (nbits + 1))).store (IntegerStats.collect src).minvalue m := by
  simp only [tryWidth, above_sub src h, IntegerStats.minvalue_buildHistogram]
  split
  · exact Or.inl rfl
  · split
    · exact Or.inl rfl
    · split
      · exact Or.inr rfl
      · exact Or.inl rfl

/-- One width keeps the metadata right. -/
theorem tryWidth_describes (room : src.length < 2 ^ 64) {nbits : Nat} (h1 : 1 ≤ nbits)
    (hlt : nbits < rangeNbits (IntegerStats.collect src)) {m : Metadata T}
    (described : Describes m src) :
    Describes (tryWidth ((IntegerStats.collect src).buildHistogram src) src
      (rangeNbits (IntegerStats.collect src)) (m, above src nbits) nbits).1 src := by
  have most := rangeNbits_le src
  rcases tryWidth_cases src m _ (show nbits ≤ T.nbits by omega) with kept | stored
  · rw [kept]
    exact described
  · rw [stored]
    exact store_describes src room h1 hlt m

theorem initial_noutliers :
    ((IntegerStats.collect src).buildHistogram src).nvalues -
      ((IntegerStats.collect src).buildHistogram src).histogramAt 0 = above src 1 := by
  have all : src.countP (fun v =>
      0 ≤ IntegerStats.bucket (IntegerStats.collect src).minvalue v) = src.length := by simp
  have split := Tally.countP_above
    (IntegerStats.bucket (IntegerStats.collect src).minvalue) src 0
  rw [all] at split
  rw [IntegerStats.nvalues_buildHistogram, IntegerStats.nvalues_collect,
    IntegerStats.histogramAt_eq src (Nat.zero_le _), split, Nat.add_sub_cancel, above]

/-- From the counter at width 1 on, a loop that keeps the counter in step keeps it to
the end. -/
theorem reach_keeps (P : Metadata T → Prop) (m : Metadata T) {nbits : Nat} (h1 : 1 ≤ nbits)
    (hle : nbits ≤ T.nbits)
    (start : P { m with valueDesc := selectBasic m.valueDesc (IntegerStats.collect src) src })
    (next : ∀ k m, 1 ≤ k → k < nbits → P m →
      P (tryWidth ((IntegerStats.collect src).buildHistogram src) src
        (rangeNbits (IntegerStats.collect src)) (m, above src k) k).1) :
    P (reach m src nbits).1 ∧ (reach m src nbits).2 = above src nbits := by
  have run := Tally.foldl_range'
    (fun k (state : Metadata T × Nat) => P state.1 ∧ state.2 = above src k)
    (tryWidth ((IntegerStats.collect src).buildHistogram src) src
      (rangeNbits (IntegerStats.collect src))) (nbits - 1)
    (s := ({ m with valueDesc := selectBasic m.valueDesc (IntegerStats.collect src) src },
      above src 1)) ⟨start, rfl⟩ ?_
  · rw [Nat.add_sub_cancel' h1] at run
    rw [reach]
    simp only [initial_noutliers]
    exact run
  · rintro k ⟨m, noutliers⟩ above below ⟨holds, rfl⟩
    exact ⟨next k m above (by omega) holds, tryWidth_counts src m _ (by omega)⟩

theorem reach_counts (m : Metadata T) {nbits : Nat} (h1 : 1 ≤ nbits) (hle : nbits ≤ T.nbits) :
    (reach m src nbits).2 = above src nbits :=
  (reach_keeps src (fun _ => True) m h1 hle trivial fun _ _ _ _ _ => trivial).2

theorem DescribesBasic.describes {desc : Descriptor T} {m : Metadata T} {src : List T.Original}
    (h : DescribesBasic desc src) : Describes { m with valueDesc := desc } src := by
  have basic := h.fits.not_patched
  refine ⟨Or.inl ⟨h.fits, h.dataspace⟩, ?_, ⟨h.width, fun patched => absurd patched basic,
    fun patched => absurd patched basic⟩⟩
  rw [Metadata.encode, if_neg basic, List.append_nil, h.metaspace]
  rfl

/-- New metadata always comes to describe the sequence. -/
theorem select_describes (room : src.length < 2 ^ 64) :
    Describes (select (Metadata.fresh T) src) src := by
  rcases paths src with rfl | ⟨some, constant⟩ | varied
  · rw [select_nil]
    exact DescribesBasic.describes ⟨trivial, (Nat.zero_mul _).symm, rfl, Nat.zero_lt_succ 255⟩
  · rw [select_constant _ some constant]
    refine DescribesBasic.describes ⟨?_, rfl, ?_, Nat.zero_lt_succ 255⟩
    · intro v hv
      exact IntegerStats.eq_minvalue hv constant
    · simp [Metadata.encodeBasic, Metadata.encodeFields, VarintCodec.length_valueEncode]
      omega
  · have basic : Describes { Metadata.fresh T with
        valueDesc := selectBasic (Metadata.fresh T).valueDesc (IntegerStats.collect src) src }
        src :=
      (selectBasic_describes varied rfl (Nat.zero_lt_succ 255)).describes
    rw [select_varied _ varied]
    split
    · exact basic
    · have whole := rangeNbits_pos src varied
      refine (reach_keeps src (Describes · src) _ whole (rangeNbits_le src) basic ?_).1
      intro k m h1 hlt described
      exact tryWidth_describes src room h1 hlt described

end Search

theorem agrees_refl (m : Metadata T) : m.Agrees m :=
  ⟨⟨rfl, fun _ => rfl, fun _ => rfl⟩, fun _ => rfl, fun _ => ⟨rfl, fun _ => rfl, fun _ => rfl⟩,
    fun _ => ⟨rfl, fun _ => rfl, fun _ => rfl⟩⟩

/-- The announced sizes are exact, for writing and for reading: the metadata takes
`metaspace` bytes and the data `dataspace` bytes, whatever follows them. -/
theorem space_exact (s : Sequence T) :
    let m := select (Metadata.fresh T) s.vals
    m.encode.length = m.metaspace ∧
      ∃ bytes, encode s.vals m = .ok bytes ∧ bytes.length = m.dataspace ∧
        (∀ prev : Metadata T, ∃ k,
          (∀ rest, (Metadata.decode prev).run (m.encode ++ rest) = .ok (k, rest)) ∧
          ∀ dst, dst.length = s.vals.length →
            ∀ rest, (decode dst k).run (bytes ++ rest) = .ok (s.vals, rest)) ∧
        ∀ dst, dst.length = s.vals.length →
          ∀ rest, (decode dst m).run (bytes ++ rest) = .ok (s.vals, rest) := by
  intro m
  have described : Describes m s.vals := select_describes s.vals s.length_lt
  obtain ⟨bytes, written, len, read⟩ := described_run described s.length_lt
  refine ⟨described.metaspace, bytes, written, len, fun prev => ?_, fun dst same => ?_⟩
  · exact ⟨Metadata.restored prev m, Metadata.consumes_decode prev m described.expressible,
      fun dst same => read _ dst (Metadata.agrees_restored prev m) same⟩
  · exact read m dst (agrees_refl m) same

end IntegerCodec

end Oroch
