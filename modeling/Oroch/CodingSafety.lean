import Oroch.Instrumented

/-!
# No operation goes wrong for its operands

Every operation that selection and coding note is one of a few: a packing width that its
use allows, a counter from which less than its value is taken, an access inside the
histogram, the difference of a value of the sequence from the minimum. The division in
`capacity` is therefore never one by zero, the counter of the outliers never wraps, and
a width in the metadata is never written as the byte for another encoding.
-/

namespace Oroch

open Trace Cursor

/-- The largest width of a use. -/
def Purpose.mostNbits : Purpose → Nat
  | base => 63
  | _ => 64

namespace Instrumented

open IntegerCodec

variable {T : IntType}

/-- The operations that occur for a sequence. -/
inductive Expected (src : List T.Original) : Event → Prop where
  | width {purpose : Purpose} {nbits : Nat} (h1 : 1 ≤ nbits) (most : nbits ≤ purpose.mostNbits) :
    Expected src (.width purpose nbits)
  | counter {noutliers n : Nat} (left : n < noutliers) : Expected src (.counter noutliers n)
  | bucket {index : Nat} (inside : index ≤ T.nbits) : Expected src (.bucket T index)
  | sub {v : T.Original} (hv : v ∈ src) :
    Expected src (.sub T v (IntegerStats.collect src).minvalue)

section Select

variable (src : List T.Original)

theorem space_expected {purpose : Purpose} {nbits : Nat} (nvalues : Nat) (h1 : 1 ≤ nbits)
    (most : nbits ≤ purpose.mostNbits) :
    Always (Expected src) (space purpose nvalues nbits) := by
  rw [space, always_bind, always_note]
  exact ⟨.width h1 most, always_pure _ _⟩

theorem sub_expected {v : T.Original} (hv : v ∈ src) :
    Always (Expected src) (sub T v (IntegerStats.collect src).minvalue) := by
  rw [sub, always_bind, always_note]
  exact ⟨.sub hv, always_pure _ _⟩

theorem histogramAt_expected (stats : IntegerStats T) {index : Nat} (inside : index ≤ T.nbits) :
    Always (Expected src) (histogramAt stats index) := by
  rw [histogramAt, always_bind, always_note]
  exact ⟨.bucket inside, always_pure _ _⟩

theorem originSpace_expected {v : T.Original} (hv : v ∈ src) :
    Always (Expected src) (originSpace v ⟨(IntegerStats.collect src).minvalue⟩) := by
  rw [originSpace, always_bind]
  exact ⟨sub_expected src hv, always_pure _ _⟩

theorem buildHistogram_expected :
    Always (Expected src) (buildHistogram (IntegerStats.collect src) src) := by
  refine always_foldlM (fun stats => stats.minvalue = (IntegerStats.collect src).minvalue) rfl ?_
  intro stats v hv same
  constructor
  · rw [stat, same, always_bind, always_bind, always_note]
    exact ⟨sub_expected src hv, .bucket (usedcount_le_nbits T.makeUnsigned _), always_pure _ _⟩
  · exact same

theorem selectBasic_expected (desc : Descriptor T) (varied : IntegerStats.Varied src) :
    Always (Expected src) (selectBasic desc (IntegerStats.collect src) src) := by
  obtain ⟨some, different⟩ := (IntegerStats.varied_iff src).mp varied
  obtain ⟨wide, wide_le⟩ := usedcount_width (umax_pos some different)
  obtain ⟨near, near_le⟩ := usedcount_width (range_pos different)
  rw [selectBasic]
  simp only [always_bind]
  refine ⟨space_expected src _ wide wide_le, sub_expected src (IntegerStats.max_mem_collect some),
    space_expected src _ near near_le, ?_, always_pure _ _⟩
  refine always_foldlM (fun _ => True) trivial ?_
  intro spaces v hv _
  rw [always_bind]
  exact ⟨⟨originSpace_expected src hv, always_pure _ _⟩, trivial⟩

theorem valvar_expected (vstat : IntegerStats T) {nbits nbitsMax : Nat} (h : nbits ≤ nbitsMax)
    (inside : nbitsMax ≤ T.nbits) : Always (Expected src) (valvar vstat nbits nbitsMax) := by
  refine always_foldlM_range' (fun _ _ => True) _ trivial ?_
  intro nb _ above below _
  rw [always_bind]
  exact ⟨⟨histogramAt_expected src vstat (by omega), always_pure _ _⟩, trivial⟩

theorem indexPass_expected (nbits i : Nat) {rest : List T.Original} (part : ∀ v ∈ rest, v ∈ src)
    (indexCodec : OffsetCodec sizeT 1) (space : IndexSpace) :
    Always (Expected src)
      (indexPass (IntegerStats.collect src).minvalue nbits i rest indexCodec space) := by
  induction rest generalizing i indexCodec space with
  | nil => exact always_pure _ _
  | cons cur rest ih =>
    have later := fun v hv => part v (List.mem_cons_of_mem cur hv)
    rw [indexPass, always_bind, always_note]
    exact ⟨.sub (part cur List.mem_cons_self),
      always_ite (fun _ => ih _ later _ _) (fun _ => ih _ later _ _)⟩

/-- The width for the indices comes from a pass that starts at 1 and looks at codes of
64 bits. -/
theorem indnbits_bounds {nbits : Nat} (h : nbits < T.nbits) :
    let space := IntegerCodec.indexSpace ((IntegerStats.collect src).buildHistogram src) src nbits
    1 ≤ space.indnbits ∧ space.indnbits ≤ 64 := by
  intro space
  obtain ⟨h1, h64, -⟩ := foldl_add_width
    (BitpfrCodec.outliers nbits (IntegerStats.collect src).minvalue src).indices ⟨1, 0⟩ (by decide)
  rw [← indexSpace_eq src h] at h1 h64
  exact ⟨h1, h64⟩

/-- One width: the counter is in step with the values above it, and the maximum stays
above every width that is tried. -/
theorem tryWidth_expected (some : src ≠ []) (m : Metadata T) {nbits : Nat} (h1 : 1 ≤ nbits)
    (hlt : nbits < rangeNbits (IntegerStats.collect src)) :
    Always (Expected src) (tryWidth ((IntegerStats.collect src).buildHistogram src) src
      (rangeNbits (IntegerStats.collect src)) (m, above src nbits) nbits) := by
  have most := rangeNbits_le src
  have narrow := T.nbits_le
  have left := above_sub src (show nbits ≤ T.nbits by omega)
  have positive := above_pos src some (show nbits + 1 ≤ rangeNbits _ from hlt)
  obtain ⟨ind1, ind64⟩ := indnbits_bounds src (show nbits < T.nbits by omega)
  rw [tryWidth, always_bind]
  refine ⟨histogramAt_expected src _ (by omega), always_ite (fun _ => always_pure _ _) ?_⟩
  intro _
  simp only [always_bind, always_note, value_histogramAt]
  refine ⟨.counter (by omega), space_expected src _ h1 (by change nbits ≤ 63; omega),
    space_expected src _ (by omega) (by change _ ≤ 64; omega),
    valvar_expected src _ (Nat.le_of_lt hlt) most, space_expected src _ (by decide) (by decide),
    always_ite (fun _ => always_pure _ _) ?_⟩
  intro _
  have pass : value (indexSpace ((IntegerStats.collect src).buildHistogram src) src nbits) =
      IntegerCodec.indexSpace ((IntegerStats.collect src).buildHistogram src) src nbits :=
    value_indexPass _ _ _ _ _ _
  have minvalue := IntegerStats.minvalue_buildHistogram (IntegerStats.collect src) src
  simp only [always_bind]
  refine ⟨?_, ?_, always_ite (fun _ => always_pure _ _) (fun _ => always_pure _ _)⟩
  · rw [indexSpace, minvalue]
    exact indexPass_expected src nbits 0 (fun _ hv => hv) _ _
  · rw [pass]
    exact space_expected src _ ind1 ind64

/-- Selection evaluates nothing else, whatever the metadata it starts from. -/
theorem select_expected (m : Metadata T) : Always (Expected src) (select m src) := by
  rw [select]
  refine always_ite (fun _ => always_pure _ _) ?_
  intro varied
  rw [IntegerStats.nvalues_collect, not_or] at varied
  have some : src ≠ [] := fun none_left => varied.1 (none_left ▸ rfl)
  have distinct := (IntegerStats.varied_iff src).mpr ⟨some, varied.2⟩
  simp only [always_bind]
  refine ⟨selectBasic_expected src _ distinct, always_ite (fun _ => always_pure _ _) ?_⟩
  intro _
  have most := rangeNbits_le src
  have whole := rangeNbits_pos src distinct
  simp only [always_bind, always_note]
  refine ⟨sub_expected src (IntegerStats.max_mem_collect some), buildHistogram_expected src,
    histogramAt_expected src _ (Nat.zero_le _), ?_, ?_, always_pure _ _⟩
  · have first := above_pos src some whole
    rw [← initial_noutliers] at first
    rw [value_buildHistogram]
    exact .counter (by change IntegerStats.histogramAt _ 0 < _; omega)
  · refine always_foldlM_range' (fun nbits state => state.2 = above src nbits) _ ?_ ?_
    · rw [value_buildHistogram]
      exact initial_noutliers src
    · rintro nbits ⟨m, noutliers⟩ h1 below rfl
      have hlt : nbits < rangeNbits (IntegerStats.collect src) := by
        change nbits < 1 + (rangeNbits (IntegerStats.collect src) - 1) at below
        omega
      rw [value_buildHistogram]
      constructor
      · exact tryWidth_expected src some m h1 hlt
      · rw [value_tryWidth]
        exact tryWidth_counts src m _ (by omega)

end Select

/-- A stream of outliers is written as varints or packed with a width of use. -/
def Narrow {I : IntType} (desc : Descriptor I) : Prop :=
  desc.encoding = .varint ∨ desc.encoding = .bitpck ∧ 1 ≤ desc.nbits ∧ desc.nbits ≤ 64

/-- What encoding relies on: the parameters suit the values, and the origin is their
minimum. -/
structure Chosen (m : Metadata T) (src : List T.Original) : Prop where
  suits : Fits m.valueDesc src ∨ FitsPatched m src
  origin : m.valueDesc.encoding.hasOrigin = true →
    m.valueDesc.origin = (IntegerStats.collect src).minvalue
  narrow : m.valueDesc.encoding = .bitpfr → Narrow m.outlierIndexDesc ∧ Narrow m.outlierValueDesc

theorem narrow_of_fits {I : IntType} {desc : Descriptor I} {vs : List I.Original}
    (extra : Metadata.Extra desc) (fits : Fits desc vs) : Narrow desc := by
  rcases extra with varint | ⟨bitpck, -, -⟩
  · exact Or.inl varint
  · rw [Fits, bitpck] at fits
    exact Or.inr ⟨bitpck, fits.1⟩

theorem chosen_of_describes {m : Metadata T} {src : List T.Original} (h : Describes m src)
    (origin : m.valueDesc.encoding.hasOrigin = true →
      m.valueDesc.origin = (IntegerStats.collect src).minvalue) : Chosen m src := by
  refine ⟨h.suits.imp And.left And.left, origin, ?_⟩
  intro patched
  rcases h.suits with ⟨fits, -⟩ | ⟨fits, -⟩
  · exact absurd patched fits.not_patched
  · exact ⟨narrow_of_fits (h.expressible.index patched) fits.index,
      narrow_of_fits (h.expressible.value patched) fits.value⟩

/-- A basic encoding has no streams of outliers. -/
theorem chosen_of_fits {m : Metadata T} {src : List T.Original} (fits : Fits m.valueDesc src)
    (origin : m.valueDesc.encoding.hasOrigin = true →
      m.valueDesc.origin = (IntegerStats.collect src).minvalue) : Chosen m src :=
  ⟨Or.inl fits, origin, fun patched => absurd patched fits.not_patched⟩

theorem basic_chosen (m : Metadata T) {src : List T.Original}
    (varied : IntegerStats.Varied src) :
    Chosen { m with valueDesc :=
      IntegerCodec.selectBasic m.valueDesc (IntegerStats.collect src) src } src := by
  have taken := Cheapest.select_mem cost (normal m.valueDesc (IntegerStats.collect src))
    (candidates (IntegerStats.collect src) src)
  rw [selectBasic_eq]
  generalize Cheapest.select cost (normal m.valueDesc (IntegerStats.collect src))
    (candidates (IntegerStats.collect src) src) = desc at taken
  rcases List.mem_cons.mp taken with rfl | candidate
  · exact chosen_of_fits trivial (fun carried => absurd carried Bool.false_ne_true)
  · refine chosen_of_fits (candidates_describe varied candidate).fits ?_
    simp only [candidates, List.mem_cons, List.not_mem_nil, or_false] at candidate
    rcases candidate with rfl | rfl | rfl | rfl
    · exact fun carried => absurd carried Bool.false_ne_true
    · exact fun _ => rfl
    · exact fun carried => absurd carried Bool.false_ne_true
    · exact fun _ => rfl

/-- Whatever metadata the selection starts from. -/
theorem select_chosen (m : Metadata T) {src : List T.Original} (room : src.length < 2 ^ 64) :
    Chosen (IntegerCodec.select m src) src := by
  rcases paths src with rfl | ⟨some, constant⟩ | varied
  · rw [select_nil]
    exact chosen_of_fits trivial (fun carried => absurd carried Bool.false_ne_true)
  · rw [select_constant m some constant]
    refine chosen_of_fits ?_ (fun _ => rfl)
    intro v hv
    exact IntegerStats.eq_minvalue hv constant
  · rw [select_varied m varied]
    have basic := basic_chosen m varied
    split
    · exact basic
    · have most := rangeNbits_le src
      refine (reach_keeps src (Chosen · src) m (rangeNbits_pos src varied) most basic ?_).1
      intro k m h1 hlt chosen
      rcases tryWidth_cases src m _ (show k ≤ T.nbits by omega) with kept | stored
      · rw [kept]
        exact chosen
      · rw [stored]
        exact chosen_of_describes (store_describes src room h1 hlt m) (fun _ => rfl)

section Coding

variable {src : List T.Original}

/-- A stream of outliers is encoded with its width and no subtraction. -/
theorem stream_encode_expected {I : IntType} {purpose : Purpose} (most : purpose.mostNbits = 64)
    (vs : List I.Original) {desc : Descriptor I} (narrow : Narrow desc) :
    Always (Expected src) (encodeBasic purpose vs desc).run := by
  rw [encodeBasic]
  rcases narrow with varint | ⟨bitpck, h1, h64⟩
  · rw [varint]
    exact always_silent _ _
  · rw [bitpck]
    simp only [always_succeeds, always_bind, always_note]
    exact ⟨.width h1 (by omega), always_pure _ _⟩

theorem stream_decode_expected {I : IntType} {purpose : Purpose} (most : purpose.mostNbits = 64)
    (dst : List I.Original) {desc : Descriptor I} (narrow : Narrow desc) :
    AlwaysReads (Expected src) (decodeBasic purpose dst desc) := by
  rw [decodeBasic]
  rcases narrow with varint | ⟨bitpck, h1, h64⟩
  · rw [varint]
    exact alwaysReads_plain _ _
  · rw [bitpck]
    exact alwaysReads_bind (alwaysReads_noteRead (.width h1 (by omega)))
      (fun _ => alwaysReads_plain _ _)

/-- The differences that the packer takes are those of the sequence. -/
theorem differences_expected {V : Type} [ValueCodec T V] {nbits : Nat} (h1 : 1 ≤ nbits)
    (h64 : nbits ≤ 64) (vcodec : V) :
    ∀ e ∈ differences (IntegerStats.collect src).minvalue (packed src nbits vcodec),
      Expected src e := by
  rw [packed_eq h1 h64, differences]
  intro e he
  obtain ⟨v, hv, rfl⟩ := List.mem_map.mp he
  exact .sub hv

theorem originEncode_expected :
    Always (Expected src) (originEncode src ⟨(IntegerStats.collect src).minvalue⟩) := by
  refine always_foldlM (fun _ => True) trivial ?_
  intro dst v hv _
  rw [always_bind]
  exact ⟨⟨sub_expected src hv, always_pure _ _⟩, trivial⟩

theorem encodeBasic_expected {desc : Descriptor T} (fits : Fits desc src)
    (origin : desc.encoding.hasOrigin = true →
      desc.origin = (IntegerStats.collect src).minvalue) :
    Always (Expected src) (encodeBasic .basic src desc).run := by
  rw [encodeBasic]
  split
  · rename_i varfor
    rw [always_succeeds, origin (by rw [varfor]; rfl)]
    exact originEncode_expected
  · rename_i bitpck
    rw [Fits, bitpck] at fits
    simp only [always_succeeds, always_bind, always_note]
    exact ⟨.width fits.1.1 fits.1.2, always_pure _ _⟩
  · rename_i bitfor
    rw [Fits, bitfor] at fits
    simp only [always_succeeds, always_bind, always_note, always_noteAll]
    rw [origin (by rw [bitfor]; rfl)]
    exact ⟨.width fits.1.1 fits.1.2, differences_expected fits.1.1 fits.1.2 _, always_pure _ _⟩
  · exact always_silent _ _

theorem decodeBasic_expected {desc : Descriptor T} (fits : Fits desc src)
    (dst : List T.Original) : AlwaysReads (Expected src) (decodeBasic .basic dst desc) := by
  rw [decodeBasic]
  split
  · rename_i bitpck
    rw [Fits, bitpck] at fits
    exact alwaysReads_bind (alwaysReads_noteRead (.width fits.1.1 fits.1.2))
      (fun _ => alwaysReads_plain _ _)
  · rename_i bitfor
    rw [Fits, bitfor] at fits
    exact alwaysReads_bind (alwaysReads_noteRead (.width fits.1.1 fits.1.2))
      (fun _ => alwaysReads_plain _ _)
  · exact alwaysReads_plain _ _

theorem encode_expected {m : Metadata T} (chosen : Chosen m src) :
    Always (Expected src) (encode src m).run := by
  rw [encode]
  split
  · rename_i patched
    rcases chosen.suits with fits | fits
    · exact absurd patched fits.not_patched
    · obtain ⟨h1, h63⟩ := fits.width
      obtain ⟨index, value⟩ := chosen.narrow patched
      refine always_fallible_bind ?_ fun _ =>
        always_fallible_bind (stream_encode_expected rfl _ index) fun _ =>
          always_fallible_bind (stream_encode_expected rfl _ value) fun _ => always_pure _ _
      simp only [always_succeeds, always_bind, always_note, always_noteAll]
      rw [chosen.origin (by rw [patched]; rfl)]
      exact ⟨.width h1 h63, differences_expected h1 (by omega) _, always_pure _ _⟩
  · rename_i basic
    rcases chosen.suits with fits | fits
    · exact encodeBasic_expected fits chosen.origin
    · exact absurd fits.encoding basic

theorem decode_expected {m : Metadata T} (chosen : Chosen m src) (dst : List T.Original) :
    AlwaysReads (Expected src) (decode dst m) := by
  rw [decode]
  split
  · rename_i patched
    rcases chosen.suits with fits | fits
    · exact absurd patched fits.not_patched
    · obtain ⟨index, value⟩ := chosen.narrow patched
      exact alwaysReads_bind (alwaysReads_noteRead (.width fits.width.1 fits.width.2)) fun _ =>
        alwaysReads_bind (alwaysReads_plain _ _) fun _ =>
          alwaysReads_bind (stream_decode_expected rfl _ index) fun _ =>
            alwaysReads_bind (stream_decode_expected rfl _ value) fun _ => alwaysReads_plain _ _
  · rename_i basic
    rcases chosen.suits with fits | fits
    · exact decodeBasic_expected fits dst
    · exact absurd fits.encoding basic

end Coding

/-- The operation is defined and means what it says: the width is one of its use, the
counter stays at least 1, the access is inside the histogram. -/
def Safe : Event → Prop
  | .width purpose nbits => 1 ≤ nbits ∧ nbits ≤ purpose.mostNbits
  | .counter noutliers n => n ≤ noutliers ∧ 1 ≤ noutliers - n
  | .bucket I index => index ≤ I.nbits
  | .sub _ _ _ => True

theorem Expected.safe {src : List T.Original} {e : Event} (h : Expected src e) : Safe e := by
  cases h with
  | width h1 most => exact ⟨h1, most⟩
  | counter left => exact ⟨Nat.le_of_lt left, Nat.sub_pos_of_lt left⟩
  | bucket inside => exact inside
  | sub hv => exact trivial

/-- A packed stream of outliers is announced by its width, which is not 0. -/
theorem encodeExtra_ne {I : IntType} {desc : Descriptor I} (narrow : Narrow desc)
    (bitpck : desc.encoding = .bitpck) : Metadata.encodeExtra desc ≠ [0] := by
  rcases narrow with varint | ⟨-, h1, h64⟩
  · rw [bitpck] at varint
    contradiction
  · intro zero
    rw [Metadata.encodeExtra, if_pos bitpck, List.cons.injEq, ← BitVec.toNat_inj,
      BitVec.toNat_ofNat, Nat.mod_eq_of_lt (by omega)] at zero
    simp only [BitVec.ofNat_eq_ofNat, BitVec.toNat_ofNat, Nat.zero_mod] at zero
    omega

/-- Selection, and encoding and decoding with the selected metadata, pass only widths of
use to the packer, never let the counter of the outliers wrap or reach 0 and stay inside
the histogram; and the two descriptors of outliers are not written as what they are not. -/
theorem coding_safe (m : Metadata T) (s : Sequence T) :
    let k := IntegerCodec.select m s.vals
    (value (select m s.vals) = k ∧ Always Safe (select m s.vals)) ∧
      (outcome (encode s.vals k) = IntegerCodec.encode s.vals k ∧
        Always Safe (encode s.vals k).run) ∧
      (∀ dst, reader (decode dst k) = IntegerCodec.decode dst k ∧
        AlwaysReads Safe (decode dst k)) ∧
      (k.valueDesc.encoding = .bitpfr →
        (k.outlierIndexDesc.encoding = .bitpck → Metadata.encodeExtra k.outlierIndexDesc ≠ [0]) ∧
        (k.outlierValueDesc.encoding = .bitpck →
          Metadata.encodeExtra k.outlierValueDesc ≠ [0])) := by
  intro k
  have chosen : Chosen k s.vals := select_chosen m s.length_lt
  have safe : ∀ e, Expected s.vals e → Safe e := fun _ expected => expected.safe
  refine ⟨⟨value_select m s.vals, ?_⟩, ⟨outcome_encode s.vals k, ?_⟩, ?_, ?_⟩
  · exact always_mono safe (select_expected s.vals m)
  · exact always_mono safe (encode_expected chosen)
  · intro dst
    exact ⟨reader_decode dst k, fun input => always_mono safe (decode_expected chosen dst input)⟩
  · intro patched
    obtain ⟨index, value⟩ := chosen.narrow patched
    exact ⟨encodeExtra_ne index, encodeExtra_ne value⟩

end Instrumented

end Oroch
