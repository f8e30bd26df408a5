import Oroch.SkippedWidths

/-!
# How far the selection is from the best patched encoding

The estimate that cuts the search is at most 15 bytes above what a width requires: a block
of one-bit slots against one byte for a single index. So at every visited width the
selection is at most 15 bytes longer than the best patched encoding of that width, whatever
streams are written for the outliers, and there are values where it is 15 bytes longer.
-/

namespace Oroch

namespace IntegerCodec

variable {T : IntType}

theorem estimate_le_add (m : Metadata T) {src : List T.Original} {nbits : Nat}
    (visits : Visits src nbits) :
    (visit m src nbits).estimate ≤ (visit m src nbits).required + 15 := by
  obtain ⟨width, h1, h64, index⟩ := visit_index m visits
  have some : 1 ≤ above src (nbits + 1) := above_pos src visits.nonempty visits.lt
  have wider := BitpckCodec.space_mono (above src (nbits + 1)) (Nat.le_refl 1) h1 h64
  have bytes : BitpckCodec.space (above src (nbits + 1)) 1 ≤ max 16 (above src (nbits + 1)) :=
    BitpckCodec.space_one_le _
  have each := VarintCodec.length_le_space
    (BitpfrCodec.outliers nbits (IntegerStats.collect src).minvalue src).indices
    (ZigzagCodec.mk (T := sizeT))
  have indmin := visit_indmin m visits
  rw [length_indices] at each
  rw [Trial.estimate, Trial.required]
  omega

theorem cost_reach_near (m : Metadata T) {src : List T.Original} {nbits : Nat}
    (visits : Visits src nbits) :
    cost (reach m src (nbits + 1)).1.valueDesc ≤ (visit m src nbits).required + 15 := by
  have near := estimate_le_add m visits
  rw [reach_succ m visits]
  simp only
  split
  · next cut =>
    rw [cost]
    omega
  · split
    · simp only [cost, Trial.store, Trial.required]
      omega
    · next kept =>
      rw [cost]
      omega

theorem cost_select_near (m : Metadata T) {src : List T.Original} {nbits : Nat}
    (visits : Visits src nbits) :
    cost (select m src).valueDesc ≤ (visit m src nbits).required + 15 := by
  have long := visits.long
  have later := cost_reach_le m src (Nat.succ_pos nbits) visits.lt
  rw [select_varied m visits.varied, if_neg (by omega)]
  exact Nat.le_trans later (cost_reach_near m visits)

/-- The width of the indices is the least one that holds them and is not below the first. -/
theorem foldl_add_width_le {b : Nat} (js : List sizeT.Original) (space : IndexSpace)
    (start : space.indnbits ≤ b) (fits : ∀ j ∈ js, j.toNat < 2 ^ b) :
    (js.foldl IndexSpace.add space).indnbits ≤ b := by
  induction js generalizing space with
  | nil => exact start
  | cons j js ih =>
    have used : sizeT.usedcount j ≤ b := by
      rw [usedcount_eq]
      exact Nat.size_le.mpr (fits j List.mem_cons_self)
    refine ih (space.add j) ?_ fun k hk => fits k (List.mem_cons_of_mem j hk)
    simp only [IndexSpace.add]
    split
    · exact used
    · exact start

/-- No stream that the format can express is shorter than the chosen one, if the width of
the choice is the least that holds the values. -/
theorem choose_le_basicSpace {I : IntType} (unsigned : I.signed = false) {vs : List I.Original}
    {width : Nat} (h1 : 1 ≤ width) {desc : Descriptor I} (fits : Fits desc vs)
    (extra : Metadata.Extra desc)
    (least : ∀ b, 1 ≤ b → (∀ v ∈ vs, v.toNat < 2 ^ b) → width ≤ b) :
    (choose width (BitpckCodec.space vs.length width)
      (VarintCodec.space vs (ZigzagCodec.mk (T := I)))).dataspace ≤ basicSpace desc vs := by
  rw [choose_dataspace]
  rcases extra with varint | ⟨bitpck, -⟩
  · rw [basicSpace, varint]
    exact Nat.min_le_right _ _
  · rw [Fits, bitpck] at fits
    obtain ⟨⟨low, high⟩, codes⟩ := fits
    have narrow : width ≤ desc.nbits := by
      refine least desc.nbits low ?_
      intro v hv
      rw [← code_unsigned unsigned v]
      exact codes v hv
    have wider := BitpckCodec.space_mono vs.length h1 narrow high
    rw [basicSpace, bitpck]
    exact Nat.le_trans (Nat.min_le_left _ _) wider

section Streams

variable (m : Metadata T) {src : List T.Original} {nbits : Nat} (visits : Visits src nbits)

include visits

theorem visit_index_le {desc : Descriptor sizeT}
    (fits : Fits desc
      (BitpfrCodec.outliers nbits (IntegerStats.collect src).minvalue src).indices)
    (extra : Metadata.Extra desc) :
    (visit m src nbits).index.dataspace ≤ basicSpace desc
      (BitpfrCodec.outliers nbits (IntegerStats.collect src).minvalue src).indices := by
  have pass := indexSpace_eq src (visits_width visits).2.2
  have var := foldl_add_space
    (BitpfrCodec.outliers nbits (IntegerStats.collect src).minvalue src).indices ⟨1, 0⟩
  obtain ⟨h1, -, -⟩ := foldl_add_width
    (BitpfrCodec.outliers nbits (IntegerStats.collect src).minvalue src).indices ⟨1, 0⟩
    (by decide)
  have chosen := choose_le_basicSpace rfl h1 fits extra
    fun b positive below => foldl_add_width_le _ ⟨1, 0⟩ positive below
  rw [Nat.zero_add] at var
  rw [← var, ← pass, length_indices, ← visit_noutliers m visits] at chosen
  exact chosen

theorem visit_value_le {desc : Descriptor T.makeUnsigned}
    (fits : Fits (I := T.makeUnsigned) desc
      (BitpfrCodec.outliers nbits (IntegerStats.collect src).minvalue src).values)
    (extra : Metadata.Extra desc) :
    (visit m src nbits).value.dataspace ≤ basicSpace (I := T.makeUnsigned) desc
      (BitpfrCodec.outliers nbits (IntegerStats.collect src).minvalue src).values := by
  have lt := visits.lt
  have most := rangeNbits_le src
  have var := valvar_eq src (Nat.le_of_lt lt) most fun v hv => bucket_le_range src hv
  have greatest : BitpfrCodec.high nbits (IntegerStats.collect src).minvalue
      (IntegerStats.collect src).maxvalue ∈
        (BitpfrCodec.outliers nbits (IntegerStats.collect src).minvalue src).values := by
    refine List.mem_map_of_mem (List.mem_filter.mpr
      ⟨IntegerStats.max_mem_collect visits.nonempty, ?_⟩)
    rw [outlier_eq]
    exact decide_eq_true (Nat.le_trans lt (Nat.le_of_eq (bucket_max src).symm))
  have chosen := choose_le_basicSpace (I := T.makeUnsigned) rfl
    (show 1 ≤ rangeNbits (IntegerStats.collect src) - nbits by omega) fits extra ?_
  · rw [length_values, ← visit_noutliers m visits] at chosen
    refine Nat.le_trans (Nat.le_of_eq ?_) chosen
    exact congrArg (fun valvar => (choose _ _ valvar).dataspace) var
  · intro b positive below
    have top := Nat.size_le.mpr (below _ greatest)
    rwa [size_high, bucket_max] at top

end Streams

theorem length_encode_patched {m : Metadata T} (patched : m.valueDesc.encoding = .bitpfr) :
    m.encode.length =
      1 + (1 + VarintCodec.valueSpace m.valueDesc.origin (ZigzagCodec.mk (T := T))) +
      (2 + VarintCodec.valueSpace m.noutliers (ZigzagCodec.mk (T := sizeT))) := by
  rw [Metadata.encode, if_pos patched, Metadata.encodeBasic, Metadata.encodeFields, patched]
  simp only [Metadata.encodeExtra, List.length_append, List.length_cons, List.length_nil,
    VarintCodec.length_valueEncode]
  omega

/-- The encodings of a visited width take no less than the search requires for it. -/
theorem required_le_written (m k : Metadata T) (s : Sequence T)
    (visits : Visits s.vals k.valueDesc.nbits)
    (origin : k.valueDesc.origin = (IntegerStats.collect s.vals).minvalue)
    (fits : FitsPatched k s.vals) (expressible : k.Expressible) :
    ∃ bytes, written k s.vals = .ok bytes ∧
      1 + (visit m s.vals k.valueDesc.nbits).required ≤ bytes.length := by
  obtain ⟨bytes, encoded, len, -⟩ := patched_run fits s.length_lt
  have index := visit_index_le m visits (origin ▸ fits.index) (expressible.index fits.encoding)
  have value := visit_value_le m visits (origin ▸ fits.value) (expressible.value fits.encoding)
  have count := visit_noutliers m visits
  have noutliers : k.noutliers = toSize (visit m s.vals k.valueDesc.nbits).noutliers := by
    apply BitVec.eq_of_toNat_eq
    have few : above s.vals (k.valueDesc.nbits + 1) < 2 ^ 64 :=
      Nat.lt_of_le_of_lt List.countP_le_length s.length_lt
    rw [count, toNat_toSize few, fits.noutliers, outliers, origin, length_indices]
  refine ⟨k.encode ++ bytes, ?_, ?_⟩
  · rw [written, encode, if_pos fits.encoding, encoded]
    rfl
  · have head := length_encode_patched fits.encoding
    have basic : (visit m s.vals k.valueDesc.nbits).basicMetaspace =
        1 + VarintCodec.valueSpace (IntegerStats.collect s.vals).minvalue ZigzagCodec.mk := by
      simp only [visit, trial, IntegerStats.minvalue_buildHistogram]
    have extra : (visit m s.vals k.valueDesc.nbits).extraMetaspace =
        2 + VarintCodec.valueSpace k.noutliers ZigzagCodec.mk := noutliers ▸ rfl
    have base : (visit m s.vals k.valueDesc.nbits).basicDataspace =
        BitpckCodec.space s.vals.length k.valueDesc.nbits := by
      simp only [visit, trial, IntegerStats.nvalues_buildHistogram, IntegerStats.nvalues_collect]
    rw [origin] at head
    rw [List.length_append, head, len, patchedSpace, outliers, origin, Trial.required, basic, extra,
      base]
    omega

/-- At a visited width no patched encoding with the minimum as its origin is shorter than
the selection by more than 15 bytes, whatever streams hold its outliers. -/
theorem select_near_patched (s : Sequence T) (k : Metadata T)
    (visits : Visits s.vals k.valueDesc.nbits)
    (origin : k.valueDesc.origin = (IntegerStats.collect s.vals).minvalue)
    (fits : FitsPatched k s.vals) (expressible : k.Expressible) :
    ∃ bytes other, written (select (Metadata.fresh T) s.vals) s.vals = .ok bytes ∧
      written k s.vals = .ok other ∧ bytes.length ≤ other.length + 15 := by
  obtain ⟨bytes, selected, len⟩ :=
    written_described (select_describes s.vals s.length_lt) s.length_lt
  obtain ⟨other, encoded, longer⟩ :=
    required_le_written (Metadata.fresh T) k s visits origin fits expressible
  have near := cost_select_near (Metadata.fresh T) visits
  exact ⟨bytes, other, selected, encoded, by omega⟩

/-- One large value and 31 small ones: at width 8 a patched encoding takes 43 bytes with its
tag, and the selection takes 58. -/
theorem select_near_patched_attained :
    let src : List int32.Original := List.replicate 10 0 ++ (List.replicate 21 200 ++ [1073741824])
    let k : Metadata int32 := ⟨⟨.bitpfr, 0, 0, 0, 8⟩, 1, ⟨.varint, 0, 0, 0, 0⟩, ⟨.varint, 0, 0, 0, 0⟩⟩
    ∃ bytes other, written (select (Metadata.fresh int32) src) src = .ok bytes ∧
      written k src = .ok other ∧ bytes.length = other.length + 15 := by
  intro src k
  have visits : Visits src 8 := ⟨by decide, ⟨0, by decide, 200, by decide, by decide⟩, by decide,
    by decide +kernel, by decide +kernel⟩
  have fits : FitsPatched k src := ⟨rfl, by decide, by decide +kernel, trivial, trivial⟩
  obtain ⟨bytes, other, selected, encoded, near⟩ := select_near_patched ⟨src, by decide⟩ k visits
    (by decide +kernel) fits ⟨by decide, fun _ => .inl rfl, fun _ => .inl rfl⟩
  have long : (written (select (Metadata.fresh int32) src) src).map List.length = .ok 58 := by
    decide +kernel
  have short : (written k src).map List.length = .ok 43 := by decide +kernel
  rw [selected] at long
  rw [encoded] at short
  refine ⟨bytes, other, selected, encoded, Nat.le_antisymm near ?_⟩
  have := Except.ok.inj long
  have := Except.ok.inj short
  omega

end IntegerCodec

end Oroch
