import Oroch.SearchCut
import Oroch.SelectionBounds

/-!
# Skipped widths

The search passes over widths whose bucket is empty. Such a width has the outliers of the
nearest lower visited one and a base that is no smaller, but the high parts of its outliers
are shorter, so it can take less space. Where no lower width is visited, nothing stands in
for it.
-/

namespace Oroch

namespace IntegerCodec

variable {T : IntType}

/-- What the search would compute at a width that it passes over. -/
def skipped (src : List T.Original) (nbits : Nat) : Trial :=
  let vstat := IntegerStats.collect src
  trial (vstat.buildHistogram src) src (rangeNbits vstat) nbits (above src (nbits + 1))

theorem positions_congr {lo : T.Original} {width nbits : Nat} {src : List T.Original}
    (same : ∀ v ∈ src, BitpfrCodec.outlier width lo v = BitpfrCodec.outlier nbits lo v)
    (k : Nat) : BitpfrCodec.positions width lo k src = BitpfrCodec.positions nbits lo k src := by
  induction src generalizing k with
  | nil => rfl
  | cons v src ih =>
    have rest := ih (fun w hw => same w (List.mem_cons_of_mem v hw)) (k + 1)
    simp only [BitpfrCodec.positions, List.findIdxs_cons, same v List.mem_cons_self] at rest ⊢
    rw [rest]

section Skip

variable {src : List T.Original} {width nbits : Nat} (le : width ≤ nbits) (hle : nbits ≤ T.nbits)
  (empty : ∀ k, width < k → k ≤ nbits →
    ((IntegerStats.collect src).buildHistogram src).histogramAt k = 0)

include le hle empty

/-- Widths with empty buckets leave the outliers as they are. -/
theorem outlier_congr {v : T.Original} (hv : v ∈ src) :
    width + 1 ≤ IntegerStats.bucket (IntegerStats.collect src).minvalue v ↔
      nbits + 1 ≤ IntegerStats.bucket (IntegerStats.collect src).minvalue v := by
  constructor
  · intro out
    by_contra inside
    have none_there := empty (IntegerStats.bucket (IntegerStats.collect src).minvalue v) out
      (by omega)
    rw [IntegerStats.histogramAt_eq src (by omega), List.countP_eq_zero] at none_there
    exact none_there v hv (decide_eq_true rfl)
  · intro out
    omega

theorem above_congr : above src (width + 1) = above src (nbits + 1) := by
  refine List.countP_congr ?_
  intro v hv
  simp only [decide_eq_true_eq]
  exact outlier_congr le hle empty hv

theorem indices_congr :
    (BitpfrCodec.outliers width (IntegerStats.collect src).minvalue src).indices =
      (BitpfrCodec.outliers nbits (IntegerStats.collect src).minvalue src).indices := by
  have same : ∀ v ∈ src, BitpfrCodec.outlier width (IntegerStats.collect src).minvalue v =
      BitpfrCodec.outlier nbits (IntegerStats.collect src).minvalue v := by
    intro v hv
    rw [outlier_eq, outlier_eq, decide_eq_decide]
    exact outlier_congr le hle empty hv
  simp only [BitpfrCodec.outliers, positions_congr same 0]

end Skip

/-- The cost only falls in the course of the search. -/
theorem cost_reach_le (m : Metadata T) (src : List T.Original) {k l : Nat} (h1 : 1 ≤ k)
    (hle : k ≤ l) :
    cost (reach m src l).1.valueDesc ≤ cost (reach m src k).1.valueDesc := by
  have split : List.range' 1 (l - 1) =
      List.range' 1 (k - 1) ++ List.range' k (l - k) := by
    rw [show k = 1 + (k - 1) by omega, show l - 1 = (k - 1) + (l - (1 + (k - 1))) by omega]
    simp
  rw [reach, split]
  simp only [List.foldl_append]
  exact cost_search_le _ src _ _ _

/-- At a visited width that the cut does not hide the cost falls to the required space. -/
theorem cost_reach_visited (m : Metadata T) {src : List T.Original} {nbits : Nat}
    (visits : Visits src nbits)
    (below : (visit m src nbits).estimate ≤ (visit m src nbits).required) :
    cost (reach m src (nbits + 1)).1.valueDesc ≤ (visit m src nbits).required := by
  rw [reach_succ m visits]
  simp only
  split
  · next cut =>
    rw [cost]
    omega
  · split
    · simp only [cost, Trial.store, Trial.required]
      omega
    · next kept =>
      rw [cost]
      omega

/-- A skipped width takes the space of the nearest lower visited one, but for its wider
base and its shorter outlier values. -/
theorem skipped_required (m : Metadata T) {src : List T.Original} {width nbits : Nat}
    (visits : Visits src width) (lt : width < nbits)
    (below : nbits < rangeNbits (IntegerStats.collect src))
    (empty : ∀ k, width < k → k ≤ nbits →
      ((IntegerStats.collect src).buildHistogram src).histogramAt k = 0) :
    (visit m src width).required + (skipped src nbits).value.dataspace ≤
      (skipped src nbits).required + (visit m src width).value.dataspace := by
  have most := rangeNbits_le src
  have narrow := T.nbits_le
  have count := visit_noutliers m visits
  have same := above_congr (Nat.le_of_lt lt) (by omega) empty
  have space : indexSpace ((IntegerStats.collect src).buildHistogram src) src width =
      indexSpace ((IntegerStats.collect src).buildHistogram src) src nbits := by
    rw [indexSpace_eq src (by omega), indexSpace_eq src (by omega),
      indices_congr (Nat.le_of_lt lt) (by omega) empty]
  have wider := BitpckCodec.space_mono ((IntegerStats.collect src).buildHistogram src).nvalues
    visits.pos (Nat.le_of_lt lt) (by omega)
  have index : (visit m src width).index = (skipped src nbits).index := by
    change choose _ (BitpckCodec.space (visit m src width).noutliers _) _ = choose _ _ _
    rw [count, space, same]
  have extra : (visit m src width).extraMetaspace = (skipped src nbits).extraMetaspace := by
    change 2 + VarintCodec.valueSpace (toSize (visit m src width).noutliers) _ = 2 + _
    rw [count, same]
  have metaspace : (visit m src width).basicMetaspace = (skipped src nbits).basicMetaspace := rfl
  have base : (visit m src width).basicDataspace ≤ (skipped src nbits).basicDataspace := wider
  rw [Trial.required, Trial.required, index, extra, metaspace]
  omega

/-- A skipped width loses to the selection no more than its shorter outlier values save,
beside those of the nearest lower visited width: the outliers of the two are the same. -/
theorem skip_loss (m : Metadata T) (s : Sequence T) {width nbits : Nat}
    (visits : Visits s.vals width) (lt : width < nbits)
    (below : nbits < rangeNbits (IntegerStats.collect s.vals))
    (empty : ∀ k, width < k → k ≤ nbits →
      ((IntegerStats.collect s.vals).buildHistogram s.vals).histogramAt k = 0)
    (uncut : min 16 s.vals.length ≤ VarintCodec.space
      (BitpfrCodec.outliers width (IntegerStats.collect s.vals).minvalue s.vals).indices
      (ZigzagCodec.mk (T := sizeT))) :
    ∃ other, written ((skipped s.vals nbits).store (IntegerStats.collect s.vals).minvalue
        (Metadata.fresh T)) s.vals = .ok other ∧
      (select m s.vals).metaspace + (select m s.vals).dataspace ≤ other.length +
        ((visit m s.vals width).value.dataspace - (skipped s.vals nbits).value.dataspace) := by
  have described := store_describes s.vals s.length_lt (by omega : 1 ≤ nbits) below
    (Metadata.fresh T)
  obtain ⟨other, encoded, len⟩ := written_described described s.length_lt
  have size : other.length = 1 + (skipped s.vals nbits).required := by
    rw [len]
    simp only [cost, Trial.store, Trial.required, skipped]
    omega
  have visited := cost_reach_visited m visits ((estimate_le_iff m visits).mpr uncut)
  have later := cost_reach_le m s.vals (by omega : 1 ≤ width + 1)
    (show width + 1 ≤ rangeNbits (IntegerStats.collect s.vals) by omega)
  have loss := skipped_required m visits lt below empty
  refine ⟨other, encoded, ?_⟩
  rw [Metadata.metaspace, Metadata.dataspace, select_varied m visits.varied,
    if_neg (Nat.not_lt.mpr visits.long), size]
  rw [cost] at later
  omega

theorem skip_loss_int32 :
    let src : List int32.Original := 0 :: 1 :: List.replicate 16 16
    ∃ other, written ((skipped src 2).store 0 (Metadata.fresh int32)) src = .ok other ∧
      (select (Metadata.fresh int32) src).metaspace +
        (select (Metadata.fresh int32) src).dataspace ≤ other.length +
          ((visit (Metadata.fresh int32) src 1).value.dataspace -
            (skipped src 2).value.dataspace) := by
  intro src
  have visits : Visits src 1 := ⟨by decide, ⟨0, by decide, 1, by decide, by decide⟩, by decide,
    by decide +kernel, by decide +kernel⟩
  have lowest : (IntegerStats.collect src).minvalue = 0 := by decide +kernel
  have empty : ∀ k, 1 < k → k ≤ 2 →
      ((IntegerStats.collect src).buildHistogram src).histogramAt k = 0 := by
    intro k above below
    obtain rfl : k = 2 := by omega
    decide +kernel
  have loss := skip_loss (Metadata.fresh int32) ⟨src, by decide⟩ visits (by decide : 1 < 2)
    (by decide +kernel) empty (by decide +kernel)
  rw [lowest] at loss
  exact loss

/-- One large value among 26: all widths are skipped and 31 bytes selected, where a patched
encoding of width 1 takes 28. -/
theorem skipped_width_wins :
    let src : List int32.Original := List.replicate 25 0 ++ [1073741824]
    1 < rangeNbits (IntegerStats.collect src) ∧
      ((IntegerStats.collect src).buildHistogram src).histogramAt 1 = 0 ∧
      ∃ other, written ((skipped src 1).store 0 (Metadata.fresh int32)) src = .ok other ∧
        other.length = 28 ∧ (select (Metadata.fresh int32) src).metaspace +
          (select (Metadata.fresh int32) src).dataspace = 31 := by
  intro src
  have short : src.length < 2 ^ 64 := by decide
  have range : 1 < rangeNbits (IntegerStats.collect src) := by decide +kernel
  have described := store_describes src short (Nat.le_refl 1) range (Metadata.fresh int32)
  obtain ⟨other, encoded, len⟩ := written_described described short
  have lowest : (IntegerStats.collect src).minvalue = 0 := by decide +kernel
  rw [lowest] at encoded
  refine ⟨range, by decide +kernel, other, encoded, len.trans ?_, by decide +kernel⟩
  decide +kernel

end IntegerCodec

end Oroch
