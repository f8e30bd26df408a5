import Oroch.DryRun

/-!
# The cut of the search

Before the search looks at the positions of the outliers it compares an estimate with the
space selected so far. The estimate takes the space of one-bit slots for the indices, but
at most one byte for each value of the sequence. Indices written as varints take a byte for
each outlier only, so the estimate can exceed what a width really requires.
-/

namespace Oroch

namespace IntegerCodec

variable {T : IntType}

/-- `tryWidth` without the estimate. -/
def tryWidthUncut (vstat : IntegerStats T) (src : List T.Original) (nbitsMax : Nat) :
    Metadata T × Nat → Nat → Metadata T × Nat
  | (m, noutliers), nbits =>
    let n := vstat.histogramAt nbits
    if n = 0 then (m, noutliers)
    else
      let noutliers := noutliers - n
      let t := trial vstat src nbitsMax nbits noutliers
      let selected := m.valueDesc.dataspace + m.valueDesc.metaspace
      if t.required < selected then (t.store vstat.minvalue m, noutliers)
      else (m, noutliers)

/-- `select` with the search that computes the required space at every width. -/
def selectUncut (m : Metadata T) (src : List T.Original) : Metadata T :=
  let vstat := IntegerStats.collect src
  if vstat.nvalues < 5 ∨ vstat.minvalue = vstat.maxvalue then select m src
  else
    let m := { m with valueDesc := selectBasic m.valueDesc vstat src }
    let nbitsMax := rangeNbits vstat
    let vstat := vstat.buildHistogram src
    let noutliers := vstat.nvalues - vstat.histogramAt 0
    ((List.range' 1 (nbitsMax - 1)).foldl (tryWidthUncut vstat src nbitsMax) (m, noutliers)).1

/-- What the cut is meant to be: the estimate is never above the required space, so the
search selects what it would select without the cut. -/
structure CutSound (m : Metadata T) (src : List T.Original) : Prop where
  estimate_le : ∀ nbits, Visits src nbits →
    (visit m src nbits).estimate ≤ (visit m src nbits).required
  same : select m src = selectUncut m src

theorem Trial.estimate_le_iff (t : Trial) :
    t.estimate ≤ t.required ↔ t.indmin ≤ t.index.dataspace := by
  rw [Trial.estimate, Trial.required]
  omega

theorem Visits.nonempty {src : List T.Original} {nbits : Nat} (h : Visits src nbits) :
    src ≠ [] := by
  have long := h.long
  exact List.ne_nil_of_length_pos (by omega)

theorem visit_indmin (m : Metadata T) {src : List T.Original} {nbits : Nat}
    (visits : Visits src nbits) :
    (visit m src nbits).indmin =
      min (BitpckCodec.space (above src (nbits + 1)) 1) src.length := by
  have count : (visit m src nbits).noutliers = _ := visit_noutliers m visits
  have indmin : (visit m src nbits).indmin =
      (if BitpckCodec.space (visit m src nbits).noutliers 1 >
          ((IntegerStats.collect src).buildHistogram src).nvalues then
        ((IntegerStats.collect src).buildHistogram src).nvalues
      else BitpckCodec.space (visit m src nbits).noutliers 1) := rfl
  rw [indmin, count, IntegerStats.nvalues_buildHistogram, IntegerStats.nvalues_collect]
  split <;> omega

theorem visit_index (m : Metadata T) {src : List T.Original} {nbits : Nat}
    (visits : Visits src nbits) :
    ∃ width, 1 ≤ width ∧ width ≤ 64 ∧ (visit m src nbits).index.dataspace =
      min (BitpckCodec.space (above src (nbits + 1)) width)
        (VarintCodec.space
          (BitpfrCodec.outliers nbits (IntegerStats.collect src).minvalue src).indices
          (ZigzagCodec.mk (T := sizeT))) := by
  have pass := indexSpace_eq src (visits_width visits).2.2
  obtain ⟨h1, h64, -⟩ := foldl_add_width
    (BitpfrCodec.outliers nbits (IntegerStats.collect src).minvalue src).indices ⟨1, 0⟩
    (by decide)
  have var := foldl_add_space
    (BitpfrCodec.outliers nbits (IntegerStats.collect src).minvalue src).indices ⟨1, 0⟩
  rw [← pass] at h1 h64 var
  rw [Nat.zero_add] at var
  refine ⟨_, h1, h64, ?_⟩
  rw [← var, ← visit_noutliers m visits]
  exact choose_dataspace _ _ _

/-- The estimate is no more than the required space just when the indices take a block, or
a byte for each value of the sequence, as varints. -/
theorem estimate_le_iff (m : Metadata T) {src : List T.Original} {nbits : Nat}
    (visits : Visits src nbits) :
    (visit m src nbits).estimate ≤ (visit m src nbits).required ↔
      min BitpckCodec.blockSize src.length ≤ VarintCodec.space
        (BitpfrCodec.outliers nbits (IntegerStats.collect src).minvalue src).indices
        (ZigzagCodec.mk (T := sizeT)) := by
  obtain ⟨width, h1, h64, index⟩ := visit_index m visits
  have some : 1 ≤ above src (nbits + 1) := above_pos src visits.nonempty visits.lt
  have wider := BitpckCodec.space_mono (above src (nbits + 1)) (Nat.le_refl 1) h1 h64
  have block := BitpckCodec.blockSize_le_space (Nat.le_refl 1) (by decide : 1 ≤ 64) some
  have bytes := BitpckCodec.space_one_le (above src (nbits + 1))
  have each := VarintCodec.length_le_space
    (BitpfrCodec.outliers nbits (IntegerStats.collect src).minvalue src).indices
    (ZigzagCodec.mk (T := sizeT))
  rw [length_indices] at each
  rw [Trial.estimate_le_iff, visit_indmin m visits, index]
  constructor
  · intro below
    omega
  · intro enough
    omega

/-- Where the estimate is no more than the required space, the cut changes nothing. -/
theorem tryWidth_eq_uncut (vstat : IntegerStats T) (src : List T.Original) (nbitsMax : Nat)
    (m : Metadata T) (noutliers nbits : Nat)
    (below : vstat.histogramAt nbits ≠ 0 →
      (trial vstat src nbitsMax nbits (noutliers - vstat.histogramAt nbits)).estimate ≤
        (trial vstat src nbitsMax nbits (noutliers - vstat.histogramAt nbits)).required) :
    tryWidth vstat src nbitsMax (m, noutliers) nbits =
      tryWidthUncut vstat src nbitsMax (m, noutliers) nbits := by
  by_cases empty : vstat.histogramAt nbits = 0
  · simp only [tryWidth, tryWidthUncut, if_pos empty]
  · have below := below empty
    simp only [tryWidth, tryWidthUncut, if_neg empty]
    by_cases cut : (trial vstat src nbitsMax nbits
        (noutliers - vstat.histogramAt nbits)).estimate ≥
      m.valueDesc.dataspace + m.valueDesc.metaspace
    · rw [if_pos cut, if_neg (by omega)]
    · rw [if_neg cut]

theorem select_eq_uncut (m : Metadata T) {src : List T.Original}
    (below : ∀ nbits, Visits src nbits →
      (visit m src nbits).estimate ≤ (visit m src nbits).required) :
    select m src = selectUncut m src := by
  have count := IntegerStats.nvalues_collect src
  rw [selectUncut]
  by_cases early : (IntegerStats.collect src).nvalues < 5 ∨
      (IntegerStats.collect src).minvalue = (IntegerStats.collect src).maxvalue
  · rw [if_pos early]
  · obtain ⟨long, different⟩ := not_or.mp early
    have some : src ≠ [] := List.ne_nil_of_length_pos (by omega)
    have varied := (IntegerStats.varied_iff src).mpr ⟨some, different⟩
    have most := rangeNbits_le src
    rw [select_varied m varied, if_neg (by omega), reach, if_neg early]
    simp only [initial_noutliers]
    refine congrArg Prod.fst (Tally.foldl_range'_congr
      (fun k (state : Metadata T × Nat) => state.2 = above src k) _ _ _ rfl ?_ ?_)
    · rintro k ⟨m', noutliers⟩ h1 hlt rfl
      exact tryWidth_counts src m' _ (by omega)
    · rintro k ⟨m', noutliers⟩ h1 hlt rfl
      apply tryWidth_eq_uncut
      intro nonempty
      have visits : Visits src k := ⟨by omega, varied, h1, by omega, nonempty⟩
      have visited := below k visits
      simp only [visit, reach_counts src m h1 (by omega : k ≤ T.nbits)] at visited
      exact visited

/-- The cut is sound for just those sequences whose outlier indices take, at every visited
width, a block or a byte for each value of the sequence when written as varints. -/
theorem cutSound_iff (m : Metadata T) (src : List T.Original) :
    CutSound m src ↔ ∀ nbits, Visits src nbits →
      min 16 src.length ≤ VarintCodec.space
        (BitpfrCodec.outliers nbits (IntegerStats.collect src).minvalue src).indices
        (ZigzagCodec.mk (T := sizeT)) := by
  constructor
  · intro sound nbits visits
    exact (estimate_le_iff m visits).mp (sound.estimate_le nbits visits)
  · intro enough
    have below : ∀ nbits, Visits src nbits →
        (visit m src nbits).estimate ≤ (visit m src nbits).required :=
      fun nbits visits => (estimate_le_iff m visits).mpr (enough nbits visits)
    exact ⟨below, select_eq_uncut m below⟩

/-- One large value among thirteen: at width 8 a patched encoding takes 27 bytes with its
tag, the estimate is higher than the 28 bytes selected so far, and varints are kept. -/
theorem cut_hides_patched :
    let src : List int32.Original := 0 :: (List.replicate 11 200 ++ [1073741824])
    let t := visit (Metadata.fresh int32) src 8
    Visits src 8 ∧ t.required = 26 ∧ t.estimate = 38 ∧
      (select (Metadata.fresh int32) src).valueDesc.encoding = .varint ∧
      (selectUncut (Metadata.fresh int32) src).valueDesc.encoding = .bitpfr ∧
      ¬ CutSound (Metadata.fresh int32) src := by
  intro src t
  have visits : Visits src 8 := ⟨by decide, ⟨0, by decide, 200, by decide, by decide⟩, by decide,
    by decide +kernel, by decide +kernel⟩
  have required : t.required = 26 := by decide +kernel
  have estimate : t.estimate = 38 := by decide +kernel
  refine ⟨visits, required, estimate, by decide +kernel, by decide +kernel, ?_⟩
  intro sound
  have below : t.estimate ≤ t.required := sound.estimate_le 8 visits
  omega

end IntegerCodec

end Oroch
