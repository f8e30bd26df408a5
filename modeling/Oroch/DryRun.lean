import Oroch.Selection

/-!
# The dry run of the patched encoding

For each width it visits the search computes the sizes of both encodings of both outlier
streams without encoding anything. Whatever the metadata selected so far, and whether or
not the width is chosen, these are the sizes that an encoder with that width produces.
-/

namespace Oroch

namespace IntegerCodec

variable {T : IntType}

/-- The search takes place and does not pass over the width. -/
structure Visits (src : List T.Original) (nbits : Nat) : Prop where
  long : 5 ≤ src.length
  varied : IntegerStats.Varied src
  pos : 1 ≤ nbits
  lt : nbits < rangeNbits (IntegerStats.collect src)
  some : ((IntegerStats.collect src).buildHistogram src).histogramAt nbits ≠ 0

/-- What the search computes at a visited width. -/
def visit (m : Metadata T) (src : List T.Original) (nbits : Nat) : Trial :=
  let vstat := IntegerStats.collect src
  let nbitsMax := rangeNbits vstat
  let vstat := vstat.buildHistogram src
  trial vstat src nbitsMax nbits ((reach m src nbits).2 - vstat.histogramAt nbits)

/-- The step at a visited width. -/
theorem reach_succ (m : Metadata T) {src : List T.Original} {nbits : Nat}
    (visits : Visits src nbits) :
    reach m src (nbits + 1) =
      (let t := visit m src nbits
      let selected := (reach m src nbits).1.valueDesc.dataspace +
        (reach m src nbits).1.valueDesc.metaspace
      if t.estimate ≥ selected then (reach m src nbits).1
      else if t.required < selected then
        t.store (IntegerStats.collect src).minvalue (reach m src nbits).1
      else (reach m src nbits).1, (visit m src nbits).noutliers) := by
  obtain ⟨k, rfl⟩ : ∃ k, nbits = k + 1 := ⟨nbits - 1, by have := visits.pos; omega⟩
  have some := visits.some
  simp only [reach, visit, Nat.add_sub_cancel, List.range'_concat, List.foldl_append,
    List.foldl_cons, List.foldl_nil] at *
  rw [Nat.one_mul, Nat.add_comm 1 k]
  generalize (List.range' 1 k).foldl _ _ = state
  obtain ⟨m, noutliers⟩ := state
  simp only [tryWidth, if_neg some, IntegerStats.minvalue_buildHistogram]
  split
  · rfl
  · split
    · rfl
    · rfl

/-- The counter at a visited width is the number of values that do not fit it. -/
theorem visit_noutliers (m : Metadata T) {src : List T.Original} {nbits : Nat}
    (visits : Visits src nbits) : (visit m src nbits).noutliers = above src (nbits + 1) := by
  have most := rangeNbits_le src
  have inside : nbits ≤ T.nbits := Nat.le_trans (Nat.le_of_lt visits.lt) most
  simp only [visit, trial, reach_counts src m visits.pos inside, above_sub src inside]

section Streams

variable (m : Metadata T) {src : List T.Original} {nbits : Nat} (visits : Visits src nbits)

include visits

theorem visits_width : 1 ≤ nbits ∧ nbits ≤ 63 ∧ nbits < T.nbits := by
  have most := rangeNbits_le src
  have narrow := T.nbits_le
  have pos := visits.pos
  have lt := visits.lt
  omega

/-- The outlier values fit the width that is left, and take the predicted bytes. -/
theorem values_predicted :
    let nbitsMax := rangeNbits (IntegerStats.collect src)
    let values := (BitpfrCodec.outliers nbits (IntegerStats.collect src).minvalue src).values
    (∀ v ∈ values, v.toNat < 2 ^ (nbitsMax - nbits)) ∧
      valvar ((IntegerStats.collect src).buildHistogram src) nbits nbitsMax =
        (VarintCodec.encode (T := T.makeUnsigned) values ZigzagCodec.mk).length ∧
      BitpckCodec.space (visit m src nbits).noutliers (nbitsMax - nbits) =
        (BitpckCodec.encode (T := T.makeUnsigned) values (nbitsMax - nbits)
          ZigzagCodec.mk).1.length := by
  intro nbitsMax values
  have most := rangeNbits_le src
  have narrow := T.nbits_le
  have lt := visits.lt
  refine ⟨?_, ?_, ?_⟩
  · intro h hh
    exact high_lt src hh
  · rw [VarintCodec.length_encode]
    exact valvar_eq src (Nat.le_of_lt lt) most fun v hv => bucket_le_range src hv
  · have run := BitpckCodec.encode_run (T := T.makeUnsigned)
      (show 1 ≤ nbitsMax - nbits by omega) (show nbitsMax - nbits ≤ 64 by omega) values
      ZigzagCodec.mk
    rw [run.2.1, visit_noutliers m visits, length_values]

/-- The gaps between the outliers fit the width found for them, and take the predicted
bytes. -/
theorem indices_predicted :
    let space := indexSpace ((IntegerStats.collect src).buildHistogram src) src nbits
    let indices := (BitpfrCodec.outliers nbits (IntegerStats.collect src).minvalue src).indices
    (∀ j ∈ indices, j.toNat < 2 ^ space.indnbits) ∧
      space.indvar = (VarintCodec.encode (T := sizeT) indices ZigzagCodec.mk).length ∧
      BitpckCodec.space (visit m src nbits).noutliers space.indnbits =
        (BitpckCodec.encode (T := sizeT) indices space.indnbits ZigzagCodec.mk).1.length := by
  intro space indices
  have pass : space = indices.foldl IndexSpace.add ⟨1, 0⟩ :=
    indexSpace_eq src (visits_width visits).2.2
  obtain ⟨h1, h64, fits⟩ := foldl_add_width indices ⟨1, 0⟩ (by decide)
  rw [← pass] at h1 h64 fits
  refine ⟨fits, ?_, ?_⟩
  · rw [pass, foldl_add_space, Nat.zero_add, VarintCodec.length_encode]
  · have run := BitpckCodec.encode_run (T := sizeT) h1 h64 indices ZigzagCodec.mk
    rw [run.2.1, visit_noutliers m visits, length_indices]

end Streams

/-- At every visited width the dry run predicts the real run: it counts the exceptions
that the encoder collects, and the sizes it computes for both encodings of their values
and of their indices are the sizes that these encodings take. From these it chooses. -/
theorem dry_run_exact (m : Metadata T) (s : Sequence T) {nbits : Nat}
    (visits : Visits s.vals nbits) :
    let vstat := (IntegerStats.collect s.vals).buildHistogram s.vals
    let nbitsMax := rangeNbits (IntegerStats.collect s.vals)
    let noutliers := (visit m s.vals nbits).noutliers
    let space := indexSpace vstat s.vals nbits
    let x := (BitpfrCodec.encode s.vals
      (BitpfrCodec.Parameters.init vstat.minvalue nbits (BitpfrCodec.Exceptions.fresh T))).2
    (noutliers = x.values.length ∧ noutliers = x.indices.length) ∧
      ((∀ v ∈ x.values, v.toNat < 2 ^ (nbitsMax - nbits)) ∧
        valvar vstat nbits nbitsMax =
          (VarintCodec.encode (T := T.makeUnsigned) x.values ZigzagCodec.mk).length ∧
        BitpckCodec.space noutliers (nbitsMax - nbits) =
          (BitpckCodec.encode (T := T.makeUnsigned) x.values (nbitsMax - nbits)
            ZigzagCodec.mk).1.length) ∧
      (∀ j ∈ x.indices, j.toNat < 2 ^ space.indnbits) ∧
        space.indvar = (VarintCodec.encode (T := sizeT) x.indices ZigzagCodec.mk).length ∧
        BitpckCodec.space noutliers space.indnbits =
          (BitpckCodec.encode (T := sizeT) x.indices space.indnbits ZigzagCodec.mk).1.length ∧
      (visit m s.vals nbits).value = choose (nbitsMax - nbits)
        (BitpckCodec.encode (T := T.makeUnsigned) x.values (nbitsMax - nbits)
          ZigzagCodec.mk).1.length
        (VarintCodec.encode (T := T.makeUnsigned) x.values ZigzagCodec.mk).length ∧
      (visit m s.vals nbits).index = choose space.indnbits
        (BitpckCodec.encode (T := sizeT) x.indices space.indnbits ZigzagCodec.mk).1.length
        (VarintCodec.encode (T := sizeT) x.indices ZigzagCodec.mk).length := by
  obtain ⟨h1, h63, -⟩ := visits_width visits
  obtain ⟨bytes, run, -⟩ := BitpfrCodec.encode_run h1 h63
    (IntegerStats.collect s.vals).minvalue s.vals
  simp only [IntegerStats.minvalue_buildHistogram, run]
  have count := visit_noutliers m visits
  have values := values_predicted m visits
  have indices := indices_predicted m visits
  refine ⟨⟨?_, ?_⟩, values, indices.1, indices.2.1, indices.2.2, ?_, ?_⟩
  · rw [count, length_values]
  · rw [count, length_indices]
  · rw [← values.2.1, ← values.2.2]
    rfl
  · rw [← indices.2.1, ← indices.2.2]
    rfl

theorem dry_run_exact_int32 :
    Visits (T := int32) [5, 5, 6, 5, 900, 5] 1 ∧
      (visit (Metadata.fresh int32) [5, 5, 6, 5, 900, 5] 1).noutliers =
        (BitpfrCodec.encode [5, 5, 6, 5, 900, 5] (BitpfrCodec.Parameters.init 5 1
          (BitpfrCodec.Exceptions.fresh int32))).2.values.length := by
  have visits : Visits (T := int32) [5, 5, 6, 5, 900, 5] 1 :=
    ⟨by decide, ⟨5, by decide, 6, by decide, by decide⟩, by decide, by decide, by decide⟩
  have predicted := dry_run_exact (Metadata.fresh int32) ⟨[5, 5, 6, 5, 900, 5], by decide⟩ visits
  exact ⟨visits, predicted.1.1⟩

end IntegerCodec

end Oroch
