import Oroch.IntegerTraits
import Oroch.Library.Tally

/-!
# Statistics of a sequence

One pass finds the number of values and their extremes; a second one counts, for
each number of bits, the values whose difference from the minimum has that many.
-/

namespace Oroch

structure IntegerStats (T : IntType) where
  nvalues : Nat
  minvalue : T.Original
  maxvalue : T.Original
  histogram : List Nat
  deriving Repr

namespace IntegerStats

variable {T : IntType}

/-- The member initialisers. -/
def start (T : IntType) : IntegerStats T :=
  ⟨0, T.limitMax, T.limitMin, List.replicate (T.nbits + 1) 0⟩

def add (stats : IntegerStats T) (value : T.Original) : IntegerStats T :=
  { stats with
    nvalues := stats.nvalues + 1
    minvalue := if T.lt value stats.minvalue then value else stats.minvalue
    maxvalue := if T.lt stats.maxvalue value then value else stats.maxvalue }

/-- The constructor. -/
def collect (src : List T.Original) : IntegerStats T := src.foldl add (start T)

def originalSpace (stats : IntegerStats T) : Nat := stats.nvalues * T.nbytes

/-- The bucket of a value. -/
def bucket (minvalue value : T.Original) : Nat := T.makeUnsigned.usedcount (value - minvalue)

def stat (stats : IntegerStats T) (value : T.Original) : IntegerStats T :=
  { stats with histogram := stats.histogram.modify (bucket stats.minvalue value) (· + 1) }

def buildHistogram (stats : IntegerStats T) (src : List T.Original) : IntegerStats T :=
  src.foldl stat stats

/-- `histogram(index)` -/
def histogramAt (stats : IntegerStats T) (index : Nat) : Nat := stats.histogram[index]?.getD 0

theorem nvalues_foldl (src : List T.Original) (stats : IntegerStats T) :
    (src.foldl add stats).nvalues = stats.nvalues + src.length := by
  induction src generalizing stats with
  | nil => rfl
  | cons v src ih =>
    simp only [List.foldl_cons, ih, add, List.length_cons]
    omega

theorem toInt_ite_lt (T : IntType) (a b : T.Original) :
    T.toInt (if T.lt a b then a else b) = min (T.toInt a) (T.toInt b) := by
  split
  · next less => exact (Int.min_eq_left (Int.le_of_lt ((lt_iff_toInt T a b).mp less))).symm
  · next less =>
    rw [lt_iff_toInt] at less
    exact (Int.min_eq_right (Int.not_lt.mp less)).symm

theorem toInt_ite_gt (T : IntType) (a b : T.Original) :
    T.toInt (if T.lt a b then b else a) = max (T.toInt a) (T.toInt b) := by
  split
  · next less => exact (Int.max_eq_right (Int.le_of_lt ((lt_iff_toInt T a b).mp less))).symm
  · next less =>
    rw [lt_iff_toInt] at less
    exact (Int.max_eq_left (Int.not_lt.mp less)).symm

/-- The extremes seen so far bound the values seen and are among them, or are still
the initial ones. -/
structure Extremes (stats : IntegerStats T) (seen : List T.Original) : Prop where
  min_le : ∀ v ∈ seen, T.toInt stats.minvalue ≤ T.toInt v
  le_max : ∀ v ∈ seen, T.toInt v ≤ T.toInt stats.maxvalue
  min_mem : stats.minvalue ∈ seen ∨ stats.minvalue = T.limitMax
  max_mem : stats.maxvalue ∈ seen ∨ stats.maxvalue = T.limitMin

theorem extremes_add {stats : IntegerStats T} {seen : List T.Original} (h : Extremes stats seen)
    (v : T.Original) : Extremes (add stats v) (seen ++ [v]) := by
  have lower : T.toInt (add stats v).minvalue = min (T.toInt v) (T.toInt stats.minvalue) :=
    toInt_ite_lt T v stats.minvalue
  have upper : T.toInt (add stats v).maxvalue = max (T.toInt stats.maxvalue) (T.toInt v) :=
    toInt_ite_gt T stats.maxvalue v
  refine ⟨?_, ?_, ?_, ?_⟩
  · intro w hw
    rcases List.mem_append.mp hw with hw | hw
    · have := h.min_le w hw
      omega
    · rw [List.mem_singleton.mp hw]
      omega
  · intro w hw
    rcases List.mem_append.mp hw with hw | hw
    · have := h.le_max w hw
      omega
    · rw [List.mem_singleton.mp hw]
      omega
  · simp only [add]
    split
    · exact Or.inl (by simp)
    · exact h.min_mem.imp_left (List.mem_append_left [v])
  · simp only [add]
    split
    · exact Or.inl (by simp)
    · exact h.max_mem.imp_left (List.mem_append_left [v])

theorem extremes_foldl (src : List T.Original) {stats : IntegerStats T} {seen : List T.Original}
    (h : Extremes stats seen) : Extremes (src.foldl add stats) (seen ++ src) := by
  induction src generalizing stats seen with
  | nil => simpa using h
  | cons v src ih => simpa using ih (extremes_add h v)

theorem extremes_collect (src : List T.Original) : Extremes (collect src) src := by
  have initial : Extremes (start T) ([] : List T.Original) :=
    ⟨by simp, by simp, Or.inr rfl, Or.inr rfl⟩
  exact extremes_foldl src initial

theorem nvalues_collect (src : List T.Original) : (collect src).nvalues = src.length := by
  rw [collect, nvalues_foldl, start, Nat.zero_add]

/-- The minimum of values is one of them: the initial maximum of the type stays only
where every value equals it. -/
theorem min_mem_collect {src : List T.Original} (some : src ≠ []) :
    (collect src).minvalue ∈ src := by
  have bounds := extremes_collect src
  rcases bounds.min_mem with mem | initial
  · exact mem
  · obtain ⟨v, rest, rfl⟩ := List.exists_cons_of_ne_nil some
    have below := bounds.min_le v List.mem_cons_self
    rw [initial] at below
    have same : v = T.limitMax :=
      toInt_inj T (Int.le_antisymm (toInt_le_limitMax T v) below)
    rw [initial, ← same]
    exact List.mem_cons_self

theorem max_mem_collect {src : List T.Original} (some : src ≠ []) :
    (collect src).maxvalue ∈ src := by
  have bounds := extremes_collect src
  rcases bounds.max_mem with mem | initial
  · exact mem
  · obtain ⟨v, rest, rfl⟩ := List.exists_cons_of_ne_nil some
    have above := bounds.le_max v List.mem_cons_self
    rw [initial] at above
    have same : v = T.limitMin :=
      toInt_inj T (Int.le_antisymm above (limitMin_le_toInt T v))
    rw [initial, ← same]
    exact List.mem_cons_self

theorem min_le_max {src : List T.Original} (some : src ≠ []) :
    T.toInt (collect src).minvalue ≤ T.toInt (collect src).maxvalue :=
  (extremes_collect src).min_le _ (max_mem_collect some)

/-- Where the extremes are equal, so are all values. -/
theorem eq_minvalue {src : List T.Original} {v : T.Original} (hv : v ∈ src)
    (constant : (collect src).minvalue = (collect src).maxvalue) : v = (collect src).minvalue := by
  have bounds := extremes_collect src
  have high := bounds.le_max v hv
  rw [← constant] at high
  exact toInt_inj T (Int.le_antisymm high (bounds.min_le v hv))

/-- At least two distinct values. -/
def Varied (src : List T.Original) : Prop := ∃ v ∈ src, ∃ w ∈ src, v ≠ w

theorem varied_iff (src : List T.Original) :
    Varied src ↔ src ≠ [] ∧ (collect src).minvalue ≠ (collect src).maxvalue := by
  constructor
  · rintro ⟨v, hv, w, hw, different⟩
    refine ⟨List.ne_nil_of_mem hv, ?_⟩
    intro constant
    exact different ((eq_minvalue hv constant).trans (eq_minvalue hw constant).symm)
  · rintro ⟨some, different⟩
    exact ⟨_, min_mem_collect some, _, max_mem_collect some, different⟩

/-- No value is further from the minimum than the maximum is. -/
theorem toNat_sub_le_range {src : List T.Original} {v : T.Original} (hv : v ∈ src) :
    (v - (collect src).minvalue : T.Unsigned).toNat ≤
      ((collect src).maxvalue - (collect src).minvalue : T.Unsigned).toNat := by
  have bounds := extremes_collect src
  have here := toNat_sub_of_le T (bounds.min_le v hv)
  have whole := toNat_sub_of_le T (min_le_max (List.ne_nil_of_mem hv))
  have := bounds.le_max v hv
  omega

theorem foldl_stat (src : List T.Original) (stats : IntegerStats T) :
    src.foldl stat stats =
      { stats with
        histogram := src.foldl
          (fun h v => h.modify (bucket stats.minvalue v) (· + 1)) stats.histogram } := by
  induction src generalizing stats with
  | nil => rfl
  | cons v src ih => rw [List.foldl_cons, ih]; rfl

theorem histogram_foldl_add (src : List T.Original) (stats : IntegerStats T) :
    (src.foldl add stats).histogram = stats.histogram := by
  induction src generalizing stats with
  | nil => rfl
  | cons v src ih => rw [List.foldl_cons, ih, add]

@[simp] theorem nvalues_buildHistogram (stats : IntegerStats T) (src : List T.Original) :
    (buildHistogram stats src).nvalues = stats.nvalues := by
  rw [buildHistogram, foldl_stat]

@[simp] theorem minvalue_buildHistogram (stats : IntegerStats T) (src : List T.Original) :
    (buildHistogram stats src).minvalue = stats.minvalue := by
  rw [buildHistogram, foldl_stat]

theorem bucket_eq (minvalue v : T.Original) :
    bucket minvalue v = (v - minvalue : T.Unsigned).toNat.size :=
  usedcount_eq T.makeUnsigned _

/-- Each bucket counts its values. -/
theorem histogramAt_eq (src : List T.Original) {k : Nat} (h : k ≤ T.nbits) :
    histogramAt (buildHistogram (collect src) src) k =
      src.countP fun v => bucket (collect src).minvalue v = k := by
  rw [histogramAt, buildHistogram, foldl_stat, collect, histogram_foldl_add]
  exact Tally.getD_tally _ src (Nat.lt_succ_of_le h)

end IntegerStats

end Oroch
