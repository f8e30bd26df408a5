import Oroch.CodingSafety
import Oroch.IntegerArray

/-!
# Subtractions of signed values

The frame-of-reference arithmetic is done in the type of the values, or in `int` where that
is wider, and only its result is cast to an unsigned type. Values of a signed type can lie
further apart than the type reaches, and a probe can lie further from the origin of a group
than that. Where they do not, every subtraction has its exact result.
-/

namespace Oroch

open Trace Cursor

namespace IntType

/-- The largest value of the type in which values of `T` are subtracted. -/
def subMax (T : IntType) : Int := T.promoted.toInt T.promoted.limitMax

/-- `a - b` is defined: unsigned arithmetic wraps, signed arithmetic needs the result in
its range. -/
def SubDefined (T : IntType) (a b : T.Original) : Prop :=
  T.promoted.signed = true →
    T.promoted.toInt T.promoted.limitMin ≤ T.toInt a - T.toInt b ∧
      T.toInt a - T.toInt b ≤ T.subMax

end IntType

/-- The subtraction that the event notes is defined. -/
def Event.Defined : Event → Prop
  | .sub T a b => T.SubDefined a b
  | _ => True

theorem toInt_limitMin (T : IntType) (signed : T.promoted.signed = true) :
    T.promoted.toInt T.promoted.limitMin = -T.subMax - 1 := by
  have positive : 0 < T.promoted.nbits := T.promoted.width.nbits_pos
  rw [IntType.subMax, IntType.toInt, IntType.toInt, IntType.limitMin, IntType.limitMax]
  simp only [signed, if_true, BitVec.toInt_intMin_of_pos positive, BitVec.toInt_intMax]
  omega

theorem subMax_nonneg (T : IntType) : 0 ≤ T.subMax := by
  have least := toInt_le_limitMax T.promoted (T.widen 0)
  rw [toInt_widen] at least
  have zero : T.toInt 0 = 0 := by
    simp [IntType.toInt]
  rw [zero] at least
  exact least

example : IntType.subMax int32 = 2147483647 := by decide

namespace Instrumented

open IntegerCodec

variable {T : IntType}

/-- `array_integer_group::find`; only the test of the width of a difference subtracts. -/
def find (group : IntegerGroup T) (storage : Storage T) (value : T.Original) :
    Fallible Event Failure Nat := do
  let (m, _) ← silent (group.locate true)
  match m.valueDesc.encoding with
  | .bitfor => do
    let difference ← succeeds (sub T value m.valueDesc.origin)
    let nbits := T.usedcount difference
    if nbits > m.valueDesc.nbits then pure notFound else silent (group.findDecoded storage value)
  | _ => silent (group.find storage value)

/-- Without the notes the search is `find`. -/
theorem outcome_find (group : IntegerGroup T) (storage : Storage T) (value : T.Original) :
    outcome (find group storage value) = group.find storage value := by
  rw [find, outcome_bind, outcome_silent]
  cases located : group.locate true with
  | error failure =>
    rw [IntegerGroup.find, located]
    rfl
  | ok result =>
    obtain ⟨m, bytes⟩ := result
    simp only [bind, Except.bind]
    cases encoding : m.valueDesc.encoding with
    | bitfor =>
      rw [IntegerGroup.find, located]
      simp only [bind, Except.bind, encoding]
      exact (outcome_bind _ _).trans (apply_ite outcome _ _ _)
    | _ =>
      exact outcome_silent _

/-- The sequence fills a group of an array, which stores it with a frame of reference. -/
def FrameGroup (src : List T.Original) : Prop :=
  src.length = groupSize ∧
    (IntegerCodec.select (Metadata.fresh T) src).valueDesc.encoding = .bitfor

/-- Every subtraction of values is defined: in the selection from any metadata, in encoding
with what it selects, and in the search of a group that holds the sequence. -/
structure SubtractionsDefined (src : List T.Original) (probe : T.Original) : Prop where
  select : ∀ m : Metadata T, Always Event.Defined (select m src)
  encode : ∀ m : Metadata T, Always Event.Defined (encode src (IntegerCodec.select m src)).run
  find : ∀ group : IntegerGroup T, group.Stores src true → src.length = groupSize →
    ∀ storage, Always Event.Defined (find group storage probe).run

/-- No two values are further apart than the type of the arithmetic reaches; neither are the
probe and the least value, if the group is searched by the width of their difference. -/
structure WithinReach (src : List T.Original) (probe : T.Original) : Prop where
  spread : ∀ v ∈ src, ∀ w ∈ src, T.toInt v - T.toInt w ≤ T.subMax
  probe : FrameGroup src →
    -T.subMax - 1 ≤ T.toInt probe - T.toInt (IntegerStats.collect src).minvalue ∧
      T.toInt probe - T.toInt (IntegerStats.collect src).minvalue ≤ T.subMax

/-- Selection subtracts the extremes of every varied sequence. -/
theorem select_sub {P : Event → Prop} {m : Metadata T} {src : List T.Original}
    (varied : IntegerStats.Varied src) (always : Always P (select m src)) :
    P (.sub T (IntegerStats.collect src).maxvalue (IntegerStats.collect src).minvalue) := by
  obtain ⟨some, different⟩ := (IntegerStats.varied_iff src).mp varied
  have long : ¬ (IntegerStats.collect src).nvalues = 0 := by
    rw [IntegerStats.nvalues_collect]
    exact fun none_left => some (List.eq_nil_of_length_eq_zero none_left)
  rw [select, if_neg (not_or.mpr ⟨long, different⟩), always_bind, selectBasic] at always
  simp only [always_bind, sub, always_note] at always
  exact always.1.2.1.1

/-- The search of a group stored with a frame of reference subtracts the least value from
the probe; the search of any other one does not subtract. -/
theorem find_sub {P : Event → Prop} {group : IntegerGroup T} {src : List T.Original}
    (stores : group.Stores src true) (full : src.length = groupSize) (storage : Storage T)
    (probe : T.Original) :
    Always P (find group storage probe).run ↔
      (FrameGroup src → P (.sub T probe (IntegerStats.collect src).minvalue)) := by
  have room := room_of_full full
  obtain ⟨k, bytes, agrees, -, located⟩ := stores.locate_selected room
  have chosen := select_chosen (Metadata.fresh T) room
  have same := agrees.valueDesc.encoding
  rw [find, located, silent_ok_bind, FrameGroup, same]
  cases encoding : k.valueDesc.encoding with
  | bitfor =>
    have carried : (IntegerCodec.select (Metadata.fresh T) src).valueDesc.encoding.hasOrigin =
        true := by
      rw [same, encoding]
      rfl
    have origin : k.valueDesc.origin = (IntegerStats.collect src).minvalue :=
      (agrees.valueDesc.origin carried).symm.trans (chosen.origin carried)
    simp only [encoding]
    rw [always_succeeds_bind, sub, always_bind, always_note, origin]
    constructor
    · rintro ⟨⟨subtracted, -⟩, -⟩ -
      exact subtracted
    · intro subtracted
      refine ⟨⟨subtracted ⟨full, trivial⟩, always_pure _ _⟩, ?_⟩
      split
      · exact always_pure _ _
      · exact always_silent _ _
  | _ =>
    simp only [encoding]
    constructor
    · rintro - ⟨-, frame⟩
      contradiction
    · intro _
      exact always_silent _ _

theorem Expected.defined {src : List T.Original}
    (spread : T.promoted.signed = true → ∀ v ∈ src, ∀ w ∈ src, T.toInt v - T.toInt w ≤ T.subMax)
    {e : Event} (h : Expected src e) : e.Defined := by
  cases h with
  | sub hv =>
    intro signed
    have positive := subMax_nonneg T
    have least := (IntegerStats.extremes_collect src).min_le _ hv
    have most := spread signed _ hv _ (IntegerStats.min_mem_collect (List.ne_nil_of_mem hv))
    rw [toInt_limitMin T signed]
    omega
  | _ => exact trivial

/-- Where selection is defined, the extremes are within reach of each other, and so is
everything between them. -/
theorem spread_of_defined {src : List T.Original} {m : Metadata T}
    (defined : Always Event.Defined (select m src)) (signed : T.promoted.signed = true) :
    ∀ v ∈ src, ∀ w ∈ src, T.toInt v - T.toInt w ≤ T.subMax := by
  intro v hv w hw
  have bounds := IntegerStats.extremes_collect src
  have below := bounds.le_max v hv
  have above := bounds.min_le w hw
  rcases paths src with rfl | ⟨-, constant⟩ | varied
  · exact absurd hv List.not_mem_nil
  · rw [constant] at above
    have positive := subMax_nonneg T
    omega
  · have most := (select_sub varied defined signed).2
    omega

/-- A group stored with a frame of reference is searched with a subtraction. -/
theorem probe_of_defined {src : List T.Original} {probe : T.Original}
    (defined : SubtractionsDefined src probe) (frame : FrameGroup src) :
    T.SubDefined probe (IntegerStats.collect src).minvalue := by
  have room := room_of_full frame.1
  obtain ⟨group, -, stores⟩ := IntegerGroup.encode_stores ⟨fun _ => 0, fun _ => 0⟩ src room true
    (IntegerGroup.fresh T)
  have found := defined.find group stores frame.1 ⟨fun _ => 0, fun _ => 0⟩
  exact (find_sub stores frame.1 _ probe).mp found frame

/-- All subtractions are defined exactly for values and probes within reach of each other,
if the arithmetic is signed. -/
theorem subtractions_defined_iff (s : Sequence T) (probe : T.Original) :
    SubtractionsDefined s.vals probe ↔
      (T.promoted.signed = true → WithinReach s.vals probe) := by
  constructor
  · intro defined signed
    refine ⟨spread_of_defined (defined.select (Metadata.fresh T)) signed, ?_⟩
    intro frame
    rw [← toInt_limitMin T signed]
    exact probe_of_defined defined frame signed
  · intro within
    have defined : ∀ e, Expected s.vals e → e.Defined :=
      fun _ expected => expected.defined fun signed => (within signed).spread
    refine ⟨?_, ?_, ?_⟩
    · intro m
      exact always_mono defined (select_expected s.vals m)
    · intro m
      exact always_mono defined (encode_expected (select_chosen m s.length_lt))
    · intro group stores full storage
      rw [find_sub stores full]
      intro frame signed
      rw [toInt_limitMin T signed]
      exact (within signed).probe frame

set_option maxRecDepth 20000 in
/-- The smallest and the largest value of a type are further apart than it reaches. In a
group of close values it is the probe that can be too far away. -/
theorem subtractions_overflow :
    ¬ SubtractionsDefined (T := int32) [int32.limitMin, int32.limitMax] 0 ∧
      ¬ SubtractionsDefined (T := int32) (1000000 :: List.replicate 255 1000001)
        int32.limitMin := by
  constructor
  · intro defined
    have apart := spread_of_defined (defined.select (Metadata.fresh int32)) rfl int32.limitMax
      (List.mem_cons_of_mem _ List.mem_cons_self) int32.limitMin List.mem_cons_self
    exact absurd apart (by decide)
  · intro defined
    have frame : FrameGroup (T := int32) (1000000 :: List.replicate 255 1000001) :=
      ⟨by decide, by decide +kernel⟩
    have least : (IntegerStats.collect (T := int32)
        (1000000 :: List.replicate 255 1000001)).minvalue = 1000000 := by decide +kernel
    have far := probe_of_defined defined frame rfl
    rw [least] at far
    exact absurd far (by decide)

end Instrumented

end Oroch
