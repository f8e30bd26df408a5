import Mathlib.Order.Bounds.Defs
import Oroch.Instrumented

/-!
# What a selection costs

The search replaces metadata only by cheaper metadata, so the selection costs no more than
any basic encoding. The widths of the packed ones are found from the extremes alone and are
least for all values.
-/

namespace Oroch

namespace IntegerCodec

variable {T : IntType}

/-- The bytes for a sequence: the metadata and the data. -/
def written (m : Metadata T) (src : List T.Original) : Outcome Bytes := do
  pure (m.encode ++ (← encode src m))

/-- Metadata for a basic encoding with its parameters. -/
def basicMetadata (encoding : Encoding) (origin : T.Original) (nbits : Nat) : Metadata T :=
  { Metadata.fresh T with
    valueDesc := { Descriptor.clear T with
      encoding := encoding, origin := origin, nbits := nbits } }

/-- The least number of bits that holds all codes. -/
def LeastWidth (codes : List T.Unsigned) (nbits : Nat) : Prop :=
  IsLeast {b | ∀ u ∈ codes, u.toNat < 2 ^ b} nbits

theorem written_described {m : Metadata T} {src : List T.Original} (h : Describes m src)
    (room : src.length < 2 ^ 64) :
    ∃ bytes, written m src = .ok bytes ∧ bytes.length = 1 + cost m.valueDesc := by
  obtain ⟨bytes, encoded, len, -⟩ := described_run h room
  refine ⟨m.encode ++ bytes, ?_, ?_⟩
  · rw [written, encoded]
    rfl
  · rw [List.length_append, h.metaspace, len, Metadata.metaspace, Metadata.dataspace, cost]
    omega

/-- One width makes the metadata no more expensive. -/
theorem cost_tryWidth_le (vstat : IntegerStats T) (src : List T.Original) (nbitsMax : Nat)
    (state : Metadata T × Nat) (nbits : Nat) :
    cost (tryWidth vstat src nbitsMax state nbits).1.valueDesc ≤ cost state.1.valueDesc := by
  obtain ⟨m, noutliers⟩ := state
  simp only [tryWidth]
  split
  · exact Nat.le_refl _
  · split
    · exact Nat.le_refl _
    · split
      · next cheaper =>
        refine Nat.le_trans ?_ (Nat.le_of_lt cheaper)
        simp only [cost, Trial.store, Trial.required]
        omega
      · exact Nat.le_refl _

theorem cost_search_le (vstat : IntegerStats T) (src : List T.Original) (nbitsMax : Nat)
    (widths : List Nat) (state : Metadata T × Nat) :
    cost (widths.foldl (tryWidth vstat src nbitsMax) state).1.valueDesc ≤
      cost state.1.valueDesc := by
  induction widths generalizing state with
  | nil => exact Nat.le_refl _
  | cons nbits widths ih =>
    exact Nat.le_trans (ih _) (cost_tryWidth_le vstat src nbitsMax state nbits)

theorem cost_select_le (m : Metadata T) {src : List T.Original}
    (varied : IntegerStats.Varied src) :
    cost (select m src).valueDesc ≤
      cost (selectBasic m.valueDesc (IntegerStats.collect src) src) := by
  rw [select_varied m varied, reach]
  generalize selectBasic m.valueDesc (IntegerStats.collect src) src = basic
  split
  · exact Nat.le_refl _
  · exact cost_search_le _ src _ _ _

section Widths

variable {src : List T.Original} (some : src ≠ [])

include some

/-- One of the extremes has the greatest code. -/
theorem umax_mem : umax (IntegerStats.collect src) ∈
    src.map (ZigzagCodec.encodeIfSigned T) := by
  have low := List.mem_map_of_mem (f := ZigzagCodec.encodeIfSigned T)
    (IntegerStats.min_mem_collect some)
  have high := List.mem_map_of_mem (f := ZigzagCodec.encodeIfSigned T)
    (IntegerStats.max_mem_collect some)
  have greatest := toNat_umax (IntegerStats.collect src) (IntegerStats.min_le_max some)
  rcases Nat.le_total (ZigzagCodec.encodeIfSigned T (IntegerStats.collect src).minvalue).toNat
      (ZigzagCodec.encodeIfSigned T (IntegerStats.collect src).maxvalue).toNat with le | le
  · rw [BitVec.eq_of_toNat_eq (greatest.trans (Nat.max_eq_right le))]
    exact high
  · rw [BitVec.eq_of_toNat_eq (greatest.trans (Nat.max_eq_left le))]
    exact low

theorem range_mem : range (IntegerStats.collect src) ∈
    src.map fun v => (v - (IntegerStats.collect src).minvalue : T.Unsigned) :=
  List.mem_map_of_mem (IntegerStats.max_mem_collect some)

end Widths

/-- The used bits of the greatest code are the least width of all. -/
theorem leastWidth_usedcount {codes : List T.Unsigned} {top : T.Unsigned} (mem : top ∈ codes)
    (greatest : ∀ u ∈ codes, u.toNat ≤ top.toNat) :
    LeastWidth codes (T.makeUnsigned.usedcount top) := by
  constructor
  · intro u hu
    exact lt_two_pow_usedcount (greatest u hu)
  · intro b holds
    have used : T.makeUnsigned.usedcount top = top.toNat.size := usedcount_eq T.makeUnsigned top
    rw [used]
    exact Nat.size_le.mpr (holds top mem)

theorem leastWidth_umax {src : List T.Original} (some : src ≠ []) :
    LeastWidth (src.map (ZigzagCodec.encodeIfSigned T))
      (T.makeUnsigned.usedcount (umax (T := T) (IntegerStats.collect src))) := by
  refine leastWidth_usedcount (umax_mem some) ?_
  intro u hu
  obtain ⟨v, hv, rfl⟩ := List.mem_map.mp hu
  exact code_le_umax hv

theorem leastWidth_range {src : List T.Original} (some : src ≠ []) :
    LeastWidth (src.map fun v => (v - (IntegerStats.collect src).minvalue : T.Unsigned))
      (rangeNbits (IntegerStats.collect src)) := by
  refine leastWidth_usedcount (range_mem some) ?_
  intro u hu
  obtain ⟨v, hv, rfl⟩ := List.mem_map.mp hu
  exact IntegerStats.toNat_sub_le_range hv

/-- The use and the width, if the event is a width passed to `bitpck_codec`. -/
def passedWidth : Event → Option (Purpose × Nat)
  | .width purpose nbits => some (purpose, nbits)
  | _ => none

/-- The pass for the varints packs nothing. -/
theorem spaces_widths (orig : OriginCodec T) (src : List T.Original) (spaces : Nat × Nat) :
    (Trace.events (src.foldlM (fun (spaces : Nat × Nat) val => do
      let vfspace ← Instrumented.originSpace val orig
      pure (spaces.1 + VarintCodec.valueSpace val (ZigzagCodec.mk (T := T)), spaces.2 + vfspace))
      spaces)).filterMap passedWidth = [] := by
  induction src generalizing spaces with
  | nil => rfl
  | cons val src ih =>
    rw [List.foldlM_cons, Trace.events_bind, List.filterMap_append, ih]
    rfl

theorem selectBasic_widths (desc : Descriptor T) (stat : IntegerStats T) (src : List T.Original) :
    (Trace.events (Instrumented.selectBasic desc stat src)).filterMap passedWidth =
      [(.basic, T.makeUnsigned.usedcount (umax (T := T) stat)), (.frame, rangeNbits stat)] := by
  rw [Instrumented.selectBasic]
  simp only [Trace.events_bind, List.filterMap_append, spaces_widths]
  rfl

/-- The width that a packed basic encoding is selected with. -/
theorem selectBasic_nbits (desc : Descriptor T) (stat : IntegerStats T) (src : List T.Original) :
    ((selectBasic desc stat src).encoding = .bitpck →
        (selectBasic desc stat src).nbits = T.makeUnsigned.usedcount (umax (T := T) stat)) ∧
      ((selectBasic desc stat src).encoding = .bitfor →
        (selectBasic desc stat src).nbits = rangeNbits stat) := by
  have taken := Cheapest.select_mem cost (normal desc stat) (candidates stat src)
  rw [← selectBasic_eq] at taken
  simp only [candidates, List.mem_cons, List.not_mem_nil, or_false] at taken
  rcases taken with base | packed | framed | varint | varfor
  · simp [base, normal]
  · simp [packed]
  · simp [framed]
  · simp [varint]
  · simp [varfor]

/-- `select_basic`, with its notes, packs at two widths, which it finds from the extremes. They
are the least that hold all codes and all differences from the minimum. -/
theorem basic_widths_least (desc : Descriptor T) {src : List T.Original}
    (varied : IntegerStats.Varied src) :
    Trace.value (Instrumented.selectBasic desc (IntegerStats.collect src) src) =
        selectBasic desc (IntegerStats.collect src) src ∧
      ∃ wide near : Nat,
        (Trace.events (Instrumented.selectBasic desc (IntegerStats.collect src) src)).filterMap
            passedWidth = [(.basic, wide), (.frame, near)] ∧
          LeastWidth (src.map (ZigzagCodec.encodeIfSigned T)) wide ∧
          LeastWidth (src.map fun v => (v - (IntegerStats.collect src).minvalue : T.Unsigned))
            near ∧
          let selected := selectBasic desc (IntegerStats.collect src) src
          (selected.encoding = .bitpck → selected.nbits = wide) ∧
            (selected.encoding = .bitfor → selected.nbits = near) := by
  have some := ((IntegerStats.varied_iff src).mp varied).1
  refine ⟨Instrumented.value_selectBasic desc _ src, ?_⟩
  exact ⟨_, _, selectBasic_widths desc _ src, leastWidth_umax some, leastWidth_range some,
    selectBasic_nbits desc _ src⟩

theorem basic_widths_least_int32 :
    IntegerStats.Varied (T := int32) [-3, 7, 1000] ∧
      LeastWidth ([-3, 7, 1000].map (ZigzagCodec.encodeIfSigned int32)) 11 := by
  have varied : IntegerStats.Varied (T := int32) [-3, 7, 1000] :=
    ⟨-3, by decide, 7, by decide, by decide⟩
  obtain ⟨-, wide, near, passed, least, -⟩ := basic_widths_least (Descriptor.clear int32) varied
  have derived : (Trace.events (Instrumented.selectBasic (Descriptor.clear int32)
      (IntegerStats.collect [-3, 7, 1000]) [-3, 7, 1000])).filterMap passedWidth =
        [(.basic, 11), (.frame, 10)] := by decide +kernel
  obtain ⟨rfl, -⟩ : wide = 11 ∧ near = 10 := by
    simpa using passed.symm.trans derived
  exact ⟨varied, least⟩

/-- The base case and the candidates describe the sequence, and none is cheaper than the
selection. -/
theorem select_le_candidate {src : List T.Original} (varied : IntegerStats.Varied src)
    {desc : Descriptor T}
    (h : desc ∈ normal (Descriptor.clear T) (IntegerStats.collect src) ::
      candidates (IntegerStats.collect src) src) :
    DescribesBasic desc src ∧ cost (select (Metadata.fresh T) src).valueDesc ≤ cost desc := by
  have best := cost_select_le (Metadata.fresh T) varied
  rw [selectBasic_eq] at best
  rcases List.mem_cons.mp h with rfl | candidate
  · exact ⟨normal_describes src rfl (Nat.zero_lt_succ 255),
      Nat.le_trans best (Cheapest.cost_select_le_start cost _ _)⟩
  · exact ⟨candidates_describe varied candidate,
      Nat.le_trans best (Cheapest.cost_select_le cost _ candidate)⟩

theorem written_basic {desc : Descriptor T} {src : List T.Original}
    (h : DescribesBasic desc src) :
    ∃ bytes, written (basicMetadata desc.encoding desc.origin desc.nbits) src = .ok bytes ∧
      bytes.length = 1 + cost desc := by
  obtain ⟨fits, space, metaspace, width⟩ := h
  have basic : (basicMetadata desc.encoding desc.origin desc.nbits).valueDesc.encoding ≠ .bitpfr :=
    fits.not_patched
  have fits : Fits (basicMetadata desc.encoding desc.origin desc.nbits).valueDesc src := fits
  obtain ⟨bytes, encoded, len, -⟩ := basic_run fits
  refine ⟨Metadata.encodeBasic desc ++ bytes, ?_, ?_⟩
  · rw [written, encode, if_neg basic, encoded, Metadata.encode, if_neg basic, List.append_nil]
    rfl
  · have same : basicSpace (basicMetadata desc.encoding desc.origin desc.nbits).valueDesc src =
        basicSpace desc src := rfl
    rw [List.length_append, metaspace, len, same, ← space, cost]
    omega

/-- The bytes for a sequence under the selected metadata are no more than under any of the
basic encodings, the packed ones at their least widths. -/
theorem select_le_basic (s : Sequence T) (varied : IntegerStats.Varied s.vals) {lo : T.Original}
    (lo_mem : lo ∈ s.vals) (lo_le : ∀ v ∈ s.vals, T.toInt lo ≤ T.toInt v) {wide near : Nat}
    (wide_least : LeastWidth (s.vals.map (ZigzagCodec.encodeIfSigned T)) wide)
    (near_least : LeastWidth (s.vals.map fun v => (v - lo : T.Unsigned)) near) :
    ∃ bytes, written (select (Metadata.fresh T) s.vals) s.vals = .ok bytes ∧
      ∀ m ∈ [basicMetadata .normal 0 0, basicMetadata .bitpck 0 wide,
          basicMetadata .bitfor lo near, basicMetadata .varint 0 0, basicMetadata .varfor lo 0],
        ∃ other, written m s.vals = .ok other ∧ bytes.length ≤ other.length := by
  have some := List.ne_nil_of_mem lo_mem
  have bounds := IntegerStats.extremes_collect s.vals
  obtain rfl : lo = (IntegerStats.collect s.vals).minvalue :=
    toInt_inj T (Int.le_antisymm (lo_le _ (IntegerStats.min_mem_collect some))
      (bounds.min_le lo lo_mem))
  obtain rfl := wide_least.unique (leastWidth_umax some)
  obtain rfl := near_least.unique (leastWidth_range some)
  obtain ⟨bytes, selected, len⟩ :=
    written_described (select_describes s.vals s.length_lt) s.length_lt
  refine ⟨bytes, selected, ?_⟩
  suffices all : ∀ desc ∈ normal (Descriptor.clear T) (IntegerStats.collect s.vals) ::
      candidates (IntegerStats.collect s.vals) s.vals,
      ∃ other, written (basicMetadata desc.encoding desc.origin desc.nbits) s.vals = .ok other ∧
        bytes.length ≤ other.length by
    intro m hm
    simp only [candidates, List.forall_mem_cons] at all
    obtain ⟨base, packed, framed, varint, varfor, -⟩ := all
    simp only [List.mem_cons, List.not_mem_nil, or_false] at hm
    rcases hm with rfl | rfl | rfl | rfl | rfl
    · exact base
    · exact packed
    · exact framed
    · exact varint
    · exact varfor
  intro desc candidate
  obtain ⟨describes, cheaper⟩ := select_le_candidate varied candidate
  obtain ⟨other, encoded, len'⟩ := written_basic describes
  exact ⟨other, encoded, by omega⟩

theorem select_le_basic_int32 :
    let src : List int32.Original := [-3, 7, 1000]
    ∃ bytes, written (select (Metadata.fresh int32) src) src = .ok bytes ∧
      ∀ m ∈ [basicMetadata .normal 0 0, basicMetadata .bitpck 0 11,
          basicMetadata .bitfor (-3) 10, basicMetadata .varint 0 0, basicMetadata .varfor (-3) 0],
        ∃ other, written m src = .ok other ∧ bytes.length ≤ other.length := by
  intro src
  have wide : LeastWidth (src.map (ZigzagCodec.encodeIfSigned int32)) 11 := by
    have used : int32.makeUnsigned.usedcount 2000 = 11 := by decide
    rw [← used]
    refine leastWidth_usedcount (by decide) ?_
    simp only [src, List.map_cons, List.map_nil, List.forall_mem_cons]
    exact ⟨by decide, by decide, by decide, by simp⟩
  have near : LeastWidth (T := int32) (src.map fun v => v - (-3)) 10 := by
    have used : int32.makeUnsigned.usedcount 1003 = 10 := by decide
    rw [← used]
    refine leastWidth_usedcount (by decide) ?_
    simp only [src, List.map_cons, List.map_nil, List.forall_mem_cons]
    exact ⟨by decide, by decide, by decide, by simp⟩
  refine select_le_basic ⟨src, by decide⟩ ⟨-3, by decide, 7, by decide, by decide⟩ (by decide)
    ?_ wide near
  simp only [src, List.forall_mem_cons]
  exact ⟨by decide, by decide, by decide, by simp⟩

theorem nbytemax_le (T : IntType) : VarintCodec.nbytemax T ≤ 2 * T.nbytes := by
  change (T.nbytes * 8 + 6) / 7 ≤ 2 * T.nbytes
  omega

theorem size_constant (m : Metadata T) {src : List T.Original} (some : src ≠ [])
    (constant : (IntegerStats.collect src).minvalue = (IntegerStats.collect src).maxvalue) :
    (select m src).metaspace + (select m src).dataspace =
      1 + VarintCodec.valueSpace (IntegerStats.collect src).minvalue
        (ZigzagCodec.mk (T := T)) := by
  rw [select_constant m some constant]
  rfl

theorem size_varied_le {src : List T.Original} (varied : IntegerStats.Varied src) :
    (select (Metadata.fresh T) src).metaspace + (select (Metadata.fresh T) src).dataspace ≤
      1 + src.length * T.nbytes := by
  have bound := (select_le_candidate varied List.mem_cons_self).2
  have base : cost (normal (Descriptor.clear T) (IntegerStats.collect src)) =
      src.length * T.nbytes := by
    rw [cost, normal, IntegerStats.originalSpace, IntegerStats.nvalues_collect]
    rfl
  rw [Metadata.metaspace, Metadata.dataspace]
  rw [base, cost] at bound
  omega

/-- The data never take more than their bytes and a tag, but for a single value whose
varint is longer than the value: it is kept in the metadata without a comparison. -/
theorem expansion_iff (src : List T.Original) :
    let m := select (Metadata.fresh T) src
    (m.metaspace + m.dataspace ≤ 1 + src.length * T.nbytes ↔
      ∀ v, src = [v] → VarintCodec.valueSpace v (ZigzagCodec.mk (T := T)) ≤ T.nbytes) ∧
    ∀ v, src = [v] →
      m.metaspace + m.dataspace = 1 + VarintCodec.valueSpace v (ZigzagCodec.mk (T := T)) := by
  simp only
  rcases src with _ | ⟨v, _ | ⟨w, rest⟩⟩
  · -- nothing but the tag
    have size : (select (Metadata.fresh T) []).metaspace +
        (select (Metadata.fresh T) []).dataspace = 1 := rfl
    rw [size]
    exact ⟨iff_of_true (Nat.le_add_right 1 _) (by simp), by simp⟩
  · have only : (IntegerStats.collect [v]).minvalue = v :=
      List.mem_singleton.mp (IntegerStats.min_mem_collect (List.cons_ne_nil v []))
    have most : (IntegerStats.collect [v]).maxvalue = v :=
      List.mem_singleton.mp (IntegerStats.max_mem_collect (List.cons_ne_nil v []))
    have size := size_constant (Metadata.fresh T) (List.cons_ne_nil v []) (only.trans most.symm)
    rw [only] at size
    rw [size, List.length_singleton]
    constructor
    · constructor
      · intro bound u one
        rw [← List.singleton_inj.mp one]
        omega
      · intro short
        have := short v rfl
        omega
    · intro u one
      rw [List.singleton_inj.mp one]
  · refine ⟨iff_of_true ?_ (by simp), by simp⟩
    rcases paths (v :: w :: rest) with empty | ⟨some, constant⟩ | varied
    · simp at empty
    · -- two values have room for any varint
      have room : 2 * T.nbytes ≤ (v :: w :: rest).length * T.nbytes :=
        Nat.mul_le_mul_right _ (by simp)
      have longest := VarintCodec.valueSpace_le_nbytemax
        (IntegerStats.collect (v :: w :: rest)).minvalue (ZigzagCodec.mk (T := T))
      have twice := nbytemax_le T
      rw [size_constant _ some constant]
      omega
    · exact size_varied_le varied

/-- A single byte takes three bytes. -/
theorem single_value_expands :
    let m := select (Metadata.fresh ⟨.w8, false⟩) [200]
    ¬ m.metaspace + m.dataspace ≤ 1 + [(200 : Byte)].length * (⟨.w8, false⟩ : IntType).nbytes := by
  decide

end IntegerCodec

end Oroch
