import Oroch.Library.Trace
import Oroch.Selection

/-!
# The operations that selection and coding evaluate

Some operations of the source are guarded by nothing where they stand: a division by a
packing width, a subtraction from an unsigned counter, an access to the histogram, a
subtraction of two signed values. Here selection, encoding and decoding run again and
note each of them with its operands. Without the notes they are the functions of the
codec.
-/

namespace Oroch

open Trace Cursor

/-- What a packing width is for. -/
inductive Purpose where
  | basic | frame | base | outlierValues | outlierIndices
  deriving DecidableEq, Repr

inductive Event where
  /-- A width passed to `bitpck_codec`. -/
  | width (purpose : Purpose) (nbits : Nat)
  /-- `noutliers -= n` -/
  | counter (noutliers n : Nat)
  /-- An access to the histogram for `T`. -/
  | bucket (T : IntType) (index : Nat)
  /-- `a - b` on values of `T`, before any cast. -/
  | sub (T : IntType) (a b : T.Original)

namespace Instrumented

section Select

variable {T : IntType}

def sub (T : IntType) (a b : T.Original) : Traced Event T.Unsigned := do
  note (.sub T a b)
  pure (a - b)

/-- `bitpck_codec::space` -/
def space (purpose : Purpose) (nvalues nbits : Nat) : Traced Event Nat := do
  note (.width purpose nbits)
  pure (BitpckCodec.space nvalues nbits)

def histogramAt (stats : IntegerStats T) (index : Nat) : Traced Event Nat := do
  note (.bucket T index)
  pure (stats.histogramAt index)

def stat (stats : IntegerStats T) (value : T.Original) : Traced Event (IntegerStats T) := do
  let delta ← sub T value stats.minvalue
  let index := T.makeUnsigned.usedcount delta
  note (.bucket T index)
  pure { stats with histogram := stats.histogram.modify index (· + 1) }

def buildHistogram (stats : IntegerStats T) (src : List T.Original) :
    Traced Event (IntegerStats T) := src.foldlM stat stats

/-- `varint_codec<T, origin_codec<T>>::value_space` -/
def originSpace (src : T.Original) (vcodec : OriginCodec T) : Traced Event Nat := do
  let value ← sub T src vcodec.origin
  pure (if value = 0 then 1 else VarintCodec.nbitsSpace (T.makeUnsigned.usedcount value))

def selectBasic (desc : Descriptor T) (stat : IntegerStats T) (src : List T.Original) :
    Traced Event (Descriptor T) := do
  let desc := { desc with encoding := .normal, dataspace := stat.originalSpace }
  let nbits := T.makeUnsigned.usedcount (IntegerCodec.umax (T := T) stat)
  let dataspace ← space .basic stat.nvalues nbits
  let desc := IntegerCodec.compare desc .bitpck 1 dataspace 0 nbits
  let range ← sub T stat.maxvalue stat.minvalue
  let nbits := T.makeUnsigned.usedcount range
  let dataspace ← space .frame stat.nvalues nbits
  let metaspace := 1 + VarintCodec.valueSpace stat.minvalue (ZigzagCodec.mk (T := T))
  let desc := IntegerCodec.compare desc .bitfor metaspace dataspace stat.minvalue nbits
  let orig := OriginCodec.mk stat.minvalue
  let spaces ← src.foldlM (fun (spaces : Nat × Nat) val => do
    let vfspace ← originSpace val orig
    pure (spaces.1 + VarintCodec.valueSpace val (ZigzagCodec.mk (T := T)), spaces.2 + vfspace))
    (0, 0)
  let metaspace := VarintCodec.valueSpace stat.minvalue (ZigzagCodec.mk (T := T))
  let desc := IntegerCodec.compare desc .varint 0 spaces.1 0 0
  pure (IntegerCodec.compare desc .varfor metaspace spaces.2 stat.minvalue 0)

def valvar (vstat : IntegerStats T) (nbits nbitsMax : Nat) : Traced Event Nat :=
  (List.range' (nbits + 1) (nbitsMax - nbits)).foldlM (fun valvar nb => do
    let n ← histogramAt vstat nb
    pure (valvar + VarintCodec.nbitsSpace (nb - nbits) * n)) 0

def indexPass (minvalue : T.Original) (nbits : Nat) : (i : Nat) → List T.Original →
    OffsetCodec sizeT 1 → IntegerCodec.IndexSpace → Traced Event IntegerCodec.IndexSpace
  | _, [], _, space => pure space
  | i, cur :: src, indexCodec, space => do
    note (.sub T cur minvalue)
    let u := T.subShiftRight cur minvalue nbits
    if u = 0 then indexPass minvalue nbits (i + 1) src indexCodec space
    else
      let (j, indexCodec) := indexCodec.valueEncode (toSize i)
      indexPass minvalue nbits (i + 1) src indexCodec (space.add j)

def indexSpace (vstat : IntegerStats T) (src : List T.Original) (nbits : Nat) :
    Traced Event IntegerCodec.IndexSpace :=
  indexPass vstat.minvalue nbits 0 src (OffsetCodec.init false 0) ⟨1, 0⟩

/-- The estimate does not depend on the stream of the indices, which is chosen only for a
width that passes it. -/
def tryWidth (vstat : IntegerStats T) (src : List T.Original) (nbitsMax : Nat)
    (state : Metadata T × Nat) (nbits : Nat) : Traced Event (Metadata T × Nat) := do
  let (m, noutliers) := state
  let n ← histogramAt vstat nbits
  if n = 0 then pure (m, noutliers)
  else
    note (.counter noutliers n)
    let noutliers := noutliers - n
    let basicDataspace ← space .base vstat.nvalues nbits
    let valpck ← space .outlierValues noutliers (nbitsMax - nbits)
    let valvar ← valvar vstat nbits nbitsMax
    let indmin ← space .outlierIndices noutliers 1
    let t (index : IntegerCodec.Stream) : IntegerCodec.Trial :=
      { nbits := nbits
        noutliers := noutliers
        basicMetaspace := 1 + VarintCodec.valueSpace vstat.minvalue (ZigzagCodec.mk (T := T))
        extraMetaspace :=
          2 + VarintCodec.valueSpace (toSize noutliers) (ZigzagCodec.mk (T := sizeT))
        basicDataspace := basicDataspace
        value := IntegerCodec.choose (nbitsMax - nbits) valpck valvar
        indmin := if indmin > vstat.nvalues then vstat.nvalues else indmin
        index := index }
    let selected := m.valueDesc.dataspace + m.valueDesc.metaspace
    if (t ⟨.varint, 0, 1⟩).estimate ≥ selected then pure (m, noutliers)
    else
      let ind ← indexSpace vstat src nbits
      let indpck ← space .outlierIndices noutliers ind.indnbits
      let t := t (IntegerCodec.choose ind.indnbits indpck ind.indvar)
      if t.required < selected then pure (t.store vstat.minvalue m, noutliers)
      else pure (m, noutliers)

/-- An empty or a constant sequence is settled without any of the operations. -/
def select (m : Metadata T) (src : List T.Original) : Traced Event (Metadata T) := do
  let vstat := IntegerStats.collect src
  if vstat.nvalues = 0 ∨ vstat.minvalue = vstat.maxvalue then
    pure (IntegerCodec.select m src)
  else
    let valueDesc ← selectBasic m.valueDesc vstat src
    let m := { m with valueDesc := valueDesc }
    if vstat.nvalues < 5 then pure m
    else
      let range ← sub T vstat.maxvalue vstat.minvalue
      let nbitsMax := T.makeUnsigned.usedcount range
      let vstat ← buildHistogram vstat src
      let n ← histogramAt vstat 0
      note (.counter vstat.nvalues n)
      let state ← (List.range' 1 (nbitsMax - 1)).foldlM (tryWidth vstat src nbitsMax)
        (m, vstat.nvalues - n)
      pure state.1

@[simp] theorem value_histogramAt (stats : IntegerStats T) (index : Nat) :
    value (histogramAt stats index) = stats.histogramAt index := rfl

theorem value_buildHistogram (stats : IntegerStats T) (src : List T.Original) :
    value (buildHistogram stats src) = stats.buildHistogram src := value_foldlM stat src stats

theorem value_selectBasic (desc : Descriptor T) (stat : IntegerStats T) (src : List T.Original) :
    value (selectBasic desc stat src) = IntegerCodec.selectBasic desc stat src := by
  rw [selectBasic]
  simp only [value_bind, value_pure, value_foldlM]
  rfl

theorem value_valvar (vstat : IntegerStats T) (nbits nbitsMax : Nat) :
    value (valvar vstat nbits nbitsMax) = IntegerCodec.valvar vstat nbits nbitsMax :=
  value_foldlM _ _ _

theorem value_indexPass (minvalue : T.Original) (nbits i : Nat) (src : List T.Original)
    (indexCodec : OffsetCodec sizeT 1) (space : IntegerCodec.IndexSpace) :
    value (indexPass minvalue nbits i src indexCodec space) =
      IntegerCodec.indexPass minvalue nbits i src indexCodec space := by
  induction src generalizing i indexCodec space with
  | nil => rfl
  | cons cur src ih =>
    rw [indexPass, IntegerCodec.indexPass, value_bind]
    simp only [value_ite, ih]

theorem value_tryWidth (vstat : IntegerStats T) (src : List T.Original) (nbitsMax : Nat)
    (state : Metadata T × Nat) (nbits : Nat) :
    value (tryWidth vstat src nbitsMax state nbits) =
      IntegerCodec.tryWidth vstat src nbitsMax state nbits := by
  rw [tryWidth, value_bind, value_ite]
  simp only [value_bind, value_ite, value_valvar, indexSpace, value_indexPass]
  rfl

/-- Without the notes the selection is `select`. -/
theorem value_select (m : Metadata T) (src : List T.Original) :
    value (select m src) = IntegerCodec.select m src := by
  rw [select, value_ite]
  split
  · rfl
  · rename_i some
    rw [not_or] at some
    rw [IntegerCodec.select, if_neg some.1, if_neg some.2]
    simp only [value_bind, value_ite, value_selectBasic, value_buildHistogram, value_foldlM,
      value_tryWidth]
    rfl

end Select

/-- A value codec that keeps the values it is given. -/
structure Recording (T : IntType) (V : Type) where
  vcodec : V
  seen : List T.Original

instance (T : IntType) (V : Type) [ValueCodec T V] : ValueCodec T (Recording T V) where
  valueEncode r v :=
    ((ValueCodec.valueEncode r.vcodec v).1,
      ⟨(ValueCodec.valueEncode r.vcodec v).2, r.seen ++ [v]⟩)
  valueDecode r u := ValueCodec.valueDecode r.vcodec u

section Basic

variable {I : IntType}

/-- The values that the packer passes to its value codec. -/
def packed {V : Type} [ValueCodec I V] (src : List I.Original) (nbits : Nat) (vcodec : V) :
    List I.Original :=
  (BitpckCodec.encode src nbits (⟨vcodec, []⟩ : Recording I V)).2.seen

/-- The subtractions of `origin_codec::value_encode` on these values. -/
def differences (origin : I.Original) (vs : List I.Original) : List Event :=
  vs.map (.sub I · origin)

/-- `varint_codec<T, origin_codec<T>>::encode` -/
def originEncode (src : List I.Original) (vcodec : OriginCodec I) : Traced Event Bytes :=
  src.foldlM (fun dst v => do
    let value ← sub I v vcodec.origin
    pure (dst ++ VarintCodec.encodeLoop value)) []

def encodeBasic (purpose : Purpose) (src : List I.Original) (desc : Descriptor I) :
    Fallible Event Failure Bytes :=
  match desc.encoding with
  | .varfor => succeeds (originEncode src ⟨desc.origin⟩)
  | .bitpck => succeeds do
      note (.width purpose desc.nbits)
      pure (BitpckCodec.encode src desc.nbits (ZigzagCodec.mk (T := I))).1
  | .bitfor => succeeds do
      let params : BitforCodec.Parameters I := ⟨⟨desc.origin⟩, desc.nbits⟩
      note (.width .frame desc.nbits)
      noteAll (differences desc.origin (packed src desc.nbits params))
      pure (BitforCodec.encode src params)
  | _ => silent (IntegerCodec.encodeBasic src desc)

def decodeBasic (purpose : Purpose) (dst : List I.Original) (desc : Descriptor I) :
    TracedReader Event Failure Byte (List I.Original) :=
  match desc.encoding with
  | .bitpck => do
    noteRead (.width purpose desc.nbits)
    plain (BitpckCodec.decode dst.length desc.nbits (ZigzagCodec.mk (T := I)))
  | .bitfor => do
    noteRead (.width .frame desc.nbits)
    plain (BitforCodec.decode dst.length ⟨⟨desc.origin⟩, desc.nbits⟩)
  | _ => plain (IntegerCodec.decodeBasic dst desc)

theorem value_originEncode (src : List I.Original) (vcodec : OriginCodec I) :
    value (originEncode src vcodec) = VarintCodec.encode src vcodec := by
  rw [originEncode, value_foldlM, VarintCodec.encode, List.flatMap_eq_foldl]
  rfl

theorem outcome_encodeBasic (purpose : Purpose) (src : List I.Original) (desc : Descriptor I) :
    outcome (encodeBasic purpose src desc) = IntegerCodec.encodeBasic src desc := by
  rw [encodeBasic]
  split
  · rename_i varfor
    rw [outcome_succeeds, value_originEncode, IntegerCodec.encodeBasic, varfor]
  · rename_i bitpck
    rw [outcome_succeeds, IntegerCodec.encodeBasic, bitpck]
    rfl
  · rename_i bitfor
    rw [outcome_succeeds, IntegerCodec.encodeBasic, bitfor]
    rfl
  · exact outcome_silent _

theorem reader_decodeBasic (purpose : Purpose) (dst : List I.Original) (desc : Descriptor I) :
    reader (decodeBasic purpose dst desc) = IntegerCodec.decodeBasic dst desc := by
  rw [decodeBasic]
  split
  · rename_i bitpck
    rw [reader_bind, reader_noteRead, pure_bind, IntegerCodec.decodeBasic, bitpck]
    rfl
  · rename_i bitfor
    rw [reader_bind, reader_noteRead, pure_bind, IntegerCodec.decodeBasic, bitfor]
    rfl
  · exact reader_plain _

/-- The packer passes every value to its codec, once and in order. -/
theorem packed_eq {V : Type} [ValueCodec I V] {nbits : Nat} (h1 : 1 ≤ nbits) (h64 : nbits ≤ 64)
    (src : List I.Original) (vcodec : V) : packed src nbits vcodec = src := by
  have recorded (vs pre : List I.Original) (vcodec : V) :
      (codes (⟨vcodec, pre⟩ : Recording I V) vs).2.seen = pre ++ vs := by
    induction vs generalizing pre vcodec with
    | nil => exact (List.append_nil pre).symm
    | cons v vs ih => exact (ih _ _).trans (List.append_assoc pre [v] vs)
  rw [packed, (BitpckCodec.encode_run h1 h64 src _).1, recorded, List.nil_append]

end Basic

section Coding

variable {T : IntType}

def encodeBitpfr (src : List T.Original) (m : Metadata T) : Fallible Event Failure Bytes := do
  let params := BitpfrCodec.Parameters.init m.valueDesc.origin m.valueDesc.nbits
    (BitpfrCodec.Exceptions.fresh T)
  let (regular, outliers) ← succeeds do
    note (.width .base m.valueDesc.nbits)
    noteAll (differences m.valueDesc.origin (packed src m.valueDesc.nbits params))
    pure (BitpfrCodec.encode src params)
  let indices ← encodeBasic .outlierIndices outliers.indices m.outlierIndexDesc
  let values ← encodeBasic (I := T.makeUnsigned) .outlierValues outliers.values m.outlierValueDesc
  pure (regular ++ (indices ++ values))

def decodeBitpfr (dst : List T.Original) (m : Metadata T) :
    TracedReader Event Failure Byte (List T.Original) := do
  let outliers : BitpfrCodec.Exceptions T :=
    ⟨List.replicate m.noutliers.toNat 0, List.replicate m.noutliers.toNat 0, 0⟩
  let params := BitpfrCodec.Parameters.init m.valueDesc.origin m.valueDesc.nbits
  noteRead (.width .base m.valueDesc.nbits)
  let dst ← plain (BitpfrCodec.decodeBasic dst.length (params outliers))
  let indices ← decodeBasic .outlierIndices outliers.indices m.outlierIndexDesc
  let values ← decodeBasic (I := T.makeUnsigned) .outlierValues outliers.values m.outlierValueDesc
  plain (BitpfrCodec.decodePatch dst
    (params { outliers with indices := indices, values := values }))

def encode (src : List T.Original) (m : Metadata T) : Fallible Event Failure Bytes :=
  if m.valueDesc.encoding = .bitpfr then encodeBitpfr src m
  else encodeBasic .basic src m.valueDesc

def decode (dst : List T.Original) (m : Metadata T) :
    TracedReader Event Failure Byte (List T.Original) :=
  if m.valueDesc.encoding = .bitpfr then decodeBitpfr dst m
  else decodeBasic .basic dst m.valueDesc

/-- Without the notes the encoder is `encode`. -/
theorem outcome_encode (src : List T.Original) (m : Metadata T) :
    outcome (encode src m) = IntegerCodec.encode src m := by
  rw [encode, IntegerCodec.encode]
  split
  · rw [encodeBitpfr, IntegerCodec.encodeBitpfr]
    simp only [outcome_bind, outcome_encodeBasic]
    rfl
  · exact outcome_encodeBasic .basic src m.valueDesc

/-- Without the notes the decoder is `decode`. -/
theorem reader_decode (dst : List T.Original) (m : Metadata T) :
    reader (decode dst m) = IntegerCodec.decode dst m := by
  rw [decode, IntegerCodec.decode]
  split
  · rw [decodeBitpfr, IntegerCodec.decodeBitpfr]
    simp only [reader_bind, reader_noteRead, pure_bind, reader_plain, reader_decodeBasic]
  · exact reader_decodeBasic .basic dst m.valueDesc

end Coding

end Instrumented

end Oroch
