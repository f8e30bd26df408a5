import Oroch.Bitfor
import Oroch.Bitpfr
import Oroch.IntegerStats
import Oroch.Metadata
import Oroch.Plain

/-!
# The integer codec

`select` chooses an encoding for a sequence from its statistics and predicts the
space it takes; `encode` and `decode` run the encoding that the metadata names.
The search for a patched encoding is a loop over widths that carries the metadata
selected so far and the number of values above the width.
-/

namespace Oroch

open Cursor

namespace IntegerCodec

section Select

variable {T : IntType}

def compare (desc : Descriptor T) (encoding : Encoding) (metaspace dataspace : Nat)
    (origin : T.Original) (nbits : Nat) : Descriptor T :=
  if dataspace + metaspace < desc.dataspace + desc.metaspace then
    ⟨encoding, dataspace, metaspace, origin, nbits⟩
  else desc

/-- The maximum code that `bitpck` has to hold. -/
def umax (stat : IntegerStats T) : T.Unsigned :=
  if T.signed then
    let min := ZigzagCodec.encode T stat.minvalue
    let max := ZigzagCodec.encode T stat.maxvalue
    if min.toNat < max.toNat then max else min
  else stat.maxvalue

def range (stat : IntegerStats T) : T.Unsigned := stat.maxvalue - stat.minvalue

/-- The maximum number of bits of a difference from the minimum. -/
def rangeNbits (stat : IntegerStats T) : Nat := T.makeUnsigned.usedcount (range (T := T) stat)

def selectBasic (desc : Descriptor T) (stat : IntegerStats T) (src : List T.Original) :
    Descriptor T :=
  let desc := { desc with encoding := .normal, dataspace := stat.originalSpace }
  let nbits := T.makeUnsigned.usedcount (umax (T := T) stat)
  let dataspace := BitpckCodec.space stat.nvalues nbits
  let desc := compare desc .bitpck 1 dataspace 0 nbits
  let nbits := rangeNbits stat
  let dataspace := BitpckCodec.space stat.nvalues nbits
  let metaspace := 1 + VarintCodec.valueSpace stat.minvalue (ZigzagCodec.mk (T := T))
  let desc := compare desc .bitfor metaspace dataspace stat.minvalue nbits
  let orig := OriginCodec.mk stat.minvalue
  let (vispace, vfspace) := src.foldl
    (fun (vispace, vfspace) val =>
      (vispace + VarintCodec.valueSpace val (ZigzagCodec.mk (T := T)),
        vfspace + VarintCodec.valueSpace val orig)) (0, 0)
  let metaspace := VarintCodec.valueSpace stat.minvalue (ZigzagCodec.mk (T := T))
  let desc := compare desc .varint 0 vispace 0 0
  compare desc .varfor metaspace vfspace stat.minvalue 0

/-- The memory required to varint-encode the outliers of a width. -/
def valvar (vstat : IntegerStats T) (nbits nbitsMax : Nat) : Nat :=
  (List.range' (nbits + 1) (nbitsMax - nbits)).foldl
    (fun valvar nb => valvar + VarintCodec.nbitsSpace (nb - nbits) * vstat.histogramAt nb) 0

/-- `indnbits` and `indvar` -/
structure IndexSpace where
  indnbits : Nat
  indvar : Nat

/-- The body of the loop over the values, for one outlier. -/
def IndexSpace.add (space : IndexSpace) (j : sizeT.Original) : IndexSpace :=
  let inb := sizeT.usedcount j
  { indnbits := if space.indnbits < inb then inb else space.indnbits
    indvar := space.indvar + VarintCodec.valueSpace j (ZigzagCodec.mk (T := sizeT)) }

/-- The loop over the values that computes the memory required for outlier indices. -/
def indexPass (minvalue : T.Original) (nbits : Nat) : (i : Nat) → List T.Original →
    OffsetCodec sizeT 1 → IndexSpace → IndexSpace
  | _, [], _, space => space
  | i, cur :: src, indexCodec, space =>
    let u := T.subShiftRight cur minvalue nbits
    if u = 0 then indexPass minvalue nbits (i + 1) src indexCodec space
    else
      let (j, indexCodec) := indexCodec.valueEncode (toSize i)
      indexPass minvalue nbits (i + 1) src indexCodec (space.add j)

/-- The loop with its initial values. -/
def indexSpace (vstat : IntegerStats T) (src : List T.Original) (nbits : Nat) : IndexSpace :=
  indexPass vstat.minvalue nbits 0 src (OffsetCodec.init false 0) ⟨1, 0⟩

/-- The encoding, the space and the width for a stream of outliers. -/
structure Stream where
  encoding : Encoding
  dataspace : Nat
  nbits : Nat

/-- The choice between the two encodings of outliers. -/
def choose (nbits pck var : Nat) : Stream :=
  if pck < var then ⟨.bitpck, pck, nbits⟩ else ⟨.varint, var, nbits⟩

def Stream.store (stream : Stream) {I : IntType} (desc : Descriptor I) : Descriptor I :=
  { desc with encoding := stream.encoding, nbits := stream.nbits }

/-- What the search computes for one width. -/
structure Trial where
  nbits : Nat
  noutliers : Nat
  basicMetaspace : Nat
  extraMetaspace : Nat
  basicDataspace : Nat
  value : Stream
  indmin : Nat
  index : Stream

def trial (vstat : IntegerStats T) (src : List T.Original) (nbitsMax nbits noutliers : Nat) :
    Trial where
  nbits := nbits
  noutliers := noutliers
  basicMetaspace := 1 + VarintCodec.valueSpace vstat.minvalue (ZigzagCodec.mk (T := T))
  extraMetaspace := 2 + VarintCodec.valueSpace (toSize noutliers) (ZigzagCodec.mk (T := sizeT))
  basicDataspace := BitpckCodec.space vstat.nvalues nbits
  value := choose (nbitsMax - nbits) (BitpckCodec.space noutliers (nbitsMax - nbits))
    (valvar vstat nbits nbitsMax)
  indmin :=
    let indmin := BitpckCodec.space noutliers 1
    if indmin > vstat.nvalues then vstat.nvalues else indmin
  index :=
    let space := indexSpace vstat src nbits
    choose space.indnbits (BitpckCodec.space noutliers space.indnbits) space.indvar

def Trial.estimate (t : Trial) : Nat :=
  t.basicMetaspace + t.extraMetaspace + t.basicDataspace + t.value.dataspace + t.indmin

def Trial.required (t : Trial) : Nat :=
  t.basicMetaspace + t.extraMetaspace + t.basicDataspace + t.value.dataspace + t.index.dataspace

/-- The assignments to `meta` when a width is selected. -/
def Trial.store (t : Trial) (origin : T.Original) (m : Metadata T) : Metadata T :=
  { valueDesc :=
      { encoding := .bitpfr
        origin := origin
        nbits := t.nbits
        metaspace := t.basicMetaspace + t.extraMetaspace
        dataspace := t.basicDataspace + t.value.dataspace + t.index.dataspace }
    noutliers := toSize t.noutliers
    outlierValueDesc := t.value.store m.outlierValueDesc
    outlierIndexDesc := t.index.store m.outlierIndexDesc }

/-- One width in the search for a patched encoding. -/
def tryWidth (vstat : IntegerStats T) (src : List T.Original) (nbitsMax : Nat) :
    Metadata T × Nat → Nat → Metadata T × Nat
  | (m, noutliers), nbits =>
    let n := vstat.histogramAt nbits
    if n = 0 then (m, noutliers)
    else
      let noutliers := noutliers - n
      let t := trial vstat src nbitsMax nbits noutliers
      let selected := m.valueDesc.dataspace + m.valueDesc.metaspace
      if t.estimate ≥ selected then (m, noutliers)
      else if t.required < selected then (t.store vstat.minvalue m, noutliers)
      else (m, noutliers)

def select (m : Metadata T) (src : List T.Original) : Metadata T :=
  let vstat := IntegerStats.collect src
  if vstat.nvalues = 0 then
    { m with
      valueDesc := { m.valueDesc with encoding := .normal, dataspace := 0, metaspace := 0 } }
  else if vstat.minvalue = vstat.maxvalue then
    let value := vstat.minvalue
    { m with
      valueDesc :=
        { m.valueDesc with
          encoding := .naught
          dataspace := 0
          metaspace := VarintCodec.valueSpace value (ZigzagCodec.mk (T := T))
          origin := value } }
  else
    let m := { m with valueDesc := selectBasic m.valueDesc vstat src }
    if vstat.nvalues < 5 then m
    else
      let nbitsMax := rangeNbits vstat
      let vstat := vstat.buildHistogram src
      let noutliers := vstat.nvalues - vstat.histogramAt 0
      ((List.range' 1 (nbitsMax - 1)).foldl (tryWidth vstat src nbitsMax) (m, noutliers)).1

end Select

section Basic

variable {I : IntType}

def encodeBasic (src : List I.Original) (desc : Descriptor I) : Outcome Bytes :=
  match desc.encoding with
  | .bitpfr => .error (.logicError "not a basic encoding")
  | .naught => .ok (NaughtCodec.encode src)
  | .normal => .ok (NormalCodec.encode src)
  | .varint => .ok (VarintCodec.encode src (ZigzagCodec.mk (T := I)))
  | .varfor => .ok (VarintCodec.encode src (OriginCodec.mk desc.origin))
  | .bitpck => .ok (BitpckCodec.encode src desc.nbits (ZigzagCodec.mk (T := I))).1
  | .bitfor => .ok (BitforCodec.encode src ⟨⟨desc.origin⟩, desc.nbits⟩)
  | .unnamed _ _ => .ok []

/-- Decode into `dst`, whose content only an unnamed encoding leaves in place. -/
def decodeBasic (dst : List I.Original) (desc : Descriptor I) : ByteReader (List I.Original) :=
  match desc.encoding with
  | .bitpfr => throw (.logicError "not a basic encoding")
  | .naught => NaughtCodec.decode dst.length desc.origin
  | .normal => NormalCodec.decode dst.length
  | .varint => VarintCodec.decode dst.length (ZigzagCodec.mk (T := I))
  | .varfor => VarintCodec.decode dst.length (OriginCodec.mk desc.origin)
  | .bitpck => BitpckCodec.decode dst.length desc.nbits (ZigzagCodec.mk (T := I))
  | .bitfor => BitforCodec.decode dst.length ⟨⟨desc.origin⟩, desc.nbits⟩
  | .unnamed _ _ => pure dst

end Basic

variable {T : IntType}

def encodeBitpfr (src : List T.Original) (m : Metadata T) : Outcome Bytes := do
  let params := BitpfrCodec.Parameters.init m.valueDesc.origin m.valueDesc.nbits
    (BitpfrCodec.Exceptions.fresh T)
  let (regular, outliers) := BitpfrCodec.encode src params
  let indices ← encodeBasic outliers.indices m.outlierIndexDesc
  let values ← encodeBasic (I := T.makeUnsigned) outliers.values m.outlierValueDesc
  pure (regular ++ (indices ++ values))

def decodeBitpfr (dst : List T.Original) (m : Metadata T) : ByteReader (List T.Original) := do
  let outliers : BitpfrCodec.Exceptions T :=
    ⟨List.replicate m.noutliers.toNat 0, List.replicate m.noutliers.toNat 0, 0⟩
  let params := BitpfrCodec.Parameters.init m.valueDesc.origin m.valueDesc.nbits
  let dst ← BitpfrCodec.decodeBasic dst.length (params outliers)
  let indices ← decodeBasic outliers.indices m.outlierIndexDesc
  let values ← decodeBasic (I := T.makeUnsigned) outliers.values m.outlierValueDesc
  BitpfrCodec.decodePatch dst (params { outliers with indices := indices, values := values })

def encode (src : List T.Original) (m : Metadata T) : Outcome Bytes :=
  if m.valueDesc.encoding = .bitpfr then encodeBitpfr src m else encodeBasic src m.valueDesc

def decode (dst : List T.Original) (m : Metadata T) : ByteReader (List T.Original) :=
  if m.valueDesc.encoding = .bitpfr then decodeBitpfr dst m else decodeBasic dst m.valueDesc

end IntegerCodec

end Oroch
