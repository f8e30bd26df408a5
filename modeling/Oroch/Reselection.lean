import Oroch.Library.Contest
import Oroch.Selection

/-!
# Selecting into used metadata

`select` assigns the fields of the encoding it chooses, but the base case of the basic
encodings leaves the announced size of the metadata as it finds it. It counts as a part of
the raw size until another encoding is taken. Two selections agree if nothing was left over,
or if they both take some encoding; if the raw encoding is kept, a size that was left over
is announced.
-/

namespace Oroch

/-- The same serialised content and the same sizes. -/
structure Descriptor.Alike {T : IntType} (d e : Descriptor T) : Prop where
  agrees : d.Agrees e
  dataspace : d.dataspace = e.dataspace
  metaspace : d.metaspace = e.metaspace

namespace Metadata

variable {T : IntType}

structure Alike (m k : Metadata T) : Prop where
  agrees : m.Agrees k
  valueDesc : m.valueDesc.Alike k.valueDesc

theorem encodeFields_agrees {d e : Descriptor T} (h : d.Agrees e) :
    encodeFields d = encodeFields e := by
  rcases d with ⟨k, dataspace, metaspace, origin, nbits⟩
  rcases e with ⟨k', dataspace', metaspace', origin', nbits'⟩
  obtain rfl : k = k' := h.encoding
  have sameOrigin := h.origin
  have sameNbits := h.nbits
  cases k with
  | naught | varfor =>
    obtain rfl : origin = origin' := sameOrigin rfl
    rfl
  | normal | varint | unnamed => rfl
  | bitpck =>
    obtain rfl : nbits = nbits' := sameNbits rfl
    rfl
  | bitfor | bitpfr =>
    obtain rfl : origin = origin' := sameOrigin rfl
    obtain rfl : nbits = nbits' := sameNbits rfl
    rfl

theorem encodeExtra_agrees {I : IntType} {d e : Descriptor I} (h : d.Agrees e) :
    encodeExtra d = encodeExtra e := by
  have sameNbits := h.nbits
  rw [encodeExtra, encodeExtra, ← h.encoding]
  split
  · next packed =>
    rw [sameNbits (by rw [packed]; rfl)]
  · rfl

/-- Objects that agree are written alike. -/
theorem encode_agrees {m k : Metadata T} (h : m.Agrees k) : m.encode = k.encode := by
  rw [encode, encode, encodeBasic, encodeBasic, encodeFields_agrees h.valueDesc,
    ← h.valueDesc.encoding]
  split
  · next patched =>
    rw [h.noutliers patched, encodeExtra_agrees (h.outlierIndexDesc patched),
      encodeExtra_agrees (h.outlierValueDesc patched)]
  · rfl

end Metadata

namespace IntegerCodec

variable {T : IntType}

/-- An encoding that is compared with the raw one: the metadata that are stored when it is
taken, and the size that has to be below the one selected so far. -/
structure Rival (T : IntType) where
  content : Metadata T
  bound : Nat

def Rival.cost (r : Rival T) : Nat := IntegerCodec.cost r.content.valueDesc

/-- A basic encoding is taken for its size. -/
def Rival.basic (desc : Descriptor T) : Rival T :=
  ⟨{ Metadata.fresh T with valueDesc := desc }, IntegerCodec.cost desc⟩

/-- What the search computes for a width. -/
def attempt (src : List T.Original) (nbits : Nat) : Trial :=
  let vstat := IntegerStats.collect src
  trial (vstat.buildHistogram src) src (rangeNbits vstat) nbits (above src (nbits + 1))

/-- A patched encoding is taken for its estimate and for the size that it requires. -/
def Rival.patched (src : List T.Original) (nbits : Nat) : Rival T :=
  let t := attempt src nbits
  ⟨t.store (IntegerStats.collect src).minvalue (Metadata.fresh T), max t.estimate t.required⟩

/-- The widths below a width that the search does not pass over. -/
def visited (src : List T.Original) (nbits : Nat) : List Nat :=
  (List.range' 1 (nbits - 1)).filter fun k =>
    ((IntegerStats.collect src).buildHistogram src).histogramAt k ≠ 0

/-- All that is compared with the raw encoding, in the order of the comparisons. -/
def rivals (src : List T.Original) : List (Rival T) :=
  (candidates (IntegerStats.collect src) src).map .basic ++
    if src.length < 5 then []
    else (visited src (rangeNbits (IntegerStats.collect src))).map (.patched src)

section Search

variable (m : Metadata T) (src : List T.Original)

end Search

section Search

variable {m : Metadata T} {src : List T.Original}

end Search

section Rivals

variable {src : List T.Original}

end Rivals

section Varied

variable {m : Metadata T} {src : List T.Original} (varied : IntegerStats.Varied src)

include varied

end Varied

end IntegerCodec

end Oroch
