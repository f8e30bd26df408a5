import Oroch.Common

/-!
# Encodings without a code

The naught encoding of a constant sequence stores nothing; the normal encoding
stores the values as they are.
-/

namespace Oroch

open Cursor

namespace NaughtCodec

variable {T : IntType}

def encode (_src : List T.Original) : Bytes := []

/-- Decode into `n` slots. -/
def decode (n : Nat) (value : T.Original) : ByteReader (List T.Original) :=
  pure (List.replicate n value)

theorem consumes_encode {value : T.Original} {src : List T.Original}
    (constant : ∀ v ∈ src, v = value) :
    Consumes (decode src.length value) (encode src) src := by
  have same : List.replicate src.length value = src :=
    (List.eq_replicate_of_mem constant).symm
  rw [decode, same]
  exact consumes_pure src

end NaughtCodec

namespace NormalCodec

variable {T : IntType}

def space (T : IntType) (nvalues : Nat) : Nat := nvalues * T.nbytes

def encode (src : List T.Original) : Bytes := src.flatMap (storeInt T)

/-- Decode into `n` slots. -/
def decode (n : Nat) : ByteReader (List T.Original) := times (loadInt T) n

theorem length_encode (src : List T.Original) : (encode src).length = space T src.length := by
  rw [encode, List.length_flatMap, space]
  simp

theorem consumes_encode (src : List T.Original) :
    Consumes (decode src.length) (encode src) src := by
  have all := consumes_times (consumes_loadInt T) src
  rwa [List.map_id'] at all

end NormalCodec

end Oroch
