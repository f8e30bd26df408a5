import Oroch.IntegerTraits
import Oroch.Library.Cursor
import Oroch.Library.Groups
import Oroch.Library.Slots

/-!
# Bytes, memory accesses and the ways a call can end

A buffer is a list of bytes. An encoder's advancing `dst` pointer is the list of
bytes it writes; a decoder's advancing `src` pointer is a cursor. Integers are
stored by `reinterpret_cast`, in little-endian order.
-/

namespace Oroch

open Cursor

abbrev Byte := Groups.Byte

abbrev Bytes := List Byte

/-- How a call ends when it does not return: by one of the library's exceptions
or outside what the language defines, which here means that memory is accessed
where no element is. -/
inductive Failure where
  | outOfRange (what : String)
  | logicError (what : String)
  | undefined
  deriving DecidableEq, Repr

abbrev Outcome := Except Failure

abbrev ByteReader := Reader Failure Byte

/-- `*src++` -/
def next : ByteReader Byte := item .undefined

/-- `*reinterpret_cast<T *>(dst) = v; dst += sizeof(T)` -/
def storeInt (T : IntType) (v : T.Original) : Bytes := Slots.bytes T.nbytes v.toNat

/-- `*reinterpret_cast<const T *>(src); src += sizeof(T)` -/
def loadInt (T : IntType) : ByteReader T.Original := do
  let bs ← times next T.nbytes
  pure (BitVec.ofNat T.nbits (Slots.ofBytes bs))

@[simp] theorem length_storeInt (T : IntType) (v : T.Original) :
    (storeInt T v).length = T.nbytes := Slots.length_bytes _ _

/-- A load of any bytes, not only of stored ones. -/
theorem consumes_loadInt_bytes (T : IntType) (bs : Bytes) (h : bs.length = T.nbytes) :
    Consumes (loadInt T) bs (BitVec.ofNat T.nbits (Slots.ofBytes bs)) := by
  have all := consumes_times_item Failure.undefined bs
  rw [h] at all
  exact all.map _

theorem consumes_loadInt (T : IntType) (v : T.Original) :
    Consumes (loadInt T) (storeInt T v) v := by
  have loaded := consumes_loadInt_bytes T (storeInt T v) (length_storeInt T v)
  have whole : BitVec.ofNat T.nbits (Slots.ofBytes (storeInt T v)) = v := by
    apply BitVec.eq_of_toNat_eq
    rw [storeInt, Slots.ofBytes_bytes, BitVec.toNat_ofNat, Nat.mul_comm 8]
    change v.toNat % 2 ^ T.nbits % 2 ^ T.nbits = v.toNat
    rw [Nat.mod_mod, Nat.mod_eq_of_lt v.isLt]
  rwa [whole] at loaded

/-- `uint64_t` -/
abbrev Word := BitVec 64

def storeWord (u : Word) : Bytes := storeInt sizeT u

def loadWord : ByteReader Word := loadInt sizeT

theorem storeWord_eq (u : Word) : storeWord u = Slots.bytes 8 u.toNat := rfl

theorem consumes_loadWord (bs : Bytes) (h : bs.length = 8) :
    Consumes loadWord bs (BitVec.ofNat 64 (Slots.ofBytes bs)) :=
  consumes_loadInt_bytes sizeT bs h

end Oroch
