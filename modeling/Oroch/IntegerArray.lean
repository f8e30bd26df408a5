import Oroch.IntegerGroup
import Oroch.Library.Chunks

/-!
# Integer arrays

An array keeps its elements in encoded groups of 256 and an open tail. A group is
searched in place where its encoding allows it, and rejected by the width of the
probe where that suffices; otherwise it is decoded. An insertion into a group
decodes it, passes its last element on to the next group and encodes it again.
-/

namespace Oroch

open Cursor

/-- `size_t(-1)` -/
def notFound : Nat := 2 ^ 64 - 1

def groupSize : Nat := 256

theorem groupSize_pos : 0 < groupSize := by decide

/-- The length of a full group is a 64-bit value. -/
theorem room_of_full {α : Type} {l : List α} (full : l.length = groupSize) :
    l.length < 2 ^ 64 := by
  rw [full]
  decide

namespace IntegerGroup

variable {T : IntType}

/-- `operator[]` -/
def get (self : IntegerGroup T) (storage : Storage T) (index : Nat) : Outcome T.Original := do
  let buffer ← self.decode (storage.buffer groupSize) true
  match buffer[index]? with
  | some v => pure v
  | none => .error .undefined

/-- The search through the decoded elements. -/
def findDecoded (self : IntegerGroup T) (storage : Storage T) (value : T.Original) :
    Outcome Nat := do
  let buffer ← self.decode (storage.buffer groupSize) true
  pure ((buffer.findIdx? (· = value)).getD notFound)

def find (self : IntegerGroup T) (storage : Storage T) (value : T.Original) : Outcome Nat := do
  let (m, dataBytes) ← self.locate true
  match m.valueDesc.encoding with
  | .naught => pure (if value = m.valueDesc.origin then 0 else notFound)
  | .normal =>
    let (index, _) ← (scan (loadInt T) (· = value) notFound groupSize 0).run dataBytes
    pure index
  | .varint =>
    let decode := VarintCodec.valueDecode (ZigzagCodec.mk (T := T))
    let (index, _) ← (scan decode (· = value) notFound groupSize 0).run dataBytes
    pure index
  | .bitpck =>
    let nbits := T.usedcount (ZigzagCodec.encodeIfSigned T value)
    if nbits > m.valueDesc.nbits then pure notFound else self.findDecoded storage value
  | .bitfor =>
    let nbits := T.usedcount (value - m.valueDesc.origin)
    if nbits > m.valueDesc.nbits then pure notFound else self.findDecoded storage value
  | _ => self.findDecoded storage value

/-- A stored group decodes into a local buffer. -/
theorem Stores.decode_buffer {self : IntegerGroup T} {src : List T.Original}
    (h : self.Stores src true) (full : src.length = groupSize) (storage : Storage T) :
    self.decode (storage.buffer groupSize) true = .ok src := by
  have same : (storage.buffer groupSize).length = src.length := by simp [Storage.buffer, full]
  exact h.decode (room_of_full full) same

end IntegerGroup

structure IntegerArray (T : IntType) where
  tail : List T.Original
  groups : List (IntegerGroup T)
  deriving DecidableEq, Repr

namespace IntegerArray

variable {T : IntType}

/-- A new object. -/
def empty (T : IntType) : IntegerArray T := ⟨[], []⟩

def size (self : IntegerArray T) : Nat := self.groups.length * groupSize + self.tail.length

/-- `at`; `storage` holds the content of the local buffers, by group. -/
def checkedAt (self : IntegerArray T) (storage : Nat → Storage T) (npos : Nat) :
    Outcome T.Original :=
  let ngroups := self.groups.length
  let group := npos / groupSize
  let index := npos % groupSize
  if group > ngroups ∨ index > self.tail.length then
    .error (.outOfRange "array index out of range")
  else
    match self.groups[group]? with
    | some g => g.get (storage group) index
    | none =>
      match self.tail[index]? with
      | some v => .ok v
      | none => .error .undefined

/-- The loop of `find` over the groups. -/
def findLoop (storage : Nat → Storage T) (value : T.Original) : (group : Nat) →
    List (IntegerGroup T) → Outcome (Option Nat)
  | _, [] => .ok none
  | group, g :: groups => do
    let index ← g.find (storage group) value
    if index ≠ notFound then pure (some (group * groupSize + index))
    else findLoop storage value (group + 1) groups

def find (self : IntegerArray T) (storage : Nat → Storage T) (value : T.Original) :
    Outcome Nat := do
  match ← findLoop storage value 0 self.groups with
  | some position => pure position
  | none =>
    match self.tail.findIdx? (· = value) with
    | some index => pure (self.groups.length * groupSize + index)
    | none => pure notFound

def clear : Method (IntegerArray T) Unit := set (empty T)

/-- `std::copy_backward` over a buffer, from `[first, last)` to the end `dLast`. -/
def copyBackward (buffer : List T.Original) (first last dLast : Nat) : List T.Original :=
  buffer.take (dLast - (last - first)) ++
    ((buffer.drop first).take (last - first) ++ buffer.drop dLast)

/-- A call on one of the groups. -/
def onGroup {α : Type} (group : Nat) (f : Method (IntegerGroup T) α) :
    Method (IntegerArray T) α := do
  let self ← get
  match self.groups[group]? with
  | none => throw .undefined
  | some g =>
    let (result, g') := f.call g
    set { self with groups := self.groups.set group g' }
    liftM result

/-- The loop of `insert`, for `count` groups from `group` on; it returns what is left to
insert into the tail. -/
def insertLoop (storage : Nat → Storage T) : (count group index : Nat) → T.Original →
    Method (IntegerArray T) (Nat × T.Original)
  | 0, _, index, value => pure (index, value)
  | count + 1, group, index, value => do
    let buffer ← onGroup group do
      (← get).decode ((storage group).buffer groupSize) true
    match buffer[groupSize - 1]? with
    | none => throw .undefined
    | some saveValue =>
      let buffer := (copyBackward buffer index (groupSize - 1) groupSize).set index value
      onGroup group (IntegerGroup.encode (storage group) buffer true)
      insertLoop storage count (group + 1) 0 saveValue

/-- The rest of `insert`; a tail that is filled becomes the group at the end. -/
def insertTail (storage : Storage T) (group index : Nat) (value : T.Original) :
    Method (IntegerArray T) Unit := do
  let self ← get
  if index > self.tail.length then throw .undefined
  else
    let tail := self.tail.insertIdx index value
    if tail.length = groupSize then
      set (⟨tail, self.groups ++ [IntegerGroup.fresh T]⟩ : IntegerArray T)
      onGroup group (IntegerGroup.encode storage tail true)
      modify fun self => { self with tail := [] }
    else set { self with tail := tail }

def insert (storage : Nat → Storage T) (arrayIndex : Nat) (value : T.Original) :
    Method (IntegerArray T) Unit := do
  let self ← get
  let ngroups := self.groups.length
  let group := arrayIndex / groupSize
  let index := arrayIndex % groupSize
  if group > ngroups ∨ index > self.tail.length then
    throw (.outOfRange "array index out of range")
  else
    let (index, value) ← insertLoop storage (ngroups - group) group index value
    insertTail (storage ngroups) ngroups index value

end IntegerArray

end Oroch
