import Oroch.IntegerArray

/-!
# Insertions that run out of memory

An insertion allocates at several points while it changes one group after another. Here
the insertion is run again with a choice of the points at which no memory is left; what
it has done until then stays. Where no point is chosen it is the insertion of the array.
-/

namespace Oroch

/-- The points of an insertion at which memory is allocated. -/
inductive Point where
  /-- The lists that `decode_bitpfr` resizes for a group. -/
  | resize (group : Nat)
  /-- `new byte_t[]` for a group. -/
  | buffer (group : Nat)
  /-- The lists that `parameters::value_encode` extends, at a position of a group. -/
  | outliers (group position : Nat)
  /-- `tail_` -/
  | tail
  /-- `groups_` -/
  | groups
  deriving DecidableEq, Repr

/-- An exception of the library, or `std::bad_alloc`. -/
inductive Fault where
  | failure (e : Failure)
  | badAlloc (point : Point)
  deriving DecidableEq, Repr

/-- A member function that may run out of memory. -/
abbrev Attempt (σ α : Type) := ExceptT Fault (StateM σ) α

/-- A call of a member function on an object. -/
def Attempt.call {σ α : Type} (f : Attempt σ α) (self : σ) : Except Fault α × σ :=
  (ExceptT.run f).run self

/-- A member function that does not allocate. -/
def Attempt.lift {σ α : Type} (f : Method σ α) : Attempt σ α := ExceptT.mk fun self =>
  let (result, self) := f.call self
  (result.mapError .failure, self)

/-- Memory is allocated, unless there is none left at this point. -/
def allocate {σ : Type} (fails : Point → Bool) (point : Point) : Attempt σ Unit :=
  if fails point then throw (.badAlloc point) else pure ()

namespace Attempt

variable {σ α β : Type}

theorem call_bind {f : Attempt σ α} {self self' : σ} {a : α} (h : f.call self = (.ok a, self'))
    (k : α → Attempt σ β) : (f >>= k).call self = (k a).call self' := by
  have run : (ExceptT.run f).run self = (.ok a, self') := h
  rw [call, ExceptT.run_bind, StateT.run_bind, run]
  rfl

theorem call_bind_error {f : Attempt σ α} {self self' : σ} {e : Fault}
    (h : f.call self = (.error e, self')) (k : α → Attempt σ β) :
    (f >>= k).call self = (.error e, self') := by
  have run : (ExceptT.run f).run self = (.error e, self') := h
  rw [call, ExceptT.run_bind, StateT.run_bind, run]
  rfl

@[simp] theorem call_get_bind (k : σ → Attempt σ β) (self : σ) :
    (get >>= k).call self = (k self).call self := rfl

@[simp] theorem call_set_bind (next : σ) (k : Unit → Attempt σ β) (self : σ) :
    (set next >>= k).call self = (k ()).call next := rfl

theorem call_lift {f : Method σ α} {self self' : σ} {a : α} (h : f.call self = (.ok a, self')) :
    (lift f).call self = (.ok a, self') := by
  rw [call, lift, ExceptT.run_mk, StateT.run, h]
  rfl

theorem call_lift_outcome {x : Outcome α} {a : α} (h : x = .ok a) (self : σ) :
    (lift (liftM x : Method σ α)).call self = (.ok a, self) := by
  rw [h]
  rfl

theorem allocate_fails {fails : Point → Bool} {point : Point} (none_left : fails point = true)
    (k : Unit → Attempt σ β) (self : σ) :
    (allocate fails point >>= k).call self = (.error (.badAlloc point), self) := by
  rw [allocate, if_pos none_left]
  rfl

theorem allocate_succeeds {fails : Point → Bool} {point : Point} (left : ¬ fails point = true)
    (k : Unit → Attempt σ β) (self : σ) :
    (allocate fails point >>= k).call self = (k ()).call self := by
  rw [allocate, if_neg left]
  rfl

end Attempt

namespace Failing

open Attempt

variable {T : IntType} (fails : Point → Bool)

/-- The positions at which `parameters::value_encode` extends the lists of outliers. -/
def growths (src : List T.Original) (params : BitpfrCodec.Parameters T) : List Nat :=
  src.findIdxs fun v => BitpfrCodec.basicValueEncode params v &&& ~~~params.mask ≠ 0

/-- The encoder behind the metadata. Where an outlier cannot be noted, only the blocks before
the one that its value belongs to are written. -/
def encodeData (group offset : Nat) (src : List T.Original) (m : Metadata T) :
    Attempt (IntegerGroup T) Unit := do
  let params := BitpfrCodec.Parameters.init m.valueDesc.origin m.valueDesc.nbits
    (BitpfrCodec.Exceptions.fresh T)
  let growths := if m.valueDesc.encoding = .bitpfr then growths src params else []
  match growths.find? fun position => fails (.outliers group position) with
  | some position =>
    let blocks := position / BitpckCodec.capacity params.nbits
    lift (IntegerGroup.write offset
      ((BitpfrCodec.encode src params).1.take (BitpckCodec.blockSize * blocks)))
    throw (.badAlloc (.outliers group position))
  | none =>
    lift do
      let bytes ← IntegerCodec.encode src m
      IntegerGroup.write offset bytes

def encode (group : Nat) (storage : Storage T) (src : List T.Original) (aligned : Bool) :
    Attempt (IntegerGroup T) Unit := do
  let m := IntegerCodec.select (Metadata.fresh T) src
  let offset := IntegerGroup.dataOffset aligned m.metaspace
  allocate fails (.buffer group)
  set (⟨some (storage.bytes (offset + m.dataspace))⟩ : IntegerGroup T)
  lift (IntegerGroup.write 0 m.encode)
  encodeData fails group offset src m

/-- Decode into `dst`. -/
def decode (group : Nat) (dst : List T.Original) (aligned : Bool) :
    Attempt (IntegerGroup T) (List T.Original) := do
  let self ← get
  let (m, _) ← lift (liftM (self.locate aligned))
  if m.valueDesc.encoding = .bitpfr then
    allocate fails (.resize group)
  lift (liftM (self.decode dst aligned))

/-- A call on one of the groups. -/
def onGroup {α : Type} (group : Nat) (f : Attempt (IntegerGroup T) α) :
    Attempt (IntegerArray T) α := do
  let self ← get
  match self.groups[group]? with
  | none => throw (.failure .undefined)
  | some g =>
    let (result, g') := f.call g
    set { self with groups := self.groups.set group g' }
    liftM result

def insertLoop (storage : Nat → Storage T) : (count group index : Nat) → T.Original →
    Attempt (IntegerArray T) (Nat × T.Original)
  | 0, _, index, value => pure (index, value)
  | count + 1, group, index, value => do
    let buffer ← onGroup group (decode fails group ((storage group).buffer groupSize) true)
    match buffer[groupSize - 1]? with
    | none => throw (.failure .undefined)
    | some saveValue =>
      let buffer :=
        (IntegerArray.copyBackward buffer index (groupSize - 1) groupSize).set index value
      onGroup group (encode fails group (storage group) buffer true)
      insertLoop storage count (group + 1) 0 saveValue

def insertTail (storage : Storage T) (group index : Nat) (value : T.Original) :
    Attempt (IntegerArray T) Unit := do
  let self ← get
  if index > self.tail.length then throw (.failure .undefined)
  else
    allocate fails .tail
    let tail := self.tail.insertIdx index value
    if tail.length = groupSize then
      set { self with tail := tail }
      allocate fails .groups
      set (⟨tail, self.groups ++ [IntegerGroup.fresh T]⟩ : IntegerArray T)
      onGroup group (encode fails group storage tail true)
      modify fun self => { self with tail := [] }
    else set { self with tail := tail }

def insert (storage : Nat → Storage T) (arrayIndex : Nat) (value : T.Original) :
    Attempt (IntegerArray T) Unit := do
  let self ← get
  let ngroups := self.groups.length
  let group := arrayIndex / groupSize
  let index := arrayIndex % groupSize
  if group > ngroups ∨ index > self.tail.length then
    throw (.failure (.outOfRange "array index out of range"))
  else
    let (index, value) ← insertLoop fails storage (ngroups - group) group index value
    insertTail fails (storage ngroups) ngroups index value

end Failing

end Oroch
