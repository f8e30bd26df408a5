import Oroch.Selection

/-!
# Integer groups

A group keeps one encoded sequence in a buffer of its own: the metadata, padding up
to the next multiple of 8 if the group is aligned, and the data. The buffer is
allocated for the announced sizes and filled by writes that must stay inside it;
its initial content is arbitrary. Decoding starts from the bytes alone.
-/

namespace Oroch

open Cursor

/-- A member function: it returns or throws, and what it did to the object until then
stays. -/
abbrev Method (σ α : Type) := ExceptT Failure (StateM σ) α

/-- A call of a member function on an object. -/
def Method.call {σ α : Type} (f : Method σ α) (self : σ) : Outcome α × σ :=
  (ExceptT.run f).run self

namespace Method

variable {σ α β : Type}

/-- The rest of a function runs on the object that the first part leaves. -/
theorem call_bind {f : Method σ α} {self self' : σ} {a : α} (h : f.call self = (.ok a, self'))
    (k : α → Method σ β) : (f >>= k).call self = (k a).call self' := by
  have run : (ExceptT.run f).run self = (.ok a, self') := h
  rw [call, ExceptT.run_bind, StateT.run_bind, run]
  rfl

@[simp] theorem call_get_bind (k : σ → Method σ β) (self : σ) :
    (get >>= k).call self = (k self).call self := rfl

@[simp] theorem call_set_bind (next : σ) (k : Unit → Method σ β) (self : σ) :
    (set next >>= k).call self = (k ()).call next := rfl

theorem call_lift_bind {x : Outcome α} {a : α} (h : x = .ok a) (k : α → Method σ β) (self : σ) :
    ((liftM x : Method σ α) >>= k).call self = (k a).call self := by
  rw [h]
  rfl

end Method

/-- The content of storage that nothing was written to yet: bytes from the heap and the
elements of a local array. -/
structure Storage (T : IntType) where
  byte : Nat → Byte
  value : Nat → T.Original

def Storage.bytes {T : IntType} (storage : Storage T) (n : Nat) : Bytes :=
  (List.range n).map storage.byte

def Storage.buffer {T : IntType} (storage : Storage T) (n : Nat) : List T.Original :=
  (List.range n).map storage.value

/-- `integer_group`; the pointer is null until something is encoded. -/
structure IntegerGroup (T : IntType) where
  data : Option Bytes
  deriving DecidableEq, Repr

namespace IntegerGroup

variable {T : IntType}

/-- A new object. -/
def fresh (T : IntType) : IntegerGroup T := ⟨none⟩

def alignment : Nat := 8

def alignmentMask : Nat := alignment - 1

/-- `(offset + alignment_mask) & ~alignment_mask` -/
def align (offset : Nat) : Nat :=
  (toSize (offset + alignmentMask) &&& ~~~toSize alignmentMask).toNat

def dataOffset (aligned : Bool) (metaspace : Nat) : Nat :=
  if aligned then align metaspace else metaspace

/-- Bytes written through a pointer at `pos` in the buffer. -/
def write (pos : Nat) (bytes : Bytes) : Method (IntegerGroup T) Unit := do
  match (← get).data with
  | none => throw .undefined
  | some data =>
    if pos + bytes.length ≤ data.length then
      set (⟨some (data.take pos ++ (bytes ++ data.drop (pos + bytes.length)))⟩ : IntegerGroup T)
    else throw .undefined

def encode (storage : Storage T) (src : List T.Original) (aligned : Bool) :
    Method (IntegerGroup T) Unit := do
  let m := IntegerCodec.select (Metadata.fresh T) src
  let offset := dataOffset aligned m.metaspace
  set (⟨some (storage.bytes (offset + m.dataspace))⟩ : IntegerGroup T)
  write 0 m.encode
  let bytes ← IntegerCodec.encode src m
  write offset bytes

/-- The metadata, and the bytes behind the data pointer. -/
def locate (self : IntegerGroup T) (aligned : Bool) : Outcome (Metadata T × Bytes) := do
  match self.data with
  | none => .error .undefined
  | some data =>
    let (m, rest) ← (Metadata.decode (Metadata.fresh T)).run data
    let metaspace := data.length - rest.length
    pure (m, data.drop (dataOffset aligned metaspace))

/-- Decode into `dst`. -/
def decode (self : IntegerGroup T) (dst : List T.Original) (aligned : Bool) :
    Outcome (List T.Original) := do
  let (m, bytes) ← self.locate aligned
  let (dst, _) ← (IntegerCodec.decode dst m).run bytes
  pure dst

/-- The data starts behind the metadata. -/
theorem le_dataOffset (aligned : Bool) {metaspace : Nat} (h : metaspace + 7 < 2 ^ 64) :
    metaspace ≤ dataOffset aligned metaspace := by
  cases aligned with
  | false => exact Nat.le_refl _
  | true =>
    change metaspace ≤ (toSize (metaspace + 7) &&& ~~~toSize 7).toNat
    rw [Slots.toNat_and_not_low (n := 3) _ _ rfl, toNat_toSize h]
    omega

/-- The padding is shorter than the alignment. -/
theorem dataOffset_lt (aligned : Bool) {metaspace : Nat} (h : metaspace + 7 < 2 ^ 64) :
    dataOffset aligned metaspace < metaspace + alignment := by
  cases aligned with
  | false => exact Nat.lt_add_of_pos_right (by decide)
  | true =>
    change (toSize (metaspace + 7) &&& ~~~toSize 7).toNat < metaspace + 8
    rw [Slots.toNat_and_not_low (n := 3) _ _ rfl, toNat_toSize h]
    omega

/-- A write inside the buffer. -/
theorem write_call (pos : Nat) (bytes data : Bytes) (inside : pos + bytes.length ≤ data.length) :
    (write pos bytes).call (⟨some data⟩ : IntegerGroup T) =
      (.ok (), ⟨some (data.take pos ++ (bytes ++ data.drop (pos + bytes.length)))⟩) := by
  rw [write, Method.call_get_bind]
  simp only [if_pos inside]
  rfl

/-- Encoding fills the buffer with the metadata and, at its offset, the data; only the
padding between them keeps its initial content. -/
theorem encode_call (storage : Storage T) (src : List T.Original) (room : src.length < 2 ^ 64)
    (aligned : Bool) (self : IntegerGroup T) :
    ∃ pad bytes, IntegerCodec.encode src (IntegerCodec.select (Metadata.fresh T) src) = .ok bytes ∧
      ((IntegerCodec.select (Metadata.fresh T) src).encode ++ pad).length =
        dataOffset aligned (IntegerCodec.select (Metadata.fresh T) src).metaspace ∧
      (encode storage src aligned).call self =
        (.ok (), ⟨some ((IntegerCodec.select (Metadata.fresh T) src).encode ++
          (pad ++ bytes))⟩) := by
  have described := IntegerCodec.select_describes src room
  obtain ⟨bytes, written, len, -⟩ := IntegerCodec.described_run described room
  have metaspace := described.metaspace
  have small := Metadata.length_encode_le (IntegerCodec.select (Metadata.fresh T) src)
  have behind := le_dataOffset aligned
    (show (IntegerCodec.select (Metadata.fresh T) src).metaspace + 7 < 2 ^ 64 by omega)
  rw [encode]
  generalize IntegerCodec.select (Metadata.fresh T) src = m at *
  generalize dataOffset aligned m.metaspace = offset at *
  have allocated : (storage.bytes (offset + m.dataspace)).length = offset + m.dataspace := by
    simp [Storage.bytes]
  generalize storage.bytes (offset + m.dataspace) = data at allocated
  refine ⟨(data.drop m.encode.length).take (offset - m.encode.length), bytes, written, ?_, ?_⟩
  · simp
    omega
  · have first : (write 0 m.encode).call (⟨some data⟩ : IntegerGroup T) =
        (.ok (), ⟨some (m.encode ++ data.drop m.encode.length)⟩) := by
      rw [write_call 0 m.encode data (by omega), List.take_zero, List.nil_append, Nat.zero_add]
    have second : (write offset bytes).call
          (⟨some (m.encode ++ data.drop m.encode.length)⟩ : IntegerGroup T) =
        (.ok (), ⟨some (m.encode ++
          ((data.drop m.encode.length).take (offset - m.encode.length) ++ bytes))⟩) := by
      have all : offset + bytes.length = (m.encode ++ data.drop m.encode.length).length := by
        rw [List.length_append, List.length_drop]
        omega
      have before : m.encode.take offset = m.encode := List.take_of_length_le (by omega)
      rw [write_call offset bytes _ (Nat.le_of_eq all), all, List.drop_length, List.append_nil,
        List.take_append, before, List.append_assoc]
    rw [Method.call_set_bind, Method.call_bind first, Method.call_lift_bind written, second]

/-- The reader finds the data of whatever the writer laid out: it gets metadata with the
same content and the bytes behind the padding. -/
theorem locate_run {m : Metadata T} {pad bytes : Bytes} {aligned : Bool}
    (expressible : m.Expressible) (metaspace : m.encode.length = m.metaspace)
    (padded : (m.encode ++ pad).length = dataOffset aligned m.metaspace) :
    locate ⟨some (m.encode ++ (pad ++ bytes))⟩ aligned =
      .ok (Metadata.restored (Metadata.fresh T) m, bytes) := by
  have read := Metadata.consumes_decode (Metadata.fresh T) m expressible (pad ++ bytes)
  have consumed : (m.encode ++ (pad ++ bytes)).length - (pad ++ bytes).length = m.metaspace := by
    rw [List.length_append, Nat.add_sub_cancel, metaspace]
  have dropped : (m.encode ++ (pad ++ bytes)).drop (dataOffset aligned m.metaspace) = bytes := by
    rw [← padded, ← List.append_assoc, List.drop_left]
  rw [locate]
  simp only [read, bind, Except.bind, consumed, dropped]
  rfl

/-- The group is what encoding the sequence leaves, up to the content of fresh memory
and of the group before. -/
def Stores (self : IntegerGroup T) (src : List T.Original) (aligned : Bool) : Prop :=
  ∃ storage before, (encode storage src aligned).call before = (.ok (), self)

theorem encode_stores (storage : Storage T) (src : List T.Original) (room : src.length < 2 ^ 64)
    (aligned : Bool) (before : IntegerGroup T) :
    ∃ self, (encode storage src aligned).call before = (.ok (), self) ∧
      self.Stores src aligned := by
  obtain ⟨pad, bytes, -, -, call⟩ := encode_call storage src room aligned before
  exact ⟨_, call, storage, before, call⟩

/-- A stored group, part by part. -/
theorem Stores.data {self : IntegerGroup T} {src : List T.Original} {aligned : Bool}
    (h : self.Stores src aligned) (room : src.length < 2 ^ 64) :
    ∃ pad bytes, self.data =
        some ((IntegerCodec.select (Metadata.fresh T) src).encode ++ (pad ++ bytes)) ∧
      IntegerCodec.encode src (IntegerCodec.select (Metadata.fresh T) src) = .ok bytes ∧
      bytes.length = (IntegerCodec.select (Metadata.fresh T) src).dataspace ∧
      (IntegerCodec.select (Metadata.fresh T) src).metaspace + pad.length =
        dataOffset aligned (IntegerCodec.select (Metadata.fresh T) src).metaspace ∧
      pad.length < alignment := by
  obtain ⟨storage, before, stored⟩ := h
  obtain ⟨pad, bytes, written, padded, call⟩ := encode_call storage src room aligned before
  obtain rfl : _ = self := congrArg Prod.snd (call.symm.trans stored)
  have described := IntegerCodec.select_describes src room
  obtain ⟨bytes', written', len, -⟩ := IntegerCodec.described_run described room
  obtain rfl : bytes' = bytes := Except.ok.inj (written'.symm.trans written)
  have small := Metadata.length_encode_le (IntegerCodec.select (Metadata.fresh T) src)
  have metaspace := described.metaspace
  have offset := dataOffset_lt aligned
    (show (IntegerCodec.select (Metadata.fresh T) src).metaspace + 7 < 2 ^ 64 by omega)
  rw [List.length_append, metaspace] at padded
  exact ⟨pad, bytes', rfl, written', len, padded, by omega⟩

/-- What a reader meets in a stored group: metadata with the content of the selected ones,
and the encoded values. -/
theorem Stores.locate_selected {self : IntegerGroup T} {src : List T.Original} {aligned : Bool}
    (h : self.Stores src aligned) (room : src.length < 2 ^ 64) :
    ∃ k bytes, (IntegerCodec.select (Metadata.fresh T) src).Agrees k ∧
      IntegerCodec.encode src (IntegerCodec.select (Metadata.fresh T) src) = .ok bytes ∧
      self.locate aligned = .ok (k, bytes) := by
  obtain ⟨storage, before, stored⟩ := h
  have described := IntegerCodec.select_describes src room
  obtain ⟨pad, bytes, written, padded, call⟩ := encode_call storage src room aligned before
  obtain rfl : _ = self := congrArg Prod.snd (call.symm.trans stored)
  exact ⟨_, bytes, Metadata.agrees_restored _ _, written,
    locate_run described.expressible described.metaspace padded⟩

theorem Stores.locate {self : IntegerGroup T} {src : List T.Original} {aligned : Bool}
    (h : self.Stores src aligned) (room : src.length < 2 ^ 64) :
    ∃ m k bytes, IntegerCodec.Describes m src ∧ m.Agrees k ∧
      IntegerCodec.encode src m = .ok bytes ∧ self.locate aligned = .ok (k, bytes) := by
  obtain ⟨k, bytes, agrees, written, located⟩ := h.locate_selected room
  exact ⟨_, k, bytes, IntegerCodec.select_describes src room, agrees, written, located⟩

theorem Stores.decode {self : IntegerGroup T} {src dst : List T.Original} {aligned : Bool}
    (h : self.Stores src aligned) (room : src.length < 2 ^ 64) (same : dst.length = src.length) :
    self.decode dst aligned = .ok src := by
  obtain ⟨m, k, bytes, described, agrees, written, located⟩ := h.locate room
  obtain ⟨bytes', written', -, read⟩ := IntegerCodec.described_run described room
  obtain rfl : bytes' = bytes := Except.ok.inj (written'.symm.trans written)
  have back := read k dst agrees same []
  rw [List.append_nil] at back
  rw [IntegerGroup.decode, located]
  simp only [bind, Except.bind, back]
  rfl

/-- The whole format: a group decodes to the sequence it was encoded from, for every
type, sequence and alignment, whatever the memory and the destination held. -/
theorem group_round_trip (s : Sequence T) (aligned : Bool) (storage : Storage T)
    (before : IntegerGroup T) :
    ∃ self, (encode storage s.vals aligned).call before = (.ok (), self) ∧
      ∀ dst : List T.Original, dst.length = s.vals.length →
        self.decode dst aligned = .ok s.vals := by
  obtain ⟨self, call, stores⟩ := encode_stores storage s.vals s.length_lt aligned before
  exact ⟨self, call, fun dst same => stores.decode s.length_lt same⟩

end IntegerGroup

end Oroch
