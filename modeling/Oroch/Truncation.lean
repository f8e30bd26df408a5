import Oroch.IntegerGroup
import Oroch.Library.Lookahead
import Oroch.SelectionBounds

/-!
# Cutting encodings short

None of the decoders looks at a byte that it does not consume, whatever the bytes. Since
they consume all that the encoders write, a buffer that lacks the last byte of its data is
read behind its end: no encoding is the beginning of another one, and an allocated group
has no byte too many.
-/

namespace Oroch

open Cursor

section Values

variable {T : IntType} {V : Type} [ValueCodec T V]

theorem local_next : Local Failure.undefined next := local_item

theorem local_loadInt (T : IntType) : Local Failure.undefined (loadInt T) :=
  (local_times local_next _).map _

theorem VarintCodec.local_decodeLoop (value : T.Unsigned) (shift : Nat) :
    Local Failure.undefined (VarintCodec.decodeLoop T value shift) := by
  intro xs
  induction xs generalizing value shift with
  | nil => exact .inr (.inl rfl)
  | cons b xs ih =>
    by_cases low : b.toNat < 128
    · exact .inl ⟨[b], xs, _, rfl, fun rest => VarintCodec.decodeLoop_last low value shift rest⟩
    · have more := VarintCodec.decodeLoop_more (T := T) (Nat.le_of_not_lt low) value shift
      rcases ih (value ||| BitVec.ofNat T.nbits (b.toNat % 128) <<< shift) (shift + 7) with
        ⟨front, rest, a, rfl, read⟩ | ended | ⟨e, fails⟩
      · exact .inl ⟨b :: front, rest, a, rfl, fun rest => (more _).trans (read rest)⟩
      · exact .inr (.inl ((more xs).trans ended))
      · exact .inr (.inr ⟨e, fun ys => (more _).trans (fails ys)⟩)

theorem VarintCodec.local_valueDecode (vcodec : V) :
    Local Failure.undefined (VarintCodec.valueDecode vcodec) := by
  have same : VarintCodec.decodeUnsigned T = VarintCodec.decodeLoop T 0 0 :=
    funext VarintCodec.decodeUnsigned_eq_loop
  rw [VarintCodec.valueDecode, same]
  exact (VarintCodec.local_decodeLoop 0 0).map _

theorem BitpckCodec.local_blockDecodeUntil (k nbits : Nat) (vcodec : V) :
    Local Failure.undefined (BitpckCodec.blockDecodeUntil k nbits vcodec) := by
  refine (local_loadInt sizeT).bind fun u => (local_loadInt sizeT).bind fun v => ?_
  exact local_ite (local_pure _) (local_pure _)

theorem BitpckCodec.local_blockDecode (nbits : Nat) (vcodec : V) :
    Local Failure.undefined (BitpckCodec.blockDecode nbits vcodec) := by
  refine (local_loadInt sizeT).bind fun u => (local_loadInt sizeT).bind fun v => ?_
  exact local_ite (local_pure _) (local_pure _)

theorem BitpckCodec.local_decode (n nbits : Nat) (vcodec : V) :
    Local Failure.undefined (BitpckCodec.decode n nbits vcodec) := by
  induction n using Nat.strongRecOn with
  | ind n ih =>
    rw [BitpckCodec.decode]
    by_cases empty : BitpckCodec.capacity nbits = 0
    · rw [dif_pos empty]
      exact fun xs => .inr (.inl rfl)
    · rw [dif_neg empty]
      by_cases short : n < BitpckCodec.capacity nbits
      · rw [dif_pos short]
        exact local_ite (BitpckCodec.local_blockDecodeUntil n nbits vcodec) (local_pure [])
      · rw [dif_neg short]
        refine (BitpckCodec.local_blockDecode nbits vcodec).bind fun us => ?_
        exact (ih (n - BitpckCodec.capacity nbits) (by omega)).map _

end Values

namespace Metadata

variable {T : IntType}

theorem local_decodeFields (desc : Descriptor T) :
    Local Failure.undefined (decodeFields desc) := by
  have origin := VarintCodec.local_valueDecode (ZigzagCodec.mk (T := T))
  rw [decodeFields]
  split
  · exact origin.map _
  · exact origin.map _
  · exact local_pure desc
  · exact local_pure desc
  · exact origin.bind fun _ => local_next.map _
  · exact origin.bind fun _ => local_next.map _
  · exact local_next.map _
  · exact local_pure desc

theorem local_decodeExtra (desc : Descriptor T) : Local Failure.undefined (decodeExtra desc) := by
  exact local_next.bind fun _ => local_ite (local_pure _) (local_pure _)

theorem local_decode (m : Metadata T) : Local Failure.undefined (decode m) := by
  refine (local_next.bind fun _ => local_decodeFields _).bind fun valueDesc => ?_
  exact local_ite ((VarintCodec.local_valueDecode _).bind fun _ =>
    (local_decodeExtra _).bind fun _ => (local_decodeExtra _).map _) (local_pure _)

end Metadata

namespace IntegerCodec

variable {T : IntType}

theorem local_decodeBasic (dst : List T.Original) (desc : Descriptor T) :
    Local Failure.undefined (decodeBasic dst desc) := by
  rw [decodeBasic]
  split
  · exact local_lift _
  · exact local_pure _
  · exact local_times (local_loadInt T) _
  · exact local_times (VarintCodec.local_valueDecode _) _
  · exact local_times (VarintCodec.local_valueDecode _) _
  · exact BitpckCodec.local_decode _ _ _
  · exact BitpckCodec.local_decode _ _ _
  · exact local_pure dst

theorem local_decode (dst : List T.Original) (m : Metadata T) :
    Local Failure.undefined (decode dst m) := by
  exact local_ite ((BitpckCodec.local_decode _ _ _).bind fun _ =>
    (local_decodeBasic _ _).bind fun _ => (local_decodeBasic _ _).bind fun _ => local_lift _)
    (local_decodeBasic dst m.valueDesc)

end IntegerCodec

namespace IntegerGroup

variable {T : IntType}

/-- The metadata cannot be cut short. -/
theorem locate_of_short {m : Metadata T} (expressible : m.Expressible) (aligned : Bool)
    {data : Bytes} (front : data <+: m.encode) (short : data.length < m.encode.length) :
    locate (⟨some data⟩ : IntegerGroup T) aligned = .error .undefined := by
  have ended := (Metadata.local_decode (Metadata.fresh T)).run_of_short
    (Metadata.consumes_decode (Metadata.fresh T) m expressible) front short
  rw [locate]
  simp only [ended]
  rfl

/-- The bytes behind the data pointer, in a buffer cut behind the metadata. -/
theorem locate_of_cut {m : Metadata T} {pad : Bytes} (bytes : Bytes) {aligned : Bool}
    (expressible : m.Expressible) (metaspace : m.encode.length = m.metaspace)
    (padded : (m.encode ++ pad).length = dataOffset aligned m.metaspace) {k : Nat}
    (behind : m.metaspace ≤ k) :
    locate ⟨some ((m.encode ++ (pad ++ bytes)).take k)⟩ aligned =
      .ok (Metadata.restored (Metadata.fresh T) m,
        bytes.take (k - dataOffset aligned m.metaspace)) := by
  have cut : (m.encode ++ (pad ++ bytes)).take k =
      m.encode ++ (pad ++ bytes).take (k - m.metaspace) := by
    rw [List.take_append, List.take_of_length_le (metaspace ▸ behind), metaspace]
  have read := Metadata.consumes_decode (Metadata.fresh T) m expressible
    ((pad ++ bytes).take (k - m.metaspace))
  have consumed : (m.encode ++ (pad ++ bytes).take (k - m.metaspace)).length -
      ((pad ++ bytes).take (k - m.metaspace)).length = m.metaspace := by
    rw [List.length_append, Nat.add_sub_cancel, metaspace]
  have dropped : (m.encode ++ (pad ++ bytes).take (k - m.metaspace)).drop
      (dataOffset aligned m.metaspace) = bytes.take (k - dataOffset aligned m.metaspace) := by
    rw [← cut, List.drop_take, ← padded, ← List.append_assoc, List.drop_left]
  rw [locate, cut]
  simp only [read, bind, Except.bind, consumed, dropped]
  rfl

/-- A buffer of a group holds no byte too many: cut anywhere before its end it is read
behind the end, but for a group without data, which can lose its padding. -/
theorem truncated_decode (s : Sequence T) (aligned : Bool) (storage : Storage T)
    (before : IntegerGroup T) :
    let m := IntegerCodec.select (Metadata.fresh T) s.vals
    ∃ data, (encode storage s.vals aligned).call before = (.ok (), ⟨some data⟩) ∧
      data.length = dataOffset aligned m.metaspace + m.dataspace ∧
      ∀ k ≤ data.length, ∀ dst : List T.Original, dst.length = s.vals.length →
        decode ⟨some (data.take k)⟩ dst aligned =
          if k = data.length ∨ (m.dataspace = 0 ∧ m.metaspace ≤ k) then .ok s.vals
          else .error .undefined := by
  simp only
  have described := IntegerCodec.select_describes s.vals s.length_lt
  obtain ⟨pad, bytes, written, padded, call⟩ := encode_call storage s.vals s.length_lt aligned before
  obtain ⟨bytes', written', len, read⟩ := IntegerCodec.described_run described s.length_lt
  obtain rfl : bytes' = bytes := Except.ok.inj (written'.symm.trans written)
  have metaspace := described.metaspace
  generalize IntegerCodec.select (Metadata.fresh T) s.vals = m at *
  have total : (m.encode ++ (pad ++ bytes')).length =
      dataOffset aligned m.metaspace + m.dataspace := by
    rw [← List.append_assoc, List.length_append, padded, len]
  have offset : m.metaspace ≤ dataOffset aligned m.metaspace := by
    rw [← padded, List.length_append, metaspace]
    omega
  refine ⟨_, call, total, ?_⟩
  intro k within dst same
  by_cases behind : m.metaspace ≤ k
  · have located := locate_of_cut bytes' described.expressible metaspace padded behind
    have whole := read _ dst (Metadata.agrees_restored (Metadata.fresh T) m) same
    rw [IntegerGroup.decode, located]
    simp only [bind, Except.bind]
    by_cases cut : k - dataOffset aligned m.metaspace < bytes'.length
    · have ended := (IntegerCodec.local_decode dst _).run_of_short whole
        (List.take_prefix (k - dataOffset aligned m.metaspace) bytes')
        (by rw [List.length_take]; omega)
      rw [ended, if_neg (by omega)]
    · have all := whole []
      rw [List.append_nil] at all
      rw [List.take_of_length_le (Nat.le_of_not_lt cut), all, if_pos (by omega)]
      rfl
  · have short : (m.encode ++ (pad ++ bytes')).take k = m.encode.take k := by
      rw [List.take_append_of_le_length (by omega)]
    have nowhere := locate_of_short described.expressible aligned (List.take_prefix k m.encode)
      (by rw [List.length_take]; omega)
    rw [IntegerGroup.decode, short, nowhere, if_neg (by omega)]
    rfl

end IntegerGroup

/-- A sequence with its type. -/
structure Segment where
  type : IntType
  vals : Sequence type

namespace Segment

/-- What a reader has to know of a segment. -/
def shape (s : Segment) : IntType × Nat := ⟨s.type, s.vals.vals.length⟩

def content (s : Segment) : (T : IntType) × List T.Original := ⟨s.type, s.vals.vals⟩

def selected (s : Segment) : Metadata s.type :=
  IntegerCodec.select (Metadata.fresh s.type) s.vals.vals

/-- The metadata and the data, written through one pointer. -/
def write (s : Segment) : Outcome Bytes := IntegerCodec.written s.selected s.vals.vals

/-- All segments, through one pointer. -/
def writeAll : List Segment → Outcome Bytes
  | [] => .ok []
  | s :: segments => do
    let bytes ← s.write
    let later ← writeAll segments
    pure (bytes ++ later)

/-- The metadata, read into a new object, and as many values as there are slots. -/
def read (shape : IntType × Nat) : ByteReader ((T : IntType) × List T.Original) := do
  let m ← Metadata.decode (Metadata.fresh shape.1)
  let vals ← IntegerCodec.decode (List.replicate shape.2 0) m
  pure ⟨shape.1, vals⟩

def readAll : List (IntType × Nat) → ByteReader (List ((T : IntType) × List T.Original))
  | [] => pure []
  | shape :: shapes => do
    let first ← read shape
    let rest ← readAll shapes
    pure (first :: rest)

def size (s : Segment) : Nat := s.selected.metaspace + s.selected.dataspace

theorem write_run (s : Segment) :
    ∃ bytes, s.write = .ok bytes ∧ bytes.length = s.size ∧
      Consumes (read s.shape) bytes s.content := by
  have described := IntegerCodec.select_describes s.vals.vals s.vals.length_lt
  obtain ⟨bytes, written, len, back⟩ := IntegerCodec.described_run described s.vals.length_lt
  have head := Metadata.consumes_decode (Metadata.fresh s.type) _ described.expressible
  have data := back _ (List.replicate s.vals.vals.length 0)
    (Metadata.agrees_restored (Metadata.fresh s.type) _) (List.length_replicate ..)
  refine ⟨s.selected.encode ++ bytes, ?_, ?_, head.bind (data.map _)⟩
  · rw [write, IntegerCodec.written, selected, written]
    rfl
  · rw [List.length_append, size, selected, described.metaspace, len]

theorem writeAll_run (segments : List Segment) :
    ∃ bytes, writeAll segments = .ok bytes ∧ bytes.length = (segments.map size).sum ∧
      Consumes (readAll (segments.map shape)) bytes (segments.map content) := by
  induction segments with
  | nil => exact ⟨[], rfl, rfl, consumes_pure []⟩
  | cons s segments ih =>
    obtain ⟨bytes, written, len, back⟩ := s.write_run
    obtain ⟨later, written', len', back'⟩ := ih
    refine ⟨bytes ++ later, ?_, ?_, back.bind (back'.map _)⟩
    · rw [writeAll, written, written']
      rfl
    · rw [List.length_append, len, len', List.map_cons, List.sum_cons]

theorem local_readAll (shapes : List (IntType × Nat)) :
    Local Failure.undefined (readAll shapes) := by
  induction shapes with
  | nil => exact local_pure []
  | cons shape shapes ih =>
    have first : Local Failure.undefined (read shape) :=
      (Metadata.local_decode _).bind fun m => (IntegerCodec.local_decode _ m).map _
    exact first.bind fun _ => ih.map _

/-- Sequences of any types, written behind each other, take the announced bytes and are
read back from their types and lengths alone, whatever follows; with a byte less they are
not. -/
theorem segments_round_trip (segments : List Segment) :
    ∃ bytes, writeAll segments = .ok bytes ∧ bytes.length = (segments.map size).sum ∧
      (∀ rest, (readAll (segments.map shape)).run (bytes ++ rest) =
        .ok (segments.map content, rest)) ∧
      ∀ k < bytes.length,
        (readAll (segments.map shape)).run (bytes.take k) = .error .undefined := by
  obtain ⟨bytes, written, len, back⟩ := writeAll_run segments
  refine ⟨bytes, written, len, back, ?_⟩
  intro k short
  exact (local_readAll _).run_of_short back (List.take_prefix k bytes)
    (by rw [List.length_take]; omega)

/-- The bytes determine the values: no list of segments is written as the beginning of what
is written for another one of the same shapes. -/
theorem segments_prefix_free {segments segments' : List Segment}
    (shapes : segments.map shape = segments'.map shape) {bytes bytes' rest rest' : Bytes}
    (written : writeAll segments = .ok bytes) (written' : writeAll segments' = .ok bytes')
    (same : bytes ++ rest = bytes' ++ rest') :
    segments.map content = segments'.map content ∧ bytes = bytes' ∧ rest = rest' := by
  obtain ⟨bs, write, -, back⟩ := writeAll_run segments
  obtain ⟨bs', write', -, back'⟩ := writeAll_run segments'
  obtain rfl : bs = bytes := Except.ok.inj (write.symm.trans written)
  obtain rfl : bs' = bytes' := Except.ok.inj (write'.symm.trans written')
  rw [← shapes] at back'
  obtain ⟨front, contents, behind⟩ := back.prefix_free back' same
  exact ⟨contents, front, behind⟩

/-- Two segments with data, given in two ways: with bytes behind them their bytes are equal.
Where a value differs, neither is the beginning of the other. -/
theorem segments_prefix_free_int32 :
    let segments : List Segment := [⟨int32, ⟨[1, -1, 300], by decide⟩⟩,
      ⟨⟨.w8, false⟩, ⟨[200, 100], by decide⟩⟩]
    let reversed : List Segment := [⟨int32, ⟨[300, -1, 1].reverse, by decide⟩⟩,
      ⟨⟨.w8, false⟩, ⟨[100, 200].reverse, by decide⟩⟩]
    let other : List Segment := [⟨int32, ⟨[1, -1, 300], by decide⟩⟩,
      ⟨⟨.w8, false⟩, ⟨[200, 101], by decide⟩⟩]
    writeAll segments = .ok [2, 2, 1, 0xd8, 4, 1, 200, 100] ∧
      segments.map content = reversed.map content ∧
      ∃ bytes, writeAll other = .ok bytes ∧
        ¬ bytes <+: [2, 2, 1, 0xd8, 4, 1, 200, 100, 9, 9] := by
  intro segments reversed other
  have written : writeAll segments = .ok [2, 2, 1, 0xd8, 4, 1, 200, 100] := by decide +kernel
  have written' : writeAll reversed = .ok [2, 2, 1, 0xd8, 4, 1, 200, 100] := by decide +kernel
  have same : ([2, 2, 1, 0xd8, 4, 1, 200, 100] : Bytes) ++ [9, 9] =
      [2, 2, 1, 0xd8, 4, 1, 200, 100] ++ [9, 9] := rfl
  have shapes : segments.map shape = reversed.map shape := rfl
  obtain ⟨contents, -⟩ := segments_prefix_free shapes written written' same
  obtain ⟨bytes, changed, -⟩ := writeAll_run other
  refine ⟨written, contents, bytes, changed, ?_⟩
  rintro ⟨rest, front⟩
  have alike : other.map shape = segments.map shape := rfl
  have behind : bytes ++ rest = [2, 2, 1, 0xd8, 4, 1, 200, 100] ++ [9, 9] := front
  obtain ⟨equal, -⟩ := segments_prefix_free alike changed written behind
  have values : ([200, 101] : List (IntType.mk .w8 false).Original) = [200, 100] := by
    simpa [other, segments, content] using equal
  exact absurd values (by decide)

end Segment

end Oroch
