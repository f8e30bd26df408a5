import Oroch.AllocationFailures
import Oroch.ArrayRuns

/-!
# What a failed insertion leaves

An insertion that runs out of memory stops with an element in hand. Until it has changed
the first group nothing is lost; later the element in hand is. A group whose outliers
cannot be noted loses its bytes, and a tail that cannot be made a group stays as long as
one. An insertion that returns has done what the insertion of the array does.
-/

namespace Oroch

namespace Failing

open Attempt Chunks

variable {T : IntType} (fails : Point → Bool)

/-- The first blocks of a patched encoding fit the announced space. -/
theorem length_blocks_le {m : Metadata T} {src : List T.Original}
    (described : IntegerCodec.Describes m src) (patched : m.valueDesc.encoding = .bitpfr)
    (written : Nat) :
    ((BitpfrCodec.encode src (BitpfrCodec.Parameters.init m.valueDesc.origin m.valueDesc.nbits
      (BitpfrCodec.Exceptions.fresh T))).1.take written).length ≤ m.dataspace := by
  rcases described.suits with ⟨fits, -⟩ | ⟨fits, space⟩
  · exact absurd patched fits.not_patched
  · obtain ⟨bytes, run, len, -⟩ := BitpfrCodec.encode_run fits.width.1 fits.width.2
      m.valueDesc.origin src
    rw [run, space, IntegerCodec.patchedSpace, ← len]
    simp only [List.length_take]
    omega

/-- The buffer with the metadata, before the data is written. -/
theorem metadata_written (storage : Storage T) {m : Metadata T} {src : List T.Original}
    (described : IntegerCodec.Describes m src) (aligned : Bool) :
    let offset := IntegerGroup.dataOffset aligned m.metaspace
    ∃ data : Bytes, data.length = offset + m.dataspace ∧
      (IntegerGroup.write 0 m.encode).call
        (⟨some (storage.bytes (offset + m.dataspace))⟩ : IntegerGroup T) =
          (.ok (), ⟨some data⟩) := by
  intro offset
  have metaspace := described.metaspace
  have small := Metadata.length_encode_le m
  have behind : m.metaspace ≤ offset :=
    IntegerGroup.le_dataOffset aligned (show m.metaspace + 7 < 2 ^ 64 by omega)
  have allocated : (storage.bytes (offset + m.dataspace)).length = offset + m.dataspace := by
    simp [Storage.bytes]
  have call := IntegerGroup.write_call (T := T) 0 m.encode
    (storage.bytes (offset + m.dataspace)) (by omega)
  refine ⟨_, ?_, call⟩
  simp only [List.take_zero, List.nil_append, List.length_append, List.length_drop, allocated]
  omega

/-- A group keeps its bytes when there is no memory for new ones; it loses them when the
outliers cannot be noted. -/
theorem encode_outcome (group : Nat) (storage : Storage T) {src : List T.Original}
    (room : src.length < 2 ^ 64) (aligned : Bool) (self : IntegerGroup T) :
    fails (.buffer group) = true ∧ (encode fails group storage src aligned).call self =
        (.error (.badAlloc (.buffer group)), self) ∨
      (∃ position data, fails (.outliers group position) = true ∧
        (encode fails group storage src aligned).call self =
          (.error (.badAlloc (.outliers group position)), ⟨some data⟩)) ∨
      ∃ self', ¬ fails (.buffer group) = true ∧
        (encode fails group storage src aligned).call self = (.ok (), self') ∧
        (IntegerGroup.encode storage src aligned).call self = (.ok (), self') := by
  obtain ⟨self', returns, -⟩ := IntegerGroup.encode_stores storage src room aligned self
  have described := IntegerCodec.select_describes src room
  obtain ⟨data, len, first⟩ := metadata_written storage described aligned
  have rest := returns
  rw [IntegerGroup.encode, Method.call_set_bind, Method.call_bind first] at rest
  by_cases none_left : fails (.buffer group) = true
  · exact Or.inl ⟨none_left, allocate_fails none_left _ self⟩
  right
  rw [encode, allocate_succeeds none_left, call_set_bind, call_bind (call_lift first), encodeData]
  simp only
  split
  · rename_i position found
    left
    have patched : (IntegerCodec.select (Metadata.fresh T) src).valueDesc.encoding = .bitpfr := by
      by_contra basic
      rw [if_neg basic] at found
      exact absurd found (by simp)
    have inside := length_blocks_le described patched
    have failed := List.find?_some (p := fun position => fails (.outliers group position)) found
    have second (written : Nat) := IntegerGroup.write_call (T := T) _ _ data
      (Nat.le_trans (Nat.add_le_add_left (inside written) _) (Nat.le_of_eq len.symm))
    exact ⟨position, _, failed, call_bind (call_lift (second _)) _⟩
  · right
    exact ⟨self', none_left, call_lift rest, returns⟩

theorem decode_outcome (group : Nat) (storage : Storage T) {self : IntegerGroup T}
    {src : List T.Original} (stored : self.Stores src true) (full : src.length = groupSize) :
    fails (.resize group) = true ∧
        (decode fails group (storage.buffer groupSize) true).call self =
          (.error (.badAlloc (.resize group)), self) ∨
      (decode fails group (storage.buffer groupSize) true).call self = (.ok src, self) := by
  obtain ⟨k, bytes, -, -, located⟩ := stored.locate_selected (room_of_full full)
  have decoded := call_lift_outcome (stored.decode_buffer full storage) self
  rw [decode, call_get_bind, call_bind (call_lift_outcome located self)]
  simp only
  split
  · by_cases none_left : fails (.resize group) = true
    · exact Or.inl ⟨none_left, allocate_fails none_left _ self⟩
    · rw [allocate_succeeds none_left]
      exact Or.inr decoded
  · exact Or.inr decoded

/-- A call on the group behind `before`, whether it returns or throws. -/
theorem onGroup_call {α : Type} {f : Attempt (IntegerGroup T) α} {g g' : IntegerGroup T}
    {result : Except Fault α} (h : f.call g = (result, g')) (tail : List T.Original)
    (before later : List (IntegerGroup T)) :
    (onGroup before.length f).call ⟨tail, before ++ g :: later⟩ =
      (result, ⟨tail, before ++ g' :: later⟩) := by
  have found : (before ++ g :: later)[before.length]? = some g := by simp
  have stored : (before ++ g :: later).set before.length g' = before ++ g' :: later := by simp
  rw [onGroup, call_get_bind]
  simp only [found, h, stored]
  cases result with
  | error e => rfl
  | ok a => rfl

/-- Where the loop stops, from the group `first` on, and what the groups hold then: the one
it stops at keeps its chunk, or its bytes are lost. -/
inductive Stopped (chunks : List (List T.Original)) (index : Nat) (value : T.Original)
    (first : Nat) : Point → List (IntegerGroup T) → Prop
  | kept {k : Nat} {point : Point} {later : List (IntegerGroup T)} (inside : k < chunks.length)
      (place : point = .resize (first + k) ∨ point = .buffer (first + k))
      (stores : List.Forall₂ (fun g chunk => g.Stores chunk true) later
        (rippled chunks k index value)) : Stopped chunks index value first point later
  | lost {k position : Nat} {good : List (IntegerGroup T)} (data : Bytes)
      (inside : k < chunks.length)
      (stores : List.Forall₂ (fun g chunk => g.Stores chunk true) good
        (rippled chunks k index value)) :
      Stopped chunks index value first (.outliers (first + k) position) (good.set k ⟨some data⟩)

/-- A loop that stops behind its first group. -/
theorem Stopped.cons {g : IntegerGroup T} {chunk : List T.Original}
    {chunks : List (List T.Original)} {index first : Nat} {value : T.Original} {point : Point}
    {later : List (IntegerGroup T)} (stored : g.Stores (push chunk index value).1 true)
    (h : Stopped chunks 0 (push chunk index value).2 (first + 1) point later) :
    Stopped (chunk :: chunks) index value first point (g :: later) := by
  cases h with
  | @kept k _ _ inside place stores =>
    rw [Nat.add_right_comm, Nat.add_assoc] at place
    exact .kept (k := k + 1) (Nat.succ_lt_succ inside) place (.cons stored stores)
  | @lost k position good data inside stores =>
    rw [Nat.add_right_comm, Nat.add_assoc]
    exact @Stopped.lost T (chunk :: chunks) index value first (k + 1) position (g :: good) data
      (Nat.succ_lt_succ inside) (.cons stored stores)

/-- One group: the loop stops at it, or goes on as the loop of the array does. -/
theorem insertLoop_step (storage : Nat → Storage T) (tail : List T.Original)
    {g : IntegerGroup T} {chunk : List T.Original} {chunks : List (List T.Original)}
    (stored : g.Stores chunk true) (full : chunk.length = groupSize)
    (before : List (IntegerGroup T)) {later : List (IntegerGroup T)}
    (stores : List.Forall₂ (fun g chunk => g.Stores chunk true) later chunks) {index : Nat}
    (inside : index < groupSize) (value : T.Original) :
    (∃ point later', fails point = true ∧
      (insertLoop fails storage (later.length + 1) before.length index value).call
        ⟨tail, before ++ g :: later⟩ = (.error (.badAlloc point), ⟨tail, before ++ later'⟩) ∧
      Stopped (chunk :: chunks) index value before.length point later') ∨
    ∃ g', ¬ fails (.buffer before.length) = true ∧
      (IntegerGroup.encode (storage before.length) (push chunk index value).1 true).call g =
        (.ok (), g') ∧
      (insertLoop fails storage (later.length + 1) before.length index value).call
          ⟨tail, before ++ g :: later⟩ =
        (insertLoop fails storage later.length (before ++ [g']).length 0
          (push chunk index value).2).call ⟨tail, (before ++ [g']) ++ later⟩ := by
  obtain ⟨pushed, carried⟩ := IntegerArray.copyBackward_push value full inside
  have size := (Chunks.push_eq value (show index ≤ chunk.length by omega)).2
  have positive : 0 < (chunk :: chunks).length := Nat.zero_lt_succ _
  have same : List.Forall₂ (fun g chunk => g.Stores chunk true) (g :: later)
      (rippled (chunk :: chunks) 0 index value) := .cons stored stores
  rw [insertLoop]
  rcases decode_outcome fails before.length (storage before.length) stored full with
    ⟨failed, stopped⟩ | decoded
  · left
    refine ⟨_, _, failed, call_bind_error (onGroup_call stopped tail before later) _, ?_⟩
    exact .kept positive (Or.inl rfl) same
  · rw [call_bind (onGroup_call decoded tail before later), carried]
    simp only [pushed]
    rcases encode_outcome fails before.length (storage before.length)
      (room_of_full (size.trans full)) true g with
      ⟨failed, stopped⟩ | ⟨position, data, failed, stopped⟩ | ⟨g', spared, returned, encoded⟩
    · left
      refine ⟨_, _, failed, call_bind_error (onGroup_call stopped tail before later) _, ?_⟩
      exact .kept positive (Or.inr rfl) same
    · left
      refine ⟨_, _, failed, call_bind_error (onGroup_call stopped tail before later) _, ?_⟩
      exact .lost data positive same
    · right
      refine ⟨g', spared, encoded, ?_⟩
      rw [call_bind (onGroup_call returned tail before later), List.append_assoc,
        List.length_append]
      rfl

/-- The loop stops at one of its groups, or does what the loop of the array does. -/
theorem insertLoop_outcome (storage : Nat → Storage T) (tail : List T.Original)
    {later : List (IntegerGroup T)} {chunks : List (List T.Original)}
    (stores : List.Forall₂ (fun g chunk => g.Stores chunk true) later chunks)
    (full : ∀ chunk ∈ chunks, chunk.length = groupSize) (before : List (IntegerGroup T))
    {index : Nat} (inside : index < groupSize) (value : T.Original) :
    (∃ point later', fails point = true ∧
      (insertLoop fails storage later.length before.length index value).call
        ⟨tail, before ++ later⟩ = (.error (.badAlloc point), ⟨tail, before ++ later'⟩) ∧
      Stopped chunks index value before.length point later') ∨
    ∃ later', (∀ k, k < chunks.length → ¬ fails (.buffer (before.length + k)) = true) ∧
      List.Forall₂ (fun g chunk => g.Stores chunk true) later' (ripple chunks index value).1 ∧
      (insertLoop fails storage later.length before.length index value).call
        ⟨tail, before ++ later⟩ = (.ok (ripple chunks index value).2, ⟨tail, before ++ later'⟩) ∧
      (IntegerArray.insertLoop storage later.length before.length index value).call
          ⟨tail, before ++ later⟩ =
        (.ok (ripple chunks index value).2, ⟨tail, before ++ later'⟩) := by
  induction stores generalizing before index value with
  | nil => exact Or.inr ⟨[], fun k hk => absurd hk (Nat.not_lt_zero k), .nil, rfl, rfl⟩
  | @cons g chunk later chunks stored stores ih =>
    have len : chunk.length = groupSize := full chunk List.mem_cons_self
    rcases insertLoop_step fails storage tail stored len before stores inside value with
      stopped | ⟨g', spared, encoded, next⟩
    · exact Or.inl stopped
    · have stored' : g'.Stores (push chunk index value).1 true := ⟨_, _, encoded⟩
      rw [List.length_cons, next,
        IntegerArray.insertLoop_step storage tail stored len before later inside encoded]
      rcases ih (fun c hc => full c (List.mem_cons_of_mem _ hc)) (before ++ [g'])
        groupSize_pos (push chunk index value).2 with
        ⟨point, later', failed, throws, stopped⟩ | ⟨later', others, stores', returned, rest⟩
      · left
        rw [List.length_append] at stopped
        refine ⟨point, g' :: later', failed, throws.trans ?_, stopped.cons stored'⟩
        rw [List.append_assoc]
        rfl
      · right
        rw [returned, rest, List.append_assoc]
        refine ⟨g' :: later', ?_, .cons stored' stores', rfl, rfl⟩
        intro k hk
        cases k with
        | zero => exact spared
        | succ k =>
          have other := others k (Nat.lt_of_succ_lt_succ hk)
          rwa [List.length_append, List.length_singleton, Nat.add_assoc, Nat.add_comm 1 k] at other

/-- The array when a tail that is full cannot become a group. -/
inductive Unsealed (tail : List T.Original) (groups : List (IntegerGroup T)) :
    Point → IntegerArray T → Prop
  | groups : Unsealed tail groups .groups ⟨tail, groups⟩
  | buffer : Unsealed tail groups (.buffer groups.length) ⟨tail, groups ++ [.fresh T]⟩
  | outliers (position : Nat) (data : Bytes) :
    Unsealed tail groups (.outliers groups.length position) ⟨tail, groups ++ [⟨some data⟩]⟩

/-- A tail that stays open grows. -/
theorem insertTail_open (storage : Storage T) {tail : List T.Original} {index : Nat}
    (inside : index ≤ tail.length) {value : T.Original} (grown : ¬ fails .tail = true)
    (short : (tail.insertIdx index value).length ≠ groupSize) (groups : List (IntegerGroup T)) :
    (insertTail fails storage groups.length index value).call ⟨tail, groups⟩ =
      (.ok (), ⟨tail.insertIdx index value, groups⟩) := by
  rw [insertTail, call_get_bind]
  simp only [if_neg (Nat.not_lt.mpr inside)]
  rw [allocate_succeeds grown]
  simp only [if_neg short]
  rfl

/-- A tail that is full stays one when there is no memory for another group. -/
theorem insertTail_stops (storage : Storage T) {tail : List T.Original} {index : Nat}
    (inside : index ≤ tail.length) {value : T.Original} (grown : ¬ fails .tail = true)
    (filled : (tail.insertIdx index value).length = groupSize)
    (none_left : fails .groups = true) (groups : List (IntegerGroup T)) :
    (insertTail fails storage groups.length index value).call ⟨tail, groups⟩ =
      (.error (.badAlloc .groups), ⟨tail.insertIdx index value, groups⟩) := by
  rw [insertTail, call_get_bind]
  simp only [if_neg (Nat.not_lt.mpr inside)]
  rw [allocate_succeeds grown]
  simp only [if_pos filled, call_set_bind]
  exact allocate_fails none_left _ _

/-- The tail does not grow, or is not made a group, or the rest of the insertion is that of
the array. -/
theorem insertTail_outcome (storage : Storage T) {tail : List T.Original} {index : Nat}
    (inside : index ≤ tail.length) (value : T.Original) (groups : List (IntegerGroup T)) :
    (fails .tail = true ∧
      (insertTail fails storage groups.length index value).call ⟨tail, groups⟩ =
        (.error (.badAlloc .tail), ⟨tail, groups⟩)) ∨
      (∃ point self', fails point = true ∧ (tail.insertIdx index value).length = groupSize ∧
        (insertTail fails storage groups.length index value).call ⟨tail, groups⟩ =
          (.error (.badAlloc point), self') ∧
        Unsealed (tail.insertIdx index value) groups point self') ∨
      ∃ self', ¬ fails .tail = true ∧
        (insertTail fails storage groups.length index value).call ⟨tail, groups⟩ =
          (.ok (), self') ∧
        (IntegerArray.insertTail storage groups.length index value).call ⟨tail, groups⟩ =
          (.ok (), self') := by
  by_cases failed : fails .tail = true
  · left
    rw [insertTail, call_get_bind]
    simp only [if_neg (Nat.not_lt.mpr inside)]
    exact ⟨failed, allocate_fails failed _ _⟩
  right
  by_cases filled : (tail.insertIdx index value).length = groupSize
  · by_cases none_left : fails .groups = true
    · exact Or.inl ⟨_, _, none_left, filled,
        insertTail_stops fails storage inside failed filled none_left groups, .groups⟩
    rw [insertTail, call_get_bind]
    simp only [if_neg (Nat.not_lt.mpr inside)]
    rw [allocate_succeeds failed]
    simp only [if_pos filled, call_set_bind]
    rw [allocate_succeeds none_left, call_set_bind]
    rcases encode_outcome fails groups.length storage
      (room_of_full filled) true (IntegerGroup.fresh T) with
      ⟨failed, stopped⟩ | ⟨position, data, failed, stopped⟩ | ⟨g, -, returned, encoded⟩
    · exact Or.inl ⟨_, _, failed, filled, call_bind_error (onGroup_call stopped _ groups []) _,
        .buffer⟩
    · exact Or.inl ⟨_, _, failed, filled, call_bind_error (onGroup_call stopped _ groups []) _,
        .outliers position data⟩
    · right
      refine ⟨_, failed, ?_, IntegerArray.insertTail_filled storage inside filled groups encoded⟩
      rw [call_bind (onGroup_call returned _ groups [])]
      rfl
  · right
    exact ⟨_, failed, insertTail_open fails storage inside failed filled groups,
      IntegerArray.insertTail_open storage inside filled groups⟩

/-- The list when the insertion stops at a group: as it was where that is the first group
it changes, else with the value inserted and the element that was to go into the group
missing. -/
def missing (l : List T.Original) (index : Nat) (value : T.Original) (group : Nat) :
    List T.Original :=
  if group = index / groupSize then l
  else (l.insertIdx index value).eraseIdx (groupSize * group)

/-- Groups that hold the start of the list, and a tail with as many elements as a group. -/
structure Filled (groups : List (IntegerGroup T)) (tail l : List T.Original) : Prop where
  full : tail.length = groupSize
  stores : ∃ chunks, List.Forall₂ (fun g chunk => chunk.length = groupSize ∧ g.Stores chunk true)
    groups chunks ∧ chunks.flatten ++ tail = l

/-- What an insertion into an array of `ngroups` groups leaves when there is no memory at a
point. -/
def Leaves (l : List T.Original) (index : Nat) (value : T.Original) (ngroups : Nat)
    (self : IntegerArray T) : Point → Prop
  | .resize group => self.Holds (missing l index value group)
  | .tail => self.Holds (missing l index value ngroups)
  | .buffer group =>
    if group < ngroups then self.Holds (missing l index value group)
    else ∃ groups, self.groups = groups ++ [.fresh T] ∧
      Filled groups self.tail (l.insertIdx index value)
  | .outliers group _ =>
    if group < ngroups then ∃ (good : IntegerArray T) (data : Bytes),
      good.Holds (missing l index value group) ∧
        self = { good with groups := good.groups.set group ⟨some data⟩ }
    else ∃ groups data, self.groups = groups ++ [⟨some data⟩] ∧
      Filled groups self.tail (l.insertIdx index value)
  | .groups => Filled self.groups self.tail (l.insertIdx index value)

theorem toList_interrupted (c : Chunked groupSize T.Original) {index k : Nat}
    (value : T.Original) (h : index ≤ c.toList.length)
    (hk : index / groupSize + k ≤ c.chunks.length) :
    (c.interrupted index k value).toList =
      missing c.toList index value (index / groupSize + k) := by
  cases k with
  | zero => rw [missing, if_pos (Nat.add_zero _), c.toList_interrupted_zero]
  | succ k => rw [missing, if_neg (by omega), c.toList_interrupted value h k.succ_pos hk]

theorem stopped_leaves {array : IntegerArray T} {c : Chunked groupSize T.Original}
    (h : array.Represents c) {index : Nat} (value : T.Original) (inside : index ≤ c.toList.length)
    {point : Point} {later : List (IntegerGroup T)}
    (stopped : Stopped (c.chunks.drop (index / groupSize)) (index % groupSize) value
      (index / groupSize) point later) :
    Leaves c.toList index value array.groups.length
      ⟨array.tail, array.groups.take (index / groupSize) ++ later⟩ point := by
  have before := List.forall₂_take (index / groupSize) h.groups
  have near : index / groupSize ≤ array.groups.length :=
    h.length_groups ▸ c.div_le_chunks inside
  -- the groups when the loop stopped behind `k` of those it changes
  have holds (k : Nat) (short : k < (c.chunks.drop (index / groupSize)).length)
      {good : List (IntegerGroup T)}
      (stores : List.Forall₂ (fun g chunk => g.Stores chunk true) good
        (rippled (c.chunks.drop (index / groupSize)) k (index % groupSize) value)) :
      index / groupSize + k < array.groups.length ∧
        (⟨array.tail, array.groups.take (index / groupSize) ++ good⟩ : IntegerArray T).Holds
          (missing c.toList index value (index / groupSize + k)) := by
    rw [List.length_drop] at short
    have count := h.length_groups
    refine ⟨by omega, c.interrupted index k value, ⟨?_, h.tail⟩, ?_⟩
    · exact List.rel_append before stores
    · exact toList_interrupted c value inside (by omega)
  cases stopped with
  | kept short place stores =>
    obtain ⟨packed, good⟩ := holds _ short stores
    rcases place with rfl | rfl
    · exact good
    · rw [Leaves, if_pos packed]
      exact good
  | @lost k _ groups data short stores =>
    obtain ⟨packed, good⟩ := holds _ short stores
    have len : (array.groups.take (index / groupSize)).length = index / groupSize := by
      rw [List.length_take, Nat.min_eq_left near]
    rw [Leaves, if_pos packed]
    refine ⟨_, data, good, ?_⟩
    simp only [List.set_append_right _ _ (show (array.groups.take (index / groupSize)).length ≤
      index / groupSize + k by omega), len, Nat.add_sub_cancel_left]

/-- Behind the loop all groups hold chunks. -/
theorem passed_represents {array : IntegerArray T} {c : Chunked groupSize T.Original}
    (h : array.Represents c) (index : Nat) (value : T.Original) {later : List (IntegerGroup T)}
    (stores : List.Forall₂ (fun g chunk => g.Stores chunk true) later
      (ripple (c.chunks.drop (index / groupSize)) (index % groupSize) value).1) :
    (⟨array.tail, array.groups.take (index / groupSize) ++ later⟩ : IntegerArray T).Represents
      (c.interrupted index (c.chunks.drop (index / groupSize)).length value) := by
  constructor
  · rw [c.chunks_interrupted]
    exact List.rel_append (List.forall₂_take (index / groupSize) h.groups) stores
  · exact h.tail

theorem unsealed_leaves {tail l : List T.Original} {groups : List (IntegerGroup T)}
    {index : Nat} {value : T.Original} (filled : Filled groups tail (l.insertIdx index value))
    {point : Point} {self : IntegerArray T} (unsealed : Unsealed tail groups point self) :
    Leaves l index value groups.length self point := by
  cases unsealed with
  | groups => exact filled
  | buffer =>
    rw [Leaves, if_neg (Nat.lt_irrefl _)]
    exact ⟨groups, rfl, filled⟩
  | outliers position data =>
    rw [Leaves, if_neg (Nat.lt_irrefl _)]
    exact ⟨groups, data, rfl, filled⟩

/-- The loop over the groups of an array runs out of memory and leaves what the point says, or
it returns as the loop of the array does. -/
theorem loop_leaves {array : IntegerArray T} {c : Chunked groupSize T.Original}
    (h : array.Represents c) (storage : Nat → Storage T) {index : Nat}
    (accepted : ¬ array.Refuses index) (value : T.Original) :
    (∃ point self', fails point = true ∧
      (insertLoop fails storage (array.groups.length - index / groupSize) (index / groupSize)
        (index % groupSize) value).call array = (.error (.badAlloc point), self') ∧
      Leaves c.toList index value array.groups.length self' point) ∨
    ∃ later', (∀ group, index / groupSize ≤ group → group < array.groups.length →
        ¬ fails (.buffer group) = true) ∧
      List.Forall₂ (fun g chunk => g.Stores chunk true) later'
        (ripple (c.chunks.drop (index / groupSize)) (index % groupSize) value).1 ∧
      (insertLoop fails storage (array.groups.length - index / groupSize) (index / groupSize)
        (index % groupSize) value).call array =
          (.ok (ripple (c.chunks.drop (index / groupSize)) (index % groupSize) value).2,
            ⟨array.tail, array.groups.take (index / groupSize) ++ later'⟩) ∧
      (IntegerArray.insertLoop storage (array.groups.length - index / groupSize)
        (index / groupSize) (index % groupSize) value).call array =
          (.ok (ripple (c.chunks.drop (index / groupSize)) (index % groupSize) value).2,
            ⟨array.tail, array.groups.take (index / groupSize) ++ later'⟩) := by
  have near : index / groupSize ≤ array.groups.length := Nat.not_lt.mp (not_or.mp accepted).1
  have inside := h.le_of_accepted accepted
  have loop := insertLoop_outcome fails storage array.tail
    (List.forall₂_drop (index / groupSize) h.groups) (c.full_drop _)
    (array.groups.take (index / groupSize)) (Nat.mod_lt index groupSize_pos) value
  rw [List.length_drop, List.length_take, Nat.min_eq_left near, List.take_append_drop] at loop
  rcases loop with ⟨point, later', failed, throws, stopped⟩ |
    ⟨later', spared, stores, returned, real⟩
  · exact Or.inl ⟨point, _, failed, throws, stopped_leaves h value inside stopped⟩
  · refine Or.inr ⟨later', ?_, stores, returned, real⟩
    intro group first packed
    obtain ⟨k, rfl⟩ := Nat.exists_eq_add_of_le first
    refine spared k ?_
    rw [List.length_drop, ← h.length_groups]
    omega

/-- Behind the loop, the tail runs out of memory and leaves what the point says, or it grows
as the tail of the array does. -/
theorem tail_leaves {array : IntegerArray T} {c : Chunked groupSize T.Original}
    (h : array.Represents c) (storage : Storage T) {index : Nat}
    (accepted : ¬ array.Refuses index) (value : T.Original) {later : List (IntegerGroup T)}
    (stores : List.Forall₂ (fun g chunk => g.Stores chunk true) later
      (ripple (c.chunks.drop (index / groupSize)) (index % groupSize) value).1) :
    let carried := (ripple (c.chunks.drop (index / groupSize)) (index % groupSize) value).2
    let passed : IntegerArray T :=
      ⟨array.tail, array.groups.take (index / groupSize) ++ later⟩
    (∃ point self', fails point = true ∧
      (insertTail fails storage array.groups.length carried.1 carried.2).call passed =
        (.error (.badAlloc point), self') ∧
      Leaves c.toList index value array.groups.length self' point) ∨
    ∃ self', ¬ fails .tail = true ∧
      (insertTail fails storage array.groups.length carried.1 carried.2).call passed =
        (.ok (), self') ∧
      (IntegerArray.insertTail storage array.groups.length carried.1 carried.2).call passed =
        (.ok (), self') := by
  intro carried passed
  have inside := h.le_of_accepted accepted
  have near : index / groupSize ≤ array.groups.length := Nat.not_lt.mp (not_or.mp accepted).1
  have short : index % groupSize ≤ array.tail.length := Nat.not_lt.mp (not_or.mp accepted).2
  have represents := passed_represents h index value stores
  have chunks := represents.chunks
  rw [c.chunks_interrupted] at chunks
  have same : passed.groups.length = array.groups.length := by
    rw [chunks.length_eq, List.length_append, Chunks.length_ripple, ← List.length_append,
      List.take_append_drop, h.length_groups]
  have left : carried.1 ≤ array.tail.length :=
    Nat.le_trans (ripple_index_le (c.chunks.drop (index / groupSize)) _ value) short
  have outcome := insertTail_outcome fails storage left carried.2 passed.groups
  rw [same] at outcome
  rcases outcome with ⟨failed, throws⟩ | ⟨point, self', failed, filled, throws, unsealed⟩ | grown
  · left
    have all : index / groupSize + (c.chunks.drop (index / groupSize)).length =
        array.groups.length := by
      rw [List.length_drop, ← h.length_groups]
      exact Nat.add_sub_of_le near
    refine ⟨.tail, _, failed, throws, _, represents, ?_⟩
    rw [toList_interrupted c value inside (by rw [all, h.length_groups]), all]
  · left
    refine ⟨point, self', failed, throws, ?_⟩
    have whole := c.flatten_insert value inside
    rw [← h.tail] at whole
    rw [← same]
    exact unsealed_leaves ⟨filled, _, chunks, whole⟩ unsealed
  · exact Or.inr grown

/-- A call on an array that represents a chunked list. -/
theorem insert_outcome {array : IntegerArray T} {c : Chunked groupSize T.Original}
    (h : array.Represents c) (storage : Nat → Storage T) {index : Nat}
    (accepted : ¬ array.Refuses index) (value : T.Original) :
    (∃ point self', fails point = true ∧
      (insert fails storage index value).call array = (.error (.badAlloc point), self') ∧
      Leaves c.toList index value array.groups.length self' point) ∨
    ∃ self', (∀ group, index / groupSize ≤ group → group < array.groups.length →
        ¬ fails (.buffer group) = true) ∧ ¬ fails .tail = true ∧
      (insert fails storage index value).call array = (.ok (), self') ∧
      (IntegerArray.insert storage index value).call array = (.ok (), self') := by
  rw [insert, IntegerArray.insert, call_get_bind, Method.call_get_bind]
  simp only [if_neg accepted]
  rcases loop_leaves fails h storage accepted value with
    ⟨point, self', failed, throws, leaves⟩ | ⟨later', spared, stores, returned, real⟩
  · exact Or.inl ⟨point, self', failed, call_bind_error throws _, leaves⟩
  · rw [call_bind returned, Method.call_bind real]
    rcases tail_leaves fails h (storage array.groups.length) accepted value stores with
      stopped | ⟨self', grown, returned, real⟩
    · exact Or.inl stopped
    · exact Or.inr ⟨self', spared, grown, returned, real⟩

/-- An insertion at an accepted position runs out of memory and leaves what the point says,
or it returns as the insertion of the array does, and then there was memory for the groups
and the tail. -/
theorem insert_leaves {array : IntegerArray T} {l : List T.Original}
    (h : IntegerArray.Reachable array l) (storage : Nat → Storage T) {index : Nat}
    (accepted : ¬ array.Refuses index) (value : T.Original) :
    (∃ point self', fails point = true ∧
      (insert fails storage index value).call array = (.error (.badAlloc point), self') ∧
      Leaves l index value array.groups.length self' point) ∨
    ∃ self', (∀ group, index / groupSize ≤ group → group < array.groups.length →
        ¬ fails (.buffer group) = true) ∧ ¬ fails .tail = true ∧
      (insert fails storage index value).call array = (.ok (), self') ∧
      (IntegerArray.insert storage index value).call array = (.ok (), self') := by
  obtain ⟨c, represents, rfl⟩ := IntegerArray.reachable_holds h
  exact insert_outcome fails represents storage accepted value

/-- At the first group that it changes an insertion loses nothing. -/
theorem insert_leaves_int32 :
    ∃ array self' : IntegerArray int32, IntegerArray.Reachable array (List.replicate 256 7) ∧
      (insert (· = .buffer 0) (fun _ => ⟨fun _ => 0, fun _ => 0⟩) 0 9).call array =
        (.error (.badAlloc (.buffer 0)), self') ∧
      self'.Holds (List.replicate 256 7) := by
  obtain ⟨array, run, groups, -⟩ := IntegerArray.one_group
    (fun _ => ⟨fun _ => 0, fun _ => 0⟩) (7 : int32.Original)
  have accepted := array.accepts_zero
  rcases insert_leaves (· = .buffer 0) run (fun _ => ⟨fun _ => 0, fun _ => 0⟩) accepted 9 with
    ⟨point, self', failed, throws, leaves⟩ | ⟨self', spared, -⟩
  · obtain rfl : point = .buffer 0 := of_decide_eq_true failed
    rw [groups, Leaves, if_pos (by decide)] at leaves
    exact ⟨array, self', run, throws, leaves⟩
  · exact absurd (decide_eq_true rfl) (spared 0 (by decide) (by rw [groups]; decide))

/-- What a failed insertion is meant to leave: every group can be decoded, the tail is
shorter than a group, and the array still represents the list. -/
structure Intact (self : IntegerArray T) (l : List T.Original) : Prop where
  decodes : ∃ decoded : List (List T.Original), decoded.flatten ++ self.tail = l ∧
    List.Forall₂ (fun g values => ∀ dst : List T.Original, dst.length = groupSize →
      g.decode dst true = .ok values) self.groups decoded
  short : self.tail.length < groupSize

/-- Decoding tells the list that an array represents. -/
theorem intact_iff {self : IntegerArray T} {l : List T.Original} (h : self.Holds l)
    (l' : List T.Original) : Intact self l' ↔ l' = l := by
  obtain ⟨c, represents, rfl⟩ := h
  have chunks : List.Forall₂ (fun g values => ∀ dst : List T.Original, dst.length = groupSize →
      g.decode dst true = .ok values) self.groups c.chunks := by
    refine represents.chunks.imp ?_
    rintro g chunk ⟨full, stored⟩ dst same
    exact stored.decode (room_of_full full) (same.trans full.symm)
  constructor
  · rintro ⟨⟨decoded, rfl, decodes⟩, -⟩
    have same : decoded = c.chunks := by
      refine List.right_unique_forall₂' ?_ decodes chunks
      intro g values values' first second
      have dst : (List.replicate groupSize (0 : T.Original)).length = groupSize :=
        List.length_replicate
      exact Except.ok.inj ((first _ dst).symm.trans (second _ dst))
    rw [same, represents.tail]
    rfl
  · rintro rfl
    exact ⟨⟨c.chunks, by rw [represents.tail]; rfl, chunks⟩, represents.tail ▸ c.short⟩

/-- When there is no memory for the second group, the element that was to go into it is
lost. -/
theorem insert_loses_element :
    ∃ array self' : IntegerArray int32, IntegerArray.Reachable array (List.replicate 512 7) ∧
      ¬ array.Refuses 0 ∧
      (insert (· = .buffer 1) (fun _ => ⟨fun _ => 0, fun _ => 0⟩) 0 9).call array =
        (.error (.badAlloc (.buffer 1)), self') ∧
      ¬ Intact self' (List.replicate 512 7) := by
  obtain ⟨array, run, groups, -⟩ := IntegerArray.full_groups
    (fun _ => ⟨fun _ => 0, fun _ => 0⟩) (7 : int32.Original) 2
  obtain ⟨c, represents, same⟩ := IntegerArray.reachable_holds run
  have accepted := array.accepts_zero
  rcases loop_leaves (· = .buffer 1) represents (fun _ => ⟨fun _ => 0, fun _ => 0⟩) accepted 9 with
    ⟨point, self', failed, throws, leaves⟩ | ⟨later', spared, -⟩
  · obtain rfl : point = .buffer 1 := of_decide_eq_true failed
    rw [groups, Leaves, if_pos (by decide), same] at leaves
    refine ⟨array, self', run, accepted, ?_, ?_⟩
    · rw [insert, call_get_bind]
      simp only [if_neg accepted]
      exact call_bind_error throws _
    · rw [intact_iff leaves]
      intro unchanged
      have first := congrArg List.head? unchanged
      rw [missing, if_neg (by decide)] at first
      exact absurd first (by decide)
  · exact absurd (decide_eq_true rfl) (spared 1 (by decide) (by rw [groups]; decide))

end Failing

end Oroch
