import Mathlib.Data.List.Induction
import Mathlib.Logic.Relation
import Oroch.IntegerArray

/-!
# Runs of an integer array

An array represents a chunked list when each group stores the chunk at its place and
the tail is the rest. An insertion that is not refused inserts into the chunked list,
so after any run of insertions and `clear` the array represents the list that the same
operations build. The check of the position is right for the tail; inside a group it asks
for a tail that is long enough.
-/

namespace Oroch

namespace IntegerArray

open Chunks (Chunked push ripple ripple_index_le)

variable {T : IntType}

structure Represents (array : IntegerArray T) (c : Chunked groupSize T.Original) : Prop where
  groups : List.Forall₂ (fun g chunk => g.Stores chunk true) array.groups c.chunks
  tail : array.tail = c.rest

/-- Moving the elements between an index and the last one on by one place, and storing a
new element at the index. -/
theorem copyBackward_append (before between : List T.Original) (last value : T.Original) :
    (copyBackward (before ++ (between ++ [last])) before.length (before.length + between.length)
      (before.length + between.length + 1)).set before.length value =
      before ++ value :: between := by
  obtain ⟨y, ys, some⟩ := List.exists_cons_of_ne_nil (List.concat_ne_nil last between)
  have kept : (before ++ (between ++ [last])).take (before.length + 1) = before ++ [y] := by
    rw [some, List.take_length_add_append]
    rfl
  have moved : ((before ++ (between ++ [last])).drop before.length).take between.length =
      between := by
    rw [List.drop_left, List.take_left]
  have behind : (before ++ (between ++ [last])).drop (before.length + between.length + 1) = [] := by
    rw [List.drop_eq_nil_iff]
    simp [Nat.add_assoc]
  have place : before.length + between.length + 1 -
      (before.length + between.length - before.length) = before.length + 1 := by omega
  rw [copyBackward, place, kept, Nat.add_sub_cancel_left, moved, behind, List.append_nil,
    List.append_assoc, List.set_append_right _ _ (Nat.le_refl _), Nat.sub_self]
  rfl

/-- What the body of the loop makes of a decoded group. -/
theorem copyBackward_push {buffer : List T.Original} {index : Nat} (value : T.Original)
    (full : buffer.length = groupSize) (inside : index < groupSize) :
    (copyBackward buffer index (groupSize - 1) groupSize).set index value =
        (push buffer index value).1 ∧
      buffer[groupSize - 1]? = some (push buffer index value).2 := by
  have some : buffer.drop index ≠ [] := by
    rw [ne_eq, List.drop_eq_nil_iff]
    omega
  obtain ⟨between, last, later⟩ := (List.eq_nil_or_concat (buffer.drop index)).resolve_left some
  rw [List.concat_eq_append] at later
  have first : (buffer.take index).length = index := by
    rw [List.length_take]
    omega
  have split : buffer = buffer.take index ++ (between ++ [last]) := by
    rw [← later, List.take_append_drop]
  generalize buffer.take index = before at split first
  subst split first
  have len : groupSize = before.length + between.length + 1 := by
    rw [← full]
    simp [Nat.add_assoc]
  rw [Chunks.push_append, len, Nat.add_sub_cancel]
  exact ⟨copyBackward_append before between last value, by simp⟩

/-- A call on the group behind `before`. -/
theorem onGroup_call {α : Type} {f : Method (IntegerGroup T) α} {g g' : IntegerGroup T} {a : α}
    (h : f.call g = (.ok a, g')) (tail : List T.Original) (before later : List (IntegerGroup T)) :
    (onGroup before.length f).call ⟨tail, before ++ g :: later⟩ =
      (.ok a, ⟨tail, before ++ g' :: later⟩) := by
  have found : (before ++ g :: later)[before.length]? = some g := by simp
  have stored : (before ++ g :: later).set before.length g' = before ++ g' :: later := by simp
  rw [onGroup, Method.call_get_bind]
  simp only [found, h, stored]
  rfl

/-- One group: its last element goes on to the front of the next one. -/
theorem insertLoop_step (storage : Nat → Storage T) (tail : List T.Original)
    {g g' : IntegerGroup T} {chunk : List T.Original} (stored : g.Stores chunk true)
    (full : chunk.length = groupSize) (before later : List (IntegerGroup T)) {index : Nat}
    (inside : index < groupSize) {value : T.Original}
    (encoded : (IntegerGroup.encode (storage before.length)
      (push chunk index value).1 true).call g = (.ok (), g')) :
    (insertLoop storage (later.length + 1) before.length index value).call
        ⟨tail, before ++ g :: later⟩ =
      (insertLoop storage later.length (before ++ [g']).length 0 (push chunk index value).2).call
        ⟨tail, (before ++ [g']) ++ later⟩ := by
  obtain ⟨pushed, carried⟩ := copyBackward_push value full inside
  have decoded : (do (← get).decode ((storage before.length).buffer groupSize) true :
      Method (IntegerGroup T) (List T.Original)).call g = (.ok chunk, g) := by
    rw [Method.call_get_bind, stored.decode_buffer full]
    rfl
  rw [insertLoop, Method.call_bind (onGroup_call decoded tail before later), carried]
  simp only [pushed]
  rw [Method.call_bind (onGroup_call encoded tail before later), List.append_assoc,
    List.length_append]
  rfl

/-- The loop passes an element on through the groups as `ripple` does through chunks. -/
theorem insertLoop_call (storage : Nat → Storage T) (tail : List T.Original)
    {later : List (IntegerGroup T)} {chunks : List (List T.Original)}
    (stores : List.Forall₂ (fun g chunk => g.Stores chunk true) later chunks)
    (full : ∀ chunk ∈ chunks, chunk.length = groupSize) (before : List (IntegerGroup T))
    {index : Nat} (inside : index < groupSize) (value : T.Original) :
    ∃ later', List.Forall₂ (fun g chunk => g.Stores chunk true) later'
        (ripple chunks index value).1 ∧
      (insertLoop storage later.length before.length index value).call ⟨tail, before ++ later⟩ =
        (.ok (ripple chunks index value).2, ⟨tail, before ++ later'⟩) := by
  induction stores generalizing before index value with
  | nil => exact ⟨[], .nil, rfl⟩
  | @cons g chunk later chunks stored stores ih =>
    have len : chunk.length = groupSize := full chunk List.mem_cons_self
    have size := (Chunks.push_eq value (show index ≤ chunk.length by omega)).2
    obtain ⟨g', encoded, stored'⟩ := IntegerGroup.encode_stores (storage before.length)
      (push chunk index value).1 (room_of_full (size.trans len)) true g
    obtain ⟨later', stores', rest⟩ := ih (fun c hc => full c (List.mem_cons_of_mem _ hc))
      (before ++ [g']) groupSize_pos (push chunk index value).2
    refine ⟨g' :: later', .cons stored' stores', ?_⟩
    rw [List.length_cons, insertLoop_step storage tail stored len before later inside encoded, rest,
      List.append_assoc]
    rfl

/-- The loop over the groups from an index on. -/
theorem insertLoop_from (storage : Nat → Storage T) (tail : List T.Original)
    {groups : List (IntegerGroup T)} {chunks : List (List T.Original)}
    (stores : List.Forall₂ (fun g chunk => g.Stores chunk true) groups chunks)
    (full : ∀ chunk ∈ chunks, chunk.length = groupSize) {group index : Nat}
    (near : group ≤ groups.length) (inside : index < groupSize) (value : T.Original) :
    ∃ groups', List.Forall₂ (fun g chunk => g.Stores chunk true) groups'
        (chunks.take group ++ (ripple (chunks.drop group) index value).1) ∧
      groups'.length = groups.length ∧
      (insertLoop storage (groups.length - group) group index value).call ⟨tail, groups⟩ =
        (.ok (ripple (chunks.drop group) index value).2, ⟨tail, groups'⟩) := by
  have later : ∀ chunk ∈ chunks.drop group, chunk.length = groupSize :=
    fun chunk h => full chunk (List.mem_of_mem_drop h)
  obtain ⟨later', stores', loop⟩ := insertLoop_call storage tail
    (List.forall₂_drop group stores) later (groups.take group) inside value
  have count : (groups.take group).length = group := by
    rw [List.length_take]
    omega
  rw [List.length_drop, count, List.take_append_drop] at loop
  have all := List.rel_append (List.forall₂_take group stores) stores'
  refine ⟨groups.take group ++ later', all, ?_, loop⟩
  rw [all.length_eq, List.length_append, Chunks.length_ripple, ← List.length_append,
    List.take_append_drop, stores.length_eq]

theorem Represents.length_groups {self : IntegerArray T} {c : Chunked groupSize T.Original}
    (h : self.Represents c) : self.groups.length = c.chunks.length := h.groups.length_eq

/-- The groups of an array with the chunks they store. -/
theorem Represents.chunks {self : IntegerArray T} {c : Chunked groupSize T.Original}
    (h : self.Represents c) : List.Forall₂
      (fun g chunk => chunk.length = groupSize ∧ g.Stores chunk true) self.groups c.chunks := by
  refine List.forall₂_iff_zip.mpr ⟨h.length_groups, fun paired => ?_⟩
  exact ⟨c.full _ (List.of_mem_zip paired).2, List.forall₂_zip h.groups paired⟩

theorem Represents.chunk {self : IntegerArray T} {c : Chunked groupSize T.Original}
    (h : self.Represents c) {group : Nat} (packed : group < self.groups.length) :
    ∃ inside : group < c.chunks.length, c.chunks[group].length = groupSize ∧
      self.groups[group].Stores c.chunks[group] true :=
  ⟨h.length_groups ▸ packed, List.Forall₂.get h.chunks packed (h.length_groups ▸ packed)⟩

theorem Represents.size {self : IntegerArray T} {c : Chunked groupSize T.Original}
    (h : self.Represents c) : self.size = c.toList.length := by
  rw [IntegerArray.size, h.length_groups, h.tail, c.length_toList, Nat.mul_comm]

/-- The guard of `insert` and `at`. -/
abbrev Refuses (self : IntegerArray T) (index : Nat) : Prop :=
  index / groupSize > self.groups.length ∨ index % groupSize > self.tail.length

theorem insert_refused (storage : Nat → Storage T) {self : IntegerArray T} {index : Nat}
    (refused : self.Refuses index) (value : T.Original) :
    (insert storage index value).call self =
      (.error (.outOfRange "array index out of range"), self) := by
  rw [insert, Method.call_get_bind]
  simp only [if_pos refused]
  rfl

/-- An insertion into a tail that stays open. -/
theorem insertTail_open (storage : Storage T) {tail : List T.Original} {index : Nat}
    (inside : index ≤ tail.length) {value : T.Original}
    (short : (tail.insertIdx index value).length ≠ groupSize) (groups : List (IntegerGroup T)) :
    (insertTail storage groups.length index value).call ⟨tail, groups⟩ =
      (.ok (), ⟨tail.insertIdx index value, groups⟩) := by
  rw [insertTail, Method.call_get_bind]
  simp only [if_neg (Nat.not_lt.mpr inside), if_neg short]
  rfl

/-- An insertion that fills the tail. -/
theorem insertTail_filled (storage : Storage T) {tail : List T.Original} {index : Nat}
    (inside : index ≤ tail.length) {value : T.Original}
    (filled : (tail.insertIdx index value).length = groupSize) (groups : List (IntegerGroup T))
    {g : IntegerGroup T}
    (encoded : (IntegerGroup.encode storage (tail.insertIdx index value) true).call
      (IntegerGroup.fresh T) = (.ok (), g)) :
    (insertTail storage groups.length index value).call ⟨tail, groups⟩ =
      (.ok (), ⟨[], groups ++ [g]⟩) := by
  rw [insertTail, Method.call_get_bind]
  simp only [if_neg (Nat.not_lt.mpr inside), if_pos filled]
  rw [Method.call_set_bind, Method.call_bind (onGroup_call encoded _ groups [])]
  rfl

/-- An insertion that is not refused inserts into the list that the array represents. -/
theorem insert_accepted (storage : Nat → Storage T) {self : IntegerArray T}
    {c : Chunked groupSize T.Original} (h : self.Represents c) {index : Nat}
    (accepted : ¬ self.Refuses index) (value : T.Original) :
    ∃ self', (insert storage index value).call self = (.ok (), self') ∧
      self'.Represents (c.insert index value) := by
  obtain ⟨tail, groups⟩ := self
  obtain ⟨stores, rfl : tail = c.rest⟩ := h
  obtain ⟨near, inside⟩ : ¬ index / groupSize > groups.length ∧
      ¬ index % groupSize > c.rest.length := not_or.mp accepted
  obtain ⟨groups', stores', same, loop⟩ := insertLoop_from storage c.rest stores c.full
    (Nat.not_lt.mp near) (Nat.mod_lt index groupSize_pos) value
  have left := Nat.le_trans (ripple_index_le (c.chunks.drop (index / groupSize))
    (index % groupSize) value) (Nat.not_lt.mp inside)
  rw [insert, Method.call_get_bind]
  simp only [if_neg accepted]
  rw [Method.call_bind loop, Chunked.insert, ← same]
  by_cases filled : (c.rest.insertIdx (ripple (c.chunks.drop (index / groupSize))
      (index % groupSize) value).2.1 (ripple (c.chunks.drop (index / groupSize))
      (index % groupSize) value).2.2).length = groupSize
  · obtain ⟨g, encoded, stored⟩ := IntegerGroup.encode_stores (storage groups'.length) _
      (room_of_full filled) true (IntegerGroup.fresh T)
    have sealed := insertTail_filled (storage groups'.length) left filled groups' encoded
    simp only [dif_pos filled]
    exact ⟨_, sealed, List.rel_append stores' (.cons stored .nil), rfl⟩
  · have grown := insertTail_open (storage groups'.length) left filled groups'
    simp only [dif_neg filled]
    exact ⟨_, grown, stores', rfl⟩

/-- An index past the end is refused. -/
theorem Represents.le_of_accepted {self : IntegerArray T} {c : Chunked groupSize T.Original}
    (h : self.Represents c) {index : Nat} (accepted : ¬ self.Refuses index) :
    index ≤ c.toList.length := by
  obtain ⟨near, inside⟩ := not_or.mp accepted
  rw [h.length_groups] at near
  rw [h.tail] at inside
  have position := Nat.div_add_mod index groupSize
  have before := Nat.mul_le_mul_left groupSize (Nat.not_lt.mp near)
  rw [c.length_toList]
  omega

/-- The end is not refused. -/
theorem Represents.accepts_length {self : IntegerArray T} {c : Chunked groupSize T.Original}
    (h : self.Represents c) : ¬ self.Refuses c.toList.length := by
  rw [Refuses, h.length_groups, h.tail, ← c.length_chunks, ← c.length_rest]
  omega

/-- The front is not refused. -/
theorem accepts_zero (self : IntegerArray T) : ¬ self.Refuses 0 := by
  rw [Refuses, Nat.zero_div, Nat.zero_mod]
  omega

theorem represents_empty : (empty T).Represents (Chunked.empty (by decide)) := ⟨.nil, rfl⟩

/-- A call on the array, beside the same operation on a list. A call that throws leaves
the list as it is. -/
inductive Step : IntegerArray T × List T.Original → IntegerArray T × List T.Original → Prop
  | insert {self self' : IntegerArray T} {l : List T.Original} (storage : Nat → Storage T)
      (index : Nat) (value : T.Original)
      (returns : (insert storage index value).call self = (.ok (), self')) :
      Step (self, l) (self', l.insertIdx index value)
  | throw {self self' : IntegerArray T} {l : List T.Original} (storage : Nat → Storage T)
      (index : Nat) (value : T.Original) {e : Failure}
      (throws : (insert storage index value).call self = (.error e, self')) :
      Step (self, l) (self', l)
  | clear {self self' : IntegerArray T} {l : List T.Original}
      (returns : clear.call self = (.ok (), self')) : Step (self, l) (self', [])

/-- A run from an empty array and the empty list. -/
def Reachable (self : IntegerArray T) (l : List T.Original) : Prop :=
  Relation.ReflTransGen Step (empty T, []) (self, l)

/-- The invariant of a run. -/
def Holds (self : IntegerArray T) (l : List T.Original) : Prop :=
  ∃ c, self.Represents c ∧ c.toList = l

theorem step_holds {self self' : IntegerArray T} {l l' : List T.Original}
    (step : Step (self, l) (self', l')) (h : self.Holds l) : self'.Holds l' := by
  obtain ⟨c, represents, rfl⟩ := h
  cases step with
  | insert storage index value returns =>
    by_cases refused : self.Refuses index
    · rw [insert_refused storage refused value] at returns
      simp at returns
    · obtain ⟨next, call, represents'⟩ := insert_accepted storage represents refused value
      obtain rfl : next = self' := congrArg Prod.snd (call.symm.trans returns)
      exact ⟨_, represents', c.toList_insert value (represents.le_of_accepted refused)⟩
  | throw storage index value throws =>
    by_cases refused : self.Refuses index
    · rw [insert_refused storage refused value] at throws
      obtain rfl : self = self' := congrArg Prod.snd throws
      exact ⟨c, represents, rfl⟩
    · obtain ⟨next, call, -⟩ := insert_accepted storage represents refused value
      rw [call] at throws
      simp at throws
  | clear returns =>
    obtain rfl : empty T = self' := congrArg Prod.snd returns
    exact ⟨_, represents_empty, rfl⟩

theorem reachable_holds {self : IntegerArray T} {l : List T.Original} (h : Reachable self l) :
    self.Holds l := by
  suffices all : ∀ s, Relation.ReflTransGen Step (empty T, []) s → s.1.Holds s.2 from all _ h
  intro s run
  induction run with
  | refl => exact ⟨_, represents_empty, rfl⟩
  | tail _ step ih => exact step_holds step ih

/-- Every list is reached by insertions at the end. -/
theorem reaches_every_list (storage : Nat → Storage T) (l : List T.Original) :
    ∃ self, Reachable self l := by
  induction l using List.reverseRecOn with
  | nil => exact ⟨empty T, .refl⟩
  | append_singleton l value ih =>
    obtain ⟨self, run⟩ := ih
    obtain ⟨c, represents, rfl⟩ := reachable_holds run
    obtain ⟨self', call, -⟩ :=
      insert_accepted storage represents represents.accepts_length value
    have appended : c.toList.insertIdx c.toList.length value = c.toList ++ [value] := by simp
    exact ⟨self', appended ▸ run.tail (.insert storage _ value call)⟩

/-- The array is the list that the same insertions and clears build: the groups are the
encodings of its full chunks and the tail is the rest. An insertion either returns, at a
position of the list, or throws and changes nothing. -/
theorem run_refines_list {self : IntegerArray T} {l : List T.Original} (h : Reachable self l) :
    self.tail.length < groupSize ∧
    self.groups.length = self.size / groupSize ∧
    (∀ group, (inside : group < self.groups.length) →
      self.groups[group].Stores ((l.drop (groupSize * group)).take groupSize) true) ∧
    self.tail = l.drop (groupSize * self.groups.length) ∧
    (∃ decoded : List (List T.Original), decoded.flatten ++ self.tail = l ∧
      List.Forall₂ (fun g values => ∀ dst : List T.Original, dst.length = groupSize →
        g.decode dst true = .ok values) self.groups decoded) ∧
    self.size = l.length ∧
    (∀ storage index value,
      (∃ self', (insert storage index value).call self = (.ok (), self') ∧ index ≤ l.length) ∨
        (insert storage index value).call self =
          (.error (.outOfRange "array index out of range"), self)) := by
  obtain ⟨c, represents, rfl⟩ := reachable_holds h
  have count := represents.length_groups
  have tail := represents.tail
  refine ⟨?_, ?_, ?_, ?_, ?_, represents.size, ?_⟩
  · rw [tail]
    exact c.short
  · rw [represents.size, count, c.length_chunks]
  · intro group inside
    obtain ⟨within, -, stored⟩ := represents.chunk inside
    rwa [c.chunk_eq within]
  · rw [count, c.rest_eq, tail]
  · refine ⟨c.chunks, by rw [tail]; rfl, represents.chunks.imp ?_⟩
    rintro g values ⟨full, stored⟩ dst same
    exact stored.decode (room_of_full full) (same.trans full.symm)
  · intro storage index value
    by_cases refused : self.Refuses index
    · exact .inr (insert_refused storage refused value)
    · obtain ⟨self', call, -⟩ := insert_accepted storage represents refused value
      exact .inl ⟨self', call, represents.le_of_accepted refused⟩

/-- 256 insertions make one group. -/
theorem run_refines_list_int32 :
    ∃ self : IntegerArray int32, Reachable self (List.replicate 256 7) ∧
      self.groups.length = 1 ∧ self.tail = [] := by
  obtain ⟨self, run⟩ := reaches_every_list (fun _ => ⟨fun _ => 0, fun _ => 0⟩)
    (List.replicate 256 (7 : int32.Original))
  obtain ⟨-, groups, -, tail, -, size, -⟩ := run_refines_list run
  rw [size, List.length_replicate] at groups
  rw [groups, List.drop_replicate] at tail
  exact ⟨self, run, groups, tail⟩

/-- What `insert` is meant to do at a position: it throws just behind the end, returns
elsewhere, and changes nothing when it throws. -/
structure InsertsExactly (array : IntegerArray T) (storage : Nat → Storage T) (index : Nat)
    (value : T.Original) : Prop where
  throws : ((insert storage index value).call array).1 =
    .error (.outOfRange "array index out of range") ↔ array.size < index
  returns : index ≤ array.size → ∃ self', (insert storage index value).call array = (.ok (), self')
  unchanged : ∀ e self', (insert storage index value).call array = (.error e, self') →
    self' = array

/-- A refused insertion meets the purpose just behind the end. -/
theorem insertsExactly_refused (storage : Nat → Storage T) {self : IntegerArray T} {index : Nat}
    (refused : self.Refuses index) (value : T.Original) :
    self.InsertsExactly storage index value ↔ self.size < index := by
  have call := insert_refused storage refused value
  constructor
  · intro exactly
    exact exactly.throws.mp (by rw [call])
  · intro behind
    refine ⟨?_, ?_, ?_⟩
    · rw [call]
      exact iff_of_true rfl behind
    · intro inside
      omega
    · intro e self' throws
      rw [call] at throws
      exact (congrArg Prod.snd throws).symm

theorem insertsExactly_accepted (storage : Nat → Storage T) {self : IntegerArray T}
    {c : Chunked groupSize T.Original} (h : self.Represents c) {index : Nat}
    (accepted : ¬ self.Refuses index) (value : T.Original) :
    self.InsertsExactly storage index value := by
  obtain ⟨next, call, -⟩ := insert_accepted storage h accepted value
  have inside := h.le_of_accepted accepted
  rw [← h.size] at inside
  refine ⟨?_, fun _ => ⟨next, call⟩, ?_⟩
  · rw [call]
    constructor
    · intro throws
      simp at throws
    · intro behind
      omega
  · intro e self' throws
    rw [call] at throws
    simp at throws

/-- `insert` meets its purpose at all positions but those in the groups whose index in the
group exceeds the length of the tail: it refuses these. -/
theorem insertsExactly_iff {self : IntegerArray T} {l : List T.Original} (h : Reachable self l)
    (storage : Nat → Storage T) (index : Nat) (value : T.Original) :
    self.InsertsExactly storage index value ↔
      (index / groupSize < self.groups.length → index % groupSize ≤ self.tail.length) := by
  obtain ⟨c, represents, rfl⟩ := reachable_holds h
  have short : self.tail.length < 256 := represents.tail ▸ c.short
  have total : self.size = self.groups.length * 256 + self.tail.length := rfl
  have group : groupSize = 256 := rfl
  by_cases refused : self.Refuses index
  · rw [insertsExactly_refused storage refused]
    rw [Refuses, group] at refused
    rw [group]
    omega
  · have near := not_or.mp refused
    constructor
    · intro exactly packed
      exact Nat.not_lt.mp near.2
    · intro condition
      exact insertsExactly_accepted storage represents refused value

/-- As many elements as fill a number of groups leave the tail empty. -/
theorem full_groups (storage : Nat → Storage T) (value : T.Original) (count : Nat) :
    ∃ self : IntegerArray T, Reachable self (List.replicate (groupSize * count) value) ∧
      self.groups.length = count ∧ self.tail = [] := by
  obtain ⟨self, run⟩ := reaches_every_list storage (List.replicate (groupSize * count) value)
  obtain ⟨c, represents, same⟩ := reachable_holds run
  refine ⟨self, run, ?_, ?_⟩
  · rw [represents.length_groups, c.length_chunks, same, List.length_replicate]
    exact Nat.mul_div_cancel_left count groupSize_pos
  · rw [represents.tail, ← List.length_eq_zero_iff, c.length_rest, same, List.length_replicate]
    exact Nat.mul_mod_right groupSize count

/-- 256 elements make one group and leave the tail empty. -/
theorem one_group (storage : Nat → Storage T) (value : T.Original) :
    ∃ self : IntegerArray T, Reachable self (List.replicate 256 value) ∧
      self.groups.length = 1 ∧ self.tail = [] := full_groups storage value 1

/-- With one group and an empty tail, the front of the group takes an insertion. -/
theorem insertsExactly_iff_int32 :
    ∃ self : IntegerArray int32, Reachable self (List.replicate 256 7) ∧
      self.InsertsExactly (fun _ => ⟨fun _ => 0, fun _ => 0⟩) 0 9 := by
  obtain ⟨self, run, groups, tail⟩ :=
    one_group (fun _ => ⟨fun _ => 0, fun _ => 0⟩) (7 : int32.Original)
  exact ⟨self, run, (insertsExactly_iff run _ 0 9).mpr fun _ => Nat.zero_le _⟩

/-- With one group and an empty tail, position 5 exists but is refused. -/
theorem insert_refuses_inside :
    ∃ self : IntegerArray int32, Reachable self (List.replicate 256 7) ∧ 5 ≤ self.size ∧
      (insert (fun _ => ⟨fun _ => 0, fun _ => 0⟩) 5 9).call self =
        (.error (.outOfRange "array index out of range"), self) ∧
      ¬ self.InsertsExactly (fun _ => ⟨fun _ => 0, fun _ => 0⟩) 5 9 := by
  obtain ⟨self, run, groups, tail⟩ :=
    one_group (fun _ => ⟨fun _ => 0, fun _ => 0⟩) (7 : int32.Original)
  have size : self.size = 256 := by rw [IntegerArray.size, groups, tail]; rfl
  have refused : self.Refuses 5 := by
    rw [Refuses, tail]
    exact .inr (by decide)
  refine ⟨self, run, by rw [size]; decide, insert_refused _ refused 9, ?_⟩
  rw [insertsExactly_refused _ refused, size]
  decide

end IntegerArray

end Oroch
