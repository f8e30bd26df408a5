import Oroch.ArrayReads
import Oroch.GroupInfo
import Oroch.Library.Simulation

/-!
# The whole interface of an array

Every member function of an array is a request, and its result or exception is the answer.
Runs of requests are compared with the same runs on a plain list, which knows the groups
only through its length. The content of fresh memory, different in each call, shows in no
answer; in the array itself it shows in the padding of the groups.
-/

namespace Oroch

open Cursor
open Simulation (Machine Simulates)

namespace IntegerGroup

variable {T : IntType}

/-- Two groups that differ in their padding at most: the metadata are the same, and so is
everything from the data offset on. -/
def Alike (aligned : Bool) (g g' : IntegerGroup T) : Prop :=
  ∃ (m : Metadata T) (header pad pad' data : Bytes),
    Consumes (Metadata.decode (Metadata.fresh T)) header m ∧
    g.data = some (header ++ (pad ++ data)) ∧ g'.data = some (header ++ (pad' ++ data)) ∧
    header.length + pad.length = dataOffset aligned header.length ∧ pad'.length = pad.length

theorem Stores.alike {g g' : IntegerGroup T} {src : List T.Original} {aligned : Bool}
    (h : g.Stores src aligned) (h' : g'.Stores src aligned) (room : src.length < 2 ^ 64) :
    g.Alike aligned g' := by
  have described := IntegerCodec.select_describes src room
  have read := Metadata.consumes_decode (Metadata.fresh T) _ described.expressible
  obtain ⟨pad, bytes, data, written, -, offset, -⟩ := h.data room
  obtain ⟨pad', bytes', data', written', -, offset', -⟩ := h'.data room
  obtain rfl : bytes = bytes' := Except.ok.inj (written.symm.trans written')
  have header := described.metaspace
  refine ⟨_, _, pad, pad', bytes, read, data, data', ?_, by omega⟩
  rw [header]
  exact offset

end IntegerGroup

namespace IntegerArray

open Chunks (Chunked)

variable {T : IntType}

/-- `empty()` -/
def isEmpty (self : IntegerArray T) : Bool := self.groups.isEmpty && self.tail.isEmpty

inductive Request (T : IntType) where
  | insert (arrayIndex : Nat) (value : T.Original)
  | clear
  | checkedAt (npos : Nat)
  | find (value : T.Original)
  | size
  | isEmpty
  | groupInfo
  deriving DecidableEq, Repr

inductive Answer (T : IntType) where
  | done
  | value (v : T.Original)
  | number (n : Nat)
  | flag (b : Bool)
  | printed (bytes : Bytes)
  | failed (e : Failure)
  deriving DecidableEq, Repr

/-- Behind undefined behaviour nothing is promised. -/
def Answer.last (answer : Answer T) : Bool := answer = .failed .undefined

def Answer.ofOutcome {α : Type} (f : α → Answer T) : Outcome α → Answer T
  | .ok a => f a
  | .error e => .failed e

/-- One request, with the content of the memory that the call uses. -/
def serve (self : IntegerArray T) :
    (Nat → Storage T) × Request T → Answer T × IntegerArray T
  | (storage, .insert arrayIndex value) =>
    let (result, self') := (insert storage arrayIndex value).call self
    (.ofOutcome (fun _ => .done) result, self')
  | (_, .clear) =>
    let (result, self') := clear.call self
    (.ofOutcome (fun _ => .done) result, self')
  | (storage, .checkedAt npos) => (.ofOutcome .value (self.checkedAt storage npos), self)
  | (storage, .find value) => (.ofOutcome .number (self.find storage value), self)
  | (_, .size) => (.number self.size, self)
  | (_, .isEmpty) => (.flag self.isEmpty, self)
  | (_, .groupInfo) => (.ofOutcome .printed self.groupInfo, self)

def machine (T : IntType) : Machine (IntegerArray T) ((Nat → Storage T) × Request T) (Answer T) :=
  ⟨serve, Answer.last⟩

/-- Chunk by chunk, a list of `size` elements is no longer than up to the index. -/
abbrev Excludes (size index : Nat) : Prop :=
  index / groupSize > size / groupSize ∨ index % groupSize > size % groupSize

/-- The same requests, served by a list. -/
def serveList (l : List T.Original) : Request T → Answer T × List T.Original
  | .insert arrayIndex value =>
    if Excludes l.length arrayIndex then
      (.failed (.outOfRange "array index out of range"), l)
    else (.done, l.insertIdx arrayIndex value)
  | .clear => (.done, [])
  | .checkedAt npos =>
    if Excludes l.length npos then (.failed (.outOfRange "array index out of range"), l)
    else (l[npos]?.elim (.failed .undefined) .value, l)
  | .find value => (.number ((l.findIdx? (· = value)).getD notFound), l)
  | .size => (.number l.length, l)
  | .isEmpty => (.flag l.isEmpty, l)
  | .groupInfo =>
    (.printed ((List.range (l.length / groupSize)).flatMap fun group =>
      IntegerCodec.line ((l.drop (groupSize * group)).take groupSize)), l)

def listMachine (T : IntType) : Machine (List T.Original) (Request T) (Answer T) :=
  ⟨serveList, Answer.last⟩

/-- The array knows the length of the list from its groups and its tail. -/
theorem Represents.refuses_iff {self : IntegerArray T} {c : Chunked groupSize T.Original}
    (h : self.Represents c) (index : Nat) :
    self.Refuses index ↔ Excludes c.toList.length index := by
  rw [Refuses, Excludes, h.length_groups, h.tail, c.length_chunks, c.length_rest]

theorem Represents.isEmpty {self : IntegerArray T} {c : Chunked groupSize T.Original}
    (h : self.Represents c) : self.isEmpty = c.toList.isEmpty := by
  rw [Bool.eq_iff_iff, IntegerArray.isEmpty, Bool.and_eq_true, List.isEmpty_iff, List.isEmpty_iff,
    List.isEmpty_iff, ← List.length_eq_zero_iff, ← List.length_eq_zero_iff (l := c.toList),
    c.length_toList, ← h.length_groups, ← h.tail, ← List.length_eq_zero_iff]
  have := groupSize_pos
  constructor
  · rintro ⟨groups, tail⟩
    rw [groups, tail, Nat.mul_zero]
  · intro none
    obtain ⟨groups, tail⟩ := Nat.add_eq_zero_iff.mp none
    exact ⟨(Nat.mul_eq_zero.mp groups).resolve_left (by omega), tail⟩

theorem serve_insert (storage : Nat → Storage T) {self : IntegerArray T} {l : List T.Original}
    (h : self.Holds l) (index : Nat) (value : T.Original) :
    (self.serve (storage, .insert index value)).1 = (serveList l (.insert index value)).1 ∧
      (self.serve (storage, .insert index value)).2.Holds
        (serveList l (.insert index value)).2 := by
  obtain ⟨c, represents, rfl⟩ := h
  by_cases refused : self.Refuses index
  · have excluded := (represents.refuses_iff index).mp refused
    simp only [serve, serveList, insert_refused storage refused, if_pos excluded]
    exact ⟨rfl, c, represents, rfl⟩
  · have included := fun h => refused ((represents.refuses_iff index).mpr h)
    obtain ⟨self', call, represents'⟩ := insert_accepted storage represents refused value
    simp only [serve, serveList, call, if_neg included]
    exact ⟨rfl, _, represents', c.toList_insert value (represents.le_of_accepted refused)⟩

/-- A read that is not refused: the element of the list, and nothing defined at its end. -/
theorem checkedAt_accepted (storage : Nat → Storage T) {self : IntegerArray T}
    {c : Chunked groupSize T.Original} (h : self.Represents c) {npos : Nat}
    (accepted : ¬ self.Refuses npos) :
    self.checkedAt storage npos = (c.toList[npos]?).elim (.error .undefined) .ok := by
  by_cases packed : npos / groupSize < self.groups.length
  · have exact_ := readsExactly_group storage h accepted packed
    by_cases inside : npos < c.toList.length
    · obtain ⟨value, found, read⟩ := exact_.1 inside
      rw [read, found]
      rfl
    · obtain ⟨within, full, -⟩ := h.chunk packed
      have index : npos % groupSize < c.chunks[npos / groupSize].length := by
        rw [full]
        exact Nat.mod_lt npos groupSize_pos
      have found := c.getElem?_chunk within
      rw [List.getElem?_eq_getElem index] at found
      obtain ⟨short, -⟩ := List.getElem?_eq_some_iff.mp found
      exact absurd short inside
  · have behind : npos / groupSize = self.groups.length := by
      have near := (not_or.mp accepted).1
      omega
    have position : groupSize * c.chunks.length + npos % groupSize = npos := by
      rw [← h.length_groups, ← behind, Nat.div_add_mod]
    rw [checkedAt_tail storage accepted behind, h.tail, ← c.getElem?_rest, position]
    cases c.toList[npos]? with
    | some value => rfl
    | none => rfl

theorem serve_checkedAt (storage : Nat → Storage T) {self : IntegerArray T} {l : List T.Original}
    (h : self.Holds l) (npos : Nat) :
    (self.serve (storage, .checkedAt npos)).1 = (serveList l (.checkedAt npos)).1 := by
  obtain ⟨c, represents, rfl⟩ := h
  by_cases refused : self.Refuses npos
  · have throws : self.checkedAt storage npos =
        .error (.outOfRange "array index out of range") := if_pos refused
    simp only [serve, serveList, throws, if_pos ((represents.refuses_iff npos).mp refused)]
    rfl
  · have included := fun h => refused ((represents.refuses_iff npos).mpr h)
    simp only [serve, serveList, checkedAt_accepted storage represents refused, if_neg included]
    cases c.toList[npos]? with
    | some value => rfl
    | none => rfl

/-- A search runs through the groups and then through the tail, as through the list. -/
theorem Represents.find_eq {self : IntegerArray T} {c : Chunked groupSize T.Original}
    (h : self.Represents c) (storage : Nat → Storage T) (value : T.Original) :
    self.find storage value = .ok ((c.toList.findIdx? (· = value)).getD notFound) := by
  have before : c.chunks.flatten.length = self.groups.length * groupSize := by
    rw [Chunks.length_flatten c.full, h.length_groups, Nat.mul_comm]
  rw [find, findLoop_eq storage value h.chunks 0, Chunked.toList, List.findIdx?_append, before,
    ← h.tail]
  cases c.chunks.flatten.findIdx? (· = value) with
  | some position => exact congrArg Except.ok (by simp)
  | none =>
    cases self.tail.findIdx? (· = value) with
    | some index => exact congrArg Except.ok (Nat.add_comm _ _)
    | none => rfl

/-- A line for each chunk. -/
theorem Represents.groupInfo {self : IntegerArray T} {c : Chunked groupSize T.Original}
    (h : self.Represents c) : self.groupInfo = .ok (c.chunks.flatMap IntegerCodec.line) := by
  have lines : List.Forall₂ (fun g line => g.info = .ok line) self.groups
      (c.chunks.map IntegerCodec.line) := by
    rw [List.forall₂_map_right_iff]
    refine h.chunks.imp ?_
    rintro g chunk ⟨full, stored⟩
    exact stored.info (room_of_full full)
  rw [IntegerArray.groupInfo, mapM_ok lines, List.flatMap_def]
  rfl

/-- The array answers as the list does and keeps representing it. -/
theorem serve_simulates : Simulates (machine T) (listMachine T) Prod.snd Holds where
  last := rfl
  answer := by
    rintro self l holds ⟨storage, request⟩
    cases request with
    | insert index value => exact (serve_insert storage holds index value).1
    | clear => rfl
    | checkedAt npos => exact serve_checkedAt storage holds npos
    | find value =>
      obtain ⟨c, represents, rfl⟩ := holds
      exact congrArg (Answer.ofOutcome .number) (represents.find_eq storage value)
    | size =>
      obtain ⟨c, represents, rfl⟩ := holds
      exact congrArg Answer.number represents.size
    | isEmpty =>
      obtain ⟨c, represents, rfl⟩ := holds
      exact congrArg Answer.flag represents.isEmpty
    | groupInfo =>
      obtain ⟨c, represents, rfl⟩ := holds
      have lines : (self.groupInfo) = .ok ((List.range (c.toList.length / groupSize)).flatMap
          fun group => IntegerCodec.line ((c.toList.drop (groupSize * group)).take groupSize)) := by
        rw [represents.groupInfo, c.chunks_eq, List.flatMap_map]
      exact congrArg (Answer.ofOutcome .printed) lines
  next := by
    rintro self l holds ⟨storage, request⟩
    cases request with
    | insert index value => exact (serve_insert storage holds index value).2
    | clear => exact ⟨_, represents_empty, rfl⟩
    | checkedAt npos =>
      simp only [machine, listMachine, serve, serveList]
      split <;> exact holds
    | find value => exact holds
    | size => exact holds
    | isEmpty => exact holds
    | groupInfo => exact holds

theorem holds_empty : (empty T).Holds [] := ⟨_, represents_empty, rfl⟩

/-- In every run, whatever the memory held, each call answers what the list answers that
the same calls build, refusals and the undefined read at the end included; the array left
at the end represents the list left at the end. -/
theorem answers_refine_list (requests : List ((Nat → Storage T) × Request T)) :
    ((machine T).run (empty T) requests).1 =
        ((listMachine T).run [] (requests.map Prod.snd)).1 ∧
      ((machine T).run (empty T) requests).2.Holds
        ((listMachine T).run [] (requests.map Prod.snd)).2 :=
  serve_simulates.run requests holds_empty

theorem Holds.alike {self self' : IntegerArray T} {l : List T.Original} (h : self.Holds l)
    (h' : self'.Holds l) :
    self.tail = self'.tail ∧ List.Forall₂ (IntegerGroup.Alike true) self.groups self'.groups := by
  obtain ⟨c, represents, rfl⟩ := h
  obtain ⟨c', represents', same⟩ := h'
  obtain ⟨chunks, rest⟩ := Chunked.chunks_unique same
  constructor
  · rw [represents.tail, represents'.tail, rest]
  · have count : self.groups.length = self'.groups.length := by
      rw [represents.length_groups, represents'.length_groups, chunks]
    rw [List.forall₂_iff_get]
    refine ⟨count, fun group packed packed' => ?_⟩
    obtain ⟨inside, full, stored⟩ := represents.chunk packed
    obtain ⟨inside', -, stored'⟩ := represents'.chunk packed'
    simp only [chunks] at stored'
    exact stored.alike stored' (room_of_full full)

/-- Arrays of one list cannot be told apart, whatever was inserted and cleared on the way to
it and whatever the memory held: the same calls get the same answers from both and leave
them with the same tail and the same groups but for the padding. -/
theorem same_list_same_behaviour {self self' : IntegerArray T} {l : List T.Original}
    (h : Reachable self l) (h' : Reachable self' l)
    {requests requests' : List ((Nat → Storage T) × Request T)}
    (same : requests.map Prod.snd = requests'.map Prod.snd) :
    let run := (machine T).run self requests
    let run' := (machine T).run self' requests'
    run.1 = run'.1 ∧ run.2.tail = run'.2.tail ∧
      List.Forall₂ (IntegerGroup.Alike true) run.2.groups run'.2.groups := by
  obtain ⟨answers, final, holds, holds'⟩ :=
    serve_simulates.run_eq_run same (reachable_holds h) (reachable_holds h')
  exact ⟨answers, holds.alike holds'⟩

/-- Two groups of one value, over memory of zeros and over memory of ones, and an insertion
that goes through both of them. -/
theorem same_list_same_behaviour_int32 :
    ∃ self self' : IntegerArray int32, Reachable self (List.replicate 512 7) ∧
      Reachable self' (List.replicate 512 7) ∧
      let run := (machine int32).run self [(fun _ => ⟨fun _ => 0, fun _ => 0⟩, .insert 0 9),
        (fun _ => ⟨fun _ => 0, fun _ => 0⟩, .find 7)]
      let run' := (machine int32).run self' [(fun _ => ⟨fun _ => 255, fun _ => 1⟩, .insert 0 9),
        (fun _ => ⟨fun _ => 255, fun _ => 1⟩, .find 7)]
      run.1 = [.done, .number 1] ∧ run'.1 = [.done, .number 1] ∧
        List.Forall₂ (IntegerGroup.Alike true) run.2.groups run'.2.groups := by
  obtain ⟨self, run⟩ := reaches_every_list (fun _ => ⟨fun _ => 0, fun _ => 0⟩)
    (List.replicate 512 (7 : int32.Original))
  obtain ⟨self', run'⟩ := reaches_every_list (fun _ => ⟨fun _ => 255, fun _ => 1⟩)
    (List.replicate 512 (7 : int32.Original))
  let requests : List ((Nat → Storage int32) × Request int32) :=
    [(fun _ => ⟨fun _ => 0, fun _ => 0⟩, .insert 0 9), (fun _ => ⟨fun _ => 0, fun _ => 0⟩, .find 7)]
  let requests' : List ((Nat → Storage int32) × Request int32) :=
    [(fun _ => ⟨fun _ => 255, fun _ => 1⟩, .insert 0 9),
      (fun _ => ⟨fun _ => 255, fun _ => 1⟩, .find 7)]
  obtain ⟨answers, -, groups⟩ := same_list_same_behaviour run run'
    (show requests.map Prod.snd = requests'.map Prod.snd from rfl)
  have listed : ((listMachine int32).run (List.replicate 512 7) [.insert 0 9, .find 7]).1 =
      [.done, .number 1] := by decide +kernel
  have answered := (serve_simulates.run requests (reachable_holds run)).1.trans listed
  exact ⟨self, self', run, run', answered, answers.symm.trans answered, groups⟩

end IntegerArray

end Oroch
