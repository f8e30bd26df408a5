import Oroch.ArrayInterface
import Oroch.FailedInsertions

/-!
# Runs in which memory runs out

Any insertion of a run may run out of memory, anywhere. Beside the array the list is
tracked that it should represent: as long as the insertions that fail do so at points where
all groups can still be decoded and the tail is short, there is one; behind another failure
there is none until the array is cleared, and an insertion that is undefined ends the run.
-/

namespace Oroch

namespace Failing

open Attempt Chunks
open IntegerArray (machine listMachine serve_simulates)

variable {T : IntType}

/-- The list that is left when an insertion stops at a point, if there is one. -/
def survivors (l : List T.Original) (index : Nat) (value : T.Original) (ngroups : Nat) :
    Point → Option (List T.Original)
  | .resize group => some (missing l index value group)
  | .tail => some (missing l index value ngroups)
  | .buffer group => if group < ngroups then some (missing l index value group) else none
  | .outliers _ _ | .groups => none

/-- One call, with the tracked list in front of it and behind it. -/
inductive Step : IntegerArray T × Option (List T.Original) →
    IntegerArray T × Option (List T.Original) → Prop
  | insert {self self' : IntegerArray T} {l : List T.Original} (fails : Point → Bool)
      (storage : Nat → Storage T) (index : Nat) (value : T.Original)
      (returns : (insert fails storage index value).call self = (.ok (), self')) :
      Step (self, some l) (self', some (l.insertIdx index value))
  | refuse {self self' : IntegerArray T} {l : List T.Original} (fails : Point → Bool)
      (storage : Nat → Storage T) (index : Nat) (value : T.Original) {e : Failure}
      (throws : (insert fails storage index value).call self = (.error (.failure e), self')) :
      Step (self, some l) (self', some l)
  | stop {self self' : IntegerArray T} {l : List T.Original} (fails : Point → Bool)
      (storage : Nat → Storage T) (index : Nat) (value : T.Original) {point : Point}
      (throws : (insert fails storage index value).call self = (.error (.badAlloc point), self')) :
      Step (self, some l) (self', survivors l index value self.groups.length point)
  | lost {self self' : IntegerArray T} (fails : Point → Bool) (storage : Nat → Storage T)
      (index : Nat) (value : T.Original) {result : Except Fault Unit}
      (ends : (insert fails storage index value).call self = (result, self'))
      (goes_on : result ≠ .error (.failure .undefined)) : Step (self, none) (self', none)
  | clear {self self' : IntegerArray T} {tracked : Option (List T.Original)}
      (returns : IntegerArray.clear.call self = (.ok (), self')) :
      Step (self, tracked) (self', some [])

/-- If a list is tracked, the array represents it. -/
def Tracks (s : IntegerArray T × Option (List T.Original)) : Prop :=
  ∀ l, s.2 = some l → s.1.Holds l

theorem insert_refused (fails : Point → Bool) (storage : Nat → Storage T) {self : IntegerArray T}
    {index : Nat} (refused : self.Refuses index) (value : T.Original) :
    (insert fails storage index value).call self =
      (.error (.failure (.outOfRange "array index out of range")), self) := by
  rw [insert, call_get_bind]
  simp only [if_pos refused]
  rfl

theorem Leaves.holds {self : IntegerArray T} {l l' : List T.Original} {index ngroups : Nat}
    {value : T.Original} {point : Point} (h : Leaves l index value ngroups self point)
    (left : survivors l index value ngroups point = some l') : self.Holds l' := by
  cases point with
  | resize group | tail =>
    obtain rfl := Option.some.inj left
    exact h
  | buffer group =>
    rw [survivors] at left
    rw [Leaves] at h
    split at left
    · rename_i packed
      rw [if_pos packed] at h
      obtain rfl := Option.some.inj left
      exact h
    · cases left
  | outliers group position | groups => cases left

/-- A call on an array that represents a list. -/
theorem insert_holds (fails : Point → Bool) (storage : Nat → Storage T) {self : IntegerArray T}
    {l : List T.Original} (h : self.Holds l) {index : Nat} (accepted : ¬ self.Refuses index)
    (value : T.Original) :
    (∃ point self', fails point = true ∧
      (insert fails storage index value).call self = (.error (.badAlloc point), self') ∧
      Leaves l index value self.groups.length self' point) ∨
    ∃ self', (∀ group, index / groupSize ≤ group → group < self.groups.length →
        ¬ fails (.buffer group) = true) ∧
      (insert fails storage index value).call self = (.ok (), self') ∧
      (IntegerArray.insert storage index value).call self = (.ok (), self') ∧
      self'.Holds (l.insertIdx index value) := by
  obtain ⟨c, represents, rfl⟩ := h
  obtain ⟨grown, real, represents'⟩ := IntegerArray.insert_accepted storage represents accepted value
  have inserted := c.toList_insert value (represents.le_of_accepted accepted)
  rcases insert_outcome fails represents storage accepted value with
    stopped | ⟨self', spared, -, returned, added⟩
  · exact .inl stopped
  · obtain rfl : self' = grown := congrArg Prod.snd (added.symm.trans real)
    exact .inr ⟨self', spared, returned, added, _, represents', inserted⟩

/-- Where there is memory at all points, a call does what the call of the array does. -/
theorem insert_unfailing (storage : Nat → Storage T) {self : IntegerArray T}
    {l : List T.Original} (h : self.Holds l) {index : Nat} (accepted : ¬ self.Refuses index)
    (value : T.Original) :
    ∃ self', (insert (fun _ => false) storage index value).call self = (.ok (), self') ∧
      (IntegerArray.insert storage index value).call self = (.ok (), self') := by
  rcases insert_holds (fun _ => false) storage h accepted value with
    ⟨point, self', failed, -⟩ | ⟨self', -, returns, added, -⟩
  · exact absurd failed Bool.false_ne_true
  · exact ⟨self', returns, added⟩

/-- Without groups only the tail changes. -/
theorem insert_into_tail (fails : Point → Bool) (storage : Nat → Storage T)
    {tail : List T.Original} {index : Nat} (inside : index ≤ tail.length)
    (first : index < groupSize) (value : T.Original) :
    (insert fails storage index value).call ⟨tail, []⟩ =
      (insertTail fails (storage 0) 0 index value).call ⟨tail, []⟩ := by
  have accepted : ¬ (⟨tail, []⟩ : IntegerArray T).Refuses index := by
    rw [IntegerArray.Refuses, Nat.div_eq_of_lt first, Nat.mod_eq_of_lt first]
    exact not_or.mpr ⟨Nat.not_lt_zero 0, Nat.not_lt.mpr inside⟩
  rw [insert, call_get_bind]
  simp only [if_neg accepted]
  rw [Nat.div_eq_of_lt first, Nat.mod_eq_of_lt first]
  rfl

/-- What is left of a represented list when a call ends. -/
def Ends (self : IntegerArray T) (l : List T.Original) (index : Nat) (value : T.Original)
    (self' : IntegerArray T) : Except Fault Unit → Prop
  | .ok () => self'.Holds (l.insertIdx index value)
  | .error (.failure _) => self' = self
  | .error (.badAlloc point) => Leaves l index value self.groups.length self' point

theorem insert_ends {fails : Point → Bool} {storage : Nat → Storage T} {self self' : IntegerArray T}
    {l : List T.Original} {index : Nat} {value : T.Original} {result : Except Fault Unit}
    (h : self.Holds l)
    (ends : (insert fails storage index value).call self = (result, self')) :
    Ends self l index value self' result := by
  by_cases refused : self.Refuses index
  · rw [insert_refused fails storage refused value] at ends
    cases ends
    rfl
  · rcases insert_holds fails storage h refused value with
      ⟨point, stopped, -, throws, leaves⟩ | ⟨grown, -, returns, -, inserted⟩
    · rw [throws] at ends
      cases ends
      exact leaves
    · rw [returns] at ends
      cases ends
      exact inserted

/-- Every call keeps the array and the tracked list together. -/
theorem step_tracks {s s' : IntegerArray T × Option (List T.Original)} (step : Step s s')
    (tracks : Tracks s) : Tracks s' := by
  cases step with
  | @insert self self' l fails storage index value returns =>
    rintro _ ⟨⟩
    exact insert_ends (tracks l rfl) returns
  | @refuse self self' l fails storage index value e throws =>
    rintro _ ⟨⟩
    obtain rfl : self' = self := insert_ends (tracks l rfl) throws
    exact tracks l rfl
  | @stop self self' l fails storage index value point throws =>
    intro left survive
    have leaves : Leaves l index value self.groups.length self' point :=
      insert_ends (tracks l rfl) throws
    exact leaves.holds survive
  | lost => rintro _ ⟨⟩
  | clear returns =>
    rintro _ ⟨⟩
    cases returns
    exact ⟨_, IntegerArray.represents_empty, rfl⟩

/-- A run of the array is a run in which there is memory at all points. -/
theorem run_of_reachable {self : IntegerArray T} {l : List T.Original}
    (h : IntegerArray.Reachable self l) :
    Relation.ReflTransGen Step (IntegerArray.empty T, some []) (self, some l) := by
  suffices all : ∀ s, Relation.ReflTransGen IntegerArray.Step (IntegerArray.empty T, []) s →
      Relation.ReflTransGen Step (IntegerArray.empty T, some []) (s.1, some s.2) from all _ h
  intro s run
  induction run with
  | refl => exact .refl
  | @tail before after run step ih =>
    have holds : before.1.Holds before.2 := IntegerArray.reachable_holds run
    refine ih.tail ?_
    cases step with
    | @insert self self' l storage index value returns =>
      by_cases refused : self.Refuses index
      · rw [IntegerArray.insert_refused storage refused value] at returns
        cases returns
      · obtain ⟨grown, call, added⟩ := insert_unfailing storage holds refused value
        obtain rfl : grown = self' := congrArg Prod.snd (added.symm.trans returns)
        exact .insert (fun _ => false) storage index value call
    | @throw self self' l storage index value e throws =>
      by_cases refused : self.Refuses index
      · rw [IntegerArray.insert_refused storage refused value] at throws
        obtain rfl : self = self' := congrArg Prod.snd throws
        exact .refuse (fun _ => false) storage index value
          (insert_refused (fun _ => false) storage refused value)
      · obtain ⟨grown, -, added⟩ := insert_unfailing storage holds refused value
        rw [added] at throws
        cases throws
    | clear returns => exact .clear returns

/-- In every run of insertions that may run out of memory anywhere, and of clears, an array
beside which a list is tracked represents it, and answers every further request as that
list does. -/
theorem run_survives {self : IntegerArray T} {l : List T.Original}
    (run : Relation.ReflTransGen Step (IntegerArray.empty T, some []) (self, some l)) :
    self.Holds l ∧ ∀ requests, ((machine T).run self requests).1 =
      ((listMachine T).run l (requests.map Prod.snd)).1 := by
  have tracks : ∀ s, Relation.ReflTransGen Step (IntegerArray.empty T, some []) s → Tracks s := by
    intro s run
    induction run with
    | refl =>
      rintro _ ⟨⟩
      exact IntegerArray.holds_empty
    | tail _ step ih => exact step_tracks step ih
  have holds := tracks _ run l rfl
  exact ⟨holds, fun requests => (serve_simulates.run requests holds).1⟩

/-- Where there is no memory for the first group, its elements stay in the tail and the list is
lost; the tail goes on growing. -/
theorem run_loses (storage : Nat → Storage T) (value : T.Original) :
    Relation.ReflTransGen Step (IntegerArray.empty T, some [])
      (⟨List.replicate 257 value, []⟩, none) := by
  obtain ⟨⟨tail, groups⟩, reached⟩ :=
    IntegerArray.reaches_every_list storage (List.replicate 255 value)
  obtain ⟨c, represents, same⟩ := IntegerArray.reachable_holds reached
  have count := represents.length_groups
  rw [c.length_chunks, same, List.length_replicate] at count
  obtain rfl : groups = [] := List.length_eq_zero_iff.mp count
  have rest := c.rest_eq
  rw [← represents.length_groups, same] at rest
  obtain rfl : tail = List.replicate 255 value := represents.tail.trans rest.symm
  have filled : ((List.replicate 255 value).insertIdx 0 value).length = groupSize := by
    rw [List.insertIdx_zero, List.length_cons, List.length_replicate]
    rfl
  have longer : ((List.replicate 256 value).insertIdx 0 value).length ≠ groupSize := by
    rw [List.insertIdx_zero, List.length_cons, List.length_replicate]
    decide
  have stopped := insertTail_stops (· = .groups) (storage 0) (Nat.zero_le _) (by decide) filled
    (decide_eq_true rfl) []
  have grown := insertTail_open (fun _ => false) (storage 0) (Nat.zero_le _) Bool.false_ne_true
    longer []
  have stops := (insert_into_tail (· = .groups) storage (Nat.zero_le _) groupSize_pos value).trans
    stopped
  have grows := (insert_into_tail (fun _ => false) storage (Nat.zero_le _) groupSize_pos value).trans
    grown
  exact ((run_of_reachable reached).tail (.stop _ _ _ _ stops)).tail
    (.lost _ _ _ _ grows (by simp))

/-- The list is lost and the array cleared; then an insertion stops at the second of two groups,
and the next one goes through both of them. -/
theorem run_survives_int32 :
    let storage : Nat → Storage int32 := fun _ => ⟨fun _ => 0, fun _ => 0⟩
    ∃ unsealed full stopped self : IntegerArray int32,
      Relation.ReflTransGen Step (IntegerArray.empty int32, some []) (unsealed, none) ∧
      Relation.ReflTransGen Step (unsealed, none) (full, some (List.replicate 512 7)) ∧
      (insert (· = .buffer 1) storage 0 9).call full =
        (.error (.badAlloc (.buffer 1)), stopped) ∧
      (insert (fun _ => false) storage 0 8).call stopped = (.ok (), self) ∧
      self.Holds (8 :: 9 :: List.replicate 511 7) ∧
      ((machine int32).run self
        [(storage, .find 9), (storage, .checkedAt 0), (storage, .size)]).1 =
          [.number 1, .value 8, .number 513] := by
  intro storage
  have lost := run_loses storage (7 : int32.Original)
  obtain ⟨full, reached, groups, -⟩ := IntegerArray.full_groups storage (7 : int32.Original) 2
  have again : Relation.ReflTransGen Step
      ((⟨List.replicate 257 7, []⟩, none) : IntegerArray int32 × Option (List int32.Original))
      (full, some (List.replicate 512 7)) := .head (.clear rfl) (run_of_reachable reached)
  have holds := IntegerArray.reachable_holds reached
  have accepted := full.accepts_zero
  rcases insert_holds (· = .buffer 1) storage holds accepted 9 with
    ⟨point, stopped, failed, throws, leaves⟩ | ⟨self', spared, -⟩
  · obtain rfl : point = .buffer 1 := of_decide_eq_true failed
    have survive : survivors (List.replicate 512 (7 : int32.Original)) 0 9 full.groups.length
        (.buffer 1) = some (9 :: List.replicate 511 7) := by
      rw [groups]
      decide +kernel
    have holds' : stopped.Holds (9 :: List.replicate 511 7) := leaves.holds survive
    obtain ⟨self, returns, -⟩ := insert_unfailing storage holds' stopped.accepts_zero 8
    have interrupted := (lost.trans again).tail (.stop _ _ _ _ throws)
    rw [survive] at interrupted
    obtain ⟨final, answers⟩ := run_survives (interrupted.tail (.insert _ _ _ _ returns))
    refine ⟨_, full, stopped, self, lost, again, throws, returns, final, ?_⟩
    rw [answers]
    decide +kernel
  · exact absurd (decide_eq_true rfl) (spared 1 (by decide) (by rw [groups]; decide))

end Failing

end Oroch
