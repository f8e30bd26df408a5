import Oroch.ArrayRuns
import Oroch.GroupSearch

/-!
# Reading an integer array

`find` gives the first position of a value in the represented list. `at` compares the
index in the group with the length of the tail whatever the group is, so it reads behind
the tail at `size()` and refuses positions in the groups that lie beyond the tail's length.
-/

namespace Oroch

namespace IntegerArray

open Chunks (Chunked)

variable {T : IntType}

/-- The loop finds the position in the concatenated chunks. -/
theorem findLoop_eq (storage : Nat → Storage T) (value : T.Original)
    {groups : List (IntegerGroup T)} {chunks : List (List T.Original)}
    (stores : List.Forall₂ (fun g chunk => chunk.length = groupSize ∧ g.Stores chunk true)
      groups chunks) (group : Nat) :
    findLoop storage value group groups =
      .ok ((chunks.flatten.findIdx? (· = value)).map (group * groupSize + ·)) := by
  induction stores generalizing group with
  | nil => rfl
  | @cons g chunk groups chunks stored stores ih =>
    obtain ⟨full, stored⟩ := stored
    rw [findLoop, IntegerGroup.find_eq stored full, List.flatten_cons, List.findIdx?_append, full]
    cases found : chunk.findIdx? (· = value) with
    | none =>
      simp only [bind, Except.bind, Option.getD_none, ne_eq, not_true_eq_false, if_false]
      have next : (group * groupSize + ·) ∘ (· + groupSize) = ((group + 1) * groupSize + ·) := by
        funext i
        rw [Function.comp_apply, Nat.succ_mul]
        omega
      rw [ih, Option.none_or, Option.map_map, next]
    | some index =>
      have inside : index < groupSize := by
        obtain ⟨short, -⟩ := List.findIdx?_eq_some_iff_getElem.mp found
        omega
      have hit : index ≠ notFound := by
        have : groupSize < notFound := by decide
        omega
      simp only [bind, Except.bind, Option.getD_some, if_pos hit]
      rfl

/-- Every search returns the first position of the value in the list, and the search of a
group returns what a scan of its decoded elements returns. -/
theorem find_first {self : IntegerArray T} {l : List T.Original} (h : Reachable self l)
    (storage : Nat → Storage T) (value : T.Original) :
    self.find storage value = .ok ((l.findIdx? (· = value)).getD notFound) ∧
    ∀ group, (inside : group < self.groups.length) →
      self.groups[group].find (storage group) value =
          self.groups[group].findDecoded (storage group) value ∧
        self.groups[group].find (storage group) value =
          .ok ((((l.drop (groupSize * group)).take groupSize).findIdx? (· = value)).getD
            notFound) := by
  obtain ⟨c, represents, rfl⟩ := reachable_holds h
  have stores := represents.chunks
  constructor
  · have len := Chunks.length_flatten c.full
    rw [find, findLoop_eq storage value stores 0, Chunked.toList, List.findIdx?_append]
    cases c.chunks.flatten.findIdx? (· = value) with
    | some position =>
      simp only [bind, Except.bind, Option.map_some, Nat.zero_mul, Nat.zero_add]
      rfl
    | none =>
      rw [← represents.tail, len, ← represents.length_groups]
      cases self.tail.findIdx? (· = value) with
      | some index =>
        exact congrArg Except.ok (by rw [Nat.mul_comm, Nat.add_comm]; rfl)
      | none => rfl
  · intro group inside
    obtain ⟨within, full, stored⟩ := represents.chunk inside
    rw [c.chunk_eq within]
    exact ⟨(IntegerGroup.find_eq stored full _ value).trans
      (IntegerGroup.findDecoded_eq stored full _ value).symm,
      IntegerGroup.find_eq stored full _ value⟩

theorem find_first_int32 :
    ∃ self : IntegerArray int32, Reachable self (List.replicate 256 7 ++ [9, 8, 9]) ∧
      self.find (fun _ => ⟨fun _ => 0, fun _ => 0⟩) 9 = .ok 256 := by
  obtain ⟨self, run⟩ := reaches_every_list (fun _ => ⟨fun _ => 0, fun _ => 0⟩)
    (List.replicate 256 7 ++ ([9, 8, 9] : List int32.Original))
  have first : (List.replicate 256 7 ++ ([9, 8, 9] : List int32.Original)).findIdx? (· = 9) =
      some 256 := by
    rw [List.findIdx?_append, List.findIdx?_replicate, List.length_replicate]
    rfl
  refine ⟨self, run, (find_first run _ 9).1.trans ?_⟩
  rw [first, Option.getD_some]

/-- What `at` is meant to do at a position: it returns the element of the list there, or
throws if there is none. -/
def ReadsExactly (self : IntegerArray T) (storage : Nat → Storage T) (l : List T.Original)
    (npos : Nat) : Prop :=
  (npos < l.length → ∃ value, l[npos]? = some value ∧ self.checkedAt storage npos = .ok value) ∧
    (l.length ≤ npos →
      self.checkedAt storage npos = .error (.outOfRange "array index out of range"))

/-- A refused read meets the purpose just where there is no element. -/
theorem readsExactly_refused (storage : Nat → Storage T) {self : IntegerArray T}
    {l : List T.Original} {npos : Nat} (refused : self.Refuses npos) :
    self.ReadsExactly storage l npos ↔ l.length ≤ npos := by
  have throws : self.checkedAt storage npos =
      .error (.outOfRange "array index out of range") := by
    rw [checkedAt]
    exact if_pos refused
  rw [ReadsExactly, throws]
  constructor
  · rintro ⟨reads, -⟩
    by_contra inside
    obtain ⟨value, -, read⟩ := reads (by omega)
    simp at read
  · intro behind
    exact ⟨fun inside => by omega, fun _ => rfl⟩

/-- A read in one of the groups. -/
theorem readsExactly_group (storage : Nat → Storage T) {self : IntegerArray T}
    {c : Chunked groupSize T.Original} (h : self.Represents c) {npos : Nat}
    (accepted : ¬ self.Refuses npos) (packed : npos / groupSize < self.groups.length) :
    self.ReadsExactly storage c.toList npos := by
  obtain ⟨inside, full, stored⟩ := h.chunk packed
  have within : npos % groupSize < c.chunks[npos / groupSize].length := by
    rw [full]
    exact Nat.mod_lt _ groupSize_pos
  have found : c.toList[npos]? = some c.chunks[npos / groupSize][npos % groupSize] := by
    rw [c.getElem?_chunk inside, List.getElem?_eq_getElem within]
  have read : self.checkedAt storage npos = .ok c.chunks[npos / groupSize][npos % groupSize] := by
    rw [checkedAt]
    simp only [if_neg accepted, List.getElem?_eq_getElem packed]
    rw [IntegerGroup.get, stored.decode_buffer full]
    simp only [bind, Except.bind, List.getElem?_eq_getElem within]
    rfl
  constructor
  · intro short
    exact ⟨_, found, read⟩
  · intro behind
    obtain ⟨short, -⟩ := List.getElem?_eq_some_iff.mp found
    exact absurd short (Nat.not_lt.mpr behind)

/-- A read behind the groups goes to the tail without any other check. -/
theorem checkedAt_tail (storage : Nat → Storage T) {self : IntegerArray T} {npos : Nat}
    (accepted : ¬ self.Refuses npos) (behind : npos / groupSize = self.groups.length) :
    self.checkedAt storage npos =
      match self.tail[npos % groupSize]? with
      | some value => .ok value
      | none => .error .undefined := by
  have none : self.groups[npos / groupSize]? = none :=
    List.getElem?_eq_none (Nat.le_of_eq behind.symm)
  cases found : self.tail[npos % groupSize]? with
  | some value => simp only [checkedAt, if_neg accepted, none, found]
  | none => simp only [checkedAt, if_neg accepted, none, found]

theorem readsExactly_tail (storage : Nat → Storage T) {self : IntegerArray T}
    {c : Chunked groupSize T.Original} (h : self.Represents c) {npos : Nat}
    (accepted : ¬ self.Refuses npos) (behind : npos / groupSize = self.groups.length) :
    self.ReadsExactly storage c.toList npos ↔ npos ≠ self.size := by
  have position : groupSize * self.groups.length + npos % groupSize = npos := by
    rw [← behind, Nat.div_add_mod]
  have element : c.toList[npos]? = self.tail[npos % groupSize]? := by
    rw [h.tail, ← c.getElem?_rest, ← h.length_groups, position]
  have total : self.size = groupSize * self.groups.length + self.tail.length :=
    congrArg (· + _) (Nat.mul_comm _ _)
  rw [ReadsExactly, ← h.size, checkedAt_tail storage accepted behind, element]
  by_cases inside : npos % groupSize < self.tail.length
  · rw [List.getElem?_eq_getElem inside]
    constructor
    · intro exactly
      omega
    · intro other
      exact ⟨fun _ => ⟨_, rfl, rfl⟩, fun after => by omega⟩
  · have last : npos = self.size := by
      have index := (not_or.mp accepted).2
      omega
    rw [List.getElem?_eq_none (Nat.not_lt.mp inside)]
    constructor
    · rintro ⟨-, throws⟩
      have undefined := throws (Nat.le_of_eq last.symm)
      simp at undefined
    · intro other
      exact absurd last other

/-- `at` meets its purpose at all positions but the size, where it reads behind the tail,
and those in the groups whose index in the group exceeds the length of the tail, which it
refuses. -/
theorem readsExactly_iff {self : IntegerArray T} {l : List T.Original} (h : Reachable self l)
    (storage : Nat → Storage T) (npos : Nat) :
    self.ReadsExactly storage l npos ↔
      npos ≠ self.size ∧
        (npos / groupSize < self.groups.length → npos % groupSize ≤ self.tail.length) := by
  obtain ⟨c, represents, rfl⟩ := reachable_holds h
  have short : self.tail.length < 256 := represents.tail ▸ c.short
  have total : self.size = self.groups.length * 256 + self.tail.length := rfl
  have group : groupSize = 256 := rfl
  by_cases refused : self.Refuses npos
  · rw [readsExactly_refused storage refused, ← represents.size]
    rw [Refuses, group] at refused
    rw [group]
    omega
  · by_cases packed : npos / groupSize < self.groups.length
    · have index := (not_or.mp refused).2
      constructor
      · intro exactly
        refine ⟨?_, fun _ => Nat.not_lt.mp index⟩
        rw [group] at packed
        omega
      · rintro ⟨other, near⟩
        exact readsExactly_group storage represents refused packed
    · have near := (not_or.mp refused).1
      rw [readsExactly_tail storage represents refused (by omega)]
      constructor
      · intro other
        exact ⟨other, fun inside => absurd inside packed⟩
      · rintro ⟨other, near⟩
        exact other

/-- With one group and an empty tail, the front can be read and position 5 cannot. -/
theorem readsExactly_iff_int32 :
    ∃ self : IntegerArray int32, Reachable self (List.replicate 256 7) ∧
      self.ReadsExactly (fun _ => ⟨fun _ => 0, fun _ => 0⟩) (List.replicate 256 7) 0 ∧
      ¬ self.ReadsExactly (fun _ => ⟨fun _ => 0, fun _ => 0⟩) (List.replicate 256 7) 5 := by
  obtain ⟨self, run, groups, tail⟩ :=
    one_group (fun _ => ⟨fun _ => 0, fun _ => 0⟩) (7 : int32.Original)
  have size : self.size = 256 := by rw [IntegerArray.size, groups, tail]; rfl
  refine ⟨self, run, (readsExactly_iff run _ 0).mpr ?_, ?_⟩
  · rw [size]
    exact ⟨by decide, fun _ => Nat.zero_le _⟩
  · intro exactly
    have index := ((readsExactly_iff run _ 5).mp exactly).2
    rw [groups, tail] at index
    exact absurd (index (by decide)) (by decide)

/-- Position 0 of an empty array: the tail is read behind its end. -/
theorem at_reads_behind_tail :
    Reachable (empty int32) [] ∧
      (empty int32).checkedAt (fun _ => ⟨fun _ => 0, fun _ => 0⟩) 0 = .error .undefined ∧
      ¬ (empty int32).ReadsExactly (fun _ => ⟨fun _ => 0, fun _ => 0⟩) [] 0 := by
  refine ⟨.refl, rfl, ?_⟩
  rintro ⟨-, throws⟩
  exact absurd (throws (Nat.le_refl 0)) (by decide)

end IntegerArray

end Oroch
