import Mathlib.Algebra.Order.BigOperators.Group.List
import Mathlib.Tactic.Ring
import Oroch.ArrayRuns
import Oroch.Library.Frames
import Oroch.SelectionBounds

/-!
# Growing an array

An insertion touches no group in front of its own, however it ends and whatever the array
holds. A run of insertions at the end is never refused and rewrites no group. In any run the
groups take at most eight bytes each beyond the bytes of their elements.
-/

namespace Oroch

open Chunks (Chunked)
open Frames

namespace IntegerArray

variable {T : IntType}

/-- The first `k` groups stay, byte for byte. -/
def Keeps (k : Nat) (self self' : IntegerArray T) : Prop :=
  k ≤ self.groups.length →
    k ≤ self'.groups.length ∧ self'.groups.take k = self.groups.take k

instance (k : Nat) : Std.Refl (Keeps (T := T) k) where
  refl _ within := ⟨within, rfl⟩

instance (k : Nat) : IsTrans (IntegerArray T) (Keeps k) where
  trans _ _ _ first second within := by
    obtain ⟨within', same⟩ := first within
    obtain ⟨within'', same'⟩ := second within'
    exact ⟨within'', same'.trans same⟩

theorem onGroup_keeps {α : Type} {k group : Nat} (behind : k ≤ group)
    (f : Method (IntegerGroup T) α) : Within (Keeps k) (onGroup group f) := by
  refine within_get_bind fun self => ?_
  cases self.groups[group]? with
  | none => exact within_throw (R := Keeps k) _ self
  | some g =>
    have stored : Keeps k self { self with groups := self.groups.set group (f.call g).2 } := by
      intro within
      simp only [List.length_set]
      exact ⟨within, List.take_set_of_le behind⟩
    exact trans_of (Keeps k) stored (within_lift (R := Keeps k) (f.call g).1 _)

theorem insertLoop_keeps (storage : Nat → Storage T) {k : Nat} (count : Nat) {group : Nat}
    (behind : k ≤ group) (index : Nat) (value : T.Original) :
    Within (Keeps k) (insertLoop storage count group index value) := by
  induction count generalizing group index value with
  | zero => exact within_pure _
  | succ count ih =>
    refine within_bind (onGroup_keeps behind _) fun buffer => ?_
    cases buffer[groupSize - 1]? with
    | none => exact within_throw _
    | some saved =>
      exact within_bind (onGroup_keeps behind _) fun _ => ih (by omega) 0 saved

theorem insertTail_keeps (storage : Storage T) {k group : Nat} (behind : k ≤ group) (index : Nat)
    (value : T.Original) : Within (Keeps k) (insertTail storage group index value) := by
  refine within_get_bind fun self => ?_
  by_cases outside : index > self.tail.length
  · rw [if_pos outside]
    exact within_throw (R := Keeps k) _ self
  · rw [if_neg outside]
    by_cases filled : (self.tail.insertIdx index value).length = groupSize
    · simp only [if_pos filled]
      have grown : Keeps k self
          ⟨self.tail.insertIdx index value, self.groups ++ [IntegerGroup.fresh T]⟩ := by
        intro within
        simp only [List.length_append, List.take_append_of_le_length within]
        exact ⟨by omega, trivial⟩
      have rest : Within (Keeps (T := T) k) (do
          onGroup group (IntegerGroup.encode storage (self.tail.insertIdx index value) true)
          modify fun self => { self with tail := [] }) :=
        within_bind (onGroup_keeps behind _)
          fun _ => within_modify fun _ within => ⟨within, rfl⟩
      exact trans_of (Keeps k) grown (rest _)
    · simp only [if_neg filled]
      exact fun within => ⟨within, rfl⟩

theorem insert_keeps (storage : Nat → Storage T) (index : Nat) (value : T.Original) :
    Within (Keeps (T := T) (index / groupSize)) (insert storage index value) := by
  refine within_get_bind fun self => ?_
  by_cases refused : self.Refuses index
  · simp only [if_pos refused]
    exact within_throw (R := Keeps (index / groupSize)) _ self
  · simp only [if_neg refused]
    have near := (not_or.mp refused).1
    exact within_bind (insertLoop_keeps storage _ (Nat.le_refl _) _ value)
      (fun left => insertTail_keeps _ (by omega) left.1 left.2) self

/-- Whatever the array holds, wherever the insertion goes and however it ends, the groups
in front of the one that it goes to are left as they are. -/
theorem front_unchanged (self : IntegerArray T) (storage : Nat → Storage T) (index : Nat)
    (value : T.Original) :
    ((insert storage index value).call self).2.groups.take (index / groupSize) =
      self.groups.take (index / groupSize) := by
  by_cases within : index / groupSize ≤ self.groups.length
  · exact (insert_keeps storage index value self within).2
  · rw [insert_refused storage (.inl (Nat.lt_of_not_le within)) value]

/-- `insert(size(), value)`, for each of the values. -/
def append : List ((Nat → Storage T) × T.Original) → Method (IntegerArray T) Unit
  | [] => pure ()
  | (storage, value) :: calls => do
    insert storage (← get).size value
    append calls

/-- One insertion at the end. -/
theorem insert_size (storage : Nat → Storage T) {self : IntegerArray T} {l : List T.Original}
    (h : Reachable self l) (value : T.Original) :
    ∃ self', (insert storage self.size value).call self = (.ok (), self') ∧
      Reachable self' (l ++ [value]) ∧ self.groups <+: self'.groups := by
  obtain ⟨c, represents, rfl⟩ := reachable_holds h
  have size := represents.size
  have accepted := represents.accepts_length
  rw [← size] at accepted
  obtain ⟨self', call, -⟩ := insert_accepted storage represents accepted value
  have last : c.toList.insertIdx self.size value = c.toList ++ [value] := by simp [size]
  refine ⟨self', call, last ▸ h.tail (.insert storage self.size value call), ?_⟩
  have kept : Keeps (self.size / groupSize) self ((insert storage self.size value).call self).2 :=
    insert_keeps storage self.size value self
  have count : self.size / groupSize = self.groups.length := by
    rw [size, ← c.length_chunks, represents.length_groups]
  rw [count, call] at kept
  obtain ⟨-, same⟩ := kept (Nat.le_refl _)
  rw [List.take_length] at same
  exact same ▸ List.take_prefix _ _

/-- Insertions at the end are never refused, and however many they are, the groups that
were there before stay as they were. -/
theorem append_keeps_groups {self : IntegerArray T} {l : List T.Original} (h : Reachable self l)
    (calls : List ((Nat → Storage T) × T.Original)) :
    ∃ self', (append calls).call self = (.ok (), self') ∧
      Reachable self' (l ++ calls.map Prod.snd) ∧ self.groups <+: self'.groups := by
  induction calls generalizing self l with
  | nil => exact ⟨self, rfl, by simpa using h, List.prefix_rfl⟩
  | cons call calls ih =>
    obtain ⟨storage, value⟩ := call
    obtain ⟨next, returns, reaches, kept⟩ := insert_size storage h value
    obtain ⟨self', rest, reaches', kept'⟩ := ih reaches
    refine ⟨self', ?_, ?_, kept.trans kept'⟩
    · rw [append, Method.call_get_bind, Method.call_bind returns, rest]
    · simpa using reaches'

theorem append_keeps_groups_int32 :
    ∃ self self' : IntegerArray int32, Reachable self (List.replicate 256 7) ∧
      (append (List.replicate 300 (fun _ => ⟨fun _ => 0, fun _ => 0⟩, 9))).call self =
        (.ok (), self') ∧ self.groups <+: self'.groups := by
  obtain ⟨self, run⟩ := reaches_every_list (fun _ => ⟨fun _ => 0, fun _ => 0⟩)
    (List.replicate 256 (7 : int32.Original))
  obtain ⟨self', call, -, kept⟩ := append_keeps_groups run
    (List.replicate 300 (fun _ => ⟨fun _ => 0, fun _ => 0⟩, 9))
  exact ⟨self, self', run, call, kept⟩

/-- The bytes allocated for the groups. -/
def allocated (self : IntegerArray T) : Nat :=
  (self.groups.map fun g => (g.data.getD []).length).sum

/-- A full chunk is never longer than its bytes and the tag. -/
theorem size_full_le {chunk : List T.Original} (full : chunk.length = groupSize) :
    (IntegerCodec.select (Metadata.fresh T) chunk).metaspace +
      (IntegerCodec.select (Metadata.fresh T) chunk).dataspace ≤ 1 + groupSize * T.nbytes := by
  have two : 2 * T.nbytes ≤ groupSize * T.nbytes := Nat.mul_le_mul_right _ (by decide)
  rcases IntegerCodec.paths chunk with rfl | ⟨some, constant⟩ | varied
  · have positive := groupSize_pos
    rw [List.length_nil] at full
    omega
  · have longest := VarintCodec.valueSpace_le_nbytemax (IntegerStats.collect chunk).minvalue
      (ZigzagCodec.mk (T := T))
    have twice := IntegerCodec.nbytemax_le T
    rw [IntegerCodec.size_constant _ some constant]
    omega
  · have bound := IntegerCodec.size_varied_le varied
    rwa [full] at bound

theorem stored_length_le {g : IntegerGroup T} {chunk : List T.Original}
    (stored : g.Stores chunk true) (full : chunk.length = groupSize) :
    ∃ data, g.data = some data ∧ data.length ≤ groupSize * T.nbytes + IntegerGroup.alignment := by
  obtain ⟨pad, bytes, data, -, len, -, short⟩ := stored.data (room_of_full full)
  have described := IntegerCodec.select_describes chunk (room_of_full full)
  have metaspace := described.metaspace
  have bound := size_full_le full
  refine ⟨_, data, ?_⟩
  rw [List.length_append, List.length_append, metaspace, len]
  omega

/-- In every run the groups take no more than eight bytes each beyond the bytes of the
elements that they hold. -/
theorem allocated_le {self : IntegerArray T} {l : List T.Original} (h : Reachable self l) :
    (∀ g ∈ self.groups, ∃ data, g.data = some data ∧
        data.length ≤ groupSize * T.nbytes + IntegerGroup.alignment) ∧
      self.allocated + self.tail.length * T.nbytes ≤
        l.length * T.nbytes + IntegerGroup.alignment * (l.length / groupSize) := by
  obtain ⟨c, represents, rfl⟩ := reachable_holds h
  have groups : ∀ g ∈ self.groups, ∃ data, g.data = some data ∧
      data.length ≤ groupSize * T.nbytes + IntegerGroup.alignment := by
    intro g hg
    obtain ⟨i, packed, rfl⟩ := List.mem_iff_getElem.mp hg
    obtain ⟨_, full, stored⟩ := represents.chunk packed
    exact stored_length_le stored full
  refine ⟨groups, ?_⟩
  have total : self.allocated ≤
      self.groups.length * (groupSize * T.nbytes + IntegerGroup.alignment) := by
    rw [allocated, ← List.length_map (f := fun g : IntegerGroup T => (g.data.getD []).length)]
    refine List.sum_le_card_nsmul _ _ ?_
    intro n hn
    obtain ⟨g, hg, rfl⟩ := List.mem_map.mp hn
    obtain ⟨data, same, bound⟩ := groups g hg
    rwa [same]
  have count : self.groups.length = c.toList.length / groupSize := by
    rw [represents.length_groups, c.length_chunks]
  have size : c.toList.length = groupSize * self.groups.length + self.tail.length := by
    rw [c.length_toList, represents.length_groups, represents.tail]
  calc self.allocated + self.tail.length * T.nbytes
    _ ≤ self.groups.length * (groupSize * T.nbytes + IntegerGroup.alignment) +
          self.tail.length * T.nbytes := Nat.add_le_add_right total _
    _ = c.toList.length * T.nbytes +
          IntegerGroup.alignment * (c.toList.length / groupSize) := by rw [← count, size]; ring

/-- 600 values of four bytes: two groups and a tail. -/
theorem allocated_le_int32 :
    ∃ self : IntegerArray int32, Reachable self (List.replicate 600 7) ∧
      self.allocated + self.tail.length * 4 ≤ 2416 := by
  obtain ⟨self, run⟩ := reaches_every_list (fun _ => ⟨fun _ => 0, fun _ => 0⟩)
    (List.replicate 600 (7 : int32.Original))
  have bound := (allocated_le run).2
  rw [List.length_replicate] at bound
  exact ⟨self, run, bound⟩

end IntegerArray

end Oroch
