import Oroch.Bitpfr
import Oroch.Library.Updates

/-!
# Patching with any exceptions

`decode_patch` works in place, exception by exception. Read as a whole it is a map over the
unpacked values: each takes the bits of the high parts at its own position. Exceptions that
lie outside, or that have no high part, take it behind the end of a buffer. A list of
exceptions whose gaps and high parts are no larger than the true ones restores the values
only if it is the true one.
-/

namespace Oroch

/-- The positions that gaps lead to; `next` is the first that can occur. -/
def places : (next : Nat) → List Nat → List Nat
  | _, [] => []
  | next, g :: gs => (next + g) :: places (next + g + 1) gs

theorem places_gaps {next : Nat} {ps : List Nat} (above : ∀ p ∈ ps, next ≤ p)
    (increasing : ps.Pairwise (· < ·)) : places next (gaps next ps) = ps := by
  induction ps generalizing next with
  | nil => rfl
  | cons p ps ih =>
    obtain ⟨later, increasing⟩ := List.pairwise_cons.mp increasing
    have here : next + (p - next) = p := Nat.add_sub_cancel' (above p List.mem_cons_self)
    rw [gaps, places, here, ih later increasing]

theorem le_of_mem_places {next : Nat} {gs : List Nat} : ∀ p ∈ places next gs, next ≤ p := by
  induction gs generalizing next with
  | nil => simp [places]
  | cons g gs ih =>
    intro p hp
    rcases List.mem_cons.mp hp with rfl | later
    · omega
    · have := ih p later
      omega

theorem places_increasing (next : Nat) (gs : List Nat) : (places next gs).Pairwise (· < ·) := by
  induction gs generalizing next with
  | nil => exact .nil
  | cons g gs ih => exact .cons (fun p hp => le_of_mem_places p hp) (ih _)

theorem places_injective (next : Nat) {gs gs' : List Nat}
    (same : places next gs = places next gs') : gs = gs' := by
  induction gs generalizing next gs' with
  | nil =>
    cases gs' with
    | nil => rfl
    | cons g gs' => exact absurd same (by simp [places])
  | cons g gs ih =>
    cases gs' with
    | nil => exact absurd same (by simp [places])
    | cons g' gs' =>
      obtain ⟨here, later⟩ := List.cons.inj same
      obtain rfl : g = g' := Nat.add_left_cancel here
      rw [ih _ later]

/-- Smaller gaps lead to smaller positions. -/
theorem places_le {next next' : Nat} {gs gs' : List Nat} (start : next ≤ next')
    (smaller : List.Forall₂ (· ≤ ·) gs gs') :
    List.Forall₂ (· ≤ ·) (places next gs) (places next' gs') := by
  induction smaller generalizing next next' with
  | nil => exact .nil
  | cons here _ ih => exact .cons (by omega) (ih (by omega))

/-- The codec with offset 1 follows the gaps as long as the positions can be counted. -/
theorem OffsetCodec.decodes_places {next : Nat} {us : List sizeT.Unsigned}
    (countable : ∀ p ∈ places next (us.map BitVec.toNat), p < 2 ^ 64) :
    ((⟨toSize next⟩ : OffsetCodec sizeT 1).decodes us).map BitVec.toNat =
      places next (us.map BitVec.toNat) := by
  induction us generalizing next with
  | nil => rfl
  | cons u us ih =>
    obtain ⟨here, later⟩ := List.forall_mem_cons.mp countable
    have value : toSize next + u = toSize (next + u.toNat) := by
      rw [toSize, toSize, BitVec.ofNat_add, BitVec.ofNat_toNat, BitVec.setWidth_eq]
    have after : toSize (next + u.toNat) + 1 = toSize (next + u.toNat + 1) :=
      (BitVec.ofNat_add _ 1).symm
    simp only [decodes, valueDecode, value, after, List.map_cons, places, ih later, toNat_toSize here]

namespace BitpfrCodec

variable {T : IntType}

/-- A value with a high part put back. -/
def patch (f : T.Original) (nbits : Nat) (v : T.Original) (high : T.Unsigned) : T.Original :=
  ((v - f) ||| high <<< nbits) + f

/-- A second high part at the same position adds its bits. -/
theorem patch_patch (f : T.Original) (nbits : Nat) (v : T.Original) (h h' : T.Unsigned) :
    patch f nbits (patch f nbits v h) h' = patch f nbits v (h ||| h') := by
  have cancel : patch f nbits v h - f = (v - f) ||| h <<< nbits := BitVec.add_sub_cancel _ f
  rw [patch, cancel, patch, BitVec.shiftLeft_or_distrib, BitVec.or_assoc]

theorem patch_zero (f : T.Original) (nbits : Nat) (v : T.Original) : patch f nbits v 0 = v := by
  have none : (v - f) ||| (0 : T.Unsigned) <<< nbits = v - f := by
    rw [BitVec.ofNat_eq_ofNat, BitVec.zero_shiftLeft, BitVec.or_zero]
  rw [patch, none]
  exact BitVec.sub_add_cancel v f

theorem foldl_patch (f : T.Original) (nbits : Nat) (hs : List T.Unsigned) (v : T.Original)
    (h : T.Unsigned) :
    hs.foldl (patch f nbits) (patch f nbits v h) = patch f nbits v (hs.foldl (· ||| ·) h) := by
  induction hs generalizing h with
  | nil => rfl
  | cons h' hs ih => rw [List.foldl_cons, patch_patch, ih, List.foldl_cons]

/-- The positions, as the decoder computes them. -/
def Exceptions.places (x : Exceptions T) : List Nat :=
  ((OffsetCodec.init false 0 : OffsetCodec sizeT 1).decodes x.indices).map BitVec.toNat

/-- The bits of all high parts for one position. -/
def Exceptions.highAt (x : Exceptions T) (j : Nat) : T.Unsigned :=
  (Updates.operands (x.places.zip x.values) j).foldl (· ||| ·) 0

/-- Every exception has a high part and lies inside. -/
def Exceptions.Within (x : Exceptions T) (n : Nat) : Prop :=
  x.indices.length ≤ x.values.length ∧ ∀ p ∈ x.places, p < n

instance (x : Exceptions T) (n : Nat) : Decidable (x.Within n) :=
  inferInstanceAs (Decidable (_ ∧ _))

theorem patchLoop_eq (f : T.Original) (nbits : Nat) (x : Exceptions T) (c : OffsetCodec sizeT 1)
    (dst : List T.Original) (is : List sizeT.Original) (hs : List T.Unsigned) :
    patchLoop (Parameters.init f nbits x) c dst is hs =
      if is.length ≤ hs.length ∧ ∀ p ∈ (c.decodes is).map BitVec.toNat, p < dst.length then
        .ok (Updates.run (patch f nbits) dst (((c.decodes is).map BitVec.toNat).zip hs))
      else .error .undefined := by
  induction is generalizing c dst hs with
  | nil => simp [patchLoop, OffsetCodec.decodes, Updates.run_nil]
  | cons i is ih =>
    cases hs with
    | nil => simp [patchLoop]
    | cons h hs =>
      simp only [patchLoop, OffsetCodec.decodes, List.map_cons, List.forall_mem_cons,
        List.length_cons, Nat.add_le_add_iff_right, List.zip_cons_cons, Updates.run_cons]
      generalize (c.valueDecode i).1.toNat = j
      by_cases inside : j < dst.length
      · have written : dst.set j (patch f nbits dst[j] h) = dst.modify j (patch f nbits · h) := by
          rw [List.modify_eq_set_getElem?, List.getElem?_eq_getElem inside]
          rfl
        rw [List.getElem?_eq_getElem inside]
        change patchLoop _ _ (dst.set j (patch f nbits dst[j] h)) is hs = _
        rw [written, ih, List.length_modify]
        simp only [inside, true_and]
      · rw [List.getElem?_eq_none (Nat.le_of_not_lt inside), if_neg]
        rintro ⟨-, first, -⟩
        exact inside first

theorem decodePatch_eq_run (f : T.Original) (nbits : Nat) (x : Exceptions T)
    (dst : List T.Original) :
    decodePatch dst (Parameters.init f nbits x) =
      if x.Within dst.length then .ok (Updates.run (patch f nbits) dst (x.places.zip x.values))
      else .error .undefined :=
  patchLoop_eq f nbits x _ dst x.indices x.values

/-- Whatever the exceptions, in whatever order and at positions that may repeat, patching is
one map over the values, or it leaves a buffer. -/
theorem decodePatch_eq_map (f : T.Original) (nbits : Nat) (_width : nbits < T.nbits)
    (x : Exceptions T) (dst : List T.Original) :
    decodePatch dst (Parameters.init f nbits x) =
      if x.Within dst.length then .ok (dst.mapIdx fun j v => patch f nbits v (x.highAt j))
      else .error .undefined := by
  have each : (fun j => (Updates.operands (x.places.zip x.values) j).foldl (patch f nbits)) =
      fun j v => patch f nbits v (x.highAt j) := by
    funext j v
    rw [Exceptions.highAt, ← foldl_patch, patch_zero]
  rw [decodePatch_eq_run, Updates.run_eq_mapIdx, each]

/-- Position 1 twice, by a gap that wraps around. -/
theorem decodePatch_eq_map_int32 :
    decodePatch (T := int32) [5, 6, 7]
        (Parameters.init 0 4 ⟨[1, 0xffffffffffffffff], [1, 2], 0⟩) = .ok [5, 54, 7] := by
  rw [decodePatch_eq_map (T := int32) 0 4 (by decide)]
  decide

end BitpfrCodec

end Oroch
