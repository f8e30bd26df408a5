import Mathlib.Data.List.Basic

/-!
# Updating a list at given positions

A list of updates, each a position and an operand, is carried out from left to right. Every
element takes the operands of its own position, in their order; where the positions are
distinct, one at most.
-/

namespace Updates

variable {α β : Type}

def run (apply : α → β → α) (xs : List α) (us : List (Nat × β)) : List α :=
  us.foldl (fun xs u => xs.modify u.1 (apply · u.2)) xs

/-- The operands for one position. -/
def operands (us : List (Nat × β)) (j : Nat) : List β :=
  (us.filter (·.1 = j)).map Prod.snd

theorem run_nil (apply : α → β → α) (xs : List α) : run apply xs [] = xs := rfl

theorem run_cons (apply : α → β → α) (xs : List α) (i : Nat) (b : β) (us : List (Nat × β)) :
    run apply xs ((i, b) :: us) = run apply (xs.modify i (apply · b)) us := rfl

theorem operands_cons_same (i : Nat) (b : β) (us : List (Nat × β)) :
    operands ((i, b) :: us) i = b :: operands us i := by simp [operands]

theorem operands_cons_other {i j : Nat} (apart : i ≠ j) (b : β) (us : List (Nat × β)) :
    operands ((i, b) :: us) j = operands us j := by simp [operands, apart]

theorem operands_of_not_mem {us : List (Nat × β)} {j : Nat} (other : j ∉ us.map Prod.fst) :
    operands us j = [] := by
  rw [operands, List.map_eq_nil_iff, List.filter_eq_nil_iff]
  intro u mem here
  exact other (List.mem_map.mpr ⟨u, mem, of_decide_eq_true here⟩)

theorem operands_of_mem {us : List (Nat × β)} (distinct : (us.map Prod.fst).Nodup) {j : Nat} {b : β}
    (mem : (j, b) ∈ us) : operands us j = [b] := by
  induction us with
  | nil => exact absurd mem List.not_mem_nil
  | cons u us ih =>
    obtain ⟨i, c⟩ := u
    obtain ⟨first, distinct⟩ := List.nodup_cons.mp distinct
    rcases List.mem_cons.mp mem with here | later
    · obtain ⟨rfl, rfl⟩ := Prod.mk.injEq .. ▸ here
      rw [operands_cons_same, operands_of_not_mem first]
    · have apart : i ≠ j := by
        rintro rfl
        exact first (List.mem_map.mpr ⟨(i, b), later, rfl⟩)
      rw [operands_cons_other apart, ih distinct later]

theorem getElem?_run (apply : α → β → α) (xs : List α) (us : List (Nat × β)) (j : Nat) :
    (run apply xs us)[j]? = xs[j]?.map ((operands us j).foldl apply) := by
  induction us generalizing xs with
  | nil => exact (Option.map_id' ..).symm
  | cons u us ih =>
    obtain ⟨i, b⟩ := u
    rw [run_cons, ih]
    by_cases here : i = j
    · subst here
      rw [List.getElem?_modify_eq, operands_cons_same, Option.map_eq_map, Option.map_map]
      rfl
    · rw [List.getElem?_modify_ne _ _ here, operands_cons_other here]

/-- Carrying out all updates is one map over the list. -/
theorem run_eq_mapIdx (apply : α → β → α) (xs : List α) (us : List (Nat × β)) :
    run apply xs us = xs.mapIdx fun j => (operands us j).foldl apply := by
  apply List.ext_getElem?
  intro j
  rw [getElem?_run, List.getElem?_mapIdx]

/-- The updates of a front. -/
theorem run_take (apply : α → β → α) (xs : List α) (us : List (Nat × β)) (k : Nat) :
    run apply (xs.take k) us = (run apply xs us).take k := by
  apply List.ext_getElem?
  intro j
  rw [getElem?_run, List.getElem?_take, List.getElem?_take, getElem?_run]
  split <;> rfl

end Updates
