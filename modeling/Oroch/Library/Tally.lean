import Mathlib.Algebra.BigOperators.Group.List.Basic
import Mathlib.Data.Nat.Digits.Defs
import Mathlib.Data.Nat.Size

/-!
# Counting by key

A tally holds, for each key below a bound, the number of items with that key. A
weighted sum over a range of its counts is a sum over the items themselves, so
a size computed from a tally is the size of the items it counts.
-/

namespace Tally

variable {α σ : Type}

/-- The counts of the keys `0 .. n - 1`. -/
def tally (n : Nat) (key : α → Nat) (xs : List α) : List Nat :=
  xs.foldl (fun counts x => counts.modify (key x) (· + 1)) (List.replicate n 0)

theorem foldl_modify (key : α → Nat) (xs : List α) (counts : List Nat) (k : Nat)
    (inside : k < counts.length) :
    (xs.foldl (fun counts x => counts.modify (key x) (· + 1)) counts)[k]?.getD 0 =
      counts[k]?.getD 0 + xs.countP fun x => key x = k := by
  induction xs generalizing counts with
  | nil => simp
  | cons x xs ih =>
    rw [List.foldl_cons, ih _ (by simpa using inside), List.getElem?_modify, List.countP_cons]
    by_cases hit : key x = k
    · simp [hit, inside]
      omega
    · simp [hit]

theorem getD_tally {n k : Nat} (key : α → Nat) (xs : List α) (h : k < n) :
    (tally n key xs)[k]?.getD 0 = xs.countP fun x => key x = k := by
  rw [tally, foldl_modify key xs _ k (by simpa using h)]
  simp [h]

/-- The items above a key are those above the next one and those at it. -/
theorem countP_above (key : α → Nat) (xs : List α) (k : Nat) :
    xs.countP (fun x => k ≤ key x) =
      xs.countP (fun x => k + 1 ≤ key x) + xs.countP fun x => key x = k := by
  induction xs with
  | nil => rfl
  | cons x xs ih =>
    simp only [List.countP_cons, decide_eq_true_eq]
    split <;> split <;> split <;> omega

theorem sum_single (weight : Nat → Nat) (m a n : Nat) :
    ((List.range' a n).map fun k => if m = k then weight k else 0).sum =
      if a ≤ m ∧ m < a + n then weight m else 0 := by
  induction n generalizing a with
  | zero =>
    rw [if_neg (by omega)]
    rfl
  | succ n ih =>
    rw [List.range'_succ, List.map_cons, List.sum_cons, ih (a + 1)]
    by_cases first : m = a
    · subst first
      rw [if_pos rfl, if_neg (by omega), if_pos (by omega), Nat.add_zero]
    · have same : (a + 1 ≤ m ∧ m < a + 1 + n) ↔ (a ≤ m ∧ m < a + (n + 1)) := by omega
      simp only [first, if_false, Nat.zero_add, same]

/-- A sum over a range of keys, weighted by their counts, is a sum over the items
whose keys lie in the range. -/
theorem sum_counts (key : α → Nat) (weight : Nat → Nat) (xs : List α) (a n : Nat) :
    ((List.range' a n).map fun k => weight k * xs.countP fun x => key x = k).sum =
      ((xs.filter fun x => a ≤ key x ∧ key x < a + n).map fun x => weight (key x)).sum := by
  induction xs with
  | nil => simp
  | cons x xs ih =>
    have split (k : Nat) : weight k * ((x :: xs).countP fun x => key x = k) =
        weight k * (xs.countP fun x => key x = k) + if key x = k then weight k else 0 := by
      rw [List.countP_cons]
      by_cases hit : key x = k
      · simp [hit, Nat.mul_succ]
      · simp [hit]
    simp only [split, List.sum_map_add, ih, sum_single, List.filter_cons, decide_eq_true_eq]
    by_cases inside : a ≤ key x ∧ key x < a + n
    · simp only [inside, and_self, if_true, List.map_cons, List.sum_cons, Nat.add_comm]
    · simp only [inside, if_false, Nat.add_zero]

/-- A loop over consecutive keys keeps what each of its steps keeps. -/
theorem foldl_range' (P : Nat → σ → Prop) (step : σ → Nat → σ) {a : Nat} (n : Nat) {s : σ}
    (start : P a s) (next : ∀ k s, a ≤ k → k < a + n → P k s → P (k + 1) (step s k)) :
    P (a + n) ((List.range' a n).foldl step s) := by
  induction n generalizing a s with
  | zero => exact start
  | succ n ih =>
    rw [List.range'_succ, List.foldl_cons, Nat.add_comm n 1, ← Nat.add_assoc]
    refine ih (next a s (Nat.le_refl a) (by omega) start) ?_
    intro k s above below
    exact next k s (by omega) (by omega)

/-- Two loops that agree wherever the invariant of the first holds give the same result. -/
theorem foldl_range'_congr (P : Nat → σ → Prop) (f g : σ → Nat → σ) {a : Nat} (n : Nat) {s : σ}
    (start : P a s) (next : ∀ k s, a ≤ k → k < a + n → P k s → P (k + 1) (f s k))
    (same : ∀ k s, a ≤ k → k < a + n → P k s → f s k = g s k) :
    (List.range' a n).foldl f s = (List.range' a n).foldl g s := by
  induction n generalizing a s with
  | zero => rfl
  | succ n ih =>
    rw [List.range'_succ, List.foldl_cons, List.foldl_cons,
      ← same a s (Nat.le_refl a) (by omega) start]
    refine ih (next a s (Nat.le_refl a) (by omega) start) ?_ ?_
    · intro k s above below
      exact next k s (by omega) (by omega)
    · intro k s above below
      exact same k s (by omega) (by omega)

end Tally
