import Mathlib.Order.Lattice

/-!
# The cheapest of several candidates

A selection that walks through candidates and takes each one that is strictly cheaper
than what it holds ends with the start or one of the candidates, and that costs no more
than any of them.
-/

namespace Cheapest

variable {α β : Type} [LinearOrder β] (cost : α → β)

/-- Take the second candidate if it is strictly cheaper. -/
def cheaper (a b : α) : α := if cost b < cost a then b else a

def select (a : α) (bs : List α) : α := bs.foldl (cheaper cost) a

theorem cost_cheaper (a b : α) : cost (cheaper cost a b) = min (cost a) (cost b) := by
  rw [cheaper]
  split
  · next less => exact (min_eq_right (le_of_lt less)).symm
  · next less => exact (min_eq_left (not_lt.mp less)).symm

theorem select_mem (a : α) (bs : List α) : select cost a bs ∈ a :: bs := by
  induction bs generalizing a with
  | nil => exact List.mem_cons_self
  | cons b bs ih =>
    rw [select, List.foldl_cons]
    rcases List.mem_cons.mp (ih (cheaper cost a b)) with same | later
    · rw [← select, same, cheaper]
      split <;> simp
    · exact List.mem_cons_of_mem _ (List.mem_cons_of_mem _ later)

theorem cost_select_le_start (a : α) (bs : List α) : cost (select cost a bs) ≤ cost a := by
  induction bs generalizing a with
  | nil => exact le_refl _
  | cons b bs ih =>
    have first := min_le_left (cost a) (cost b)
    rw [← cost_cheaper] at first
    exact le_trans (ih (cheaper cost a b)) first

theorem cost_select_le (a : α) {bs : List α} {b : α} (hb : b ∈ bs) :
    cost (select cost a bs) ≤ cost b := by
  induction bs generalizing a with
  | nil => simp at hb
  | cons c bs ih =>
    rw [select, List.foldl_cons]
    rcases List.mem_cons.mp hb with rfl | later
    · have first := min_le_right (cost a) (cost b)
      rw [← cost_cheaper] at first
      exact le_trans (cost_select_le_start cost _ bs) first
    · exact ih _ later

end Cheapest
