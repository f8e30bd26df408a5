import Mathlib.Data.Nat.Digits.Defs
import Mathlib.Data.Nat.Size

/-!
# Numbers as delimited groups of seven bits

A number is written in base 128, the lowest group first, one group a byte; the
top bit of a byte says that another one follows. `groups` writes the shortest
such byte string and `value` reads any of them, so a value may have many byte
strings but only one that ends in a non-zero group or is a single byte.
-/

namespace Groups

abbrev Byte := BitVec 8

def groups (n : Nat) : List Byte :=
  if n < 128 then [BitVec.ofNat 8 n]
  else BitVec.ofNat 8 (n % 128 + 128) :: groups (n / 128)
termination_by n
decreasing_by omega

/-- The number a byte string stands for, whether or not it is the shortest one. -/
def value (bs : List Byte) : Nat := Nat.ofDigits 128 (bs.map (·.toNat % 128))

/-- Every byte but the last has its top bit set. -/
def Delimited (bs : List Byte) : Prop :=
  ∃ init last, bs = init ++ [last] ∧ (∀ b ∈ init, 128 ≤ b.toNat) ∧ last.toNat < 128

@[simp] theorem value_nil : value [] = 0 := rfl

@[simp] theorem value_cons (b : Byte) (bs : List Byte) :
    value (b :: bs) = b.toNat % 128 + 128 * value bs := by
  simp [value, Nat.ofDigits_cons]

theorem value_append (bs cs : List Byte) :
    value (bs ++ cs) = value bs + 128 ^ bs.length * value cs := by
  simp [value, Nat.ofDigits_append]

theorem groups_small {n : Nat} (h : n < 128) : groups n = [BitVec.ofNat 8 n] := by
  rw [groups, if_pos h]

theorem groups_large {n : Nat} (h : 128 ≤ n) :
    groups n = BitVec.ofNat 8 (n % 128 + 128) :: groups (n / 128) := by
  rw [groups, if_neg (by omega)]

theorem groups_delimited (n : Nat) : Delimited (groups n) := by
  induction n using Nat.strongRecOn with
  | ind n ih =>
    by_cases small : n < 128
    · exact ⟨[], BitVec.ofNat 8 n, groups_small small, by simp, by simp; omega⟩
    · obtain ⟨init, last, split, init_top, last_low⟩ := ih (n / 128) (by omega)
      refine ⟨BitVec.ofNat 8 (n % 128 + 128) :: init, last, ?_, ?_, last_low⟩
      · rw [groups_large (by omega), split, List.cons_append]
      · intro b hb
        rcases List.mem_cons.mp hb with rfl | hb
        · rw [BitVec.toNat_ofNat]; omega
        · exact init_top b hb

theorem value_groups (n : Nat) : value (groups n) = n := by
  induction n using Nat.strongRecOn with
  | ind n ih =>
    by_cases small : n < 128
    · rw [groups_small small, value_cons, BitVec.toNat_ofNat, value_nil]
      omega
    · rw [groups_large (by omega), value_cons, ih (n / 128) (by omega), BitVec.toNat_ofNat]
      omega

/-- Dropping the `b` lowest bits shortens a number by `b` bits. -/
theorem size_div_two_pow (n b : Nat) : (n / 2 ^ b).size = n.size - b := by
  apply eq_of_forall_lt_iff
  intro k
  rw [Nat.lt_size, Nat.le_div_iff_mul_le (Nat.two_pow_pos b), ← pow_add, ← Nat.lt_size]
  omega

/-- The number of bytes follows from the bit length: one for zero, otherwise one
for every seven bits begun. -/
theorem length_groups (n : Nat) :
    (groups n).length = if n = 0 then 1 else (n.size + 6) / 7 := by
  induction n using Nat.strongRecOn with
  | ind n ih =>
    by_cases small : n < 128
    · have size_le : n.size ≤ 7 := Nat.size_le.mpr small
      rw [groups_small small]
      by_cases zero : n = 0
      · simp [zero]
      · have size_pos : 0 < n.size := Nat.size_pos.mpr (by omega)
        simp only [List.length_cons, List.length_nil, if_neg zero]
        omega
    · have above : ¬ n / 128 = 0 := by omega
      have size_pos : 0 < (n / 128).size := Nat.size_pos.mpr (Nat.pos_of_ne_zero above)
      have shifted : (n / 128).size = n.size - 7 := size_div_two_pow n 7
      rw [groups_large (by omega), List.length_cons, ih (n / 128) (by omega), if_neg above,
        if_neg (by omega), shifted]
      omega

theorem length_groups_le {n k : Nat} (positive : 0 < k) (h : n < 2 ^ (7 * k)) :
    (groups n).length ≤ k := by
  have bits : n.size ≤ 7 * k := Nat.size_le.mpr h
  rw [length_groups]
  split <;> omega

/-- A byte holds seven bits of the number. -/
theorem value_lt (bs : List Byte) : value bs < 2 ^ (7 * bs.length) := by
  induction bs with
  | nil => exact Nat.one_pos
  | cons b bs ih =>
    have low := Nat.mod_lt b.toNat (show 128 > 0 by decide)
    rw [value_cons, List.length_cons, Nat.mul_add, Nat.pow_add, Nat.mul_comm (2 ^ _)]
    omega

/-- A delimited string is the shortest one for its value exactly when it is a
single byte or ends in a non-zero group. -/
theorem groups_value_iff (init : List Byte) (last : Byte)
    (init_top : ∀ b ∈ init, 128 ≤ b.toNat) (last_low : last.toNat < 128) :
    groups (value (init ++ [last])) = init ++ [last] ↔ init = [] ∨ last ≠ 0 := by
  induction init with
  | nil =>
    have single : value [last] = last.toNat := by simp; omega
    rw [List.nil_append, single, groups_small last_low]
    simp
  | cons b init ih =>
    have top := init_top b List.mem_cons_self
    have narrow := b.isLt
    have later := ih (fun c hc => init_top c (List.mem_cons_of_mem b hc))
    rw [List.cons_append, value_cons]
    by_cases empty : value (init ++ [last]) = 0
    · -- all the groups above `b` are zero: the shortest string stops at `b`
      have all_zero : last = 0 := by
        rw [value_append, value_cons, value_nil] at empty
        have positive : 0 < 128 ^ init.length := Nat.pow_pos (by decide)
        have : last.toNat % 128 = 0 := by
          rcases Nat.eq_zero_of_add_eq_zero_left empty |> Nat.mul_eq_zero.mp with h | h
          · omega
          · omega
        apply BitVec.eq_of_toNat_eq
        simpa [Nat.mod_eq_of_lt last_low] using this
      rw [empty, groups_small (by omega)]
      simp [all_zero]
    · have whole : (b.toNat % 128 + 128 * value (init ++ [last])) / 128 =
          value (init ++ [last]) := by omega
      have head : BitVec.ofNat 8 ((b.toNat % 128 + 128 * value (init ++ [last])) % 128 + 128) =
          b := by
        apply BitVec.eq_of_toNat_eq
        rw [BitVec.toNat_ofNat]
        omega
      rw [groups_large (by omega), whole, head, List.cons.injEq, later]
      constructor
      · rintro ⟨-, rfl | nonzero⟩
        · refine Or.inr ?_
          rintro rfl
          exact empty rfl
        · exact Or.inr nonzero
      · rintro (impossible | nonzero)
        · exact absurd impossible (by simp)
        · exact ⟨rfl, Or.inr nonzero⟩

end Groups
