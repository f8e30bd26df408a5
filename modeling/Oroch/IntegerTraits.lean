import Mathlib.Data.Nat.Digits.Defs
import Mathlib.Data.Nat.Size

/-!
# Integer types and their traits

The templates are instantiated at the signed and unsigned integers of 8, 16, 32
and 64 bits. A value of any of them is its two's complement bit pattern, so
`original_t` and `unsigned_t` of one type share a representation and a cast
between them changes nothing; the signedness of a type shows in comparisons, in
its extreme values and in the choice of the value code.

Integers narrower than `int` are promoted before arithmetic. Where a result is
cast back to the narrow type the promotion is invisible and is left out; it
stays in `usedcount`, whose count of leading zeros depends on the promoted width,
and in a difference that is shifted before it is cast.
-/

namespace Oroch

inductive Width where
  | w8 | w16 | w32 | w64
  deriving DecidableEq, Repr

/-- `sizeof` -/
def Width.nbytes : Width → Nat
  | w8 => 1
  | w16 => 2
  | w32 => 4
  | w64 => 8

def Width.nbits (w : Width) : Nat := w.nbytes * 8

/-- `promote_integer` -/
def Width.promote : Width → Width
  | w8 | w16 => w32
  | w => w

/-- A template argument `T`. -/
structure IntType where
  width : Width
  signed : Bool
  deriving DecidableEq, Repr

namespace IntType

abbrev nbytes (T : IntType) : Nat := T.width.nbytes

abbrev nbits (T : IntType) : Nat := T.width.nbits

abbrev promotedNbits (T : IntType) : Nat := T.width.promote.nbits

/-- The type of arithmetic on `T`: `int`, or `T` where that is wider. -/
abbrev promoted (T : IntType) : IntType :=
  match T.width with
  | .w8 | .w16 => ⟨.w32, true⟩
  | w => ⟨w, T.signed⟩

/-- `std::make_unsigned` -/
abbrev makeUnsigned (T : IntType) : IntType := ⟨T.width, false⟩

/-- `original_t` -/
abbrev Original (T : IntType) := BitVec T.nbits

/-- `unsigned_t` -/
abbrev Unsigned (T : IntType) := BitVec T.nbits

/-- The integer a bit pattern stands for. -/
def toInt (T : IntType) (v : T.Original) : Int := if T.signed then v.toInt else v.toNat

/-- `a < b` on values of `T` -/
def lt (T : IntType) (a b : T.Original) : Bool := if T.signed then a.slt b else a.ult b

/-- `std::numeric_limits<T>::max()` -/
def limitMax (T : IntType) : T.Original :=
  if T.signed then BitVec.intMax T.nbits else BitVec.allOnes T.nbits

/-- `std::numeric_limits<T>::min()` -/
def limitMin (T : IntType) : T.Original :=
  if T.signed then BitVec.intMin T.nbits else 0

/-- The builtin counts in the promoted type. -/
def clz (T : IntType) (value : T.Unsigned) : Nat :=
  (value.setWidth T.promotedNbits).clz.toNat

def usedcount (T : IntType) (value : T.Unsigned) : Nat :=
  if value ≠ 0 then T.promotedNbits - T.clz value else 0

/-- The integral promotion of an operand. -/
def widen (T : IntType) (v : T.Original) : T.promoted.Original :=
  if T.signed then v.signExtend T.promoted.nbits else v.setWidth T.promoted.nbits

/-- `(a - b) >> n` in the promoted type, as an `unsigned_t`; on signed operands the
shift is arithmetic. -/
def subShiftRight (T : IntType) (a b : T.Original) (n : Nat) : T.Unsigned :=
  let d := T.widen a - T.widen b
  (if T.promoted.signed then d.sshiftRight n else d >>> n).setWidth T.nbits

end IntType

/-- `size_t`, an unsigned integer of 64 bits. Lengths, counts and byte sizes are
natural numbers; this type is for the sizes that are themselves encoded. -/
abbrev sizeT : IntType := ⟨.w64, false⟩

/-- `size_t(n)` -/
def toSize (n : Nat) : sizeT.Original := BitVec.ofNat sizeT.nbits n

/-- The values an iterator pair delimits. Their number, `std::distance(src, end)`, is
a `size_t`, and so is every position among them. -/
structure Sequence (T : IntType) where
  vals : List T.Original
  length_lt : vals.length < 2 ^ 64
  deriving Repr

/-- `int32_t`, the type of the test programs. -/
abbrev int32 : IntType := ⟨.w32, true⟩

theorem toNat_toSize {n : Nat} (h : n < 2 ^ 64) : (toSize n).toNat = n := by
  rw [toSize, BitVec.toNat_ofNat]
  exact Nat.mod_eq_of_lt h

theorem Width.nbits_cases (w : Width) :
    w.nbits = 8 ∨ w.nbits = 16 ∨ w.nbits = 32 ∨ w.nbits = 64 := by
  cases w <;> decide

theorem Width.nbits_pos (w : Width) : 0 < w.nbits := by
  have := w.nbits_cases
  omega

theorem Width.nbits_le (w : Width) : w.nbits ≤ 64 := by
  have := w.nbits_cases
  omega

theorem Width.nbits_le_promote (w : Width) : w.nbits ≤ w.promote.nbits := by
  cases w <;> decide

theorem IntType.nbits_cases (T : IntType) :
    T.nbits = 8 ∨ T.nbits = 16 ∨ T.nbits = 32 ∨ T.nbits = 64 := T.width.nbits_cases

theorem IntType.nbits_le (T : IntType) : T.nbits ≤ 64 := T.width.nbits_le

/-- The used bits are the bit length of the value, in every type. -/
theorem usedcount_eq (T : IntType) (v : T.Unsigned) : T.usedcount v = v.toNat.size := by
  by_cases zero : v = 0
  · simp [IntType.usedcount, zero]
  · have wide : (v.setWidth T.promotedNbits).toNat = v.toNat := by
      rw [BitVec.toNat_setWidth]
      exact Nat.mod_eq_of_lt
        (Nat.lt_of_lt_of_le v.isLt (Nat.pow_le_pow_right Nat.two_pos T.width.nbits_le_promote))
    have wide_zero : v.setWidth T.promotedNbits ≠ 0 := by
      intro h
      apply zero
      apply BitVec.eq_of_toNat_eq
      rw [← wide, h]
      simp
    have above := BitVec.toNat_lt_two_pow_sub_clz (x := v.setWidth T.promotedNbits)
    have below := BitVec.two_pow_sub_clz_le_toNat_of_ne_zero T.width.promote.nbits_pos wide_zero
    have room := (BitVec.clz_lt_iff_ne_zero (x := v.setWidth T.promotedNbits)).mpr wide_zero
    rw [wide] at above below
    rw [BitVec.lt_def] at room
    rw [IntType.usedcount, if_pos zero, IntType.clz]
    apply Nat.le_antisymm
    · have := Nat.lt_size.mpr below
      simp only [IntType.promotedNbits] at *
      omega
    · exact Nat.size_le.mpr above

theorem usedcount_le_nbits (T : IntType) (v : T.Unsigned) : T.usedcount v ≤ T.nbits := by
  rw [usedcount_eq]
  exact Nat.size_le.mpr v.isLt

theorem lt_iff_toInt (T : IntType) (a b : T.Original) :
    T.lt a b = true ↔ T.toInt a < T.toInt b := by
  cases h : T.signed with
  | true => simp [IntType.lt, IntType.toInt, h, BitVec.slt_iff_toInt_lt]
  | false => simp [IntType.lt, IntType.toInt, h, BitVec.ult]

theorem toInt_inj (T : IntType) {a b : T.Original} (h : T.toInt a = T.toInt b) : a = b := by
  cases hs : T.signed with
  | true =>
    apply BitVec.eq_of_toInt_eq
    simpa [IntType.toInt, hs] using h
  | false =>
    apply BitVec.eq_of_toNat_eq
    simpa only [IntType.toInt, hs, Bool.false_eq_true, if_false, Int.natCast_inj] using h

theorem toInt_le_limitMax (T : IntType) (a : T.Original) : T.toInt a ≤ T.toInt T.limitMax := by
  cases hs : T.signed with
  | true =>
    have bound := BitVec.toInt_lt (x := a)
    simp only [IntType.toInt, IntType.limitMax, hs, if_true, BitVec.toInt_intMax]
    omega
  | false =>
    have bound : a.toNat ≤ 2 ^ T.nbits - 1 := Nat.le_sub_one_of_lt a.isLt
    simp only [IntType.toInt, IntType.limitMax, hs, Bool.false_eq_true, if_false,
      BitVec.toNat_allOnes]
    exact Int.ofNat_le.mpr bound

theorem limitMin_le_toInt (T : IntType) (a : T.Original) : T.toInt T.limitMin ≤ T.toInt a := by
  cases hs : T.signed with
  | true =>
    have bound := BitVec.le_toInt (x := a)
    simpa [IntType.toInt, IntType.limitMin, hs, BitVec.toInt_intMin, T.width.nbits_pos] using bound
  | false => simp [IntType.toInt, IntType.limitMin, hs]

theorem toInt_cases {w : Nat} (a : BitVec w) :
    (a.toInt = a.toNat ∧ 2 * a.toNat < 2 ^ w) ∨
      (a.toInt = a.toNat - (2 ^ w : Nat) ∧ 2 ^ w ≤ 2 * a.toNat) := by
  by_cases h : 2 * a.toNat < 2 ^ w
  · exact Or.inl ⟨by rw [BitVec.toInt_eq_toNat_cond, if_pos h], h⟩
  · exact Or.inr ⟨by rw [BitVec.toInt_eq_toNat_cond, if_neg h], by omega⟩

theorem toNat_sub_cases {w : Nat} (a b : BitVec w) :
    (a.toNat ≤ b.toNat ∧ (b - a).toNat = b.toNat - a.toNat) ∨
      (b.toNat < a.toNat ∧ (b - a).toNat = 2 ^ w - a.toNat + b.toNat) := by
  have ha := a.isLt
  have hb := b.isLt
  rw [BitVec.toNat_sub]
  by_cases h : a.toNat ≤ b.toNat
  · refine Or.inl ⟨h, ?_⟩
    rw [show 2 ^ w - a.toNat + b.toNat = b.toNat - a.toNat + 2 ^ w by omega, Nat.add_mod_right]
    exact Nat.mod_eq_of_lt (by omega)
  · exact Or.inr ⟨by omega, Nat.mod_eq_of_lt (by omega)⟩

/-- Subtraction wraps, but the wrapped difference of ordered values is exact. -/
theorem toNat_sub_of_le (T : IntType) {a b : T.Original} (h : T.toInt a ≤ T.toInt b) :
    ((b - a).toNat : Int) = T.toInt b - T.toInt a := by
  have ha := a.isLt
  have hb := b.isLt
  have diff := toNat_sub_cases a b
  cases hs : T.signed with
  | true =>
    simp only [IntType.toInt, hs, if_true] at h ⊢
    have ia := toInt_cases a
    have ib := toInt_cases b
    omega
  | false =>
    simp only [IntType.toInt, hs, Bool.false_eq_true, if_false] at h ⊢
    omega

theorem toNat_of_nonneg (T : IntType) {a : T.Original} (h : 0 ≤ T.toInt a) :
    (a.toNat : Int) = T.toInt a := by
  have range := a.isLt
  cases hs : T.signed with
  | true =>
    simp only [IntType.toInt, hs, if_true] at h ⊢
    have ia := toInt_cases a
    omega
  | false => simp only [IntType.toInt, hs, Bool.false_eq_true, if_false]

theorem promoted_nbits_cases (T : IntType) :
    T.promoted.nbits = T.nbits ∨ T.nbits ≤ 16 ∧ T.promoted.nbits = 32 := by
  rcases T with ⟨w, signed⟩
  cases w <;> simp [IntType.nbits, Width.nbits, Width.nbytes]

/-- Promotion keeps the value. -/
theorem toInt_widen (T : IntType) (v : T.Original) : T.promoted.toInt (T.widen v) = T.toInt v := by
  have room : T.nbits ≤ T.promoted.nbits := by
    have := promoted_nbits_cases T
    omega
  cases hs : T.signed with
  | true =>
    have signed : T.promoted.signed = true := by
      rcases T with ⟨w, signed⟩
      cases w <;> simp_all
    simp only [IntType.toInt, IntType.widen, signed, hs, if_true]
    exact BitVec.toInt_signExtend_of_le room
  | false =>
    have same : (v.setWidth T.promoted.nbits).toNat = v.toNat := by
      rw [BitVec.toNat_setWidth]
      exact Nat.mod_eq_of_lt (Nat.lt_of_lt_of_le v.isLt (Nat.pow_le_pow_right Nat.two_pos room))
    cases hp : T.promoted.signed with
    | false =>
      simp only [IntType.toInt, IntType.widen, hp, hs, Bool.false_eq_true, if_false, same]
    | true =>
      have narrow : 2 * v.toNat < 2 ^ T.promoted.nbits := by
        have small := v.isLt
        rcases T with ⟨w, signed⟩
        cases w <;> simp_all [IntType.nbits, Width.nbits, Width.nbytes] <;> omega
      simp only [IntType.toInt, IntType.widen, hp, hs, Bool.false_eq_true, if_false, if_true]
      rw [BitVec.toInt_eq_toNat_of_lt (by rwa [same]), same]

theorem toNat_widen_sub (T : IntType) {a b : T.Original} (h : T.toInt b ≤ T.toInt a) :
    (T.widen a - T.widen b).toNat = (a - b).toNat := by
  have wide := toNat_sub_of_le T.promoted (a := T.widen b) (b := T.widen a)
    (by rwa [toInt_widen, toInt_widen])
  have narrow := toNat_sub_of_le T h
  rw [toInt_widen, toInt_widen] at wide
  omega

/-- Whichever shift the promoted type takes, nothing is left of an ordered difference
exactly when it is below `2 ^ n`. -/
theorem subShiftRight_eq_zero_iff (T : IntType) {a b : T.Original} {n : Nat}
    (h : T.toInt b ≤ T.toInt a) (hn : n < T.nbits) :
    T.subShiftRight a b n = 0 ↔ (a - b).toNat < 2 ^ n := by
  have diff := toNat_widen_sub T h
  have small := (a - b).isLt
  rw [IntType.subShiftRight, ← BitVec.toNat_inj, BitVec.toNat_setWidth]
  generalize T.widen a - T.widen b = d at diff ⊢
  have logical : (d >>> n).toNat % 2 ^ T.nbits = (a - b).toNat / 2 ^ n := by
    rw [BitVec.toNat_ushiftRight, Nat.shiftRight_eq_div_pow, diff]
    exact Nat.mod_eq_of_lt (Nat.lt_of_le_of_lt (Nat.div_le_self _ _) small)
  by_cases arithmetic : T.promoted.signed = true ∧ d.msb = true
  · -- a negative difference: the shift keeps its sign, and it was at least `2 ^ (w - 1)`
    obtain ⟨signed, negative⟩ := arithmetic
    have large := BitVec.msb_eq_true_iff_two_mul_ge.mp negative
    rw [diff] at large
    have same : 2 ^ T.promoted.nbits = 2 ^ T.nbits := by
      rcases promoted_nbits_cases T with same | ⟨narrow, wide⟩
      · rw [same]
      · have := Nat.pow_le_pow_right Nat.two_pos narrow
        rw [wide] at large
        omega
    have half : 2 * 2 ^ n ≤ 2 ^ T.nbits := by
      rw [← Nat.pow_succ']
      exact Nat.pow_le_pow_right Nat.two_pos hn
    have kept : (~~~d >>> n).toNat ≤ (~~~d).toNat := by
      rw [BitVec.toNat_ushiftRight, Nat.shiftRight_eq_div_pow]
      exact Nat.div_le_self _ _
    rw [if_pos signed, BitVec.sshiftRight_eq_of_msb_true negative, BitVec.toNat_not]
    rw [BitVec.toNat_not, diff] at kept
    rw [same] at kept large ⊢
    rw [Nat.mod_eq_of_lt (by omega)]
    simp only [BitVec.ofNat_eq_ofNat, BitVec.toNat_ofNat, Nat.zero_mod]
    omega
  · have shifted : (if T.promoted.signed then d.sshiftRight n else d >>> n) = d >>> n := by
      by_cases signed : T.promoted.signed = true
      · rw [if_pos signed, BitVec.sshiftRight_eq_of_msb_false (by simpa [signed] using arithmetic)]
      · rw [if_neg signed]
    rw [shifted, logical]
    simp

end Oroch
