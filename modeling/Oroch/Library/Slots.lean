import Mathlib.Data.Nat.Digits.Defs
import Mathlib.Data.Nat.Size

/-!
# Fixed-width slots of a number

A number is read as a row of slots of `b` bits, the lowest first. `pack` lays a
list of digits into the row and keeps the low `b` bits of each; `slot` reads one
back. A row may be stored in two words of `k` bits, `lo + 2 ^ k * hi`; the slot
that lies across the boundary takes its low bits from `lo` and the rest from `hi`.

Bytes are slots of eight bits, so the little-endian image of a number is one
more instance.
-/

namespace Slots

/-- Slot `i` of the row `v`. -/
def slot (b v i : Nat) : Nat := v / 2 ^ (b * i) % 2 ^ b

/-- The row holding the low `b` bits of each digit. -/
def pack (b : Nat) (ds : List Nat) : Nat := Nat.ofDigits (2 ^ b) (ds.map (· % 2 ^ b))

@[simp] theorem pack_nil (b : Nat) : pack b [] = 0 := rfl

@[simp] theorem pack_cons (b d : Nat) (ds : List Nat) :
    pack b (d :: ds) = d % 2 ^ b + 2 ^ b * pack b ds := by
  simp [pack, Nat.ofDigits_cons]

theorem pack_append (b : Nat) (ds es : List Nat) :
    pack b (ds ++ es) = pack b ds + 2 ^ (b * ds.length) * pack b es := by
  simp [pack, Nat.ofDigits_append, pow_mul]

/-- A field of `n` bits joined above `s` bits makes `s + n` bits. -/
theorem join_lt {lo d s n : Nat} (hlo : lo < 2 ^ s) (hd : d < 2 ^ n) :
    lo + 2 ^ s * d < 2 ^ (s + n) :=
  calc lo + 2 ^ s * d
      < 2 ^ s * (d + 1) := by rw [Nat.mul_succ]; omega
    _ ≤ 2 ^ s * 2 ^ n := Nat.mul_le_mul_left _ hd
    _ = 2 ^ (s + n) := (pow_add 2 s n).symm

theorem pack_lt (b : Nat) (ds : List Nat) : pack b ds < 2 ^ (b * ds.length) := by
  induction ds with
  | nil => simp
  | cons d ds ih =>
    rw [pack_cons, List.length_cons, Nat.mul_succ, Nat.add_comm (b * _)]
    exact join_lt (Nat.mod_lt _ (Nat.two_pow_pos b)) ih

/-- A slot returns its own digit, whatever the other digits are; past the last
digit the row is empty. -/
theorem slot_pack (b : Nat) (ds : List Nat) (i : Nat) :
    slot b (pack b ds) i = ds[i]?.getD 0 % 2 ^ b := by
  induction ds generalizing i with
  | nil => simp [slot]
  | cons d ds ih =>
    have digit : d % 2 ^ b < 2 ^ b := Nat.mod_lt _ (Nat.two_pow_pos b)
    cases i with
    | zero => simp [slot]
    | succ i =>
      have below : (d % 2 ^ b + 2 ^ b * pack b ds) / 2 ^ b = pack b ds := by
        rw [Nat.add_mul_div_left _ _ (Nat.two_pow_pos b), Nat.div_eq_of_lt digit, Nat.zero_add]
      rw [List.getElem?_cons_succ, ← ih i, slot, slot, pack_cons, Nat.mul_succ,
        Nat.add_comm (b * i), pow_add, ← Nat.div_div_eq_div_mul, below]

/-- Reading the first `n` slots and packing them again keeps the low bits. -/
theorem pack_slots (b v n : Nat) :
    pack b ((List.range n).map (slot b v)) = v % 2 ^ (b * n) := by
  induction n with
  | zero => simp [Nat.mod_one]
  | succ n ih =>
    rw [List.range_succ, List.map_append, pack_append, ih]
    simp [slot, Nat.mul_succ, pow_add, Nat.mod_mul]

theorem slot_lt (b v i : Nat) : slot b v i < 2 ^ b := Nat.mod_lt _ (Nat.two_pow_pos b)

theorem slot_succ (b v i : Nat) : slot b v (i + 1) = slot b (v / 2 ^ b) i := by
  rw [slot, slot, Nat.div_div_eq_div_mul, ← pow_add, Nat.mul_succ, Nat.add_comm]

/-- The part of a two-word row above its lowest `n` bits. -/
theorem words_div {k n : Nat} (lo hi : Nat) (h : n ≤ k) :
    (lo + 2 ^ k * hi) / 2 ^ n = lo / 2 ^ n + 2 ^ (k - n) * hi := by
  have split : 2 ^ k = 2 ^ n * 2 ^ (k - n) := by rw [← pow_add]; congr 1; omega
  rw [split, Nat.mul_assoc, Nat.add_mul_div_left _ _ (Nat.two_pow_pos n)]

/-- A slot inside the low word. -/
theorem slot_low {b k i : Nat} (lo hi : Nat) (h : b * i + b ≤ k) :
    slot b (lo + 2 ^ k * hi) i = lo / 2 ^ (b * i) % 2 ^ b := by
  have split : 2 ^ (k - b * i) = 2 ^ b * 2 ^ (k - b * i - b) := by
    rw [← pow_add]; congr 1; omega
  rw [slot, words_div lo hi (by omega), split, Nat.mul_assoc, Nat.add_mul_mod_self_left]

/-- A slot inside the high word. -/
theorem slot_high {b k i : Nat} {lo : Nat} (hi : Nat) (hlo : lo < 2 ^ k) (h : k ≤ b * i) :
    slot b (lo + 2 ^ k * hi) i = hi / 2 ^ (b * i - k) % 2 ^ b := by
  have split : 2 ^ (b * i) = 2 ^ k * 2 ^ (b * i - k) := by
    rw [← pow_add]; congr 1; omega
  rw [slot, split, ← Nat.div_div_eq_div_mul, Nat.add_mul_div_left _ _ (Nat.two_pow_pos k),
    Nat.div_eq_of_lt hlo, Nat.zero_add]

/-- The slot across the boundary, with its bits brought together. -/
theorem slot_straddling {b k i : Nat} (lo hi : Nat) (h : b * i ≤ k) :
    slot b (lo + 2 ^ k * hi) i = (lo / 2 ^ (b * i) + 2 ^ (k - b * i) * hi) % 2 ^ b := by
  rw [slot, words_div lo hi h]

/-- Writing a row whose first digit lies across the boundary: `n` bits of it go below,
the other `m` start the high word. -/
theorem pack_straddling (row d : Nat) (ds : List Nat) {n m k s : Nat} (h : s + n = k) :
    row + 2 ^ s * (d % 2 ^ n) + 2 ^ k * (d / 2 ^ n % 2 ^ m + 2 ^ m * pack (n + m) ds) =
      row + 2 ^ s * pack (n + m) (d :: ds) := by
  rw [pack_cons, ← h, pow_add, pow_add, Nat.mod_mul]
  ring

/-- Bit fields that do not overlap are joined by addition. -/
theorem or_shifted {lo : Nat} (hi s : Nat) (h : lo < 2 ^ s) :
    lo ||| hi * 2 ^ s = lo + 2 ^ s * hi := by
  rw [Nat.mul_comm, Nat.or_comm, ← Nat.two_pow_add_eq_or_of_lt h, Nat.add_comm]

/-- Joining a field above the bits of a word adds its weighted value, modulo the
width of the word. -/
theorem or_ofNat_shiftLeft {w : Nat} (u : BitVec w) (s d : Nat) (h : u.toNat < 2 ^ s) :
    u ||| BitVec.ofNat w d <<< s = BitVec.ofNat w (u.toNat + 2 ^ s * d) := by
  apply BitVec.eq_of_toNat_eq
  rw [BitVec.toNat_or, BitVec.toNat_shiftLeft, BitVec.toNat_ofNat, BitVec.toNat_ofNat,
    Nat.shiftLeft_eq, ← or_shifted d s h, Nat.or_mod_two_pow, Nat.mod_mul_mod,
    Nat.mod_eq_of_lt u.isLt]

/-- Joining a field above the bits of a word that is given as a number. -/
theorem ofNat_or_shiftLeft {w lo s : Nat} (d : Nat) (h : lo < 2 ^ s) (room : s ≤ w) :
    BitVec.ofNat w lo ||| BitVec.ofNat w d <<< s = BitVec.ofNat w (lo + 2 ^ s * d) := by
  have same : (BitVec.ofNat w lo).toNat = lo := by
    rw [BitVec.toNat_ofNat]
    exact Nat.mod_eq_of_lt (Nat.lt_of_lt_of_le h (Nat.pow_le_pow_right Nat.two_pos room))
  rw [or_ofNat_shiftLeft _ s d (by rwa [same]), same]

/-- The `b` lowest bits of a word. -/
def mask (w b : Nat) : BitVec w := BitVec.allOnes w >>> (w - b)

theorem toNat_mask {w b : Nat} (h : b ≤ w) : (mask w b).toNat = 2 ^ b - 1 := by
  have split : 2 ^ w = 2 ^ b * 2 ^ (w - b) := by rw [← pow_add]; congr 1; omega
  have positive := Nat.two_pow_pos (w - b)
  rw [mask, BitVec.toNat_ushiftRight, Nat.shiftRight_eq_div_pow, BitVec.toNat_allOnes, split]
  have below : 2 ^ b * 2 ^ (w - b) - 1 = 2 ^ (w - b) - 1 + 2 ^ (w - b) * (2 ^ b - 1) := by
    rw [Nat.mul_sub, Nat.mul_comm]
    have := Nat.mul_le_mul_left (2 ^ (w - b)) (Nat.two_pow_pos b)
    omega
  rw [below, Nat.add_mul_div_left _ _ positive, Nat.div_eq_of_lt (by omega), Nat.zero_add]

theorem toNat_and_mask {w b : Nat} (u : BitVec w) (h : b ≤ w) :
    (u &&& mask w b).toNat = u.toNat % 2 ^ b := by
  rw [BitVec.toNat_and, toNat_mask h, Nat.and_two_pow_sub_one_eq_mod]

theorem toNat_and_low {w n : Nat} (u m : BitVec w) (hm : m.toNat = (2 ^ n - 1) % 2 ^ w) :
    (u &&& m).toNat = u.toNat % 2 ^ n := by
  have low : u.toNat % 2 ^ n % 2 ^ w = u.toNat % 2 ^ n :=
    Nat.mod_eq_of_lt (Nat.lt_of_le_of_lt (Nat.mod_le _ _) u.isLt)
  rw [BitVec.toNat_and, hm, ← low, ← Nat.and_two_pow_sub_one_eq_mod u.toNat n,
    Nat.and_mod_two_pow, Nat.mod_eq_of_lt u.isLt]

/-- Clearing the `n` lowest bits of a word, also where `n` exceeds its width. -/
theorem toNat_and_not_low {w n : Nat} (u m : BitVec w) (hm : m.toNat = (2 ^ n - 1) % 2 ^ w) :
    (u &&& ~~~m).toNat = u.toNat - u.toNat % 2 ^ n := by
  have apart : (u &&& m) &&& (u &&& ~~~m) = 0#w := by
    ext i hi
    simp only [BitVec.getElem_and, BitVec.getElem_not, BitVec.getElem_zero]
    cases u[i] <;> cases m[i] <;> rfl
  have whole : u &&& m ||| u &&& ~~~m = u := by
    ext i hi
    simp only [BitVec.getElem_or, BitVec.getElem_and, BitVec.getElem_not]
    cases u[i] <;> cases m[i] <;> rfl
  have sum := BitVec.toNat_add_of_and_eq_zero apart
  rw [BitVec.add_eq_or_of_and_eq_zero _ _ apart, whole, toNat_and_low u m hm] at sum
  omega

theorem and_not_low_iff {w n : Nat} (u m : BitVec w) (hm : m.toNat = (2 ^ n - 1) % 2 ^ w) :
    u &&& ~~~m = 0 ↔ u.toNat < 2 ^ n := by
  have positive := Nat.two_pow_pos n
  have below := Nat.mod_lt u.toNat positive
  rw [← BitVec.toNat_inj, toNat_and_not_low u m hm, BitVec.ofNat_eq_ofNat, BitVec.toNat_ofNat,
    Nat.zero_mod]
  constructor
  · intro h
    have := Nat.mod_le u.toNat (2 ^ n)
    omega
  · intro h
    rw [Nat.mod_eq_of_lt h, Nat.sub_self]

/-- The `n` lowest bytes of a number, the lowest first. -/
def bytes (n v : Nat) : List (BitVec 8) := (List.range n).map fun i => BitVec.ofNat 8 (slot 8 v i)

/-- The number whose bytes are given, the lowest first. -/
def ofBytes (bs : List (BitVec 8)) : Nat := pack 8 (bs.map BitVec.toNat)

@[simp] theorem length_bytes (n v : Nat) : (bytes n v).length = n := by simp [bytes]

theorem ofBytes_lt (bs : List (BitVec 8)) : ofBytes bs < 2 ^ (8 * bs.length) := by
  simpa [ofBytes] using pack_lt 8 (bs.map BitVec.toNat)

theorem ofBytes_bytes (n v : Nat) : ofBytes (bytes n v) = v % 2 ^ (8 * n) := by
  rw [← pack_slots, ofBytes, bytes, List.map_map]
  congr 1
  apply List.map_congr_left
  intro i _
  simpa using Nat.mod_eq_of_lt (slot_lt 8 v i)

/-- Two adjacent byte images make the image of a two-word row. -/
theorem bytes_append (m n : Nat) {lo : Nat} (hi : Nat) (h : lo < 2 ^ (8 * m)) :
    bytes m lo ++ bytes n hi = bytes (m + n) (lo + 2 ^ (8 * m) * hi) := by
  rw [bytes, bytes, bytes, List.range_add, List.map_append, List.map_map]
  congr 1
  · apply List.map_congr_left
    intro i hi'
    have := List.mem_range.mp hi'
    rw [slot_low lo hi (by omega), slot]
  · apply List.map_congr_left
    intro i _
    change _ = BitVec.ofNat 8 (slot 8 (lo + 2 ^ (8 * m) * hi) (m + i))
    rw [slot_high hi h (by omega), slot, show 8 * (m + i) - 8 * m = 8 * i by omega]

theorem ofBytes_append (bs cs : List (BitVec 8)) :
    ofBytes (bs ++ cs) = ofBytes bs + 2 ^ (8 * bs.length) * ofBytes cs := by
  simp [ofBytes, pack_append]

end Slots
