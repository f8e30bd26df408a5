import Oroch.Common
import Oroch.ValueCodec

/-!
# Bit-packing into blocks

A block is two 64-bit words and holds `capacity nbits` slots of `nbits` bits, the
lowest first; unless the width divides 64 one slot lies across the two words.
This module follows the four functions on blocks and the loops over them. The
widths of use are 1 to 64: outside that range the shifts by `64 - nbits` of the
source are undefined and nothing is proved.
-/

namespace Oroch

open Cursor

namespace BitpckCodec

def blockSize : Nat := 16

def blockNbits : Nat := blockSize * 8

def capacity (nbits : Nat) : Nat := blockNbits / nbits

def blockNumber (nvalues nbits : Nat) : Nat :=
  (nvalues + capacity nbits - 1) / capacity nbits

def space (nvalues nbits : Nat) : Nat := blockSize * blockNumber nvalues nbits

section Codec

variable {T : IntType} {V : Type} [ValueCodec T V]

/-- `uint64_t(int64_t(-1)) >> (64 - nbits)` -/
def mask (nbits : Nat) : Word := Slots.mask 64 nbits

/-- The variables of `block_encode` around one of its loops: the word being
filled, the next free bit, the values left and the codec. -/
structure Filling (T : IntType) (V : Type) where
  word : Word
  shift : Nat
  src : List T.Original
  vcodec : V

/-- `while (count--)`; the flag tells that the values ran out and `done` is next. -/
def fillLoop (nbits : Nat) : (count : Nat) → Filling T V → Filling T V × Bool
  | 0, f => (f, false)
  | count + 1, f =>
    match f.src with
    | [] => (f, true)
    | v :: src =>
      let (code, vcodec) := valueEncode f.vcodec v
      let value : Word := code.setWidth 64
      fillLoop nbits count
        ⟨f.word ||| (value &&& mask nbits) <<< f.shift, f.shift + nbits, src, vcodec⟩

/-- The two words at `done`, with the values and the codec left over. -/
def block (u v : Word) (src : List T.Original) (vcodec : V) : Bytes × List T.Original × V :=
  (storeWord u ++ storeWord v, src, vcodec)

def blockEncode (src : List T.Original) (nbits : Nat) (vcodec : V) :
    Bytes × List T.Original × V :=
  let c := capacity nbits
  let m := c / 2
  let n := c - m
  match fillLoop nbits m ⟨0#64, 0, src, vcodec⟩ with
  | (f, true) => block f.word 0#64 f.src f.vcodec
  | (f, false) =>
    if f.shift = 64 then
      let g := (fillLoop nbits n ⟨0#64, 0, f.src, f.vcodec⟩).1
      block f.word g.word g.src g.vcodec
    else
      match f.src with
      | [] => block f.word 0#64 [] f.vcodec
      | x :: src =>
        let nbits1 := 64 - f.shift
        let nbits2 := nbits - nbits1
        let mask1 := ((1 : Word) <<< nbits1) - 1
        let mask2 := ((1 : Word) <<< nbits2) - 1
        let (code, vcodec) := valueEncode f.vcodec x
        let value : Word := code.setWidth 64
        let u := f.word ||| (value &&& mask1) <<< f.shift
        let v := (value >>> nbits1) &&& mask2
        let g := (fillLoop nbits (n - 1) ⟨v, nbits2, src, vcodec⟩).1
        block u g.word g.src g.vcodec

/-- One loop of `block_decode`: `count` values off the low end of a word, and the
word shifted. At `nbits = 64` the shift is undefined in the source; the count is
then 1 and the shifted word is not read again. -/
def unpackLoop (nbits : Nat) (vcodec : V) : (count : Nat) → Word → List T.Original × Word
  | 0, u => ([], u)
  | count + 1, u =>
    let v := valueDecode vcodec ((u &&& mask nbits).setWidth T.nbits)
    let (vs, u) := unpackLoop nbits vcodec count (u >>> nbits)
    (v :: vs, u)

/-- `block_decode` bounded by `end`, with room for `k` values. -/
def blockDecodeUntil (k : Nat) (nbits : Nat) (vcodec : V) : ByteReader (List T.Original) := do
  let u ← loadWord
  let v ← loadWord
  let c := capacity nbits
  let m := c / 2
  let mbits := m * nbits
  let (c, m) := if c > k then (k, if m > k then k else m) else (c, m)
  let n := c - m
  let (us, u) := unpackLoop nbits vcodec m u
  if n ≠ 0 ∧ mbits ≠ 64 then
    let r := 64 - mbits
    let x := u ||| v <<< r
    let v := v >>> (nbits - r)
    pure (us ++ valueDecode vcodec ((x &&& mask nbits).setWidth T.nbits) ::
      (unpackLoop nbits vcodec (n - 1) v).1)
  else
    pure (us ++ (unpackLoop nbits vcodec n v).1)

/-- `block_decode` without a bound. -/
def blockDecode (nbits : Nat) (vcodec : V) : ByteReader (List T.Original) := do
  let u ← loadWord
  let v ← loadWord
  let c := capacity nbits
  let m := c / 2
  let n := c - m
  let mbits := m * nbits
  let (us, u) := unpackLoop nbits vcodec m u
  if mbits ≠ 64 then
    let r := 64 - mbits
    let x := u ||| v <<< r
    let v := v >>> (nbits - r)
    pure (us ++ valueDecode vcodec ((x &&& mask nbits).setWidth T.nbits) ::
      (unpackLoop nbits vcodec (n - 1) v).1)
  else
    pure (us ++ (unpackLoop nbits vcodec n v).1)

/-- The value at one index of the block at the start of `src`. -/
def blockFetch (src : Bytes) (index nbits : Nat) (vcodec : V) : Outcome T.Original := do
  let (u, src) ← loadWord.run src
  let (v, _) ← loadWord.run src
  let m := capacity nbits / 2
  let x : Word :=
    if index < m then u >>> (index * nbits)
    else
      let mbits := m * nbits
      if mbits ≠ 64 ∧ index = m then (u >>> mbits) ||| (v <<< (64 - mbits))
      else v >>> (index * nbits - 64)
  pure (valueDecode vcodec ((x &&& mask nbits).setWidth T.nbits))

theorem fillLoop_src_le (nbits count : Nat) (f : Filling T V) :
    (fillLoop nbits count f).1.src.length ≤ f.src.length := by
  induction count generalizing f with
  | zero => exact Nat.le_refl _
  | succ count ih =>
    cases h : f.src with
    | nil => simp [fillLoop, h]
    | cons v src =>
      simp only [fillLoop, h]
      exact Nat.le_succ_of_le (ih _)

theorem fillLoop_done (nbits count : Nat) (f : Filling T V)
    (done : (fillLoop nbits count f).2 = true) : (fillLoop nbits count f).1.src = [] := by
  induction count generalizing f with
  | zero => exact absurd done (by simp [fillLoop])
  | succ count ih =>
    cases h : f.src with
    | nil => simp [fillLoop, h]
    | cons v src =>
      simp only [fillLoop, h] at done ⊢
      exact ih _ done

theorem fillLoop_open (nbits count : Nat) (f : Filling T V)
    (going : (fillLoop nbits count f).2 = false) :
    (fillLoop nbits count f).1.src.length + count = f.src.length ∧
      (fillLoop nbits count f).1.shift = f.shift + nbits * count := by
  induction count generalizing f with
  | zero => exact ⟨rfl, rfl⟩
  | succ count ih =>
    cases h : f.src with
    | nil => simp [fillLoop, h] at going
    | cons v src =>
      simp only [fillLoop, h] at going ⊢
      obtain ⟨left, shift⟩ := ih _ going
      dsimp only at left shift
      rw [List.length_cons, Nat.mul_succ]
      omega

/-- Whatever the width, a block takes at least one value. -/
theorem blockEncode_src_lt (v : T.Original) (src : List T.Original) (nbits : Nat) (vcodec : V) :
    (blockEncode (v :: src) nbits vcodec).2.1.length < (v :: src).length := by
  have done := fillLoop_done nbits (capacity nbits / 2) ⟨0#64, 0, v :: src, vcodec⟩
  have going := fillLoop_open nbits (capacity nbits / 2) ⟨0#64, 0, v :: src, vcodec⟩
  rw [blockEncode]
  rcases hf : fillLoop nbits (capacity nbits / 2) ⟨0#64, 0, v :: src, vcodec⟩ with ⟨f, flag⟩
  rw [hf] at done going
  cases flag with
  | true =>
    simp only [block]
    rw [done rfl]
    simp
  | false =>
    obtain ⟨left, shift⟩ := going rfl
    simp only at left shift ⊢
    split
    · have advanced : capacity nbits / 2 ≠ 0 := by
        intro none_first
        rw [none_first] at shift
        omega
      have later := fillLoop_src_le nbits (capacity nbits - capacity nbits / 2)
        (⟨0#64, 0, f.src, f.vcodec⟩ : Filling T V)
      simp only [block] at later ⊢
      omega
    · split
      · simp [block]
      · rename_i x rest h
        rw [h, List.length_cons] at left
        simp only [block]
        refine Nat.lt_of_le_of_lt (fillLoop_src_le _ _ _) ?_
        simp only
        omega

/-- All values, block by block. The codec left over is returned because it may
refer to shared state. -/
def encode (src : List T.Original) (nbits : Nat) (vcodec : V) : Bytes × V :=
  match src with
  | [] => ([], vcodec)
  | v :: rest =>
    match taken : blockEncode (v :: rest) nbits vcodec with
    | (bytes, left, next) =>
      have : left.length < (v :: rest).length := by
        have := blockEncode_src_lt v rest nbits vcodec
        rwa [taken] at this
      let (later, last) := encode left nbits next
      (bytes ++ later, last)
termination_by src.length
decreasing_by exact this

/-- Decode into `n` slots. A width that leaves no room for a value in a block
makes the source loop without advancing. -/
def decode (n nbits : Nat) (vcodec : V) : ByteReader (List T.Original) :=
  if _empty : capacity nbits = 0 then fun _ => .error .undefined
  else if _short : n < capacity nbits then
    if n > 0 then blockDecodeUntil n nbits vcodec else pure []
  else do
    let us ← blockDecode nbits vcodec
    let vs ← decode (n - capacity nbits) nbits vcodec
    pure (us ++ vs)
termination_by n

def fetch (src : Bytes) (index nbits : Nat) (vcodec : V) : Outcome T.Original :=
  let c := capacity nbits
  blockFetch (src.drop (index / c * blockSize)) (index % c) nbits vcodec

end Codec

/-- The slots fit the block, the first half of them fits the first word, and the
slot after those reaches the end of that word. -/
structure Layout (nbits : Nat) : Prop where
  two_le : 2 ≤ capacity nbits
  fits : nbits * capacity nbits ≤ 128
  low_fits : nbits * (capacity nbits / 2) ≤ 64
  low_full : 64 < nbits * (capacity nbits / 2) + nbits

theorem layout {nbits : Nat} (h1 : 1 ≤ nbits) (h64 : nbits ≤ 64) : Layout nbits := by
  have fits : nbits * capacity nbits ≤ 128 := Nat.mul_div_le 128 nbits
  have full : 128 < nbits * (capacity nbits + 1) := Nat.lt_mul_div_succ 128 h1
  have half : nbits * (2 * (capacity nbits / 2)) ≤ nbits * capacity nbits :=
    Nat.mul_le_mul_left _ (by omega)
  have more : nbits * (capacity nbits + 1) ≤ nbits * (2 * (capacity nbits / 2 + 1)) :=
    Nat.mul_le_mul_left _ (by omega)
  have regroup (k : Nat) : nbits * (2 * k) = 2 * (nbits * k) := Nat.mul_left_comm _ _ _
  rw [regroup] at half more
  simp only [Nat.mul_add, Nat.mul_one] at full more
  exact
    { two_le := (Nat.le_div_iff_mul_le h1).mpr (by change 2 * nbits ≤ 128; omega)
      fits := fits
      low_fits := by omega
      low_full := by omega }

section Encode

variable {T : IntType} {V : Type} [ValueCodec T V]

/-- The codes of a sequence as numbers. -/
def digits (vcodec : V) (vs : List T.Original) : List Nat :=
  (codes vcodec vs).1.map BitVec.toNat

@[simp] theorem length_digits (vcodec : V) (vs : List T.Original) :
    (digits vcodec vs).length = vs.length := by
  simp [digits]

theorem digits_append (vcodec : V) (vs ws : List T.Original) :
    digits vcodec (vs ++ ws) = digits vcodec vs ++ digits (codes vcodec vs).2 ws := by
  simp [digits, codes_append]

theorem toNat_widen (u : T.Unsigned) : (u.setWidth 64).toNat = u.toNat := by
  rw [BitVec.toNat_setWidth]
  exact Nat.mod_eq_of_lt
    (Nat.lt_of_lt_of_le u.isLt (Nat.pow_le_pow_right Nat.two_pos T.nbits_le))

theorem and_mask_eq {nbits : Nat} (h64 : nbits ≤ 64) (u : Word) :
    u &&& Slots.mask 64 nbits = BitVec.ofNat 64 (u.toNat % 2 ^ nbits) := by
  apply BitVec.eq_of_toNat_eq
  rw [Slots.toNat_and_mask u h64, BitVec.toNat_ofNat]
  exact (Nat.mod_eq_of_lt (Nat.lt_of_le_of_lt (Nat.mod_le _ _) u.isLt)).symm

theorem ones_eq_mask {b : Nat} (h : b < 64) : ((1 : Word) <<< b) - 1 = Slots.mask 64 b := by
  have bound : 2 ^ b < 2 ^ 64 := Nat.pow_lt_pow_right Nat.one_lt_two h
  have positive := Nat.two_pow_pos b
  apply BitVec.eq_of_toNat_eq
  rw [Slots.toNat_mask (by omega), BitVec.toNat_sub, BitVec.toNat_shiftLeft]
  simp only [BitVec.ofNat_eq_ofNat, BitVec.toNat_ofNat, Nat.shiftLeft_eq]
  omega

/-- A loop adds the codes of the values it takes above the bits of its word, and
stops early exactly when the values run out. -/
theorem fillLoop_run {nbits : Nat} (h64 : nbits ≤ 64) (count : Nat) (xs ys : List T.Original)
    (lo shift : Nat) (vcodec : V) (hlo : lo < 2 ^ shift) (room : shift + nbits * count ≤ 64)
    (hx : xs.length ≤ count) (hy : xs.length < count → ys = []) :
    fillLoop nbits count ⟨BitVec.ofNat 64 lo, shift, xs ++ ys, vcodec⟩ =
      (⟨BitVec.ofNat 64 (lo + 2 ^ shift * Slots.pack nbits (digits vcodec xs)),
        shift + nbits * xs.length, ys, (codes vcodec xs).2⟩, decide (xs.length < count)) := by
  induction count generalizing xs lo shift vcodec with
  | zero =>
    have none_taken : xs = [] := List.eq_nil_of_length_eq_zero (by omega)
    subst none_taken
    simp [fillLoop, digits, codes]
  | succ count ih =>
    cases xs with
    | nil =>
      have none_left : ys = [] := hy (by simp)
      subst none_left
      simp [fillLoop, digits, codes]
    | cons v xs =>
      rw [Nat.mul_succ] at room
      have field := Slots.ofNat_or_shiftLeft (w := 64)
        ((valueEncode vcodec v).1.toNat % 2 ^ nbits) hlo (by omega)
      have above : lo + 2 ^ shift * ((valueEncode vcodec v).1.toNat % 2 ^ nbits) <
          2 ^ (shift + nbits) := Slots.join_lt hlo (Nat.mod_lt _ (Nat.two_pow_pos nbits))
      have rest := ih xs _ (shift + nbits) (valueEncode vcodec v).2 above (by omega)
        (by simpa using hx) (fun h => hy (by simpa using h))
      rw [List.cons_append, fillLoop]
      simp only [mask, and_mask_eq h64, toNat_widen, field, rest]
      simp only [digits, codes, List.map_cons, Slots.pack_cons, List.length_cons, pow_add,
        Nat.mul_succ, Nat.mul_add, Nat.add_assoc, Nat.mul_assoc, Nat.add_lt_add_iff_right,
        Nat.add_comm nbits]

omit [ValueCodec T V] in
theorem block_bytes {lo hi : Nat} (hlo : lo < 2 ^ 64) (hhi : hi < 2 ^ 64)
    (src : List T.Original) (vcodec : V) :
    block (BitVec.ofNat 64 lo) (BitVec.ofNat 64 hi) src vcodec =
      (Slots.bytes blockSize (lo + 2 ^ 64 * hi), src, vcodec) := by
  have adjacent := Slots.bytes_append 8 8 hi hlo
  rw [block, storeWord_eq, storeWord_eq, BitVec.toNat_ofNat, BitVec.toNat_ofNat,
    Nat.mod_eq_of_lt hlo, Nat.mod_eq_of_lt hhi, adjacent]
  rfl

theorem pack_digits_lt {nbits b : Nat} (vcodec : V) (vs : List T.Original)
    (room : nbits * vs.length ≤ b) : Slots.pack nbits (digits vcodec vs) < 2 ^ b := by
  have bound := Slots.pack_lt nbits (digits vcodec vs)
  rw [length_digits] at bound
  exact Nat.lt_of_lt_of_le bound (Nat.pow_le_pow_right Nat.two_pos room)

/-- The first loop, on as many values as it takes. -/
theorem fillLoop_first {nbits m : Nat} (h64 : nbits ≤ 64) (room : nbits * m ≤ 64)
    {xs : List T.Original} (len : xs.length = m) (ys : List T.Original) (vcodec : V) :
    fillLoop nbits m ⟨0#64, 0, xs ++ ys, vcodec⟩ =
      (⟨BitVec.ofNat 64 (Slots.pack nbits (digits vcodec xs)), nbits * m, ys,
        (codes vcodec xs).2⟩, false) := by
  have run := fillLoop_run h64 m xs ys 0 0 vcodec (by simp) (by omega) (by omega)
    (fun h => absurd h (by omega))
  simpa only [Nat.pow_zero, Nat.one_mul, Nat.zero_add, len, Nat.lt_irrefl, decide_false] using run

/-- The values end in the first loop. -/
theorem blockEncode_few {nbits : Nat} (h1 : 1 ≤ nbits) (h64 : nbits ≤ 64)
    (xs : List T.Original) (vcodec : V) (few : xs.length < capacity nbits / 2) :
    blockEncode xs nbits vcodec =
      (Slots.bytes blockSize (Slots.pack nbits (digits vcodec xs)), [], (codes vcodec xs).2) := by
  have room := (layout h1 h64).low_fits
  have short : nbits * xs.length ≤ 64 :=
    Nat.le_trans (Nat.mul_le_mul_left _ (Nat.le_of_lt few)) room
  have run := fillLoop_run h64 (capacity nbits / 2) xs [] 0 0 vcodec (by simp) (by omega)
    (by omega) (fun _ => rfl)
  have whole := block_bytes (pack_digits_lt vcodec xs short) (Nat.two_pow_pos 64)
    ([] : List T.Original) (codes vcodec xs).2
  simp only [Nat.pow_zero, Nat.one_mul, Nat.zero_add, few, decide_true, List.append_nil] at run
  simp only [Nat.mul_zero, Nat.add_zero] at whole
  simp only [blockEncode, run, whole]

/-- The values end where a slot lies across the words. -/
theorem blockEncode_half {nbits : Nat} (h1 : 1 ≤ nbits) (h64 : nbits ≤ 64)
    {xs : List T.Original} (vcodec : V) (len : xs.length = capacity nbits / 2)
    (straddling : ¬ nbits * (capacity nbits / 2) = 64) :
    blockEncode xs nbits vcodec =
      (Slots.bytes blockSize (Slots.pack nbits (digits vcodec xs)), [], (codes vcodec xs).2) := by
  have room := (layout h1 h64).low_fits
  have run := fillLoop_first h64 room len [] vcodec
  have whole := block_bytes (pack_digits_lt vcodec xs (by rwa [len])) (Nat.two_pow_pos 64)
    ([] : List T.Original) (codes vcodec xs).2
  simp only [Nat.mul_zero, Nat.add_zero] at whole
  simp only [List.append_nil] at run
  simp only [blockEncode, run, straddling, if_false, whole]

/-- The second word starts with a new slot. -/
theorem blockEncode_aligned {nbits : Nat} (h1 : 1 ≤ nbits) (h64 : nbits ≤ 64)
    {xs1 : List T.Original} (xs2 ys : List T.Original) (vcodec : V)
    (len : xs1.length = capacity nbits / 2) (aligned : nbits * (capacity nbits / 2) = 64)
    (hx : xs2.length ≤ capacity nbits - capacity nbits / 2)
    (hy : xs2.length < capacity nbits - capacity nbits / 2 → ys = []) :
    blockEncode (xs1 ++ (xs2 ++ ys)) nbits vcodec =
      (Slots.bytes blockSize (Slots.pack nbits (digits vcodec (xs1 ++ xs2))), ys,
        (codes vcodec (xs1 ++ xs2)).2) := by
  obtain ⟨-, fits, room, -⟩ := layout h1 h64
  have run := fillLoop_first h64 room len (xs2 ++ ys) vcodec
  have high_room : nbits * (capacity nbits - capacity nbits / 2) ≤ 64 := by
    rw [Nat.mul_sub]
    omega
  have second := fillLoop_run h64 (capacity nbits - capacity nbits / 2) xs2 ys 0 0
    (codes vcodec xs1).2 (by simp) (by omega) hx hy
  have low_lt := pack_digits_lt vcodec xs1 (show nbits * xs1.length ≤ 64 by rwa [len])
  have high_lt := pack_digits_lt (codes vcodec xs1).2 xs2
    (Nat.le_trans (Nat.mul_le_mul_left nbits hx) high_room)
  simp only [Nat.pow_zero, Nat.one_mul, Nat.zero_add] at second
  rw [digits_append, codes_append, Slots.pack_append, length_digits, len]
  simp only [blockEncode, run, aligned, if_true, second, block_bytes low_lt high_lt]

/-- The next code lies across the words: its low bits fill the first word, the others
start the second. -/
theorem blockEncode_straddling {nbits : Nat} (h1 : 1 ≤ nbits) (h64 : nbits ≤ 64)
    {xs1 : List T.Original} (x : T.Original) (xs3 ys : List T.Original) (vcodec : V)
    (len : xs1.length = capacity nbits / 2) (straddling : ¬ nbits * (capacity nbits / 2) = 64)
    (hx : xs3.length ≤ capacity nbits - capacity nbits / 2 - 1)
    (hy : xs3.length < capacity nbits - capacity nbits / 2 - 1 → ys = []) :
    blockEncode (xs1 ++ (x :: xs3 ++ ys)) nbits vcodec =
      (Slots.bytes blockSize (Slots.pack nbits (digits vcodec (xs1 ++ x :: xs3))), ys,
        (codes vcodec (xs1 ++ x :: xs3)).2) := by
  obtain ⟨two_le, fits, room, full⟩ := layout h1 h64
  have run := fillLoop_first h64 room len (x :: xs3 ++ ys) vcodec
  have row_bound : Slots.pack nbits (digits vcodec xs1) < 2 ^ (nbits * (capacity nbits / 2)) :=
    pack_digits_lt vcodec xs1 (by rw [len])
  generalize hm : capacity nbits / 2 = m at *
  obtain ⟨n1, split1⟩ : ∃ n1, nbits * m + n1 = 64 := ⟨64 - nbits * m, by omega⟩
  obtain ⟨n2, split2⟩ : ∃ n2, n1 + n2 = nbits := ⟨nbits - n1, by omega⟩
  have n1_eq : 64 - nbits * m = n1 := by omega
  have n2_eq : nbits - n1 = n2 := by omega
  generalize hcode : (valueEncode (codes vcodec xs1).2 x) = coded at *
  obtain ⟨u, next⟩ := coded
  have high_room : n2 + nbits * (capacity nbits - m - 1) ≤ 64 := by
    rw [Nat.mul_sub, Nat.mul_sub]
    omega
  have second := fillLoop_run h64 (capacity nbits - m - 1) xs3 ys
    (u.toNat / 2 ^ n1 % 2 ^ n2) n2 next (Nat.mod_lt _ (Nat.two_pow_pos n2)) high_room hx hy
  have low_field := Slots.ofNat_or_shiftLeft (w := 64) (u.toNat % 2 ^ n1) row_bound room
  have high_field : (u.setWidth 64 : Word) >>> n1 &&& Slots.mask 64 n2 =
      BitVec.ofNat 64 (u.toNat / 2 ^ n1 % 2 ^ n2) := by
    rw [and_mask_eq (by omega), BitVec.toNat_ushiftRight, toNat_widen, Nat.shiftRight_eq_div_pow]
  have low_whole : Slots.pack nbits (digits vcodec xs1) +
      2 ^ (nbits * m) * (u.toNat % 2 ^ n1) < 2 ^ 64 := by
    rw [← split1]
    exact Slots.join_lt row_bound (Nat.mod_lt _ (Nat.two_pow_pos n1))
  have high_whole : u.toNat / 2 ^ n1 % 2 ^ n2 +
      2 ^ n2 * Slots.pack nbits (digits next xs3) < 2 ^ 64 := by
    have above := pack_digits_lt next xs3 (Nat.mul_le_mul_left nbits hx)
    exact Nat.lt_of_lt_of_le (Slots.join_lt (Nat.mod_lt _ (Nat.two_pow_pos n2)) above)
      (Nat.pow_le_pow_right Nat.two_pos high_room)
  have digits_cons : digits (codes vcodec xs1).2 (x :: xs3) = u.toNat :: digits next xs3 := by
    simp [digits, codes, hcode]
  have codes_last : (codes (codes vcodec xs1).2 (x :: xs3)).2 = (codes next xs3).2 := by
    simp [codes, hcode]
  have row := Slots.pack_straddling (Slots.pack nbits (digits vcodec xs1)) u.toNat
    (digits next xs3) (m := n2) split1
  rw [split2] at row
  simp only [List.cons_append] at run ⊢
  simp only [blockEncode, hm, run, straddling, if_false, hcode, n1_eq, n2_eq,
    ones_eq_mask (show n1 < 64 by omega), ones_eq_mask (show n2 < 64 by omega),
    and_mask_eq (show n1 ≤ 64 by omega), toNat_widen, low_field, high_field, second]
  rw [digits_append, codes_append, Slots.pack_append, length_digits, len,
    block_bytes low_whole high_whole, digits_cons, codes_last, row]

/-- One block holds the codes of the values it takes, one in each slot, whether
or not they fill it. -/
theorem blockEncode_run {nbits : Nat} (h1 : 1 ≤ nbits) (h64 : nbits ≤ 64)
    (xs ys : List T.Original) (vcodec : V) (hx : xs.length ≤ capacity nbits)
    (hy : xs.length < capacity nbits → ys = []) :
    blockEncode (xs ++ ys) nbits vcodec =
      (Slots.bytes blockSize (Slots.pack nbits (digits vcodec xs)), ys,
        (codes vcodec xs).2) := by
  have two_le := (layout h1 h64).two_le
  by_cases few : xs.length < capacity nbits / 2
  · obtain rfl := hy (by omega)
    rw [List.append_nil]
    exact blockEncode_few h1 h64 xs vcodec few
  · obtain ⟨xs1, xs2, rfl, len⟩ := exists_front (Nat.le_of_not_lt few)
    rw [List.length_append] at hx hy
    rw [List.append_assoc]
    by_cases aligned : nbits * (capacity nbits / 2) = 64
    · exact blockEncode_aligned h1 h64 xs2 ys vcodec len aligned (by omega)
        (fun h => hy (by omega))
    · cases xs2 with
      | nil =>
        obtain rfl := hy (by simp; omega)
        simpa only [List.append_nil] using blockEncode_half h1 h64 vcodec len aligned
      | cons x xs3 =>
        rw [List.length_cons] at hx hy
        exact blockEncode_straddling h1 h64 x xs3 ys vcodec len aligned (by omega)
          (fun h => hy (by omega))

end Encode

end BitpckCodec

end Oroch
