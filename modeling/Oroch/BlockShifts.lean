import Oroch.Library.Trace
import Oroch.Packed

/-!
# Shifts in the block functions

A shift of a 64-bit word is undefined for a count of 64 or more, and a count may come from
a subtraction that wraps. Here the four functions on blocks run again and note every shift
count, and every subtraction that a count is computed with. Without the notes they are the
functions of the packer.

The encoder and `block_fetch` never shift by the whole word. The decoders shift a word once
behind each value, also behind the only one that a word of 64-bit slots holds.
-/

namespace Oroch

open Trace Cursor

/-- An operation on `size_t` counts that is not defined, or not meant, for all operands. -/
inductive CountOp where
  /-- `a - b`, on the way to a shift count. -/
  | difference (a b : Nat)
  /-- The count of a shift of a 64-bit word. -/
  | shift (count : Nat)
  deriving DecidableEq, Repr

/-- The subtraction does not wrap; the shift is defined. -/
def CountOp.Defined : CountOp → Prop
  | difference a b => b ≤ a
  | shift count => count < 64

namespace BlockShifts

open BitpckCodec (capacity blockSize Filling block layout)

def minus (a b : Nat) : Traced CountOp Nat := do
  note (.difference a b)
  pure (a - b)

def shiftLeft (u : Word) (count : Nat) : Traced CountOp Word := do
  note (.shift count)
  pure (u <<< count)

def shiftRight (u : Word) (count : Nat) : Traced CountOp Word := do
  note (.shift count)
  pure (u >>> count)

/-- `uint64_t(int64_t(-1)) >> (64 - nbits)` -/
def mask (nbits : Nat) : Traced CountOp Word := do
  let count ← minus 64 nbits
  shiftRight (BitVec.allOnes 64) count

section Codec

variable {T : IntType} {V : Type} [ValueCodec T V]

def fillLoop (nbits : Nat) (mask : Word) : (count : Nat) → Filling T V →
    Traced CountOp (Filling T V × Bool)
  | 0, f => pure (f, false)
  | count + 1, f =>
    match f.src with
    | [] => pure (f, true)
    | v :: src => do
      let (code, vcodec) := valueEncode f.vcodec v
      let value : Word := code.setWidth 64
      let shifted ← shiftLeft (value &&& mask) f.shift
      fillLoop nbits mask count ⟨f.word ||| shifted, f.shift + nbits, src, vcodec⟩

def blockEncode (src : List T.Original) (nbits : Nat) (vcodec : V) :
    Traced CountOp (Bytes × List T.Original × V) := do
  let c := capacity nbits
  let mask ← mask nbits
  let m := c / 2
  let n := c - m
  let low ← fillLoop nbits mask m ⟨0#64, 0, src, vcodec⟩
  match low with
  | (f, true) => pure (block f.word 0#64 f.src f.vcodec)
  | (f, false) =>
    if f.shift = 64 then do
      let high ← fillLoop nbits mask n ⟨0#64, 0, f.src, f.vcodec⟩
      pure (block f.word high.1.word high.1.src high.1.vcodec)
    else
      match f.src with
      | [] => pure (block f.word 0#64 [] f.vcodec)
      | x :: src => do
        let nbits1 ← minus 64 f.shift
        let nbits2 ← minus nbits nbits1
        let bit1 ← shiftLeft 1 nbits1
        let bit2 ← shiftLeft 1 nbits2
        let (code, vcodec) := valueEncode f.vcodec x
        let value : Word := code.setWidth 64
        let below ← shiftLeft (value &&& (bit1 - 1)) f.shift
        let above ← shiftRight value nbits1
        let high ← fillLoop nbits mask (n - 1) ⟨above &&& (bit2 - 1), nbits2, src, vcodec⟩
        pure (block (f.word ||| below) high.1.word high.1.src high.1.vcodec)

def unpackLoop (nbits : Nat) (mask : Word) (vcodec : V) : (count : Nat) → Word →
    Traced CountOp (List T.Original × Word)
  | 0, u => pure ([], u)
  | count + 1, u => do
    let v := valueDecode vcodec ((u &&& mask).setWidth T.nbits)
    let u ← shiftRight u nbits
    let rest ← unpackLoop nbits mask vcodec count u
    pure (v :: rest.1, rest.2)

/-- The value that lies across the words, and those behind it. -/
def unpackAcross (nbits mbits : Nat) (mask : Word) (vcodec : V) (n : Nat) (u v : Word) :
    Traced CountOp (List T.Original) := do
  let r ← minus 64 mbits
  let above ← shiftLeft v r
  let x := u ||| above
  let used ← minus nbits r
  let v ← shiftRight v used
  let rest ← unpackLoop nbits mask vcodec (n - 1) v
  pure (valueDecode vcodec ((x &&& mask).setWidth T.nbits) :: rest.1)

def blockDecodeUntil (k : Nat) (nbits : Nat) (vcodec : V) :
    TracedReader CountOp Failure Byte (List T.Original) := do
  let u ← plain loadWord
  let v ← plain loadWord
  traced do
    let mask ← mask nbits
    let c := capacity nbits
    let m := c / 2
    let mbits := m * nbits
    let (c, m) := if c > k then (k, if m > k then k else m) else (c, m)
    let n := c - m
    let us ← unpackLoop nbits mask vcodec m u
    if n ≠ 0 ∧ mbits ≠ 64 then do
      let vs ← unpackAcross nbits mbits mask vcodec n us.2 v
      pure (us.1 ++ vs)
    else do
      let vs ← unpackLoop nbits mask vcodec n v
      pure (us.1 ++ vs.1)

def blockDecode (nbits : Nat) (vcodec : V) :
    TracedReader CountOp Failure Byte (List T.Original) := do
  let u ← plain loadWord
  let v ← plain loadWord
  traced do
    let mask ← mask nbits
    let c := capacity nbits
    let m := c / 2
    let n := c - m
    let mbits := m * nbits
    let us ← unpackLoop nbits mask vcodec m u
    if mbits ≠ 64 then do
      let vs ← unpackAcross nbits mbits mask vcodec n us.2 v
      pure (us.1 ++ vs)
    else do
      let vs ← unpackLoop nbits mask vcodec n v
      pure (us.1 ++ vs.1)

def blockFetch (src : Bytes) (index nbits : Nat) (vcodec : V) :
    Fallible CountOp Failure T.Original := do
  let (u, src) ← silent (loadWord.run src)
  let (v, _) ← silent (loadWord.run src)
  let m := capacity nbits / 2
  let x ← succeeds
    (if index < m then shiftRight u (index * nbits)
    else do
      let mbits := m * nbits
      if mbits ≠ 64 ∧ index = m then do
        let below ← shiftRight u mbits
        let count ← minus 64 mbits
        let above ← shiftLeft v count
        pure (below ||| above)
      else do
        let count ← minus (index * nbits) 64
        shiftRight v count)
  let mask ← succeeds (mask nbits)
  pure (valueDecode vcodec ((x &&& mask).setWidth T.nbits))

/-- The values left are known without the notes, and they are fewer. -/
def encode (src : List T.Original) (nbits : Nat) (vcodec : V) : Traced CountOp (Bytes × V) :=
  match src with
  | [] => pure ([], vcodec)
  | v :: rest => do
    let first ← blockEncode (v :: rest) nbits vcodec
    let later ← encode (BitpckCodec.blockEncode (v :: rest) nbits vcodec).2.1 nbits first.2.2
    pure (first.1 ++ later.1, later.2)
termination_by src.length
decreasing_by exact BitpckCodec.blockEncode_src_lt v rest nbits vcodec

def decode (n nbits : Nat) (vcodec : V) : TracedReader CountOp Failure Byte (List T.Original) :=
  if _empty : capacity nbits = 0 then plain fun _ => .error .undefined
  else if _short : n < capacity nbits then
    if n > 0 then blockDecodeUntil n nbits vcodec else pure []
  else do
    let us ← blockDecode nbits vcodec
    let vs ← decode (n - capacity nbits) nbits vcodec
    pure (us ++ vs)
termination_by n

def fetch (src : Bytes) (index nbits : Nat) (vcodec : V) : Fallible CountOp Failure T.Original :=
  let c := capacity nbits
  blockFetch (src.drop (index / c * blockSize)) (index % c) nbits vcodec

@[simp] theorem value_mask (nbits : Nat) : value (mask nbits) = BitpckCodec.mask nbits := rfl

theorem value_fillLoop (nbits count : Nat) (f : Filling T V) :
    value (fillLoop nbits (BitpckCodec.mask nbits) count f) =
      BitpckCodec.fillLoop nbits count f := by
  induction count generalizing f with
  | zero => rfl
  | succ count ih =>
    rw [fillLoop, BitpckCodec.fillLoop]
    cases f.src with
    | nil => rfl
    | cons v src => exact ih _

theorem value_blockEncode (src : List T.Original) (nbits : Nat) (vcodec : V) :
    value (blockEncode src nbits vcodec) = BitpckCodec.blockEncode src nbits vcodec := by
  rw [blockEncode, BitpckCodec.blockEncode]
  simp only [value_bind, value_mask, value_fillLoop]
  rcases BitpckCodec.fillLoop nbits (capacity nbits / 2) ⟨0#64, 0, src, vcodec⟩ with ⟨f, done⟩
  cases done with
  | true => rfl
  | false =>
    simp only [value_ite]
    split
    · rw [value_bind, value_fillLoop]
      rfl
    · cases f.src with
      | nil => rfl
      | cons x src =>
        simp only [value_bind, value_fillLoop]
        rfl

theorem value_unpackLoop (nbits : Nat) (vcodec : V) (count : Nat) (u : Word) :
    value (unpackLoop nbits (BitpckCodec.mask nbits) vcodec count u) =
      BitpckCodec.unpackLoop nbits vcodec count u := by
  induction count generalizing u with
  | zero => rfl
  | succ count ih =>
    rw [unpackLoop, BitpckCodec.unpackLoop, ← ih]
    rfl

theorem value_unpackAcross (nbits mbits : Nat) (vcodec : V) (n : Nat) (u v : Word) :
    value (unpackAcross nbits mbits (BitpckCodec.mask nbits) vcodec n u v) =
      valueDecode vcodec (((u ||| v <<< (64 - mbits)) &&& BitpckCodec.mask nbits).setWidth
          T.nbits) ::
        (BitpckCodec.unpackLoop nbits vcodec (n - 1) (v >>> (nbits - (64 - mbits)))).1 := by
  rw [← value_unpackLoop]
  rfl

theorem reader_blockDecodeUntil (k nbits : Nat) (vcodec : V) :
    reader (blockDecodeUntil k nbits vcodec) = BitpckCodec.blockDecodeUntil k nbits vcodec := by
  rw [blockDecodeUntil, BitpckCodec.blockDecodeUntil]
  simp only [reader_bind, reader_plain, reader_traced, value_bind, value_mask, value_unpackLoop,
    value_ite, value_unpackAcross, value_pure]
  congr 1
  funext u
  congr 1
  funext v
  exact apply_ite pure _ _ _

theorem reader_blockDecode (nbits : Nat) (vcodec : V) :
    reader (blockDecode nbits vcodec) = BitpckCodec.blockDecode nbits vcodec := by
  rw [blockDecode, BitpckCodec.blockDecode]
  simp only [reader_bind, reader_plain, reader_traced, value_bind, value_mask, value_unpackLoop,
    value_ite, value_unpackAcross, value_pure]
  congr 1
  funext u
  congr 1
  funext v
  exact apply_ite pure _ _ _

theorem outcome_blockFetch (src : Bytes) (index nbits : Nat) (vcodec : V) :
    outcome (blockFetch src index nbits vcodec) =
      BitpckCodec.blockFetch src index nbits vcodec := by
  rw [blockFetch, BitpckCodec.blockFetch]
  simp only [outcome_bind, outcome_silent, outcome_succeeds, value_ite, value_bind]
  rfl

theorem value_encode (src : List T.Original) (nbits : Nat) (vcodec : V) :
    value (encode src nbits vcodec) = BitpckCodec.encode src nbits vcodec := by
  induction hn : src.length using Nat.strongRecOn generalizing src vcodec with
  | ind n ih =>
    subst hn
    cases src with
    | nil =>
      rw [encode, BitpckCodec.encode]
      rfl
    | cons v rest =>
      rw [encode, BitpckCodec.encode]
      split
      rename_i bytes left next taken
      have fewer := BitpckCodec.blockEncode_src_lt v rest nbits vcodec
      rw [taken] at fewer
      simp only [value_bind, value_blockEncode, taken, ih _ fewer left next rfl]
      rfl

theorem reader_decode (n nbits : Nat) (vcodec : V) :
    reader (decode n nbits vcodec) = BitpckCodec.decode n nbits vcodec := by
  induction n using Nat.strongRecOn with
  | ind n ih =>
    rw [decode, BitpckCodec.decode]
    split
    · rfl
    · split
      · split
        · exact reader_blockDecodeUntil n nbits vcodec
        · rfl
      · rw [reader_bind, reader_blockDecode]
        simp only [reader_bind, ih (n - capacity nbits) (by omega)]
        rfl

theorem outcome_fetch (src : Bytes) (index nbits : Nat) (vcodec : V) :
    outcome (fetch src index nbits vcodec) = BitpckCodec.fetch src index nbits vcodec :=
  outcome_blockFetch _ _ _ _

@[simp] theorem always_minus (a b : Nat) : Always CountOp.Defined (minus a b) ↔ b ≤ a := by
  rw [minus, always_bind, always_note]
  exact and_iff_left (always_pure _ _)

@[simp] theorem always_shiftLeft (u : Word) (count : Nat) :
    Always CountOp.Defined (shiftLeft u count) ↔ count < 64 := by
  rw [shiftLeft, always_bind, always_note]
  exact and_iff_left (always_pure _ _)

@[simp] theorem always_shiftRight (u : Word) (count : Nat) :
    Always CountOp.Defined (shiftRight u count) ↔ count < 64 := by
  rw [shiftRight, always_bind, always_note]
  exact and_iff_left (always_pure _ _)

@[simp] theorem value_minus (a b : Nat) : value (minus a b) = a - b := rfl

theorem mask_defined {nbits : Nat} (h1 : 1 ≤ nbits) (h64 : nbits ≤ 64) :
    Always CountOp.Defined (mask nbits) := by
  rw [mask, always_bind, always_minus, always_shiftRight, value_minus]
  omega

/-- A loop that keeps inside its word shifts by less than the word. -/
theorem fillLoop_defined {nbits : Nat} (h1 : 1 ≤ nbits) (mask : Word) {count : Nat}
    {f : Filling T V} (room : f.shift + nbits * count ≤ 64) :
    Always CountOp.Defined (fillLoop nbits mask count f) := by
  induction count generalizing f with
  | zero => exact always_pure _ _
  | succ count ih =>
    rw [fillLoop]
    cases f.src with
    | nil => exact always_pure _ _
    | cons v src =>
      rw [Nat.mul_succ] at room
      simp only [always_bind, always_shiftLeft]
      exact ⟨by omega, ih (by dsimp only; omega)⟩

/-- A loop of a decoder shifts by the width behind each value. -/
theorem unpackLoop_defined_iff (nbits : Nat) (mask : Word) (vcodec : V) (count : Nat)
    (u : Word) :
    Always CountOp.Defined (unpackLoop nbits mask vcodec count u) ↔ nbits < 64 ∨ count = 0 := by
  induction count generalizing u with
  | zero => exact iff_of_true (always_pure _ _) (Or.inr rfl)
  | succ count ih =>
    simp only [unpackLoop, always_bind, always_shiftRight, ih, always_pure, and_true]
    omega

theorem blockEncode_defined {nbits : Nat} (h1 : 1 ≤ nbits) (h64 : nbits ≤ 64)
    (src : List T.Original) (vcodec : V) :
    Always CountOp.Defined (blockEncode src nbits vcodec) := by
  obtain ⟨two_le, fits, low_fits, low_full⟩ := layout h1 h64
  have going := BitpckCodec.fillLoop_open nbits (capacity nbits / 2) ⟨0#64, 0, src, vcodec⟩
  have whole : nbits * (capacity nbits - capacity nbits / 2) =
      nbits * capacity nbits - nbits * (capacity nbits / 2) := Nat.mul_sub _ _ _
  rw [blockEncode, always_bind, always_bind, value_mask, value_fillLoop]
  refine ⟨mask_defined h1 h64, fillLoop_defined h1 _ (by dsimp only; omega), ?_⟩
  rcases first : BitpckCodec.fillLoop nbits (capacity nbits / 2) ⟨0#64, 0, src, vcodec⟩ with
    ⟨f, done⟩
  cases done with
  | true => exact always_pure _ _
  | false =>
    rw [first] at going
    have shift : f.shift = 0 + nbits * (capacity nbits / 2) := (going rfl).2
    refine always_ite ?_ ?_
    · intro aligned
      rw [always_bind]
      exact ⟨fillLoop_defined h1 _ (by dsimp only; omega), always_pure _ _⟩
    · intro straddling
      cases f.src with
      | nil => exact always_pure _ _
      | cons x src =>
        have one_less : nbits * (capacity nbits - capacity nbits / 2 - 1) =
            nbits * (capacity nbits - capacity nbits / 2) - nbits * 1 := Nat.mul_sub _ _ _
        have positive : nbits * 1 ≤ nbits * (capacity nbits / 2) :=
          Nat.mul_le_mul_left _ (by omega)
        simp only [always_bind, always_minus, always_shiftLeft, always_shiftRight, value_minus]
        exact ⟨by omega, by omega, by omega, by omega, by omega, by omega,
          fillLoop_defined h1 _ (by dsimp only; omega), always_pure _ _⟩

/-- Across the words, all counts are defined where the width is less than a word. -/
theorem unpackAcross_defined {nbits mbits : Nat} (narrow : nbits < 64) (some : 0 < mbits)
    (inside : mbits ≤ 64) (reaches : 64 ≤ mbits + nbits) (mask : Word) (vcodec : V) (n : Nat)
    (u v : Word) : Always CountOp.Defined (unpackAcross nbits mbits mask vcodec n u v) := by
  simp only [unpackAcross, always_bind, always_minus, always_shiftLeft, always_shiftRight,
    value_minus]
  exact ⟨inside, by omega, by omega, by omega,
    (unpackLoop_defined_iff _ _ _ _ _).mpr (Or.inl narrow), always_pure _ _⟩

/-- The bits of the first half are some, fit the word, and the next value reaches its end. -/
theorem half_bits {nbits : Nat} (h1 : 1 ≤ nbits) (h64 : nbits ≤ 64) :
    0 < capacity nbits / 2 * nbits ∧ capacity nbits / 2 * nbits ≤ 64 ∧
      64 ≤ capacity nbits / 2 * nbits + nbits := by
  obtain ⟨two_le, fits, low_fits, low_full⟩ := layout h1 h64
  have positive := Nat.mul_le_mul_left nbits (show 1 ≤ capacity nbits / 2 by omega)
  rw [Nat.mul_comm (capacity nbits / 2) nbits]
  omega

/-- What both decoders do behind the values of the first word. -/
theorem second_defined {nbits : Nat} (h1 : 1 ≤ nbits) (narrow : nbits < 64) (across : Prop)
    [Decidable across] (mask : Word) (vcodec : V) (n : Nat) (us : List T.Original) (u v : Word) :
    Always CountOp.Defined
      (if across then do
        let vs ← unpackAcross nbits (capacity nbits / 2 * nbits) mask vcodec n u v
        pure (us ++ vs)
      else do
        let vs ← unpackLoop nbits mask vcodec n v
        pure (us ++ vs.1)) := by
  obtain ⟨some, inside, reaches⟩ := half_bits h1 (Nat.le_of_lt narrow)
  refine always_ite ?_ ?_
  · intro _
    rw [always_bind]
    exact ⟨unpackAcross_defined narrow some inside reaches mask vcodec n u v, always_pure _ _⟩
  · intro _
    rw [always_bind, unpackLoop_defined_iff]
    exact ⟨Or.inl narrow, always_pure _ _⟩

/-- A decoder meets the counts of what it does with the two words, if it finds them. -/
theorem words_defined {α : Type} {f : Word → Word → Traced CountOp α}
    (defined : ∀ u v, Always CountOp.Defined (f u v)) :
    AlwaysReads CountOp.Defined (do
      let u ← plain loadWord
      let v ← plain loadWord
      traced (f u v) : TracedReader CountOp Failure Byte α) := by
  refine alwaysReads_bind (alwaysReads_plain _ _) fun u =>
    alwaysReads_bind (alwaysReads_plain _ _) fun v => ?_
  intro input
  exact (always_traced _ _ _).mpr (defined u v)

theorem blockDecode_defined {nbits : Nat} (h1 : 1 ≤ nbits) (narrow : nbits < 64) (vcodec : V) :
    AlwaysReads CountOp.Defined (blockDecode nbits vcodec) := by
  refine words_defined fun u v => ?_
  simp only [always_bind, unpackLoop_defined_iff]
  exact ⟨mask_defined h1 (Nat.le_of_lt narrow), Or.inl narrow,
    second_defined h1 narrow _ _ _ _ _ _ _⟩

theorem blockDecodeUntil_defined {nbits : Nat} (h1 : 1 ≤ nbits) (narrow : nbits < 64) (k : Nat)
    (vcodec : V) : AlwaysReads CountOp.Defined (blockDecodeUntil k nbits vcodec) := by
  refine words_defined fun u v => ?_
  simp only [always_bind, unpackLoop_defined_iff]
  exact ⟨mask_defined h1 (Nat.le_of_lt narrow), Or.inl narrow,
    second_defined h1 narrow _ _ _ _ _ _ _⟩

/-- The counts of a decoder that finds a whole block are those behind its loads. -/
theorem always_behind_words {α : Type} {P : CountOp → Prop} {bs : Bytes}
    (whole : blockSize ≤ bs.length) (f : Word → Word → Traced CountOp α) :
    ∃ u v : Word, Always P ((do
        let u ← plain loadWord
        let v ← plain loadWord
        traced (f u v) : TracedReader CountOp Failure Byte α).run bs).run ↔
      Always P (f u v) := by
  obtain ⟨first, rest, rfl, len⟩ := exists_front whole
  obtain ⟨lo, hi, -, -, -, us, vs, rfl, readLo, readHi⟩ := BitpckCodec.block_words first len
  refine ⟨BitVec.ofNat 64 lo, BitVec.ofNat 64 hi, ?_⟩
  rw [List.append_assoc, run_plain_bind readLo, run_plain_bind readHi, always_traced]

theorem blockDecode_defined_iff {nbits : Nat} (h1 : 1 ≤ nbits) (h64 : nbits ≤ 64) (vcodec : V)
    {bs : Bytes} (whole : blockSize ≤ bs.length) :
    Always CountOp.Defined ((blockDecode nbits vcodec).run bs).run ↔ nbits < 64 := by
  constructor
  · intro always
    have two_le := (layout h1 h64).two_le
    obtain ⟨u, v, counts⟩ := always_behind_words (P := CountOp.Defined) whole _
    rw [blockDecode, counts] at always
    simp only [always_bind, unpackLoop_defined_iff] at always
    omega
  · intro narrow
    exact blockDecode_defined h1 narrow vcodec bs

/-- The bounded decoder shifts by the width if there is a place to fill. -/
theorem blockDecodeUntil_defined_iff {nbits : Nat} (h1 : 1 ≤ nbits) (h64 : nbits ≤ 64) (k : Nat)
    (vcodec : V) {bs : Bytes} (whole : blockSize ≤ bs.length) :
    Always CountOp.Defined ((blockDecodeUntil k nbits vcodec).run bs).run ↔
      (k ≠ 0 → nbits < 64) := by
  have two_le := (layout h1 h64).two_le
  obtain ⟨u, v, counts⟩ := always_behind_words (P := CountOp.Defined) whole _
  constructor
  · intro always some
    rw [blockDecodeUntil, counts] at always
    simp only [always_bind, unpackLoop_defined_iff] at always
    rcases always.2.1 with narrow | none_first
    · exact narrow
    · split at none_first
      · split at none_first <;> dsimp only at none_first <;> omega
      · dsimp only at none_first
        omega
  · intro narrow
    by_cases none_left : k = 0
    · subst none_left
      have some : capacity nbits > 0 := by omega
      have half : capacity nbits / 2 > 0 := by omega
      rw [blockDecodeUntil, counts]
      simp only [some, half, if_true, always_bind, unpackLoop_defined_iff, Nat.sub_self, ne_eq,
        not_true_eq_false, false_and, if_false, or_true, always_pure, and_true]
      exact mask_defined h1 h64
    · exact blockDecodeUntil_defined h1 (narrow none_left) k vcodec bs

theorem blockFetch_defined {nbits : Nat} (h1 : 1 ≤ nbits) (h64 : nbits ≤ 64) (src : Bytes)
    {index : Nat} (inside : index < capacity nbits) (vcodec : V) :
    Always CountOp.Defined (blockFetch src index nbits vcodec).run := by
  obtain ⟨some, low_fits, reaches⟩ := half_bits h1 h64
  have fits := (layout h1 h64).fits
  have last : (index + 1) * nbits ≤ capacity nbits * nbits := Nat.mul_le_mul_right nbits inside
  rw [Nat.add_mul, Nat.one_mul, Nat.mul_comm (capacity nbits)] at last
  refine always_fallible_bind (always_silent _ _) fun first =>
    always_fallible_bind (always_silent _ _) fun second => ?_
  rw [always_succeeds_bind]
  constructor
  · refine always_ite ?_ ?_
    · intro low
      rw [always_shiftRight]
      have before : (index + 1) * nbits ≤ capacity nbits / 2 * nbits :=
        Nat.mul_le_mul_right nbits low
      rw [Nat.add_mul, Nat.one_mul] at before
      omega
    · intro high
      refine always_ite ?_ ?_
      · intro across
        simp only [always_bind, always_shiftRight, always_minus, always_shiftLeft, value_minus,
          always_pure, and_true]
        omega
      · intro behind
        rw [always_bind, always_minus, always_shiftRight, value_minus]
        have above : capacity nbits / 2 * nbits ≤ index * nbits :=
          Nat.mul_le_mul_right nbits (Nat.not_lt.mp high)
        by_cases next : index = capacity nbits / 2
        · omega
        · have later : (capacity nbits / 2 + 1) * nbits ≤ index * nbits :=
            Nat.mul_le_mul_right nbits (by omega)
          rw [Nat.add_mul, Nat.one_mul] at later
          omega
  · rw [always_succeeds_bind]
    exact ⟨mask_defined h1 h64, always_pure _ _⟩

theorem encode_defined {nbits : Nat} (h1 : 1 ≤ nbits) (h64 : nbits ≤ 64)
    (src : List T.Original) (vcodec : V) :
    Always CountOp.Defined (encode src nbits vcodec) := by
  induction hn : src.length using Nat.strongRecOn generalizing src vcodec with
  | ind n ih =>
    subst hn
    cases src with
    | nil =>
      rw [encode]
      exact always_pure _ _
    | cons v rest =>
      have fewer := BitpckCodec.blockEncode_src_lt v rest nbits vcodec
      simp only [encode, always_bind]
      exact ⟨blockEncode_defined h1 h64 _ vcodec, ih _ fewer _ _ rfl, always_pure _ _⟩

theorem decode_defined {nbits : Nat} (h1 : 1 ≤ nbits) (narrow : nbits < 64) (n : Nat)
    (vcodec : V) : AlwaysReads CountOp.Defined (decode n nbits vcodec) := by
  have two_le := (layout h1 (Nat.le_of_lt narrow)).two_le
  induction n using Nat.strongRecOn with
  | ind n ih =>
    rw [decode, dif_neg (by omega)]
    split
    · split
      · exact blockDecodeUntil_defined h1 narrow n vcodec
      · exact alwaysReads_plain _ (pure [])
    · refine alwaysReads_bind (blockDecode_defined h1 narrow vcodec) fun us =>
        alwaysReads_bind (ih _ (by omega)) fun vs => ?_
      exact alwaysReads_plain _ (pure (us ++ vs))

theorem decode_defined_iff {nbits : Nat} (h1 : 1 ≤ nbits) (h64 : nbits ≤ 64) (n : Nat)
    (vcodec : V) {bs : Bytes} (whole : blockSize ≤ bs.length) :
    Always CountOp.Defined ((decode n nbits vcodec).run bs).run ↔ (n ≠ 0 → nbits < 64) := by
  have two_le := (layout h1 h64).two_le
  constructor
  · intro always some
    rw [decode, dif_neg (by omega)] at always
    split at always
    · rw [if_pos (Nat.pos_of_ne_zero some)] at always
      exact (blockDecodeUntil_defined_iff h1 h64 n vcodec whole).mp always some
    · have first := always_of_fallible_bind always
      exact (blockDecode_defined_iff h1 h64 vcodec whole).mp first
  · intro narrow
    by_cases none_left : n = 0
    · subst none_left
      rw [decode, dif_neg (by omega), dif_pos (by omega), if_neg (Nat.lt_irrefl 0)]
      exact alwaysReads_plain _ (pure []) bs
    · exact decode_defined h1 (narrow none_left) n vcodec bs

theorem fetch_defined {nbits : Nat} (h1 : 1 ≤ nbits) (h64 : nbits ≤ 64) (src : Bytes)
    (index : Nat) (vcodec : V) : Always CountOp.Defined (fetch src index nbits vcodec).run := by
  have two_le := (layout h1 h64).two_le
  exact blockFetch_defined h1 h64 _ (Nat.mod_lt index (by omega)) vcodec

end Codec

/-- A call at the width `nbits`; an index passed to `block_fetch` lies inside the block. -/
inductive Call (T : IntType) (nbits : Nat) where
  | blockEncode (src : List T.Original)
  | blockDecodeUntil (count : Nat)
  | blockDecode
  | blockFetch (index : Fin (capacity nbits))
  | encode (src : List T.Original)
  | decode (count : Nat)
  | fetch (index : Nat)

namespace Call

variable {T : IntType} {V : Type} [ValueCodec T V] {nbits : Nat}

/-- Every shift in the call is defined and no count on the way to one wraps. -/
def ShiftsDefined (vcodec : V) (bytes : Bytes) : Call T nbits → Prop
  | blockEncode src => Always CountOp.Defined (BlockShifts.blockEncode src nbits vcodec)
  | blockDecodeUntil count =>
    Always CountOp.Defined ((BlockShifts.blockDecodeUntil count nbits vcodec).run bytes).run
  | blockDecode => Always CountOp.Defined ((BlockShifts.blockDecode nbits vcodec).run bytes).run
  | blockFetch index =>
    Always CountOp.Defined (BlockShifts.blockFetch bytes index nbits vcodec).run
  | encode src => Always CountOp.Defined (BlockShifts.encode src nbits vcodec)
  | decode count => Always CountOp.Defined ((BlockShifts.decode count nbits vcodec).run bytes).run
  | fetch index => Always CountOp.Defined (BlockShifts.fetch bytes index nbits vcodec).run

/-- The call is a decoder that has a place to fill. -/
def Unpacks : Call T nbits → Prop
  | blockDecode => True
  | blockDecodeUntil count | decode count => count ≠ 0
  | _ => False

end Call

variable {T : IntType} {V : Type} [ValueCodec T V]

/-- All shifts are defined, at every width, except where values of the width of a word are
unpacked. -/
theorem shifts_defined_iff {nbits : Nat} (h1 : 1 ≤ nbits) (h64 : nbits ≤ 64)
    (call : Call T nbits) (vcodec : V) {bytes : Bytes} (whole : blockSize ≤ bytes.length) :
    call.ShiftsDefined vcodec bytes ↔ (call.Unpacks → nbits < 64) := by
  cases call with
  | blockEncode src => exact iff_of_true (blockEncode_defined h1 h64 src vcodec) False.elim
  | blockDecodeUntil count => exact blockDecodeUntil_defined_iff h1 h64 count vcodec whole
  | blockDecode =>
    exact (blockDecode_defined_iff h1 h64 vcodec whole).trans ⟨fun h _ => h, fun h => h trivial⟩
  | blockFetch index =>
    exact iff_of_true (blockFetch_defined h1 h64 bytes index.isLt vcodec) False.elim
  | encode src => exact iff_of_true (encode_defined h1 h64 src vcodec) False.elim
  | decode count => exact decode_defined_iff h1 h64 count vcodec whole
  | fetch index => exact iff_of_true (fetch_defined h1 h64 bytes index vcodec) False.elim

theorem shifts_defined_int32 :
    (Call.blockDecode : Call int32 20).ShiftsDefined (ZigzagCodec.mk (T := int32))
      (List.replicate 16 0xa5) :=
  (shifts_defined_iff (by decide) (by decide) _ _ (by decide)).mpr fun _ => by decide

/-- A block of two values of 64 bits can be written, but unpacking it shifts by 64. -/
theorem unpacking_shifts_word :
    (Call.blockEncode [0, 0] : Call sizeT 64).ShiftsDefined (ZigzagCodec.mk (T := sizeT)) [] ∧
      ¬ (Call.blockDecode : Call sizeT 64).ShiftsDefined (ZigzagCodec.mk (T := sizeT))
        (List.replicate 16 0) ∧
      ¬ (Call.blockDecodeUntil 2 : Call sizeT 64).ShiftsDefined (ZigzagCodec.mk (T := sizeT))
        (List.replicate 16 0) := by
  refine ⟨?_, ?_, ?_⟩
  · exact blockEncode_defined (by decide) (by decide) [0, 0] (ZigzagCodec.mk (T := sizeT))
  · intro defined
    have narrow := (blockDecode_defined_iff (by decide) (by decide) (ZigzagCodec.mk (T := sizeT))
      (by decide)).mp defined
    exact absurd narrow (Nat.lt_irrefl 64)
  · intro defined
    have narrow := (blockDecodeUntil_defined_iff (by decide) (by decide) 2
      (ZigzagCodec.mk (T := sizeT)) (by decide)).mp defined
    exact absurd (narrow (by decide)) (Nat.lt_irrefl 64)

end BlockShifts

end Oroch
