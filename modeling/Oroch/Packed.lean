import Mathlib.Algebra.Order.Floor.Div
import Oroch.Bitpck

/-!
# Packed buffers

A buffer of blocks is read as a sequence of slots: element `i` is slot
`i % capacity` of block `i / capacity`. The two sequential decoders and random
access are three implementations of this one reading, on any content of the
buffer; the encoder writes a buffer whose elements are the codes of the values,
each reduced to the width of a slot.
-/

namespace Oroch

open Cursor

namespace BitpckCodec

/-- Element `i` of a buffer, as a number below `2 ^ nbits`. -/
def elementBits (nbits : Nat) (buffer : Bytes) (i : Nat) : Nat :=
  Slots.slot nbits
    (Slots.ofBytes ((buffer.drop (blockSize * (i / capacity nbits))).take blockSize))
    (i % capacity nbits)

section Readers

variable {T : IntType} {V : Type} [ValueCodec T V]

/-- The value in slot `i` of the row `b`. -/
def slotValue (nbits : Nat) (vcodec : V) (b i : Nat) : T.Original :=
  valueDecode vcodec (BitVec.ofNat T.nbits (Slots.slot nbits b i))

/-- The value of element `i` of a buffer. -/
def element (nbits : Nat) (vcodec : V) (buffer : Bytes) (i : Nat) : T.Original :=
  valueDecode vcodec (BitVec.ofNat T.nbits (elementBits nbits buffer i))

theorem masked_eq {nbits : Nat} (h64 : nbits ≤ 64) (x : Word) :
    (x &&& mask nbits).setWidth T.nbits = BitVec.ofNat T.nbits (x.toNat % 2 ^ nbits) := by
  apply BitVec.eq_of_toNat_eq
  rw [BitVec.toNat_setWidth, mask, Slots.toNat_and_mask x h64, BitVec.toNat_ofNat]

/-- A loop reads the slots of its word in order. -/
theorem unpackLoop_run {nbits : Nat} (h64 : nbits ≤ 64) (vcodec : V) (count : Nat) (u : Word) :
    unpackLoop nbits vcodec count u =
      ((List.range count).map (slotValue nbits vcodec u.toNat), u >>> (nbits * count)) := by
  induction count generalizing u with
  | zero => simp [unpackLoop]
  | succ count ih =>
    have shifted : (u >>> nbits).toNat = u.toNat / 2 ^ nbits := by
      rw [BitVec.toNat_ushiftRight, Nat.shiftRight_eq_div_pow]
    have head : valueDecode vcodec ((u &&& mask nbits).setWidth T.nbits) =
        slotValue nbits vcodec u.toNat 0 := by
      rw [masked_eq h64, slotValue]
      simp [Slots.slot]
    have tail : slotValue nbits vcodec (u.toNat / 2 ^ nbits) =
        fun i => slotValue nbits vcodec u.toNat (i + 1) := by
      funext i
      rw [slotValue, slotValue, Slots.slot_succ]
    have shifts : u >>> nbits >>> (nbits * count) = u >>> (nbits * (count + 1)) := by
      rw [← BitVec.shiftRight_add, Nat.mul_succ, Nat.add_comm]
    rw [unpackLoop, ih, head, shifted, tail, shifts, List.range_succ_eq_map, List.map_cons,
      List.map_map]
    rfl

/-- The values that lie in the first word. -/
theorem low_values {nbits m lo : Nat} (hi : Nat) (vcodec : V) (h : nbits * m ≤ 64) :
    (List.range m).map (slotValue nbits vcodec lo) =
      (List.range m).map (slotValue nbits vcodec (lo + 2 ^ 64 * hi)) := by
  apply List.map_congr_left
  intro i hi
  have inside : nbits * i + nbits ≤ 64 := by
    rw [← Nat.mul_succ]
    exact Nat.le_trans (Nat.mul_le_mul_left _ (List.mem_range.mp hi)) h
  rw [slotValue, slotValue, Slots.slot_low _ _ inside, Slots.slot]

/-- The values that lie in the second word, from slot `m` on, once the bits of the
slot across the boundary are shifted out. -/
theorem high_values (nbits m s n : Nat) {lo : Nat} (hi : Nat) (vcodec : V) (hlo : lo < 2 ^ 64)
    (h : nbits * m = 64 + s) :
    (List.range n).map (slotValue nbits vcodec (hi / 2 ^ s)) =
      (List.range n).map fun i => slotValue nbits vcodec (lo + 2 ^ 64 * hi) (m + i) := by
  apply List.map_congr_left
  intro i _
  have inside : nbits * (m + i) = 64 + (s + nbits * i) := by rw [Nat.mul_add]; omega
  rw [slotValue, slotValue, Slots.slot_high hi hlo (by omega), Slots.slot, inside,
    Nat.add_sub_cancel_left, Nat.div_div_eq_div_mul, ← pow_add]

/-- The two words at the start of sixteen bytes. -/
theorem block_words (bs : Bytes) (h : bs.length = blockSize) :
    ∃ lo hi, lo < 2 ^ 64 ∧ hi < 2 ^ 64 ∧ Slots.ofBytes bs = lo + 2 ^ 64 * hi ∧
      ∃ us vs, bs = us ++ vs ∧ Consumes loadWord us (BitVec.ofNat 64 lo) ∧
        Consumes loadWord vs (BitVec.ofNat 64 hi) := by
  obtain ⟨us, vs, rfl, len⟩ := exists_front (show 8 ≤ bs.length by rw [h, blockSize]; omega)
  have len' : vs.length = 8 := by
    rw [List.length_append, blockSize] at h
    omega
  refine ⟨Slots.ofBytes us, Slots.ofBytes vs, ?_, ?_, ?_, us, vs, rfl, ?_, ?_⟩
  · simpa [len] using Slots.ofBytes_lt us
  · simpa [len'] using Slots.ofBytes_lt vs
  · rw [Slots.ofBytes_append, len]
  · exact consumes_loadWord us len
  · exact consumes_loadWord vs len'

/-- The slot across the boundary is put together from the rest of the first word
and the second word. -/
theorem straddling_value {nbits m lo hi : Nat} (h64 : nbits ≤ 64) (vcodec : V)
    (hlo : lo < 2 ^ 64) (h : nbits * m < 64) :
    valueDecode vcodec ((((BitVec.ofNat 64 lo >>> (nbits * m) |||
        BitVec.ofNat 64 hi <<< (64 - nbits * m)) : Word) &&& mask nbits).setWidth T.nbits) =
      slotValue nbits vcodec (lo + 2 ^ 64 * hi) m := by
  have low : (BitVec.ofNat 64 lo >>> (nbits * m)).toNat = lo / 2 ^ (nbits * m) := by
    rw [BitVec.toNat_ushiftRight, Nat.shiftRight_eq_div_pow, BitVec.toNat_ofNat,
      Nat.mod_eq_of_lt hlo]
  have low_lt : lo / 2 ^ (nbits * m) < 2 ^ (64 - nbits * m) := by
    rw [Nat.div_lt_iff_lt_mul (Nat.two_pow_pos _), ← pow_add, Nat.sub_add_cancel (by omega)]
    exact hlo
  have divides : 2 ^ nbits ∣ 2 ^ 64 := Nat.pow_dvd_pow 2 h64
  rw [Slots.or_ofNat_shiftLeft _ _ hi (by rwa [low]), low, masked_eq h64, BitVec.toNat_ofNat,
    Nat.mod_mod_of_dvd _ divides, slotValue, Slots.slot_straddling _ _ (by omega)]

/-- What both block decoders compute from the two words: the first `m'` values of
the first word, then, once the first word is used up, `n` more. -/
theorem unpack_words {nbits : Nat} (h1 : 1 ≤ nbits) (h64 : nbits ≤ 64) {lo hi : Nat} (vcodec : V)
    (hlo : lo < 2 ^ 64) (hhi : hi < 2 ^ 64) (m' n : Nat) (hm : m' ≤ capacity nbits / 2)
    (hn : n ≠ 0 → m' = capacity nbits / 2) :
    (if n ≠ 0 ∧ capacity nbits / 2 * nbits ≠ 64 then
      (unpackLoop nbits vcodec m' (BitVec.ofNat 64 lo)).1 ++
        valueDecode vcodec
          ((((unpackLoop nbits vcodec m' (BitVec.ofNat 64 lo)).2 |||
            BitVec.ofNat 64 hi <<< (64 - capacity nbits / 2 * nbits)) &&&
              mask nbits).setWidth T.nbits) ::
          (unpackLoop nbits vcodec (n - 1)
            (BitVec.ofNat 64 hi >>> (nbits - (64 - capacity nbits / 2 * nbits)))).1
    else
      (unpackLoop nbits vcodec m' (BitVec.ofNat 64 lo)).1 ++
        (unpackLoop nbits vcodec n (BitVec.ofNat 64 hi)).1) =
    (List.range (m' + n)).map (slotValue nbits vcodec (lo + 2 ^ 64 * hi)) := by
  obtain ⟨two_le, fits, low_fits, low_full⟩ := layout h1 h64
  generalize capacity nbits / 2 = m at *
  have lo_toNat : (BitVec.ofNat 64 lo).toNat = lo := by
    rw [BitVec.toNat_ofNat, Nat.mod_eq_of_lt hlo]
  have hi_toNat : (BitVec.ofNat 64 hi).toNat = hi := by
    rw [BitVec.toNat_ofNat, Nat.mod_eq_of_lt hhi]
  have first : (unpackLoop nbits vcodec m' (BitVec.ofNat 64 lo)).1 =
      (List.range m').map (slotValue nbits vcodec (lo + 2 ^ 64 * hi)) := by
    rw [unpackLoop_run h64, lo_toNat]
    exact low_values hi vcodec (Nat.le_trans (Nat.mul_le_mul_left _ hm) low_fits)
  rw [Nat.mul_comm m nbits, first, List.range_add, List.map_append, List.map_map]
  by_cases none_left : n = 0
  · simp [none_left, unpackLoop]
  have whole : m' = m := hn none_left
  subst whole
  by_cases aligned : nbits * m' = 64
  · rw [if_neg (by simp [aligned]), unpackLoop_run h64, hi_toNat]
    have second := high_values nbits m' 0 n hi vcodec hlo (by omega)
    rw [Nat.pow_zero, Nat.div_one] at second
    rw [second]
    rfl
  · obtain ⟨k, rfl⟩ : ∃ k, n = k + 1 := ⟨n - 1, by omega⟩
    rw [if_pos ⟨none_left, aligned⟩, unpackLoop_run h64 vcodec m', unpackLoop_run h64,
      straddling_value h64 vcodec hlo (by omega), BitVec.toNat_ushiftRight, hi_toNat,
      Nat.shiftRight_eq_div_pow, Nat.add_sub_cancel]
    have second := high_values nbits (m' + 1) (nbits - (64 - nbits * m')) k hi vcodec hlo
      (by rw [Nat.mul_succ]; omega)
    rw [second, List.range_succ_eq_map, List.map_cons, List.map_map]
    congr 2
    apply List.map_congr_left
    intro i _
    simp [Nat.add_assoc, Nat.add_comm 1]

theorem blockDecodeUntil_run {nbits : Nat} (h1 : 1 ≤ nbits) (h64 : nbits ≤ 64) (k : Nat)
    (vcodec : V) (bs : Bytes) (h : bs.length = blockSize) :
    Consumes (blockDecodeUntil k nbits vcodec) bs
      ((List.range (min k (capacity nbits))).map
        (slotValue nbits vcodec (Slots.ofBytes bs))) := by
  obtain ⟨lo, hi, hlo, hhi, value, us, vs, rfl, readLo, readHi⟩ := block_words bs h
  intro rest
  rw [value, blockDecodeUntil, List.append_assoc, readLo.run_bind, readHi.run_bind]
  by_cases room : capacity nbits > k
  · have words := unpack_words h1 h64 vcodec hlo hhi (min (capacity nbits / 2) k)
      (k - min (capacity nbits / 2) k) (Nat.min_le_left _ _) (by omega)
    have shorter : (if capacity nbits / 2 > k then k else capacity nbits / 2) =
        min (capacity nbits / 2) k := by
      split <;> omega
    rw [Nat.add_sub_of_le (Nat.min_le_right _ _)] at words
    rw [Nat.min_eq_left (Nat.le_of_lt room), ← words]
    simp only [room, if_true, shorter]
    split <;> rfl
  · have words := unpack_words h1 h64 vcodec hlo hhi (capacity nbits / 2)
      (capacity nbits - capacity nbits / 2) (Nat.le_refl _) (fun _ => rfl)
    rw [Nat.add_sub_of_le (Nat.div_le_self _ _)] at words
    rw [Nat.min_eq_right (by omega), ← words]
    simp only [room, if_false]
    split <;> rfl

/-- Without a bound the decoder fills a whole block's worth of values. -/
theorem blockDecode_eq {nbits : Nat} (h1 : 1 ≤ nbits) (h64 : nbits ≤ 64) (vcodec : V) :
    blockDecode nbits vcodec = blockDecodeUntil (capacity nbits) nbits vcodec := by
  have two_le := (layout h1 h64).two_le
  have more : capacity nbits - capacity nbits / 2 ≠ 0 := by omega
  simp only [blockDecode, blockDecodeUntil, gt_iff_lt, Nat.lt_irrefl, if_false, more, ne_eq,
    not_false_eq_true, true_and]

theorem blockFetch_run {nbits : Nat} (h1 : 1 ≤ nbits) (h64 : nbits ≤ 64) {index : Nat}
    (h : index < capacity nbits) (vcodec : V) (bs rest : Bytes) (len : bs.length = blockSize) :
    blockFetch (bs ++ rest) index nbits vcodec =
      .ok (slotValue nbits vcodec (Slots.ofBytes bs) index) := by
  obtain ⟨two_le, fits, low_fits, low_full⟩ := layout h1 h64
  obtain ⟨lo, hi, hlo, hhi, value, us, vs, rfl, readLo, readHi⟩ := block_words bs len
  have lo_toNat : (BitVec.ofNat 64 lo).toNat = lo := by
    rw [BitVec.toNat_ofNat, Nat.mod_eq_of_lt hlo]
  have hi_toNat : (BitVec.ofNat 64 hi).toNat = hi := by
    rw [BitVec.toNat_ofNat, Nat.mod_eq_of_lt hhi]
  have index_le : nbits * index + nbits ≤ nbits * capacity nbits := by
    rw [← Nat.mul_succ]
    exact Nat.mul_le_mul_left _ h
  rw [value, blockFetch, List.append_assoc, readLo (vs ++ rest)]
  simp only [bind, Except.bind, readHi rest, Nat.mul_comm _ nbits]
  generalize hm : capacity nbits / 2 = m at *
  congr 1
  by_cases low : index < m
  · have inside : nbits * index + nbits ≤ 64 := by
      rw [← Nat.mul_succ]
      exact Nat.le_trans (Nat.mul_le_mul_left _ low) low_fits
    rw [if_pos low, masked_eq h64, BitVec.toNat_ushiftRight, lo_toNat,
      Nat.shiftRight_eq_div_pow, slotValue, Slots.slot_low _ _ inside]
  · by_cases across : nbits * m ≠ 64 ∧ index = m
    · rw [if_neg low, if_pos across, across.2,
        straddling_value h64 vcodec hlo (by have := across.1; omega)]
    · have beyond : 64 ≤ nbits * index := by
        rcases Nat.lt_or_ge m index with later | middle
        · have := Nat.mul_le_mul_left nbits later
          rw [Nat.mul_succ] at this
          omega
        · have same : index = m := by omega
          subst same
          by_contra short
          exact across ⟨by omega, rfl⟩
      rw [if_neg low, if_neg across, masked_eq h64, BitVec.toNat_ushiftRight, hi_toNat,
        Nat.shiftRight_eq_div_pow, slotValue, Slots.slot_high _ hlo beyond]

theorem space_zero {nbits : Nat} (h1 : 1 ≤ nbits) (h64 : nbits ≤ 64) : space 0 nbits = 0 := by
  have two_le := (layout h1 h64).two_le
  rw [space, blockNumber, Nat.div_eq_of_lt (by omega), Nat.mul_zero]

/-- The number of blocks is a division rounded up. -/
theorem blockNumber_le_iff {n nbits k : Nat} (pos : 0 < capacity nbits) :
    blockNumber n nbits ≤ k ↔ n ≤ capacity nbits * k := ceilDiv_le_iff_le_mul pos

/-- Wider slots take no less space. -/
theorem space_mono (n : Nat) {narrow wide : Nat} (h1 : 1 ≤ narrow) (h : narrow ≤ wide)
    (h64 : wide ≤ 64) : space n narrow ≤ space n wide := by
  have fewer : capacity wide ≤ capacity narrow := Nat.div_le_div_left h h1
  have two_le := (layout (Nat.le_trans h1 h) h64).two_le
  have room : n ≤ capacity wide * blockNumber n wide :=
    (blockNumber_le_iff (by omega)).mp (Nat.le_refl _)
  refine Nat.mul_le_mul_left _ ((blockNumber_le_iff (by omega)).mpr ?_)
  exact Nat.le_trans room (Nat.mul_le_mul_right _ fewer)

theorem blockSize_le_space {n nbits : Nat} (h1 : 1 ≤ nbits) (h64 : nbits ≤ 64) (some : 0 < n) :
    blockSize ≤ space n nbits := by
  have two_le := (layout h1 h64).two_le
  have blocks : ¬ blockNumber n nbits ≤ 0 := by
    rw [blockNumber_le_iff (by omega)]
    omega
  exact Nat.le_mul_of_pos_right blockSize (by omega)

/-- Slots of one bit take a block, or no more than a byte each. -/
theorem space_one_le (n : Nat) : space n 1 ≤ max blockSize n := by
  have blocks : blockNumber n 1 ≤ max 1 (n / 16) := by
    rw [blockNumber_le_iff (by decide)]
    change n ≤ 128 * max 1 (n / 16)
    omega
  change 16 * blockNumber n 1 ≤ max 16 n
  omega

theorem space_short {n nbits : Nat} (h : 0 < n) (short : n ≤ capacity nbits) :
    space n nbits = blockSize := by
  have one : (n + capacity nbits - 1) / capacity nbits = 1 :=
    Nat.div_eq_of_lt_le (by omega) (by omega)
  rw [space, blockNumber, one, Nat.mul_one]

theorem space_more {n nbits : Nat} (h1 : 1 ≤ nbits) (h64 : nbits ≤ 64)
    (more : capacity nbits ≤ n) :
    space n nbits = blockSize + space (n - capacity nbits) nbits := by
  have two_le := (layout h1 h64).two_le
  have step : n + capacity nbits - 1 =
      n - capacity nbits + capacity nbits - 1 + capacity nbits := by omega
  rw [space, space, blockNumber, blockNumber, step, Nat.add_div_right _ (by omega), Nat.mul_succ,
    Nat.add_comm]

theorem elementBits_first {nbits j : Nat} (bs rest : Bytes) (h : bs.length = blockSize)
    (hj : j < capacity nbits) :
    elementBits nbits (bs ++ rest) j = Slots.slot nbits (Slots.ofBytes bs) j := by
  rw [elementBits, Nat.div_eq_of_lt hj, Nat.mod_eq_of_lt hj, Nat.mul_zero, List.drop_zero, ← h,
    List.take_left]

theorem elementBits_later {nbits j : Nat} (bs rest : Bytes) (h : bs.length = blockSize)
    (hc : 0 < capacity nbits) :
    elementBits nbits (bs ++ rest) (capacity nbits + j) = elementBits nbits rest j := by
  rw [elementBits, elementBits, Nat.add_comm, Nat.add_div_right _ hc, Nat.add_mod_right,
    Nat.mul_succ, Nat.add_comm (blockSize * _), ← List.drop_drop, ← h, List.drop_left]

/-- The elements in the first block of a buffer. -/
theorem elements_first {nbits k : Nat} (vcodec : V) (bs rest : Bytes) (h : bs.length = blockSize)
    (hk : k ≤ capacity nbits) :
    (List.range k).map (element nbits vcodec (bs ++ rest)) =
      (List.range k).map (slotValue nbits vcodec (Slots.ofBytes bs)) := by
  apply List.map_congr_left
  intro i hi
  have inside : i < capacity nbits := Nat.lt_of_lt_of_le (List.mem_range.mp hi) hk
  rw [element, slotValue, elementBits_first bs rest h inside]

/-- The elements behind the first block. -/
theorem elements_later {nbits : Nat} (vcodec : V) (bs rest : Bytes) (h : bs.length = blockSize)
    (hc : 0 < capacity nbits) :
    element nbits vcodec (bs ++ rest) ∘ (capacity nbits + ·) = element nbits vcodec rest := by
  funext j
  rw [Function.comp_apply, element, element, elementBits_later bs rest h hc]

/-- The last block of a buffer, if it is not full, or the end. -/
theorem decode_last {nbits : Nat} (h1 : 1 ≤ nbits) (h64 : nbits ≤ 64) (vcodec : V) {n : Nat}
    (short : n < capacity nbits) (bs : Bytes) (h : bs.length = space n nbits) :
    Consumes (decode n nbits vcodec) bs ((List.range n).map (element nbits vcodec bs)) := by
  rw [decode, dif_neg (by omega), dif_pos short]
  by_cases some : 0 < n
  · have len : bs.length = blockSize := by rw [h, space_short some (by omega)]
    have read := blockDecodeUntil_run h1 h64 n vcodec bs len
    have same := elements_first vcodec bs [] len (Nat.le_of_lt short)
    rw [List.append_nil] at same
    rw [Nat.min_eq_left (by omega)] at read
    rwa [if_pos some, same]
  · obtain rfl : n = 0 := by omega
    rw [space_zero h1 h64] at h
    rw [if_neg some, List.eq_nil_of_length_eq_zero h]
    exact consumes_pure []

/-- Decoding reads the elements of the buffer in order, on any content. -/
theorem decode_run {nbits : Nat} (h1 : 1 ≤ nbits) (h64 : nbits ≤ 64) (vcodec : V) (n : Nat)
    (bs : Bytes) (h : bs.length = space n nbits) :
    Consumes (decode n nbits vcodec) bs ((List.range n).map (element nbits vcodec bs)) := by
  have two_le := (layout h1 h64).two_le
  induction n using Nat.strongRecOn generalizing bs with
  | ind n ih =>
    by_cases short : n < capacity nbits
    · exact decode_last h1 h64 vcodec short bs h
    · have total := space_more h1 h64 (Nat.le_of_not_lt short)
      obtain ⟨first, rest, rfl, len⟩ := exists_front (show blockSize ≤ bs.length by omega)
      rw [List.length_append] at h
      have readFirst := blockDecodeUntil_run h1 h64 (capacity nbits) vcodec first len
      have readRest := ih (n - capacity nbits) (by omega) rest (by omega)
      have elements : (List.range n).map (element nbits vcodec (first ++ rest)) =
          (List.range (capacity nbits)).map (slotValue nbits vcodec (Slots.ofBytes first)) ++
            (List.range (n - capacity nbits)).map (element nbits vcodec rest) := by
        conv_lhs => rw [← Nat.add_sub_of_le (Nat.le_of_not_lt short)]
        rw [List.range_add, List.map_append, List.map_map,
          elements_first vcodec first rest len (Nat.le_refl _),
          elements_later vcodec first rest len (by omega)]
      rw [← blockDecode_eq h1 h64, Nat.min_self] at readFirst
      rw [elements, decode, dif_neg (by omega), dif_neg short]
      exact readFirst.bind (readRest.map (_ ++ ·))

/-- The block of an element lies inside the space of the sequence. -/
theorem block_inside {nbits : Nat} (h1 : 1 ≤ nbits) (h64 : nbits ≤ 64) {n index : Nat}
    (hi : index < n) :
    blockSize * (index / capacity nbits) + blockSize ≤ space n nbits := by
  have two_le := (layout h1 h64).two_le
  have block : index / capacity nbits + 1 ≤ blockNumber n nbits := by
    rw [blockNumber, Nat.le_div_iff_mul_le (by omega)]
    have := Nat.div_mul_le_self index (capacity nbits)
    rw [Nat.add_mul, Nat.one_mul]
    omega
  rw [space, ← Nat.mul_succ]
  exact Nat.mul_le_mul_left _ block

/-- What follows the space of the sequence has no part in its elements. -/
theorem elementBits_take {nbits : Nat} (h1 : 1 ≤ nbits) (h64 : nbits ≤ 64) {n index : Nat}
    (bs : Bytes) (hi : index < n) :
    elementBits nbits (bs.take (space n nbits)) index = elementBits nbits bs index := by
  have inside := block_inside h1 h64 hi
  rw [elementBits, elementBits, List.drop_take, List.take_take, Nat.min_eq_left (by omega)]

/-- Random access reads one element. -/
theorem fetch_run {nbits : Nat} (h1 : 1 ≤ nbits) (h64 : nbits ≤ 64) (vcodec : V) {n index : Nat}
    (bs : Bytes) (h : space n nbits ≤ bs.length) (hi : index < n) :
    fetch bs index nbits vcodec = .ok (element nbits vcodec bs index) := by
  have two_le := (layout h1 h64).two_le
  have inside := block_inside h1 h64 hi
  have len : ((bs.drop (blockSize * (index / capacity nbits))).take blockSize).length =
      blockSize := by
    rw [List.length_take, List.length_drop]
    omega
  have read := blockFetch_run h1 h64 (Nat.mod_lt index (by omega)) vcodec _
    ((bs.drop (blockSize * (index / capacity nbits))).drop blockSize) len
  rw [List.take_append_drop] at read
  rw [fetch, Nat.mul_comm _ blockSize]
  exact read

end Readers

section Encoded

variable {T : IntType} {V : Type} [ValueCodec T V]

theorem encode_nil (nbits : Nat) (vcodec : V) : encode [] nbits vcodec = ([], vcodec) := by
  rw [encode]

/-- One step of the encoding loop on what `blockEncode` takes. -/
theorem encode_step {nbits : Nat} (h1 : 1 ≤ nbits) (h64 : nbits ≤ 64) (xs ys : List T.Original)
    (vcodec : V) (some : xs ≠ []) (hx : xs.length ≤ capacity nbits)
    (hy : xs.length < capacity nbits → ys = []) :
    encode (xs ++ ys) nbits vcodec =
      (Slots.bytes blockSize (Slots.pack nbits (digits vcodec xs)) ++
        (encode ys nbits (codes vcodec xs).2).1, (encode ys nbits (codes vcodec xs).2).2) := by
  obtain ⟨v, rest, rfl⟩ := List.exists_cons_of_ne_nil some
  have block := blockEncode_run h1 h64 (v :: rest) ys vcodec hx hy
  rw [List.cons_append] at block ⊢
  rw [encode]
  split
  rename_i bytes left next taken
  rw [block] at taken
  obtain ⟨rfl, rfl, rfl⟩ := Prod.mk.injEq .. ▸ taken
  rfl

/-- The elements of the block that holds `xs`. -/
theorem elementBits_pack {nbits : Nat} (h1 : 1 ≤ nbits) (h64 : nbits ≤ 64)
    {xs : List T.Original} (vcodec : V) (rest : Bytes) (hx : xs.length ≤ capacity nbits) {i : Nat}
    (hi : i < xs.length) :
    elementBits nbits (Slots.bytes blockSize (Slots.pack nbits (digits vcodec xs)) ++ rest) i =
      (digits vcodec xs)[i]?.getD 0 % 2 ^ nbits := by
  have room : nbits * xs.length ≤ 8 * blockSize :=
    Nat.le_trans (Nat.mul_le_mul_left _ hx) (layout h1 h64).fits
  rw [elementBits_first _ _ (Slots.length_bytes _ _) (by omega), Slots.ofBytes_bytes,
    Nat.mod_eq_of_lt (pack_digits_lt vcodec xs room), Slots.slot_pack]

/-- One block and the space of what follows. -/
theorem space_step {nbits k n : Nat} (h1 : 1 ≤ nbits) (h64 : nbits ≤ 64) (some : 0 < k)
    (hk : k ≤ capacity nbits) (hn : k < capacity nbits → n = 0) :
    space (k + n) nbits = blockSize + space n nbits := by
  rcases Nat.lt_or_ge k (capacity nbits) with short | full
  · rw [hn short, Nat.add_zero, space_short some hk, space_zero h1 h64, Nat.add_zero]
  · obtain rfl : k = capacity nbits := Nat.le_antisymm hk full
    rw [space_more h1 h64 (Nat.le_add_right _ n), Nat.add_sub_cancel_left]

/-- The encoder leaves the codec that the whole sequence leaves, fills exactly the
blocks that `space` counts, and element `i` is code `i` cut to the slot width. -/
theorem encode_run {nbits : Nat} (h1 : 1 ≤ nbits) (h64 : nbits ≤ 64) (vs : List T.Original)
    (vcodec : V) :
    (encode vs nbits vcodec).2 = (codes vcodec vs).2 ∧
      (encode vs nbits vcodec).1.length = space vs.length nbits ∧
      ∀ i, i < vs.length → elementBits nbits (encode vs nbits vcodec).1 i =
        (digits vcodec vs)[i]?.getD 0 % 2 ^ nbits := by
  have two_le := (layout h1 h64).two_le
  induction hn : vs.length using Nat.strongRecOn generalizing vs vcodec with
  | ind n ih =>
    subst hn
    by_cases none_left : vs = []
    · subst none_left
      rw [encode_nil]
      exact ⟨rfl, (space_zero h1 h64).symm, fun i hi => absurd hi (Nat.not_lt_zero i)⟩
    have positive : 0 < vs.length := List.length_pos_iff.mpr none_left
    obtain ⟨xs, ys, rfl, taken⟩ : ∃ xs ys, vs = xs ++ ys ∧
        xs.length = min (capacity nbits) vs.length :=
      ⟨vs.take (capacity nbits), vs.drop (capacity nbits), (List.take_append_drop _ _).symm,
        List.length_take⟩
    rw [List.length_append] at taken positive ih
    have fits : xs.length ≤ capacity nbits := by omega
    have all : xs.length < capacity nbits → ys = [] :=
      fun h => List.eq_nil_of_length_eq_zero (by omega)
    have some : xs ≠ [] := List.ne_nil_of_length_pos (by omega)
    have lenBlock := Slots.length_bytes blockSize (Slots.pack nbits (digits vcodec xs))
    obtain ⟨state, len, elements⟩ := ih ys.length (by omega) ys (codes vcodec xs).2 rfl
    rw [encode_step h1 h64 xs ys vcodec some fits all, codes_append, digits_append]
    refine ⟨state, ?_, ?_⟩
    · rw [List.length_append, List.length_append, lenBlock, len,
        space_step h1 h64 (by omega) fits (by omega)]
    · intro i hi
      rw [List.length_append] at hi
      by_cases inside : i < xs.length
      · rw [elementBits_pack h1 h64 vcodec _ fits inside,
          List.getElem?_append_left (by rwa [length_digits])]
      · have full : xs.length = capacity nbits := by omega
        obtain ⟨j, rfl⟩ : ∃ j, i = capacity nbits + j := ⟨i - capacity nbits, by omega⟩
        rw [elementBits_later _ _ lenBlock (by omega), elements j (by omega),
          List.getElem?_append_right (by rw [length_digits]; omega), length_digits, full,
          Nat.add_sub_cancel_left]

/-- A code cut to the slot width. -/
def lowBits (nbits : Nat) (u : T.Unsigned) : T.Unsigned :=
  BitVec.ofNat T.nbits (u.toNat % 2 ^ nbits)

theorem lowBits_of_lt {nbits : Nat} {u : T.Unsigned} (h : u.toNat < 2 ^ nbits) :
    lowBits nbits u = u := by
  rw [lowBits, Nat.mod_eq_of_lt h, BitVec.ofNat_toNat, BitVec.setWidth_eq]

/-- Decoding an encoded sequence, possibly with another codec of the same kind,
decodes each code cut to the slot width. -/
theorem consumes_encode {nbits : Nat} (h1 : 1 ≤ nbits) (h64 : nbits ≤ 64) (vs : List T.Original)
    (vcodec reader : V) :
    Consumes (decode vs.length nbits reader) (encode vs nbits vcodec).1
      ((codes vcodec vs).1.map fun u => valueDecode reader (lowBits nbits u)) := by
  obtain ⟨-, len, elements⟩ := encode_run h1 h64 vs vcodec
  have read := decode_run h1 h64 reader vs.length _ len
  have same : (List.range vs.length).map (element nbits reader (encode vs nbits vcodec).1) =
      (codes vcodec vs).1.map fun u => valueDecode reader (lowBits nbits u) := by
    apply List.ext_getElem (by simp)
    intro i hi hi'
    rw [List.length_map, List.length_range] at hi
    rw [List.getElem_map, List.getElem_map, List.getElem_range, element, elements i hi, digits,
      lowBits]
    simp [hi]
  rwa [same] at read

end Encoded

section Slotwise

variable {T : IntType} {V : Type} [ValueCodec T V] [StatelessCodec T V]

theorem consumes_encode_stateless {nbits : Nat} (h1 : 1 ≤ nbits) (h64 : nbits ≤ 64) (vcodec : V)
    (s : List T.Original) :
    Consumes (decode s.length nbits vcodec) (encode s nbits vcodec).1
      (s.map fun v => valueDecode vcodec (lowBits nbits (code vcodec v))) := by
  have read := consumes_encode h1 h64 s vcodec vcodec
  rwa [codes_stateless, List.map_map] at read

/-- Values whose codes fit the width are read back. -/
theorem consumes_encode_of_fits {nbits : Nat} (h1 : 1 ≤ nbits) (h64 : nbits ≤ 64) (vcodec : V)
    (s : List T.Original) (fits : ∀ v ∈ s, (code vcodec v).toNat < 2 ^ nbits) :
    Consumes (decode s.length nbits vcodec) (encode s nbits vcodec).1 s := by
  have read := consumes_encode_stateless h1 h64 vcodec s
  have same : (s.map fun v => valueDecode vcodec (lowBits nbits (code vcodec v))) = s := by
    conv_rhs => rw [← List.map_id' s]
    apply List.map_congr_left
    intro v hv
    rw [lowBits_of_lt (fits v hv), decode_code]
  rwa [same] at read

/-- Packing is slotwise: the buffer has the predicted size, reading it back cuts
each code to the width and touches no other one, so the values that fit survive
whatever their neighbours are. -/
theorem slots_independent {nbits : Nat} (h1 : 1 ≤ nbits) (h64 : nbits ≤ 64) (vcodec : V)
    (s : List T.Original) :
    (encode s nbits vcodec).1.length = space s.length nbits ∧
      (∀ rest, (decode s.length nbits vcodec).run ((encode s nbits vcodec).1 ++ rest) =
        .ok (s.map fun v => valueDecode vcodec (lowBits nbits (code vcodec v)), rest)) ∧
      ((∀ v ∈ s, (code vcodec v).toNat < 2 ^ nbits) →
        ∀ rest, (decode s.length nbits vcodec).run ((encode s nbits vcodec).1 ++ rest) =
          .ok (s, rest)) ∧
      ∀ (i : Nat) (x : T.Original), ∃ vs,
        (∀ rest, (decode s.length nbits vcodec).run ((encode (s.set i x) nbits vcodec).1 ++ rest) =
          .ok (vs, rest)) ∧
        ∀ j v, j ≠ i → s[j]? = some v → (code vcodec v).toNat < 2 ^ nbits →
          vs[j]? = some v := by
  refine ⟨(encode_run h1 h64 s vcodec).2.1, consumes_encode_stateless h1 h64 vcodec s,
    fun fits => consumes_encode_of_fits h1 h64 vcodec s fits, ?_⟩
  intro i x
  have read := consumes_encode_stateless h1 h64 vcodec (s.set i x)
  rw [List.length_set] at read
  refine ⟨_, read, ?_⟩
  intro j v other at_j fits
  rw [List.getElem?_map, List.getElem?_set_ne (Ne.symm other), at_j, Option.map_some,
    lowBits_of_lt fits, decode_code]

/-- At width 20 the fourth slot lies across the words. -/
theorem slots_independent_int32 :
    (∀ rest, (decode (T := int32) 5 20 ZigzagCodec.mk).run
      ((encode (T := int32) [-1, 7, 1000, -70000, 12] 20 ZigzagCodec.mk).1 ++ rest) =
        .ok ([-1, 7, 1000, -70000, 12], rest)) ∧
    (encode (T := int32) [-1, 7, 1000, -70000, 12] 20 ZigzagCodec.mk).1.length = 16 := by
  obtain ⟨len, -, fits, -⟩ := slots_independent (T := int32) (by decide : 1 ≤ 20)
    (by decide : 20 ≤ 64) ZigzagCodec.mk [-1, 7, 1000, -70000, 12]
  refine ⟨fits ?_, len⟩
  simp only [List.forall_mem_cons]
  exact ⟨by decide, by decide, by decide, by decide, by decide, by simp⟩

end Slotwise

end BitpckCodec

end Oroch
