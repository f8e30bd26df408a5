import Oroch.Packed

/-!
# Patched bit-packing with a frame of reference

The differences from the origin are packed with a width that need not hold all
of them. The value code notes each difference that does not fit, the gap to the
one before it and its high part, in lists that the packer's copy of the code
shares with the caller. The decoder puts the high parts back after unpacking.
-/

namespace Oroch

open Cursor

namespace BitpfrCodec

/-- `exceptions` -/
structure Exceptions (T : IntType) where
  indices : List sizeT.Original
  values : List T.Unsigned
  index : sizeT.Original
  deriving Repr

/-- A new object. -/
def Exceptions.fresh (T : IntType) : Exceptions T := ⟨[], [], 0⟩

/-- `parameters`; the reference to the exceptions is their current content. -/
structure Parameters (T : IntType) extends OriginCodec T where
  indexCodec : OffsetCodec sizeT 1
  nbits : Nat
  mask : T.Unsigned
  excpts : Exceptions T
  deriving Repr

variable {T : IntType}

/-- The constructor. -/
def Parameters.init (f : T.Original) (n : Nat) (x : Exceptions T) : Parameters T where
  origin := f
  indexCodec := OffsetCodec.init false 0
  nbits := n
  mask := (((1 : Word) <<< n) - 1).setWidth T.nbits
  excpts := x

def basicValueEncode (params : Parameters T) (v : T.Original) : T.Unsigned :=
  params.toOriginCodec.encode v

def valueEncode (params : Parameters T) (v : T.Original) : T.Unsigned × Parameters T :=
  let u := basicValueEncode params v
  let x := params.excpts
  if u &&& ~~~params.mask ≠ 0 then
    let (idx, indexCodec) := params.indexCodec.valueEncode x.index
    (u, { params with
      indexCodec := indexCodec
      excpts := ⟨x.indices ++ [idx], x.values ++ [u >>> params.nbits], x.index + 1⟩ })
  else
    (u, { params with excpts := { x with index := x.index + 1 } })

instance (T : IntType) : ValueCodec T (Parameters T) where
  valueEncode := valueEncode
  valueDecode params u := params.toOriginCodec.decode u

/-- The packer works on its own copy of the parameters; what it leaves to the caller
are the exceptions. -/
def encode (src : List T.Original) (params : Parameters T) : Bytes × Exceptions T :=
  let (bytes, last) := BitpckCodec.encode src params.nbits params
  (bytes, last.excpts)

/-- Decode into `n` slots. -/
def decodeBasic (n : Nat) (params : Parameters T) : ByteReader (List T.Original) :=
  BitpckCodec.decode n params.nbits params

/-- The loop of `decode_patch` over the remaining exceptions. -/
def patchLoop (params : Parameters T) : OffsetCodec sizeT 1 → List T.Original →
    (indices : List sizeT.Original) → (values : List T.Unsigned) → Outcome (List T.Original)
  | _, dst, [], _ => .ok dst
  | _, _, _ :: _, [] => .error .undefined
  | indexCodec, dst, index :: indices, high :: values =>
    let (idx, indexCodec) := indexCodec.valueDecode index
    match dst[idx.toNat]? with
    | none => .error .undefined
    | some v =>
      let value := basicValueEncode params v ||| high <<< params.nbits
      patchLoop params indexCodec (dst.set idx.toNat (params.toOriginCodec.decode value))
        indices values

def decodePatch (dst : List T.Original) (params : Parameters T) : Outcome (List T.Original) :=
  patchLoop params (OffsetCodec.init false 0) dst params.excpts.indices params.excpts.values

/-- Decode into `n` slots. -/
def decode (n : Nat) (params : Parameters T) : ByteReader (List T.Original) := do
  let dst ← decodeBasic n params
  decodePatch dst params

/-- A value whose difference from the origin needs more than `nbits` bits. -/
def outlier (nbits : Nat) (origin v : T.Original) : Bool :=
  decide (2 ^ nbits ≤ (v - origin : T.Unsigned).toNat)

/-- The part of the difference that is packed, as a value. -/
def low (nbits : Nat) (origin v : T.Original) : T.Original :=
  BitpckCodec.lowBits nbits (v - origin) + origin

/-- The part of the difference that is kept aside. -/
def high (nbits : Nat) (origin v : T.Original) : T.Unsigned := (v - origin) >>> nbits

/-- The positions of the outliers, the first value standing at position `k`. -/
def positions (nbits : Nat) (origin : T.Original) (k : Nat) (s : List T.Original) : List Nat :=
  s.findIdxs (outlier nbits origin) k

def highs (nbits : Nat) (origin : T.Original) (s : List T.Original) : List T.Unsigned :=
  (s.filter (outlier nbits origin)).map (high nbits origin)

/-- The test of `value_encode`. -/
theorem masked_ne_zero_iff {n : Nat} (h : n ≤ 63) (f v : T.Original) (x : Exceptions T) :
    (v - f : T.Unsigned) &&& ~~~(Parameters.init f n x).mask ≠ 0 ↔ outlier n f v = true := by
  have mask : (Parameters.init f n x).mask.toNat = (2 ^ n - 1) % 2 ^ T.nbits := by
    rw [Parameters.init, BitVec.toNat_setWidth, BitpckCodec.ones_eq_mask (by omega),
      Slots.toNat_mask (by omega)]
  rw [outlier, decide_eq_true_iff, ne_eq, Slots.and_not_low_iff _ _ mask, Nat.not_lt]

/-- The parameters in the course of encoding: only the exceptions and the index
codec change. -/
def during (f : T.Original) (n : Nat) (x : Exceptions T) (c : OffsetCodec sizeT 1) : Parameters T :=
  { Parameters.init f n x with indexCodec := c }

theorem valueEncode_outlier {n : Nat} (h : n ≤ 63) (f v : T.Original) (x : Exceptions T)
    (c : OffsetCodec sizeT 1) (out : outlier n f v = true) :
    ValueCodec.valueEncode (during f n x c) v =
      (v - f, during f n
        ⟨x.indices ++ [(c.valueEncode x.index).1], x.values ++ [high n f v], x.index + 1⟩
        (c.valueEncode x.index).2) :=
  if_pos ((masked_ne_zero_iff h f v x).mpr out)

theorem valueEncode_regular {n : Nat} (h : n ≤ 63) (f v : T.Original) (x : Exceptions T)
    (c : OffsetCodec sizeT 1) (regular : ¬ outlier n f v = true) :
    ValueCodec.valueEncode (during f n x c) v =
      (v - f, during f n { x with index := x.index + 1 } c) :=
  if_neg ((masked_ne_zero_iff h f v x).not.mpr regular)

/-- Over a sequence, from position `k` on. -/
theorem codes_during {n : Nat} (h : n ≤ 63) (f : T.Original) (s : List T.Original) (k : Nat)
    (is : List sizeT.Original) (hs : List T.Unsigned) (c : OffsetCodec sizeT 1) :
    ∃ c', codes (during f n ⟨is, hs, toSize k⟩ c) s =
      (s.map (fun v => v - f),
        during f n ⟨is ++ OffsetCodec.codes c ((positions n f k s).map toSize),
          hs ++ highs n f s, toSize (k + s.length)⟩ c') := by
  induction s generalizing k is hs c with
  | nil => exact ⟨c, by simp [codes, positions, highs, OffsetCodec.codes]⟩
  | cons v s ih =>
    have next : toSize k + 1 = toSize (k + 1) := (BitVec.ofNat_add k 1).symm
    have length : k + 1 + s.length = k + (v :: s).length := by rw [List.length_cons]; omega
    by_cases out : outlier n f v = true
    · obtain ⟨c', rest⟩ := ih (k + 1) (is ++ [(c.valueEncode (toSize k)).1])
        (hs ++ [high n f v]) (c.valueEncode (toSize k)).2
      refine ⟨c', ?_⟩
      simp only [codes, valueEncode_outlier h f v _ c out, next, rest, length, positions, highs,
        List.findIdxs_cons, List.filter_cons, out, if_true, List.map_cons, OffsetCodec.codes,
        List.append_assoc, List.singleton_append]
    · obtain ⟨c', rest⟩ := ih (k + 1) is hs c
      refine ⟨c', ?_⟩
      simp only [codes, valueEncode_regular h f v _ c out, next, rest, length, positions, highs,
        List.findIdxs_cons, List.filter_cons, out, List.map_cons]
      rfl

theorem low_of_regular {n : Nat} {f v : T.Original} (regular : ¬ outlier n f v = true) :
    low n f v = v := by
  rw [outlier, decide_eq_true_iff, Nat.not_le] at regular
  rw [low, BitpckCodec.lowBits_of_lt regular]
  exact BitVec.sub_add_cancel v f

/-- The two parts of a difference make it up. -/
theorem patch_low (n : Nat) (f v : T.Original) (x : Exceptions T) :
    (Parameters.init f n x).toOriginCodec.decode
      (basicValueEncode (Parameters.init f n x) (low n f v) |||
        high n f v <<< (Parameters.init f n x).nbits) = v := by
  have whole (u : T.Unsigned) : BitpckCodec.lowBits n u ||| u >>> n <<< n = u := by
    have low_toNat : (BitpckCodec.lowBits n u).toNat = u.toNat % 2 ^ n := by
      rw [BitpckCodec.lowBits, BitVec.toNat_ofNat]
      exact Nat.mod_eq_of_lt (Nat.lt_of_le_of_lt (Nat.mod_le _ _) u.isLt)
    have above : u >>> n = BitVec.ofNat T.nbits (u.toNat / 2 ^ n) := by
      apply BitVec.eq_of_toNat_eq
      rw [BitVec.toNat_ushiftRight, Nat.shiftRight_eq_div_pow, BitVec.toNat_ofNat]
      exact (Nat.mod_eq_of_lt (Nat.lt_of_le_of_lt (Nat.div_le_self _ _) u.isLt)).symm
    have joined := Slots.or_ofNat_shiftLeft (BitpckCodec.lowBits n u) n (u.toNat / 2 ^ n)
      (by rw [low_toNat]; exact Nat.mod_lt _ (Nat.two_pow_pos n))
    rw [above, joined, low_toNat, Nat.mod_add_div, BitVec.ofNat_toNat, BitVec.setWidth_eq]
  change (low n f v - f ||| high n f v <<< n) + f = v
  rw [low, BitVec.add_sub_cancel, high, whole]
  exact BitVec.sub_add_cancel v f

/-- The values before position `pre.length` are restored already. -/
theorem patchLoop_run {n : Nat} (f : T.Original) (x : Exceptions T) (pre s : List T.Original)
    (c : OffsetCodec sizeT 1) (room : pre.length + s.length ≤ 2 ^ 64) :
    patchLoop (Parameters.init f n x) c (pre ++ s.map (low n f))
      (OffsetCodec.codes c ((positions n f pre.length s).map toSize)) (highs n f s) =
        .ok (pre ++ s) := by
  induction s generalizing pre c with
  | nil => simp [positions, highs, OffsetCodec.codes, patchLoop]
  | cons v s ih =>
    rw [List.length_cons] at room
    have rest (c : OffsetCodec sizeT 1) := ih (pre ++ [v]) c (by simp; omega)
    rw [List.length_append, List.length_singleton] at rest
    simp only [List.append_assoc, List.singleton_append] at rest
    by_cases out : outlier n f v = true
    · have here : positions n f pre.length (v :: s) =
          pre.length :: positions n f (pre.length + 1) s := by
        simp [positions, out]
      have aside : highs n f (v :: s) = high n f v :: highs n f s := by
        simp [highs, out]
      have at_pre : (pre ++ low n f v :: s.map (low n f))[pre.length]? = some (low n f v) := by
        simp
      have written : (pre ++ low n f v :: s.map (low n f)).set pre.length v =
          pre ++ v :: s.map (low n f) := by
        simp
      rw [here, aside, List.map_cons, List.map_cons, OffsetCodec.codes, patchLoop,
        OffsetCodec.decode_step]
      simp only [toNat_toSize (show pre.length < 2 ^ 64 by omega), at_pre, patch_low, written, rest]
    · have here : positions n f pre.length (v :: s) = positions n f (pre.length + 1) s := by
        simp [positions, out]
      have aside : highs n f (v :: s) = highs n f s := by
        simp [highs, out]
      rw [here, aside, List.map_cons, low_of_regular out, rest]

/-- The exceptions of a sequence. -/
def outliers (n : Nat) (f : T.Original) (s : List T.Original) : Exceptions T :=
  ⟨(gaps 0 (positions n f 0 s)).map toSize, highs n f s, toSize s.length⟩

theorem codes_positions (n : Nat) (f : T.Original) (s : List T.Original) :
    (OffsetCodec.init false 0 : OffsetCodec sizeT 1).codes ((positions n f 0 s).map toSize) =
      (gaps 0 (positions n f 0 s)).map toSize :=
  OffsetCodec.codes_positions 0 _ (fun _ _ => Nat.zero_le _) List.pairwise_findIdxs

theorem codes_fresh {n : Nat} (h : n ≤ 63) (f : T.Original) (s : List T.Original) :
    (codes (Parameters.init f n (Exceptions.fresh T)) s).1 = s.map (fun v => v - f) ∧
      (codes (Parameters.init f n (Exceptions.fresh T)) s).2.excpts = outliers n f s := by
  obtain ⟨c, run⟩ := codes_during h f s 0 [] [] (OffsetCodec.init false 0)
  rw [codes_positions, List.nil_append, List.nil_append, Nat.zero_add] at run
  change codes (Parameters.init f n (Exceptions.fresh T)) s = _ at run
  rw [run]
  exact ⟨rfl, rfl⟩

/-- The encoder writes full blocks and leaves the outliers; unpacking the blocks, with
any exceptions at hand, yields the low parts. -/
theorem encode_run {n : Nat} (h1 : 1 ≤ n) (h63 : n ≤ 63) (f : T.Original) (s : List T.Original) :
    ∃ bytes, encode s (Parameters.init f n (Exceptions.fresh T)) = (bytes, outliers n f s) ∧
      bytes.length = BitpckCodec.space s.length n ∧
      ∀ x, Consumes (decodeBasic s.length (Parameters.init f n x)) bytes (s.map (low n f)) := by
  obtain ⟨last, len, -⟩ := BitpckCodec.encode_run h1 (by omega : n ≤ 64) s
    (Parameters.init f n (Exceptions.fresh T))
  obtain ⟨differences, left⟩ := codes_fresh h63 f s
  refine ⟨(BitpckCodec.encode s n (Parameters.init f n (Exceptions.fresh T))).1, ?_, len, ?_⟩
  · rw [← left, ← last]
    rfl
  · intro x
    have read := BitpckCodec.consumes_encode h1 (by omega : n ≤ 64) s
      (Parameters.init f n (Exceptions.fresh T)) (Parameters.init f n x)
    rw [differences, List.map_map] at read
    exact read

/-- Patching puts the outliers back; the counter of the exceptions has no part in it. -/
theorem decodePatch_run (n : Nat) (f : T.Original) (s : List T.Original)
    (index : sizeT.Original) (room : s.length ≤ 2 ^ 64) :
    decodePatch (s.map (low n f)) (Parameters.init f n { outliers n f s with index := index }) =
      .ok s := by
  have patched := patchLoop_run (n := n) f { outliers n f s with index := index } [] s
    (OffsetCodec.init false 0) (by simpa using room)
  rw [List.nil_append, List.nil_append, List.length_nil, codes_positions] at patched
  exact patched

theorem length_highs (n : Nat) (f : T.Original) (s : List T.Original) :
    (highs n f s).length = (positions n f 0 s).length := by
  simp [highs, positions, List.countP_eq_length_filter]

theorem mem_positions_iff (n : Nat) (f : T.Original) (s : List T.Original) (i : Nat) :
    i ∈ positions n f 0 s ↔ ∃ v, s[i]? = some v ∧ 2 ^ n ≤ (v - f : T.Unsigned).toNat := by
  simp only [positions, List.mem_findIdxs_iff_exists_getElem_pos, outlier, decide_eq_true_iff]
  constructor
  · rintro ⟨inside, out⟩
    exact ⟨s[i], List.getElem?_eq_getElem inside, out⟩
  · rintro ⟨v, at_i, out⟩
    obtain ⟨inside, rfl⟩ := List.getElem?_eq_some_iff.mp at_i
    exact ⟨inside, out⟩

/-- The high parts stand in the order of the positions. -/
theorem highs_eq (n : Nat) (f : T.Original) (s : List T.Original) :
    (highs n f s).map some = (positions n f 0 s).map fun i => s[i]?.map (high n f) := by
  apply List.ext_getElem (by simp [length_highs])
  intro j hj hj'
  rw [List.length_map] at hj hj'
  obtain ⟨v, at_j, -⟩ := (mem_positions_iff n f s _).mp (List.getElem_mem hj')
  have kept : j < (s.filter (outlier n f)).length := by simpa [highs] using hj
  have value := List.getElem_filter_eq_getElem_getElem_findIdxs kept
  obtain ⟨inside, rfl⟩ := List.getElem?_eq_some_iff.mp at_j
  rw [List.getElem_map, List.getElem_map, at_j, Option.map_some]
  simp only [highs, List.getElem_map, value]
  rfl

/-- Patched packing loses nothing, whatever the origin, the width and the outliers:
the exceptions list the outliers in order of position, by gap and high part, and
the decoder returns the values. -/
theorem patched_lossless {n : Nat} (h1 : 1 ≤ n) (h63 : n ≤ 63) (f : T.Original)
    (s : Sequence T) :
    ∃ bytes x, encode s.vals (Parameters.init f n (Exceptions.fresh T)) = (bytes, x) ∧
      x.indices.length = x.values.length ∧
      (∃ ps : List Nat, ps.Pairwise (· < ·) ∧
        (∀ i, i ∈ ps ↔ ∃ v, s.vals[i]? = some v ∧ 2 ^ n ≤ (v - f : T.Unsigned).toNat) ∧
        x.indices.map BitVec.toNat = gaps 0 ps ∧
        x.values.map some = ps.map fun i => s.vals[i]?.map fun v => (v - f) >>> n) ∧
      ∀ rest, (decode s.vals.length (Parameters.init f n x)).run (bytes ++ rest) =
        .ok (s.vals, rest) := by
  obtain ⟨bytes, written, -, unpacked⟩ := encode_run h1 h63 f s.vals
  refine ⟨bytes, outliers n f s.vals, written, ?_, ⟨positions n f 0 s.vals,
    List.pairwise_findIdxs, mem_positions_iff n f s.vals, ?_, highs_eq n f s.vals⟩, ?_⟩
  · simp only [outliers, List.length_map, length_gaps, length_highs]
  · have inside : ∀ p ∈ positions n f 0 s.vals, p < 2 ^ 64 := by
      intro p hp
      obtain ⟨v, at_p, -⟩ := (mem_positions_iff n f s.vals p).mp hp
      exact Nat.lt_trans (List.getElem?_eq_some_iff.mp at_p).1 s.length_lt
    change ((gaps 0 (positions n f 0 s.vals)).map toSize).map BitVec.toNat = _
    rw [List.map_map]
    refine Eq.trans (List.map_congr_left ?_) (List.map_id' _)
    exact fun g hg => toNat_toSize (gaps_lt inside g hg)
  · intro rest
    rw [decode, (unpacked (outliers n f s.vals)).run_bind,
      decodePatch_run n f s.vals _ (Nat.le_of_lt s.length_lt)]
    rfl

/-- An origin above one of the values makes its difference wrap and its position an
outlier. -/
theorem patched_lossless_int32 :
    ∃ bytes x, encode (T := int32) [10, -3, 100000, 12]
        (Parameters.init 10 4 (Exceptions.fresh int32)) = (bytes, x) ∧
      x.indices.length = x.values.length ∧
      ∀ rest, (decode 4 (Parameters.init 10 4 x)).run (bytes ++ rest) =
        .ok ([10, -3, 100000, 12], rest) := by
  obtain ⟨bytes, x, run, lengths, -, back⟩ := patched_lossless (T := int32) (n := 4) (by decide)
    (by decide) 10 ⟨[10, -3, 100000, 12], by decide⟩
  exact ⟨bytes, x, run, lengths, back⟩

end BitpfrCodec

end Oroch
