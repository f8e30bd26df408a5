import Oroch.ExactParameters

/-!
# Sequences in pieces

A long sequence can be packed call by call, and unpacked so, as long as the calls end at
block boundaries: each call starts a new block. The packers take their value codec by value,
so every call starts from the codec of the caller. For a codec without state nothing
changes; the patched codec counts the first gap of every call from 0 again, while the
decoder goes on counting, and only one piece may hold outliers.
-/

namespace Oroch

open Cursor

namespace BitpckCodec

section Calls

variable {T : IntType} {V : Type} [ValueCodec T V] {nbits : Nat}

/-- The encoder goes on behind full blocks in the state that it reached. -/
theorem encode_append (h1 : 1 ≤ nbits) (h64 : nbits ≤ 64) {xs : List T.Original}
    (whole : capacity nbits ∣ xs.length) (ys : List T.Original) (vcodec : V) :
    encode (xs ++ ys) nbits vcodec =
      ((encode xs nbits vcodec).1 ++ (encode ys nbits (encode xs nbits vcodec).2).1,
        (encode ys nbits (encode xs nbits vcodec).2).2) := by
  obtain ⟨blocks, total⟩ := whole
  induction blocks generalizing xs vcodec with
  | zero =>
    obtain rfl : xs = [] := List.eq_nil_of_length_eq_zero total
    simp only [List.nil_append, encode_nil]
  | succ blocks ih =>
    have two_le := (layout h1 h64).two_le
    rw [Nat.mul_succ] at total
    obtain ⟨front, back, rfl, full⟩ := exists_front (show capacity nbits ≤ xs.length by omega)
    have some : front ≠ [] := List.ne_nil_of_length_pos (by omega)
    have later : back.length = capacity nbits * blocks := by
      rw [List.length_append] at total
      omega
    have step (zs : List T.Original) := encode_step h1 h64 front zs vcodec some (Nat.le_of_eq full)
      (fun short => absurd full (Nat.ne_of_lt short))
    rw [List.append_assoc, step, step, ih _ later]
    simp only [List.append_assoc]

/-- The decoder goes on behind full blocks. -/
theorem decode_add (h1 : 1 ≤ nbits) (h64 : nbits ≤ 64) {n : Nat} (whole : capacity nbits ∣ n)
    (m : Nat) (vcodec : V) :
    decode (n + m) nbits vcodec = (do
      let us ← decode n nbits vcodec
      let vs ← decode m nbits vcodec
      pure (us ++ vs)) := by
  have two_le := (layout h1 h64).two_le
  obtain ⟨blocks, rfl⟩ := whole
  induction blocks with
  | zero =>
    have none : decode 0 nbits vcodec = pure [] := by
      rw [decode, dif_neg (by omega), dif_pos (by omega), if_neg (Nat.lt_irrefl 0)]
    simp only [Nat.mul_zero, Nat.zero_add, none, pure_bind, List.nil_append, bind_pure]
  | succ blocks ih =>
    have front (k : Nat) : decode (capacity nbits * (blocks + 1) + k) nbits vcodec = (do
        let us ← blockDecode nbits vcodec
        let vs ← decode (capacity nbits * blocks + k) nbits vcodec
        pure (us ++ vs)) := by
      have rest : capacity nbits * (blocks + 1) + k - capacity nbits =
          capacity nbits * blocks + k := by
        rw [Nat.mul_succ]
        omega
      rw [decode, dif_neg (by omega), dif_neg (by rw [Nat.mul_succ]; omega), rest]
    have here := front 0
    simp only [Nat.add_zero] at here
    rw [front, here, ih]
    simp only [bind_assoc, pure_bind, List.append_assoc]

/-- One call of `encode` for each piece. -/
def encodeEach (pieces : List (List T.Original)) (nbits : Nat) (vcodec : V) : Bytes :=
  pieces.flatMap fun piece => (encode piece nbits vcodec).1

/-- One call of `decode` for each piece. -/
def decodeEach : List Nat → (nbits : Nat) → V → ByteReader (List T.Original)
  | [], _, _ => pure []
  | n :: ns, nbits, vcodec => do
    let us ← decode n nbits vcodec
    let vs ← decodeEach ns nbits vcodec
    pure (us ++ vs)

end Calls

/-- Packing in pieces is packing at once, and unpacking in pieces is unpacking at once, on
every input, if all pieces but the last fill their blocks. -/
theorem pieces_at_once {T : IntType} {V : Type} [ValueCodec T V] [StatelessCodec T V] {nbits : Nat}
    (h1 : 1 ≤ nbits) (h64 : nbits ≤ 64) (vcodec : V) (pieces : List (List T.Original))
    (last : List T.Original) (whole : ∀ piece ∈ pieces, capacity nbits ∣ piece.length) :
    encodeEach (pieces ++ [last]) nbits vcodec =
        (encode (pieces.flatten ++ last) nbits vcodec).1 ∧
      decodeEach ((pieces ++ [last]).map List.length) nbits vcodec =
        decode (pieces.flatten ++ last).length nbits vcodec := by
  induction pieces with
  | nil =>
    constructor
    · simp [encodeEach]
    · simp [decodeEach]
  | cons piece pieces ih =>
    obtain ⟨here, later⟩ := List.forall_mem_cons.mp whole
    obtain ⟨written, read⟩ := ih later
    constructor
    · have state : (encode piece nbits vcodec).2 = vcodec := by
        rw [(encode_run h1 h64 piece vcodec).1, codes_stateless]
      rw [List.flatten_cons, List.append_assoc, encode_append h1 h64 here, state, ← written]
      rfl
    · rw [List.flatten_cons, List.append_assoc, List.length_append, decode_add h1 h64 here, ← read]
      rfl

/-- 25 values of five bits fill a block. -/
theorem pieces_at_once_int32 :
    encodeEach (T := int32) [List.replicate 50 (-3), [1, 2]] 5 ZigzagCodec.mk =
      (encode (T := int32) (List.replicate 50 (-3) ++ [1, 2]) 5 ZigzagCodec.mk).1 := by
  have once := (pieces_at_once (T := int32) (by decide : 1 ≤ 5) (by decide) ZigzagCodec.mk
    [List.replicate 50 (-3)] [1, 2] (by decide)).1
  simpa using once

end BitpckCodec

theorem gaps_append {ps : List Nat} (some : ps ≠ []) (next : Nat) (qs : List Nat) :
    gaps next (ps ++ qs) = gaps next ps ++ gaps (ps.getLast some + 1) qs := by
  induction ps generalizing next with
  | nil => exact absurd rfl some
  | cons p ps ih =>
    rcases ps with _ | ⟨p', ps⟩
    · rfl
    · have rest := ih (List.cons_ne_nil p' ps) (p + 1)
      change (p - next) :: gaps (p + 1) (p' :: ps ++ qs) = _
      rw [rest]
      rfl

/-- A decoder whose positions all lie inside has not wrapped around. -/
theorem OffsetCodec.decodes_inside {b next : Nat} {us : List sizeT.Unsigned}
    (short : ∀ u ∈ us, u.toNat < b) (start : next ≤ b) (room : 2 * b ≤ 2 ^ 64)
    (inside : ∀ p ∈ ((⟨toSize next⟩ : OffsetCodec sizeT 1).decodes us).map BitVec.toNat, p < b) :
    ((⟨toSize next⟩ : OffsetCodec sizeT 1).decodes us).map BitVec.toNat =
      places next (us.map BitVec.toNat) := by
  induction us generalizing next with
  | nil => rfl
  | cons u us ih =>
    obtain ⟨here, later⟩ := List.forall_mem_cons.mp short
    have value : toSize next + u = toSize (next + u.toNat) := by
      rw [toSize, toSize, BitVec.ofNat_add, BitVec.ofNat_toNat, BitVec.setWidth_eq]
    have after : toSize (next + u.toNat) + 1 = toSize (next + u.toNat + 1) :=
      (BitVec.ofNat_add _ 1).symm
    have exact := toNat_toSize (show next + u.toNat < 2 ^ 64 by omega)
    simp only [decodes, valueDecode, value, after, List.map_cons, List.forall_mem_cons, exact] at inside
    simp only [decodes, valueDecode, value, after, List.map_cons, places, exact,
      ih later (Nat.succ_le_of_lt inside.1) inside.2]

namespace BitpfrCodec

variable {T : IntType} (n : Nat) (f : T.Original)

/-- A piece with outliers. -/
def HasOutliers (piece : List T.Original) : Bool := piece.any (outlier n f)

/-- The gaps of all pieces, the first of them standing at position `k`. -/
def pieceGaps : (k : Nat) → List (List T.Original) → List Nat
  | _, [] => []
  | k, piece :: pieces =>
    gaps 0 (positions n f k piece) ++ pieceGaps (k + piece.length) pieces

theorem positions_append (k : Nat) (s t : List T.Original) :
    positions n f k (s ++ t) = positions n f k s ++ positions n f (k + s.length) t := by
  rw [positions, List.findIdxs_append]
  rfl

theorem positions_eq_nil_iff (k : Nat) (s : List T.Original) :
    positions n f k s = [] ↔ HasOutliers n f s = false := by
  rw [positions, HasOutliers, List.findIdxs_eq_nil_iff, List.any_eq_false]
  simp

theorem length_pieceGaps (k : Nat) (pieces : List (List T.Original)) :
    (pieceGaps n f k pieces).length = (positions n f k pieces.flatten).length := by
  induction pieces generalizing k with
  | nil => rfl
  | cons piece pieces ih =>
    rw [pieceGaps, List.flatten_cons, positions_append, List.length_append, List.length_append,
      length_gaps, ih]

theorem pieceGaps_lt (k : Nat) (pieces : List (List T.Original)) :
    ∀ g ∈ pieceGaps n f k pieces, g < k + pieces.flatten.length := by
  induction pieces generalizing k with
  | nil => simp [pieceGaps]
  | cons piece pieces ih =>
    intro g hg
    rw [List.flatten_cons, List.length_append]
    rcases List.mem_append.mp hg with here | later
    · have := gaps_lt (fun p hp => List.lt_add_of_mem_findIdxs p hp) g here
      omega
    · have := ih _ g later
      omega

/-- The first gap is a position. -/
theorem pieceGaps_of_cons {k : Nat} {pieces : List (List T.Original)} {p : Nat} {ps : List Nat}
    (first : positions n f k pieces.flatten = p :: ps) : ∃ gs, pieceGaps n f k pieces = p :: gs := by
  induction pieces generalizing k with
  | nil => cases first
  | cons piece pieces ih =>
    rw [List.flatten_cons, positions_append] at first
    rw [pieceGaps]
    cases here : positions n f k piece with
    | nil =>
      rw [here] at first
      exact ih first
    | cons q qs =>
      rw [here] at first
      obtain ⟨rfl, -⟩ := List.cons.inj first
      exact ⟨_, rfl⟩

/-- The outliers of later values come later. -/
theorem getLast_lt_of_later {k : Nat} {us vs : List T.Original} (some : positions n f k us ≠ [])
    {p : Nat} {ps : List Nat} (later : positions n f (k + us.length) vs = p :: ps) :
    (positions n f k us).getLast some < p := by
  have increasing : (positions n f k (us ++ vs)).Pairwise (· < ·) := List.pairwise_findIdxs
  rw [positions_append, later] at increasing
  exact (List.pairwise_append.mp increasing).2.2 _ (List.getLast_mem some) _ List.mem_cons_self

/-- The gaps of the pieces are the gaps of the whole if no piece with outliers follows
another one. -/
theorem pieceGaps_eq_iff (k : Nat) (pieces : List (List T.Original)) :
    pieceGaps n f k pieces = gaps 0 (positions n f k pieces.flatten) ↔
      pieces.countP (HasOutliers n f) ≤ 1 := by
  induction pieces generalizing k with
  | nil => exact ⟨fun _ => Nat.zero_le 1, fun _ => rfl⟩
  | cons piece pieces ih =>
    rw [pieceGaps, List.flatten_cons, positions_append]
    by_cases out : HasOutliers n f piece = true
    · have some : positions n f k piece ≠ [] := by
        intro none
        exact absurd out (Bool.eq_false_iff.mp ((positions_eq_nil_iff n f k piece).mp none))
      have alone : pieces.countP (HasOutliers n f) = 0 ↔
          positions n f (k + piece.length) pieces.flatten = [] := by
        rw [positions_eq_nil_iff, HasOutliers, List.any_flatten, List.countP_eq_zero,
          List.any_eq_false]
        rfl
      rw [List.countP_cons_of_pos out, Nat.succ_le_succ_iff, Nat.le_zero, alone, gaps_append some,
        List.append_cancel_left_eq]
      constructor
      · intro same
        cases later : positions n f (k + piece.length) pieces.flatten with
        | nil => rfl
        | cons p ps =>
          obtain ⟨gs, first⟩ := pieceGaps_of_cons n f later
          have behind := getLast_lt_of_later n f some later
          rw [first, later] at same
          obtain ⟨equal, -⟩ := List.cons.inj same
          omega
      · intro none
        have lengths := length_pieceGaps n f (k + piece.length) pieces
        rw [none] at lengths ⊢
        exact List.eq_nil_of_length_eq_zero lengths
    · rw [(positions_eq_nil_iff n f k piece).mpr (Bool.eq_false_iff.mpr out),
        List.countP_cons_of_neg out]
      exact ih _

/-- Exceptions with the true high parts restore the values if their gaps are the true ones. -/
theorem restored_iff {n : Nat} (f : T.Original) {s : List T.Original} {gs : List Nat}
    (count : gs.length = (positions n f 0 s).length) (short : ∀ g ∈ gs, g < s.length)
    (room : s.length < 2 ^ 63) (index : sizeT.Original) :
    decodePatch (s.map (low n f)) (Parameters.init f n ⟨gs.map toSize, highs n f s, index⟩) = .ok s ↔
      gs = gaps 0 (positions n f 0 s) := by
  have exact : (gs.map toSize).map BitVec.toNat = gs := by
    rw [List.map_map]
    refine Eq.trans (List.map_congr_left fun g hg => ?_) (List.map_id' gs)
    exact toNat_toSize (Nat.lt_trans (short g hg) (by omega))
  constructor
  · intro restored
    have perm := (subperm_places restored).perm_of_length_le
      (by rw [length_places, List.length_map, count])
    have inside : ∀ p ∈ (Exceptions.mk (gs.map toSize) (highs n f s) index).places,
        p < s.length := by
      intro p hp
      obtain ⟨v, here, -⟩ := (mem_positions_iff n f s p).mp (perm.mem_iff.mpr hp)
      exact (List.getElem?_eq_some_iff.mp here).1
    have counted : (Exceptions.mk (gs.map toSize) (highs n f s) index).places =
        places 0 ((gs.map toSize).map BitVec.toNat) :=
      OffsetCodec.decodes_inside (fun u hu => short _ (exact ▸ List.mem_map_of_mem hu))
        (Nat.zero_le _) (by omega) inside
    obtain ⟨-, same⟩ := places_eq_of_counted (by rw [List.length_map, count]) counted restored
    exact exact.symm.trans same
  · rintro rfl
    exact decodePatch_run n f s index (by omega)

/-- One call of `encode` for each piece, with the same parameters and exceptions. -/
def encodeEach : List (List T.Original) → Exceptions T → Bytes × Exceptions T
  | [], x => ([], x)
  | piece :: pieces, x =>
    let (bytes, x) := encode piece (Parameters.init f n x)
    let (later, x) := encodeEach pieces x
    (bytes ++ later, x)

variable {n} in
/-- One call, the first value standing at position `k`. -/
theorem encode_from (h1 : 1 ≤ n) (h63 : n ≤ 63) (k : Nat) (is : List sizeT.Original)
    (hs : List T.Unsigned) (piece : List T.Original) :
    ∃ bytes, encode piece (Parameters.init f n ⟨is, hs, toSize k⟩) =
        (bytes, ⟨is ++ (gaps 0 (positions n f k piece)).map toSize, hs ++ highs n f piece,
          toSize (k + piece.length)⟩) ∧
      ∀ x, Consumes (decodeBasic piece.length (Parameters.init f n x)) bytes
        (piece.map (low n f)) := by
  have h64 : n ≤ 64 := by omega
  obtain ⟨last, -⟩ := BitpckCodec.encode_run h1 h64 piece (Parameters.init f n ⟨is, hs, toSize k⟩)
  obtain ⟨c, run⟩ := codes_during h63 f piece k is hs (OffsetCodec.init false 0)
  have first : (OffsetCodec.init false 0 : OffsetCodec sizeT 1).codes
      ((positions n f k piece).map toSize) = (gaps 0 (positions n f k piece)).map toSize :=
    OffsetCodec.codes_positions 0 _ (fun _ _ => Nat.zero_le _) List.pairwise_findIdxs
  change codes (Parameters.init f n ⟨is, hs, toSize k⟩) piece = _ at run
  rw [run, first] at last
  refine ⟨(BitpckCodec.encode piece n (Parameters.init f n ⟨is, hs, toSize k⟩)).1, ?_, ?_⟩
  · have left : encode piece (Parameters.init f n ⟨is, hs, toSize k⟩) =
        ((BitpckCodec.encode piece n (Parameters.init f n ⟨is, hs, toSize k⟩)).1,
          (BitpckCodec.encode piece n (Parameters.init f n ⟨is, hs, toSize k⟩)).2.excpts) := rfl
    rw [left, last]
    rfl
  · intro x
    have read := BitpckCodec.consumes_encode h1 h64 piece
      (Parameters.init f n ⟨is, hs, toSize k⟩) (Parameters.init f n x)
    rw [run, List.map_map] at read
    exact read

variable {n} in
/-- All calls: the blocks of the whole sequence, the high parts of its outliers and the gaps
of the pieces. -/
theorem encodeEach_run (h1 : 1 ≤ n) (h63 : n ≤ 63) (k : Nat) (is : List sizeT.Original)
    (hs : List T.Unsigned) (pieces : List (List T.Original)) (last : List T.Original)
    (whole : ∀ piece ∈ pieces, BitpckCodec.capacity n ∣ piece.length) :
    let s := (pieces ++ [last]).flatten
    ∃ bytes, encodeEach n f (pieces ++ [last]) ⟨is, hs, toSize k⟩ =
        (bytes, ⟨is ++ (pieceGaps n f k (pieces ++ [last])).map toSize, hs ++ highs n f s,
          toSize (k + s.length)⟩) ∧
      ∀ x, Consumes (decodeBasic s.length (Parameters.init f n x)) bytes (s.map (low n f)) := by
  induction pieces generalizing k is hs with
  | nil =>
    obtain ⟨bytes, written, read⟩ := encode_from f h1 h63 k is hs last
    refine ⟨bytes, ?_, ?_⟩
    · simp only [List.nil_append, encodeEach, written, pieceGaps, List.append_nil,
        List.flatten_singleton]
    · simpa using read
  | cons piece pieces ih =>
    obtain ⟨here, later⟩ := List.forall_mem_cons.mp whole
    obtain ⟨bytes, written, read⟩ := encode_from f h1 h63 k is hs piece
    obtain ⟨behind, written', read'⟩ := ih (k + piece.length)
      (is ++ (gaps 0 (positions n f k piece)).map toSize) (hs ++ highs n f piece) later
    have highParts (t : List T.Original) :
        highs n f (piece ++ t) = highs n f piece ++ highs n f t := by
      rw [highs, List.filter_append, List.map_append]
      rfl
    refine ⟨bytes ++ behind, ?_, ?_⟩
    · simp only [List.cons_append, encodeEach, written, written', pieceGaps, List.flatten_cons,
        List.map_append, highParts, List.append_assoc, List.length_append, Nat.add_assoc]
    · intro x
      rw [List.cons_append, List.flatten_cons, List.length_append, List.map_append]
      change Consumes (BitpckCodec.decode (_ + _) n (Parameters.init f n x)) _ _
      rw [BitpckCodec.decode_add h1 (by omega) here]
      exact (read x).bind ((read' x).map _)

/-- A sequence packed call by call, with the same parameters and in full blocks, is read back
exactly if at most one of its pieces holds outliers. -/
theorem pieces_restored_iff {n : Nat} (h1 : 1 ≤ n) (h63 : n ≤ 63) (f : T.Original)
    (pieces : List (List T.Original)) (last : List T.Original)
    (whole : ∀ piece ∈ pieces, BitpckCodec.capacity n ∣ piece.length)
    (room : (pieces ++ [last]).flatten.length < 2 ^ 63) :
    let s := (pieces ++ [last]).flatten
    let written := encodeEach n f (pieces ++ [last]) (Exceptions.fresh T)
    ∀ rest, (decode s.length (Parameters.init f n written.2)).run (written.1 ++ rest) =
        .ok (s, rest) ↔
      (pieces ++ [last]).countP (HasOutliers n f) ≤ 1 := by
  intro s
  obtain ⟨bytes, written, read⟩ := encodeEach_run f h1 h63 0 [] [] pieces last whole
  have restored := restored_iff f (length_pieceGaps n f 0 (pieces ++ [last]))
    (by simpa using pieceGaps_lt n f 0 (pieces ++ [last])) room (toSize (0 + s.length))
  rw [pieceGaps_eq_iff] at restored
  change encodeEach n f (pieces ++ [last]) (Exceptions.fresh T) = _ at written
  simp only [written]
  intro rest
  rw [decode, (read _).run_bind]
  refine Iff.trans ?_ restored
  constructor
  · intro run
    exact run_lift_ok run
  · intro run
    rw [List.nil_append, List.nil_append, run]
    rfl

/-- 32 values of four bits fill a block. -/
theorem pieces_restored_iff_int32 :
    let written := encodeEach (T := int32) 4 0 [List.replicate 31 0 ++ [100], [100]]
      (Exceptions.fresh int32)
    (decode 33 (Parameters.init 0 4 written.2)).run (written.1 ++ []) ≠
      .ok (List.replicate 31 0 ++ [100, 100], []) := by
  intro written back
  have exact := pieces_restored_iff (T := int32) (n := 4) (by decide) (by decide) 0
    [List.replicate 31 0 ++ [100]] [100] (by decide) (by decide)
  exact absurd ((exact []).mp back) (by decide)

end BitpfrCodec

end Oroch
