import Mathlib.Data.List.Basic

/-!
# Lists kept in chunks of one length

A chunked list is a sequence of full chunks and a shorter rest. Inserting into a
full chunk pushes its last element on to the next one, through all later chunks
into the rest; a rest that is filled becomes a chunk. Seen as a plain list this is
an insertion at one position.
-/

namespace Chunks

variable {α : Type} {n : Nat}

/-- An invalid split cannot be built: every chunk is full and the rest is not. -/
structure Chunked (n : Nat) (α : Type) where
  chunks : List (List α)
  rest : List α
  full : ∀ c ∈ chunks, c.length = n
  short : rest.length < n

def Chunked.toList (c : Chunked n α) : List α := c.chunks.flatten ++ c.rest

def Chunked.empty (h : 0 < n) : Chunked n α := ⟨[], [], by simp, h⟩

theorem insertIdx_left {l : List α} (rest : List α) {i : Nat} (x : α) (h : i ≤ l.length) :
    (l ++ rest).insertIdx i x = l.insertIdx i x ++ rest := by
  induction l generalizing i with
  | nil =>
    obtain rfl : i = 0 := Nat.le_zero.mp h
    rfl
  | cons a l ih =>
    cases i with
    | zero => rfl
    | succ i =>
      rw [List.cons_append, List.insertIdx_succ_cons, List.insertIdx_succ_cons, List.cons_append,
        ih (Nat.le_of_succ_le_succ h)]

theorem insertIdx_right (l rest : List α) (i : Nat) (x : α) :
    (l ++ rest).insertIdx (l.length + i) x = l ++ rest.insertIdx i x := by
  induction l with
  | nil => simp
  | cons a l ih =>
    rw [List.length_cons, Nat.add_right_comm, List.cons_append, List.insertIdx_succ_cons, ih,
      List.cons_append]

/-- A chunk after an insertion, and the element pushed off its end. -/
def push (c : List α) (i : Nat) (x : α) : List α × α :=
  ((c.insertIdx i x).dropLast, (c.insertIdx i x).getLast?.getD x)

theorem push_eq {c : List α} {i : Nat} (x : α) (h : i ≤ c.length) :
    (push c i x).1 ++ [(push c i x).2] = c.insertIdx i x ∧
      (push c i x).1.length = c.length := by
  have len : (c.insertIdx i x).length = c.length + 1 := List.length_insertIdx_of_le_length h x
  have some : c.insertIdx i x ≠ [] := List.ne_nil_of_length_pos (by omega)
  refine ⟨?_, by simp [push, len]⟩
  rw [push, List.getLast?_eq_some_getLast some, Option.getD_some, List.dropLast_append_getLast some]

theorem push_append (before between : List α) (last x : α) :
    push (before ++ (between ++ [last])) before.length x = (before ++ x :: between, last) := by
  have inserted : (before ++ (between ++ [last])).insertIdx before.length x =
      (before ++ x :: between) ++ [last] := by
    simpa using insertIdx_right before (between ++ [last]) 0 x
  rw [push, inserted, List.dropLast_concat, List.getLast?_concat, Option.getD_some]

/-- The insertion through consecutive chunks: the chunks, and where which element is
left to insert behind them. -/
def ripple : List (List α) → Nat → α → List (List α) × Nat × α
  | [], i, x => ([], i, x)
  | c :: cs, i, x =>
    let (d, y) := push c i x
    let (ds, left) := ripple cs 0 y
    (d :: ds, left)

/-- What is left is inserted where the element was, or at the front. -/
theorem ripple_index_le (cs : List (List α)) (i : Nat) (x : α) : (ripple cs i x).2.1 ≤ i := by
  induction cs generalizing i x with
  | nil => exact Nat.le_refl i
  | cons c cs ih => exact Nat.le_trans (ih 0 (push c i x).2) (Nat.zero_le i)

/-- Behind the first chunk the element is pushed on to the front. -/
theorem ripple_index_eq {cs : List (List α)} (some : cs ≠ []) (i : Nat) (x : α) :
    (ripple cs i x).2.1 = 0 := by
  cases cs with
  | nil => exact absurd rfl some
  | cons c cs => exact Nat.le_zero.mp (ripple_index_le cs 0 (push c i x).2)

theorem length_ripple (cs : List (List α)) (i : Nat) (x : α) :
    (ripple cs i x).1.length = cs.length := by
  induction cs generalizing i x with
  | nil => rfl
  | cons c cs ih => exact congrArg Nat.succ (ih 0 (push c i x).2)

theorem full_ripple {cs : List (List α)} (full : ∀ c ∈ cs, c.length = n) {i : Nat} (h : i ≤ n)
    (x : α) : ∀ d ∈ (ripple cs i x).1, d.length = n := by
  induction cs generalizing i x with
  | nil => simp [ripple]
  | cons c cs ih =>
    have len := full c List.mem_cons_self
    intro d hd
    rcases List.mem_cons.mp hd with rfl | hd
    · exact (push_eq x (by omega)).2.trans len
    · exact ih (fun c hc => full c (List.mem_cons_of_mem _ hc)) (Nat.zero_le n) _ d hd

theorem flatten_ripple {cs : List (List α)} (full : ∀ c ∈ cs, c.length = n) {i : Nat} (h : i ≤ n)
    (x : α) (rest : List α) :
    (ripple cs i x).1.flatten ++ rest.insertIdx (ripple cs i x).2.1 (ripple cs i x).2.2 =
      (cs.flatten ++ rest).insertIdx i x := by
  induction cs generalizing i x with
  | nil => rfl
  | cons c cs ih =>
    have len := full c List.mem_cons_self
    have later := ih (fun c hc => full c (List.mem_cons_of_mem _ hc)) (Nat.zero_le n) (push c i x).2
    rw [ripple, List.flatten_cons, List.flatten_cons, List.append_assoc, List.append_assoc, later,
      List.insertIdx_zero, insertIdx_left _ x (by omega), ← (push_eq x (by omega)).1,
      List.append_assoc, List.singleton_append]

/-- The chunks when the insertion has passed `k` of them, and the element pushed off the last
of these is in none. -/
def rippled (cs : List (List α)) (k i : Nat) (x : α) : List (List α) :=
  (ripple (cs.take k) i x).1 ++ cs.drop k

theorem rippled_length (cs : List (List α)) (i : Nat) (x : α) :
    rippled cs cs.length i x = (ripple cs i x).1 := by
  rw [rippled, List.take_length, List.drop_length, List.append_nil]

theorem length_flatten {cs : List (List α)} (full : ∀ c ∈ cs, c.length = n) :
    cs.flatten.length = n * cs.length := by
  induction cs with
  | nil => rfl
  | cons c cs ih =>
    rw [List.flatten_cons, List.length_append, full c List.mem_cons_self,
      ih fun c hc => full c (List.mem_cons_of_mem _ hc), List.length_cons, Nat.mul_succ,
      Nat.add_comm]

/-- Behind `k` chunks the element in hand is the one at their end. -/
theorem flatten_rippled {cs : List (List α)} (full : ∀ c ∈ cs, c.length = n) {k : Nat}
    (positive : 0 < k) (h : k ≤ cs.length) {i : Nat} (hi : i ≤ n) (x : α) (rest : List α) :
    (rippled cs k i x).flatten ++ rest = ((cs.flatten ++ rest).insertIdx i x).eraseIdx (n * k) := by
  have some : cs.take k ≠ [] := by
    rw [ne_eq, List.take_eq_nil_iff]
    rintro (none_taken | rfl)
    · omega
    · exact absurd h (Nat.not_le.mpr positive)
  have taken : ∀ c ∈ cs.take k, c.length = n := fun c hc => full c (List.mem_of_mem_take hc)
  have whole := flatten_ripple taken hi x ((cs.drop k).flatten ++ rest)
  have count : (ripple (cs.take k) i x).1.flatten.length = n * k := by
    rw [length_flatten (full_ripple taken hi x), length_ripple, List.length_take,
      Nat.min_eq_left h]
  rw [ripple_index_eq some, List.insertIdx_zero, ← List.append_assoc (cs.take k).flatten,
    ← List.flatten_append, List.take_append_drop] at whole
  rw [← whole, List.eraseIdx_append_of_length_le (Nat.le_of_eq count), count, Nat.sub_self,
    List.eraseIdx_cons_zero, rippled, List.flatten_append, List.append_assoc]

namespace Chunked

theorem length_toList (c : Chunked n α) :
    c.toList.length = n * c.chunks.length + c.rest.length := by
  rw [toList, List.length_append, length_flatten c.full]

/-- The number of chunks and the length of the rest follow from the length. -/
theorem length_chunks (c : Chunked n α) : c.chunks.length = c.toList.length / n := by
  have short := c.short
  rw [length_toList, Nat.mul_add_div (by omega), Nat.div_eq_of_lt short, Nat.add_zero]

theorem length_rest (c : Chunked n α) : c.rest.length = c.toList.length % n := by
  rw [length_toList, Nat.mul_add_mod, Nat.mod_eq_of_lt c.short]

theorem full_take (c : Chunked n α) (k : Nat) : ∀ d ∈ c.chunks.take k, d.length = n :=
  fun d hd => c.full d (List.mem_of_mem_take hd)

theorem full_drop (c : Chunked n α) (k : Nat) : ∀ d ∈ c.chunks.drop k, d.length = n :=
  fun d hd => c.full d (List.mem_of_mem_drop hd)

/-- The list before and after the start of chunk `g`. -/
theorem toList_split (c : Chunked n α) {g : Nat} (h : g ≤ c.chunks.length) :
    c.toList = (c.chunks.take g).flatten ++ ((c.chunks.drop g).flatten ++ c.rest) ∧
      (c.chunks.take g).flatten.length = n * g := by
  constructor
  · rw [toList, ← List.append_assoc, ← List.flatten_append, List.take_append_drop]
  · rw [length_flatten (c.full_take g), List.length_take, Nat.min_eq_left h]

/-- A chunk is the part of the list at its position. -/
theorem chunk_eq (c : Chunked n α) {g : Nat} (h : g < c.chunks.length) :
    (c.toList.drop (n * g)).take n = c.chunks[g] := by
  obtain ⟨split, before⟩ := c.toList_split (Nat.le_of_lt h)
  have len := c.full c.chunks[g] (List.getElem_mem h)
  rw [split, ← before, List.drop_left, List.drop_eq_getElem_cons h, List.flatten_cons,
    List.append_assoc]
  exact (congrArg (fun k => List.take k _) len.symm).trans List.take_left

theorem rest_eq (c : Chunked n α) : c.toList.drop (n * c.chunks.length) = c.rest := by
  rw [toList, ← length_flatten c.full, List.drop_left]

theorem getElem?_chunk (c : Chunked n α) {i : Nat} (h : i / n < c.chunks.length) :
    c.toList[i]? = c.chunks[i / n][i % n]? := by
  have inside := Nat.mod_lt i (Nat.zero_lt_of_lt c.short)
  rw [← c.chunk_eq h, List.getElem?_take_of_lt inside, List.getElem?_drop, Nat.div_add_mod]

theorem getElem?_rest (c : Chunked n α) (i : Nat) :
    c.toList[n * c.chunks.length + i]? = c.rest[i]? := by
  rw [← List.getElem?_drop, c.rest_eq]

/-- The chunks are cut from the list one behind the other. -/
theorem chunks_eq (c : Chunked n α) :
    c.chunks = (List.range (c.toList.length / n)).map fun g => (c.toList.drop (n * g)).take n := by
  have count := c.length_chunks
  refine List.ext_getElem (by simp [count]) fun g hc hd => ?_
  rw [List.getElem_map, List.getElem_range, c.chunk_eq hc]

/-- A list is split into chunks in one way. -/
theorem chunks_unique {c d : Chunked n α} (h : c.toList = d.toList) :
    c.chunks = d.chunks ∧ c.rest = d.rest := by
  have count : c.chunks.length = d.chunks.length := by rw [length_chunks, length_chunks, h]
  refine ⟨List.ext_getElem count fun g hc hd => ?_, ?_⟩
  · rw [← c.chunk_eq hc, ← d.chunk_eq hd, h]
  · rw [← c.rest_eq, ← d.rest_eq, h, count]

def insert (c : Chunked n α) (i : Nat) (x : α) : Chunked n α :=
  have positive : 0 < n := Nat.zero_lt_of_lt c.short
  have index := Nat.le_of_lt (Nat.mod_lt i positive)
  let r := ripple (c.chunks.drop (i / n)) (i % n) x
  let rest := c.rest.insertIdx r.2.1 r.2.2
  have full : ∀ d ∈ c.chunks.take (i / n) ++ r.1, d.length = n := by
    intro d hd
    rcases List.mem_append.mp hd with hd | hd
    · exact c.full_take (i / n) d hd
    · exact full_ripple (c.full_drop (i / n)) index x d hd
  if filled : rest.length = n then
    { chunks := c.chunks.take (i / n) ++ r.1 ++ [rest]
      rest := []
      full := by
        intro d hd
        rcases List.mem_append.mp hd with hd | hd
        · exact full d hd
        · rw [List.mem_singleton.mp hd, filled]
      short := positive }
  else
    { chunks := c.chunks.take (i / n) ++ r.1
      rest := rest
      full := full
      short := by
        have short := c.short
        have grown : rest.length ≤ c.rest.length + 1 := List.length_insertIdx_le_succ
        omega }

/-- The chunk that an index falls into, or the rest. -/
theorem div_le_chunks (c : Chunked n α) {i : Nat} (h : i ≤ c.toList.length) :
    i / n ≤ c.chunks.length := by
  have short := c.short
  rw [length_toList] at h
  refine Nat.le_of_lt_succ ((Nat.div_lt_iff_lt_mul (by omega)).mpr ?_)
  rw [Nat.succ_mul, Nat.mul_comm]
  omega

/-- An insertion leaves the chunks before its own alone. -/
theorem insertIdx_split (c : Chunked n α) {i : Nat} (x : α) (h : i ≤ c.toList.length) :
    c.toList.insertIdx i x = (c.chunks.take (i / n)).flatten ++
      ((c.chunks.drop (i / n)).flatten ++ c.rest).insertIdx (i % n) x := by
  obtain ⟨split, before⟩ := c.toList_split (c.div_le_chunks h)
  have position : i = (c.chunks.take (i / n)).flatten.length + i % n := by
    rw [before, Nat.div_add_mod]
  rw [split, ← insertIdx_right, ← position]

/-- The chunks and the rest that an insertion makes, before the rest is checked. -/
theorem flatten_insert (c : Chunked n α) {i : Nat} (x : α) (h : i ≤ c.toList.length) :
    (c.chunks.take (i / n) ++ (ripple (c.chunks.drop (i / n)) (i % n) x).1).flatten ++
      c.rest.insertIdx (ripple (c.chunks.drop (i / n)) (i % n) x).2.1
        (ripple (c.chunks.drop (i / n)) (i % n) x).2.2 = c.toList.insertIdx i x := by
  have index := Nat.le_of_lt (Nat.mod_lt i (Nat.zero_lt_of_lt c.short))
  rw [c.insertIdx_split x h, ← flatten_ripple (c.full_drop (i / n)) index x c.rest,
    List.flatten_append, List.append_assoc]

/-- Inserting into a chunked list is inserting into the list. -/
theorem toList_insert (c : Chunked n α) {i : Nat} (x : α) (h : i ≤ c.toList.length) :
    (c.insert i x).toList = c.toList.insertIdx i x := by
  rw [← c.flatten_insert x h, insert]
  split
  · simp [toList]
  · rfl

/-- An insertion given up behind `k` of the chunks that it passes. -/
def interrupted (c : Chunked n α) (i k : Nat) (x : α) : Chunked n α where
  chunks := c.chunks.take (i / n) ++ rippled (c.chunks.drop (i / n)) k (i % n) x
  rest := c.rest
  full := by
    have index := Nat.le_of_lt (Nat.mod_lt i (Nat.zero_lt_of_lt c.short))
    intro d hd
    rcases List.mem_append.mp hd with hd | hd
    · exact c.full_take (i / n) d hd
    · rcases List.mem_append.mp hd with hd | hd
      · exact full_ripple (fun e he => c.full_drop (i / n) e (List.mem_of_mem_take he)) index x d hd
      · exact c.full_drop (i / n) d (List.mem_of_mem_drop hd)
  short := c.short

theorem toList_interrupted_zero (c : Chunked n α) (i : Nat) (x : α) :
    (c.interrupted i 0 x).toList = c.toList :=
  congrArg (·.flatten ++ c.rest) (List.take_append_drop (i / n) c.chunks)

theorem chunks_interrupted (c : Chunked n α) (i : Nat) (x : α) :
    (c.interrupted i (c.chunks.drop (i / n)).length x).chunks =
      c.chunks.take (i / n) ++ (ripple (c.chunks.drop (i / n)) (i % n) x).1 :=
  congrArg (c.chunks.take (i / n) ++ ·) (rippled_length _ _ _)

/-- What an insertion that is given up loses is the element in hand. -/
theorem toList_interrupted (c : Chunked n α) {i k : Nat} (x : α) (h : i ≤ c.toList.length)
    (positive : 0 < k) (hk : i / n + k ≤ c.chunks.length) :
    (c.interrupted i k x).toList = (c.toList.insertIdx i x).eraseIdx (n * (i / n + k)) := by
  have index := Nat.le_of_lt (Nat.mod_lt i (Nat.zero_lt_of_lt c.short))
  obtain ⟨-, before⟩ := c.toList_split (Nat.le_of_add_right_le hk)
  have left : k ≤ (c.chunks.drop (i / n)).length := by
    rw [List.length_drop]
    omega
  rw [c.insertIdx_split x h, List.eraseIdx_append_of_length_le (by rw [before, Nat.mul_add]; omega),
    before, Nat.mul_add, Nat.add_sub_cancel_left,
    ← flatten_rippled (c.full_drop (i / n)) positive left index x c.rest, toList, interrupted,
    List.flatten_append, List.append_assoc]

end Chunked

end Chunks
