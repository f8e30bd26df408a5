import Mathlib.Data.List.Basic

/-!
# Readers over a moving cursor

A reader consumes items from the front of its input, returns a value and leaves
the cursor behind the items it consumed; running off the input is an error.
`Consumes p xs a` says that `p` consumes exactly `xs`, whatever follows, and returns
`a`. The predicate composes along `++`, so a proof about a decoder follows the
decoder's own sequence of reads and never mentions the rest of the input.

Nothing here fixes the items, the errors or the format that is read.
-/

namespace Cursor

variable {ε β α γ : Type}

abbrev Reader (ε β α : Type) := StateT (List β) (Except ε) α

/-- An input that is long enough splits behind its first items. -/
theorem exists_front {xs : List β} {n : Nat} (h : n ≤ xs.length) :
    ∃ front rest, xs = front ++ rest ∧ front.length = n :=
  ⟨xs.take n, xs.drop n, (List.take_append_drop n xs).symm, List.length_take_of_le h⟩

def Consumes (p : Reader ε β α) (xs : List β) (a : α) : Prop :=
  ∀ rest, p.run (xs ++ rest) = .ok (a, rest)

/-- The next item; `stop` when the input is exhausted. -/
def item (stop : ε) : Reader ε β β := fun input =>
  match input with
  | [] => .error stop
  | x :: rest => .ok (x, rest)

/-- `p`, a given number of times. -/
def times (p : Reader ε β α) : Nat → Reader ε β (List α)
  | 0 => pure []
  | n + 1 => do
    let a ← p
    let as ← times p n
    pure (a :: as)

/-- Read up to `n` values and stop at the first that passes the test; its position
counted from `i`, or `missing`. -/
def scan (p : Reader ε β α) (test : α → Bool) (missing : Nat) :
    (n i : Nat) → Reader ε β Nat
  | 0, _ => pure missing
  | n + 1, i => do
    let a ← p
    if test a then pure i else scan p test missing n (i + 1)

theorem consumes_pure (a : α) : Consumes (pure a : Reader ε β α) [] a := fun _ => rfl

/-- The rest of a program runs behind what the reader consumed. -/
theorem Consumes.run_bind {p : Reader ε β α} {xs : List β} {a : α} (hp : Consumes p xs a)
    (f : α → Reader ε β γ) (rest : List β) :
    (p >>= f).run (xs ++ rest) = (f a).run rest := by
  rw [StateT.run_bind, hp rest]
  rfl

theorem Consumes.bind {p : Reader ε β α} {f : α → Reader ε β γ} {xs ys : List β} {a : α} {c : γ}
    (hp : Consumes p xs a) (hf : Consumes (f a) ys c) : Consumes (p >>= f) (xs ++ ys) c := by
  intro rest
  rw [List.append_assoc, hp.run_bind]
  exact hf rest

theorem Consumes.map {p : Reader ε β α} (f : α → γ) {xs : List β} {a : α}
    (hp : Consumes p xs a) : Consumes (do let a ← p; pure (f a)) xs (f a) :=
  fun rest => hp.run_bind _ rest

@[simp] theorem item_bind_cons (stop : ε) (f : β → Reader ε β γ) (x : β) (rest : List β) :
    (item stop >>= f).run (x :: rest) = (f x).run rest := rfl

theorem consumes_item (stop : ε) (x : β) : Consumes (item stop) [x] x := fun _ => rfl

/-- Reading the concatenated encodings of a list gives the decoded list back. -/
theorem consumes_times {p : Reader ε β α} {enc : γ → List β} {dec : γ → α}
    (h : ∀ c, Consumes p (enc c) (dec c)) (cs : List γ) :
    Consumes (times p cs.length) (cs.flatMap enc) (cs.map dec) := by
  induction cs with
  | nil => exact consumes_pure []
  | cons c cs ih => exact (h c).bind (ih.map (dec c :: ·))

/-- Fewer reads than there are encodings return the front. -/
theorem run_times_front {p : Reader ε β α} {enc : α → List β} (h : ∀ a, Consumes p (enc a) a)
    (as : List α) {k : Nat} (front : k ≤ as.length) (rest : List β) :
    ∃ left, (times p k).run (as.flatMap enc ++ rest) = .ok (as.take k, left) := by
  have read := consumes_times h (as.take k) ((as.drop k).flatMap enc ++ rest)
  rw [List.length_take_of_le front, List.map_id', ← List.append_assoc, ← List.flatMap_append,
    List.take_append_drop] at read
  exact ⟨_, read⟩

theorem run_bind_of_ok {p : Reader ε β α} {xs left : List β} {a : α} (h : p.run xs = .ok (a, left))
    (f : α → Reader ε β γ) : (p >>= f).run xs = (f a).run left := by
  rw [StateT.run_bind, h]
  rfl

theorem eq_cons_of_item {stop : ε} {xs rest : List β} {x : β}
    (h : (item stop).run xs = .ok (x, rest)) : xs = x :: rest := by
  cases xs with
  | nil => cases h
  | cons y ys =>
    cases h
    rfl

/-- A run that returns went through both parts. -/
theorem run_bind_ok {p : Reader ε β α} {f : α → Reader ε β γ} {xs rest : List β} {c : γ}
    (h : (p >>= f).run xs = .ok (c, rest)) :
    ∃ a left, p.run xs = .ok (a, left) ∧ (f a).run left = .ok (c, rest) := by
  rw [StateT.run_bind] at h
  cases hp : p.run xs with
  | error e =>
    rw [hp] at h
    cases h
  | ok r =>
    rw [hp] at h
    exact ⟨r.1, r.2, rfl, h⟩

theorem run_lift_ok {x : Except ε α} {xs rest : List β} {a : α}
    (h : (liftM x : Reader ε β α).run xs = .ok (a, rest)) : x = .ok a := by
  cases x with
  | error e => cases h
  | ok b =>
    cases h
    rfl

theorem length_of_times {p : Reader ε β α} {n : Nat} {xs rest : List β} {as : List α}
    (h : (times p n).run xs = .ok (as, rest)) : as.length = n := by
  induction n generalizing xs as with
  | zero =>
    cases h
    rfl
  | succ n ih =>
    obtain ⟨a, left, -, later⟩ := run_bind_ok h
    obtain ⟨as', left', many, last⟩ := run_bind_ok later
    cases last
    rw [List.length_cons, ih many]

theorem consumes_times_item (stop : ε) (xs : List β) :
    Consumes (times (item stop) xs.length) xs xs := by
  simpa using consumes_times (fun c => consumes_item stop c) xs

/-- A scan over concatenated encodings finds the first position whose decoded
value passes the test. -/
theorem scan_result {p : Reader ε β α} {enc : γ → List β} {dec : γ → α}
    (h : ∀ c, Consumes p (enc c) (dec c)) (test : α → Bool) (missing : Nat)
    (cs : List γ) (i : Nat) (rest : List β) :
    ∃ left, (scan p test missing cs.length i).run (cs.flatMap enc ++ rest) =
      .ok (((cs.map dec).findIdx? test).elim missing (i + ·), left) := by
  induction cs generalizing i with
  | nil => exact ⟨rest, rfl⟩
  | cons c cs ih =>
    rw [List.flatMap_cons, List.append_assoc, List.length_cons, scan, (h c).run_bind,
      List.map_cons, List.findIdx?_cons]
    by_cases hit : test (dec c)
    · rw [if_pos hit, if_pos hit]
      exact ⟨cs.flatMap enc ++ rest, rfl⟩
    · obtain ⟨left, later⟩ := ih (i + 1)
      refine ⟨left, ?_⟩
      rw [if_neg hit, if_neg hit, later]
      cases (cs.map dec).findIdx? test with
      | none => rfl
      | some j => simp [Nat.add_assoc, Nat.add_comm 1]

end Cursor
