import Mathlib.Control.Monad.Writer
import Oroch.Library.Cursor

/-!
# Computations that note events

A traced computation returns a value and the events it met on the way, in order.
Forgetting the events gives the plain computation; `Always` says that every event
satisfies a predicate. Both are computed along the structure of a program: a
sequence meets the events of its parts, a loop keeps to a predicate when each step
does from the states that an invariant allows.

The same is set up for computations that may fail, where the events up to the
failure count, and for readers over a cursor. Nothing here fixes the events.
-/

namespace Trace

variable {ε α β γ σ : Type}

abbrev Traced (ε α : Type) := Writer (List ε) α

/-- The result, without the events. -/
def value (x : Traced ε α) : α := x.run.1

def events (x : Traced ε α) : List ε := x.run.2

/-- Meet an event. -/
def note (e : ε) : Traced ε Unit := tell [e]

/-- Meet several events. -/
def noteAll (es : List ε) : Traced ε Unit := tell es

/-- Every event satisfies the predicate. -/
def Always (P : ε → Prop) (x : Traced ε α) : Prop := ∀ e ∈ events x, P e

@[simp] theorem value_pure (a : α) : value (pure a : Traced ε α) = a := rfl

@[simp] theorem value_bind (x : Traced ε α) (f : α → Traced ε β) :
    value (x >>= f) = value (f (value x)) := rfl

@[simp] theorem value_note (e : ε) : value (note e) = () := rfl

@[simp] theorem value_ite (c : Prop) [Decidable c] (x y : Traced ε α) :
    value (if c then x else y) = if c then value x else value y := apply_ite value c x y

theorem events_bind (x : Traced ε α) (f : α → Traced ε β) :
    events (x >>= f) = events x ++ events (f (value x)) := rfl

@[simp] theorem always_pure (P : ε → Prop) (a : α) : Always P (pure a) := by
  intro e he
  exact absurd he List.not_mem_nil

@[simp] theorem always_note (P : ε → Prop) (e : ε) : Always P (note e) ↔ P e :=
  List.forall_mem_singleton

@[simp] theorem always_noteAll (P : ε → Prop) (es : List ε) :
    Always P (noteAll es) ↔ ∀ e ∈ es, P e := Iff.rfl

@[simp] theorem always_bind (P : ε → Prop) (x : Traced ε α) (f : α → Traced ε β) :
    Always P (x >>= f) ↔ Always P x ∧ Always P (f (value x)) := by
  rw [Always, events_bind]
  exact List.forall_mem_append

theorem always_ite {P : ε → Prop} {c : Prop} [Decidable c] {x y : Traced ε α}
    (yes : c → Always P x) (no : ¬c → Always P y) : Always P (if c then x else y) := by
  split
  · exact yes ‹_›
  · exact no ‹_›

theorem always_mono {P Q : ε → Prop} (h : ∀ e, P e → Q e) {x : Traced ε α} (always : Always P x) :
    Always Q x := fun e he => h e (always e he)

/-- A loop without its events is the loop over its step without events. -/
theorem value_foldlM (step : σ → α → Traced ε σ) (xs : List α) (s : σ) :
    value (xs.foldlM step s) = xs.foldl (fun s x => value (step s x)) s := by
  induction xs generalizing s with
  | nil => rfl
  | cons x xs ih => rw [List.foldlM_cons, value_bind, ih, List.foldl_cons]

/-- Each step keeps an invariant, and from a state that it allows meets good events only:
so does the loop. -/
theorem always_foldlM {P : ε → Prop} (Inv : σ → Prop) {step : σ → α → Traced ε σ} {xs : List α}
    {s : σ} (start : Inv s)
    (next : ∀ s, ∀ x ∈ xs, Inv s → Always P (step s x) ∧ Inv (value (step s x))) :
    Always P (xs.foldlM step s) := by
  induction xs generalizing s with
  | nil => exact always_pure P s
  | cons x xs ih =>
    obtain ⟨here, kept⟩ := next s x List.mem_cons_self start
    rw [List.foldlM_cons, always_bind]
    exact ⟨here, ih kept fun s y hy => next s y (List.mem_cons_of_mem x hy)⟩

/-- The same over consecutive keys, with an invariant that names the key. -/
theorem always_foldlM_range' {P : ε → Prop} (Inv : Nat → σ → Prop) {step : σ → Nat → Traced ε σ}
    {a : Nat} (n : Nat) {s : σ} (start : Inv a s)
    (next : ∀ k s, a ≤ k → k < a + n → Inv k s →
      Always P (step s k) ∧ Inv (k + 1) (value (step s k))) :
    Always P ((List.range' a n).foldlM step s) := by
  induction n generalizing a s with
  | zero => exact always_pure P s
  | succ n ih =>
    obtain ⟨here, kept⟩ := next a s (Nat.le_refl a) (by omega) start
    rw [List.range'_succ, List.foldlM_cons, always_bind]
    refine ⟨here, ih kept ?_⟩
    intro k s above below
    exact next k s (by omega) (by omega)

section Fallible

variable {err : Type}

abbrev Fallible (ε err α : Type) := ExceptT err (Writer (List ε)) α

/-- The outcome, without the events. -/
def outcome (x : Fallible ε err α) : Except err α := value x.run

/-- A computation that does not fail. -/
def succeeds (x : Traced ε α) : Fallible ε err α := ExceptT.lift x

/-- An outcome that is met without events. -/
def silent (x : Except err α) : Fallible ε err α := ExceptT.mk (pure x)

@[simp] theorem outcome_succeeds (x : Traced ε α) :
    outcome (succeeds x : Fallible ε err α) = .ok (value x) := rfl

@[simp] theorem outcome_silent (x : Except err α) :
    outcome (silent x : Fallible ε err α) = x := rfl

theorem outcome_bind (x : Fallible ε err α) (f : α → Fallible ε err β) :
    outcome (x >>= f) = outcome x >>= fun a => outcome (f a) := by
  change value (x.run >>= _) = _
  rw [value_bind, outcome]
  cases value x.run with
  | error _ => rfl
  | ok a => rfl

@[simp] theorem always_succeeds (P : ε → Prop) (x : Traced ε α) :
    Always P (succeeds x : Fallible ε err α).run ↔ Always P x := Iff.rfl

@[simp] theorem always_silent (P : ε → Prop) (x : Except err α) :
    Always P (silent x : Fallible ε err α).run := always_pure P x

theorem silent_ok_bind (a : α) (f : α → Fallible ε err β) : silent (.ok a) >>= f = f a := rfl

theorem always_succeeds_bind (P : ε → Prop) (x : Traced ε α) (f : α → Fallible ε err β) :
    Always P (succeeds x >>= f).run ↔ Always P x ∧ Always P (f (value x)).run :=
  always_bind P (succeeds x : Fallible ε err α).run _

/-- The second part meets its events only if the first succeeds. -/
theorem always_fallible_bind {P : ε → Prop} {x : Fallible ε err α} {f : α → Fallible ε err β}
    (first : Always P x.run) (second : ∀ a, Always P (f a).run) : Always P (x >>= f).run := by
  change Always P (x.run >>= _)
  rw [always_bind]
  refine ⟨first, ?_⟩
  cases value x.run with
  | error _ => exact always_pure P _
  | ok a => exact second a

/-- The first part meets its events whatever follows. -/
theorem always_of_fallible_bind {P : ε → Prop} {x : Fallible ε err α}
    {f : α → Fallible ε err β} (always : Always P (x >>= f).run) : Always P x.run :=
  ((always_bind P x.run _).mp always).1

end Fallible

section Readers

variable {err : Type}

abbrev TracedReader (ε err β α : Type) := StateT (List β) (ExceptT err (Writer (List ε))) α

/-- The reader, without the events. -/
def reader (p : TracedReader ε err β α) : Cursor.Reader err β α :=
  fun input => outcome (p.run input)

/-- A reader that meets no events. -/
def plain (p : Cursor.Reader err β α) : TracedReader ε err β α :=
  fun input => ExceptT.mk (pure (p.run input))

/-- Meet an event before reading on. -/
def noteRead (e : ε) : TracedReader ε err β Unit :=
  fun input => succeeds (do note e; pure ((), input))

/-- Compute with events between two reads. -/
def traced (x : Traced ε α) : TracedReader ε err β α :=
  fun input => succeeds (do let a ← x; pure (a, input))

/-- Whatever the input, every event satisfies the predicate. -/
def AlwaysReads (P : ε → Prop) (p : TracedReader ε err β α) : Prop :=
  ∀ input, Always P (p.run input).run

@[simp] theorem reader_plain (p : Cursor.Reader err β α) :
    reader (plain p : TracedReader ε err β α) = p := rfl

@[simp] theorem reader_noteRead (e : ε) :
    reader (noteRead e : TracedReader ε err β Unit) = pure () := rfl

theorem reader_bind (p : TracedReader ε err β α) (f : α → TracedReader ε err β γ) :
    reader (p >>= f) = reader p >>= fun a => reader (f a) := by
  funext input
  exact outcome_bind (p.run input) _

@[simp] theorem reader_traced (x : Traced ε α) :
    reader (traced x : TracedReader ε err β α) = pure (value x) := rfl

@[simp] theorem always_traced (P : ε → Prop) (x : Traced ε α) (input : List β) :
    Always P ((traced x : TracedReader ε err β α).run input).run ↔ Always P x := by
  change Always P (do let a ← x; pure (a, input) : Traced ε (α × List β)) ↔ Always P x
  rw [always_bind]
  exact and_iff_left (always_pure P _)

/-- Behind a reader without events, those of the rest of the program remain. -/
theorem run_plain_bind {p : Cursor.Reader err β α} {xs : List β} {a : α}
    (hp : Cursor.Consumes p xs a) (f : α → TracedReader ε err β γ) (rest : List β) :
    (plain p >>= f).run (xs ++ rest) = (f a).run rest := by
  change silent (p.run (xs ++ rest)) >>= (fun result => (f result.1).run result.2) = _
  rw [hp rest]
  rfl

theorem alwaysReads_plain (P : ε → Prop) (p : Cursor.Reader err β α) :
    AlwaysReads P (plain p : TracedReader ε err β α) := by
  intro input
  exact always_pure P _

theorem alwaysReads_noteRead {P : ε → Prop} {e : ε} (h : P e) :
    AlwaysReads P (noteRead e : TracedReader ε err β Unit) := by
  intro input
  change Always P (succeeds (do note e; pure ((), input)) : Fallible ε err (Unit × List β)).run
  rw [always_succeeds, always_bind, always_note]
  exact ⟨h, always_pure P _⟩

theorem alwaysReads_bind {P : ε → Prop} {p : TracedReader ε err β α}
    {f : α → TracedReader ε err β γ} (first : AlwaysReads P p)
    (second : ∀ a, AlwaysReads P (f a)) : AlwaysReads P (p >>= f) := by
  intro input
  exact always_fallible_bind (first input) fun result => second result.1 result.2

end Readers

end Trace
