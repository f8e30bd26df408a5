import Oroch.Library.Cursor

/-!
# Readers that do not look ahead

A reader is local if what it does is settled by the items it consumes: it returns behind a
front of its input, whatever follows; or the input ends too early; or it fails on every
continuation. Local readers compose. What such a reader consumes cannot be cut short: on
a shorter input it runs off the end. Encodings read by one reader are prefix-free.
-/

namespace Cursor

variable {ε β α γ : Type}

def Local (stop : ε) (p : Reader ε β α) : Prop :=
  ∀ xs, (∃ front rest a, xs = front ++ rest ∧ Consumes p front a) ∨ p.run xs = .error stop ∨
    ∃ e, ∀ ys, p.run (xs ++ ys) = .error e

section Rules

variable {stop : ε}

theorem local_pure (a : α) : Local stop (pure a : Reader ε β α) :=
  fun xs => .inl ⟨[], xs, a, rfl, consumes_pure a⟩

theorem local_item : Local stop (item stop : Reader ε β β) := by
  intro xs
  cases xs with
  | nil => exact .inr (.inl rfl)
  | cons x rest => exact .inl ⟨[x], rest, x, rfl, consumes_item stop x⟩

/-- A result that does not depend on the input. -/
theorem local_lift (x : Except ε α) : Local stop (liftM x : Reader ε β α) := by
  intro xs
  cases x with
  | error e => exact .inr (.inr ⟨e, fun _ => rfl⟩)
  | ok a => exact .inl ⟨[], xs, a, rfl, fun _ => rfl⟩

theorem Local.bind {p : Reader ε β α} {f : α → Reader ε β γ} (hp : Local stop p)
    (hf : ∀ a, Local stop (f a)) : Local stop (p >>= f) := by
  intro xs
  rcases hp xs with ⟨front, rest, a, rfl, read⟩ | ended | ⟨e, fails⟩
  · rcases hf a rest with ⟨front', rest', c, rfl, read'⟩ | ended | ⟨e, fails⟩
    · exact .inl ⟨front ++ front', rest', c, (List.append_assoc ..).symm, read.bind read'⟩
    · exact .inr (.inl ((read.run_bind f rest).trans ended))
    · refine .inr (.inr ⟨e, fun ys => ?_⟩)
      rw [List.append_assoc]
      exact (read.run_bind f (rest ++ ys)).trans (fails ys)
  · refine .inr (.inl ?_)
    rw [StateT.run_bind, ended]
    rfl
  · refine .inr (.inr ⟨e, fun ys => ?_⟩)
    rw [StateT.run_bind, fails ys]
    rfl

theorem Local.map {p : Reader ε β α} (hp : Local stop p) (f : α → γ) :
    Local stop (do let a ← p; pure (f a)) := hp.bind fun a => local_pure (f a)

theorem local_ite {c : Prop} [Decidable c] {p q : Reader ε β α} (hp : Local stop p)
    (hq : Local stop q) : Local stop (if c then p else q) := by
  split
  · exact hp
  · exact hq

theorem local_times {p : Reader ε β α} (hp : Local stop p) (n : Nat) :
    Local stop (times p n) := by
  induction n with
  | zero => exact local_pure []
  | succ n ih => exact hp.bind fun a => ih.map (a :: ·)

end Rules

/-- What a local reader consumed, it consumes whatever follows. -/
theorem Local.consumed {stop : ε} {p : Reader ε β α} (hp : Local stop p) {xs rest : List β}
    {a : α} (run : p.run xs = .ok (a, rest)) : ∃ front, xs = front ++ rest ∧ Consumes p front a := by
  rcases hp xs with ⟨front, rest', b, rfl, read⟩ | ended | ⟨e, fails⟩
  · obtain ⟨rfl, rfl⟩ := Prod.mk.injEq .. ▸ Except.ok.inj ((read rest').symm.trans run)
    exact ⟨front, rfl, read⟩
  · rw [ended] at run
    cases run
  · have failed := fails []
    rw [List.append_nil, run] at failed
    cases failed

/-- On less than it consumes, a local reader runs off the end. -/
theorem Local.run_of_short {stop : ε} {p : Reader ε β α} (hp : Local stop p) {xs ys : List β}
    {a : α} (read : Consumes p xs a) (front : ys <+: xs) (short : ys.length < xs.length) :
    p.run ys = .error stop := by
  obtain ⟨zs, rfl⟩ := front
  have whole := read []
  rw [List.append_nil] at whole
  rcases hp ys with ⟨front, rest, b, rfl, read'⟩ | ended | ⟨e, fails⟩
  · have early := read' (rest ++ zs)
    rw [← List.append_assoc, whole] at early
    obtain ⟨-, empty⟩ := List.append_eq_nil_iff.mp
      (congrArg Prod.snd (Except.ok.inj early)).symm
    rw [empty, List.append_nil] at short
    exact absurd short (Nat.lt_irrefl _)
  · exact ended
  · rw [fails zs] at whole
    simp at whole

/-- No encoding is the beginning of another one, and what follows does not matter. -/
theorem Consumes.prefix_free {p : Reader ε β α} {xs ys rest rest' : List β} {a b : α}
    (hx : Consumes p xs a) (hy : Consumes p ys b) (same : xs ++ rest = ys ++ rest') :
    xs = ys ∧ a = b ∧ rest = rest' := by
  have read := hx rest
  rw [same, hy rest'] at read
  obtain ⟨rfl, rfl⟩ := Prod.mk.injEq .. ▸ Except.ok.inj read
  exact ⟨List.append_cancel_right same, rfl, rfl⟩

end Cursor
