import Mathlib.Order.Defs.Unbundled

/-!
# What a call does to its object

A call that may throw leaves an object behind in either case. `Within R f` says that, from
every object, the one left behind is related to it, however the call ends. For a relation
that is a preorder the predicate follows the structure of the code: every part that keeps
to it makes a whole that does.
-/

namespace Frames

variable {ε σ α β : Type}

def Within (R : σ → σ → Prop) (f : ExceptT ε (StateM σ) α) : Prop :=
  ∀ s, R s ((ExceptT.run f).run s).2

theorem within_pure {R : σ → σ → Prop} [Std.Refl R] (a : α) :
    Within R (pure a : ExceptT ε (StateM σ) α) := fun s => refl_of R s

theorem within_throw {R : σ → σ → Prop} [Std.Refl R] (e : ε) :
    Within R (throw e : ExceptT ε (StateM σ) α) := fun s => refl_of R s

theorem within_modify {R : σ → σ → Prop} {g : σ → σ} (h : ∀ s, R s (g s)) :
    Within R (modify g : ExceptT ε (StateM σ) Unit) := fun s => h s

theorem within_lift {R : σ → σ → Prop} [Std.Refl R] (x : Except ε α) :
    Within R (liftM x : ExceptT ε (StateM σ) α) := by
  intro s
  cases x with
  | error e => exact refl_of R s
  | ok a => exact refl_of R s

/-- The rest runs on what the first part leaves, unless that throws. -/
theorem within_bind {R : σ → σ → Prop} [IsTrans σ R] {f : ExceptT ε (StateM σ) α}
    {k : α → ExceptT ε (StateM σ) β} (hf : Within R f) (hk : ∀ a, Within R (k a)) :
    Within R (f >>= k) := by
  intro s
  have first := hf s
  rw [ExceptT.run_bind, StateT.run_bind]
  generalize (ExceptT.run f).run s = result at first ⊢
  obtain ⟨outcome, s'⟩ := result
  cases outcome with
  | error e => exact first
  | ok a => exact trans_of R first (hk a s')

/-- A part that depends on the object it reads. -/
theorem within_get_bind {R : σ → σ → Prop} {k : σ → ExceptT ε (StateM σ) β}
    (hk : ∀ s, R s ((ExceptT.run (k s)).run s).2) : Within R (get >>= k) := fun s => hk s

end Frames
