import Mathlib.Data.List.Basic

/-!
# Machines that answer requests

A machine answers one request after another from its state. An answer may be the last
one: behind it the machine promises nothing, so a run ends there. One machine simulates
another if related states give equal answers and stay related; the requests of the one may
carry more than those of the other, and what they carry more then never shows.
-/

namespace Simulation

variable {σ τ ι κ ο : Type}

structure Machine (σ ι ο : Type) where
  step : σ → ι → ο × σ
  last : ο → Bool

/-- The answers to a list of requests, and the state behind the last of them. -/
def Machine.run (M : Machine σ ι ο) : σ → List ι → List ο × σ
  | s, [] => ([], s)
  | s, i :: requests =>
    let (answer, s') := M.step s i
    if M.last answer then ([answer], s')
    else
      let (answers, s'') := M.run s' requests
      (answer :: answers, s'')

structure Simulates (M : Machine σ ι ο) (N : Machine τ κ ο) (view : ι → κ)
    (Related : σ → τ → Prop) : Prop where
  last : M.last = N.last
  answer : ∀ {s t}, Related s t → ∀ i, (M.step s i).1 = (N.step t (view i)).1
  next : ∀ {s t}, Related s t → ∀ i, Related (M.step s i).2 (N.step t (view i)).2

/-- Runs from related states give the same answers and end in related states. -/
theorem Simulates.run {M : Machine σ ι ο} {N : Machine τ κ ο} {view : ι → κ}
    {Related : σ → τ → Prop} (h : Simulates M N view Related) (requests : List ι) {s : σ} {t : τ}
    (related : Related s t) :
    (M.run s requests).1 = (N.run t (requests.map view)).1 ∧
      Related (M.run s requests).2 (N.run t (requests.map view)).2 := by
  induction requests generalizing s t with
  | nil => exact ⟨rfl, related⟩
  | cons i requests ih =>
    have answer := h.answer related i
    have next := h.next related i
    obtain ⟨answers, final⟩ := ih next
    simp only [Machine.run, List.map_cons, ← answer, ← h.last]
    by_cases stop : M.last (M.step s i).1
    · simp only [if_pos stop]
      exact ⟨trivial, next⟩
    · simp only [if_neg stop]
      exact ⟨congrArg _ answers, final⟩

/-- What the view drops from the requests changes no answer. -/
theorem Simulates.run_eq_run {M : Machine σ ι ο} {N : Machine τ κ ο} {view : ι → κ}
    {Related : σ → τ → Prop} (h : Simulates M N view Related) {requests requests' : List ι}
    (same : requests.map view = requests'.map view) {s s' : σ} {t : τ} (related : Related s t)
    (related' : Related s' t) :
    (M.run s requests).1 = (M.run s' requests').1 ∧
      ∃ final, Related (M.run s requests).2 final ∧ Related (M.run s' requests').2 final := by
  obtain ⟨answers, final⟩ := h.run requests related
  obtain ⟨answers', final'⟩ := h.run requests' related'
  rw [← same] at answers' final'
  exact ⟨answers.trans answers'.symm, _, final, final'⟩

end Simulation
