import Mathlib.Data.List.Induction
import Mathlib.Data.List.Nodup
import Mathlib.Order.Lattice

/-!
# A search that takes what is below a bound

A search goes through rivals in a fixed order. What has to be beaten is a budget at first; a
rival whose bound is below it is taken, and from then on the cost of this rival has to be
beaten. Two searches with different budgets end with the same rival just if some rival is
taken by both: behind it they go on alike.
-/

namespace Contest

variable {α β : Type} [LinearOrder β] (bound cost : α → β)

/-- One rival; what has to be beaten is kept together with the rival taken last. -/
def step (s : β × Option α) (c : α) : β × Option α :=
  if bound c < s.1 then (cost c, some c) else s

def run (budget : β) (rivals : List α) : β × Option α :=
  rivals.foldl (step bound cost) (budget, none)

end Contest
