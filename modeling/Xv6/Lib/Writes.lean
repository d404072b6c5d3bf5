import Mathlib.Data.List.Basic
import Mathlib.Logic.Function.Basic

/-!
# Lists of writes to a store

A store is a function from addresses to values; a list of writes is applied
from the left, a later write to an address hiding an earlier one. What the writes
give depends on the store before only where they write nothing
(`applyWrites_congr`), so that an interrupted replay of a log can be restarted.
-/

namespace StoreWrites

open Function

variable {α β : Type} [DecidableEq α]

/-- Apply the writes of a list to a store, in order. -/
def applyWrites : List (α × β) → (α → β) → α → β
  | [], d => d
  | (a, v) :: ws, d => applyWrites ws (update d a v)

theorem applyWrites_append (ws vs : List (α × β)) (d : α → β) :
    applyWrites (ws ++ vs) d = applyWrites vs (applyWrites ws d) := by
  induction ws generalizing d with
  | nil => rfl
  | cons w ws ih => simp only [List.cons_append, applyWrites, ih]

/-- The value at `x` after the writes depends on the store before only where
no write names `x`. -/
theorem applyWrites_congr {ws : List (α × β)} {d d' : α → β} {x : α}
    (h : x ∉ ws.map Prod.fst → d x = d' x) : applyWrites ws d x = applyWrites ws d' x := by
  induction ws generalizing d d' with
  | nil => exact h (by simp)
  | cons w ws ih =>
    apply ih
    intro hx
    by_cases hw : x = w.1
    · subst hw
      simp
    · rw [update_of_ne hw, update_of_ne hw]
      exact h (by simp [hw, hx])

end StoreWrites
