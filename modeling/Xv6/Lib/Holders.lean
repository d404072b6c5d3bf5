import Mathlib.Algebra.BigOperators.Group.Finset.Basic
import Mathlib.Algebra.Order.Group.Multiset
import Mathlib.Algebra.BigOperators.Group.Finset.Piecewise
import Mathlib.Data.Fintype.Card

/-!
# Counting holders

Many reference counts count the slots of a table that name one object.
`holders f a` is that number, and `holders_update` how it changes when one slot
does; `held f` is the multiset of what the slots hold, in which each object
occurs as often as it has holders.
-/

namespace Holders

open Function Finset

variable {ι α : Type} [Fintype ι] [DecidableEq ι] [DecidableEq α] {i : ι}

/-- How many slots of `f` hold `a`. -/
def holders (f : ι → Option α) (a : α) : Nat := (Finset.univ.filter fun i => f i = some a).card

variable {f : ι → Option α} {a : α}

omit [DecidableEq ι] in
theorem holders_eq_zero : holders f a = 0 ↔ ∀ i, f i ≠ some a := by simp [holders]

omit [DecidableEq ι] in
theorem holders_le_card : holders f a ≤ Fintype.card ι := card_filter_le _ _

omit [DecidableEq ι] in
theorem holders_pos (h : f i = some a) : 0 < holders f a :=
  Nat.pos_of_ne_zero fun hzero => holders_eq_zero.mp hzero i h

theorem holders_update (f : ι → Option α) (i : ι) (v : Option α) (a : α) :
    holders (update f i v) a + (if f i = some a then 1 else 0) =
      holders f a + (if v = some a then 1 else 0) := by
  simp only [holders, card_filter]
  rw [← add_sum_erase _ _ (mem_univ i),
    ← add_sum_erase _ (fun j => if f j = some a then 1 else 0) (mem_univ i)]
  have hrest : ∀ j ∈ univ.erase i,
      (if update f i v j = some a then 1 else 0) = if f j = some a then 1 else 0 := by
    intro j hj
    rw [update_of_ne (ne_of_mem_erase hj)]
  rw [sum_congr rfl hrest, update_self]
  omega

/-- What the slots of `f` hold. -/
def held (f : ι → Option α) : Multiset α := ∑ i, (f i).elim 0 fun a => {a}

omit [DecidableEq ι] in
theorem count_held (f : ι → Option α) (a : α) : (held f).count a = holders f a := by
  rw [held, Multiset.count_sum', holders, card_filter]
  refine sum_congr rfl fun i _ => ?_
  cases h : f i with
  | none => simp
  | some b => simp [Multiset.count_singleton, eq_comm]

omit [DecidableEq ι] in
theorem mem_held : a ∈ held f ↔ ∃ i, f i = some a := by
  rw [← Multiset.count_pos, count_held, Nat.pos_iff_ne_zero, ne_eq, holders_eq_zero]
  simp

omit [DecidableEq ι] [DecidableEq α] in
theorem held_eq_zero (h : ∀ i, f i = none) : held f = 0 := by
  refine sum_eq_zero fun i _ => ?_
  rw [h]
  rfl

/-- An empty slot that is filled adds what it gets. -/
theorem held_update_some (h : f i = none) : held (update f i (some a)) = a ::ₘ held f := by
  ext b
  have hupdate := holders_update f i (some a) b
  rw [h] at hupdate
  rw [count_held, Multiset.count_cons, count_held]
  by_cases hb : b = a
  · subst hb
    simpa using hupdate
  · have : a ≠ b := fun h => hb h.symm
    simpa [hb, this] using hupdate

/-- A slot that is emptied takes with it what it held. -/
theorem held_eq_cons (h : f i = some a) : held f = a ::ₘ held (update f i none) := by
  have hf : f = update (update f i none) i (some a) := by rw [update_idem, ← h, update_eq_self]
  conv_lhs => rw [hf]
  exact held_update_some (update_self ..)

-- A table may have many slots: what it holds is known by the rules above only.
attribute [irreducible] held

end Holders
