import Mathlib.Algebra.Order.Group.Multiset
import Mathlib.Data.Multiset.Filter
import Mathlib.Data.Multiset.Range

/-!
# The values of a partial map

`values f n` is the multiset of the values a partial map `f` takes on the keys
below `n`. Adding or removing a key adds or removes one value; a map defined on
many keys has many values.
-/

namespace PartialMap

open Function Multiset

variable {α : Type} {f g : Nat → Option α} {n i : Nat} {x : α}

/-- The values at the keys below `n`. -/
def values (f : Nat → Option α) (n : Nat) : Multiset α := (Multiset.range n).filterMap f

@[simp] theorem values_zero (f : Nat → Option α) : values f 0 = 0 := by simp [values]

theorem values_succ (f : Nat → Option α) (n : Nat) :
    values f (n + 1) = (f n).elim 0 (fun x => {x}) + values f n := by
  cases h : f n with
  | none => simp [values, filterMap_cons_none _ _ h]
  | some x => simp [values, filterMap_cons_some f _ _ h]

theorem values_congr (h : ∀ i, i < n → f i = g i) : values f n = values g n := by
  induction n with
  | zero => simp
  | succ n ih =>
    rw [values_succ, values_succ, h n (Nat.lt_succ_self n),
      ih fun i hi => h i (Nat.lt_succ_of_lt hi)]

theorem values_eq_zero (h : ∀ i, i < n → f i = none) : values f n = 0 := by
  induction n with
  | zero => simp
  | succ n ih =>
    rw [values_succ, h n (Nat.lt_succ_self n), ih fun i hi => h i (Nat.lt_succ_of_lt hi)]
    rfl

theorem mem_values : x ∈ values f n ↔ ∃ i, i < n ∧ f i = some x := by simp [values]

/-- Keys from `n` on do not count. -/
theorem values_update_of_le {e : Option α} (h : n ≤ i) : values (update f i e) n = values f n :=
  values_congr fun _ hj => update_of_ne (Nat.ne_of_lt (hj.trans_le h)) ..

/-- A new key adds its value. -/
theorem values_update_some (hi : i < n) (h : f i = none) :
    values (update f i (some x)) n = x ::ₘ values f n := by
  induction n with
  | zero => omega
  | succ n ih =>
    rw [values_succ, values_succ]
    rcases Nat.lt_succ_iff_lt_or_eq.mp hi with hlt | rfl
    · rw [update_of_ne (by omega), ih hlt, add_cons]
    · rw [values_update_of_le le_rfl, h]
      simp

/-- A key removed takes its value with it. -/
theorem values_eq_cons_update (hi : i < n) (h : f i = some x) :
    values f n = x ::ₘ values (update f i none) n := by
  have hf : f = update (update f i none) i (some x) := by rw [update_idem, ← h, update_eq_self]
  conv_lhs => rw [hf]
  exact values_update_some hi (update_self ..)

/-- A map without repeated values is injective. -/
theorem eq_of_nodup_values {j : Nat} (h : (values f n).Nodup) (hi : i < n) (hj : j < n)
    (hx : f i = some x) (hx' : f j = some x) : i = j := by
  by_contra hij
  rw [values_eq_cons_update hi hx] at h
  refine (nodup_cons.mp h).1 (mem_values.mpr ⟨j, hj, ?_⟩)
  rw [update_of_ne (Ne.symm hij), hx']

/-- A map defined below `k` has at least `k` values. -/
theorem le_card_values {k : Nat} (hk : k ≤ n) (h : ∀ i, i < k → f i ≠ none) :
    k ≤ (values f n).card := by
  induction n generalizing k with
  | zero => omega
  | succ n ih =>
    rw [values_succ, card_add]
    rcases Nat.lt_succ_iff_lt_or_eq.mp (Nat.lt_succ_of_le hk) with hlt | rfl
    · exact (ih (Nat.lt_succ_iff.mp hlt) h).trans (Nat.le_add_left ..)
    · obtain ⟨x, hx⟩ := Option.ne_none_iff_exists'.mp (h n (Nat.lt_succ_self n))
      have := ih le_rfl fun i hi => h i (Nat.lt_succ_of_lt hi)
      rw [hx]
      simp only [Option.elim, card_singleton]
      omega

-- A map may have many keys: from here on its values are known by the rules above only.
attribute [irreducible] values

end PartialMap
