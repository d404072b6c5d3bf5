import Mathlib.Data.List.Basic
import Mathlib.Data.BitVec
import Mathlib.Data.Int.ModEq
import Mathlib.Logic.Function.Basic
import Mathlib.Tactic.Abel

/-!
# Circular buffers with wrapping counters

A buffer of `N` slots filled and emptied through free-running counters of `w` bits:
the item counter `a` stands for is in slot `a % N`. The counters wrap, but if `N`
divides their range the slot of a wrapped counter is that of the true one, and only
the distance from one counter to another matters.

* `dist a b`        — how far the counter `b` is ahead of `a`.
* `window N buf a b` — the items from counter `a` up to counter `b`.
* `window_snoc`, `window_cons`, `window_pred`, `window_append`, `window_update` —
  what moving a counter or filling a slot does to a window.
-/

namespace WrappedRing

open Function List

variable {α : Type} {N w : Nat} {buf : Nat → α} {a b c : BitVec w}

/-- How far the counter `b` is ahead of `a`. -/
def dist (a b : BitVec w) : Nat := (b - a).toNat

/-- The items from counter `a` up to counter `b`. -/
def window (N : Nat) (buf : Nat → α) (a b : BitVec w) : List α :=
  (List.range (dist a b)).map fun k => buf ((a.toNat + k) % N)

/-! ### Distances -/

theorem dist_lt (a b : BitVec w) : dist a b < 2 ^ w := (b - a).isLt

@[simp] theorem dist_self (a : BitVec w) : dist a a = 0 := by
  rw [dist, sub_self]
  exact BitVec.toNat_zero

theorem toNat_eq_zero {x : BitVec w} : x.toNat = 0 ↔ x = 0 := by
  rw [← BitVec.toNat_inj]
  exact Iff.of_eq (congrArg (x.toNat = ·) (Nat.zero_mod (2 ^ w)).symm)

theorem dist_eq_zero_iff : dist a b = 0 ↔ a = b := by rw [dist, toNat_eq_zero, sub_eq_zero, eq_comm]

/-- Distances add up as long as the sum does not wrap. -/
theorem dist_add (h : dist a b + dist b c < 2 ^ w) : dist a c = dist a b + dist b c := by
  have hsum : c - a = (b - a) + (c - b) := by abel
  rw [dist, hsum, BitVec.toNat_add]
  exact Nat.mod_eq_of_lt h

/-- Counting on, short of a wrap. -/
theorem toNat_add_one {x : BitVec w} (h : x + 1 ≠ 0) : (x + 1).toNat = x.toNat + 1 := by
  have hlt := x.isLt
  have hsum := BitVec.toNat_add x 1
  have hne : (x + 1).toNat ≠ 0 := fun hzero => h (toNat_eq_zero.mp hzero)
  by_cases hw : 1 < 2 ^ w
  · have hone : (1 : BitVec w).toNat = 1 := Nat.mod_eq_of_lt hw
    rw [hone] at hsum
    by_cases hwrap : x.toNat + 1 = 2 ^ w
    · rw [hwrap, Nat.mod_self] at hsum
      exact absurd hsum hne
    · rw [hsum, Nat.mod_eq_of_lt (by omega)]
  · have hlt' := (x + 1).isLt
    omega

theorem dist_sub_one (h : a ≠ b) : dist a b = dist a (b - 1) + 1 := by
  have heq : b - a = (b - 1 - a) + 1 := by abel
  have hne : b - 1 - a + 1 ≠ 0 := by
    rw [← heq, sub_ne_zero]
    exact Ne.symm h
  rw [dist, heq, toNat_add_one hne]
  rfl

theorem dist_succ_left (h : a ≠ b) : dist a b = dist (a + 1) b + 1 := by
  have heq : b - a = (b - (a + 1)) + 1 := by abel
  have hne : b - (a + 1) + 1 ≠ 0 := by
    rw [← heq, sub_ne_zero]
    exact Ne.symm h
  rw [dist, heq, toNat_add_one hne]
  rfl

theorem dist_add_one (h : dist a b + 1 < 2 ^ w) : dist a (b + 1) = dist a b + 1 := by
  have heq : b + 1 - a = (b - a) + 1 := by abel
  have hne : b - a + 1 ≠ 0 := by
    intro hzero
    have hsum := BitVec.toNat_add (b - a) 1
    have hw : 1 < 2 ^ w := by omega
    have hone : (1 : BitVec w).toNat = 1 := Nat.mod_eq_of_lt hw
    have hlt : (b - a).toNat + 1 < 2 ^ w := h
    rw [toNat_eq_zero.mpr hzero, hone, Nat.mod_eq_of_lt hlt] at hsum
    cases hsum
  rw [dist, heq, toNat_add_one hne]
  rfl

/-! ### Windows -/

@[simp] theorem length_window : (window N buf a b).length = dist a b := by
  rw [window, length_map, length_range]

@[simp] theorem window_self : window N buf a a = [] := by
  rw [window, dist_self]
  rfl

section Slots

variable (hN : N ∣ 2 ^ w)

include hN

/-- The slot of a counter, seen from another one. -/
theorem slot_eq (a b : BitVec w) : b.toNat % N = (a.toNat + dist a b) % N := by
  have hsum : b = a + (b - a) := by abel
  have hmod : b.toNat = (a.toNat + dist a b) % 2 ^ w := by
    conv_lhs => rw [hsum]
    exact BitVec.toNat_add _ _
  rw [hmod, Nat.mod_mod_of_dvd _ hN]

theorem window_append (h : dist a b + dist b c < 2 ^ w) :
    window N buf a c = window N buf a b ++ window N buf b c := by
  unfold window
  rw [dist_add h, range_add, map_append, map_map]
  congr 1
  refine map_congr_left fun k _ => ?_
  simp only [comp_apply]
  rw [Nat.add_mod b.toNat, slot_eq hN a b, ← Nat.add_mod, Nat.add_assoc]

theorem window_snoc (h : dist a b + 1 < 2 ^ w) :
    window N buf a (b + 1) = window N buf a b ++ [buf (b.toNat % N)] := by
  unfold window
  rw [dist_add_one h, range_succ, map_append, map_singleton, slot_eq hN a b]

theorem window_cons (h : a ≠ b) :
    window N buf a b = buf (a.toNat % N) :: window N buf (a + 1) b := by
  unfold window
  rw [dist_succ_left h, range_succ_eq_map, map_cons, map_map]
  congr 1
  refine map_congr_left fun k _ => ?_
  simp only [comp_apply]
  have hslot : (a + 1).toNat % N = (a.toNat + 1) % N := by
    rw [BitVec.toNat_add, Nat.mod_mod_of_dvd _ hN, Nat.add_mod, Nat.add_mod a.toNat 1]
    congr 2
    exact Nat.mod_mod_of_dvd _ hN
  rw [Nat.add_mod (a + 1).toNat, hslot, ← Nat.add_mod, Nat.add_assoc,
    Nat.add_comm 1 k]

theorem window_pred (h : a ≠ b) :
    window N buf a b = window N buf a (b - 1) ++ [buf ((b - 1).toNat % N)] := by
  have hdist := dist_sub_one h
  have hlt := dist_lt a b
  rw [← window_snoc hN (by omega), sub_add_cancel]

/-- The slot behind a window that is not full is none of the window's. -/
theorem window_update (h : dist a b < N) (x : α) :
    window N (update buf (b.toNat % N) x) a b = window N buf a b := by
  refine map_congr_left fun k hk => ?_
  have hk := mem_range.mp hk
  refine update_of_ne ?_ _ _
  rw [slot_eq hN a b]
  intro heq
  have hdvd : N ∣ (a.toNat + dist a b) - (a.toNat + k) :=
    (Nat.modEq_iff_dvd' (by omega)).mp heq
  have hle := Nat.le_of_dvd (by omega) hdvd
  omega

end Slots

end WrappedRing
