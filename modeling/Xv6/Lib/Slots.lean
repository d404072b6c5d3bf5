import Mathlib.Data.List.Basic
import Mathlib.Logic.Function.Basic

/-!
# Tables with free slots

A table has numbered slots, each with an entry — a key and a value — or free. A key is
looked up by going through the slots in order.

* `get f n x`      — the value of key `x` among the first `n` slots, and its slot.
* `Distinct f n`   — no key has two slots; then `get` is a map (`get_eq_some_iff`).
* `get_insert`, `get_erase` — putting an entry into a free slot, or one behind the last,
  adds its key to the map; freeing a slot removes one key.
-/

namespace Slots

open Function

variable {κ β : Type} [DecidableEq κ] {f g : Nat → Option (κ × β)} {n k : Nat} {x y : κ} {b : β}

/-- The value of the first entry for a key among the first `n` slots, and its slot. -/
def get (f : Nat → Option (κ × β)) (n : Nat) (x : κ) : Option (β × Nat) :=
  (List.range n).findSome? fun k => (f k).bind fun e => if e.1 = x then some (e.2, k) else none

/-- No key has two slots. -/
def Distinct (f : Nat → Option (κ × β)) (n : Nat) : Prop :=
  ∀ j k x b c, j < n → k < n → f j = some (x, b) → f k = some (x, c) → j = k

theorem bind_eq_some_iff : ((f k).bind fun e => if e.1 = x then some (e.2, k) else none) =
    some (b, n) ↔ f k = some (x, b) ∧ k = n := by
  cases hk : f k with
  | none => simp
  | some e =>
    obtain ⟨y, c⟩ := e
    by_cases hy : y = x <;> simp [hy]

theorem get_eq_none_iff : get f n x = none ↔ ∀ k, k < n → ∀ b, f k ≠ some (x, b) := by
  rw [get, List.findSome?_eq_none_iff]
  constructor
  · intro h k hk b hb
    have hnone := h k (List.mem_range.mpr hk)
    rw [bind_eq_some_iff.mpr ⟨hb, rfl⟩] at hnone
    cases hnone
  · intro h k hk
    by_contra hne
    obtain ⟨⟨b, m⟩, hb⟩ := Option.ne_none_iff_exists'.mp hne
    exact h k (List.mem_range.mp hk) b (bind_eq_some_iff.mp hb).1

/-- What is found is there. -/
theorem of_get_eq_some (h : get f n x = some (b, k)) : k < n ∧ f k = some (x, b) := by
  obtain ⟨j, hj, hfj⟩ := List.exists_of_findSome?_eq_some h
  obtain ⟨hb, rfl⟩ := bind_eq_some_iff.mp hfj
  exact ⟨List.mem_range.mp hj, hb⟩

/-- A key that has one slot is found there. -/
theorem get_eq_some_iff (h : Distinct f n) :
    get f n x = some (b, k) ↔ k < n ∧ f k = some (x, b) := by
  refine ⟨of_get_eq_some, fun ⟨hk, hfk⟩ => ?_⟩
  cases hget : get f n x with
  | none => exact absurd hfk (get_eq_none_iff.mp hget k hk b)
  | some r =>
    obtain ⟨c, j⟩ := r
    obtain ⟨hj, hfj⟩ := of_get_eq_some hget
    obtain rfl := h j k x c b hj hk hfj hfk
    rw [hfj] at hfk
    cases hfk
    rfl

/-- Two maps with the same entries for a key give the same answer. -/
theorem get_congr {m : Nat} (hf : Distinct f n) (hg : Distinct g m)
    (h : ∀ k b, k < m ∧ g k = some (x, b) ↔ k < n ∧ f k = some (x, b)) : get g m x = get f n x := by
  refine Option.ext fun r => ?_
  obtain ⟨b, k⟩ := r
  rw [get_eq_some_iff hf, get_eq_some_iff hg, h]

omit [DecidableEq κ] in
/-- Slots behind the last do not matter. -/
theorem Distinct.congr (h : Distinct f n) (hg : ∀ k, k < n → g k = f k) : Distinct g n := by
  intro i j y c d hi hj hgi hgj
  rw [hg i hi] at hgi
  rw [hg j hj] at hgj
  exact h i j y c d hi hj hgi hgj

theorem get_congr_of_eq (h : Distinct f n) (hg : ∀ k, k < n → g k = f k) (x : κ) :
    get g n x = get f n x :=
  get_congr h (h.congr hg) fun k _ => and_congr_right fun hk => by rw [hg k hk]

/-- **A new key** is put into a free slot, or one behind the last. -/
theorem get_insert (h : Distinct f n) (hx : get f n x = none) (hk : k ≤ n)
    (hfree : k < n → f k = none) (b : β) : Distinct (update f k (some (x, b))) (max n (k + 1)) ∧
    get (update f k (some (x, b))) (max n (k + 1)) x = some (b, k) ∧
    ∀ y, y ≠ x → get (update f k (some (x, b))) (max n (k + 1)) y = get f n y := by
  have hlt : ∀ j, j ≠ k → j < max n (k + 1) → j < n := by
    intro j hj hlt
    omega
  have hnew : Distinct (update f k (some (x, b))) (max n (k + 1)) := by
    intro i j y c d hi hj hfi hfj
    by_cases hik : i = k <;> by_cases hjk : j = k
    · rw [hik, hjk]
    · rw [hik, update_self] at hfi
      rw [update_of_ne hjk] at hfj
      cases hfi
      exact absurd hfj (get_eq_none_iff.mp hx j (hlt j hjk hj) d)
    · rw [hjk, update_self] at hfj
      rw [update_of_ne hik] at hfi
      cases hfj
      exact absurd hfi (get_eq_none_iff.mp hx i (hlt i hik hi) c)
    · rw [update_of_ne hik] at hfi
      rw [update_of_ne hjk] at hfj
      exact h i j y c d (hlt i hik hi) (hlt j hjk hj) hfi hfj
  refine ⟨hnew, ?_, fun y hy => get_congr h hnew fun j c => ?_⟩
  · rw [get_eq_some_iff hnew, update_self]
    exact ⟨by omega, rfl⟩
  · by_cases hjk : j = k
    · rw [hjk, update_self]
      refine ⟨fun ⟨_, heq⟩ => ?_, fun ⟨hlt, heq⟩ => ?_⟩
      · cases heq
        exact absurd rfl hy
      · rw [hfree hlt] at heq
        cases heq
    · rw [update_of_ne hjk]
      refine and_congr_left fun _ => ⟨hlt j hjk, fun hj => ?_⟩
      omega

/-- **A slot is freed**: its key is gone. -/
theorem get_erase (h : Distinct f n) (hk : k < n) (hfk : f k = some (x, b)) :
    Distinct (update f k none) n ∧ get (update f k none) n x = none ∧
    ∀ y, y ≠ x → get (update f k none) n y = get f n y := by
  have hnew : Distinct (update f k none) n := by
    intro i j y c d hi hj hfi hfj
    have hof : ∀ j y d, update f k none j = some (y, d) → f j = some (y, d) := by
      intro j y d hfj
      by_cases hjk : j = k
      · rw [hjk, update_self] at hfj
        cases hfj
      · rwa [update_of_ne hjk] at hfj
    exact h i j y c d hi hj (hof i y c hfi) (hof j y d hfj)
  refine ⟨hnew, get_eq_none_iff.mpr fun j hj c hfj => ?_,
    fun y hy => get_congr h hnew fun j c => ?_⟩
  · by_cases hjk : j = k
    · rw [hjk, update_self] at hfj
      cases hfj
    · rw [update_of_ne hjk] at hfj
      exact hjk (h j k x c b hj hk hfj hfk)
  · by_cases hjk : j = k
    · rw [hjk, update_self, hfk]
      refine ⟨fun h' => (Option.some_ne_none _ h'.2.symm).elim, fun ⟨_, heq⟩ => ?_⟩
      cases heq
      exact absurd rfl hy
    · rw [update_of_ne hjk]

end Slots
