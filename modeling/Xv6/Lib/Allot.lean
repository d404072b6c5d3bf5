import Mathlib.Order.Basic
import Mathlib.Order.Nat

/-!
# Allotments

Numbered resources are handed out to positions: `f i` is the resource position `i`
holds, 0 if it holds none. Resources below `lo` are reserved, those from `hi` on do
not exist.

* `Exact f used lo hi` — no resource is held twice, none that is reserved is held,
  and the map `used` marks those that are held or reserved, and no others.
* `Exact.take`, `Exact.give` — a position takes a resource that is not used, or gives
  back the one it holds.
-/

namespace Allotment

open Function

variable {ι : Type} {f g : ι → Nat} {used : Nat → Bool} {lo hi b : Nat} {i : ι}

/-- What is held is held once, and `used` says exactly what is held or reserved. -/
structure Exact (f : ι → Nat) (used : Nat → Bool) (lo hi : Nat) : Prop where
  pos : 0 < lo
  reserved : ∀ b, b < lo → used b = true
  range : ∀ i, f i ≠ 0 → lo ≤ f i ∧ f i < hi
  unique : ∀ i j, f i ≠ 0 → f i = f j → i = j
  used_iff : ∀ b, lo ≤ b → b < hi → (used b = true ↔ ∃ i, f i = b)

namespace Exact

theorem congr (h : Exact f used lo hi) (hfg : ∀ i, g i = f i) : Exact g used lo hi := by
  rwa [funext hfg]

theorem used_of_held (h : Exact f used lo hi) (hf : f i ≠ 0) : used (f i) = true := by
  obtain ⟨hlo, hhi⟩ := h.range i hf
  exact (h.used_iff _ hlo hhi).mpr ⟨i, rfl⟩

/-- A resource that is not used is not reserved, and nobody holds it. -/
theorem of_free (h : Exact f used lo hi) (hb : used b = false) : lo ≤ b ∧ ∀ i, f i ≠ b := by
  have hlo : lo ≤ b := by
    by_contra hlt
    rw [h.reserved b (not_le.mp hlt)] at hb
    cases hb
  refine ⟨hlo, fun i hi => ?_⟩
  have hpos := h.pos
  rw [← hi, h.used_of_held (by omega)] at hb
  cases hb

variable [DecidableEq ι]

/-- A position takes a resource. -/
theorem take (h : Exact f used lo hi) (hf : f i = 0) (hb : b < hi) (hfree : used b = false) :
    Exact (update f i b) (update used b true) lo hi := by
  obtain ⟨hlo, hnew⟩ := h.of_free hfree
  have hpos := h.pos
  refine ⟨hpos, fun c hc => ?_, fun j hj => ?_, fun j j' hj heq => ?_, fun c hclo hchi => ?_⟩
  · rw [update_of_ne (by omega)]
    exact h.reserved c hc
  · by_cases hji : j = i
    · rw [hji, update_self]
      exact ⟨hlo, hb⟩
    · rw [update_of_ne hji] at hj ⊢
      exact h.range j hj
  · by_cases hji : j = i <;> by_cases hji' : j' = i
    · rw [hji, hji']
    · rw [hji, update_self, update_of_ne hji'] at heq
      exact absurd heq.symm (hnew j')
    · rw [hji', update_self, update_of_ne hji] at heq
      exact absurd heq (hnew j)
    · rw [update_of_ne hji] at hj heq
      rw [update_of_ne hji'] at heq
      exact h.unique j j' hj heq
  · by_cases hcb : c = b
    · rw [hcb, update_self]
      exact iff_of_true rfl ⟨i, update_self ..⟩
    · rw [update_of_ne hcb, h.used_iff c hclo hchi]
      refine ⟨fun ⟨j, hj⟩ => ⟨j, ?_⟩, fun ⟨j, hj⟩ => ⟨j, ?_⟩⟩
      · rw [update_of_ne, hj]
        rintro rfl
        omega
      · rwa [update_of_ne] at hj
        rintro rfl
        rw [update_self] at hj
        exact hcb hj.symm

/-- A position gives back what it holds. -/
theorem give (h : Exact f used lo hi) (hf : f i ≠ 0) :
    Exact (update f i 0) (update used (f i) false) lo hi := by
  obtain ⟨hlo, hhi⟩ := h.range i hf
  have hother : ∀ j, update f i 0 j ≠ 0 → j ≠ i ∧ update f i 0 j = f j := by
    intro j hj
    by_cases hji : j = i
    · rw [hji, update_self] at hj
      exact absurd rfl hj
    · exact ⟨hji, update_of_ne hji ..⟩
  refine ⟨h.pos, fun c hc => ?_, fun j hj => ?_, fun j j' hj heq => ?_, fun c hclo hchi => ?_⟩
  · rw [update_of_ne (by omega)]
    exact h.reserved c hc
  · have hfj := (hother j hj).2
    rw [hfj] at hj ⊢
    exact h.range j hj
  · obtain ⟨-, hj'⟩ := hother j' (heq ▸ hj)
    have hfj := (hother j hj).2
    rw [hfj] at hj heq
    exact h.unique j j' hj (heq.trans hj')
  · by_cases hc : c = f i
    · rw [hc, update_self]
      refine iff_of_false nofun ?_
      rintro ⟨j, hj⟩
      obtain ⟨hji, hfj⟩ := hother j (hj ▸ hf)
      exact hji (h.unique i j hf (hj.symm.trans hfj)).symm
    · rw [update_of_ne hc, h.used_iff c hclo hchi]
      refine ⟨fun ⟨j, hj⟩ => ⟨j, ?_⟩, fun ⟨j, hj⟩ => ⟨j, ?_⟩⟩
      · rw [update_of_ne, hj]
        rintro rfl
        exact hc hj.symm
      · have hpos := h.pos
        rw [← hj, (hother j (by omega)).2]

end Exact

end Allotment
