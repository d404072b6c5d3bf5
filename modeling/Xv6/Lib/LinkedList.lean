import Mathlib.Data.List.Nodup

/-!
# Linked lists that end

`Chain null next a L`: following `next` from `a` visits the nodes `L` in turn
and ends at `null`.
-/

namespace LinkedList

variable {α : Type} {null a : α} {next next' : α → α} {L : List α}

/-- From `a` the nodes `L` are visited before `null` is met. -/
inductive Chain (null : α) (next : α → α) : α → List α → Prop
  | nil : Chain null next null []
  | cons {a : α} {L : List α} : a ≠ null → Chain null next (next a) L →
      Chain null next a (a :: L)

namespace Chain

/-- Only the links of the nodes visited matter. -/
theorem congr (h : Chain null next a L) (hnext : ∀ b ∈ L, next' b = next b) :
    Chain null next' a L := by
  induction h with
  | nil => exact .nil
  | @cons a L ha _ ih =>
    refine .cons ha ?_
    rw [hnext a List.mem_cons_self]
    exact ih fun b hb => hnext b (List.mem_cons_of_mem _ hb)

/-- A head that is not null is the first node. -/
theorem eq_cons (h : Chain null next a L) (ha : a ≠ null) :
    ∃ L', L = a :: L' ∧ Chain null next (next a) L' := by
  cases h with
  | nil => exact absurd rfl ha
  | cons _ h => exact ⟨_, rfl, h⟩

end Chain

end LinkedList
