import Mathlib.Data.List.Induction
import Mathlib.Data.List.Nodup
import Mathlib.Logic.Function.Basic

/-!
# Circular doubly linked lists

A ring of nodes with a head that is no node itself; a pointer is `none` (the
head) or a node. `IsRing l as`: following `next` from the head meets the nodes
`as` in turn and then the head again, and following `prev` meets them the other
way round.

Each direction is a `Path`, so that taking a node out is one lemma about paths
used twice.

* `IsRing.unlink`, `IsRing.pushFront`, `IsRing.moveToFront` — the pointer
  surgery.
* `scan_eq` — a loop along a path finds the first node that passes its test.
-/

namespace LinkedRing

open Function List

variable {α : Type}

/-- From `p` the pointers `f` lead through the nodes `as` to `q`. -/
def Path (f : Option α → Option α) : Option α → List α → Option α → Prop
  | p, [], q => f p = q
  | p, a :: as, q => f p = some a ∧ Path f (some a) as q

variable {f f' : Option α → Option α} {p p' q : Option α} {a : α} {as bs : List α}

theorem Path.append : Path f p (as ++ a :: bs) q ↔ Path f p as (some a) ∧ Path f (some a) bs q := by
  induction as generalizing p with
  | nil => rfl
  | cons b as ih => rw [cons_append, Path, Path, ih, and_assoc]

/-- Only the pointers of the nodes on the way matter, and where the first leads. -/
theorem Path.congr (h : Path f p as q) (hp : f' p' = f p)
    (hf : ∀ b ∈ as, f' (some b) = f (some b)) : Path f' p' as q := by
  induction as generalizing p p' with
  | nil => exact hp.trans h
  | cons b as ih =>
    exact ⟨hp.trans h.1, ih h.2 (hf b mem_cons_self) fun c hc =>
      hf c (mem_cons_of_mem _ hc)⟩

/-- The first pointer leads to a node of the path or to its end. -/
theorem Path.start_mem (h : Path f p as q) : f p = q ∧ as = [] ∨ ∃ b ∈ as, f p = some b := by
  cases as with
  | nil => exact .inl ⟨h, rfl⟩
  | cons b as => exact .inr ⟨b, mem_cons_self, h.1⟩

/-- Where the path through `as` is before it goes on. -/
def tip (p : Option α) (as : List α) : Option α := (as.getLast?.map some).getD p

@[simp] theorem tip_nil : tip p [] = p := rfl

@[simp] theorem tip_append : tip p (as ++ [a]) = some a := by simp [tip]

/-- The first pointer of the way back leads to the tip. -/
theorem Path.start_eq_tip (h : Path f p as.reverse q) : f p = tip q as := by
  induction as using reverseRecOn with
  | nil => exact h
  | append_singleton as a =>
    rw [reverse_append] at h
    rw [tip_append]
    exact h.1

section Scan

/-- The loop `for (b = p; b != &head; b = f b)` that stops at the first node with
`P`; `none` if it takes more than `n` rounds. -/
def scan (f : Option α → Option α) (P : α → Bool) : Nat → Option α → Option (Option α)
  | 0, _ => none
  | _ + 1, none => some none
  | n + 1, some a => if P a then some (some a) else scan f P n (f (some a))

theorem scan_eq (P : α → Bool) {n : Nat} (h : Path f p as none) (hn : as.length < n) :
    scan f P n (f p) = some (as.find? P) := by
  induction as generalizing p n with
  | nil =>
    obtain ⟨n, rfl⟩ := Nat.exists_eq_add_of_lt hn
    rw [show f p = none from h]
    rfl
  | cons a as ih =>
    cases n with
    | zero => exact absurd hn (Nat.not_lt_zero _)
    | succ n =>
      rw [h.1, scan, find?_cons]
      cases hP : P a with
      | true => rfl
      | false => exact ih h.2 (Nat.lt_of_succ_lt_succ hn)

end Scan

/-- The pointers of the nodes and of the head. -/
structure Links (α : Type) where
  next : Option α → Option α
  prev : Option α → Option α

/-- The ring of the nodes `as`. -/
structure IsRing (l : Links α) (as : List α) : Prop where
  nodup : as.Nodup
  next : Path l.next none as none
  prev : Path l.prev none as.reverse none

/-- A head that points to itself. -/
def Links.empty : Links α := ⟨fun _ => none, fun _ => none⟩

theorem isRing_empty : IsRing (Links.empty : Links α) [] := ⟨nodup_nil, rfl, rfl⟩

section Surgery

variable [DecidableEq α] {l : Links α}

/-- A node is taken out by letting the pointer before it lead past it. -/
theorem Path.remove (h : Path f p (as ++ a :: bs) q) (hnodup : (as ++ a :: bs).Nodup)
    (hp : ∀ b ∈ as ++ a :: bs, p ≠ some b) :
    Path (update f (tip p as) (f (some a))) p (as ++ bs) q := by
  obtain ⟨has, hbs⟩ := Path.append.mp h
  induction as using reverseRecOn with
  | nil =>
    refine hbs.congr (by simp) fun b hb => ?_
    rw [update_of_ne]
    exact fun heq => hp b (by simp [hb]) heq.symm
  | append_singleton as x _ =>
    rw [append_assoc] at hnodup hp ⊢
    rw [tip_append]
    obtain ⟨has, -⟩ := Path.append.mp has
    have hx : x ∉ as ∧ x ∉ bs := by
      rw [nodup_append] at hnodup
      have hnot := nodup_cons.mp hnodup.2.1
      refine ⟨fun hmem => hnodup.2.2 x hmem x (by simp) rfl, fun hmem => hnot.1 (by simp [hmem])⟩
    refine Path.append.mpr ⟨has.congr ?_ fun b hb => ?_, hbs.congr (by simp) fun b hb => ?_⟩
    · rw [update_of_ne (hp x (by simp))]
    · rw [update_of_ne]
      exact fun heq => hx.1 (Option.some.inj heq ▸ hb)
    · rw [update_of_ne]
      exact fun heq => hx.2 (Option.some.inj heq ▸ hb)

/-- `a->next->prev = a->prev; a->prev->next = a->next`. -/
def Links.unlink (l : Links α) (a : α) : Links α :=
  let l := { l with prev := update l.prev (l.next (some a)) (l.prev (some a)) }
  { l with next := update l.next (l.prev (some a)) (l.next (some a)) }

/-- `a->next = head.next; a->prev = &head; head.next->prev = a; head.next = a`. -/
def Links.pushFront (l : Links α) (a : α) : Links α :=
  let l := { l with next := update l.next (some a) (l.next none) }
  let l := { l with prev := update l.prev (some a) none }
  let l := { l with prev := update l.prev (l.next none) (some a) }
  { l with next := update l.next none (some a) }

theorem IsRing.unlink (h : IsRing l (as ++ a :: bs)) : IsRing (l.unlink a) (as ++ bs) := by
  have hback := h.prev
  rw [reverse_append, reverse_cons, append_assoc] at hback
  obtain ⟨-, hnext⟩ := Path.append.mp h.next
  -- the neighbours of `a`, from either side
  have hprev : l.prev (some a) = tip none as := (Path.append.mp hback).2.start_eq_tip
  have hnext : l.next (some a) = tip none bs.reverse := by
    rw [← reverse_reverse bs] at hnext
    exact hnext.start_eq_tip
  have hself : l.next (some a) ≠ some a := by
    intro heq
    rcases (Path.append.mp h.next).2.start_mem with ⟨hend, -⟩ | ⟨b, hb, hstart⟩
    · rw [heq] at hend
      exact absurd hend (by simp)
    · rw [heq] at hstart
      cases hstart
      exact (nodup_cons.mp (nodup_append.mp h.nodup).2.1).1 hb
  refine ⟨?_, ?_, ?_⟩
  · exact h.nodup.sublist ((sublist_cons_self a bs).append_left as)
  · have hremove := h.next.remove h.nodup (by simp)
    rw [← hprev] at hremove
    simp only [Links.unlink]
    rwa [update_of_ne hself.symm]
  · have hnodup := nodup_reverse.mpr h.nodup
    rw [reverse_append, reverse_cons, append_assoc] at hnodup
    have hremove := hback.remove hnodup (by simp)
    rw [← hnext] at hremove
    rw [reverse_append]
    exact hremove

theorem IsRing.pushFront (h : IsRing l as) (ha : a ∉ as) : IsRing (l.pushFront a) (a :: as) := by
  refine ⟨nodup_cons.mpr ⟨ha, h.nodup⟩, ⟨by simp [Links.pushFront], ?_⟩, ?_⟩
  · refine h.next.congr (by simp [Links.pushFront]) fun b hb => ?_
    have hne : b ≠ a := fun heq => ha (heq ▸ hb)
    simp [Links.pushFront, hne]
  · rw [reverse_cons]
    refine Path.append.mpr ⟨?_, ?_⟩
    · -- the old first node, or the head, now points back to `a`
      cases as with
      | nil =>
        have hnone : l.next none = none := h.next
        simp [Path, Links.pushFront, hnone]
      | cons b bs =>
        have hb : l.next none = some b := h.next.1
        have hback := h.prev
        rw [reverse_cons] at hback ⊢
        refine Path.append.mpr ⟨(Path.append.mp hback).1.congr ?_ fun c hc => ?_, ?_⟩
        · simp [Links.pushFront, hb]
        · have hcb : c ≠ b := fun heq =>
            (nodup_cons.mp h.nodup).1 (heq ▸ mem_reverse.mp hc)
          have hca : c ≠ a := fun heq =>
            ha (heq ▸ mem_cons_of_mem _ (mem_reverse.mp hc))
          simp [Links.pushFront, hb, hcb, hca]
        · simp [Path, Links.pushFront, hb]
    · have hne : l.next none ≠ some a := by
        rcases h.next.start_mem with ⟨hend, -⟩ | ⟨b, hb, hstart⟩
        · simp [hend]
        · rw [hstart]
          exact fun heq => ha (Option.some.inj heq ▸ hb)
      simp [Path, Links.pushFront, hne.symm]

/-- Take `a` out of the ring and put it in first. -/
def Links.moveToFront (l : Links α) (a : α) : Links α := (l.unlink a).pushFront a

theorem IsRing.moveToFront (h : IsRing l as) (ha : a ∈ as) :
    IsRing (l.moveToFront a) (a :: as.erase a) := by
  obtain ⟨bs, cs, rfl⟩ := append_of_mem ha
  have hnot : a ∉ bs ++ cs := by
    have := (nodup_middle.mp h.nodup)
    exact (nodup_cons.mp this).1
  have herase : (bs ++ a :: cs).erase a = bs ++ cs := by
    rw [erase_append_right _ fun hmem => hnot (mem_append_left _ hmem),
      erase_cons_head]
  rw [herase]
  exact h.unlink.pushFront hnot

end Surgery

end LinkedRing
