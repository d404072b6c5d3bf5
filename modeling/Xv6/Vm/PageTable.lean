import Mathlib.Algebra.BigOperators.Fin
import Mathlib.Tactic.IntervalCases
import Mathlib.Tactic.NormNum
import Xv6.Lib.Values
import Xv6.Vm.Pages

/-!
# xv6 — what a page table maps, and the pages it is made of

A page table is seen from outside as two things: the partial map `leaf` from
page numbers to entries of the last level, and the multiset `nodes` of the pages
that hold its tables. Storing an entry changes the map at one page number and no
node; `walk` adds nodes and leaves the map alone; `freewalk` gives the nodes back
once the map is empty.
-/

namespace Xv6.Vm

open Prog PartialMap Function Multiset

variable {F : Frame} {m : Mem} {A : Multiset Nat} {E : Panic → Prop}

/-! ### Tables and their pages -/

/-- The pages that hold the tables. -/
def PageTable.nodes : (n : Nat) → PageTable n → Multiset Nat
  | 0, t => {t.page}
  | n + 1, t => t.page ::ₘ ∑ i, (t.entry i).elim 0 (PageTable.nodes n)

/-- The pages of the tables below entries other than `i`. -/
def PageTable.besides (n : Nat) (t : PageTable (n + 1)) (i : Fin 512) : Multiset Nat :=
  ∑ j ∈ Finset.univ.erase i, (t.entry j).elim 0 (PageTable.nodes n)

/-- Put a table below entry `i`. -/
def PageTable.setBelow (n : Nat) (t : PageTable (n + 1)) (i : Fin 512)
    (c : Option (PageTable n)) : PageTable (n + 1) :=
  { page := t.page, entry := update t.entry i c }

namespace PageTable

theorem setBelow_page (n : Nat) (t : PageTable (n + 1)) (i : Fin 512) (c : Option (PageTable n)) :
    (setBelow n t i c).page = t.page := rfl

theorem setBelow_entry (n : Nat) (t : PageTable (n + 1)) (i j : Fin 512)
    (c : Option (PageTable n)) : (setBelow n t i c).entry j = if j = i then c else t.entry j :=
  update_apply ..

theorem nodes_succ (n : Nat) (t : PageTable (n + 1)) (i : Fin 512) :
    nodes (n + 1) t = (t.entry i).elim 0 (nodes n) + (t.page ::ₘ besides n t i) := by
  rw [nodes, besides, ← Finset.add_sum_erase _ _ (Finset.mem_univ i), add_cons]

theorem nodes_setBelow (n : Nat) (t : PageTable (n + 1)) (i : Fin 512) (c : Option (PageTable n)) :
    nodes (n + 1) (setBelow n t i c) = c.elim 0 (nodes n) + (t.page ::ₘ besides n t i) := by
  have hsame : besides n (setBelow n t i c) i = besides n t i := by
    refine Finset.sum_congr rfl fun j hj => ?_
    rw [setBelow_entry, if_neg (Finset.ne_of_mem_erase hj)]
  rw [nodes_succ n _ i, hsame, setBelow_entry, if_pos rfl, setBelow_page]

theorem slot_setBelow (n : Nat) (t : PageTable (n + 1)) (i : Fin 512) (c : Option (PageTable n))
    (va : Nat) : slot (n + 1) (setBelow n t i c) va =
      (if px (n + 1) va = i then c else t.entry (px (n + 1) va)).bind (slot n · va) := by
  rw [slot, setBelow_entry]

/-- Storing an entry moves no table. -/
theorem nodes_setSlot (n : Nat) (t : PageTable n) (va : Nat) (e : Option Pte) :
    nodes n (setSlot n t va e) = nodes n t := by
  induction n with
  | zero => rfl
  | succ n ih =>
    change nodes (n + 1) (setBelow n t _ _) = _
    rw [nodes_setBelow, nodes_succ n t (px (n + 1) va)]
    cases t.entry (px (n + 1) va) with
    | none => rfl
    | some c => simp only [Option.map_some, Option.elim_some, ih]

/-- The entry stored is read back, if there is a table for it. -/
theorem slot_setSlot_same (n : Nat) (t : PageTable n) (va : Nat) (e : Option Pte)
    (h : (slot n t va).isSome) : slot n (setSlot n t va e) va = some e := by
  induction n with
  | zero => simp [slot, setSlot]
  | succ n ih =>
    change slot (n + 1) (setBelow n t _ _) va = _
    rw [slot_setBelow, if_pos rfl]
    rw [slot] at h
    cases hc : t.entry (px (n + 1) va) with
    | none => simp [hc] at h
    | some c => exact ih c (by simpa [hc] using h)

/-- Other entries are not touched. -/
theorem slot_setSlot_of_ne (n : Nat) (t : PageTable n) {va va' : Nat} (e : Option Pte)
    (h : ∃ l, l ≤ n ∧ px l va' ≠ px l va) : slot n (setSlot n t va e) va' = slot n t va' := by
  induction n with
  | zero =>
    obtain ⟨l, hl, hne⟩ := h
    obtain rfl := Nat.le_zero.mp hl
    simp [slot, setSlot, hne]
  | succ n ih =>
    change slot (n + 1) (setBelow n t _ _) va' = _
    rw [slot_setBelow, slot]
    by_cases htop : px (n + 1) va' = px (n + 1) va
    · rw [if_pos htop, htop]
      -- the paths part further down
      obtain ⟨l, hl, hne⟩ := h
      have hl' : l ≤ n := by
        rcases Nat.lt_or_eq_of_le hl with hlt | rfl
        · omega
        · exact absurd htop hne
      cases t.entry (px (n + 1) va) with
      | none => rfl
      | some c => exact ih c ⟨l, hl', hne⟩
    · rw [if_neg htop]

end PageTable

/-! ### The map of a user page table -/

/-- Number of pages three levels of 512 entries can map. -/
def NPAGES : Nat := 2 ^ 27

/-- The entry for page number `v`. -/
def leaf (pt : Pagetable) (v : Nat) : Option Pte :=
  if v < NPAGES then (PageTable.slot 2 pt (v * PGSIZE)).join else none

theorem NPAGES_eq : NPAGES = 134217728 := rfl

theorem px_eq (l va : Nat) : (px l va).val = va / 2 ^ (12 + 9 * l) % 512 := rfl

/-- Page numbers that differ, differ in the index of some level. -/
theorem exists_px_ne {v w : Nat} (hv : v < NPAGES) (hw : w < NPAGES) (hne : w ≠ v) :
    ∃ l, l ≤ 2 ∧ px l (w * PGSIZE) ≠ px l (v * PGSIZE) := by
  by_contra hall
  push Not at hall
  have h0 := congrArg Fin.val (hall 0 (by omega))
  have h1 := congrArg Fin.val (hall 1 (by omega))
  have h2 := congrArg Fin.val (hall 2 (by omega))
  rw [px_eq, px_eq, PGSIZE_eq] at h0 h1 h2
  rw [NPAGES_eq] at hv hw
  omega

/-- Storing an entry changes the map at one page number. -/
theorem leaf_setSlot {pt : Pagetable} {v : Nat} (hv : v < NPAGES)
    (h : (PageTable.slot 2 pt (v * PGSIZE)).isSome) (e : Option Pte) :
    leaf (PageTable.setSlot 2 pt (v * PGSIZE) e) = update (leaf pt) v e := by
  funext w
  by_cases hwv : w = v
  · subst hwv
    rw [update_self, leaf, if_pos hv, PageTable.slot_setSlot_same 2 pt _ e h]
    rfl
  · rw [update_of_ne hwv, leaf, leaf]
    split
    · rename_i hw
      rw [PageTable.slot_setSlot_of_ne 2 pt e (exists_px_ne hv hw hwv)]
    · rfl

theorem slot_congr (n : Nat) (t : PageTable n) {va w : Nat} (h : ∀ l, l ≤ n → px l va = px l w) :
    PageTable.slot n t va = PageTable.slot n t w := by
  induction n with
  | zero => rw [PageTable.slot, PageTable.slot, h 0 le_rfl]
  | succ n ih =>
    rw [PageTable.slot, PageTable.slot, h (n + 1) le_rfl]
    cases t.entry (px (n + 1) w) with
    | none => rfl
    | some c => exact ih c fun l hl => h l (Nat.le_succ_of_le hl)

/-- The entry of an address is that of its page. -/
theorem slot_eq_leaf (pt : Pagetable) (va : Nat) :
    (PageTable.slot 2 pt va).join = leaf pt (va / PGSIZE % NPAGES) := by
  have hpx : ∀ l, l ≤ 2 → px l (va / PGSIZE % NPAGES * PGSIZE) = px l va := by
    intro l hl
    refine Fin.ext ?_
    rw [px_eq, px_eq, PGSIZE_eq, NPAGES_eq]
    interval_cases l <;> norm_num <;> omega
  rw [leaf, if_pos (Nat.mod_lt _ (by decide)), slot_congr 2 pt hpx]

/-! ### walk and freewalk -/

theorem slot_empty (n page va : Nat) :
    (PageTable.slot n (PageTable.empty page n) va).join = none := by
  cases n <;> rfl

theorem nodes_empty (n page : Nat) : PageTable.nodes n (PageTable.empty page n) = {page} := by
  cases n with
  | zero => rfl
  | succ n => simp [PageTable.nodes, PageTable.empty]

theorem wp_newTable (n : Nat) (h : Holds F m A) : wp (newTable n) (fun r m' => match r with
      | none => Holds F m' A
      | some t => (∃ page, t = PageTable.empty page n) ∧
          Holds F m' (PageTable.nodes n t + A)) E m := by
  simp only [newTable, wp_bind]
  refine wp_imp (wp_kalloc h) ?_
  rintro pa m1 ⟨⟨rfl, h1⟩ | ⟨hpa, h1⟩, -⟩
  · simpa using h1
  · rw [if_neg hpa]
    refine wp_then (wp_memset h1 (mem_cons_self ..)) fun _ m2 h2 => ?_
    refine wp_pure.mpr ⟨⟨pa, rfl⟩, ?_⟩
    rw [nodes_empty]
    exact h2.1

/-- The table below an entry: its pages are owned, and it maps what the entry
led to. -/
theorem wp_tableBelow (n : Nat) (c : Option (PageTable n))
    (h : Holds F m (c.elim 0 (PageTable.nodes n) + A)) :
    wp (tableBelow n c) (fun r m' => match r with
      | none => c = none ∧ Holds F m' A
      | some c' => Holds F m' (PageTable.nodes n c' + A) ∧
          ∀ va, (PageTable.slot n c' va).join = (c.bind (PageTable.slot n · va)).join) E m := by
  cases c with
  | some c => exact wp_pure.mpr ⟨h, fun _ => rfl⟩
  | none =>
    refine wp_imp (wp_newTable n (by simpa using h)) fun r m1 h1 => ?_
    cases r with
    | none => exact ⟨rfl, h1⟩
    | some t =>
      obtain ⟨⟨page, rfl⟩, h1⟩ := h1
      exact ⟨h1, fun va => slot_empty n page va⟩

/-- `walk` may add tables; what is mapped stays, and on success there is an
entry for `va`. -/
theorem wp_walkAlloc (n : Nat) (t : PageTable n) (va : Nat)
    (h : Holds F m (PageTable.nodes n t + A)) :
    wp (walkAlloc n t va) (fun r m' => Holds F m' (PageTable.nodes n r.1 + A) ∧
      (∀ w, (PageTable.slot n r.1 w).join = (PageTable.slot n t w).join) ∧
      (r.2 = true → (PageTable.slot n r.1 va).isSome)) E m := by
  induction n generalizing m A with
  | zero => exact wp_pure.mpr ⟨h, fun _ => rfl, fun _ => rfl⟩
  | succ n ih =>
    simp only [walkAlloc, wp_bind]
    rw [PageTable.nodes_succ n t (px (n + 1) va), add_assoc] at h
    refine wp_imp (wp_tableBelow n _ h) fun r m1 h1 => ?_
    cases r with
    | none =>
      refine wp_pure.mpr ⟨?_, fun _ => rfl, by rintro ⟨⟩⟩
      rw [PageTable.nodes_succ n t (px (n + 1) va), h1.1]
      simpa using h1.2
    | some c =>
      obtain ⟨h1, hc⟩ := h1
      simp only [wp_bind]
      refine wp_imp (ih c h1) ?_
      rintro ⟨c', ok⟩ m2 ⟨h2, hc', hok⟩
      change wp (pure (PageTable.setBelow n t (px (n + 1) va) (some c'), ok)) _ E m2
      refine wp_pure.mpr ⟨?_, fun w => ?_, fun hok' => ?_⟩
      · rw [PageTable.nodes_setBelow, add_assoc]
        exact h2
      · rw [PageTable.slot_setBelow, PageTable.slot]
        split
        · rename_i hw
          rw [hw, ← hc w, ← hc' w]
          rfl
        · rfl
      · rw [PageTable.slot_setBelow, if_pos rfl]
        exact hok hok'

section Kept

variable {kend c : Nat} {m0 : Mem}

theorem wp_newTable_kept (n : Nat) (h : KernelKept kend c m0 m) : wp (newTable n) (fun r m' =>
    KernelKept kend (c + 1) m0 m' ∧ (r = none → m0.Short (c + 1))) E m := by
  refine wp_then (wp_kalloc_kept h) ?_
  rintro pa m1 ⟨h1, hshort, hpa⟩
  rw [wp_ite]
  refine ⟨fun h0 => wp_pure.mpr ⟨h1, fun _ => hshort h0⟩, fun hne => ?_⟩
  obtain ⟨total, A, hown⟩ := hpa hne
  exact wp_then (wp_memset_kept h1 hown (mem_cons_self ..)) fun _ _ h2 =>
    wp_pure.mpr ⟨h2, by rintro ⟨⟩⟩

/-- **`walk`** writes to the tables it makes only; it makes at most one for each level below
the root, and fails only if memory is short of that. -/
theorem wp_walkAlloc_kept (n : Nat) (t : PageTable n) (va : Nat) (h : KernelKept kend c m0 m) :
    wp (walkAlloc n t va) (fun r m' => KernelKept kend (c + n) m0 m' ∧
      (r.2 = false → m0.Short (c + n))) E m := by
  induction n generalizing c m with
  | zero => exact wp_pure.mpr ⟨h, by rintro ⟨⟩⟩
  | succ n ih =>
    have hbelow : ∀ t : Option (PageTable n), wp (tableBelow n t) (fun r m' =>
        KernelKept kend (c + 1) m0 m' ∧ (r = none → m0.Short (c + 1))) E m := by
      intro t
      cases t with
      | some t => exact wp_pure.mpr ⟨h.mono (Nat.le_succ c), by rintro ⟨⟩⟩
      | none => exact wp_newTable_kept n h
    have hsum : c + 1 + n = c + (n + 1) := by omega
    refine wp_then (hbelow _) ?_
    rintro r m1 ⟨h1, hshort⟩
    cases r with
    | none => exact wp_pure.mpr ⟨h1.mono (by omega), fun _ => (hshort rfl).mono (by omega)⟩
    | some t => exact wp_then (ih t h1) fun r m2 h2 => wp_pure.mpr (hsum ▸ h2)

end Kept

/-- Freeing what a list of owners holds, one after the other. -/
theorem wp_each_free {β : Type} {f : β → MemM Unit} {held : β → Multiset Nat} (l : List β)
    (hf : ∀ b ∈ l, ∀ (m : Mem) (A : Multiset Nat), Holds F m (held b + A) →
      wp (f b) (fun _ m' => Holds F m' A) E m) (h : Holds F m ((l.map held).sum + A)) :
    wp (Prog.each f l) (fun _ m' => Holds F m' A) E m := by
  induction l generalizing m with
  | nil => exact wp_pure.mpr (by simpa using h)
  | cons b l ih =>
    rw [List.map_cons, List.sum_cons, add_assoc] at h
    simp only [Prog.each, wp_bind]
    refine wp_imp (hf b List.mem_cons_self m _ h) fun _ m1 h1 => ?_
    exact ih (fun b' hb' => hf b' (List.mem_cons_of_mem _ hb')) h1

/-- Any index below a level can be given to an address. -/
theorem exists_va (n : Nat) (i : Fin 512) (w : Nat) :
    ∃ va, px (n + 1) va = i ∧ ∀ l, l ≤ n → px l va = px l w := by
  have hpos : ∀ l, 0 < 2 ^ (12 + 9 * l) := fun l => Nat.two_pow_pos _
  refine ⟨2 ^ (12 + 9 * (n + 1)) * i.val + w % 2 ^ (12 + 9 * (n + 1)), Fin.ext ?_, fun l hl =>
    Fin.ext ?_⟩
  · rw [px_eq, Nat.mul_add_div (hpos _), Nat.div_eq_of_lt (Nat.mod_lt _ (hpos _)), Nat.add_zero,
      Nat.mod_eq_of_lt i.isLt]
  · rw [px_eq, px_eq]
    -- the index at level l is made of bits below those of level n + 1
    have hsplit : 2 ^ (12 + 9 * (n + 1)) = 2 ^ (12 + 9 * l) * (512 * 2 ^ (9 * (n - l))) := by
      rw [show (512 : Nat) = 2 ^ 9 from rfl, ← Nat.pow_add, ← Nat.pow_add]
      congr 1
      omega
    rw [hsplit, Nat.mul_assoc, Nat.mul_add_div (hpos l), Nat.mod_mul_right_div_self,
      Nat.mul_assoc 512, Nat.mul_add_mod, Nat.mod_mul_right_mod]

theorem sum_indexes (f : Fin 512 → Multiset Nat) : ∑ i, f i = (indexes.map f).sum := by
  unfold indexes
  exact Fin.sum_univ_def f

/-- **`freewalk`** of a table that maps nothing returns all its pages. -/
theorem wp_freewalk (n : Nat) (t : PageTable n) (hleaf : ∀ va, (PageTable.slot n t va).join = none)
    (h : Holds F m (PageTable.nodes n t + A)) :
    wp (freewalk n t) (fun _ m' => Holds F m' A) E m := by
  induction n generalizing m A with
  | zero =>
    have hentry : ∀ i, t.entry i = none := by
      intro i
      have hi : px 0 (i.val * PGSIZE) = i := Fin.ext (by
        rw [px_eq, PGSIZE_eq]
        omega)
      have := hleaf (i.val * PGSIZE)
      rwa [PageTable.slot, hi] at this
    simp only [freewalk, wp_bind]
    refine wp_imp (wp_each
      (fun i _ s hs => ?_) h) fun _ _ h1 =>
      wp_imp (wp_kfree h1) fun _ _ h2 => h2.1
    rw [wp_when, hentry i]
    exact ⟨by rintro ⟨⟩, fun _ => hs⟩
  | succ n ih =>
    rw [PageTable.nodes, sum_indexes, cons_add, ← add_cons] at h
    simp only [freewalk, wp_bind]
    refine wp_imp (wp_each_free _ (fun i _ m A hi => ?_) h) fun _ _ h1 =>
      wp_imp (wp_kfree h1) fun _ _ h2 => h2.1
    cases hc : t.entry i with
    | none =>
      rw [hc] at hi
      exact wp_pure.mpr (by simpa using hi)
    | some c =>
      rw [hc] at hi
      refine ih c (fun w => ?_) hi
      obtain ⟨va, htop, hlow⟩ := exists_va n i w
      have := hleaf va
      rwa [PageTable.slot, htop, hc, Option.bind_some, slot_congr n c hlow] at this

-- The sum over 512 entries is not to be unfolded.
attribute [irreducible] PageTable.nodes

end Xv6.Vm
