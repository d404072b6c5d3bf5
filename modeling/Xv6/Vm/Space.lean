import Xv6.Vm.PageTable

/-!
# xv6 — user address spaces

What the `uvm` functions of `vm.c` and the page-table functions of `proc.c` do
to the map of a page table and to the pages it owns.

An address space owns the pages of its tables and the pages it maps below the
trap frame (`space`). `Image f sz` says that the map `f` is one of a process of
size `sz`: nothing is mapped between the end of its memory and the trap frame.
Each function is given one rule: the pages it owns afterwards, and the map. Any
of them may run out of memory half way; the rule then says what is left.

None of the rules allows a panic.
-/

namespace Xv6.Vm

open Prog PartialMap ByteBuffer Function Multiset

variable {F : Frame} {m m' m0 : Mem} {A : Multiset Nat} {E : Panic → Prop} {pt : Pagetable}
  {f f' : Nat → Option Pte} {a b v : Nat} {pte : Pte}

/-- Number of the trap frame's page; user pages have smaller numbers, and the
trampoline follows. -/
def NUSER : Nat := TRAPFRAME / PGSIZE

theorem NUSER_eq : NUSER = 67108862 := rfl
theorem TRAPFRAME_eq : TRAPFRAME = NUSER * PGSIZE := rfl
theorem TRAMPOLINE_eq : TRAMPOLINE = (NUSER + 1) * PGSIZE := rfl
theorem MAXVA_eq : MAXVA = (NUSER + 2) * PGSIZE := rfl

/-- The pages a map maps below the trap frame. -/
def frames (f : Nat → Option Pte) : Multiset Nat := values (fun v => (f v).map Pte.pa) NUSER

/-- The pages an address space owns. -/
def space (pt : Pagetable) : Multiset Nat := PageTable.nodes 2 pt + frames (leaf pt)

/-- Number of pages of a memory of `sz` bytes. -/
def npages (sz : Nat) : Nat := pgRoundUp sz / PGSIZE

/-! ### Arithmetic of sizes -/

theorem pgRoundUp_eq (sz : Nat) : pgRoundUp sz = npages sz * PGSIZE := by
  simp only [npages, pgRoundUp, PGSIZE_eq]
  omega

theorem npages_mul (k : Nat) : npages (k * PGSIZE) = k := by
  simp only [npages, pgRoundUp, PGSIZE_eq]
  omega

theorem npages_mono (h : a ≤ b) : npages a ≤ npages b := by
  simp only [npages, pgRoundUp, PGSIZE_eq]
  omega

theorem npages_le_iff {sz : Nat} : npages sz ≤ NUSER ↔ sz ≤ TRAPFRAME := by
  simp only [TRAPFRAME_eq, npages, pgRoundUp, PGSIZE_eq]
  omega

theorem lt_npages {sz va : Nat} (h : va < sz) : va / PGSIZE < npages sz := by
  simp only [npages, pgRoundUp, PGSIZE_eq]
  omega

theorem sub_div (a b : Nat) : (pgRoundUp a - pgRoundUp b) / PGSIZE = npages a - npages b := by
  rw [pgRoundUp_eq, pgRoundUp_eq, PGSIZE_eq]
  omega

theorem mul_lt_MAXVA (h : v < NUSER + 2) : ¬ MAXVA ≤ v * PGSIZE := by
  rw [MAXVA_eq, PGSIZE_eq]
  omega

theorem lt_NPAGES (h : v < NUSER + 2) : v < NPAGES := by
  rw [NUSER_eq] at h
  rw [NPAGES_eq]
  omega

/-! ### Pages of a map -/

theorem map_update (f : Nat → Option Pte) (v : Nat) (e : Option Pte) :
    (fun w => (update f v e w).map Pte.pa) =
      update (fun w => (f w).map Pte.pa) v (e.map Pte.pa) := by
  funext w
  by_cases hw : w = v
  · subst hw
    simp
  · simp [hw]

theorem frames_update_some (hv : v < NUSER) (h : f v = none) (pte : Pte) :
    frames (update f v (some pte)) = pte.pa ::ₘ frames f := by
  rw [frames, map_update]
  exact values_update_some hv (by rw [h]; rfl)

theorem frames_eq_cons (hv : v < NUSER) (h : f v = some pte) :
    frames f = pte.pa ::ₘ frames (update f v none) := by
  rw [frames, frames, map_update]
  exact values_eq_cons_update hv (by rw [h]; rfl)

theorem frames_update_of_le (hv : NUSER ≤ v) (e : Option Pte) :
    frames (update f v e) = frames f := by
  rw [frames, map_update]
  exact values_update_of_le hv

theorem frames_eq_zero (h : ∀ v, v < NUSER → f v = none) : frames f = 0 :=
  values_eq_zero fun v hv => by rw [h v hv]; rfl

theorem mem_frames_iff {q : Nat} :
    q ∈ frames f ↔ ∃ v pte, v < NUSER ∧ f v = some pte ∧ pte.pa = q := by
  rw [frames, mem_values]
  constructor
  · rintro ⟨v, hv, hq⟩
    obtain ⟨pte, hpte, rfl⟩ := Option.map_eq_some_iff.mp hq
    exact ⟨v, pte, hv, hpte, rfl⟩
  · rintro ⟨v, pte, hv, hpte, rfl⟩
    exact ⟨v, hv, by rw [hpte]; rfl⟩

theorem mem_frames (hv : v < NUSER) (h : f v = some pte) : pte.pa ∈ frames f :=
  mem_frames_iff.mpr ⟨v, pte, hv, h, rfl⟩

/-- An address space without holes below page `k` owns at least `k` pages, so
`k` is small. -/
theorem dense_lt {k : Nat} (h : Holds F m (space pt + A)) (hk : k ≤ NUSER)
    (hdense : ∀ v, v < k → leaf pt v ≠ none) : k < NUSER := by
  have hframes : k ≤ (frames (leaf pt)).card :=
    le_card_values hk fun v hv => by simpa using hdense v hv
  have hcard := h.card_le
  rw [space, card_add, card_add] at hcard
  rw [NUSER_eq]
  omega

/-! ### Mapping and unmapping -/

/-- The map without the page numbers from `a` to `b`. -/
def clear (f : Nat → Option Pte) (a b : Nat) : Nat → Option Pte :=
  fun v => if a ≤ v ∧ v < b then none else f v

theorem clear_of_le (h : b ≤ a) : clear f a b = f := by
  funext v
  exact if_neg (by omega)

theorem mem_frames_of_clear {q : Nat} (h : q ∈ frames (clear f a b)) : q ∈ frames f := by
  obtain ⟨v, pte, hv, hpte, rfl⟩ := mem_frames_iff.mp h
  rw [clear] at hpte
  split at hpte
  · cases hpte
  · exact mem_frames hv hpte

theorem clear_succ {k : Nat} (h : f a = none) :
    clear f (a + 1) (a + 1 + k) = clear f a (a + k + 1) := by
  funext v
  simp only [clear]
  by_cases hv : v = a
  · subst hv
    simp [h]
  · congr 1
    simp only [eq_iff_iff]
    omega

theorem clear_update {k : Nat} :
    clear (update f a none) (a + 1) (a + 1 + k) = clear f a (a + k + 1) := by
  rw [clear_succ (update_self ..)]
  funext v
  simp only [clear]
  by_cases hv : v = a
  · subst hv
    rw [if_pos (by omega), if_pos (by omega)]
  · rw [update_of_ne hv]

theorem wp_walkNoAlloc (hv : v < NUSER + 2) {Q : Option (Option Pte) → Mem → Prop}
    (h : Q (PageTable.slot 2 pt (v * PGSIZE)) m) : wp (walkNoAlloc pt (v * PGSIZE)) Q E m := by
  rw [walkNoAlloc, if_neg (mul_lt_MAXVA hv)]
  exact wp_pure.mpr h

theorem slot_join (hv : v < NUSER + 2) : (PageTable.slot 2 pt (v * PGSIZE)).join = leaf pt v := by
  rw [leaf, if_pos (lt_NPAGES hv)]

theorem slot_isSome (hv : v < NUSER + 2) (h : leaf pt v = some pte) :
    PageTable.slot 2 pt (v * PGSIZE) = some (some pte) := by
  rw [← slot_join hv] at h
  exact Option.join_eq_some_iff.mp h

theorem wp_walk (hv : v < NUSER + 2) (h : Holds F m (PageTable.nodes 2 pt + A)) :
    wp (walk pt (v * PGSIZE)) (fun r m' => Holds F m' (PageTable.nodes 2 r.1 + A) ∧
      leaf r.1 = leaf pt ∧ (r.2 = true → (PageTable.slot 2 r.1 (v * PGSIZE)).isSome)) E m := by
  rw [walk, if_neg (mul_lt_MAXVA hv)]
  refine wp_imp (wp_walkAlloc 2 pt _ h) ?_
  rintro ⟨pt', ok⟩ m' ⟨h', hslot, hok⟩
  refine ⟨h', ?_, hok⟩
  funext w
  simp only [leaf, hslot]

/-- `mappages` of one page maps it, or runs out of memory for the tables. -/
theorem wp_mappages {pa : Nat} {perm : Perm} (hv : v < NUSER + 2) (hnone : leaf pt v = none)
    (h : Holds F m (PageTable.nodes 2 pt + A)) :
    wp (mappages pt (v * PGSIZE) PGSIZE pa perm) (fun r m' =>
      Holds F m' (PageTable.nodes 2 r.1 + A) ∧ (∀ q ∈ A, SamePage m m' q) ∧
      leaf r.1 = if r.2 then update (leaf pt) v (some ⟨pa, perm⟩) else leaf pt) E m := by
  have halign : ¬ v * PGSIZE % PGSIZE ≠ 0 := by rw [Nat.mul_mod_left]; simp
  have hone : PGSIZE / PGSIZE = 1 := rfl
  rw [mappages, if_neg halign, if_neg (by decide), if_neg (by decide), hone]
  simp only [mapLoop, wp_bind]
  -- only pages of the table are touched
  have hprot := h.protect
  rw [← add_zero (PageTable.nodes 2 pt)] at hprot
  refine wp_imp (wp_walk hv hprot) ?_
  rintro ⟨pt', ok⟩ m' ⟨h', hleaf, hok⟩
  rw [add_zero] at h'
  obtain ⟨h', hsame⟩ := h.release h'
  cases ok with
  | false => exact wp_pure.mpr ⟨h', hsame, by simpa using hleaf⟩
  | true =>
    have hslot : (PageTable.slot 2 pt' (v * PGSIZE)).join = none := by
      rw [slot_join hv, hleaf, hnone]
    simp only [hslot, Option.isSome_none, Bool.false_eq_true, if_false, Bool.true_eq_false, wp_pure]
    refine ⟨?_, hsame, ?_⟩
    · rw [PageTable.nodes_setSlot]
      exact h'
    · rw [leaf_setSlot (lt_NPAGES hv) (hok rfl), hleaf]
      rfl

/-- `mappages` leaves the kernel's own memory alone. For one page it makes at most two tables. -/
theorem wp_mappages_kept {kend c : Nat} {m0 : Mem} {va pa : Nat} {perm : Perm}
    (h : KernelKept kend c m0 m) : wp (mappages pt va PGSIZE pa perm) (fun r m' =>
      KernelKept kend (c + 2) m0 m' ∧ (r.2 = false → m0.Short (c + 2))) (fun _ => True) m := by
  rw [mappages, wp_ite]
  refine ⟨fun _ => wp_stop.mpr trivial, fun _ => ?_⟩
  rw [if_neg (by decide), if_neg (by decide), show PGSIZE / PGSIZE = 1 from rfl]
  simp only [mapLoop, wp_bind, walk, wp_ite]
  refine ⟨fun _ => wp_stop.mpr trivial, fun _ => wp_imp (wp_walkAlloc_kept 2 pt va h) ?_⟩
  rintro r m1 ⟨h1, hshort⟩
  refine ⟨fun hok => wp_pure.mpr ⟨h1, fun _ => hshort hok⟩, fun _ => ?_⟩
  exact ⟨fun _ => wp_stop.mpr trivial, fun _ => wp_pure.mpr ⟨h1, by rintro ⟨⟩⟩⟩

/-- The same for a user page: the page changes hands. -/
theorem wp_mapUser {pa : Nat} {perm : Perm} (hv : v < NUSER) (hnone : leaf pt v = none)
    (h : Holds F m (space pt + (pa ::ₘ A))) :
    wp (mappages pt (v * PGSIZE) PGSIZE pa perm) (fun r m' =>
      (∀ q ∈ pa ::ₘ frames (leaf pt), SamePage m m' q) ∧ if r.2 then Holds F m' (space r.1 + A) ∧
        leaf r.1 = update (leaf pt) v (some ⟨pa, perm⟩)
      else Holds F m' (pa ::ₘ (space r.1 + A)) ∧ leaf r.1 = leaf pt) E m := by
  rw [space, add_assoc] at h
  refine wp_imp (wp_mappages (by omega) hnone h) ?_
  rintro ⟨pt', ok⟩ m' ⟨h', hsame, hleaf⟩
  refine ⟨fun q hq => hsame q ?_, ?_⟩
  · rw [add_cons, ← cons_add]
    exact mem_add.mpr (.inl hq)
  cases ok with
  | false =>
    refine ⟨?_, hleaf⟩
    rw [space, hleaf, ← add_cons, add_assoc]
    exact h'
  | true =>
    simp only [if_true] at hleaf ⊢
    refine ⟨?_, hleaf⟩
    rw [space, hleaf, frames_update_some hv hnone, add_assoc, cons_add,
      ← add_cons]
    exact h'

/-- `uvmunmap` with `do_free` returns the pages that were mapped. -/
theorem wp_unmapLoop (k v : Nat) (hk : v + k ≤ NUSER) (h : Holds F m (space pt + A)) :
    wp (unmapLoop true k pt (v * PGSIZE)) (fun pt' m' => Holds F m' (space pt' + A) ∧
      leaf pt' = clear (leaf pt) v (v + k) ∧ ∀ q ∈ frames (leaf pt'), SamePage m m' q) E m := by
  induction k generalizing m pt v with
  | zero => exact wp_pure.mpr ⟨h, (clear_of_le le_rfl).symm, fun q _ => .refl m q⟩
  | succ k ih =>
    have hnext : v * PGSIZE + PGSIZE = (v + 1) * PGSIZE := by rw [Nat.succ_mul]
    simp only [unmapLoop, wp_bind]
    refine wp_walkNoAlloc (by omega) ?_
    rw [slot_join (by omega), hnext]
    cases hleaf : leaf pt v with
    | none =>
      refine wp_imp (ih (v + 1) (by omega) h) ?_
      rintro pt' m' ⟨h', hpt', hsame⟩
      exact ⟨h', hpt'.trans (clear_succ hleaf), hsame⟩
    | some pte =>
      have hset := leaf_setSlot (lt_NPAGES (by omega))
        (Option.isSome_of_eq_some (slot_isSome (by omega) hleaf)) none
      have hcons : space pt + A =
          pte.pa ::ₘ (space (PageTable.setSlot 2 pt (v * PGSIZE) none) + A) := by
        rw [space, space, PageTable.nodes_setSlot, hset, frames_eq_cons (by omega) hleaf,
          add_cons, cons_add]
      rw [hcons] at h
      simp only [wp_bind]
      refine wp_imp (wp_kfree h) ?_
      rintro _ m1 ⟨h1, hsame1⟩
      refine wp_imp (ih (v + 1) (by omega) h1) ?_
      rintro pt' m' ⟨h', hpt', hsame'⟩
      refine ⟨h', hpt'.trans ?_, fun q hq => (hsame1 q ?_).trans (hsame' q hq)⟩
      · rw [hset]
        exact clear_update
      · rw [hpt'] at hq
        exact mem_add.mpr (.inl (mem_add.mpr (.inr (mem_frames_of_clear hq))))

theorem wp_uvmunmap (k v : Nat) (hk : v + k ≤ NUSER) (h : Holds F m (space pt + A)) :
    wp (uvmunmap pt (v * PGSIZE) k true) (fun pt' m' => Holds F m' (space pt' + A) ∧
      leaf pt' = clear (leaf pt) v (v + k) ∧ ∀ q ∈ frames (leaf pt'), SamePage m m' q) E m := by
  rw [uvmunmap, if_neg (by rw [Nat.mul_mod_left]; simp)]
  exact wp_unmapLoop k v hk h

/-- `uvmunmap` of one page without `do_free`. -/
theorem wp_uvmunmap_one (hv : v < NUSER + 2) (h : Holds F m (PageTable.nodes 2 pt + A)) :
    wp (uvmunmap pt (v * PGSIZE) 1 false) (fun pt' m' => Holds F m' (PageTable.nodes 2 pt' + A) ∧
      leaf pt' = update (leaf pt) v none) E m := by
  rw [uvmunmap, if_neg (by rw [Nat.mul_mod_left]; simp)]
  simp only [unmapLoop, wp_bind]
  refine wp_walkNoAlloc hv ?_
  rw [slot_join hv]
  cases hleaf : leaf pt v with
  | none => exact wp_pure.mpr ⟨h, by rw [← hleaf, update_eq_self]⟩
  | some pte =>
    simp only [wp_bind, wp_when, Bool.false_eq_true, false_implies, not_false_eq_true,
      true_implies, true_and, wp_pure]
    rw [PageTable.nodes_setSlot]
    exact ⟨h, leaf_setSlot (lt_NPAGES hv) (Option.isSome_of_eq_some (slot_isSome hv hleaf)) none⟩

/-- `uvmdealloc` unmaps from the new end to the old one. -/
theorem wp_uvmdealloc {oldsz newsz : Nat} (hold : oldsz ≤ TRAPFRAME)
    (h : Holds F m (space pt + A)) :
    wp (uvmdealloc pt oldsz newsz) (fun pt' m' => Holds F m' (space pt' + A) ∧
      leaf pt' = clear (leaf pt) (npages newsz) (npages oldsz) ∧
      ∀ q ∈ frames (leaf pt'), SamePage m m' q) E m := by
  have hsame : npages oldsz ≤ npages newsz → wp (pure pt : MemM Pagetable)
      (fun pt' m' => Holds F m' (space pt' + A) ∧
        leaf pt' = clear (leaf pt) (npages newsz) (npages oldsz) ∧
        ∀ q ∈ frames (leaf pt'), SamePage m m' q) E m :=
    fun hle => wp_pure.mpr ⟨h, (clear_of_le hle).symm, fun q _ => .refl m q⟩
  rw [uvmdealloc, wp_ite, wp_ite]
  refine ⟨fun hle => hsame (npages_mono hle), fun _ => ⟨fun hlt => ?_, fun hle => ?_⟩⟩
  · have hpages : npages newsz < npages oldsz := by
      rw [pgRoundUp_eq, pgRoundUp_eq, PGSIZE_eq] at hlt
      omega
    have hsum : npages newsz + (npages oldsz - npages newsz) = npages oldsz := by omega
    rw [sub_div, pgRoundUp_eq newsz]
    refine wp_imp (wp_uvmunmap _ _ (hsum.trans_le (npages_le_iff.mpr hold)) h) ?_
    rw [hsum]
    exact fun _ _ h' => h'
  · refine hsame ?_
    rw [pgRoundUp_eq, pgRoundUp_eq, PGSIZE_eq] at hle
    omega

/-! ### Growing -/

/-- The map `f'` is `f` with new pages from number `a` to number `b`. -/
structure Grown (perm : Perm) (f : Nat → Option Pte) (a b : Nat) (f' : Nat → Option Pte) :
    Prop where
  old : ∀ v, v < a ∨ b ≤ v → f' v = f v
  new : ∀ v, a ≤ v → v < b → ∃ pa, pa ≠ 0 ∧ f' v = some ⟨pa, perm⟩

theorem Grown.refl (perm : Perm) (f : Nat → Option Pte) (a : Nat) : Grown perm f a a f :=
  ⟨fun _ _ => rfl, fun _ _ _ => by omega⟩

theorem Grown.succ {perm : Perm} {pa : Nat} (h : Grown perm f a b f') (hab : a ≤ b) (hpa : pa ≠ 0) :
    Grown perm f a (b + 1) (update f' b (some ⟨pa, perm⟩)) := by
  refine ⟨fun v hv => ?_, fun v hlo hhi => ?_⟩
  · rw [update_of_ne (by omega)]
    exact h.old v (by omega)
  · by_cases hv : v = b
    · subst hv
      exact ⟨pa, hpa, update_self ..⟩
    · rw [update_of_ne hv]
      exact h.new v hlo (by omega)

/-- Giving the new pages back. -/
theorem Grown.clear {perm : Perm} (h : Grown perm f a b f')
    (hnone : ∀ v, a ≤ v → v < b → f v = none) : clear f' a b = f := by
  funext v
  rw [Vm.clear]
  split
  · rename_i hv
    exact (hnone v hv.1 hv.2).symm
  · exact h.old v (by omega)

/-- What is mapped from page number `a` to number `b` is filled with zeros. -/
def Zeroed (m : Mem) (f : Nat → Option Pte) (a b : Nat) : Prop :=
  ∀ v pte, a ≤ v → v < b → f v = some pte → Filled m pte.pa 0

/-- The loop of `uvmalloc` either completes the growth, or undoes it. It stays
below the trap frame because it is told to, or because there are no holes and
memory is smaller than that. -/
theorem wp_allocLoop {perm : Perm} (k v : Nat) (hav : a ≤ v) (hv : v ≤ NUSER)
    (hgrown : Grown perm f a v (leaf pt)) (hnone : ∀ w, a ≤ w → w < NUSER → f w = none)
    (hbound : v + k ≤ NUSER ∨ ∀ w, w < a → f w ≠ none) (hzero : Zeroed m (leaf pt) a v)
    (h : Holds F m (space pt + A)) : wp (allocLoop perm (a * PGSIZE) k pt (v * PGSIZE)) (fun r m' =>
      Holds F m' (space r.1 + A) ∧ (∀ q ∈ frames f, SamePage m m' q) ∧
      if r.2 then v + k ≤ NUSER ∧ Grown perm f a (v + k) (leaf r.1) ∧ Zeroed m' (leaf r.1) a (v + k)
      else leaf r.1 = f) E m := by
  induction k generalizing m pt v with
  | zero => exact wp_pure.mpr ⟨h, fun q _ => .refl m q, hv, hgrown, hzero⟩
  | succ k ih =>
    -- the old pages lie below `a`, and stay mapped
    have hold : ∀ {q}, q ∈ frames f → q ∈ frames (leaf pt) := by
      intro q hq
      obtain ⟨w, pte, hw, hpte, rfl⟩ := mem_frames_iff.mp hq
      have hwa : w < a := by
        by_contra hwa
        rw [hnone w (by omega) hw] at hpte
        cases hpte
      exact mem_frames hw ((hgrown.old w (.inl hwa)).trans hpte)
    have hin : ∀ {q} {X : Multiset Nat}, q ∈ frames (leaf pt) → q ∈ space pt + X :=
      fun hq => mem_add.mpr (.inl (mem_add.mpr (.inr hq)))
    -- the exit for lack of memory, with any table that maps what this one maps
    have hundo : ∀ {pt' : Pagetable} {m' : Mem}, leaf pt' = leaf pt →
        Holds F m' (space pt' + A) → (∀ q ∈ frames (leaf pt), SamePage m m' q) →
        wp (uvmdealloc pt' (v * PGSIZE) (a * PGSIZE)) (fun pt'' m'' =>
          Holds F m'' (space pt'' + A) ∧ (∀ q ∈ frames f, SamePage m m'' q) ∧ leaf pt'' = f)
          E m' := by
      intro pt' m' hpt' h' hsame'
      have hle : v * PGSIZE ≤ TRAPFRAME := by rw [TRAPFRAME_eq, PGSIZE_eq]; omega
      refine wp_imp (wp_uvmdealloc hle h') ?_
      rintro pt'' m'' ⟨h'', hpt'', hsame''⟩
      have hf : leaf pt'' = f := by
        rw [hpt'', npages_mul, npages_mul, hpt']
        exact hgrown.clear fun w hw hw' => hnone w hw (by omega)
      rw [hf] at hsame''
      exact ⟨h'', fun q hq => (hsame' q (hold hq)).trans (hsame'' q hq), hf⟩
    -- in range by the bound, or since memory has fewer pages than that
    have hlt : v < NUSER := by
      rcases hbound with hbound | hdense
      · omega
      · refine dense_lt h hv fun w hw => ?_
        by_cases hwa : w < a
        · rw [hgrown.old w (.inl hwa)]
          exact hdense w hwa
        · obtain ⟨pa, -, hpa⟩ := hgrown.new w (by omega) hw
          rw [hpa]
          nofun
    have hleaf : leaf pt v = none := by
      rw [hgrown.old v (.inr le_rfl)]
      exact hnone v hav hlt
    simp only [allocLoop, wp_bind]
    refine wp_imp (wp_kalloc h) ?_
    rintro pa m1 ⟨⟨rfl, h1⟩ | ⟨hpa, h1⟩, hsame1⟩
    · exact wp_then (hundo rfl h1 fun q hq => hsame1 q (hin hq)) fun pt' m' h' => wp_pure.mpr h'
    · rw [if_neg hpa, wp_bind]
      have hfresh : pa ∉ space pt + A :=
        (nodup_cons.mp (nodup_add.mp h1.own.nodup).1).1
      refine wp_imp (wp_memset h1 (mem_cons_self ..)) ?_
      rintro _ m2 ⟨h2, hfill, hsame2⟩
      rw [← add_cons] at h2
      refine wp_then (wp_mapUser hlt hleaf h2) ?_
      rintro ⟨pt3, ok⟩ m3 ⟨hsame3, h3⟩
      have hsame : ∀ q ∈ frames (leaf pt), SamePage m m3 q := by
        intro q hq
        have hne : q ≠ pa := fun heq => hfresh (heq ▸ hin hq)
        exact ((hsame1 q (hin hq)).trans (hsame2 q (mem_cons_of_mem (hin hq)) hne)).trans
          (hsame3 q (mem_cons_of_mem hq))
      -- `mappages` may lack a page for a table; the new page is freed then
      cases ok with
      | false =>
        simp only [if_true, wp_bind]
        refine wp_imp (wp_kfree h3.1) ?_
        rintro _ m4 ⟨h4, hsame4⟩
        refine wp_imp (hundo h3.2 h4 fun q hq => (hsame q hq).trans (hsame4 q ?_))
          fun pt' m' h' => wp_pure.mpr h'
        rw [← h3.2] at hq
        exact mem_add.mpr (.inl (mem_add.mpr (.inr hq)))
      | true =>
        have hnext : v * PGSIZE + PGSIZE = (v + 1) * PGSIZE := by rw [Nat.succ_mul]
        have hcount : v + (k + 1) = v + 1 + k := by omega
        -- the new page is the one just filled, the others did not change
        have hzero3 : Zeroed m3 (leaf pt3) a (v + 1) := by
          intro w pte hlo hhi hpte
          rw [h3.2, update_apply] at hpte
          split at hpte
          · cases hpte
            exact hfill.same (hsame3 pa (mem_cons_self ..))
          · exact (hzero w pte hlo (by omega) hpte).same (hsame _ (mem_frames (by omega) hpte))
        simp only [hnext]
        rw [hcount] at hbound ⊢
        refine wp_imp (ih (v + 1) (by omega) (by omega) ?_ hbound hzero3 h3.1) ?_
        · rw [h3.2]
          exact hgrown.succ hav hpa
        · rintro r m' ⟨h', hsame', hr⟩
          exact ⟨h', fun q hq => (hsame q (hold hq)).trans (hsame' q hq), hr⟩

/-- `uvmalloc` grows a memory, or returns 0 and leaves it as it was. -/
theorem wp_uvmalloc {oldsz newsz : Nat} {w x : Bool} (hle : oldsz ≤ newsz)
    (hold : oldsz ≤ TRAPFRAME) (hnone : ∀ v, npages oldsz ≤ v → v < NUSER → leaf pt v = none)
    (hbound : newsz ≤ TRAPFRAME ∨ ∀ v, v < npages oldsz → leaf pt v ≠ none)
    (h : Holds F m (space pt + A)) :
    wp (uvmalloc pt oldsz newsz w x) (fun r m' => Holds F m' (space r.1 + A) ∧
      (∀ q ∈ frames (leaf pt), SamePage m m' q) ∧
      (r.2 = 0 ∧ leaf r.1 = leaf pt ∨ r.2 = newsz ∧ newsz ≤ TRAPFRAME ∧
        Grown ⟨w, x, true⟩ (leaf pt) (npages oldsz) (npages newsz) (leaf r.1) ∧
        Zeroed m' (leaf r.1) (npages oldsz) (npages newsz))) E m := by
  have hmono := npages_mono hle
  have hsum : npages oldsz + (npages newsz - npages oldsz) = npages newsz := by omega
  have hbound' : npages oldsz + (npages newsz - npages oldsz) ≤ NUSER ∨
      ∀ v, v < npages oldsz → leaf pt v ≠ none := by
    rw [hsum, npages_le_iff]
    exact hbound
  rw [uvmalloc, if_neg (by omega), growPages, sub_div, pgRoundUp_eq]
  simp only [wp_bind]
  have hzero : Zeroed m (leaf pt) (npages oldsz) (npages oldsz) := fun v _ hlo hhi => by omega
  refine wp_imp (wp_allocLoop _ _ le_rfl (npages_le_iff.mpr hold) (Grown.refl _ _ _) hnone
    hbound' hzero h) ?_
  rintro ⟨pt', ok⟩ m' ⟨h', hsame, hok⟩
  rw [hsum] at hok
  cases ok with
  | false => exact wp_pure.mpr ⟨h', hsame, .inl ⟨rfl, by simpa using hok⟩⟩
  | true =>
    exact wp_pure.mpr ⟨h', hsame, .inr ⟨rfl, npages_le_iff.mp hok.1, hok.2⟩⟩

/-! ### Images -/

/-- The map of a process of size `sz`: besides its memory it only has the trap
frame and the trampoline, which user code cannot use. -/
structure Image (f : Nat → Option Pte) (sz : Nat) : Prop where
  sz_le : sz ≤ TRAPFRAME
  mapped : ∀ v pte, f v = some pte →
    v < npages sz ∨ NUSER ≤ v ∧ v < NUSER + 2 ∧ pte.perm.u = false

namespace Image

variable {sz sz' : Nat}

theorem none (h : Image f sz) {v : Nat} (hlo : npages sz ≤ v) (hhi : v < NUSER) : f v = none := by
  cases hv : f v with
  | none => rfl
  | some pte =>
    have := h.mapped v pte hv
    omega

/-- What user code can use is part of the memory. -/
theorem user (h : Image f sz) (hv : f v = some pte) (hu : pte.perm.u = true) :
    v < npages sz ∧ v < NUSER := by
  have hsz := npages_le_iff.mpr h.sz_le
  rcases h.mapped v pte hv with hlt | ⟨-, -, hu'⟩
  · exact ⟨hlt, by omega⟩
  · rw [hu] at hu'
    cases hu'

/-- A memory may be declared larger than what is mapped. -/
theorem mono (h : Image f sz) (hle : npages sz ≤ npages sz') (hsz' : sz' ≤ TRAPFRAME) :
    Image f sz' :=
  ⟨hsz', fun v pte hv => (h.mapped v pte hv).imp_left (·.trans_le hle)⟩

theorem clear (h : Image f sz) (hle : sz' ≤ sz) : Image (clear f (npages sz') (npages sz)) sz' := by
  refine ⟨hle.trans h.sz_le, fun v pte hv => ?_⟩
  rw [Vm.clear] at hv
  split at hv
  · cases hv
  · rcases h.mapped v pte hv with hlt | hsys
    · exact .inl (by omega)
    · exact .inr hsys

theorem grown {perm : Perm} (h : Image f sz) (hle : sz ≤ sz') (hsz' : sz' ≤ TRAPFRAME)
    (hf' : Grown perm f (npages sz) (npages sz') f') : Image f' sz' := by
  have hmono := npages_mono hle
  refine ⟨hsz', fun v pte hv => ?_⟩
  by_cases hin : npages sz ≤ v ∧ v < npages sz'
  · exact .inl hin.2
  · rw [hf'.old v (by omega)] at hv
    exact (h.mapped v pte hv).imp_left (·.trans_le hmono)

theorem update (h : Image f sz) (hv : v < npages sz) (e : Option Pte) :
    Image (update f v e) sz := by
  refine ⟨h.sz_le, fun w pte hw => ?_⟩
  by_cases hwv : w = v
  · exact .inl (hwv ▸ hv)
  · rw [update_of_ne hwv] at hw
    exact h.mapped w pte hw

end Image

/-! ### Making, copying and freeing address spaces -/

/-- `uvmfree` of a table that maps nothing beyond its size returns everything. -/
theorem wp_uvmfree {sz : Nat} (hsz : sz ≤ TRAPFRAME)
    (hmapped : ∀ v pte, leaf pt v = some pte → v < npages sz) (h : Holds F m (space pt + A)) :
    wp (uvmfree pt sz) (fun _ m' => Holds F m' A) E m := by
  have hfree : ∀ {pt' : Pagetable} {m' : Mem}, (∀ v, leaf pt' v = none) →
      Holds F m' (space pt' + A) →
      wp (freewalk 2 pt') (fun _ m'' => Holds F m'' A) E m' := by
    intro pt' m' hnone h'
    refine wp_freewalk 2 pt' (fun va => (slot_eq_leaf pt' va).trans (hnone _)) ?_
    rwa [space, frames_eq_zero fun v _ => hnone v, add_zero] at h'
  rw [uvmfree, wp_bind, wp_ite]
  refine ⟨fun _ => ?_, fun hzero => wp_pure.mpr (hfree (fun v => ?_) h)⟩
  · have hpages : 0 + npages sz ≤ NUSER := by
      rw [Nat.zero_add]
      exact npages_le_iff.mpr hsz
    refine wp_imp (wp_uvmunmap (npages sz) 0 hpages h) ?_
    rintro pt' m' ⟨h', hpt', -⟩
    refine hfree (fun v => ?_) h'
    rw [hpt', Vm.clear]
    split
    · rfl
    · cases hv : leaf pt v with
      | none => rfl
      | some pte =>
        have := hmapped v pte hv
        omega
  · cases hv : leaf pt v with
    | none => rfl
    | some pte =>
      have hlt := hmapped v pte hv
      have hsz0 : sz = 0 * PGSIZE := by omega
      rw [hsz0, npages_mul] at hlt
      omega

/-- `proc_pagetable`: a new address space without memory, or nothing. -/
theorem wp_procPagetable {trapframe : Nat} (h : Holds F m A) :
    wp (procPagetable trapframe) (fun r m' => match r with
      | none => Holds F m' A
      | some pt => Holds F m' (space pt + A) ∧ Image (leaf pt) 0) E m := by
  have hsys : NUSER + 1 < NUSER + 2 ∧ NUSER < NUSER + 2 := by omega
  -- the exits after a failed mapping: nothing is mapped any more
  have hfail : ∀ {pt' : Pagetable} {m' : Mem}, (leaf pt' = fun _ => none) →
      Holds F m' (PageTable.nodes 2 pt' + A) →
      wp (uvmfree pt' 0) (fun _ m'' => Holds F m'' A) E m' := by
    intro pt' m' hnone h'
    refine wp_uvmfree (Nat.zero_le _) (fun v pte hv => ?_) ?_
    · rw [hnone] at hv
      cases hv
    · rwa [space, hnone, frames_eq_zero fun _ _ => rfl, add_zero]
  simp only [procPagetable, wp_bind]
  refine wp_imp (wp_newTable 2 h) fun r m1 h1 => ?_
  cases r with
  | none => exact wp_pure.mpr h1
  | some pt =>
    obtain ⟨⟨page, rfl⟩, h1⟩ := h1
    have hempty : leaf (PageTable.empty page 2) = fun _ => none := by
      funext v
      rw [leaf]
      split
      · exact slot_empty 2 page _
      · rfl
    simp only [wp_bind, wp_gets, TRAPFRAME_eq]
    refine wp_imp (wp_mappages hsys.1 (by rw [hempty]) h1) ?_
    rintro ⟨pt2, ok⟩ m2 ⟨h2, -, hleaf2⟩
    cases ok with
    | false =>
      simp only [hempty] at hleaf2
      simp only [if_true, wp_bind]
      exact wp_imp (hfail hleaf2 h2) fun _ _ h3 => wp_pure.mpr h3
    | true =>
      simp only [if_true, hempty] at hleaf2
      simp only [Bool.true_eq_false, if_false, wp_bind]
      have hnone : leaf pt2 NUSER = none := by rw [hleaf2, update_of_ne (by omega)]
      refine wp_imp (wp_mappages hsys.2 hnone h2) ?_
      rintro ⟨pt3, ok⟩ m3 ⟨h3, -, hleaf3⟩
      cases ok with
      | false =>
        simp only [Bool.false_eq_true, if_false] at hleaf3
        simp only [if_true, wp_bind]
        refine wp_imp (wp_uvmunmap_one hsys.1 h3) ?_
        rintro pt4 m4 ⟨h4, hleaf4⟩
        rw [hleaf3, hleaf2, update_idem, update_eq_self_iff.mpr rfl] at hleaf4
        exact wp_imp (hfail hleaf4 h4) fun _ _ h5 => wp_pure.mpr h5
      | true =>
        simp only [if_true, hleaf2] at hleaf3
        simp only [Bool.true_eq_false, if_false, wp_pure]
        have hmapped : ∀ v pte, leaf pt3 v = some pte →
            NUSER ≤ v ∧ v < NUSER + 2 ∧ pte.perm.u = false := by
          intro v pte hv
          rw [hleaf3, update_apply, update_apply] at hv
          split at hv
          · cases hv
            exact ⟨by omega, by omega, rfl⟩
          · split at hv
            · cases hv
              exact ⟨by omega, by omega, rfl⟩
            · cases hv
        refine ⟨?_, Nat.zero_le _, fun v pte hv => .inr (hmapped v pte hv)⟩
        rw [space, frames_eq_zero, add_zero]
        · exact h3
        · intro v hv
          cases hpte : leaf pt3 v with
          | none => rfl
          | some pte => exact absurd (hmapped v pte hpte).1 (by omega)

/-- **`proc_freepagetable`** returns every page of an address space. -/
theorem wp_procFreepagetable {sz : Nat} (himage : Image (leaf pt) sz)
    (h : Holds F m (space pt + A)) :
    wp (procFreepagetable pt sz) (fun _ m' => Holds F m' A) E m := by
  rw [space, add_assoc] at h
  rw [procFreepagetable, TRAMPOLINE_eq, TRAPFRAME_eq]
  simp only [wp_bind]
  refine wp_imp (wp_uvmunmap_one (by omega) h) ?_
  rintro pt1 m1 ⟨h1, hleaf1⟩
  refine wp_imp (wp_uvmunmap_one (by omega) h1) ?_
  rintro pt2 m2 ⟨h2, hleaf2⟩
  rw [hleaf1] at hleaf2
  refine wp_uvmfree himage.sz_le (fun v pte hv => ?_) ?_
  · rw [hleaf2, update_apply, update_apply] at hv
    split at hv
    · cases hv
    · split at hv
      · cases hv
      · have := himage.mapped v pte hv
        omega
  · rwa [space, hleaf2, frames_update_of_le le_rfl, frames_update_of_le (Nat.le_succ _), add_assoc]

/-- The entry `e'` of a copy: empty if `e` is, or a page with the same permissions
that holds in `m'` what the original holds in `m`. -/
def CopyOf (m m' : Mem) (e e' : Option Pte) : Prop :=
  match e with
  | none => e' = none
  | some pte => ∃ pa, e' = some ⟨pa, pte.perm⟩ ∧
      ∀ o, o < PGSIZE → m'.byte (pa + o) = m.byte (pte.pa + o)

theorem CopyOf.same {e e' : Option Pte} (h : CopyOf m0 m e e')
    (hsame : ∀ pte, e' = some pte → SamePage m m' pte.pa) : CopyOf m0 m' e e' := by
  cases e with
  | none => exact h
  | some pte =>
    obtain ⟨pa, hpa, hbytes⟩ := h
    exact ⟨pa, hpa, fun o ho => (hsame _ hpa o ho).trans (hbytes o ho)⟩

theorem CopyOf.perm {e e' : Option Pte} (h : CopyOf m m' e e') :
    e'.map Pte.perm = e.map Pte.perm := by
  cases e with
  | none =>
    rw [show e' = none from h]
  | some pte =>
    obtain ⟨pa, rfl, -⟩ := h
    rfl

/-- Up to page number `b` the map `f'` is a copy of `f`. -/
def Copied (m m' : Mem) (f f' : Nat → Option Pte) (b : Nat) : Prop :=
  ∀ v, v < b → CopyOf m m' (f v) (f' v)

theorem Copied.succ {g g' : Nat → Option Pte} (h : Copied m0 m f g b) (hb : b ≤ NUSER)
    (hg : ∀ v, v < b → g' v = g v) (hsame : ∀ q ∈ frames g, SamePage m m' q)
    (hlast : CopyOf m0 m' (f b) (g' b)) : Copied m0 m' f g' (b + 1) := by
  intro v hv
  by_cases hvb : v = b
  · rw [hvb]
    exact hlast
  · have hlt : v < b := by omega
    rw [hg v hlt]
    exact (h v hlt).same fun pte hpte => hsame _ (mem_frames (by omega) hpte)

/-- The loop of `uvmcopy` completes the copy, or removes it again. -/
theorem wp_copyLoop {old new : Pagetable} (k i : Nat) (hk : i + k ≤ NUSER)
    (hold : ∀ q ∈ frames (leaf old), q ∈ F.kept) (himage : Image (leaf new) (i * PGSIZE))
    (hcopied : Copied F.mem m (leaf old) (leaf new) i) (h : Holds F m (space new + A)) :
    wp (copyLoop old k new (i * PGSIZE)) (fun r m' => Holds F m' (space r.1 + A) ∧
      Image (leaf r.1) (if r.2 then (i + k) * PGSIZE else 0) ∧
      (r.2 = true → Copied F.mem m' (leaf old) (leaf r.1) (i + k))) E m := by
  induction k generalizing m new i with
  | zero => exact wp_pure.mpr ⟨h, himage, fun _ => hcopied⟩
  | succ k ih =>
    have hnext : i * PGSIZE + PGSIZE = (i + 1) * PGSIZE := by rw [Nat.succ_mul]
    have hcount : i + (k + 1) = i + 1 + k := by omega
    have hnone : leaf new i = none := himage.none (npages_mul i).le (by omega)
    have hgrow : Image (leaf new) ((i + 1) * PGSIZE) := by
      refine himage.mono ?_ ?_
      · rw [npages_mul, npages_mul]
        omega
      · rw [TRAPFRAME_eq, PGSIZE_eq]
        omega
    have hundo : ∀ {new' : Pagetable} {m' : Mem}, leaf new' = leaf new →
        Holds F m' (space new' + A) →
        wp (uvmunmap new' 0 (i * PGSIZE / PGSIZE) true) (fun pt'' m'' =>
          Holds F m'' (space pt'' + A) ∧ Image (leaf pt'') 0) E m' := by
      intro new' m' hnew' h'
      have hdiv : i * PGSIZE / PGSIZE = i := Nat.mul_div_cancel i (by decide)
      rw [hdiv]
      refine wp_imp (wp_uvmunmap i 0 (by omega) h') ?_
      rintro pt'' m'' ⟨h'', hpt'', -⟩
      refine ⟨h'', ?_⟩
      have hclear := himage.clear (Nat.zero_le (i * PGSIZE))
      rw [← Nat.zero_mul PGSIZE, npages_mul, npages_mul, ← hnew'] at hclear
      rw [hpt'', Nat.zero_add]
      exact hclear
    simp only [copyLoop, wp_bind]
    refine wp_walkNoAlloc (by omega) ?_
    rw [slot_join (by omega), hnext, hcount]
    cases hpte : leaf old i with
    | none =>
      refine ih (i + 1) (by omega) hgrow ?_ h
      refine hcopied.succ (by omega) (fun _ _ => rfl) (fun q _ => .refl m q) ?_
      rw [hpte]
      exact hnone
    | some pte =>
      simp only [wp_bind]
      refine wp_imp (wp_kalloc h) ?_
      rintro pa m1 ⟨⟨rfl, h1⟩ | ⟨hpa, h1⟩, hsame1⟩
      · refine wp_then (hundo rfl h1) fun _ _ h2 => wp_pure.mpr ⟨h2.1, h2.2, by rintro ⟨⟩⟩
      · rw [if_neg hpa, wp_bind, wp_modify, wp_bind]
        have hmem := mem_cons_self pa (space new + A)
        have hout : ∀ a, ¬ (pa ≤ a ∧ a < pa + PGSIZE) →
            move m1.byte pa pte.pa PGSIZE a = m1.byte a := fun _ ha => move_of_outside ha
        have h2 := h1.write hmem hout
        rw [← add_cons] at h2
        refine wp_imp (wp_mapUser (by omega) hnone h2) ?_
        rintro ⟨new3, ok⟩ m3 ⟨hsame3, h3⟩
        cases ok with
        | false =>
          simp only [if_true, wp_bind]
          refine wp_imp (wp_kfree h3.1) ?_
          rintro _ m4 ⟨h4, -⟩
          exact wp_imp (hundo h3.2 h4) fun _ _ h5 => wp_pure.mpr ⟨h5.1, h5.2, by rintro ⟨⟩⟩
        | true =>
          refine ih (i + 1) (by omega) ?_ ?_ h3.1
          · rw [h3.2]
            refine hgrow.update ?_ _
            rw [npages_mul]
            omega
          -- the new page holds what the old one holds, and the earlier copies stay
          · refine hcopied.succ (by omega) (fun v hv => ?_) (fun q hq => ?_) ?_
            · rw [h3.2, update_of_ne (by omega)]
            · have hq' : q ∈ space new + A :=
                mem_add.mpr (.inl (mem_add.mpr (.inr hq)))
              have hfresh := (nodup_cons.mp (nodup_add.mp h1.own.nodup).1).1
              have hsame2 : SamePage m1 { m1 with byte := move m1.byte pa pte.pa PGSIZE } q :=
                h1.same_of_ne hmem (mem_cons_of_mem hq')
                  (fun heq => hfresh (heq ▸ hq')) hout
              exact ((hsame1 q hq').trans hsame2).trans (hsame3 q (mem_cons_of_mem hq))
            · rw [hpte, h3.2, update_self]
              refine ⟨pa, rfl, fun o ho => ?_⟩
              rw [hsame3 pa (mem_cons_self ..) o ho,
                ← h1.same pte.pa (hold _ (mem_frames (by omega) hpte)) o ho]
              change move m1.byte pa pte.pa PGSIZE (pa + o) = _
              rw [move, if_pos ⟨Nat.le_add_right .., Nat.add_lt_add_left ho pa⟩,
                Nat.add_sub_cancel_left]

/-- **`uvmcopy`** into an address space without memory. -/
theorem wp_uvmcopy {old new : Pagetable} {sz : Nat} (hsz : sz ≤ TRAPFRAME)
    (hold : ∀ q ∈ frames (leaf old), q ∈ F.kept) (himage : Image (leaf new) 0)
    (h : Holds F m (space new + A)) :
    wp (uvmcopy old new sz) (fun r m' => Holds F m' (space r.1 + A) ∧
      Image (leaf r.1) (if r.2 then sz else 0) ∧
      (r.2 = true → Copied F.mem m' (leaf old) (leaf r.1) (npages sz))) E m := by
  have hstart : uvmcopy old new sz = copyLoop old (npages sz) new (0 * PGSIZE) := by rfl
  have hpages : 0 + npages sz ≤ NUSER := by
    rw [Nat.zero_add]
    exact npages_le_iff.mpr hsz
  refine wp_imp (wp_copyLoop (npages sz) 0 hpages hold himage (fun _ hv => by omega) h) ?_
  rintro ⟨pt', ok⟩ m' ⟨h', himage', hcopied⟩
  rw [Nat.zero_add] at himage' hcopied
  refine ⟨h', ?_, hcopied⟩
  cases ok with
  | false => exact himage'
  | true =>
    exact himage'.mono (npages_mul _).le hsz

/-- `uvmclear` takes a page away from user code, and nothing else. -/
theorem wp_uvmclear (hv : v < NUSER) (hleaf : leaf pt v = some pte) (h : Holds F m (space pt + A)) :
    wp (uvmclear pt (v * PGSIZE)) (fun pt' m' => Holds F m' (space pt' + A) ∧
      leaf pt' = update (leaf pt) v
        (some { pte with perm := { pte.perm with u := false } })) E m := by
  have hslot := slot_isSome (by omega) hleaf
  have hset := leaf_setSlot (lt_NPAGES (by omega)) (Option.isSome_of_eq_some hslot)
    (some { pte with perm := { pte.perm with u := false } })
  have hframes : frames (update (leaf pt) v
      (some { pte with perm := { pte.perm with u := false } })) = frames (leaf pt) := by
    rw [frames_eq_cons hv hleaf, frames_eq_cons hv (update_self ..), update_idem]
  simp only [uvmclear, wp_bind]
  refine wp_walkNoAlloc (by omega) ?_
  rw [hslot]
  refine wp_pure.mpr ⟨?_, hset⟩
  rwa [space, PageTable.nodes_setSlot, hset, hframes]

/-! ### Short of pages -/

section Kept

variable {kend c : Nat} {m0 : Mem}

/-- What is known already holds after any program that returns. -/
theorem wp_known {ε σ α : Type} {s : σ} {P : α → Prop} {S : Prop} (prog : Prog ε σ α) (hS : S) :
    wp prog (fun r _ => P r → S) (fun _ => True) s :=
  wp_imp (wp_true prog s) fun _ _ _ _ => hS

/-- **`uvmalloc`** takes at most three pages for each page it maps: the page, and two tables. -/
theorem wp_allocLoop_kept {perm : Perm} {start : Nat} (k : Nat) (h : KernelKept kend c m0 m) :
    wp (allocLoop perm start k pt a) (fun r _ => r.2 = false → m0.Short (c + 3 * k))
      (fun _ => True) m := by
  induction k generalizing c m pt a with
  | zero => exact wp_pure.mpr (by rintro ⟨⟩)
  | succ k ih =>
    refine wp_then (wp_kalloc_kept h) ?_
    rintro pa m1 ⟨h1, hshort, hpa⟩
    rw [wp_ite]
    refine ⟨fun h0 => wp_known _ ((hshort h0).mono (by omega)), fun hne => ?_⟩
    obtain ⟨_, _, hown⟩ := hpa hne
    refine wp_then (wp_memset_kept h1 hown (mem_cons_self ..)) fun _ m2 h2 => ?_
    refine wp_then (wp_mappages_kept h2) ?_
    rintro r m3 ⟨h3, hshort3⟩
    rw [wp_ite, show c + 3 * (k + 1) = c + 1 + 2 + 3 * k by omega]
    exact ⟨fun hok => wp_known _ ((hshort3 hok).mono (by omega)), fun _ => ih h3⟩

/-- **`uvmcopy`** takes at most three pages for each page of the old memory. -/
theorem wp_copyLoop_kept {old new : Pagetable} (k i : Nat) (hk : i + k ≤ NUSER)
    (h : KernelKept kend c m0 m) : wp (copyLoop old k new (i * PGSIZE)) (fun r _ => r.2 = false →
      m0.Short (c + 3 * (List.range' i k).countP fun v => (leaf old v).isSome))
      (fun _ => True) m := by
  induction k generalizing c m new i with
  | zero => exact wp_pure.mpr (by rintro ⟨⟩)
  | succ k ih =>
    have hnext : i * PGSIZE + PGSIZE = (i + 1) * PGSIZE := by rw [Nat.succ_mul]
    rw [copyLoop, List.range'_succ, List.countP_cons, wp_bind]
    refine wp_walkNoAlloc (by omega) ?_
    rw [slot_join (by omega), hnext]
    cases hleaf : leaf old i with
    | none => exact ih (i + 1) (by omega) h
    | some pte =>
      simp only [Option.isSome_some, if_true]
      refine wp_then (wp_kalloc_kept h) ?_
      rintro pa m1 ⟨h1, hshort, hpa⟩
      rw [wp_ite]
      refine ⟨fun h0 => wp_known _ ((hshort h0).mono (by omega)), fun hne => ?_⟩
      obtain ⟨_, _, hown⟩ := hpa hne
      rw [wp_bind, wp_modify]
      refine wp_then (wp_mappages_kept (h1.write hown (mem_cons_self ..)
        fun _ hk => move_of_outside hk)) ?_
      rintro r m3 ⟨h3, hshort3⟩
      rw [wp_ite]
      refine ⟨fun hok => wp_known _ ((hshort3 hok).mono (by omega)), fun _ => ?_⟩
      refine wp_imp (ih (i + 1) (by omega) h3) fun r _ hr hok => (hr hok).mono (by omega)

/-- **`proc_pagetable`** takes at most five pages. -/
theorem wp_procPagetable_kept {trapframe : Nat} (h : KernelKept kend c m0 m) :
    wp (procPagetable trapframe) (fun r m' =>
      (r = none → m0.Short (c + 5)) ∧ (r ≠ none → KernelKept kend (c + 5) m0 m'))
      (fun _ => True) m := by
  have hnone : m0.Short (c + 5) → ∀ m', ((none : Option Pagetable) = none → m0.Short (c + 5)) ∧
      ((none : Option Pagetable) ≠ none → KernelKept kend (c + 5) m0 m') :=
    fun hshort _ => ⟨fun _ => hshort, fun h => absurd rfl h⟩
  refine wp_then (wp_newTable_kept 2 h) ?_
  rintro (_ | pt) m1 ⟨h1, hshort⟩
  · exact wp_pure.mpr (hnone ((hshort rfl).mono (by omega)) m1)
  rw [wp_bind, wp_gets]
  refine wp_then (wp_mappages_kept h1) ?_
  rintro r m2 ⟨h2, hshort⟩
  rw [wp_ite]
  refine ⟨fun hok => wp_then (wp_true _ _) fun _ m3 _ => ?_, fun _ => ?_⟩
  · exact wp_pure.mpr (hnone ((hshort hok).mono (by omega)) m3)
  refine wp_then (wp_mappages_kept h2) ?_
  rintro r m3 ⟨h3, hshort⟩
  rw [wp_ite]
  refine ⟨fun hok => ?_, fun _ => wp_pure.mpr ⟨by rintro ⟨⟩, fun _ => h3⟩⟩
  refine wp_then (wp_true _ _) fun _ _ _ => wp_then (wp_true _ _) fun _ m4 _ => ?_
  exact wp_pure.mpr (hnone (hshort hok) m4)

end Kept

end Xv6.Vm
