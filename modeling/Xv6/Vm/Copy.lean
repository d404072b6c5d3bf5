import Mathlib.Algebra.Order.BigOperators.Group.List
import Xv6.Vm.View

/-!
# xv6 — copies between kernel and user memory

`vmfault`, `copyout` and `copyin` keep a process's address space whole
(`UserOk`): a page faulted in on the way becomes part of it, and every byte goes
to a page it owns. What they do to the process's view of its memory does not
depend on which pages are mapped, unless memory is short of pages for those that
are not (`Mem.Short`, `faultPages`): `vmfault` changes nothing the process can see, `copyin` fetches
and `copyout` stores as far as the view allows.

`kexec` copies into the table of the new image, which is not the process's own;
there every page of the stack is already mapped, so that no page is faulted in
(`wp_copyout_other`).
-/

namespace Xv6.Vm

open Prog PartialMap ByteBuffer Function List

variable {kend total v va : Nat} {A B : Multiset Nat} {E : Panic → Prop} {u : User} {pt : Pagetable}
  {pte : Pte}

/-- The running process owns its address space, and the others hold `A`. -/
structure UserOk (kend total : Nat) (A : Multiset Nat) (sz : Nat) (u : User) : Prop where
  own : Owns kend total u.mem (space u.pt + A)
  image : Image (leaf u.pt) u.sz
  sz_eq : u.sz = sz
  other : u.other = none

theorem UserOk.table {sz : Nat} (h : UserOk kend total A sz u) : u.table = u.pt := by
  rw [User.table, h.other]
  rfl

/-! ### Addresses -/

theorem pgRoundDown_eq (va : Nat) : pgRoundDown va = va / PGSIZE * PGSIZE := rfl

theorem pgRoundDown_div (va : Nat) : pgRoundDown va / PGSIZE = va / PGSIZE := by
  rw [pgRoundDown_eq, Nat.mul_div_cancel _ (by decide)]

/-- What lies below the size of a memory lies in a page of it. -/
theorem UserOk.page_lt {sz : Nat} (h : UserOk kend total A sz u) (hva : pgRoundDown va < sz) :
    va / PGSIZE < npages sz ∧ va / PGSIZE < NUSER := by
  have hpage := lt_npages hva
  rw [pgRoundDown_div] at hpage
  exact ⟨hpage, hpage.trans_le (npages_le_iff.mpr (h.sz_eq ▸ h.image.sz_le))⟩

theorem div_lt_of_lt_MAXVA (h : ¬ MAXVA ≤ va) : va / PGSIZE < NUSER + 2 := by
  rw [MAXVA_eq, PGSIZE_eq] at h
  rw [PGSIZE_eq]
  omega

theorem lt_MAXVA (h : va / PGSIZE < NUSER) : ¬ MAXVA ≤ va := by
  rw [PGSIZE_eq] at h
  rw [MAXVA_eq, PGSIZE_eq]
  omega

/-- An address below `MAXVA` is looked up in the entry of its page. -/
theorem slot_join_va (h : ¬ MAXVA ≤ va) :
    (PageTable.slot 2 pt va).join = leaf pt (va / PGSIZE) := by
  rw [slot_eq_leaf, Nat.mod_eq_of_lt (lt_NPAGES (div_lt_of_lt_MAXVA h))]

/-- What `walkaddr` finds is mapped for user code. -/
theorem walkaddr_ne_zero (h : walkaddr pt va ≠ 0) : ¬ MAXVA ≤ va ∧
    ∃ pte, leaf pt (va / PGSIZE) = some pte ∧ pte.perm.u = true ∧ pte.pa = walkaddr pt va := by
  unfold walkaddr at h ⊢
  split at h
  · exact absurd rfl h
  · rename_i hva
    rw [if_neg hva, ← slot_join_va hva]
    split at h
    · rename_i pte hslot
      split at h
      · rename_i hu
        exact ⟨hva, pte, by rw [hslot]; rfl, hu, by simp [hu]⟩
      · exact absurd rfl h
    · exact absurd rfl h

/-- A page mapped for user code is found. -/
theorem walkaddr_of_leaf (hv : v < NUSER + 2) (h : leaf pt v = some pte) (hu : pte.perm.u = true) :
    walkaddr pt (v * PGSIZE) = pte.pa := by
  rw [walkaddr, if_neg (mul_lt_MAXVA hv), slot_isSome hv h]
  simp [hu]

/-- Stores to part of an owned page. -/
theorem Owns.store {m : Mem} {pa off : Nat} {bs : List UInt8} (h : Owns kend total m A)
    (hpa : pa ∈ A) (hlen : off + bs.length ≤ PGSIZE) :
    Owns kend total { m with byte := ByteBuffer.store m.byte (pa + off) bs } A :=
  h.write hpa fun _ hk => store_of_outside (by omega)

/-! ### Page faults -/

variable {sz : Nat}

theorem wp_onMem {α : Type} {m : MemM α} {Q : α → User → Prop}
    (h : wp m (fun a mem => Q a { u with mem := mem }) E u.mem) : wp (onMem m) Q E u := by
  rw [onMem, wp_zoom]
  exact h

/-- What the process sees of its memory. -/
def User.view (u : User) : View := Vm.view u.mem (leaf u.pt)

/-- The process's memory is still whole, and the pages of the others hold what
they held. -/
structure Apart (kend total : Nat) (A : Multiset Nat) (sz : Nat) (u u' : User) : Prop where
  ok : UserOk kend total A sz u'
  same : ∀ q ∈ A, SamePage u.mem u'.mem q

/-- Besides, the process sees no difference. -/
structure Unseen (kend total : Nat) (A : Multiset Nat) (sz : Nat) (u u' : User) : Prop
    extends Apart kend total A sz u u' where
  view : u'.view = u.view

theorem Unseen.refl (h : UserOk kend total A sz u) : Unseen kend total A sz u u :=
  ⟨⟨h, fun q _ => .refl u.mem q⟩, rfl⟩

theorem Apart.trans {u1 u2 u3 : User} (h : Apart kend total A sz u1 u2)
    (h' : Apart kend total A sz u2 u3) : Apart kend total A sz u1 u3 :=
  ⟨h'.ok, fun q hq => (h.same q hq).trans (h'.same q hq)⟩

theorem Unseen.trans {u1 u2 u3 : User} (h : Unseen kend total A sz u1 u2)
    (h' : Unseen kend total A sz u2 u3) : Unseen kend total A sz u1 u3 :=
  ⟨h.toApart.trans h'.toApart, h'.view.trans h.view⟩

/-- **`vmfault`** maps a new page of the memory, or changes no mapping. -/
theorem wp_vmfault (h : UserOk kend total A sz u) :
    wp (vmfault va) (fun r u' => Unseen kend total A sz u u' ∧ if r = 0 then leaf u'.pt = leaf u.pt
      else va < sz ∧ leaf u.pt (va / PGSIZE) = none ∧
        leaf u'.pt = update (leaf u.pt) (va / PGSIZE) (some ⟨r, .data⟩)) E u := by
  have hstay : Unseen kend total A sz u u ∧ if 0 = 0 then leaf u.pt = leaf u.pt
      else va < sz ∧ leaf u.pt (va / PGSIZE) = none ∧
        leaf u.pt = update (leaf u.pt) (va / PGSIZE) (some ⟨0, .data⟩) := ⟨.refl h, rfl⟩
  simp only [vmfault, wp_bind, wp_gets, id, wp_ite]
  refine ⟨fun _ => wp_pure.mpr hstay, fun hva => ?_⟩
  have hpage := lt_npages (Nat.lt_of_not_le hva)
  have huser : va / PGSIZE < NUSER := hpage.trans_le (npages_le_iff.mpr h.image.sz_le)
  rw [h.table]
  refine wp_onMem ?_
  simp only [ismapped, wp_bind]
  refine wp_walkNoAlloc (by omega) ?_
  rw [slot_join (by omega), wp_pure]
  refine ⟨fun _ => wp_pure.mpr hstay, fun hmapped => ?_⟩
  have hnone : leaf u.pt (va / PGSIZE) = none := by simpa using hmapped
  -- everything but the tables and the new page is left alone
  have hown := h.own
  rw [space, add_assoc] at hown
  have hkept : ∀ {m : Mem} {X : Multiset Nat},
      Holds ⟨kend, total, u.mem, frames (leaf u.pt) + A⟩ m X →
      (∀ q ∈ frames (leaf u.pt), SamePage u.mem m q) ∧ ∀ q ∈ A, SamePage u.mem m q :=
    fun h' => ⟨fun q hq => h'.same q (Multiset.mem_add.mpr (.inl hq)),
      fun q hq => h'.same q (Multiset.mem_add.mpr (.inr hq))⟩
  have hfail : ∀ {m : Mem} {pt : Pagetable}, leaf pt = leaf u.pt →
      Holds ⟨kend, total, u.mem, frames (leaf u.pt) + A⟩ m (PageTable.nodes 2 pt) →
      Unseen kend total A sz u { u with mem := m, pt := pt } := by
    intro m pt hpt h'
    have hown' := h'.own
    rw [← add_assoc, ← hpt] at hown'
    refine ⟨⟨⟨hown', ?_, h.sz_eq, h.other⟩, (hkept h').2⟩, ?_⟩
    · rw [hpt]
      exact h.image
    · rw [User.view, hpt]
      exact view_same (hkept h').1
  refine wp_onMem (wp_imp (wp_kalloc hown.holds) ?_)
  rintro pa m1 ⟨⟨rfl, h1⟩ | ⟨hpa, h1⟩, -⟩
  · exact ⟨fun _ => wp_pure.mpr ⟨hfail rfl h1, rfl⟩, fun hpa => absurd rfl hpa⟩
  refine ⟨fun hpa' => absurd hpa' hpa, fun _ => ?_⟩
  refine wp_onMem (wp_imp (wp_memset h1 (Multiset.mem_cons_self ..)) ?_)
  rintro _ m2 ⟨h2, hfill, -⟩
  rw [← Multiset.singleton_add, add_comm ({pa} : Multiset Nat)] at h2
  refine wp_onMem (wp_imp (wp_mappages (by omega) hnone h2) ?_)
  rintro ⟨pt3, ok⟩ m3 ⟨h3, hsame3, hleaf⟩
  rw [wp_modify]
  cases ok with
  | false =>
    refine ⟨fun _ => ?_, fun hok => absurd rfl hok⟩
    rw [add_comm _ ({pa} : Multiset Nat)] at h3
    refine wp_onMem (wp_imp (wp_kfree h3) ?_)
    rintro _ m4 ⟨h4, -⟩
    exact wp_pure.mpr ⟨hfail (by simpa using hleaf) h4, by simpa using hleaf⟩
  | true =>
    simp only [if_true] at hleaf
    refine ⟨by rintro ⟨⟩, fun _ => wp_pure.mpr
      ⟨⟨⟨⟨?_, ?_, h.sz_eq, h.other⟩, (hkept h3).2⟩, ?_⟩, ?_⟩⟩
    · have hown3 := h3.own
      rw [add_assoc, Multiset.singleton_add, ← Multiset.cons_add] at hown3
      rwa [space, hleaf, frames_update_some huser hnone, add_assoc]
    · rw [hleaf]
      exact h.image.update hpage _
    · change Vm.view m3 (leaf pt3) = _
      rw [hleaf]
      exact view_fault hnone (hfill.same (hsame3 pa (Multiset.mem_singleton_self pa))) (hkept h3).1
    · rw [if_neg hpa]
      exact ⟨h.sz_eq ▸ Nat.lt_of_not_le hva, hnone, hleaf⟩

/-- **`vmfault`** leaves the kernel's own memory alone, and takes at most three pages: the
page, and two tables. It fails for a page that is not mapped only if memory is short of them. -/
theorem wp_vmfault_kept (h : UserOk kend total A sz u) :
    wp (vmfault va) (fun r u' => (∀ x, x < kend → u'.mem.byte x = u.mem.byte x) ∧
      (∀ n, u'.mem.Short n → u.mem.Short (n + 3)) ∧
      (r = 0 → va < sz → leaf u.pt (va / PGSIZE) = none → u.mem.Short 3)) (fun _ => True) u := by
  rw [vmfault, wp_bind, wp_gets, wp_ite]
  refine ⟨fun hsz => wp_pure.mpr ⟨fun _ _ => rfl, fun n hn => hn.mono (by omega), fun _ hva => ?_⟩,
    fun _ => ?_⟩
  · exact absurd (h.sz_eq ▸ hva) (not_lt.mpr hsz)
  rw [wp_bind]
  refine wp_onMem ?_
  rw [ismapped, wp_bind, walkNoAlloc, wp_ite]
  refine ⟨fun _ => wp_stop.mpr trivial, fun hmax => wp_pure.mpr (wp_pure.mpr ?_)⟩
  rw [wp_ite, id, h.table, slot_join_va hmax, pgRoundDown_div]
  refine ⟨fun hmapped => wp_pure.mpr ⟨fun _ _ => rfl, fun n hn => hn.mono (by omega),
    fun _ _ hnone => ?_⟩, fun _ => ?_⟩
  · rw [hnone] at hmapped
    cases hmapped
  rw [wp_bind]
  refine wp_onMem (wp_imp (wp_kalloc_kept h.own.kept) ?_)
  rintro mem m1 ⟨h1, hshort, hmem⟩
  rw [wp_ite]
  refine ⟨fun h0 => wp_pure.mpr ⟨h1.low, (h1.mono (by omega)).spent,
    fun _ _ _ => (hshort h0).mono (by omega)⟩, fun hne => ?_⟩
  obtain ⟨_, _, hown⟩ := hmem hne
  rw [wp_bind]
  refine wp_onMem (wp_imp (wp_memset_kept h1 hown (Multiset.mem_cons_self ..)) fun _ m2 h2 => ?_)
  rw [wp_bind]
  refine wp_onMem (wp_imp (wp_mappages_kept h2) ?_)
  rintro r m3 ⟨h3, hshort3⟩
  rw [wp_bind, wp_modify, wp_ite]
  refine ⟨fun hok => ?_, fun _ => wp_pure.mpr ⟨h3.low, h3.spent, fun h0 => absurd h0 hne⟩⟩
  obtain ⟨_, _, hown3⟩ := h3.list
  rw [wp_bind]
  refine wp_onMem (wp_imp (wp_kfree_low hown3.kend_eq) fun _ m4 hlow => wp_pure.mpr ?_)
  exact ⟨fun x hx => (hlow x hx).trans (h3.low x hx), fun n _ => (hshort3 hok).mono (by omega),
    fun _ _ _ => hshort3 hok⟩

/-- What a copy leaves alone besides the pages of others: the kernel's own memory
and the mappings there are. Pages may be added to the memory. -/
structure Confined (kend sz : Nat) (u u' : User) : Prop where
  low : ∀ x, x < kend → u'.mem.byte x = u.mem.byte x
  mapped : ∀ v pte, leaf u.pt v = some pte → leaf u'.pt v = some pte
  added : ∀ v, leaf u'.pt v ≠ leaf u.pt v → v < npages sz

theorem Confined.refl (kend sz : Nat) (u : User) : Confined kend sz u u :=
  ⟨fun _ _ => rfl, fun _ _ h => h, fun _ h => absurd rfl h⟩

theorem Confined.trans {u1 u2 u3 : User} (h : Confined kend sz u1 u2)
    (h' : Confined kend sz u2 u3) : Confined kend sz u1 u3 where
  low x hx := (h'.low x hx).trans (h.low x hx)
  mapped v pte hv := h'.mapped v pte (h.mapped v pte hv)
  added v hne := by
    by_cases hsame : leaf u3.pt v = leaf u2.pt v
    · exact h.added v (hsame ▸ hne)
    · exact h'.added v hsame

theorem wp_vmfault_confined (h : UserOk kend total A sz u) :
    wp (vmfault va) (fun _ u' => Confined kend sz u u') E u := by
  refine wp_imp (wp_and (wp_vmfault h) (wp_vmfault_kept h)) ?_
  rintro r u' ⟨⟨-, hr⟩, hlow, -⟩
  split at hr
  · exact ⟨hlow, fun v pte hv => by rw [hr, hv], fun v hne => absurd (congrFun hr v) hne⟩
  · obtain ⟨hva, hnone, hleaf⟩ := hr
    refine ⟨hlow, fun v pte hv => ?_, fun v hne => ?_⟩
    · have hne : v ≠ va / PGSIZE := by
        rintro rfl
        rw [hnone] at hv
        cases hv
      rw [hleaf, update_of_ne hne, hv]
    · have hv : v = va / PGSIZE := by
        by_contra hv
        exact hne (by rw [hleaf, update_of_ne hv])
      exact hv ▸ lt_npages hva

/-- How many pages a fault on page `v` may take: a page of the memory that is not there costs
itself and two tables. -/
def faultCost (sz : Nat) (pt : Pagetable) (v : Nat) : Nat :=
  if v < npages sz ∧ leaf pt v = none then 3 else 0

/-- What the view shows for a page that is mapped. -/
theorem view_perm_of_leaf (hv : v < NUSER) (h : leaf u.pt v = some pte) :
    u.view.perm v = pte.perm := by
  simp only [User.view, view, userEntry_of_lt hv, h, allow, Option.elim_some]

/-- What the view shows of a page that is mapped, … -/
theorem view_byte_of_leaf {o : Nat} (hv : v < NUSER) (h : leaf u.pt v = some pte)
    (ho : o < PGSIZE) : u.view.byte (v * PGSIZE + o) = u.mem.byte (pte.pa + o) := by
  have hdiv : (v * PGSIZE + o) / PGSIZE = v := by
    rw [PGSIZE_eq] at ho ⊢
    omega
  have hmod : (v * PGSIZE + o) % PGSIZE = o := by
    rw [PGSIZE_eq] at ho ⊢
    omega
  simp only [User.view, view, hdiv, hmod, userEntry_of_lt hv, h, look, Option.elim_some]

/-- … and of one that is not. -/
theorem view_byte_of_none {o : Nat} (h : leaf u.pt v = none) (ho : o < PGSIZE) :
    u.view.byte (v * PGSIZE + o) = 0 := by
  have hdiv : (v * PGSIZE + o) / PGSIZE = v := by
    rw [PGSIZE_eq] at ho ⊢
    omega
  have hentry : userEntry (leaf u.pt) v = none := by rw [userEntry, h, ite_self]
  simp only [User.view, view, hdiv, hentry, look, Option.elim_none]

/-- The page behind a user address belongs to the process. -/
theorem wp_userPage (h : UserOk kend total A sz u) :
    wp (userPage (pgRoundDown va)) (fun r u' => Unseen kend total A sz u u' ∧
      if r = 0 then u.view.readable sz va = false ∨
        leaf u'.pt (va / PGSIZE) = none ∧ u.mem.Short (faultCost sz u.pt (va / PGSIZE))
      else u.view.readable sz va = true ∧
        (∀ n, u'.mem.Short n → u.mem.Short (n + faultCost sz u.pt (va / PGSIZE))) ∧
        ∃ perm, leaf u'.pt (va / PGSIZE) = some ⟨r, perm⟩ ∧ va / PGSIZE < NUSER) E u := by
  simp only [userPage, wp_bind, wp_gets, id, wp_ite, h.table]
  refine ⟨fun hwalk => ?_, fun hpa => wp_pure.mpr ⟨.refl h, ?_⟩⟩
  · refine wp_imp (wp_and (wp_vmfault h) (wp_vmfault_kept h)) ?_
    rintro r u' ⟨⟨hunseen, hr⟩, -, hspent, hshort⟩
    refine ⟨hunseen, ?_⟩
    rw [pgRoundDown_div] at hr hshort
    rw [faultCost]
    split at hr
    · rename_i hr0
      rw [if_pos hr0]
      by_cases hsz : pgRoundDown va < sz
      · obtain ⟨hpage, hlt⟩ := h.page_lt hsz
        cases hleaf : leaf u.pt (va / PGSIZE) with
        | none =>
          rw [if_pos ⟨hpage, rfl⟩]
          exact .inr ⟨by rw [hr, hleaf], hshort hr0 hsz hleaf⟩
        | some pte =>
          -- it is mapped, but not for user code
          refine .inl ?_
          rw [View.readable, view_perm_of_leaf hlt hleaf]
          cases hu : pte.perm.u with
          | false => simp
          | true =>
            have hslot := walkaddr_of_leaf (by omega) hleaf hu
            rw [← pgRoundDown_eq, hwalk] at hslot
            exact absurd hslot.symm (h.own.free_frame.ne_zero (Multiset.mem_add.mpr
              (.inl (Multiset.mem_add.mpr (.inr (mem_frames hlt hleaf))))))
      · exact .inl (by simp [View.readable, hsz])
    · rename_i hr0
      rw [if_neg hr0]
      obtain ⟨hsz, hnone, hnew⟩ := hr
      obtain ⟨hpage, hlt⟩ := h.page_lt hsz
      have hnew : leaf u'.pt (va / PGSIZE) = some ⟨r, .data⟩ := by rw [hnew, update_self]
      refine ⟨?_, by rwa [if_pos ⟨hpage, hnone⟩], _, hnew, hlt⟩
      rw [View.readable, ← hunseen.view, view_perm_of_leaf hlt hnew]
      simp [hsz, Perm.data]
  · rw [if_neg hpa]
    obtain ⟨-, pte, hleaf, hu, hpte⟩ := walkaddr_ne_zero hpa
    rw [pgRoundDown_div] at hleaf
    obtain ⟨hpage, huser⟩ := h.image.user hleaf hu
    refine ⟨?_, fun n hn => hn.mono (by omega), pte.perm, ?_, huser⟩
    · have hsz : pgRoundDown va < sz := by
        rw [h.sz_eq, npages, pgRoundUp, PGSIZE_eq] at hpage
        rw [pgRoundDown_eq, PGSIZE_eq]
        omega
      rw [View.readable, view_perm_of_leaf huser hleaf, hu]
      simp [hsz]
    · rw [hleaf, ← hpte]

theorem wp_userPage_confined (h : UserOk kend total A sz u) :
    wp (userPage va) (fun _ u' => Confined kend sz u u') E u := by
  rw [userPage, wp_bind, wp_gets, wp_ite]
  exact ⟨fun _ => wp_vmfault_confined h, fun _ => wp_pure.mpr (.refl kend sz u)⟩

/-! ### How far a copy gets -/

/-- Number of pages that `len` bytes from `va` on lie in. -/
def spans (va len : Nat) : Nat := (va % PGSIZE + len + PGSIZE - 1) / PGSIZE

/-- How many pages a copy of `len` bytes at `va` may take. -/
def faultPages (sz : Nat) (pt : Pagetable) (va len : Nat) : Nat :=
  ((List.range' (va / PGSIZE) (spans va len)).map (faultCost sz pt)).sum

theorem faultPages_one (sz : Nat) (pt : Pagetable) (va : Nat) :
    faultPages sz pt va 1 = faultCost sz pt (va / PGSIZE) := by
  have hspan : spans va 1 = 1 := by
    unfold spans
    rw [PGSIZE_eq]
    omega
  simp [faultPages, hspan]

/-- A page that is still not there after `vmfault` is one that memory was short of. -/
theorem wp_vmfault_short (h : UserOk kend total A sz u) :
    wp (vmfault va) (fun _ u' => va < sz → leaf u'.pt (va / PGSIZE) = none →
      u.mem.Short (faultPages sz u.pt va 1)) E u := by
  refine wp_imp (wp_and (wp_vmfault h) (wp_vmfault_kept h)) ?_
  rintro r u' ⟨⟨-, hr⟩, -, -, hshort⟩ hva hnone
  split at hr
  · rename_i h0
    rw [hr] at hnone
    rw [faultPages_one, faultCost, if_pos ⟨lt_npages hva, hnone⟩]
    exact hshort h0 hva hnone
  · rw [hr.2.2, update_self] at hnone
    cases hnone

/-- A copy from address `va` on got past `n` of `len` addresses: past all of them, or up to
one that may not be used, or memory was short (`S`). -/
structure Passed (S : Prop) (P : Nat → Bool) (va len n : Nat) : Prop where
  le : n ≤ len
  pass : ∀ i, i < n → P (va + i) = true
  stop : n = len ∨ P (va + n) = false ∨ S

namespace Passed

variable {S : Prop} {P : Nat → Bool} {len n k : Nat}

theorem all (h : ∀ i, i < len → P (va + i) = true) : Passed S P va len len :=
  ⟨le_rfl, h, .inl rfl⟩

theorem none (h : P va = false ∨ S) : Passed S P va len 0 :=
  ⟨Nat.zero_le _, fun i hi => absurd hi (Nat.not_lt_zero i), .inr h⟩

/-- What one turn of a copy covers, the rest continues. -/
theorem later (hk : k ≤ len) (hpass : ∀ i, i < k → P (va + i) = true)
    (h : Passed S P (va + k) (len - k) n) : Passed S P va len (k + n) := by
  refine ⟨?_, fun i hi => ?_, ?_⟩
  · have := h.le
    omega
  · by_cases hin : i < k
    · exact hpass i hin
    · have := h.pass (i - k) (by omega)
      rwa [Nat.add_assoc, Nat.add_sub_cancel' (by omega)] at this
  · rw [← Nat.add_assoc]
    exact h.stop.imp_left fun h => by omega

theorem imp {S' : Prop} (hS : S → S') (h : Passed S P va len n) : Passed S' P va len n :=
  ⟨h.le, h.pass, h.stop.imp_right (Or.imp_right hS)⟩

/-- Unless memory was short, a copy gets as far as it may. -/
theorem short_or_reach (h : Passed S P va len n) : S ∨ n = reach P va len := by
  rcases h.stop with rfl | hno | hshort
  · right
    rw [reach_add h.pass le_rfl, Nat.sub_self, reach, Nat.add_zero]
  · right
    rw [reach_add h.pass h.le, reach_of_not hno, Nat.add_zero]
  · exact .inl hshort

end Passed

/-- The part of `len` bytes from `va` on that lies in the page of `va`. -/
theorem page_part {len n : Nat} (hlen : 0 < len)
    (hn : n = min (PGSIZE - (va - va / PGSIZE * PGSIZE)) len) :
    va / PGSIZE * PGSIZE + (va - va / PGSIZE * PGSIZE) = va ∧ 0 < n ∧ n ≤ len ∧
      va - va / PGSIZE * PGSIZE + n ≤ PGSIZE ∧ (∀ i, i < n → (va + i) / PGSIZE = va / PGSIZE) ∧
      (n = len ∨ va / PGSIZE * PGSIZE + PGSIZE = va + n) := by
  rw [PGSIZE_eq] at hn ⊢
  refine ⟨by omega, by omega, by omega, by omega, fun i hi => by omega, by omega⟩

/-- The pages of the first turn of a copy, and those of the rest. -/
theorem faultPages_next {pt' : Pagetable} {len n : Nat} (hlen : 0 < len)
    (hn : n = min (PGSIZE - (va - va / PGSIZE * PGSIZE)) len)
    (hpt : ∀ v pte, leaf pt v = some pte → leaf pt' v = some pte) :
    faultPages sz pt' (va / PGSIZE * PGSIZE + PGSIZE) (len - n) + faultCost sz pt (va / PGSIZE) ≤
      faultPages sz pt va len := by
  have hcost : ∀ v, faultCost sz pt' v ≤ faultCost sz pt v := by
    intro v
    unfold faultCost
    cases hv : leaf pt v with
    | none => split <;> simp_all
    | some pte => simp [hpt v pte hv]
  have hspan : spans va len = spans (va / PGSIZE * PGSIZE + PGSIZE) (len - n) + 1 := by
    unfold spans
    rw [PGSIZE_eq] at hn ⊢
    omega
  have hpage : (va / PGSIZE * PGSIZE + PGSIZE) / PGSIZE = va / PGSIZE + 1 := by
    rw [PGSIZE_eq]
    omega
  unfold faultPages
  rw [hspan, hpage, range'_succ, map_cons, sum_cons, Nat.add_comm]
  exact Nat.add_le_add_left (sum_le_sum fun v _ => hcost v) _

/-! ### copyout -/

/-- `copyoutLoop`, with the number of bytes it has stored as its result. -/
def copyoutCountLoop : Nat → Nat → List UInt8 → UserM Nat
  | 0, _, _ => pure 0
  | fuel + 1, dstva, src =>
    if src = [] then pure 0
    else do
      let va0 := pgRoundDown dstva
      if MAXVA ≤ va0 then pure 0
      else do
        let pa0 ← userPage va0
        if pa0 = 0 then pure 0
        else do
          let u ← .gets id
          match ← onMem (walkNoAlloc u.table va0) with
          | none => .stop .wild
          | some none => pure 0
          | some (some pte) =>
            if pte.perm.w = false then pure 0
            else do
              let n := min (PGSIZE - (dstva - va0)) src.length
              onMem (.modify fun m =>
                { m with byte := store m.byte (pa0 + (dstva - va0)) (src.take n) })
              let rest ← copyoutCountLoop fuel (va0 + PGSIZE) (src.drop n)
              pure (n + rest)

/-- `copyout`, with the number of bytes it has stored as its result. -/
def copyoutCount (dstva : Nat) (src : List UInt8) : UserM Nat :=
  copyoutCountLoop src.length dstva src

/-- `copyout` succeeds if all bytes are stored. -/
theorem copyoutLoop_eq_count (fuel dstva : Nat) (src : List UInt8) (hfuel : src.length ≤ fuel) :
    copyoutLoop fuel dstva src = (do
      let n ← copyoutCountLoop fuel dstva src
      pure (decide (n = src.length))) := by
  induction fuel generalizing dstva src with
  | zero =>
    obtain rfl := length_eq_zero_iff.mp (Nat.le_zero.mp hfuel)
    rfl
  | succ fuel ih =>
    rw [copyoutLoop, copyoutCountLoop]
    by_cases hsrc : src = []
    · subst hsrc
      rfl
    have hpos : 0 < src.length := length_pos_iff.mpr hsrc
    have hzero : decide (0 = src.length) = false := decide_eq_false hpos.ne
    have hfail : (pure 0 >>= fun n => pure (decide (n = src.length)) : UserM Bool) =
        pure false := by
      rw [pure_bind, hzero]
    rw [if_neg hsrc, if_neg hsrc]
    by_cases hmax : MAXVA ≤ pgRoundDown dstva
    · rw [if_pos hmax, if_pos hmax, hfail]
    rw [if_neg hmax, if_neg hmax, bind_assoc]
    refine bind_congr fun pa0 => ?_
    by_cases hpa : pa0 = 0
    · rw [if_pos hpa, if_pos hpa, hfail]
    rw [if_neg hpa, if_neg hpa, bind_assoc]
    refine bind_congr fun u => ?_
    rw [bind_assoc]
    refine bind_congr fun slot => ?_
    rcases slot with _ | _ | pte
    · rfl
    · exact hfail.symm
    dsimp only
    by_cases hw : pte.perm.w = false
    · rw [if_pos hw, if_pos hw, hfail]
    rw [if_neg hw, if_neg hw, bind_assoc]
    refine bind_congr fun _ => ?_
    obtain ⟨n, hn⟩ : ∃ n, n = min (PGSIZE - (dstva - pgRoundDown dstva)) src.length := ⟨_, rfl⟩
    obtain ⟨-, hnpos, hle, -⟩ := page_part hpos hn
    rw [ih _ _ (by rw [length_drop]; omega), bind_assoc]
    refine bind_congr fun rest => ?_
    rw [length_drop]
    congr 2
    simp only [eq_iff_iff]
    omega

theorem copyout_eq_count (dstva : Nat) (src : List UInt8) :
    copyout dstva src = (do
      let n ← copyoutCount dstva src
      pure (decide (n = src.length))) :=
  copyoutLoop_eq_count _ _ _ le_rfl

/-- Stores to a page of the process are stores to what it sees. -/
theorem UserOk.store {off : Nat} {bs : List UInt8} (h : UserOk kend total A sz u) (hv : v < NUSER)
    (hpte : leaf u.pt v = some pte) (hlen : off + bs.length ≤ PGSIZE) :
    let u' := { u with mem := { u.mem with
      byte := ByteBuffer.store u.mem.byte (pte.pa + off) bs } }
    Apart kend total A sz u u' ∧ Confined kend sz u u' ∧
      u'.view = u.view.store (v * PGSIZE + off) bs := by
  have hframe := mem_frames hv hpte
  have hmem : pte.pa ∈ space u.pt := Multiset.mem_add.mpr (.inr hframe)
  have hout : ∀ k, ¬ (pte.pa ≤ k ∧ k < pte.pa + PGSIZE) →
      ByteBuffer.store u.mem.byte (pte.pa + off) bs k = u.mem.byte k :=
    fun _ hk => store_of_outside (by omega)
  have hstored := h.own.holds.write hmem hout
  refine ⟨⟨⟨hstored.own, h.image, h.sz_eq, h.other⟩, hstored.same⟩,
    ⟨fun x hx => low_of_outside (h.own.holds.mem hmem) hout hx, fun _ _ hv => hv,
      fun _ hne => absurd rfl hne⟩, ?_⟩
  have hnodup := (Multiset.nodup_add.mp (Multiset.nodup_add.mp h.own.nodup).1).2.1
  refine view_store hnodup (fun q hq => ?_) hv hpte hlen
  exact (mem_pages.mp (h.own.mem (Multiset.mem_add.mpr
    (.inl (Multiset.mem_add.mpr (.inr hq)))))).1

/-- An address beyond `MAXVA` is not one of the memory. -/
theorem not_writable_of_MAXVA (h : UserOk kend total A sz u)
    (hva : MAXVA ≤ pgRoundDown va) : u.view.writable sz va = false := by
  have hsz := h.image.sz_le
  rw [h.sz_eq, TRAPFRAME_eq, PGSIZE_eq] at hsz
  rw [MAXVA_eq, PGSIZE_eq] at hva
  have hno : ¬ pgRoundDown va < sz := by omega
  simp [View.writable, View.readable, hno]

/-- What a copy to the process's memory leaves: `n` of the bytes are stored, and none only if
the first cannot be. -/
structure CopiedOut (kend total : Nat) (A : Multiset Nat) (sz dstva : Nat) (src : List UInt8)
    (u : User) (n : Nat) (u' : User) : Prop where
  apart : Apart kend total A sz u u'
  confined : Confined kend sz u u'
  passed : Passed (u.mem.Short (faultPages sz u.pt dstva src.length)) (u.view.writable sz) dstva
    src.length n
  first : n = 0 → src ≠ [] →
    u.view.writable sz dstva = false ∨ u.mem.Short (faultPages sz u.pt dstva 1)
  view : u'.view = u.view.store dstva (src.take n)
  same : src = [] → u' = u

/-- The loop of `copyout`, page by page. -/
theorem wp_copyoutCountLoop (fuel dstva : Nat) (src : List UInt8) (hfuel : src.length ≤ fuel)
    (h : UserOk kend total A sz u) :
    wp (copyoutCountLoop fuel dstva src) (CopiedOut kend total A sz dstva src u) E u := by
  induction fuel generalizing u dstva src with
  | zero =>
    obtain rfl := length_eq_zero_iff.mp (Nat.le_zero.mp hfuel)
    exact wp_pure.mpr ⟨(Unseen.refl h).toApart, .refl kend sz u, .all nofun,
      fun _ hne => absurd rfl hne, by simp, fun _ => rfl⟩
  | succ fuel ih =>
    rw [copyoutCountLoop, wp_ite]
    refine ⟨fun hsrc => ?_, fun hsrc => ?_⟩
    · subst hsrc
      exact wp_pure.mpr ⟨(Unseen.refl h).toApart, .refl kend sz u, .all nofun,
        fun _ hne => absurd rfl hne, by simp, fun _ => rfl⟩
    have hpos : 0 < src.length := length_pos_iff.mpr hsrc
    -- the exits before anything is stored
    have hstop : ∀ {u' : User}, Unseen kend total A sz u u' → Confined kend sz u u' →
        (u.view.writable sz dstva = false ∨ u.mem.Short (faultPages sz u.pt dstva 1)) →
        CopiedOut kend total A sz dstva src u 0 u' := by
      intro u' hunseen hconf hno
      refine ⟨hunseen.toApart, hconf, .none (hno.imp_right fun hshort => hshort.mono ?_),
        fun _ _ => hno, by simpa using hunseen.view, fun hnil => absurd hnil hsrc⟩
      rw [faultPages_one]
      exact (Nat.le_add_left ..).trans (faultPages_next hpos rfl fun _ _ hv => hv)
    rw [wp_ite]
    refine ⟨fun hmax => wp_pure.mpr (hstop (.refl h) (.refl kend sz u)
      (.inl (not_writable_of_MAXVA h hmax))), fun _ => ?_⟩
    refine wp_then (wp_and (wp_userPage h) (wp_userPage_confined (E := E) h)) ?_
    rintro pa u1 ⟨⟨h1, hpage⟩, hc1⟩
    rw [wp_ite]
    refine ⟨fun hpa => ?_, fun hpa => ?_⟩
    · rw [if_pos hpa] at hpage
      refine wp_pure.mpr (hstop h1 hc1 (hpage.imp (fun hno => ?_) fun hno => ?_))
      · simp [View.writable, hno]
      · rw [faultPages_one]
        exact hno.2
    rw [if_neg hpa] at hpage
    obtain ⟨hreadable, hspent, perm, hleaf, hlt⟩ := hpage
    have hperm := view_perm_of_leaf hlt hleaf
    rw [h1.view] at hperm
    rw [wp_bind, wp_gets, wp_bind, id, h1.ok.table]
    refine wp_onMem ?_
    rw [pgRoundDown_eq]
    refine wp_walkNoAlloc (by omega) ?_
    rw [slot_isSome (by omega) hleaf]
    rw [wp_ite]
    refine ⟨fun hw => wp_pure.mpr (hstop h1 hc1 (.inl ?_)), fun hw => ?_⟩
    · rw [View.writable, hperm, hw, Bool.and_false]
    have hwritable : u.view.writable sz dstva = true := by
      rw [View.writable, hreadable, hperm]
      simpa using hw
    -- the part of the bytes that goes to this page
    obtain ⟨n, hn⟩ : ∃ n, n = min (PGSIZE - (dstva - dstva / PGSIZE * PGSIZE)) src.length :=
      ⟨_, rfl⟩
    obtain ⟨hoff, hnpos, hle, hfit, hsame, hnext⟩ := page_part hpos hn
    have hpass : ∀ i, i < n → u.view.writable sz (dstva + i) = true := by
      intro i hi
      rw [u.view.writable_congr (hsame i hi), hwritable]
    have hlen : (src.take n).length = n := by
      rw [length_take]
      omega
    rw [← hlen] at hfit
    rw [← hn, wp_bind]
    obtain ⟨hap, hc2, hview⟩ := h1.ok.store hlt hleaf hfit
    rw [hoff, h1.view] at hview
    refine wp_onMem (wp_modify.mpr ?_)
    refine wp_then (ih (dstva / PGSIZE * PGSIZE + PGSIZE) (src.drop n)
      (by rw [length_drop]; omega) hap.ok) ?_
    intro rest u2 h2
    have hpassed := h2.passed
    have hview2 := h2.view
    rw [hview, length_drop] at hpassed
    rw [hview] at hview2
    have hpassed := hpassed.imp fun hshort =>
      (hspent _ (h1.ok.own.short_of_eq hap.ok.own rfl hshort)).mono
        (faultPages_next hpos hn hc1.mapped)
    refine wp_pure.mpr ⟨(h1.toApart.trans hap).trans h2.apart, (hc1.trans hc2).trans h2.confined,
      ?_, fun hzero => by omega, ?_, fun hnil => absurd hnil hsrc⟩
    -- the next turn starts where this one ended, unless this was the last
    · rcases hnext with hall | hnext
      · obtain rfl : rest = 0 := by
          have := hpassed.le
          omega
        rw [hall] at hpass ⊢
        exact .all hpass
      · rw [hnext] at hpassed
        exact .later hle hpass hpassed
    · rcases hnext with hall | hnext
      · have hnil : src.drop n = [] := by rw [hall, drop_length]
        rw [hview2, hnil, take_nil, View.store_nil, hall, take_length,
          take_of_length_le (Nat.le_add_right ..)]
      · have happend := u.view.store_append dstva (src.take n) ((src.drop n).take rest)
        rw [hlen] at happend
        rw [hview2, hnext, happend, take_add]

/-- **`copyout`** stores to the pages of the process, as far as it may write and there
are pages. -/
theorem wp_copyoutCount (dstva : Nat) (src : List UInt8) (h : UserOk kend total A sz u) :
    wp (copyoutCount dstva src) (CopiedOut kend total A sz dstva src u) E u :=
  wp_copyoutCountLoop _ _ _ le_rfl h

/-- With pages for all of it, `copyout` stores as far as it may write. -/
theorem wp_copyout (dstva : Nat) (src : List UInt8) (h : UserOk kend total A sz u) :
    wp (copyout dstva src) (fun ok u' => Apart kend total A sz u u' ∧
      (u.mem.Short (faultPages sz u.pt dstva src.length) ∨
        ok = decide (reach (u.view.writable sz) dstva src.length = src.length) ∧
        u'.view = u.view.store dstva
          (src.take (reach (u.view.writable sz) dstva src.length)))) E u := by
  rw [copyout_eq_count]
  refine wp_then (wp_copyoutCount dstva src h) fun n u' h' => wp_pure.mpr ⟨h'.apart, ?_⟩
  exact h'.passed.short_or_reach.imp_right fun hn => ⟨by rw [hn], by rw [← hn, h'.view]⟩

/-! ### copyin -/

/-- What a copy from the process's memory fetches: the first `n` of the bytes. -/
def CopiedIn (kend total : Nat) (A : Multiset Nat) (sz srcva len : Nat) (u : User)
    (r : List UInt8 × Bool) (u' : User) : Prop :=
  Unseen kend total A sz u u' ∧
    ∃ n, Passed (u.mem.Short (faultPages sz u.pt srcva len)) (u.view.readable sz) srcva len n ∧
    r = (load u.view.byte srcva n, decide (n = len))

theorem wp_copyinLoop (fuel srcva len : Nat) (hfuel : len ≤ fuel) (h : UserOk kend total A sz u) :
    wp (copyinLoop fuel srcva len) (CopiedIn kend total A sz srcva len u) E u := by
  induction fuel generalizing u srcva len with
  | zero =>
    obtain rfl := Nat.le_zero.mp hfuel
    exact wp_pure.mpr ⟨.refl h, 0, .all nofun, rfl⟩
  | succ fuel ih =>
    rw [copyinLoop, wp_ite]
    refine ⟨fun hlen => ?_, fun hlen => ?_⟩
    · subst hlen
      exact wp_pure.mpr ⟨.refl h, 0, .all nofun, rfl⟩
    have hpos : 0 < len := Nat.pos_of_ne_zero hlen
    refine wp_then (wp_and (wp_userPage h) (wp_userPage_confined (E := E) h)) ?_
    rintro pa u1 ⟨⟨h1, hpage⟩, hc1⟩
    rw [wp_ite]
    refine ⟨fun hpa => wp_pure.mpr ⟨h1, 0, ?_, ?_⟩, fun hpa => ?_⟩
    · rw [if_pos hpa] at hpage
      refine .none (hpage.imp_right fun hno => hno.2.mono ?_)
      exact (Nat.le_add_left ..).trans (faultPages_next hpos rfl fun _ _ hv => hv)
    · rw [decide_eq_false hpos.ne]
      rfl
    rw [if_neg hpa] at hpage
    obtain ⟨hreadable, hspent, perm, hleaf, hlt⟩ := hpage
    obtain ⟨n, hn⟩ : ∃ n, n = min (PGSIZE - (srcva - srcva / PGSIZE * PGSIZE)) len := ⟨_, rfl⟩
    obtain ⟨hoff, hnpos, hle, hfit, hsame, hnext⟩ := page_part hpos hn
    have hpass : ∀ i, i < n → u.view.readable sz (srcva + i) = true := by
      intro i hi
      rw [u.view.readable_congr (hsame i hi), hreadable]
    have hload := load_view (m := u1.mem) hlt hleaf hfit
    rw [hoff, show Vm.view u1.mem (leaf u1.pt) = u.view from h1.view] at hload
    rw [pgRoundDown_eq, ← hn, wp_bind, wp_gets, wp_bind, id, hload]
    refine wp_imp (ih _ (len - n) (by omega) h1.ok) ?_
    rintro ⟨bs, ok⟩ u2 ⟨h2, rest, hpassed, hr⟩
    have hpassed := hpassed.imp fun hshort =>
      (hspent _ hshort).mono (faultPages_next hpos hn hc1.mapped)
    rw [h1.view] at hpassed hr
    obtain ⟨rfl, rfl⟩ := Prod.mk.inj hr
    refine wp_pure.mpr ⟨h1.trans h2, n + rest, ?_, ?_⟩
    · rcases hnext with hall | hnext
      · obtain rfl : rest = 0 := by
          have := hpassed.le
          omega
        rw [hall] at hpass ⊢
        exact .all hpass
      · rw [hnext] at hpassed
        exact .later hle hpass hpassed
    · refine Prod.ext ?_ ?_
      · rcases hnext with hall | hnext
        · obtain rfl : rest = 0 := by
            have := hpassed.le
            omega
          exact append_nil _
        · rw [hnext, load_add]
      · change decide _ = decide _
        congr 1
        simp only [eq_iff_iff]
        omega

/-- **`copyin`** fetches what the process sees, as far as it may read and there are
pages. -/
theorem wp_copyin_passed (srcva len : Nat) (h : UserOk kend total A sz u) :
    wp (copyin srcva len) (CopiedIn kend total A sz srcva len u) E u :=
  wp_copyinLoop _ _ _ le_rfl h

/-- With pages for all of it, `copyin` fetches as far as it may read. -/
theorem wp_copyin (srcva len : Nat) (h : UserOk kend total A sz u) :
    wp (copyin srcva len) (fun r u' => Unseen kend total A sz u u' ∧
      (u.mem.Short (faultPages sz u.pt srcva len) ∨
        r = (load u.view.byte srcva (reach (u.view.readable sz) srcva len),
          decide (reach (u.view.readable sz) srcva len = len)))) E u := by
  refine wp_imp (wp_copyin_passed srcva len h) ?_
  rintro r u' ⟨h', n, hpassed, hr⟩
  refine ⟨h', hpassed.short_or_reach.imp_right fun hn => ?_⟩
  rw [← hn, hr]

/-! ### Into another table -/

/-- The page is there for user code. -/
def Present (pt : Pagetable) (v : Nat) : Prop :=
  v < NUSER ∧ ∃ pte, leaf pt v = some pte ∧ pte.perm.u = true ∧ pte.pa ≠ 0

theorem wp_copyoutLoop_other (fuel dstva : Nat) (src : List UInt8) (hother : u.other = some pt)
    (hpresent : ∀ v, dstva / PGSIZE ≤ v → v * PGSIZE < dstva + src.length → Present pt v)
    (hB : ∀ pa ∈ frames (leaf pt), pa ∈ B) (h : Owns kend total u.mem B) :
    wp (copyoutLoop fuel dstva src)
      (fun _ u' => ∃ mem, u' = { u with mem := mem } ∧ Owns kend total mem B) E u := by
  induction fuel generalizing u dstva src with
  | zero => exact wp_pure.mpr ⟨u.mem, rfl, h⟩
  | succ fuel ih =>
    have hstay : ∃ mem, u = { u with mem := mem } ∧ Owns kend total mem B := ⟨u.mem, rfl, h⟩
    simp only [copyoutLoop, wp_ite, wp_bind]
    refine ⟨fun _ => wp_pure.mpr hstay, fun hsrc => ⟨fun _ => wp_pure.mpr hstay, fun _ => ?_⟩⟩
    have hlen : 0 < src.length := length_pos_iff.mpr hsrc
    have htable : u.table = pt := by
      rw [User.table, hother]
      rfl
    have hstart : dstva / PGSIZE * PGSIZE < dstva + src.length := by
      rw [PGSIZE_eq]
      omega
    obtain ⟨hlt, pte, hleaf, hu, hpa⟩ := hpresent _ le_rfl hstart
    have hwalk := walkaddr_of_leaf (by omega) hleaf hu
    simp only [userPage, wp_bind, wp_gets, id, htable, pgRoundDown_eq, hwalk, if_neg hpa, wp_pure]
    refine ⟨fun h0 => absurd h0 hpa, fun _ => wp_onMem (wp_walkNoAlloc (by omega) ?_)⟩
    rw [slot_isSome (by omega) hleaf]
    rw [wp_ite]
    refine ⟨fun _ => wp_pure.mpr hstay, fun _ => ?_⟩
    rw [wp_bind]
    refine wp_onMem (wp_modify.mpr (wp_imp (ih _ _ hother ?_ (h.store (hB _ (mem_frames hlt hleaf))
      ?_)) ?_))
    · intro v hlo hhi
      rw [length_drop, PGSIZE_eq] at hhi
      rw [PGSIZE_eq] at hlo
      refine hpresent v ?_ ?_ <;> rw [PGSIZE_eq] <;> omega
    · rw [length_take, PGSIZE_eq]
      omega
    · rintro _ u' ⟨mem, rfl, h'⟩
      exact ⟨mem, rfl, h'⟩

/-- `copyout` to pages that are mapped, of a table that is not the process's
own: only the contents of its pages change. -/
theorem wp_copyout_other (dstva : Nat) (src : List UInt8) (hother : u.other = some pt)
    (hpresent : ∀ v, dstva / PGSIZE ≤ v → v * PGSIZE < dstva + src.length → Present pt v)
    (hB : ∀ pa ∈ frames (leaf pt), pa ∈ B) (h : Owns kend total u.mem B) : wp (copyout dstva src)
      (fun _ u' => ∃ mem, u' = { u with mem := mem } ∧ Owns kend total mem B) E u :=
  wp_copyoutLoop_other _ _ _ hother hpresent hB h

end Xv6.Vm
