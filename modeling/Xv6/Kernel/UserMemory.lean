import Xv6.Kernel.PageProc

/-!
# xv6 — what user code does to memory

Loads and stores of user code. An access to a page that user code has no mapping
for traps, the kernel may map a page, and the access is repeated.

* `wp_userLoad`, `wp_userWrite` — a load finds what the process sees of its memory,
  a store changes that at one address, and nothing else is touched.
* `accesses_apart`              — whatever a process does to its memory, the others
  see no difference.
-/

namespace Xv6.Kernel

open Prog Vm TransitionRun

/-- User code uses an address. If there is no page it may use, it traps. -/
def touch (p : Pid) (va : Nat) : KM Unit := do
  let pt ← pagetableOf p
  Prog.when (walkaddr pt (pgRoundDown va) = 0) (pageFault p va)

/-- A load of user code: the byte it finds, `none` if the process is killed for it. -/
def userLoad (p : Pid) (va : Nat) : KM (Option UInt8) := do
  touch p va
  let pt ← pagetableOf p
  let k ← .gets id
  match walkaddr pt (pgRoundDown va) with
  | 0 => pure none
  | pa => pure (some (k.mem.byte (pa + va % PGSIZE)))

/-- A store of user code. -/
def userWrite (p : Pid) (va : Nat) (v : UInt8) : KM Unit := do
  touch p va
  userStore p va v

variable {L : Layout} {A : Multiset Nat} {u : Pid → Bool} {k k' : State} {p q r : Pid} {va : Nat}

/-- What using an address does: nothing the process sees. Unless memory is short, the page is
there afterwards. -/
structure Touched (L : Layout) (A : Multiset Nat) (u : Pid → Bool) (p : Pid) (va : Nat)
    (k k' : State) : Prop where
  good : Good L A u k'
  aside : Aside L p k k'
  view : k'.view p = k.view p
  sz : (k'.proc p).sz = (k.proc p).sz
  short : va < (k.proc p).sz → k'.entry p va = none → k.mem.Short (k.faults p va 1)

theorem wp_touch (h : Good L A u k) (hp : u p = false) :
    wp (touch p va) (fun _ k' => Touched L A u p va k k') NotVm k := by
  obtain ⟨pt, _, _, hspace, -⟩ := h.openSpace hp
  have hpt : (k.proc p).pagetable = some pt := congrArg Space.pagetable hspace
  simp only [touch, wp_bind]
  refine wp_pagetableOf hpt (wp_when.mpr ⟨fun _ => ?_, fun hwalk => ?_⟩)
  · refine wp_imp (wp_pageFault h hp) ?_
    rintro _ k' ⟨h', haside, hview, hsz, hshort⟩
    exact ⟨h', haside, hview, hsz, hshort⟩
  · refine ⟨h, .refl L p k, rfl, rfl, fun _ hentry => ?_⟩
    obtain ⟨-, pte, hleaf, -⟩ := Vm.walkaddr_ne_zero hwalk
    rw [State.entry_eq hpt, ← pgRoundDown_div, hleaf] at hentry
    cases hentry

/-- A page the process may read is found, if there is one. -/
theorem Good.walkaddr_ne_zero {pt : Pagetable} (h : Good L A u k) (hp : u p = false)
    (hpt : (k.proc p).pagetable = some pt)
    (hreadable : (k.view p).readable (k.proc p).sz va = true) (hentry : k.entry p va ≠ none) :
    walkaddr pt (pgRoundDown va) ≠ 0 := by
  obtain ⟨pt', B, hpt', hopen, -⟩ := h.openUser hp
  obtain rfl := Option.some.inj (hpt.symm.trans hpt')
  obtain ⟨pte, hpte⟩ := Option.ne_none_iff_exists'.mp hentry
  rw [State.entry_eq hpt] at hpte
  simp only [View.readable, Bool.and_eq_true, decide_eq_true_eq] at hreadable
  obtain ⟨hsz, hu⟩ := hreadable
  have hlt := (hopen.page_lt hsz).2
  rw [← State.view_user hpt, view_perm_of_leaf hlt hpte] at hu
  rw [pgRoundDown_eq, walkaddr_of_leaf (by omega) hpte hu]
  exact hopen.own.free_frame.ne_zero (Multiset.mem_add.mpr
    (.inl (Multiset.mem_add.mpr (.inr (mem_frames hlt hpte)))))

/-- What is found is what the process sees, and it may read it. -/
theorem Good.byte_of_walkaddr {pt : Pagetable} (h : Good L A u k) (hp : u p = false)
    (hpt : (k.proc p).pagetable = some pt) (hwalk : walkaddr pt (pgRoundDown va) ≠ 0) :
    (k.view p).readable (k.proc p).sz va = true ∧
      k.mem.byte (walkaddr pt (pgRoundDown va) + va % PGSIZE) = (k.view p).byte va := by
  obtain ⟨pt', B, hpt', hopen, -⟩ := h.openUser hp
  obtain rfl := Option.some.inj (hpt.symm.trans hpt')
  obtain ⟨-, pte, hleaf, hu, hpte⟩ := Vm.walkaddr_ne_zero hwalk
  rw [pgRoundDown_div] at hleaf
  obtain ⟨hpage, hlt⟩ := hopen.image.user hleaf hu
  refine ⟨?_, ?_⟩
  · have hsz : pgRoundDown va < (k.proc p).sz := by
      change _ < npages (k.proc p).sz at hpage
      rw [npages, pgRoundUp, PGSIZE_eq] at hpage
      rw [pgRoundDown_eq, PGSIZE_eq]
      omega
    rw [View.readable, ← State.view_user hpt,
      view_perm_of_leaf hlt hleaf, hu]
    simp [hsz]
  · rw [State.view_eq hpt, ← hpte]
    simp only [view, userEntry_of_lt hlt, hleaf, look, Option.elim_some]

/-- **A load** finds what the process sees. It fails only if the process may not read
there, or if there was no memory for the page. -/
theorem wp_userLoad (h : Good L A u k) (hp : u p = false) :
    wp (userLoad p va) (fun r k' => Touched L A u p va k k' ∧ match r with
      | some b => (k.view p).readable (k.proc p).sz va = true ∧ b = (k.view p).byte va
      | none => (k.view p).readable (k.proc p).sz va = false ∨ k'.entry p va = none) NotVm k := by
  simp only [userLoad, wp_bind]
  refine wp_imp (wp_touch h hp) fun _ k1 h1 => ?_
  obtain ⟨pt, _, _, hspace, -⟩ := h1.good.openSpace hp
  have hpt : (k1.proc p).pagetable = some pt := congrArg Space.pagetable hspace
  refine wp_pagetableOf hpt ?_
  simp only [wp_gets]
  split
  · rename_i hwalk
    refine wp_pure.mpr ⟨h1, ?_⟩
    rw [← h1.view, ← h1.sz]
    by_contra hno
    push Not at hno
    exact h1.good.walkaddr_ne_zero hp hpt (by simpa using hno.1) hno.2 hwalk
  · rename_i hwalk
    have hbyte := h1.good.byte_of_walkaddr hp hpt hwalk
    rw [h1.view, h1.sz] at hbyte
    exact wp_pure.mpr ⟨h1, hbyte⟩

/-- **A store** changes what the process sees at one address, if it may write there and
there was memory for the page. -/
theorem wp_userWrite {v : UInt8} (h : Good L A u k) (hp : u p = false) :
    wp (userWrite p va v) (fun _ k' => Good L A u k' ∧ Aside L p k k' ∧
      (k'.proc p).sz = (k.proc p).sz ∧
      (va < (k.proc p).sz → k'.entry p va = none → k.mem.Short (k.faults p va 1)) ∧
      k'.view p = if (k.view p).writable (k.proc p).sz va = true ∧ (k'.entry p va).isSome
        then (k.view p).store va [v] else k.view p) NotVm k := by
  simp only [userWrite, wp_bind]
  refine wp_imp (wp_touch h hp) fun _ k1 h1 => ?_
  refine wp_imp (wp_userStore h1.good hp) ?_
  rintro _ k2 ⟨h2, haside, hproc, hview⟩
  have hentry : k2.entry p va = k1.entry p va := by rw [State.entry, State.entry, hproc]
  rw [← hentry, h1.view, h1.sz] at hview
  exact ⟨h2, h1.aside.trans haside, by rw [hproc, h1.sz], hentry ▸ h1.short, hview⟩

/-! ### Sequences of accesses -/

/-- A load or a store of user code. -/
inductive Access where
  | load (va : Nat)
  | store (va : Nat) (v : UInt8)

/-- User code of `p` uses its memory; `fails` are the answers `kalloc` gets. -/
def access (p : Pid) (fails : List Bool) (a : Access) : KM Unit := do
  setFails fails
  match a with
  | .load va => do
    let _ ← userLoad p va
    pure ()
  | .store va v => userWrite p va v

/-- An access by one of the processes in `P`. -/
def AccessStep (P : Pid → Prop) (k : State) (x : Pid × List Bool × Access) (k' : State) : Prop :=
  P x.1 ∧ access x.1 x.2.1 x.2.2 k = .ok ((), k')

theorem wp_setFails (fails : List Bool) (h : Good L A u k) :
    wp (setFails fails) (fun _ k' => Good L A u k' ∧ Aside L p k k') NotVm k := by
  have hsame : Holds (outside L p k) { k.mem with fails := fails } ((k.proc p).space.pages + A) :=
    Holds.of_eq (h.open p).inv.front.holds rfl rfl rfl rfl
  refine wp_modify.mpr ⟨⟨⟨?_, h.inv.proc, h.inv.files.of_eq rfl rfl⟩, h.unused⟩,
    (Aside.refl L p k).setMem hsame⟩
  exact h.inv.own.of_eq rfl rfl rfl rfl

/-- An access leaves everything but the process alone. -/
theorem access_apart {fails : List Bool} {a : Access} (h : Good L A u k) (hp : u p = false)
    (ha : access p fails a k = .ok ((), k')) : Good L A u k' ∧ Aside L p k k' := by
  refine wp_ok (E := NotVm) (Q := fun _ k' => Good L A u k' ∧ Aside L p k k') ?_ ha
  simp only [access, wp_bind]
  refine wp_imp (wp_setFails (p := p) _ h) ?_
  rintro _ k1 ⟨h1, haside⟩
  cases a with
  | load va =>
    simp only [wp_bind]
    refine wp_imp (wp_userLoad h1 hp) fun _ k2 h2 => wp_pure.mpr ?_
    exact ⟨h2.1.good, haside.trans h2.1.aside⟩
  | store va v =>
    refine wp_imp (wp_userWrite h1 hp) fun _ k2 h2 => ?_
    exact ⟨h2.1, haside.trans h2.2.1⟩

/-- **Isolation of user code.** Whatever processes other than `r` do to their memory,
`r` sees no difference. -/
theorem accesses_apart {P : Pid → Prop} {l : List (Pid × List Bool × Access)}
    (h : Good L A u k) (hP : ∀ q, P q → u q = false) (hrun : Run (AccessStep P) k l k') :
    Good L A u k' ∧ ∀ r, ¬ P r → k'.proc r = k.proc r ∧ k'.view r = k.view r := by
  refine hrun.invariant (P := fun k' => Good L A u k' ∧
    ∀ r, ¬ P r → k'.proc r = k.proc r ∧ k'.view r = k.view r) ⟨h, fun _ _ => ⟨rfl, rfl⟩⟩ ?_
  rintro k1 ⟨q, fails, a⟩ k2 ⟨h1, hsame⟩ ⟨hq, ha⟩
  obtain ⟨h2, haside⟩ := access_apart h1 (hP q hq) ha
  refine ⟨h2, fun r hr => ?_⟩
  have hrq : r ≠ q := fun heq => hr (heq ▸ hq)
  rw [haside.proc_of_ne hrq, h1.view_aside haside hrq]
  exact hsame r hr

end Xv6.Kernel
