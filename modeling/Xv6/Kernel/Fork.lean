import Xv6.Kernel.Conservation
import Xv6.Kernel.UserMemory

/-!
# xv6 — `fork` copies and isolates memory

A child sees what its parent sees, in pages of its own; from then on neither can
change what the other sees (`fork_isolates`). If there is no slot or no memory for a
child, nothing of the attempt is left.
-/

namespace Xv6.Kernel

open Prog Vm TransitionRun Function Multiset

variable {L : Layout} {A : Multiset Nat} {u : Pid → Bool} {k k' : State} {p q np : Pid} {va : Nat}
  {r : Int}

/-! ### Two processes -/

theorem Good.unused_iff (h : Good L A u k) : u q = true ↔ (k.proc q).state = .unused := by
  rw [← h.unused q]
  simp [Proc.space]

theorem Good.used_iff (h : Good L A u k) : u q = false ↔ (k.proc q).state ≠ .unused := by
  rw [← Bool.not_eq_true, h.unused_iff]

/-- Two processes own different pages. -/
theorem Good.pages_ne (h : Good L A u k) (hne : q ≠ p) {pa pa' : Nat}
    (hpa : pa ∈ (k.proc p).space.pages) (hpa' : pa' ∈ (k.proc q).space.pages) : pa ≠ pa' := by
  have hothers : pa' ∈ others L p k :=
    mem_add.mpr (.inl (mem_add.mpr (.inr (mem_sum.mpr
      ⟨q, Finset.mem_erase.mpr ⟨hne, Finset.mem_univ q⟩, hpa'⟩))))
  exact ((h.open p).inv.front.ne_of_mem (mem_add.mpr (.inl hpa)) hothers).symm

/-- The page behind a user address belongs to the process. -/
theorem Good.mem_pages_of_entry (h : Good L A u k) (hva : va < TRAPFRAME) {pte : Pte}
    (hpte : k.entry q va = some pte) : pte.pa ∈ (k.proc q).space.pages := by
  refine (h.inv.proc q (Finset.mem_univ q)).mem_pages (mem_frames ?_ hpte)
  rw [TRAPFRAME_eq, PGSIZE_eq] at hva
  rw [PGSIZE_eq]
  omega

theorem Good.trapframe_mem (h : Good L A u k) (hq : u q = false) :
    (k.proc q).trapframe ∈ (k.proc q).space.pages := by
  obtain ⟨pt, -, -, hpages⟩ := (h.inv.proc q (Finset.mem_univ q)).alive ((h.unused q).trans hq)
  rw [State.res_proc] at hpages
  rw [hpages]
  exact mem_add.mpr (.inl (mem_singleton_self _))

/-! ### What a process reads -/

/-- A load of process `q` at `va` gives `b`, unless the page there is not for user code
or memory is short of the pages to have it. -/
def Reads (k : State) (q : Pid) (va : Nat) (b : UInt8) : Prop :=
  ∀ o k1, userLoad q va k = .ok (o, k1) → o = some b ∨
    o = none ∧ ((∃ pte, k.entry q va = some pte ∧ pte.perm.u = false) ∨
      k1.entry q va = none ∧ k.mem.Short (k.faults q va 1))

/-- A process reads what it sees. -/
theorem Good.reads (h : Good L A u k) (hq : u q = false) (hva : va < (k.proc q).sz) :
    Reads k q va ((k.view q).byte va) := by
  intro o k1 hload
  obtain ⟨htouched, ho⟩ := wp_ok (wp_userLoad h hq) hload
  cases o with
  | some b => exact .inl (by rw [ho.2])
  | none =>
    refine .inr ⟨rfl, ho.imp (fun hno => ?_) fun hentry => ⟨hentry, htouched.short hva hentry⟩⟩
    obtain ⟨pt, sz, _, hspace, himage, -⟩ := h.openSpace hq
    have hpt : (k.proc q).pagetable = some pt := congrArg Space.pagetable hspace
    have hsz : (k.proc q).sz = sz := congrArg Space.sz hspace
    have hsz := hsz.trans_le himage.sz_le
    have hlt : va / PGSIZE < NUSER := (lt_npages hva).trans_le (npages_le_iff.mpr hsz)
    have hround : pgRoundDown va < (k.proc q).sz := by
      rw [pgRoundDown_eq, PGSIZE_eq]
      omega
    rw [View.readable, decide_eq_true hround, State.view_eq hpt] at hno
    rw [State.entry_eq hpt]
    simp only [view, userEntry_of_lt hlt] at hno
    cases hleaf : leaf pt (va / PGSIZE) with
    | none =>
      rw [hleaf] at hno
      cases hno
    | some pte =>
      rw [hleaf] at hno
      exact ⟨pte, rfl, hno⟩

/-- Memory never touched reads as zero. -/
theorem view_byte_of_none (h : k.entry q va = none) : (k.view q).byte va = 0 := by
  have hentry : userEntry (fun v => (k.proc q).pagetable.bind (leaf · v)) (va / PGSIZE) = none := by
    rw [userEntry]
    split
    · exact h
    · rfl
  simp only [State.view, view, hentry]
  rfl

/-! ### The failed attempt -/

/-- The slot of a failed attempt is unused again, so the same pages are owned. -/
theorem Good.owned_aside (h : Good L A u k) (h' : Good L A u k') (hq : u q = true)
    (ha : Aside L q k k') : k'.owned L.boot = k.owned L.boot := by
  have hpages : ∀ r, (k'.proc r).space.pages = (k.proc r).space.pages := by
    intro r
    by_cases hr : r = q
    · rw [hr, Space.pages, Space.pages, h.unused q, h'.unused q, hq]
      rfl
    · rw [ha.proc_of_ne hr]
  obtain ⟨pr, mem, n, rfl⟩ := ha.only
  simp only [State.owned, hpages]
  rfl

theorem Good.free_eq (h : Good L A u k) (h' : Good L A u k')
    (howned : k'.owned L.boot = k.owned L.boot) :
    ∃ n, countFreeMem k.mem = .ok (n, k.mem) ∧ countFreeMem k'.mem = .ok (n, k'.mem) := by
  obtain ⟨n, _, hn, rfl, hcard⟩ :=
    exists_ok_of_wp (wp_countFreeMem h.inv.own)
  obtain ⟨n', _, hn', rfl, hcard'⟩ :=
    exists_ok_of_wp (wp_countFreeMem h'.inv.own)
  change n' + PGSIZE * (k'.owned L.boot + A).card = _ at hcard'
  change n + PGSIZE * (k.owned L.boot + A).card = _ at hcard
  rw [howned] at hcard'
  obtain rfl : n' = n := by omega
  exact ⟨n', hn, hn'⟩

/-! ### fork -/

/-- **`fork` copies and isolates memory.** If it makes a child, then in a slot that was
unused; at every address of the memory the child has the permissions of its parent and
reads what its parent reads; no page is in both memories; and after any accesses of the
two, whatever one of them does, the other's memory stays as it is. If it makes none, the
parent, the open files and the file system are as before, and no slot and no page stays
taken. -/
theorem fork_isolates (h : Good L A u k) (hp : (k.proc p).state ≠ .unused)
    (hfork : kfork p k = .ok (r, k')) :
    (∃ np, (k.proc np).state = .unused ∧ (k'.proc np).state ≠ .unused ∧ (k'.proc np).pid = r ∧
      k'.proc p = k.proc p ∧ k'.view p = k.view p ∧ (k'.proc np).sz = (k.proc p).sz ∧
      (∀ va, va < (k.proc p).sz → (k'.entry np va).map Pte.perm = (k.entry p va).map Pte.perm ∧
        ∃ b, Reads k p va b ∧ Reads k' np va b ∧ (k.entry p va = none → b = 0)) ∧
      (k'.proc np).trapframe ≠ (k'.proc p).trapframe ∧
      (∀ va va' pte pte', va < TRAPFRAME → va' < TRAPFRAME → k'.entry np va = some pte →
        k'.entry p va' = some pte' → pte.pa ≠ pte'.pa) ∧
      ∀ l k1, Run (AccessStep fun q => q = p ∨ q = np) k' l k1 → ∀ l' k2,
        (Run (AccessStep (· = p)) k1 l' k2 → k2.proc np = k1.proc np ∧ k2.view np = k1.view np) ∧
        (Run (AccessStep (· = np)) k1 l' k2 → k2.proc p = k1.proc p ∧ k2.view p = k1.view p)) ∨
    r = -1 ∧ k'.proc p = k.proc p ∧ k'.view p = k.view p ∧
      k'.file = k.file ∧ k'.pipe = k.pipe ∧ k'.fs = k.fs ∧
      (∀ q, (k.proc q).state ≠ .unused → k'.proc q = k.proc q) ∧
      (∀ q, (k'.proc q).state = .unused ↔ (k.proc q).state = .unused) ∧
      ∃ n, countFreeMem k.mem = .ok (n, k.mem) ∧ countFreeMem k'.mem = .ok (n, k'.mem) := by
  have hup := h.used_iff.mpr hp
  obtain ⟨np, hf⟩ | ⟨hr, h', hk'⟩ := wp_ok (wp_kfork_pages h hup) hfork
  · have hnp := h.unused_of_freeSlot hf.slot
    have hne : p ≠ np := by
      rintro rfl
      cases hup.symm.trans hnp
    have hunp : update u np false np = false := update_self ..
    have hup' : update u np false p = false := (update_of_ne hne ..).trans hup
    refine .inl ⟨np, h.unused_iff.mp hnp, hf.good.used_iff.mp hunp, hf.pid, (hf.rest p hne).1,
      (hf.rest p hne).2, hf.sz,
      fun va hva => ⟨hf.perm va hva, (k.view p).byte va, h.reads hup hva, ?_, view_byte_of_none⟩,
      ?_, fun va va' pte pte' hva hva' hpte hpte' => ?_, fun l k1 hl l' k2 => ?_⟩
    · rw [← hf.view]
      exact hf.good.reads hunp (hf.sz.symm ▸ hva)
    · exact hf.good.pages_ne hne (hf.good.trapframe_mem hunp) (hf.good.trapframe_mem hup')
    · exact hf.good.pages_ne hne (hf.good.mem_pages_of_entry hva hpte)
        (hf.good.mem_pages_of_entry hva' hpte')
    · have hboth : ∀ q, q = p ∨ q = np → update u np false q = false := by
        rintro q (rfl | rfl)
        · exact hup'
        · exact hunp
      obtain ⟨h1, -⟩ := accesses_apart hf.good hboth hl
      refine ⟨fun hl' => ?_, fun hl' => ?_⟩
      · exact (accesses_apart h1 (fun q hq => hboth q (.inl hq)) hl').2 np hne.symm
      · exact (accesses_apart h1 (fun q hq => hboth q (.inr hq)) hl').2 p hne
  · have hslots : ∀ q, (k'.proc q).state = .unused ↔ (k.proc q).state = .unused :=
      fun q => h'.unused_iff.symm.trans h.unused_iff
    obtain ⟨-, rfl⟩ | ⟨q, hslot, haside⟩ := hk'
    · exact .inr ⟨hr, rfl, rfl, rfl, rfl, rfl, fun _ _ => rfl, hslots, h.free_eq h rfl⟩
    · have hq := h.unused_of_freeSlot hslot
      have hother : ∀ q', (k.proc q').state ≠ .unused → q' ≠ q := by
        rintro _ hused rfl
        exact hused (h.unused_iff.mp hq)
      refine .inr ⟨hr, haside.proc_of_ne (hother p hp), h.view_aside haside (hother p hp), ?_⟩
      have hfree := h.free_eq h' (h.owned_aside h' hq haside)
      have hsame : ∀ q', (k.proc q').state ≠ .unused → k'.proc q' = k.proc q' :=
        fun q' hq' => haside.proc_of_ne (hother q' hq')
      obtain ⟨pr, mem, n, rfl⟩ := haside.only
      exact ⟨rfl, rfl, rfl, hsame, hslots, hfree⟩

/-- Init grows its memory by a part of a page, lazily. -/
def growLazily : List Event := [.dispatch 0 [], .call 0 (.sbrk 5000 2) []]

/-- Init, with its guard page and a page it has never touched, forks. -/
theorem fork_isolates_growLazily : ∃ k s s', userinit small = .ok ((), k) ∧
    Run Step k growLazily s ∧ kfork 0 s = .ok (2, s') ∧ (s.proc 0).sz = 13192 ∧
    s.entry 0 8192 = none ∧ ∃ np, (s.proc np).state = .unused ∧ (s'.proc np).sz = 13192 ∧
      ∀ va, va < 13192 → (s'.entry np va).map Pte.perm = (s.entry 0 va).map Pte.perm ∧
        ∃ b, Reads s 0 va b ∧ Reads s' np va b ∧ (s.entry 0 va = none → b = 0) := by
  obtain ⟨k, s, hboot, hrun, hs⟩ := userinit_of_bootRun small growLazily (C := fun _ _ => True)
    (f := fun s => ((s.proc 0).sz, (s.entry 0 8192).isNone, (s.proc 0).state,
      (kfork 0 s).toOption.map Prod.fst))
    (b := (13192, true, .running, some 2)) (by decide +kernel)
  simp only [Prod.mk.injEq, Option.isNone_iff_eq_none, Option.map_eq_some_iff] at hs
  obtain ⟨hsz, hentry, hstate, ⟨r, s'⟩, hfork, rfl⟩ := hs
  obtain ⟨u1, h1⟩ := wp_ok (wp_userinit_pages (fresh_small.good bootMem_small)) hboot
  obtain ⟨u, h⟩ := good_run h1 hrun.of_restrict
  refine ⟨k, s, s', hboot, hrun.of_restrict, ok_of_toOption hfork, hsz, hentry, ?_⟩
  obtain ⟨np, hunused, -, -, -, -, hsz', hread, -⟩ | ⟨hr, -⟩ :=
    fork_isolates h (by rw [hstate]; nofun) (ok_of_toOption hfork)
  · rw [hsz] at hsz' hread
    exact ⟨np, hunused, hsz', hread⟩
  · cases hr

end Xv6.Kernel
