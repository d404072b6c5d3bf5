import Xv6.Kernel.PageFlow

/-!
# xv6 — where processes take pages and leave them

`allocproc`, `freeproc`, `kfork`, `kwait` and `growproc` work on the memory of one
process. While they do, that process is not whole and its pages are those of the
running code (`Opened`); each exit puts it back.
-/

namespace Xv6.Kernel

open Prog Vm Function

variable {pr : Proc} {tf va : Nat} {pt : Pagetable} {np : Pid} {n : Int}

/-- Process `q`, with the memory `s`, is being worked on: its pages are among those
the running code holds. -/
structure Opened (L : Layout) (q : Pid) (s : Space) (A : Multiset Nat) (u : Pid → Bool)
    (k : State) : Prop where
  inv : Inv L (Finset.univ.erase q) A k.res
  slot : (k.proc q).space = s
  unused : ∀ r, r ≠ q → (k.proc r).space.unused = u r

/-- Process `q` is being worked on since `k0`, and nothing else has changed. -/
structure Working (L : Layout) (q : Pid) (k0 : State) (s : Space) (A : Multiset Nat)
    (u : Pid → Bool) (k : State) : Prop extends Opened L q s A u k, Aside L q k0 k

variable {α : Type} {L : Layout} {A : Multiset Nat} {u : Pid → Bool} {k k0 : State} {p q : Pid}
  {s : Space}

/-- The slot itself may be changed freely. -/
theorem Working.setProc (h : Working L q k0 s A u k) (s' : Space) (hpr : pr.space = s') :
    Working L q k0 s' A u (k.setProc q pr) := by
  refine ⟨⟨?_, ?_, fun r hr => ?_⟩, h.toAside.setProc pr⟩
  · rw [State.res_setProc]
    exact h.inv.setProc (Finset.notMem_erase q _) _
  · rw [State.setProc_proc_same]
    exact hpr
  · rw [State.setProc_proc_of_ne _ _ hr]
    exact h.unused r hr

/-- An update of the slot is one of its memory, `g`. -/
theorem Working.wp_updProc {f : Proc → Proc} (h : Working L q k0 s A u k) (g : Space → Space)
    (hf : ∀ pr, (f pr).space = g pr.space) :
    wp (updProc q f) (fun _ k' => Working L q k0 (g s) A u k') NotVm k :=
  Kernel.wp_updProc.mpr (h.setProc _ ((hf _).trans (congrArg g h.slot)))

/-- Memory is not touched by that. -/
theorem keepsMem_updProc {f : Proc → Proc} : Keeps NotVm State.mem (updProc q f) :=
  .modify fun _ => rfl

/-- What the process sees is what its table maps. -/
theorem Opened.view {unused : Bool} {sz : Nat} (h : Opened L q ⟨unused, sz, some pt, tf⟩ A u k) :
    k.view q = Vm.view k.mem (leaf pt) :=
  State.view_eq (congrArg Space.pagetable h.slot)

theorem Opened.sz {unused : Bool} {sz : Nat} {pt : Option Pagetable}
    (h : Opened L q ⟨unused, sz, pt, tf⟩ A u k) : (k.proc q).sz = sz :=
  congrArg Space.sz h.slot

/-- The running code uses memory. `P` says what it holds afterwards. -/
theorem Working.wp_mem {m : MemM α} {P : α → Multiset Nat → Mem → Prop} (h : Working L q k0 s A u k)
    (hm : Holds (outside L q k) k.mem A →
      wp m (fun a mem => ∃ A', P a A' mem ∧ Holds (outside L q k) mem A') (fun _ => False) k.mem) :
    wp (onMem m) (fun a k' => ∃ A', P a A' k'.mem ∧ Working L q k0 s A' u k') NotVm k := by
  refine wp_onMem_res (wp_imp (hm h.inv.front.holds) ?_)
  rintro a mem ⟨A', hP, hmem⟩
  exact ⟨A', hP, ⟨h.inv.mem hmem.own, h.slot, h.unused⟩, h.toAside.setMem hmem⟩

/-- The work began earlier. -/
theorem Working.since {k1 : State} (h : Working L q k1 s A u k) (ha : Aside L q k0 k1) :
    Working L q k0 s A u k :=
  ⟨h.toOpened, ha.trans h.toAside⟩

/-- A process is taken out. -/
theorem Good.open (h : Good L A u k) (q : Pid) :
    Working L q k (k.proc q).space ((k.proc q).space.pages + A) u k :=
  ⟨⟨h.inv.openProc (Finset.mem_univ q), rfl, fun r _ => h.unused r⟩, .refl L q k⟩

/-- It is put back. -/
theorem Opened.close (h : Opened L q s (s.pages + A) u k) (hok : s.Ok) :
    Good L A (update u q s.unused) k := by
  obtain ⟨hinv, hslot, hunused⟩ := h
  subst hslot
  refine ⟨Inv.closeProc (Finset.mem_univ q) hinv hok, fun r => ?_⟩
  by_cases hr : r = q
  · rw [hr, update_self]
  · rw [update_of_ne hr]
    exact hunused r hr

/-- A process in use is taken out. -/
theorem Good.openSpace (h : Good L A u k) (hq : u q = false) :
    ∃ pt sz tf, (k.proc q).space = ⟨false, sz, some pt, tf⟩ ∧ Image (leaf pt) sz ∧ tf ≠ 0 ∧
      Working L q k ⟨false, sz, some pt, tf⟩ (Vm.space pt + ({tf} + A)) u k := by
  have hused := (h.unused q).trans hq
  obtain ⟨pt, hpt, himage, htf, hinv⟩ := h.inv.openSpace (Finset.mem_univ q) hused
  have hslot : (k.proc q).space = ⟨false, (k.proc q).sz, some pt, (k.proc q).trapframe⟩ := by
    rw [← hused, ← hpt]
    rfl
  exact ⟨pt, _, _, hslot, himage, htf, ⟨hinv, hslot, fun r _ => h.unused r⟩, .refl L q k⟩

/-- It is put back whole. -/
theorem Opened.closeSpace {sz : Nat}
    (h : Opened L q ⟨false, sz, some pt, tf⟩ (Vm.space pt + ({tf} + A)) u k) (htf : tf ≠ 0)
    (himage : Image (leaf pt) sz) : Good L A (update u q false) k := by
  refine Opened.close (s := ⟨false, sz, some pt, tf⟩) ?_ ⟨nofun, fun _ => ⟨htf, nofun⟩, ?_⟩
  · rwa [Space.pages_whole htf, add_right_comm, add_comm _ (Vm.space pt)]
  · rintro _ ⟨⟩
    exact himage

/-! ### Slots -/

/-- `kfree` of the trap frame, if there is one. -/
theorem Working.wp_freeTrapframe (h : Working L q k0 s ((if tf = 0 then 0 else {tf}) + A) u k) :
    wp (Prog.when (tf ≠ 0) (onMem (kfree tf))) (fun _ k' => Working L q k0 s A u k') NotVm k := by
  rw [wp_when]
  refine ⟨fun htf => ?_, fun htf => ?_⟩
  · rw [if_neg htf] at h
    refine wp_imp (h.wp_mem (P := fun _ A' _ => A' = A) fun hmem => ?_) ?_
    · exact wp_imp (wp_kfree hmem) fun _ _ hmem' => ⟨A, rfl, hmem'.1⟩
    · rintro _ k' ⟨_, rfl, h'⟩
      exact h'
  · rwa [if_pos (not_not.mp htf), zero_add] at h

/-- `proc_freepagetable`, if there is a table. -/
theorem Working.wp_freePagetable {pt : Option Pagetable} {sz : Nat}
    (himage : ∀ t, pt = some t → Image (leaf t) sz)
    (h : Working L q k0 s (pt.elim 0 Vm.space + A) u k) :
    wp (freePagetable pt sz) (fun _ k' => Working L q k0 s A u k') NotVm k := by
  rcases pt with _ | pt
  · rw [Option.elim, zero_add] at h
    exact wp_pure.mpr h
  · refine wp_imp (h.wp_mem (P := fun _ A' _ => A' = A) fun hmem => ?_) ?_
    · exact wp_imp (wp_procFreepagetable (himage pt rfl) hmem) fun _ _ hmem' => ⟨A, rfl, hmem'⟩
    · rintro _ k' ⟨_, rfl, h'⟩
      exact h'

/-- **`freeproc`** frees what the slot holds. -/
theorem wp_freeproc_pages (hfits : s.Fits) (h : Working L q k0 s (s.held + A) u k) :
    wp (freeproc q) (fun _ k' => Good L A (update u q true) k' ∧ Aside L q k0 k') NotVm k := by
  have hslot := h.slot
  subst hslot
  rw [Space.held, add_assoc] at h
  simp only [freeproc, wp_bind, wp_gets]
  refine wp_imp h.wp_freeTrapframe fun _ k1 h1 => ?_
  refine wp_imp (h1.wp_updProc ({ · with trapframe := 0 }) fun _ => rfl) fun _ k2 h2 => ?_
  refine wp_imp (h2.wp_freePagetable hfits) fun _ k3 h3 => ?_
  refine wp_imp (h3.wp_updProc (fun s => ⟨true, 0, none, s.trapframe⟩) fun _ => rfl)
    fun _ k4 h4 => ?_
  refine ⟨Opened.close (s := ⟨true, 0, none, 0⟩) ?_ ⟨fun _ => ⟨rfl, rfl, rfl⟩, by rintro ⟨⟩,
    by rintro _ ⟨⟩⟩, h4.toAside⟩
  rw [Space.pages, if_pos rfl, zero_add]
  exact h4.toOpened

/-- A slot that is not in use, taken out. -/
theorem Good.openUnused (h : Good L A u k) (hq : u q = true) :
    Working L q k ⟨true, 0, none, 0⟩ A u k := by
  have hunused := (h.unused q).trans hq
  obtain ⟨hsz, hpt, htf⟩ := (h.inv.proc q (Finset.mem_univ q)).clear hunused
  have hslot : (k.proc q).space = ⟨true, 0, none, 0⟩ := by exact Space.ext hunused hsz hpt htf
  have hopen := h.open q
  rwa [hslot, Space.pages, if_pos rfl, zero_add] at hopen

/-- The next process gets the next number. -/
theorem Working.setNextpid (h : Working L q k0 s A u k) (n : Int) :
    Working L q k0 s A u { k with nextpid := n } := by
  refine ⟨⟨h.inv, h.slot, h.unused⟩, h.toAside.trans ⟨⟨k.proc q, k.mem, n, ?_⟩, fun pa _ =>
    .refl k.mem pa⟩⟩
  rw [update_eq_self]

/-- `kalloc` by code that works on a process. -/
theorem Working.wp_kalloc (h : Working L q k0 s A u k) :
    wp (onMem kalloc) (fun r k' => r = 0 ∧ Working L q k0 s A u k' ∨
      r ≠ 0 ∧ Working L q k0 s (r ::ₘ A) u k') NotVm k := by
  refine wp_imp (h.wp_mem (P := fun r A' _ => r = 0 ∧ A' = A ∨ r ≠ 0 ∧ A' = r ::ₘ A)
    fun hmem => wp_imp (Vm.wp_kalloc hmem) ?_) ?_
  · rintro r mem ⟨⟨hr, hmem⟩ | ⟨hr, hmem⟩, -⟩
    · exact ⟨A, .inl ⟨hr, rfl⟩, hmem⟩
    · exact ⟨r ::ₘ A, .inr ⟨hr, rfl⟩, hmem⟩
  · rintro r k' ⟨A', ⟨hr, rfl⟩ | ⟨hr, rfl⟩, h'⟩
    · exact .inl ⟨hr, h'⟩
    · exact .inr ⟨hr, h'⟩

/-- `proc_pagetable` by code that works on a process. -/
theorem Working.wp_procPagetable (h : Working L q k0 s A u k) :
    wp (onMem (procPagetable tf)) (fun r k' => match r with
      | none => Working L q k0 s A u k'
      | some pt => Image (leaf pt) 0 ∧ Working L q k0 s (Vm.space pt + A) u k') NotVm k := by
  refine wp_imp (h.wp_mem (P := fun r A' _ => match r with
      | none => A' = A
      | some pt => Image (leaf pt) 0 ∧ A' = Vm.space pt + A)
    fun hmem => wp_imp (Vm.wp_procPagetable hmem) ?_) ?_
  · rintro (_ | pt) mem hmem
    · exact ⟨A, rfl, hmem⟩
    · exact ⟨_, ⟨hmem.2, rfl⟩, hmem.1⟩
  · rintro (_ | pt) k' ⟨A', hA', h'⟩
    · rwa [hA'] at h'
    · obtain ⟨himage, rfl⟩ := hA'
      exact ⟨himage, h'⟩

/-- The slot the next process gets. -/
def State.freeSlot (k : State) : Option Pid :=
  (List.finRange NPROC).find? fun q => (k.proc q).state = .unused

theorem Good.unused_of_freeSlot (h : Good L A u k) (hq : k.freeSlot = some q) : u q = true := by
  have hstate : (k.proc q).state = .unused := by simpa using List.find?_some hq
  rw [← h.unused q]
  simp [Proc.space, hstate]

/-- What `allocproc` leaves: no trace in the slot that was free, or a process with an
empty memory there. -/
def Allocated (L : Layout) (A : Multiset Nat) (u : Pid → Bool) (k : State) (r : Option Pid)
    (k' : State) : Prop :=
  match r with
  | none => Good L A u k' ∧
      (k.freeSlot = none ∧ k' = k ∨ ∃ q, k.freeSlot = some q ∧ Aside L q k k')
  | some q => k.freeSlot = some q ∧ Good L A (update u q false) k' ∧
      (k'.proc q).sz = 0 ∧ Aside L q k k'

/-- **`allocproc`** makes an unused slot a process with an empty memory, or leaves it
as it was. -/
theorem wp_allocproc_pages (h : Good L A u k) : wp allocproc (Allocated L A u k) NotVm k := by
  simp only [allocproc, wp_bind, wp_gets]
  split
  · exact wp_pure.mpr ⟨h, .inl ⟨‹_›, rfl⟩⟩
  rename_i q hq
  have hu := h.unused_of_freeSlot hq
  -- the exits after a failed allocation
  have hfail : ∀ {k' : State} {tf : Nat},
      Working L q k ⟨false, 0, none, tf⟩ ((if tf = 0 then 0 else {tf}) + A) u k' →
      wp (do freeproc q; pure none) (Allocated L A u k) NotVm k' := by
    intro k' tf h'
    rw [wp_bind]
    have hfits : (⟨false, 0, none, tf⟩ : Space).Fits := fun _ hpt => by cases hpt
    have hheld : Working L q k ⟨false, 0, none, tf⟩
        ((⟨false, 0, none, tf⟩ : Space).held + A) u k' := by
      rwa [Space.held, Option.elim, add_zero]
    refine wp_imp (wp_freeproc_pages hfits hheld) ?_
    rintro _ k'' ⟨h'', haside⟩
    rw [← hu, update_eq_self] at h''
    exact wp_pure.mpr ⟨h'', .inr ⟨q, hq, haside⟩⟩
  simp only [wp_bind, wp_modify]
  have h1 := (h.openUnused hu).setNextpid (toInt (k.nextpid + 1))
  refine wp_imp (h1.wp_updProc ({ · with unused := false }) fun _ => rfl) fun _ k2 h2 => ?_
  refine wp_imp h2.wp_kalloc ?_
  rintro tf k3 (⟨rfl, h3⟩ | ⟨htf, h3⟩)
  · refine wp_imp (h3.wp_updProc ({ · with trapframe := 0 }) fun _ => rfl) fun _ k4 h4 => ?_
    exact hfail (by rwa [if_pos rfl, zero_add])
  refine wp_imp (h3.wp_updProc ({ · with trapframe := tf }) fun _ => rfl) fun _ k4 h4 => ?_
  rw [if_neg htf]
  refine wp_then h4.wp_procPagetable fun pt k5 h5 => ?_
  rw [wp_bind]
  rcases pt with _ | pt
  · refine wp_imp (h5.wp_updProc ({ · with pagetable := none }) fun _ => rfl) fun _ k6 h6 => ?_
    exact hfail (by rwa [if_neg htf])
  · refine wp_imp (h5.2.wp_updProc ({ · with pagetable := some pt }) fun _ => rfl)
      fun _ k6 h6 => ?_
    have hsz : (k6.proc q).sz = 0 := congrArg Space.sz h6.slot
    exact wp_pure.mpr ⟨hq, h6.closeSpace htf h5.1, hsz, h6.toAside⟩

/-! ### fork -/

/-- A change of a process that no owner notices. -/
theorem Good.setProc (h : Good L A u k) (hpr : pr.space = (k.proc q).space) :
    Good L A u (k.setProc q pr) := by
  refine h.of_res ?_
  rw [State.res_setProc, hpr, ← State.res_proc, Resources.setProc, update_eq_self]

/-- A process in use stays one. -/
theorem Good.setState (h : Good L A u k) (hq : u q = false)
    (hpr : ({ pr.space with unused := (k.proc q).space.unused } : Space) = (k.proc q).space)
    (hstate : pr.state ≠ .unused) : Good L A u (k.setProc q pr) := by
  refine h.setProc ?_
  rw [← hpr, (h.unused q).trans hq]
  simp [Proc.space, hstate]

theorem flows_dupFiles : Flows L A u (dupFiles p np) := by
  refine .each (fun fd => .bind (.gets _) fun k => ?_) _
  split
  · exact .pure _
  · exact .bind flows_filedup fun _ => flows_setFd

/-- `uvmcopy` into the table of the process that is being worked on. -/
theorem Working.wp_uvmcopy {old new : Pagetable} {sz : Nat} (hsz : sz ≤ TRAPFRAME)
    (hold : ∀ pa ∈ frames (leaf old), pa ∈ others L q k) (himage : Image (leaf new) 0)
    (h : Working L q k0 s (Vm.space new + A) u k) :
    wp (onMem (uvmcopy old new sz)) (fun r k' => Image (leaf r.1) (if r.2 then sz else 0) ∧
      (r.2 = true → Copied k.mem k'.mem (leaf old) (leaf r.1) (npages sz)) ∧
      Working L q k0 s (Vm.space r.1 + A) u k') NotVm k := by
  refine wp_imp (h.wp_mem (P := fun r A' mem => (Image (leaf r.1) (if r.2 then sz else 0) ∧
    (r.2 = true → Copied k.mem mem (leaf old) (leaf r.1) (npages sz))) ∧
    A' = Vm.space r.1 + A) fun hmem => ?_) ?_
  · exact wp_imp (Vm.wp_uvmcopy hsz hold himage hmem) fun r mem hmem => ⟨_, ⟨hmem.2, rfl⟩, hmem.1⟩
  · rintro r k' ⟨_, ⟨hr, rfl⟩, h'⟩
    exact ⟨hr.1, hr.2, h'⟩

/-- The slots other than `np`. -/
def State.procsBut (k : State) (np : Pid) : {q : Pid // q ≠ np} → Proc := fun q => k.proc q.1

/-- What giving the child its files leaves alone. -/
def shared (np : Pid) (k : State) : Mem × ({q : Pid // q ≠ np} → Proc) × Space × Int :=
  (k.mem, k.procsBut np, (k.proc np).space, (k.proc np).pid)

theorem shared_setProc (k : State) (np : Pid) (pr : Proc) :
    shared np (k.setProc np pr) = (k.mem, k.procsBut np, pr.space, pr.pid) := by
  have hrest : (k.setProc np pr).procsBut np = k.procsBut np :=
    funext fun q => State.setProc_proc_of_ne _ _ q.2
  rw [shared, hrest, State.setProc_proc_same]
  rfl

theorem keeps_dupFiles : Keeps NotVm (shared np) (dupFiles p np) := by
  refine .each (fun fd => .bind (.gets _) fun k => ?_) _
  split
  · exact .pure _
  refine .bind (.bind (.gets _) fun k => .ite (.stop fun _ => nofun) (.modify fun _ => rfl))
    fun _ => .modify fun k => ?_
  rw [shared_setProc]
  rfl

/-- The child becomes whole when it takes over the size of its parent. -/
theorem wp_forkShare_pages (htf : tf ≠ 0) (himage : Image (leaf pt) (k.proc p).sz)
    (h : Working L np k0 ⟨false, 0, some pt, tf⟩ (Vm.space pt + ({tf} + A)) u k) :
    wp (forkShare p np) (fun r k' => Good L A (update u np false) k' ∧
      shared np k' = (k.mem, k.procsBut np, ⟨false, (k.proc p).sz, some pt, tf⟩, r)) NotVm k := by
  have hslot : ((k.proc np).inherit (k.proc p)).space = ⟨false, (k.proc p).sz, some pt, tf⟩ :=
    congrArg ({ · with sz := (k.proc p).sz }) h.slot
  simp only [forkShare, wp_bind, wp_gets, id]
  rw [wp_updProc]
  have h1 := h.setProc _ hslot
  have hshared : shared np (k.setProc np ((k.proc np).inherit (k.proc p))) =
      (k.mem, k.procsBut np, ⟨false, (k.proc p).sz, some pt, tf⟩, (k.proc np).pid) := by
    rw [shared_setProc, hslot]
    rfl
  refine wp_imp (wp_and (flows_dupFiles.wp _ (h1.closeSpace htf himage))
    (keeps_dupFiles.to hshared)) ?_
  rintro _ k2 ⟨h2, hshared2⟩
  split
  · exact wp_stop.mpr (by rintro _ ⟨⟩)
  rw [wp_bind]
  have hkeep : ∀ ip, Keeps NotVm (shared np) (onFs (Fs.idup ip)) :=
    fun _ => .zoom (by rintro _ _ ⟨⟩) fun _ _ => rfl
  refine wp_imp (wp_and (flows_onFs.wp _ h2) ((hkeep _).to hshared2)) ?_
  rintro _ k3 ⟨h3, hshared3⟩
  rw [wp_bind, wp_updProc]
  refine wp_pure.mpr ⟨h3.setState (update_self ..) rfl (by rintro ⟨⟩), ?_⟩
  have hpid : (k2.proc np).pid = (k.proc np).pid := congrArg (·.2.2.2) hshared2
  have hspace : (k3.proc np).space = ⟨false, (k.proc p).sz, some pt, tf⟩ :=
    congrArg (·.2.2.1) hshared3
  rw [hpid, ← hshared3, shared_setProc, shared]
  rw [hspace, ← show ({ (k3.proc np).space with unused := false } : Space) =
    ⟨false, (k.proc p).sz, some pt, tf⟩ by rw [hspace]]
  rfl

/-- The entry of process `q` for an address. -/
def State.entry (k : State) (q : Pid) (va : Nat) : Option Pte :=
  (k.proc q).pagetable.bind (leaf · (va / PGSIZE))

theorem State.entry_eq (h : (k.proc q).pagetable = some pt) (va : Nat) :
    k.entry q va = leaf pt (va / PGSIZE) := by
  rw [State.entry, h]
  rfl

/-- How many pages it may take to have all of `len` bytes at `va` of process `p` in memory. -/
def State.faults (k : State) (p : Pid) (va len : Nat) : Nat :=
  (k.proc p).pagetable.elim 0 (faultPages (k.proc p).sz · va len)

theorem State.faults_eq (h : (k.proc p).pagetable = some pt) (va len : Nat) :
    k.faults p va len = faultPages (k.proc p).sz pt va len := by
  rw [State.faults, h]
  rfl

/-- **`copyout`** stores as far as the process may write, unless memory is short. -/
theorem wp_copyout_reach {E : Stop → Prop} {bs : List UInt8} (h : Good L A u k) (hp : u p = false) :
    wp (copyout p va bs) (fun ok k' => Good L A u k' ∧ Aside L p k k' ∧
      (k'.proc p).sz = (k.proc p).sz ∧ (k.mem.Short (k.faults p va bs.length) ∨
        ok = decide (reach ((k.view p).writable (k.proc p).sz) va bs.length = bs.length) ∧
        k'.view p = (k.view p).store va
          (bs.take (reach ((k.view p).writable (k.proc p).sz) va bs.length)))) E k := by
  refine wp_imp (wp_onUser h hp fun hs => wp_copyout va bs hs) ?_
  rintro ok k' ⟨h', haside, pt, s', hpt, rfl, hr⟩
  rw [State.view_user hpt, ← State.view_putUser k p s'] at hr
  refine ⟨h', haside, by simp [State.putUser], ?_⟩
  rwa [State.faults_eq hpt]

/-- The child `np` that `kfork` of `p` makes: a process in a slot that was unused, that
sees what its parent sees. -/
structure Forked (L : Layout) (A : Multiset Nat) (u : Pid → Bool) (p : Pid) (k : State) (np : Pid)
    (r : Int) (k' : State) : Prop where
  slot : k.freeSlot = some np
  good : Good L A (update u np false) k'
  pid : (k'.proc np).pid = r
  sz : (k'.proc np).sz = (k.proc p).sz
  view : k'.view np = k.view p
  perm : ∀ va, va < (k.proc p).sz →
    (k'.entry np va).map Pte.perm = (k.entry p va).map Pte.perm
  rest : ∀ q, q ≠ np → k'.proc q = k.proc q ∧ k'.view q = k.view q

/-- **`kfork`** gives the child pages of its own, or leaves no trace. -/
theorem wp_kfork_pages (h : Good L A u k) (hp : u p = false) :
    wp (kfork p) (fun r k' => (∃ np, Forked L A u p k np r k') ∨ r = -1 ∧ Good L A u k' ∧
        (k.freeSlot = none ∧ k' = k ∨ ∃ q, k.freeSlot = some q ∧ Aside L q k k')) NotVm k := by
  simp only [kfork, wp_bind]
  refine wp_imp (wp_allocproc_pages h) ?_
  rintro (_ | np) k1 h1
  · exact wp_pure.mpr (.inr ⟨rfl, h1⟩)
  obtain ⟨hslot, h1, hsz, haside⟩ := h1
  have hnp := h.unused_of_freeSlot hslot
  have hne : p ≠ np := by
    rintro rfl
    rw [hp] at hnp
    cases hnp
  obtain ⟨old, szp, tfp, hspace, himage, -, -⟩ :=
    h1.openSpace ((update_of_ne hne ..).trans hp)
  obtain ⟨new, sz, tf, hspace', himage', htf, h2⟩ :=
    h1.openSpace (update_self ..)
  have hold : (k1.proc p).pagetable = some old := congrArg Space.pagetable hspace
  have hszp : (k1.proc p).sz = szp := congrArg Space.sz hspace
  have hnew : (k1.proc np).pagetable = some new := congrArg Space.pagetable hspace'
  have hsz' : sz = 0 := (congrArg Space.sz hspace').symm.trans hsz
  have hframes : ∀ pa ∈ frames (leaf old), pa ∈ others L np k1 := by
    intro pa hpa
    refine h1.mem_others hne ?_
    rw [hold]
    exact hpa
  subst hsz' hszp
  simp only [wp_bind, wp_gets, id, hold, hnew]
  refine wp_imp (h2.wp_uvmcopy himage.sz_le hframes himage') ?_
  rintro ⟨new', ok⟩ k3 ⟨himage3, hcopied, h3⟩
  rw [wp_updProc]
  have h4 : Working L np k1 ⟨false, 0, some new', tf⟩ (Vm.space new' + ({tf} + A))
      (update u np false)
      (k3.setProc np { k3.proc np with pagetable := some new' }) := by
    exact h3.setProc _ (congrArg ({ · with pagetable := some new' }) h3.slot)
  have h4 := h4.since haside
  cases ok with
  | true =>
    have hp4 := h4.toAside.proc_of_ne hne
    have hp1 := haside.proc_of_ne hne
    refine wp_imp (wp_forkShare_pages htf ?_ h4) ?_
    · rw [hp4, ← hp1]
      exact himage3
    rintro r k5 ⟨h5, hshared⟩
    simp only [shared, Prod.mk.injEq] at hshared
    obtain ⟨hmem, hothers, hspace5, hpid⟩ := hshared
    rw [hp4] at hspace5
    have hchild : (k5.proc np).pagetable = some new' := congrArg Space.pagetable hspace5
    refine .inl ⟨np, hslot, ?_, hpid, congrArg Space.sz hspace5, ?_, fun va hva => ?_,
      fun q hq => ?_⟩
    · rwa [update_idem] at h5
    · rw [State.view_eq hchild, hmem, ← h.view_aside haside hne, State.view_eq hold]
      exact view_copied (hcopied rfl) himage himage3
    · rw [State.entry_eq hchild, State.entry_eq (hp1 ▸ hold)]
      rw [← hp1] at hva
      exact (hcopied rfl _ (lt_npages hva)).perm
    · have hproc : k5.proc q = k.proc q :=
        (congrFun hothers ⟨q, hq⟩).trans (h4.toAside.proc_of_ne hq)
      refine ⟨hproc, ?_⟩
      rw [← h.view_aside h4.toAside hq, State.view, State.view, hproc, hmem,
        h4.toAside.proc_of_ne hq]
  | false =>
    rw [if_neg Bool.false_ne_true, wp_bind]
    have hfits : (⟨false, 0, some new', tf⟩ : Space).Fits := by
      rintro _ ⟨⟩
      exact himage3
    have hheld : Working L np k ⟨false, 0, some new', tf⟩
        ((⟨false, 0, some new', tf⟩ : Space).held + A) (update u np false)
        (k3.setProc np { k3.proc np with pagetable := some new' }) := by
      rw [Space.held, if_neg htf, Option.elim, add_right_comm, add_comm _ (Vm.space new')]
      exact h4
    refine wp_imp (wp_freeproc_pages hfits hheld) ?_
    rintro _ k5 ⟨h5, haside5⟩
    rw [update_idem, ← hnp, update_eq_self] at h5
    exact wp_pure.mpr (.inr ⟨rfl, h5, .inr ⟨np, hslot, haside5⟩⟩)

/-! ### exit, wait, kill -/

theorem flows_closeFiles : Flows L A u (closeFiles p) := by
  refine .each (fun fd => .bind (.gets _) fun k => ?_) _
  split
  · exact .pure _
  · exact .bind flows_fileclose fun _ => flows_setFd

/-- Waking up a process does not change whether its slot is used. -/
theorem Proc.space_wake (h : pr.state = .sleeping) (ticks : Nat) :
    (pr.wake ticks).space = pr.space := by
  simp [Proc.wake, Proc.space, h]

theorem keepsRes_wakeup {me : Option Pid} {ch : Chan} : Keeps NotVm State.res (wakeup me ch) := by
  refine .modify fun k => ?_
  have hproc : ∀ q, (if some q ≠ me ∧ (k.proc q).state = .sleeping ∧ (k.proc q).chan = some ch then
      (k.proc q).wake k.ticks else k.proc q).space = (k.proc q).space := by
    intro q
    split
    · rename_i h
      exact Proc.space_wake h.2.1 _
    · rfl
  simp only [State.res, hproc]

theorem keepsRes_wakeupProc {me : Pid} {q : Option Pid} :
    Keeps NotVm State.res (wakeupProc me q) := by
  cases q with
  | none => exact .pure _
  | some q => exact keepsRes_wakeup

theorem keepsRes_reparent : Keeps NotVm State.res (reparent p) := by
  refine .bind (.gets _) fun k => .when (.bind (.modify fun k => ?_) fun _ => keepsRes_wakeupProc)
  have hproc : ∀ q, (if (k.proc q).parent = some p then { k.proc q with parent := k.initproc }
      else k.proc q).space = (k.proc q).space := by
    intro q
    split <;> rfl
  simp only [State.res, hproc]

theorem flows_kexit (hp : u p = false) {status : Int} : Flows L A u (kexit p status) := by
  refine .bind (.gets _) fun k => .ite (.stop fun _ => nofun) ?_
  refine .bind flows_closeFiles fun _ => .bind (.gets _) fun k => .bind flows_onFs fun _ =>
    .bind (flows_updProc fun _ => rfl) fun _ => .bind (Flows.of_res keepsRes_reparent) fun _ =>
    .bind (.gets _) fun k => .bind (Flows.of_res keepsRes_wakeupProc) fun _ => ⟨fun k hk => ?_⟩
  rw [wp_updProc]
  exact hk.setState hp rfl nofun

theorem flows_sleep (hp : u p = false) {ch : Chan} {b : Blocked} : Flows L A u (sleep p ch b) := by
  refine .bind (.gets _) fun k => ⟨fun k hk => ?_⟩
  rw [wp_updProc]
  exact hk.setState hp rfl nofun

/-- **`kwait`** frees the pages of a child that has exited. -/
theorem wp_kwait_pages {addr : Nat} (h : Good L A u k) (hp : u p = false) :
    wp (kwait p addr) (fun _ k' => ∃ u', Good L A u' k') NotVm k := by
  simp only [kwait, wp_bind, wp_gets]
  split
  · rename_i q hq
    have hzombie : (k.proc q).state = .zombie := by
      have hfound := List.find?_some hq
      simp only [decide_eq_true_eq] at hfound
      exact hfound.2
    have huq : u q = false := by
      rw [← h.unused q]
      simp [Proc.space, hzombie]
    have hcopy : Flows L A u (if addr = 0 then pure true
        else copyout p addr (ByteBuffer.leBytes 4 (u32 (k.proc q).xstate))) :=
      .ite (.pure _) (flows_copyout hp)
    refine hcopy.seq h fun ok k1 h1 => wp_ite.mpr ⟨fun _ => ?_, fun _ => wp_pure.mpr ⟨u, h1⟩⟩
    have hok := h1.inv.proc q (Finset.mem_univ q)
    have hopen := h1.open q
    rw [Space.pages, h1.unused q, huq] at hopen
    exact wp_then (wp_freeproc_pages hok.fits hopen) fun _ k2 h2 => wp_pure.mpr ⟨_, h2.1⟩
  · refine wp_ite.mpr ⟨fun _ => wp_pure.mpr ⟨u, h⟩, fun _ => ?_⟩
    exact (flows_sleep hp).seq h fun _ k1 h1 => wp_pure.mpr ⟨u, h1⟩

theorem flows_kkill {pid : Int} : Flows L A u (kkill pid) := by
  refine .bind (.gets _) fun k => ?_
  split
  · exact .pure _
  refine .bind (flows_updProc fun pr => ?_) fun _ => .pure _
  dsimp only
  split
  · rename_i h
    simp [Proc.wake, Proc.space, h]
  · rfl

/-! ### Memory -/

/-- The page table of a process in use. -/
theorem wp_pagetableOf {Q : Pagetable → State → Prop} {E : Stop → Prop}
    (hpt : (k.proc p).pagetable = some pt) (h : Q pt k) : wp (pagetableOf p) Q E k := by
  simp only [pagetableOf, wp_bind, wp_gets, id, hpt]
  exact wp_pure.mpr h

theorem Good.of_update (h : Good L A (update u q false) k) (hq : u q = false) : Good L A u k := by
  rwa [← hq, update_eq_self] at h

/-- The size of a memory after `growproc(n)`. -/
def resized (sz : Nat) (n : Int) : Nat := if 0 ≤ n then sz + n.toNat else min sz (u64 (sz + n))

/-- What `growproc(n)` leaves: a memory of the new size, which shows what was there
below it and zeros above, or the memory as it was. -/
structure Grew (L : Layout) (A : Multiset Nat) (u : Pid → Bool) (p : Pid) (n : Int) (k : State)
    (r : Bool) (k' : State) : Prop where
  good : Good L A u k'
  aside : Aside L p k k'
  memory : if r then (0 < n → (k.proc p).sz + n ≤ TRAPFRAME) ∧
      (k'.proc p).sz = resized (k.proc p).sz n ∧
      k'.view p = (k.view p).truncate (npages (k'.proc p).sz)
    else 0 < n ∧ (k'.proc p).sz = (k.proc p).sz ∧ k'.view p = k.view p

/-- **`growproc`** gives the process zeros above what it had, or takes the end away. -/
theorem wp_growproc (hk : Good L A u k) (hp : u p = false) :
    wp (growproc p n) (Grew L A u p n k) NotVm k := by
  obtain ⟨pt, sz, tf, hspace, himage, htf, hopen⟩ := hk.openSpace hp
  have hpt : (k.proc p).pagetable = some pt := congrArg Space.pagetable hspace
  have hsz : (k.proc p).sz = sz := congrArg Space.sz hspace
  simp only [growproc, wp_bind, wp_gets, id, wp_ite, hsz]
  refine ⟨fun hn => ⟨fun _ => wp_pure.mpr ⟨hk, .refl L p k, hn, rfl, rfl⟩, fun hle => ?_⟩,
    fun hn => ⟨fun hneg => ?_, fun hneg => wp_pure.mpr ⟨hk, .refl L p k, ?_⟩⟩⟩
  · -- larger: pages from the old size up to the new one
    have hbound : sz + n.toNat ≤ TRAPFRAME := by omega
    refine wp_pagetableOf hpt (wp_imp (hopen.wp_mem (P := fun r A' mem =>
      ((∀ q ∈ frames (leaf pt), SamePage k.mem mem q) ∧
        (r.2 = 0 ∧ leaf r.1 = leaf pt ∨ r.2 = sz + n.toNat ∧
          Grown .data (leaf pt) (npages sz) (npages (sz + n.toNat)) (leaf r.1) ∧
          Zeroed mem (leaf r.1) (npages sz) (npages (sz + n.toNat)))) ∧
      A' = Vm.space r.1 + ({tf} + A)) fun hmem => ?_) ?_)
    · refine wp_imp (wp_uvmalloc (Nat.le_add_right ..) himage.sz_le
        (fun v hlo hhi => himage.none hlo hhi) (.inl hbound) hmem) ?_
      rintro r mem ⟨hmem, hsame, hr⟩
      exact ⟨_, ⟨⟨hsame, hr.imp_right fun hr => ⟨hr.1, hr.2.2⟩⟩, rfl⟩, hmem⟩
    rintro ⟨pt', sz'⟩ k1 ⟨_, ⟨⟨hsame, hr⟩, rfl⟩, h1⟩
    refine wp_imp (wp_and (h1.wp_updProc ({ · with pagetable := some pt' }) fun _ => rfl)
      (keepsMem_updProc.wp k1)) ?_
    rintro _ k2 ⟨h2, hmem2⟩
    -- the table is stored in either case, the size only if all pages were there
    refine ⟨fun hzero => wp_pure.mpr ?_, fun hnz => ?_⟩
    · obtain ⟨-, hleaf⟩ | ⟨hsz', -⟩ := hr
      · refine ⟨(h2.closeSpace htf (hleaf ▸ himage)).of_update hp, h2.toAside, hn,
          h2.sz.trans hsz.symm, ?_⟩
        rw [h2.view, hleaf, hopen.view, hmem2]
        exact view_same hsame
      · omega
    · obtain ⟨hzero, -⟩ | ⟨hsz', hgrown, hzeroed⟩ := hr
      · exact absurd hzero hnz
      change sz' = sz + n.toNat at hsz'
      refine wp_imp (wp_and (h2.wp_updProc ({ · with sz := sz' }) fun _ => rfl)
        (keepsMem_updProc.to hmem2)) ?_
      rintro _ k3 ⟨h3, hmem3⟩
      have hle : npages sz ≤ npages sz' := npages_mono (by omega)
      refine wp_pure.mpr ⟨(h3.closeSpace htf ?_).of_update hp, h3.toAside, fun _ => ?_, ?_, ?_⟩
      · rw [hsz']
        exact himage.grown (Nat.le_add_right ..) hbound hgrown
      · omega
      · rw [h3.sz, resized, if_pos (by omega), hsz, hsz']
      · rw [h3.view, h3.sz, hopen.view, truncate_view himage hle, hmem3]
        exact view_grown hgrown (fun v hlo hhi => himage.none hlo hhi) hzeroed hsame
  · -- smaller, unless the sum wraps around: then `uvmdealloc` does nothing
    refine wp_pagetableOf hpt (wp_imp (hopen.wp_mem (P := fun pt' A' mem =>
      (leaf pt' = clear (leaf pt) (npages (u64 (sz + n))) (npages sz) ∧
        ∀ q ∈ frames (leaf pt'), SamePage k.mem mem q) ∧
      A' = Vm.space pt' + ({tf} + A)) fun hmem => ?_) ?_)
    · refine wp_imp (wp_uvmdealloc himage.sz_le hmem) ?_
      rintro pt' mem ⟨hmem, hleaf⟩
      exact ⟨_, ⟨hleaf, rfl⟩, hmem⟩
    rintro pt' k1 ⟨_, ⟨⟨hleaf, hsame⟩, rfl⟩, h1⟩
    refine wp_imp (wp_and (h1.wp_updProc
      ({ · with sz := min sz (u64 (sz + n)), pagetable := some pt' }) fun _ => rfl)
      (keepsMem_updProc.wp k1)) ?_
    rintro _ k2 ⟨h2, hmem2⟩
    rw [hleaf] at hsame
    refine wp_pure.mpr ⟨(h2.closeSpace htf ?_).of_update hp, h2.toAside,
      fun hpos => absurd hpos hn, ?_, ?_⟩
    · rw [hleaf]
      rcases Nat.le_total (u64 (sz + n)) sz with hle | hle
      · rw [Nat.min_eq_right hle]
        exact himage.clear hle
      · rw [Nat.min_eq_left hle, clear_of_le (npages_mono hle)]
        exact himage
    · rw [h2.sz, resized, if_neg (by omega), hsz]
    · rw [h2.view, h2.sz, hopen.view, hmem2, hleaf]
      rcases Nat.le_total (u64 (sz + n)) sz with hle | hle
      · rw [Nat.min_eq_right hle]
        exact view_clear himage hsame hle
      · rw [clear_of_le (npages_mono hle)] at hsame ⊢
        rw [Nat.min_eq_left hle, truncate_view himage le_rfl]
        exact view_same hsame
  · have hzero : n = 0 := by omega
    subst hzero
    refine ⟨fun hpos => absurd hpos hn, by simp [resized], ?_⟩
    rw [hopen.view, hsz, truncate_view himage le_rfl]

theorem flows_growproc (hp : u p = false) : Flows L A u (growproc p n) :=
  ⟨fun _ hk => wp_imp (wp_growproc hk hp) fun _ _ h => h.good⟩

/-- More memory without pages for it: it shows what was there, and zeros above. -/
theorem wp_growLazily (hk : Good L A u k) (hp : u p = false)
    (hwrap : (k.proc p).sz ≤ u64 ((k.proc p).sz + n)) (hle : u64 ((k.proc p).sz + n) ≤ TRAPFRAME) :
    wp (updProc p fun pr => { pr with sz := u64 (pr.sz + n) }) (fun _ k' => Good L A u k' ∧
      Aside L p k k' ∧ (k'.proc p).sz = u64 ((k.proc p).sz + n) ∧
      k'.view p = (k.view p).truncate (npages (k'.proc p).sz)) NotVm k := by
  obtain ⟨pt, sz, tf, hspace, himage, htf, hopen⟩ := hk.openSpace hp
  have hsz : (k.proc p).sz = sz := congrArg Space.sz hspace
  rw [hsz] at hwrap hle ⊢
  refine wp_imp (wp_and (hopen.wp_updProc (fun s => { s with sz := u64 (s.sz + n) }) fun _ => rfl)
    (keepsMem_updProc.wp k)) ?_
  rintro _ k1 ⟨h1, hmem⟩
  refine ⟨(h1.closeSpace htf ?_).of_update hp, h1.toAside, h1.sz, ?_⟩
  · exact himage.mono (npages_mono hwrap) hle
  · rw [h1.view, h1.sz, hopen.view, truncate_view himage (npages_mono hwrap), hmem]

theorem flows_sysSbrk (hp : u p = false) {t : Int} : Flows L A u (sysSbrk p n t) := by
  refine ⟨fun k hk => ?_⟩
  simp only [sysSbrk, wp_bind, wp_gets, wp_ite]
  refine ⟨fun _ => ?_, fun hlazy => ⟨fun _ => wp_pure.mpr hk, fun hwrap =>
    ⟨fun _ => wp_pure.mpr hk, fun hle => ?_⟩⟩⟩
  · refine (flows_growproc hp).andThen hk fun _ k1 h1 => ⟨fun _ => wp_pure.mpr h1, fun _ => ?_⟩
    exact wp_pure.mpr h1
  · exact wp_imp (wp_growLazily hk hp (Nat.le_of_not_lt hwrap) (Nat.le_of_not_lt hle))
      fun _ k1 h1 => wp_pure.mpr h1.1

/-- `sys_meminfo` counts the free list, which ends, and reports the pages that are
not on it. -/
theorem wp_meminfo {E : Stop → Prop} (h : Good L A u k)
    (htotal : L.total = PGSIZE * (pages L.kend).card) :
    wp meminfo (fun r k' => k' = k ∧ r.1 = L.total ∧ r.2.1 ≤ r.1 ∧ r.2.2 = r.1 - r.2.1 ∧
      r.2.2 = PGSIZE * (A + (L.boot + ∑ p, (k.proc p).space.pages + k.res.pipes.val)).card)
      E k := by
  simp only [meminfo, wp_bind]
  refine wp_onMem_res (wp_gets.mpr ?_)
  refine wp_onMem_res (wp_imp (wp_countFreeMem h.inv.front) ?_)
  rintro free mem ⟨rfl, hfree⟩
  have hmem : k.mem.total = L.total := h.inv.own.total_eq
  have hcard := card_pages_le h.inv.own.base
  refine wp_pure.mpr ⟨rfl, hmem, ?_⟩
  simp only [State.res_proc] at hfree
  dsimp only
  generalize PGSIZE * (A + (L.boot + ∑ p, (k.proc p).space.pages + k.res.pipes.val)).card = owned
    at hfree ⊢
  rw [← htotal] at hfree
  rw [PGSIZE_eq] at htotal
  unfold u64
  omega

theorem flows_sysMeminfo (hp : u p = false) {addr : Nat} : Flows L A u (sysMeminfo p addr) := by
  have hmeminfo : Flows L A u meminfo := by
    refine ⟨fun k hk => ?_⟩
    simp only [meminfo, wp_bind]
    refine wp_onMem_res (wp_gets.mpr ?_)
    refine wp_onMem_res (wp_imp (wp_countFreeMem hk.inv.front) ?_)
    rintro free mem ⟨rfl, -⟩
    exact wp_pure.mpr hk
  refine .bind hmeminfo fun r => ?_
  exact .bind (flows_copyout hp) fun _ => .ite (.pure _) (.pure _)

/-- **The page fault of user code** changes nothing the process sees. Unless memory is short,
the page is there afterwards. -/
theorem wp_pageFault (h : Good L A u k) (hp : u p = false) :
    wp (pageFault p va) (fun _ k' => Good L A u k' ∧ Aside L p k k' ∧ k'.view p = k.view p ∧
      (k'.proc p).sz = (k.proc p).sz ∧ (va < (k.proc p).sz → k'.entry p va = none →
        k.mem.Short (k.faults p va 1))) NotVm k := by
  simp only [pageFault, wp_bind]
  refine wp_imp (wp_onUser (R := fun s _ s' => s'.view = s.view ∧ (va < (k.proc p).sz →
    leaf s'.pt (va / PGSIZE) = none → s.mem.Short (faultPages (k.proc p).sz s.pt va 1))) h hp
    fun hs => ?_) ?_
  · exact wp_imp (wp_and (wp_vmfault hs) (wp_vmfault_short (E := fun _ => False) hs)) fun _ _ h' =>
      ⟨h'.1.1.toApart, h'.1.1.view, h'.2⟩
  rintro pa k1 ⟨h1, haside, pt, s, hpt, rfl, hview, hshort⟩
  rw [State.view_user hpt, ← State.view_putUser k p s] at hview
  have hsz : ((k.putUser p s).proc p).sz = (k.proc p).sz := by simp [State.putUser]
  have hpt' : ((k.putUser p s).proc p).pagetable = some s.pt := by simp [State.putUser]
  rw [State.faults_eq hpt]
  rw [wp_when, wp_updProc]
  refine ⟨fun _ => ⟨h1.setProc rfl, haside.setProc _, ?_, ?_, fun hva hentry => ?_⟩,
    fun _ => ⟨h1, haside, hview, hsz, fun hva hentry => ?_⟩⟩
  · rw [← hview, State.view, State.setProc_proc_same]
    rfl
  · rw [State.setProc_proc_same]
    exact hsz
  · rw [State.entry, State.setProc_proc_same] at hentry
    rw [← State.entry, State.entry_eq hpt'] at hentry
    exact hshort hva hentry
  · rw [State.entry_eq hpt'] at hentry
    exact hshort hva hentry

theorem flows_pageFault (hp : u p = false) : Flows L A u (pageFault p va) :=
  ⟨fun _ hk => wp_imp (wp_pageFault hk hp) fun _ _ h => h.1⟩

/-- **A store of user code** to a page that is mapped and writable for it is a store
to what the process sees; any other does nothing. -/
theorem wp_userStore {v : UInt8} (hk : Good L A u k) (hp : u p = false) :
    wp (userStore p va v) (fun _ k' => Good L A u k' ∧ Aside L p k k' ∧ k'.proc = k.proc ∧
      k'.view p = if (k.view p).writable (k.proc p).sz va = true ∧ (k.entry p va).isSome
        then (k.view p).store va [v] else k.view p) NotVm k := by
  obtain ⟨pt, B, hpt, hopen, hB, hclose⟩ := hk.openUser hp
  have hentry := State.entry_eq hpt va
  have hview : (k.user p pt none).view = k.view p := State.view_user hpt
  have hstay : ¬ ((k.view p).writable (k.proc p).sz va = true ∧ (k.entry p va).isSome) →
      Good L A u k ∧ Aside L p k k ∧ k.proc = k.proc ∧
      k.view p = if (k.view p).writable (k.proc p).sz va = true ∧ (k.entry p va).isSome
        then (k.view p).store va [v] else k.view p :=
    fun hno => ⟨hk, .refl L p k, rfl, by rw [if_neg hno]⟩
  -- a page the process may write is found by both walks
  have hfound : (k.view p).writable (k.proc p).sz va = true → ∀ pte,
      leaf pt (va / PGSIZE) = some pte → pte.pa ≠ 0 ∧
      walkaddr pt (pgRoundDown va) = pte.pa ∧ (PageTable.slot 2 pt va).join = some pte := by
    intro hwritable pte hleaf
    simp only [View.writable, View.readable, Bool.and_eq_true, decide_eq_true_eq] at hwritable
    obtain ⟨⟨hsz, hu⟩, -⟩ := hwritable
    have hlt := (hopen.page_lt hsz).2
    rw [← hview, view_perm_of_leaf hlt hleaf] at hu
    refine ⟨hopen.own.free_frame.ne_zero ?_, walkaddr_of_leaf (by omega) hleaf hu,
      (slot_join_va (lt_MAXVA hlt)).trans hleaf⟩
    exact Multiset.mem_add.mpr (.inl (Multiset.mem_add.mpr (.inr (mem_frames hlt hleaf))))
  simp only [userStore, wp_bind]
  refine wp_pagetableOf hpt ?_
  split
  · rename_i hwalk
    refine wp_pure.mpr (hstay fun hdo => ?_)
    rw [hentry] at hdo
    obtain ⟨pte, hleaf⟩ := Option.isSome_iff_exists.mp hdo.2
    obtain ⟨hpa, hwalk', -⟩ := hfound hdo.1 pte hleaf
    exact hpa (hwalk'.symm.trans hwalk)
  · rename_i hslot _
    refine wp_pure.mpr (hstay fun hdo => ?_)
    rw [hentry] at hdo
    obtain ⟨pte, hleaf⟩ := Option.isSome_iff_exists.mp hdo.2
    rw [(hfound hdo.1 pte hleaf).2.2] at hslot
    cases hslot
  · rename_i pte hslot hpa
    obtain ⟨-, pte', hleaf, hu, hpte'⟩ := walkaddr_ne_zero hpa
    rw [pgRoundDown_div] at hleaf
    obtain ⟨hpage, hlt⟩ := hopen.image.user hleaf hu
    have hsame : pte' = pte := by
      rw [slot_join_va (lt_MAXVA hlt)] at hslot
      exact Option.some.inj (hleaf.symm.trans hslot)
    subst hsame
    have hreadable : (k.view p).readable (k.proc p).sz va = true := by
      have hsz : pgRoundDown va < (k.proc p).sz := by
        change _ < npages (k.proc p).sz at hpage
        rw [npages, pgRoundUp, PGSIZE_eq] at hpage
        rw [pgRoundDown_eq, PGSIZE_eq]
        omega
      rw [View.readable, ← hview, view_perm_of_leaf (u := k.user p pt none) hlt hleaf, hu]
      simp [hsz]
    have hwritable : (k.view p).writable (k.proc p).sz va = pte'.perm.w := by
      rw [View.writable, hreadable, ← hview, view_perm_of_leaf (u := k.user p pt none) hlt hleaf,
        Bool.true_and]
    refine wp_ite.mpr ⟨fun hw => wp_onMem_res (wp_modify.mpr ?_), fun hw => ?_⟩
    · have hfit : va % PGSIZE + [v].length ≤ PGSIZE := Nat.mod_lt _ (by decide)
      obtain ⟨hap, -, hview'⟩ := hopen.store hlt hleaf hfit
      rw [hview, Nat.div_add_mod'] at hview'
      rw [← hpte', ← ByteBuffer.store_singleton]
      refine ⟨?_, ⟨⟨k.proc p, _, k.nextpid, by rw [update_eq_self]⟩,
        fun pa hpa => hap.same pa (hB pa hpa)⟩, rfl, ?_⟩
      · have hgood := hclose _ hap.ok
        rwa [State.putUser_of_eq hpt] at hgood
      · rw [if_pos ⟨hwritable.trans hw, by rw [hentry, hleaf]; rfl⟩, ← hview']
        exact State.view_eq hpt
    · refine wp_pure.mpr (hstay fun hdo => hw ?_)
      rw [← hwritable]
      exact hdo.1

/-- A store of user code goes to a page of the process. -/
theorem flows_userStore (hp : u p = false) {v : UInt8} : Flows L A u (userStore p va v) :=
  ⟨fun _ hk => wp_imp (wp_userStore hk hp) fun _ _ h => h.1⟩

end Xv6.Kernel
