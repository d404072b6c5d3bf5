import Xv6.Kernel.Boot
import Xv6.Kernel.PageExec

/-!
# xv6 — physical pages are conserved

From boot on, whenever no system call is in progress, every page between `end` and
`PHYSTOP` is in exactly one place: on the free list, with what `main` allocated,
with one process or with one open pipe.

* `BootMem`          — memory as `main` leaves it for `userinit`.
* `event_pages`      — one event of the machine.
* `pages_conserved`  — every run.
-/

namespace Xv6.Kernel

open Prog Vm TransitionRun

variable {α : Type} {L : Layout} {A boot : Multiset Nat} {u : Pid → Bool} {k s : State} {p q : Pid}
  {es : List Event}

/-! ### One event -/

theorem flows_returns {m : KM Int} (hm : Flows L A u m) : Flows L A u (returns m) :=
  .bind hm fun _ => .pure _

theorem flows_withCwd {m : Option Fs.IPtr → Fs.FsM Int} : Flows L A u (withCwd p m) :=
  .bind (.gets _) fun _ => flows_returns flows_onFs

theorem flows_pauseLoop (hp : u p = false) {n ticks0 : Nat} : Flows L A u (pauseLoop p n ticks0) :=
  .bind (.gets _) fun _ => .ite (.ite (.pure _) (.bind (flows_sleep hp) fun _ => .pure _)) (.pure _)

theorem flows_sysSetrlimit {resource n : Int} : Flows L A u (sysSetrlimit p resource n) := by
  refine .bind (.gets _) fun k => .ite (.ite ?_ (.pure _)) (.ite (.ite ?_ (.pure _)) (.pure _))
  · exact .bind (flows_updProc fun _ => rfl) fun _ => .pure _
  · exact .bind (flows_updProc fun _ => rfl) fun _ => .pure _

theorem flows_sysGetrlimit (hp : u p = false) {resource : Int} {addr : Nat} :
    Flows L A u (sysGetrlimit p resource addr) := by
  refine .bind (.gets _) fun k => ?_
  dsimp only
  split
  · exact .pure _
  · exact .bind (flows_copyout hp) fun _ => .ite (.pure _) (.pure _)

/-- **Every system call** leaves the pages split. -/
theorem wp_syscall_pages (c : Call) (hp : u p = false) (h : Good L A u k) :
    wp (syscall p c) (fun _ k' => ∃ u', Good L A u' k') NotVm k := by
  have flow : ∀ {m : KM (Option Int)}, Flows L A u m →
      wp m (fun _ k' => ∃ u', Good L A u' k') NotVm k :=
    fun hm => hm.andThen h fun _ _ h' => ⟨u, h'⟩
  cases c with
  | fork =>
    refine wp_bind.mpr (wp_imp (wp_kfork_pages h hp) fun _ k' h' => wp_pure.mpr ?_)
    obtain ⟨np, h'⟩ | ⟨-, h', -⟩ := h'
    · exact ⟨_, h'.good⟩
    · exact ⟨u, h'⟩
  | wait addr => exact wp_kwait_pages h hp
  | exit status => exact flow (.bind (flows_kexit hp) fun _ => .pure _)
  | pipe fdarray => exact flow (flows_returns (flows_sysPipe hp))
  | read fd addr n tr => exact flow (flows_returns (flows_withFd fun f => flows_fileread hp))
  | kill pid => exact flow (flows_returns flows_kkill)
  | exec path uargv str => exact flow (flows_returns (flows_sysExec hp))
  | fstat fd addr => exact flow (flows_returns (flows_withFd fun f => flows_filestat hp))
  | chdir path => exact flow (flows_returns flows_sysChdir)
  | dup fd => exact flow (flows_returns flows_sysDup)
  | getpid | uptime => exact flow (flows_returns (.gets _))
  | sbrk n t => exact flow (flows_returns (flows_sysSbrk hp))
  | pause n => exact flow (.bind (.gets _) fun _ => flows_pauseLoop hp)
  | opn path omode => exact flow (flows_returns flows_sysOpen)
  | write fd addr n tr => exact flow (flows_returns (flows_withFd fun f => flows_filewrite hp))
  | mknod path major minor | unlink path | link old new | mkdir path =>
    rw [syscall]
    exact flow flows_withCwd
  | close fd => exact flow (flows_returns flows_sysClose)
  | meminfo addr => exact flow (flows_returns (flows_sysMeminfo hp))
  | getrlimit resource addr => exact flow (flows_returns (flows_sysGetrlimit hp))
  | setrlimit resource n => exact flow (flows_returns flows_sysSetrlimit)

theorem flows_setA0 {r : Option Int} : Flows L A u (setA0 p r) := by
  cases r with
  | none => exact .pure _
  | some r =>
    rw [setA0]
    exact flows_updProc fun _ => rfl

theorem flows_setFails {fails : List Bool} : Flows L A u (setFails fails) := by
  refine .modify fun k hk => ⟨?_, hk.unused⟩
  have hown := hk.inv.front
  exact hk.inv.mem (hown.of_eq rfl rfl rfl rfl)

theorem flows_forkretFirst (hp : u p = false) : Flows L A u (forkretFirst p) := by
  have hargs : ∀ arg ∈ [[47, 105, 110, 105, (116 : UInt8)]], arg.length < PGSIZE := by
    simp [PGSIZE_eq]
  refine .bind (Flows.of_res (.modify fun _ => rfl)) fun _ => .bind flows_onFs fun _ =>
    .bind (flows_kexec hp hargs) fun r => .ite (.stop fun _ => nofun) flows_setA0

theorem wp_goOn_pages (hp : u p = false) (h : Good L A u k) :
    wp (goOn p) (fun _ k' => ∃ u', Good L A u' k') NotVm k := by
  simp only [goOn, wp_bind, wp_gets]
  split
  · exact (Stable.when (flows_forkretFirst hp)).andThen h fun _ k' h' => ⟨u, h'⟩
  rename_i b _
  refine Stable.seq (flows_updProc fun _ => rfl) h fun _ k1 h1 => ?_
  rw [wp_bind]
  cases b with
  | wait addr =>
    refine wp_imp (wp_kwait_pages h1 hp) ?_
    rintro r k2 ⟨u', h2⟩
    exact flows_setA0.andThen h2 fun _ k3 h3 => ⟨u', h3⟩
  | pause n ticks0 =>
    refine (flows_pauseLoop hp).andThen h1 fun r k2 h2 => ?_
    exact flows_setA0.andThen h2 fun _ k3 h3 => ⟨u, h3⟩

/-- The process an event is about has memory. -/
theorem Good.used (h : Good L A u k) (hp : (k.proc p).state ≠ .unused) : u p = false := by
  rw [← h.unused p]
  simp [Proc.space, hp]

/-- **One event** leaves the pages split, and runs into no panic of the memory
system. -/
theorem event_pages {e : Event} (he : e.enabled k) (h : Good L A u k) :
    wp e.body (fun _ k' => ∃ u', Good L A u' k') NotVm k := by
  cases e with
  | call p c fails =>
    have hp := h.used (by rw [show (k.proc p).state = _ from he]; rintro ⟨⟩)
    simp only [Event.body, wp_bind]
    refine flows_setFails.andThen h fun _ k1 h1 => ?_
    refine wp_imp (wp_syscall_pages c hp h1) ?_
    rintro r k2 ⟨u', h2⟩
    exact flows_setA0.andThen h2 fun _ k3 h3 => ⟨u', h3⟩
  | dispatch p fails =>
    have hp := h.used (by rw [show (k.proc p).state = _ from he]; rintro ⟨⟩)
    simp only [Event.body, wp_bind, wp_modify]
    refine flows_setFails.andThen h fun _ k1 h1 => wp_goOn_pages hp ?_
    exact h1.setState hp rfl (by rintro ⟨⟩)
  | timer p user =>
    have hp := h.used (by rw [show (k.proc p).state = _ from he]; rintro ⟨⟩)
    exact wp_modify.mpr ⟨u, h.setState hp rfl (by rintro ⟨⟩)⟩
  | fault p va fails =>
    have hp := h.used (by rw [show (k.proc p).state = _ from he]; rintro ⟨⟩)
    simp only [Event.body, wp_bind]
    refine flows_setFails.andThen h fun _ k1 h1 => ?_
    exact (flows_pageFault hp).andThen h1 fun _ k2 h2 => ⟨u, h2⟩
  | store p va v =>
    have hp := h.used (by rw [show (k.proc p).state = _ from he]; rintro ⟨⟩)
    exact (flows_userStore hp).andThen h fun _ k1 h1 => ⟨u, h1⟩
  | tick =>
    simp only [Event.body, wp_bind, wp_modify]
    have h1 : Good L A u { k with ticks := u32 (k.ticks + 1) } := h.of_res rfl
    exact (Flows.of_res keepsRes_wakeup).andThen h1 fun _ k2 h2 => ⟨u, h2⟩

/-! ### Boot -/

/-- Memory as `main` leaves it: `kinit` has freed every page, `main` has taken the
pages `boot` (the kernel's page table, the kernel stacks, the disk driver's queues)
and written to them. -/
inductive BootMem : Multiset Nat → Mem → Prop
  | kinit {m m' : Mem} : KERNBASE ≤ m.kend → m.freelist = 0 → kinit m = .ok ((), m') → BootMem 0 m'
  | kalloc {boot : Multiset Nat} {m m' : Mem} {pa : Nat} : BootMem boot m →
      kalloc m = .ok (pa, m') → pa ≠ 0 → BootMem (pa ::ₘ boot) m'
  | write {boot : Multiset Nat} {m : Mem} {pa : Nat} {b : ByteBuffer.Buffer} : BootMem boot m →
      pa ∈ boot → (∀ i, ¬ (pa ≤ i ∧ i < pa + PGSIZE) → b i = m.byte i) →
      BootMem boot { m with byte := b }

theorem BootMem.owns {m : Mem} (h : BootMem boot m) :
    Owns m.kend (PGSIZE * (pages m.kend).card) m boot := by
  induction h with
  | @kinit m m' hbase hfree hinit =>
    have hown := wp_ok (wp_kinit (E := fun _ => False) hbase hfree) hinit
    rwa [← hown.kend_eq] at hown
  | @kalloc boot m m' pa _ halloc hpa ih =>
    obtain ⟨⟨hzero, -⟩ | ⟨-, hmem⟩, -⟩ :=
      wp_ok (wp_kalloc (E := fun _ => False) ih.free_frame) halloc
    · exact absurd hzero hpa
    · have hown := hmem.all
      rwa [← hown.kend_eq] at hown
  | write _ hpa hb ih => exact ih.write hpa hb

/-- What does not change while the kernel runs. -/
def layoutOf (m : Mem) (boot : Multiset Nat) : Layout :=
  { kend := m.kend, total := PGSIZE * (pages m.kend).card, boot := boot }

/-- Before `userinit` nobody but `main` owns a page. -/
theorem Fresh.good (h : Fresh k) (hmem : BootMem boot k.mem) :
    Good (layoutOf k.mem boot) 0 (fun _ => true) k := by
  have hproc : ∀ p, (k.proc p).space = ⟨true, 0, none, 0⟩ := by
    intro p
    rw [h.proc]
    rfl
  have htype : ∀ f, (k.res.file f).type = .none := by
    intro f
    rw [State.res_file, h.file]
    rfl
  have hend : ∀ f page w, ¬ (k.res.file f).isEnd page w := by
    intro f page w
    exact not_isEnd (by rw [htype]; nofun) page w
  have hpipes : k.res.pipes = ∅ := by
    refine Finset.eq_empty_of_forall_notMem fun page hpage => ?_
    obtain ⟨f, w, hf⟩ := mem_pipes.mp hpage
    exact hend f page w hf
  refine ⟨⟨?_, fun p _ => ?_, ⟨fun f _ => htype f, fun hf => absurd hf (hend _ _ _), ?_, ?_⟩⟩,
    fun p => by rw [hproc]⟩
  · have hsum : ∑ p, (k.res.proc p).pages = 0 := by
      refine Finset.sum_eq_zero fun p _ => ?_
      rw [State.res_proc, hproc]
      rfl
    rw [hsum, hpipes, Finset.empty_val, add_zero, add_zero, add_zero]
    exact hmem.owns
  · rw [State.res_proc, hproc]
    exact ⟨fun _ => ⟨rfl, rfl, rfl⟩, nofun, nofun⟩
  · rw [hpipes]
    nofun
  · rw [hpipes]
    nofun

theorem wp_userinit_pages (h : Good L A u k) :
    wp userinit (fun _ k' => ∃ u', Good L A u' k') (fun _ => True) k := by
  simp only [userinit, wp_bind]
  refine wp_mono (wp_allocproc_pages h) ?_ fun _ _ => trivial
  rintro (_ | q) k1 h1
  · exact wp_stop.mpr trivial
  obtain ⟨-, h1, -⟩ := h1
  simp only [wp_bind, wp_modify, wp_gets]
  have h2 : Good L A (Function.update u q false) { k1 with initproc := some q } := h1.of_res rfl
  refine wp_mono (flows_onFs.wp _ h2) (fun cwd k3 h3 => ?_) fun _ _ => trivial
  rw [wp_updProc]
  exact ⟨_, h3.setState (Function.update_self ..) rfl (by rintro ⟨⟩)⟩

/-! ### Every run -/

theorem good_run {u0 : Pid → Bool} (h : Good L 0 u0 k) (hrun : Run Step k es s) :
    ∃ u, Good L 0 u s :=
  hrun.invariant (P := fun s => ∃ u, Good L 0 u s) ⟨u0, h⟩ fun _ _ _ h hs =>
    let ⟨_, h⟩ := h
    wp_ok (event_pages hs.1 h) hs.2

/-- The pages that are not free: those of boot, of processes and of open pipes. -/
def State.owned (s : State) (boot : Multiset Nat) : Multiset Nat :=
  boot + ∑ p, (s.proc p).space.pages + s.res.pipes.val

/-- **Physical pages are conserved.** In every state of every run the free list ends,
and its pages together with the owned ones are the pages between `end` and
`PHYSTOP`, each once; `count_free_mem` ends, `sys_meminfo` reports the pages owned
without underflow, and no panic of the memory system can be reached. -/
theorem pages_conserved {k0 : State} (h0 : Fresh k0) (hmem : BootMem boot k0.mem)
    (hboot : userinit k0 = .ok ((), k)) (hrun : Run Step k es s) :
    (∃ free : List Nat, LinkedList.Chain 0 s.mem.next s.mem.freelist free ∧
      (free : Multiset Nat) + s.owned boot = pages s.mem.kend ∧
      ((free : Multiset Nat) + s.owned boot).Nodup) ∧ (∃ n, countFreeMem s.mem = .ok (n, s.mem)) ∧
    (∃ total free, meminfo s = .ok ((total, free, total - free), s) ∧ free ≤ total ∧
      total - free = PGSIZE * (s.owned boot).card) ∧ ∀ e x, ¬ Stops s e (.vm x) := by
  obtain ⟨u1, h1⟩ := wp_ok (wp_userinit_pages (h0.good hmem)) hboot
  obtain ⟨u, h⟩ := good_run h1 hrun
  have hown := h.inv.own
  rw [add_zero] at hown
  change Owns _ _ s.mem (s.owned boot) at hown
  refine ⟨?_, ?_, ?_, fun e x hstop => ?_⟩
  · obtain ⟨free, hchain, hfree⟩ := hown.free
    rw [← hown.kend_eq] at hfree
    exact ⟨free, hchain, hfree, hfree ▸ nodup_pages _⟩
  · obtain ⟨n, m, hn, rfl, -⟩ := exists_ok_of_wp (wp_countFreeMem hown)
    exact ⟨n, hn⟩
  · obtain ⟨⟨total, free, used⟩, _, hok, rfl, -, hle, hused, hcard⟩ :=
      exists_ok_of_wp (wp_meminfo h rfl)
    rw [zero_add] at hcard
    change used = total - free at hused
    subst hused
    exact ⟨total, free, hok, hle, hcard⟩
  · exact wp_error (event_pages hstop.1 h) hstop.2 x rfl

/-- Init forks, asks for a pipe with its guard page for the descriptors, and grows. -/
def forkPipe : List Event :=
  [.dispatch 0 [], .call 0 .fork [], .call 0 (.pipe 0) [], .call 0 (.sbrk 5000 1) []]

theorem bootMem_small : BootMem 0 small.mem := by
  have hbase : KERNBASE ≤ zeroMem.kend := by decide +kernel
  obtain ⟨_, m, hm, -⟩ := exists_ok_of_wp (wp_kinit hbase rfl)
  have hsmall : small.mem = m := by simp only [small, smallMem, hm]
  rw [hsmall]
  exact .kinit hbase rfl hm

theorem pages_conserved_forkPipe : ∃ k s, userinit small = .ok ((), k) ∧ Run Step k forkPipe s ∧
    ∃ total free, meminfo s = .ok ((total, free, total - free), s) ∧ free ≤ total ∧
      total - free = PGSIZE * (s.owned 0).card := by
  obtain ⟨k, s, hboot, hrun, -⟩ := userinit_of_bootRun small forkPipe (C := fun _ _ => True)
    (f := fun s => s.first) (b := false) (by decide +kernel)
  exact ⟨k, s, hboot, hrun.of_restrict,
    (pages_conserved fresh_small bootMem_small hboot hrun.of_restrict).2.2.1⟩

end Xv6.Kernel
