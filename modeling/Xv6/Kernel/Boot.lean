import Xv6.Kernel.Effect

/-!
# xv6 — the first process

`main` leaves tables of zeros and calls `userinit`; every run of the machine
starts in the state that leaves.

* `Fresh`, `Booted`  — the state before and after `userinit`.
* `Booted.core`      — what the process table holds then.
* `core_invariant`   — the invariant rule for its entries.
* `small`            — a machine with a handful of pages and blocks, and a disk
  that holds `/init`, on which runs can be computed.
-/

namespace Xv6.Kernel

open Prog TransitionRun

variable {k k0 : State} {C : State → Event → Prop}

/-- The tables of the kernel were never used. -/
structure Fresh (k : State) : Prop where
  proc : ∀ p, k.proc p = Proc.zero
  file : ∀ f, k.file f = File.zero
  nextpid : k.nextpid = 1
  initproc : k.initproc = none
  first : k.first = true

/-- `main` has called `userinit`. -/
def Booted (k : State) : Prop := ∃ k0, Fresh k0 ∧ userinit k0 = .ok ((), k)

/-- The first process in the table. -/
def Core.first (pid : Int) (cwd : Option Fs.IPtr) : Core :=
  { Proc.zero.core.started pid with cwd := cwd, state := .runnable }

theorem wp_userinit {T : Table} (hT : k.table = T) : wp userinit (fun _ k' => ∃ q pid cwd,
      (T.proc q).state = .unused ∧ k'.initproc = some q ∧ k'.table.proc = (T.set q
        { (T.proc q).started pid with cwd := cwd, state := .runnable }).proc) NotInitExiting k := by
  simp only [userinit, wp_bind]
  refine wp_imp (wp_allocproc hT) ?_
  rintro (_ | q) k1 h1
  · exact wp_stop.mpr (by rintro ⟨⟩)
  obtain ⟨hq, pid, h1⟩ := h1
  simp only [wp_bind, wp_modify, wp_gets, id]
  have h2 : ({ k1 with initproc := some q } : State).table =
      { T.set q ((T.proc q).started pid) with initproc := some q } := by
    rw [← h1]
    rfl
  refine wp_imp (keeps_onFs.to h2) fun cwd k3 h3 => ?_
  refine wp_imp (wp_updProc_table h3 (fun c => { c with cwd := cwd, state := .runnable })
    fun _ => rfl) fun _ k4 h4 => ⟨q, pid, cwd, hq, ?_, ?_⟩
  · rw [← State.table_initproc, h4]
    rfl
  · rw [h4]
    simp [Table.set]

/-- The process table after boot: the first process, and slots never used. -/
theorem Booted.core (h : Booted k) : ∃ q, k.initproc = some q ∧
    (∃ pid cwd, (k.proc q).core = Core.first pid cwd) ∧
    ∀ p, p ≠ q → (k.proc p).core = Proc.zero.core := by
  obtain ⟨k0, hfresh, hk⟩ := h
  have hzero : ∀ p, k0.table.proc p = Proc.zero.core := by
    intro p
    rw [State.table_proc, hfresh.proc]
  obtain ⟨q, pid, cwd, -, hinit, hproc⟩ := wp_ok (wp_userinit rfl) hk
  refine ⟨q, hinit, ⟨pid, cwd, ?_⟩, fun p hp => ?_⟩
  · rw [← State.table_proc, hproc, Table.set_same, hzero]
    rfl
  · rw [← State.table_proc, hproc, Table.set_of_ne _ _ hp, hzero]

/-- What holds of slots never used and of the first process holds of every entry
after boot. -/
theorem Booted.forall_core {P : Core → Prop} (h : Booted k) (hzero : P Proc.zero.core)
    (hfirst : ∀ pid cwd, P (Core.first pid cwd)) (p : Pid) : P (k.proc p).core := by
  obtain ⟨q, -, ⟨pid, cwd, hq⟩, hrest⟩ := h.core
  by_cases hp : p = q
  · rw [hp, hq]
    exact hfirst pid cwd
  · rw [hrest p hp]
    exact hzero

/-- Invariant rule for the entries of the process table, in runs whose steps all
meet `C`. -/
theorem core_invariant {P : Core → Prop} {s : State} {es : List Event} (hk : Booted k)
    (hzero : P Proc.zero.core) (hfirst : ∀ pid cwd, P (Core.first pid cwd))
    (hchange : ∀ {s e q c}, C s e → (∀ p, P (s.table.proc p)) → Change s.table e q c → P c)
    (hrun : Run (Restrict C Step) k es s) (p : Pid) : P (s.proc p).core :=
  hrun.invariant (P := fun s => ∀ p, P (s.proc p).core) (hk.forall_core hzero hfirst)
    (fun _ _ _ h hs q => hchange hs.1 h (step_change hs.2 q)) p

/-! ### Computed runs -/

/-- The state after `userinit`. -/
def boot (k0 : State) : Option State := (userinit k0).toOption.map Prod.snd

theorem userinit_of_boot (h : boot k0 = some k) : userinit k0 = .ok ((), k) := by
  obtain ⟨⟨_, _⟩, hx, rfl⟩ := Option.map_eq_some_iff.mp h
  exact ok_of_toOption hx

theorem booted_of_boot (h0 : Fresh k0) (h : boot k0 = some k) : Booted k :=
  ⟨k0, h0, userinit_of_boot h⟩

/-- A run computed from boot whose steps all meet `C`. -/
def bootRun (C : State → Event → Prop) [∀ k e, Decidable (C k e)] (k0 : State)
    (es : List Event) : Option State :=
  (boot k0).bind fun k => exec (fun k e => if C k e then stepFn k e else none) k es

theorem userinit_of_bootRun (k0 : State) (es : List Event) [∀ k e, Decidable (C k e)] {β : Type}
    {f : State → β} {b : β} (h : (bootRun C k0 es).map f = some b) :
    ∃ k s, userinit k0 = .ok ((), k) ∧ Run (Restrict C Step) k es s ∧ f s = b := by
  obtain ⟨s, hs, hb⟩ := Option.map_eq_some_iff.mp h
  obtain ⟨k, hk, hrun⟩ := Option.bind_eq_some_iff.mp hs
  refine ⟨k, s, userinit_of_boot hk, ?_, hb⟩
  exact (run_restrict_of_exec hrun).mono fun _ _ _ h => ⟨h.1, step_of_stepFn h.2⟩

theorem run_of_bootRun (es : List Event) [∀ k e, Decidable (C k e)] {β : Type} {f : State → β}
    {b : β} (h0 : Fresh k0) (h : (bootRun C k0 es).map f = some b) :
    ∃ k s, Booted k ∧ Run (Restrict C Step) k es s ∧ f s = b := by
  obtain ⟨k, s, hk, hrun⟩ := userinit_of_bootRun k0 es h
  exact ⟨k, s, ⟨k0, h0, hk⟩, hrun⟩

/-! ### A small machine -/

/-- Physical memory with 40 pages, before `kinit`. -/
def zeroMem : Vm.Mem :=
  { kend := Vm.PHYSTOP - 40 * Vm.PGSIZE, trampoline := Vm.KERNBASE + 7 * Vm.PGSIZE
    freelist := 0, byte := fun _ => 0, total := 0, fails := [] }

/-- The same after `kinit`. -/
def smallMem : Vm.Mem :=
  match Vm.kinit zeroMem with
  | .ok (_, m) => m
  | .error _ => zeroMem

/-- The root directory and `/init`. -/
def smallDinode : Nat → Fs.Dinode
  | 1 => { Fs.Dinode.zero with
      type := .dir, nlink := 1, size := 48, addrs := fun k => if k = 0 then 35 else 0 }
  | 2 => { Fs.Dinode.zero with
      type := .file, nlink := 1, size := 64, addrs := fun k => if k = 0 then 36 else 0 }
  | _ => Fs.Dinode.zero

/-- A directory entry, in 16 bytes. -/
def smallEntry (inum : UInt8) (name : List UInt8) : List UInt8 :=
  [inum, 0] ++ name ++ List.replicate (14 - name.length) 0

/-- A disk of 44 blocks and 8 inodes, laid out as by `mkfs`. `/init` is an ELF
header without program headers. -/
def smallFs : Fs.State :=
  { sb := { size := 44, ninodes := 8, inodestart := 33, bmapstart := 34 }
    dinode := smallDinode
    bitmap := fun b => b < 37
    data := fun b =>
      if b = 35 then fun i =>
        -- ".", "..", "init"
        (smallEntry 1 [46] ++ smallEntry 1 [46, 46] ++ smallEntry 2 [105, 110, 105, 116]).getD i 0
      else if b = 36 then fun i => [0x7F, 0x45, 0x4C, 0x46].getD i 0
      else fun _ => 0
    inode := fun _ => ⟨0, 0, false, false, Fs.Dinode.zero⟩
    outstanding := 0
    lh := [] }

/-- The machine before `userinit`. -/
def small : State :=
  { proc := fun _ => Proc.zero, nextpid := 1, initproc := none, ticks := 0, first := true
    file := fun _ => File.zero, pipe := fun _ => ⟨false, false⟩, fs := smallFs, mem := smallMem }

theorem fresh_small : Fresh small := ⟨fun _ => rfl, fun _ => rfl, rfl, rfl, rfl⟩

end Xv6.Kernel
