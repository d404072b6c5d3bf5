import Xv6.Kernel.FileRefs
import Xv6.Kernel.Slots

/-!
# xv6 — keeping account of open files through a run

`exec`, `fork` and `exit` take and give back references to files and inodes; all
other calls, and what happens between calls, move none. `event_rest` puts the
system calls together: whatever happens, the references are those of the
descriptors and current directories again afterwards.
-/

namespace Xv6.Kernel

open Prog Holders Function Multiset

variable {α : Type} {E : Fs.Panic → Prop}
  {R : Set Nat → Multiset Fs.IPtr → Multiset Fs.IPtr → Fs.State → Prop} {S : Set Nat}
  {F : Multiset FPtr} {A B : Multiset Fs.IPtr} {k : State} {p : Pid} {f : FPtr} {ip : Fs.IPtr}
  {σ : Pid × Fin NOFILE → Option FPtr} {γ : Pid → Option Fs.IPtr} {m : KM α} {addr sz va : Nat}
  {argv : List (List UInt8)} {path : Fs.Path} {pt : Vm.Pagetable}

/-! ### Calls that move no reference -/

/-- The program leaves descriptors, current directories, open files and the file
system alone. -/
abbrev KeepsHeld (E : Fs.Panic → Prop) (m : KM α) : Prop :=
  Keeps (NotFileRef E) (fun k => (k.slot, k.cwds, k.file, k.fs, k.first)) m

theorem Held.stable_of_keeps (hm : KeepsHeld E m) :
    Stable (NotFileRef E) (Held R S σ γ F A B) m := by
  refine Keeps.stable hm fun k k' hk h => ?_
  obtain ⟨hslot, hrest⟩ := Prod.mk.inj hk
  obtain ⟨hcwds, hrest⟩ := Prod.mk.inj hrest
  exact ⟨hslot.trans h.slot, hcwds.trans h.cwds, h.files.of_eq hrest⟩

theorem AtRest.stable_of_keeps (hm : KeepsHeld E m) : Stable (NotFileRef E) (AtRest R S) m :=
  ⟨fun k h => wp_imp ((Held.stable_of_keeps hm).wp k h.open) fun _ _ h' => h'.rest⟩

theorem keepsHeld_setProc {pr : Proc} (hofile : pr.ofile = (k.proc p).ofile)
    (hcwd : pr.cwd = (k.proc p).cwd) :
    ((k.setProc p pr).slot, (k.setProc p pr).cwds, k.file, k.fs, k.first) =
      (k.slot, k.cwds, k.file, k.fs, k.first) := by
  rw [State.slot_setProc_same k p hofile, State.cwds_setProc, hcwd]
  have : update k.cwds p (k.proc p).cwd = k.cwds := update_eq_self ..
  rw [this]

theorem keepsHeld_updProc {g : Proc → Proc}
    (hg : ∀ pr, (g pr).ofile = pr.ofile ∧ (g pr).cwd = pr.cwd) : KeepsHeld E (updProc p g) :=
  .modify fun k => keepsHeld_setProc (hg (k.proc p)).1 (hg (k.proc p)).2

theorem keepsHeld_onMem {m : Vm.MemM α} : KeepsHeld E (onMem m) :=
  .zoom (fun _ => .vm) fun _ _ => rfl

theorem keepsHeld_onUser {other : Option Vm.Pagetable} {m : Vm.UserM α} :
    KeepsHeld E (onUser p other m) := by
  refine .bind (.gets _) fun k => ?_
  split
  · exact .stop .vm
  · exact .zoom (fun _ => .vm) fun k u => keepsHeld_setProc rfl rfl

theorem keepsHeld_freePagetable {pt : Option Vm.Pagetable} : KeepsHeld E (freePagetable pt sz) := by
  cases pt with
  | none => exact .pure _
  | some pt => exact keepsHeld_onMem

theorem keepsHeld_freeproc : KeepsHeld E (freeproc p) :=
  .bind (.gets _) fun _ => .bind (.when keepsHeld_onMem) fun _ =>
    .bind (keepsHeld_updProc fun _ => ⟨rfl, rfl⟩) fun _ =>
      .bind keepsHeld_freePagetable fun _ => keepsHeld_updProc fun _ => ⟨rfl, rfl⟩

theorem keepsHeld_allocproc : KeepsHeld E allocproc := by
  refine .bind (.gets _) fun k => ?_
  split
  · exact .pure _
  · refine .bind (.modify fun _ => rfl) fun _ => .bind (keepsHeld_updProc fun _ => ⟨rfl, rfl⟩)
      fun _ => .bind keepsHeld_onMem fun tf => .bind (keepsHeld_updProc fun _ => ⟨rfl, rfl⟩)
      fun _ => .ite (.bind keepsHeld_freeproc fun _ => .pure _) ?_
    exact .bind keepsHeld_onMem fun pt => .bind (keepsHeld_updProc fun _ => ⟨rfl, rfl⟩) fun _ =>
      .ite (.bind keepsHeld_freeproc fun _ => .pure _) (.pure _)

/-- A change of all processes that leaves their descriptors and directories alone. -/
theorem keepsHeld_setProcs {g : State → Pid → Proc}
    (h : ∀ k q, (g k q).ofile = (k.proc q).ofile ∧ (g k q).cwd = (k.proc q).cwd) :
    KeepsHeld E (.modify fun k => { k with proc := g k }) := by
  refine .modify fun k => ?_
  refine congrArg₂ Prod.mk (funext fun s => ?_) (congrArg₂ Prod.mk (funext fun q => ?_) rfl)
  · exact congrFun (h k s.1).1 s.2
  · exact (h k q).2

theorem keepsHeld_wakeup {me : Option Pid} {ch : Chan} : KeepsHeld E (wakeup me ch) := by
  refine keepsHeld_setProcs fun k q => ?_
  split <;> exact ⟨rfl, rfl⟩

theorem keepsHeld_wakeupProc {me : Pid} {q : Option Pid} : KeepsHeld E (wakeupProc me q) := by
  cases q with
  | none => exact .pure _
  | some q => exact keepsHeld_wakeup

theorem keepsHeld_reparent : KeepsHeld E (reparent p) := by
  refine .bind (.gets _) fun _ => .when (.bind (keepsHeld_setProcs fun k q => ?_) fun _ =>
    keepsHeld_wakeupProc)
  split <;> exact ⟨rfl, rfl⟩

theorem keepsHeld_sleep {ch : Chan} {b : Blocked} : KeepsHeld E (sleep p ch b) :=
  .bind (.gets _) fun _ => keepsHeld_updProc fun _ => ⟨rfl, rfl⟩

theorem keepsHeld_kwait : KeepsHeld E (kwait p addr) := by
  refine .bind (.gets _) fun k => ?_
  split
  · exact .bind (.ite (.pure _) keepsHeld_onUser) fun _ =>
      .ite (.bind keepsHeld_freeproc fun _ => .pure _) (.pure _)
  · exact .ite (.pure _) (.bind keepsHeld_sleep fun _ => .pure _)

theorem keepsHeld_kkill {pid : Int} : KeepsHeld E (kkill pid) := by
  refine .bind (.gets _) fun k => ?_
  split
  · exact .pure _
  · refine .bind (keepsHeld_updProc fun pr => ?_) fun _ => .pure _
    dsimp only
    split <;> exact ⟨rfl, rfl⟩

theorem keepsHeld_pagetableOf : KeepsHeld E (pagetableOf p) := by
  refine .bind (.gets _) fun k => ?_
  split
  · exact .stop .vm
  · exact .pure _

theorem keepsHeld_growproc {n : Int} : KeepsHeld E (growproc p n) := by
  refine .bind (.gets _) fun k => .ite (.ite (.pure _) ?_) (.ite ?_ (.pure _))
  · exact .bind keepsHeld_pagetableOf fun _ => .bind keepsHeld_onMem fun _ =>
      .bind (keepsHeld_updProc fun _ => ⟨rfl, rfl⟩) fun _ => .ite (.pure _) <|
        .bind (keepsHeld_updProc fun _ => ⟨rfl, rfl⟩) fun _ => .pure _
  · exact .bind keepsHeld_pagetableOf fun _ => .bind keepsHeld_onMem fun _ =>
      .bind (keepsHeld_updProc fun _ => ⟨rfl, rfl⟩) fun _ => .pure _

theorem keepsHeld_sysSbrk {n t : Int} : KeepsHeld E (sysSbrk p n t) :=
  .bind (.gets _) fun _ => .ite (.bind keepsHeld_growproc fun _ => .ite (.pure _) (.pure _)) <|
    .ite (.pure _) <| .ite (.pure _) <|
      .bind (keepsHeld_updProc fun _ => ⟨rfl, rfl⟩) fun _ => .pure _

theorem keepsHeld_sysMeminfo : KeepsHeld E (sysMeminfo p addr) :=
  .bind (.bind keepsHeld_onMem fun _ => .bind keepsHeld_onMem fun _ => .pure _) fun _ =>
    .bind keepsHeld_onUser fun _ => .ite (.pure _) (.pure _)

theorem keepsHeld_pauseLoop {n ticks0 : Nat} : KeepsHeld E (pauseLoop p n ticks0) :=
  .bind (.gets _) fun _ => .ite (.ite (.pure _) (.bind keepsHeld_sleep fun _ => .pure _)) (.pure _)

theorem keepsHeld_sysSetrlimit {resource n : Int} : KeepsHeld E (sysSetrlimit p resource n) :=
  have hset : ∀ {g : Proc → Proc}, (∀ pr, (g pr).ofile = pr.ofile ∧ (g pr).cwd = pr.cwd) →
      KeepsHeld E (do
        updProc p g
        pure (0 : Int)) := fun hg => .bind (keepsHeld_updProc hg) fun _ => .pure _
  .bind (.gets _) fun _ => .ite (.ite (hset fun _ => ⟨rfl, rfl⟩) (.pure _)) <|
    .ite (.ite (hset fun _ => ⟨rfl, rfl⟩) (.pure _)) (.pure _)

theorem keepsHeld_sysGetrlimit {resource : Int} : KeepsHeld E (sysGetrlimit p resource addr) := by
  refine .bind (.gets _) fun k => ?_
  dsimp only
  split
  · exact .pure _
  · exact .bind keepsHeld_onUser fun _ => .ite (.pure _) (.pure _)

theorem keepsHeld_setA0 {r : Option Int} : KeepsHeld E (setA0 p r) := by
  unfold setA0
  split
  · exact .pure _
  · exact keepsHeld_updProc fun _ => ⟨rfl, rfl⟩

theorem keepsHeld_setFails {fails : List Bool} : KeepsHeld E (setFails fails) :=
  .modify fun _ => rfl

theorem keepsHeld_pageFault : KeepsHeld E (pageFault p va) :=
  .bind keepsHeld_onUser fun _ => .when (keepsHeld_updProc fun _ => ⟨rfl, rfl⟩)

theorem keepsHeld_userStore {v : UInt8} : KeepsHeld E (userStore p va v) := by
  refine .bind keepsHeld_pagetableOf fun pt => ?_
  split
  · exact .pure _
  · exact .pure _
  · exact .ite keepsHeld_onMem (.pure _)

/-! ### exec -/

theorem mem_add_cons (ip : Fs.IPtr) (N A : Multiset Fs.IPtr) : ip ∈ N + ip ::ₘ A :=
  mem_add.mpr (.inr (mem_cons_self ip A))

theorem Files.stable_loadLoop (acct : Fs.Reading E R) {offset : Nat} (n i : Nat) :
    Stable (NotFileRef E) (Files R S F (ip ::ₘ A) B) (loadLoop pt va ip offset sz n i) := by
  induction n generalizing i with
  | zero => exact .pure _
  | succ n ih =>
    refine .ite (.stop ⟨nofun, nofun, nofun⟩) (.bind ?_ fun _ => .ite (.pure _) (ih _))
    exact Files.stable_onFsMem fun N => acct.readi (mem_add_cons ip N A)

theorem Files.stable_loadSegments (acct : Fs.Accounting E R) (n : Nat) {off : Nat} :
    Stable (NotFileRef E) (Files R S F (ip ::ₘ A) B) (loadSegments ip n off pt sz) := by
  induction n generalizing off pt sz with
  | zero => exact .pure _
  | succ n ih =>
    refine .bind (Files.stable_onFs fun N => acct.readiKernel (mem_add_cons ip N A)) ?_
    rintro ⟨r, bs⟩
    refine .ite (.pure _) <| .ite ih <| .ite (.pure _) <| .ite (.pure _) <| .ite (.pure _) ?_
    refine .bind (Files.stable keepsFiles_onMem) ?_
    rintro ⟨pt', sz1⟩
    refine .ite (.pure _) (.bind ?_ fun _ => .ite ih (.pure _))
    exact Files.stable_loadLoop acct.toReading _ _

theorem Files.stable_loadImage (acct : Fs.Accounting E R) :
    Stable (NotFileRef E) (Files R S F (ip ::ₘ A) B) (loadImage p ip) := by
  refine .bind (Files.stable_onFs fun N => acct.readiKernel (mem_add_cons ip N A)) ?_
  rintro ⟨r, bs⟩
  refine .ite (.pure _) <| .ite (.pure _) <| .bind (.gets _) fun k =>
    .bind (Files.stable keepsFiles_onMem) fun r => ?_
  rcases r with _ | pt
  · exact .pure _
  · exact .bind (Files.stable_loadSegments acct _) fun _ => .pure _

theorem keepsFiles_makeStack : KeepsFiles E (makeStack p pt sz argv) :=
  MemFrame.makeStack ⟨keepsFiles_onMem, keepsFiles_onUser⟩

theorem keepsFiles_commitImage {entry sp : Nat} :
    KeepsFiles E (commitImage p path pt sz entry sp) := by
  refine .bind (.gets _) fun k => .bind keepsFiles_updProc fun _ => ?_
  split
  · exact .stop .vm
  · exact keepsFiles_onMem

theorem Files.wp_iunlockput (acct : Fs.Accounting E R) (h : Files R S F (ip ::ₘ A) B k) :
    wp (onFs do
      Fs.iunlockput ip
      Fs.endOp) (fun _ k' => Files R S F A B k') (NotFileRef E) k := by
  refine h.wp_onFs fun N fs hfs => ?_
  rw [add_cons] at hfs
  exact wp_then (acct.iunlockput hfs) fun _ fs1 h1 => acct.endOp.wp fs1 h1

/-- `kexec` gives back the inode it found, on every exit. What `namei` finds is a
hypothesis, since more is known when the first process is started. -/
theorem Files.wp_kexec (acct : Fs.Accounting E R)
    (h : wp (onFs Fs.beginOp) (fun _ k1 => wp (onFs (Fs.namei (k1.proc p).cwd path))
      (fun (r : Option Fs.IPtr) k2 => Files R S F A (r.elim 0 ({·})) k2) (NotFileRef E) k1)
      (NotFileRef E) k) :
    wp (kexec p path argv) (fun _ k' => Files R S F A 0 k') (NotFileRef E) k := by
  rw [kexec]
  refine wp_then h fun _ k1 h1 => ?_
  rw [wp_bind, wp_gets]
  refine wp_then h1 ?_
  rintro (_ | ip) k2 h2
  · exact Stable.wp
      (.bind (Files.stable_onFs fun _ => acct.endOp) fun _ => .pure _) k2 h2
  rw [wp_bind]
  have hlock : wp (onFs (Fs.ilock ip)) (fun _ k' => Files R S F (ip ::ₘ A) 0 k') (NotFileRef E)
      k2 := by
    refine h2.wp_onFs (D := fun _ => 0) fun N fs hfs => ?_
    rw [add_cons]
    exact acct.ilock hfs
  refine wp_imp hlock fun _ k3 h3 => ?_
  refine (Files.stable_loadImage acct).seq h3 ?_
  rintro ⟨elf, _ | ⟨pt, sz, _ | _⟩⟩ k4 h4
  · exact wp_then (h4.wp_iunlockput acct) fun _ k5 h5 => wp_pure.mpr h5
  · refine (Files.stable keepsFiles_onMem).seq h4 fun _ k5 h5 => ?_
    exact wp_then (h5.wp_iunlockput acct) fun _ k6 h6 => wp_pure.mpr h6
  · refine wp_then (h4.wp_iunlockput acct) fun _ k5 h5 => ?_
    refine (Files.stable keepsFiles_makeStack).seq h5 ?_
    rintro ⟨pt', sz', _ | sp⟩ k6 h6
    · exact Stable.wp (.bind (Files.stable keepsFiles_onMem) fun _ => .pure _) k6 h6
    · exact Stable.wp (.bind (Files.stable keepsFiles_commitImage) fun _ => .pure _) k6 h6

theorem AtRest.wp_kexec (acct : Fs.Accounting E R) (h : AtRest R S k) :
    wp (kexec p path argv) (fun _ k' => AtRest R S k') (NotFileRef E) k := by
  refine wp_imp (h.open.keep keeps_kexec (Files.wp_kexec acct ?_)) fun _ _ h' => h'.rest
  refine (Held.stable keeps_onFs (Files.stable_onFs fun _ => acct.beginOp)).andThen h.open
    fun _ k1 h1 => ?_
  refine h1.files.wp_onFs
    fun N fs hfs => ?_
  refine wp_imp (acct.namei (h1.cwd_mem N) hfs) ?_
  rintro (_ | ip) fs' h' <;> exact h'

theorem keepsHeld_fetchArgs {uargv : Nat} {str : Nat → Option (List UInt8)} {n i : Nat}
    {pages : List Nat} {args : List (List UInt8)} :
    KeepsHeld E (fetchArgs p uargv str n i pages args) :=
  MemFrame.fetchArgs ⟨keepsHeld_onMem, keepsHeld_onUser⟩

theorem AtRest.stable_sysExec (acct : Fs.Accounting E R) {path : Option Fs.Path} {uargv : Nat}
    {str : Nat → Option (List UInt8)} :
    Stable (NotFileRef E) (AtRest R S) (sysExec p path uargv str) := by
  have hfree : ∀ {pages : List Nat},
      KeepsHeld E (Prog.each (fun page => onMem (Vm.kfree page)) pages) :=
    .each (fun _ => keepsHeld_onMem) _
  rcases path with _ | path
  · exact .pure _
  refine .bind (AtRest.stable_of_keeps keepsHeld_fetchArgs) ?_
  rintro ⟨pages, _ | args⟩
  · exact .bind (AtRest.stable_of_keeps hfree) fun _ => .pure _
  · exact .bind ⟨fun k h => h.wp_kexec acct⟩ fun _ =>
      .bind (AtRest.stable_of_keeps hfree) fun _ => .pure _

/-! ### fork and exit -/

/-- The loop of `kfork` over the descriptors: the child `np` shares those in `fds`. -/
theorem Held.wp_dupFilesLoop {np : Pid} (fds : List (Fin NOFILE)) (hnodup : fds.Nodup)
    (hfree : ∀ fd ∈ fds, σ (np, fd) = none) (h : Held R S σ γ (held σ) A B k) :
    wp (each (fun fd => do
        let k ← .gets id
        match (k.proc p).ofile fd with
        | none => pure ()
        | some f => do
          filedup f
          Kernel.setFd np fd (some f)) fds)
      (fun _ k' => ∃ σ', Held R S σ' γ (held σ') A B k') (NotFileRef E) k := by
  induction fds generalizing k σ with
  | nil => exact wp_pure.mpr ⟨σ, h⟩
  | cons fd fds ih =>
    obtain ⟨hfd, hnodup⟩ := List.nodup_cons.mp hnodup
    rw [each, wp_bind, wp_bind, wp_gets]
    split
    · exact wp_pure.mpr (ih hnodup (fun fd' h' => hfree fd' (List.mem_cons_of_mem _ h')) h)
    · rename_i f hf
      have hmem : f ∈ held σ := by
        refine mem_held.mpr ⟨(p, fd), ?_⟩
        rw [← h.slot]
        exact hf
      refine wp_then (h.keep keeps_filedup (h.files.wp_filedup hmem)) fun _ k1 h1 => ?_
      refine wp_imp h1.setFd fun _ k2 h2 => ?_
      rw [← held_update_some (hfree fd (List.mem_cons_self ..))] at h2
      refine ih hnodup (fun fd' h' => ?_) h2
      have hne' : (np, fd') ≠ (np, fd) := by
        rintro ⟨⟩
        exact hfd h'
      rw [update_of_ne hne']
      exact hfree fd' (List.mem_cons_of_mem _ h')

theorem Held.wp_forkShare (acct : Fs.Accounting E R) {np : Pid}
    (hfree : ∀ fd, σ (np, fd) = none) (hcwd : γ np = none)
    (h : Held R S σ γ (held σ) (held γ) 0 k) :
    wp (forkShare p np) (fun _ k' => AtRest R S k') (NotFileRef E) k := by
  rw [forkShare, wp_bind, wp_gets]
  refine Stable.seq (Held.stable_of_keeps (keepsHeld_updProc fun _ => ⟨rfl, rfl⟩)) h
    fun _ k1 h1 => ?_
  refine wp_then (h1.wp_dupFilesLoop _ (List.nodup_finRange _) fun fd _ => hfree fd) ?_
  rintro _ k2 ⟨σ', h2⟩
  rw [wp_bind, wp_gets]
  split
  · exact wp_stop.mpr (.fs (acct.stops _ rfl))
  rename_i ip hip
  have hdup := h2.files.wp_onFs (E := E) (m := Fs.idup ip) (C := fun _ => ip ::ₘ held γ)
    (D := fun _ => 0) fun N fs hfs => ?_
  · simp only [wp_bind, wp_updProc, wp_pure]
    refine wp_imp (h2.keep keeps_onFs hdup) fun _ k3 h3 => ?_
    refine Held.rest (σ := σ') (γ := update γ np (some ip)) ⟨?_, ?_, ?_⟩
    · rw [← h3.slot]
      exact State.slot_setProc_same k3 np rfl
    · rw [State.cwds_setProc, h3.cwds]
    · rw [held_update_some hcwd]
      exact h3.files.of_eq rfl
  · rw [add_cons]
    exact acct.idup (h2.cwd_mem N ip hip) hfs

theorem AtRest.wp_kfork (acct : Fs.Accounting E R) (h : AtRest R S k)
    (hidle : ∀ q, Idle (k.proc q).core) :
    wp (kfork p) (fun _ k' => AtRest R S k') (NotFileRef E) k := by
  refine wp_then (wp_and ((Held.stable_of_keeps keepsHeld_allocproc).wp k h.open)
    (wp_allocproc rfl)) ?_
  rintro (_ | np) k1 ⟨h1, hnp⟩
  · exact wp_pure.mpr h1.rest
  have hstate : (k.proc np).state = .unused := hnp.1
  obtain ⟨hofile, hcwd⟩ := hidle np (.inl hstate)
  rw [wp_bind, wp_gets]
  split
  swap
  · exact wp_stop.mpr .vm
  refine (Held.stable_of_keeps keepsHeld_onMem).seq h1 ?_
  rintro ⟨new, ok⟩ k2 h2
  refine Stable.seq (Held.stable_of_keeps (keepsHeld_updProc fun _ => ⟨rfl, rfl⟩)) h2
    fun _ k3 h3 => ?_
  rw [wp_ite]
  refine ⟨fun _ => h3.wp_forkShare acct hofile hcwd, fun _ => ?_⟩
  exact (Held.stable_of_keeps keepsHeld_freeproc).seq h3 fun _ k4 h4 => wp_pure.mpr h4.rest

/-- The loop of `kexit` over the descriptors. -/
theorem Held.wp_closeFiles (acct : Fs.Accounting E R) (h : Held R S σ γ (held σ) A B k) :
    wp (closeFiles p) (fun _ k' => ∃ σ', Held R S σ' γ (held σ') A B k') (NotFileRef E) k := by
  refine wp_each ?_ ⟨σ, h⟩
  rintro fd - k1 ⟨σ1, h1⟩
  rw [wp_bind, wp_gets, id]
  split
  · exact wp_pure.mpr ⟨σ1, h1⟩
  · rename_i f hf
    have hslot : σ1 (p, fd) = some f := by
      rw [← h1.slot]
      exact hf
    rw [held_eq_cons hslot] at h1
    refine wp_then (h1.keep keeps_fileclose (h1.files.wp_fileclose acct)) fun _ k2 h2 => ?_
    exact wp_imp h2.setFd fun _ k3 h3 => ⟨_, h3⟩

theorem AtRest.wp_kexit (acct : Fs.Accounting E R) (h : AtRest R S k) {status : Int} :
    wp (kexit p status) (fun _ k' => AtRest R S k') (NotFileRef E) k := by
  rw [kexit, wp_bind, wp_gets, wp_ite]
  refine ⟨fun _ => wp_stop.mpr ⟨by rintro ⟨⟩, by rintro ⟨⟩, by rintro _ ⟨⟩⟩, fun _ => ?_⟩
  refine wp_then (h.open.wp_closeFiles acct) ?_
  rintro _ k1 ⟨σ, h1⟩
  rw [wp_bind, wp_gets, wp_bind]
  have hput := h1.files.wp_onFs (E := E) (m := do
    Fs.beginOp
    Fs.iputPtr (k1.proc p).cwd
    Fs.endOp) (C := fun _ => held (update k.cwds p none)) (D := fun _ => 0)
    fun N fs hfs => ?_
  · refine wp_imp (h1.keep keeps_onFs hput) fun _ k2 h2 => ?_
    have h3 : Held R S σ (update k.cwds p none) (held σ)
        (held (update k.cwds p none)) 0
        (k2.setProc p { k2.proc p with cwd := none }) := by
      refine ⟨?_, ?_, h2.files.of_eq rfl⟩
      · rw [← h2.slot]
        exact State.slot_setProc_same k2 p rfl
      · rw [State.cwds_setProc, h2.cwds]
    rw [wp_bind, wp_updProc]
    refine (Held.stable_of_keeps keepsHeld_reparent).seq h3 fun _ k4 h4 => ?_
    rw [wp_bind, wp_gets, id]
    refine (Held.stable_of_keeps keepsHeld_wakeupProc).seq h4 fun _ k5 h5 => ?_
    exact Stable.andThen (Held.stable_of_keeps (keepsHeld_updProc fun _ => ⟨rfl, rfl⟩)) h5
      fun _ k6 h6 => h6.rest
  · have hcwd : (k1.proc p).cwd = k.cwds p := congrFun h1.cwds p
    rw [hcwd]
    rw [held_cwds k.cwds p] at hfs
    simp only [wp_bind]
    refine acct.beginOp.andThen hfs fun _ fs1 hfs1 => ?_
    cases hip : k.cwds p with
    | none => exact wp_stop.mpr (acct.stops _ rfl)
    | some ip =>
      rw [hip, Option.elim, add_cons] at hfs1
      exact wp_imp (acct.iputKnown hfs1) fun _ fs2 hfs2 => acct.endOp.wp fs2 hfs2

/-! ### Every event -/

theorem AtRest.stable_withCwd {m : Option Fs.IPtr → Fs.FsM Int}
    (hm : ∀ {cwd A}, (∀ ip, cwd = some ip → ip ∈ A) → Stable E (R S A 0) (m cwd)) :
    Stable (NotFileRef E) (AtRest R S) (withCwd p m) := by
  refine ⟨fun k h => ?_⟩
  rw [withCwd, wp_bind, wp_gets]
  refine wp_then (h.open.keep keeps_onFs (h.wp_onFs
    fun N fs hfs => ?_)) fun _ k1 h1 => wp_pure.mpr h1.rest
  exact (hm (h.open.cwd_mem N)).wp fs hfs

theorem Stable.returns {I : State → Prop} {E' : Stop → Prop} {m : KM Int} (hm : Stable E' I m) :
    Stable E' I (returns m) := .bind hm fun _ => .pure _

theorem AtRest.stable_withFd {arg : Int} {m : FPtr → KM Int} (hT : ∀ f, KeepsTable (m f))
    (hm : ∀ f F A, Stable (NotFileRef E) (Files R S F A 0) (m f)) :
    Stable (NotFileRef E) (AtRest R S) (argfd p arg >>= fun r => match r with
      | none => pure (-1)
      | some (_, f) => m f) := by
  refine .bind (.gets _) ?_
  rintro (_ | ⟨_, f⟩)
  · exact .pure _
  · exact AtRest.stable (hT f) (hm f)

/-- **Every system call** gives back what it takes, but for what the descriptors and
current directories hold afterwards. -/
theorem AtRest.wp_syscall (acct : Fs.Accounting E R) (c : Call) (h : AtRest R S k)
    (hidle : ∀ q, Idle (k.proc q).core) :
    wp (syscall p c) (fun _ k' => AtRest R S k') (NotFileRef E) k := by
  have stable : ∀ {m : KM (Option Int)}, Stable (NotFileRef E) (AtRest R S) m →
      wp m (fun _ k' => AtRest R S k') (NotFileRef E) k := fun hm => hm.wp k h
  cases c with
  | fork => exact wp_bind.mpr (wp_imp (h.wp_kfork acct hidle) fun _ _ h' => wp_pure.mpr h')
  | exit status => exact wp_bind.mpr (wp_imp (h.wp_kexit acct) fun _ _ h' => wp_pure.mpr h')
  | wait addr => exact stable (AtRest.stable_of_keeps keepsHeld_kwait)
  | pipe fdarray => exact stable (Stable.returns ⟨fun _ h => h.wp_sysPipe acct⟩)
  | read fd addr n tr =>
    exact stable (Stable.returns (AtRest.stable_withFd (fun _ => tableFrame.fileread)
      fun _ _ _ => Files.stable_fileread acct))
  | kill pid => exact stable (Stable.returns (AtRest.stable_of_keeps keepsHeld_kkill))
  | exec path uargv str => exact stable (Stable.returns (AtRest.stable_sysExec acct))
  | fstat fd addr =>
    exact stable (Stable.returns (AtRest.stable_withFd (fun _ => tableFrame.filestat)
      fun _ _ _ => Files.stable_filestat acct))
  | chdir path => exact stable (Stable.returns ⟨fun _ h => h.wp_sysChdir acct⟩)
  | dup fd => exact stable (Stable.returns ⟨fun _ h => h.wp_sysDup⟩)
  | getpid | uptime => exact stable (Stable.returns (.gets _))
  | sbrk n t => exact stable (Stable.returns (AtRest.stable_of_keeps keepsHeld_sysSbrk))
  | pause n =>
    exact stable (.bind (.gets _) fun _ => AtRest.stable_of_keeps keepsHeld_pauseLoop)
  | opn path omode => exact stable (Stable.returns ⟨fun _ h => h.wp_sysOpen acct⟩)
  | write fd addr n tr =>
    exact stable (Stable.returns (AtRest.stable_withFd (fun _ => tableFrame.filewrite)
      fun _ _ _ => Files.stable_filewrite acct))
  | mknod path major minor | mkdir path =>
    rw [syscall]
    exact stable (AtRest.stable_withCwd fun hcwd =>
      ⟨fun _ hfs => acct.makeOp (by rintro ⟨⟩) hcwd hfs⟩)
  | unlink path =>
    rw [syscall]
    exact stable (AtRest.stable_withCwd fun hcwd => ⟨fun _ hfs => acct.sysUnlink hcwd hfs⟩)
  | link old new =>
    rw [syscall]
    exact stable (AtRest.stable_withCwd fun hcwd => ⟨fun _ hfs => acct.sysLink hcwd hfs⟩)
  | close fd => exact stable (Stable.returns ⟨fun _ h => h.wp_sysClose acct⟩)
  | meminfo addr => exact stable (Stable.returns (AtRest.stable_of_keeps keepsHeld_sysMeminfo))
  | getrlimit resource addr =>
    exact stable (Stable.returns (AtRest.stable_of_keeps keepsHeld_sysGetrlimit))
  | setrlimit resource n =>
    exact stable (Stable.returns (AtRest.stable_of_keeps keepsHeld_sysSetrlimit))

/-- What keeps the account at rest, in the form of a rule. -/
theorem AtRest.wp_of_stable (hm : Stable (NotFileRef E) (AtRest R S) m) (h : AtRest R S k) :
    wp m (fun _ k' => AtRest R S k') (NotFileRef E) k := hm.wp k h

theorem AtRest.stable_goOn : Stable (NotFileRef E) (AtRest R S) (goOn p) := by
  refine ⟨fun k h => ?_⟩
  rw [goOn, wp_bind, wp_gets, id]
  split
  · rw [wp_when]
    refine ⟨fun hfirst => ?_, fun _ => h⟩
    rw [h.booted] at hfirst
    cases hfirst
  · rename_i b _
    refine AtRest.wp_of_stable (AtRest.stable_of_keeps (.bind (keepsHeld_updProc fun _ =>
      ⟨rfl, rfl⟩) fun _ => .bind ?_ fun _ => keepsHeld_setA0)) h
    cases b with
    | wait addr => exact keepsHeld_kwait
    | pause n ticks0 => exact keepsHeld_pauseLoop

/-- The process that the scheduler picks, or that the timer interrupts. -/
theorem keepsHeld_modify {g : State → Proc} (hg : ∀ k, (g k).ofile = (k.proc p).ofile ∧
    (g k).cwd = (k.proc p).cwd) : KeepsHeld E (.modify fun k => k.setProc p (g k)) :=
  .modify fun k => keepsHeld_setProc (hg k).1 (hg k).2

/-- **One event** leaves the references those of descriptors and current directories. -/
theorem event_rest (acct : Fs.Accounting E R) (e : Event) (h : AtRest R S k)
    (hidle : ∀ q, Idle (k.proc q).core) :
    wp e.body (fun _ k' => AtRest R S k') (NotFileRef E) k := by
  cases e with
  | call p c fails =>
    simp only [Event.body, wp_bind, setFails, wp_modify]
    have h1 : AtRest R S { k with mem := { k.mem with fails := fails } } := h.of_eq rfl
    exact wp_imp (h1.wp_syscall acct c hidle) fun r k2 h2 =>
      (AtRest.stable_of_keeps keepsHeld_setA0).wp k2 h2
  | dispatch p fails =>
    exact AtRest.wp_of_stable (.bind (AtRest.stable_of_keeps keepsHeld_setFails) fun _ =>
      .bind (AtRest.stable_of_keeps (keepsHeld_modify fun _ => ⟨rfl, rfl⟩)) fun _ =>
        AtRest.stable_goOn) h
  | timer p user =>
    exact AtRest.wp_of_stable (AtRest.stable_of_keeps (keepsHeld_modify fun _ => ⟨rfl, rfl⟩)) h
  | fault p va fails =>
    exact AtRest.wp_of_stable (.bind (AtRest.stable_of_keeps keepsHeld_setFails) fun _ =>
      AtRest.stable_of_keeps keepsHeld_pageFault) h
  | store p va v => exact AtRest.wp_of_stable (AtRest.stable_of_keeps keepsHeld_userStore) h
  | tick =>
    exact AtRest.wp_of_stable (.bind (AtRest.stable_of_keeps (.modify fun _ => rfl)) fun _ =>
      AtRest.stable_of_keeps keepsHeld_wakeup) h

end Xv6.Kernel
