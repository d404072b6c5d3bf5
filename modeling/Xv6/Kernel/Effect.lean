import Xv6.Kernel.Table

/-!
# xv6 — what each event does to the process table

Said once, for every system call and every other event of the machine; the
invariants of the process table are then case analyses on it.

* `Effect p T c T'`   — the system call `c` of process `p` may take `T` to `T'`.
* `syscall_effect`    — a system call does nothing else.
* `Move T e T'`       — the event `e` may take `T` to `T'`.
* `step_move`         — a step of the machine does nothing else.
* `Change T e q c`, `step_change` — the same for one entry `q` of the table: what
  an invariant of each process by itself needs.
-/

namespace Xv6.Kernel

open Prog Function

variable {c : Core} {np : Pid} {fails : List Bool} {T' : Table}

/-- One round of `kwait(addr)` by `p`: nothing, the child `q` is freed, or `p`
goes to sleep. -/
inductive WaitEffect (p : Pid) (addr : Nat) (T : Table) : Table → Prop
  | none : WaitEffect p addr T T
  | reap (q : Pid) : (T.proc q).state = .zombie → (T.proc q).parent = some p →
      WaitEffect p addr T (T.set q (T.proc q).freed)
  | sleep : WaitEffect p addr T (T.set p ((T.proc p).sleep (.proc p) (.wait addr)))

/-- One round of `pause` by `p`. -/
inductive PauseEffect (p : Pid) (n ticks0 : Nat) (T : Table) : Table → Prop
  | none : PauseEffect p n ticks0 T T
  | sleep : PauseEffect p n ticks0 T (T.set p ((T.proc p).sleep .ticks (.pause n ticks0)))

/-- What the system call `c` of process `p` can do to the table `T`. Every call
may leave it alone. -/
inductive Effect (p : Pid) (T : Table) : Call → Table → Prop
  | none (c : Call) : Effect p T c T
  | forkFail (q : Pid) (pid : Int) : (T.proc q).state = .unused →
      Effect p T .fork (T.set q ((T.proc q).started pid).freed)
  | fork (q : Pid) (pid : Int) : (T.proc q).state = .unused →
      Effect p T .fork (T.set q (((T.proc q).started pid).child p (T.proc p)))
  | exit (status : Int) : T.initproc ≠ some p → Effect p T (.exit status) (T.exit p)
  | wait (addr : Nat) (T' : Table) : WaitEffect p addr T T' → Effect p T (.wait addr) T'
  | pause (n : Int) (ticks0 : Nat) (T' : Table) :
      PauseEffect p n.toNat ticks0 T T' → Effect p T (.pause n) T'
  | kill (pid : Int) (q : Pid) : (T.proc q).pid = pid →
      Effect p T (.kill pid) (T.set q (T.proc q).kill)
  | dup (arg : Int) (fd : Fin NOFILE) (f : FPtr) : (T.proc p).ofile fd = none →
      Effect p T (.dup arg) (T.set p ((T.proc p).setFd fd (some f)))
  | close (arg : Int) (fd : Fin NOFILE) :
      Effect p T (.close arg) (T.set p ((T.proc p).setFd fd none))
  | opn (path : Option Fs.Path) (omode : Nat) (fd : Fin NOFILE) (f : FPtr) :
      (countFiles (T.proc p).ofile : Int) < (T.proc p).nofileMax → (T.proc p).ofile fd = none →
      Effect p T (.opn path omode) (T.set p ((T.proc p).setFd fd (some f)))
  | pipe (fdarray : Nat) (fd0 fd1 : Fin NOFILE) (f0 f1 : FPtr) : fd0 ≠ fd1 →
      (T.proc p).ofile fd0 = none → (T.proc p).ofile fd1 = none →
      Effect p T (.pipe fdarray)
        (T.set p (((T.proc p).setFd fd0 (some f0)).setFd fd1 (some f1)))
  | chdir (path : Option Fs.Path) (ip : Fs.IPtr) :
      Effect p T (.chdir path) (T.set p { T.proc p with cwd := some ip })
  | cpuLimit (n : Int) : n ≠ 0 → n ≤ MAX_CPU_TICKS → (T.proc p).cpuTicks < u64 n →
      Effect p T (.setrlimit RLIMIT_CPU n) (T.set p { T.proc p with cpuTicksMax := u64 n })
  | nofileLimit (n : Int) : 0 < n → n ≤ NOFILE → countFiles (T.proc p).ofile < n →
      Effect p T (.setrlimit RLIMIT_NOFILE n) (T.set p { T.proc p with nofileMax := n })

/-! ### Descriptors -/

section Calls

variable {p : Pid} {k : State} {T : Table} (hT : k.table = T)

include hT

/-- A change of one process, seen in the table. -/
theorem wp_updProc_table {f : Proc → Proc} (g : Core → Core)
    (h : ∀ pr, (f pr).core = g pr.core) :
    wp (updProc p f) (fun _ k' => k'.table = T.set p (g (T.proc p))) NotInitExiting k := by
  subst hT
  rw [wp_updProc, State.table_setProc, h, State.table_proc]

theorem wp_setFd {fd : Fin NOFILE} {f : Option FPtr} :
    wp (setFd p fd f) (fun _ k' => k'.table = T.set p ((T.proc p).setFd fd f)) NotInitExiting k :=
  wp_updProc_table hT (fun c => c.setFd fd f) fun _ => rfl

theorem wp_fdalloc {f : FPtr} : wp (fdalloc p f) (fun r k' => match r with
      | none => k'.table = T
      | some fd => (T.proc p).ofile fd = none ∧ k'.table = T.set p ((T.proc p).setFd fd (some f)))
      NotInitExiting k := by
  simp only [fdalloc, wp_bind, wp_gets]
  split
  · exact wp_pure.mpr hT
  · rename_i fd hfd
    have hfree := List.find?_some hfd
    simp only [decide_eq_true_eq] at hfree
    refine wp_then (wp_setFd hT) ?_
    intro _ k' hk'
    subst hT
    exact wp_pure.mpr ⟨hfree.2, hk'⟩

theorem effect_dup {arg : Int} :
    wp (sysDup p arg) (fun _ k' => Effect p T (.dup arg) k'.table) NotInitExiting k := by
  simp only [sysDup, wp_bind]
  refine wp_imp (keeps_argfd.to hT) ?_
  rintro (_ | ⟨_, f⟩) k1 h1
  · exact wp_pure.mpr (h1 ▸ .none _)
  refine wp_then (wp_fdalloc h1) ?_
  rintro (_ | fd) k2 h2
  · exact wp_pure.mpr (h2 ▸ .none _)
  refine wp_then (keeps_filedup.to h2.2) ?_
  intro _ k3 h3
  exact wp_pure.mpr (h3 ▸ .dup arg fd f h2.1)

theorem effect_close {arg : Int} :
    wp (sysClose p arg) (fun _ k' => Effect p T (.close arg) k'.table) NotInitExiting k := by
  simp only [sysClose, wp_bind]
  refine wp_imp (keeps_argfd.to hT) ?_
  rintro (_ | ⟨fd, f⟩) k1 h1
  · exact wp_pure.mpr (h1 ▸ .none _)
  refine wp_then (wp_setFd h1) fun _ k2 h2 => ?_
  refine wp_then (keeps_fileclose.to h2) fun _ k3 h3 => ?_
  exact wp_pure.mpr (h3 ▸ .close arg fd)

/-- The part of `sys_open` after the test of the limit. -/
theorem effect_openOp {path : Fs.Path} {omode : Nat}
    (hmax : (countFiles (T.proc p).ofile : Int) < (T.proc p).nofileMax) :
    wp (openOp p path omode) (fun _ k' => Effect p T (.opn (some path) omode) k'.table)
      NotInitExiting k := by
  have hfail : ∀ {ip : Fs.IPtr} {k' : State}, k'.table = T →
      wp (openFail ip) (fun _ k' => Effect p T (.opn (some path) omode) k'.table)
        NotInitExiting k' :=
    fun h => wp_imp (keeps_openFail.to h) fun _ _ h' => h' ▸ .none _
  simp only [openOp, wp_bind, wp_gets]
  refine wp_imp (keeps_onFs.to hT) fun _ k1 h1 => ?_
  refine wp_imp (keeps_onFs.to h1) ?_
  rintro (_ | ip) k2 h2
  · exact wp_then (keeps_onFs.to h2) fun _ k3 h3 => wp_pure.mpr (h3 ▸ .none _)
  refine wp_then (keeps_onFs.to h2) fun d k3 h3 => ?_
  refine wp_ite.mpr ⟨fun _ => hfail h3, fun _ => ?_⟩
  refine wp_then (keeps_filealloc.to h3) ?_
  rintro (_ | f) k4 h4
  · exact hfail h4
  refine wp_then (wp_fdalloc h4) ?_
  rintro (_ | fd) k5 h5
  · exact wp_then (keeps_fileclose.to h5) fun _ k6 h6 => hfail h6
  refine wp_then (keeps_openInstall.to h5.2) fun _ k6 h6 => ?_
  exact wp_pure.mpr (h6 ▸ .opn _ _ fd f hmax h5.1)

theorem effect_open {path : Option Fs.Path} {omode : Nat} :
    wp (sysOpen p path omode) (fun _ k' => Effect p T (.opn path omode) k'.table)
      NotInitExiting k := by
  simp only [sysOpen, wp_bind, wp_gets, wp_ite]
  refine ⟨fun _ => wp_pure.mpr (hT ▸ .none _), fun hlt => ?_⟩
  rcases path with _ | path
  · exact wp_pure.mpr (hT ▸ .none _)
  · refine effect_openOp hT ?_
    subst hT
    exact not_le.mp hlt

theorem effect_pipe {fdarray : Nat} :
    wp (sysPipe p fdarray) (fun _ k' => Effect p T (.pipe fdarray) k'.table) NotInitExiting k := by
  have hfail : ∀ {rf wf : FPtr} {k' : State}, k'.table = T →
      wp (pipeFail rf wf) (fun _ k' => Effect p T (.pipe fdarray) k'.table) NotInitExiting k' :=
    fun h => wp_imp (keeps_pipeFail.to h) fun _ _ h' => h' ▸ .none _
  have hclear : ∀ {fd : Fin NOFILE} {c : Core} {f : Option FPtr}, c.ofile fd = none →
      (c.setFd fd f).setFd fd none = c := by
    intro fd c f h
    simp [Core.setFd, ← h]
  simp only [sysPipe, wp_bind]
  refine wp_imp (keeps_pipealloc.to hT) ?_
  rintro (_ | ⟨rf, wf⟩) k1 h1
  · exact wp_pure.mpr (h1 ▸ .none _)
  refine wp_then (wp_fdalloc h1) ?_
  rintro (_ | fd0) k2 h2
  · exact hfail h2
  obtain ⟨hfd0, h2⟩ := h2
  refine wp_then (wp_fdalloc h2) ?_
  rintro (_ | fd1) k3 h3
  · refine wp_then (wp_setFd h3) fun _ k4 h4 => hfail ?_
    rw [h4, Table.set_same, Table.set_set, hclear hfd0, Table.set_self]
  obtain ⟨hfd1, h3⟩ := h3
  have hne : fd0 ≠ fd1 := by
    rintro rfl
    simp [Core.setFd] at hfd1
  have hfree1 : (T.proc p).ofile fd1 = none := by simpa [Core.setFd, hne.symm] using hfd1
  rw [Table.set_same, Table.set_set] at h3
  refine wp_then (keeps_copyout.to h3) fun ok0 k4 h4 => ?_
  have hcopy : KeepsTable (if ok0 = true
      then copyout p (u64 (fdarray + 4)) (ByteBuffer.leBytes 4 fd1) else pure false : KM Bool) :=
    .ite keeps_copyout (.pure _)
  refine wp_then (hcopy.to h4) fun ok k5 h5 => ?_
  refine wp_ite.mpr ⟨fun _ => ?_, fun _ => ?_⟩
  · exact wp_pure.mpr (h5 ▸ .pipe fdarray fd0 fd1 rf wf hne hfd0 hfree1)
  · refine wp_then (wp_setFd h5) fun _ k6 h6 => ?_
    refine wp_then (wp_setFd h6) fun _ k7 h7 => hfail ?_
    rw [h7, Table.set_same, Table.set_same, Table.set_set, Table.set_set]
    have hback : ((((T.proc p).setFd fd0 (some rf)).setFd fd1 (some wf)).setFd fd0 none).setFd
        fd1 none = T.proc p := by
      simp only [Core.setFd]
      rw [update_comm hne.symm, update_idem, update_idem, ← hfd0,
        update_eq_self, hfd0, ← hfree1, update_eq_self]
    rw [hback, Table.set_self]

theorem effect_chdir {path : Option Fs.Path} :
    wp (sysChdir p path) (fun _ k' => Effect p T (.chdir path) k'.table) NotInitExiting k := by
  simp only [sysChdir, wp_bind, wp_gets]
  refine wp_imp (keeps_onFs.to hT) ?_
  rintro (_ | ip) k1 h1
  · exact wp_pure.mpr (h1 ▸ .none _)
  refine wp_then (wp_updProc_table h1 (fun c => { c with cwd := some ip }) fun _ => rfl) ?_
  intro _ k2 h2
  exact wp_pure.mpr (h2 ▸ .chdir path ip)

/-! ### Slots -/

theorem wp_freeproc :
    wp (freeproc p) (fun _ k' => k'.table = T.set p (T.proc p).freed) NotInitExiting k := by
  have hfree : ∀ {pt : Option Vm.Pagetable} {sz : Nat},
      KeepsTable (freePagetable pt sz) := by
    rintro (_ | pt) sz
    · exact .pure _
    · exact keeps_onMem
  simp only [freeproc, wp_bind, wp_gets]
  refine wp_imp ((Keeps.when keeps_onMem).to hT) fun _ k1 h1 => ?_
  refine Keeps.andThen (keeps_updProc fun _ => rfl) h1 fun _ k2 h2 => ?_
  refine wp_imp (hfree.to h2) fun _ k3 h3 => ?_
  exact wp_updProc_table h3 Core.freed fun _ => rfl

/-- What `allocproc` answers and does: it takes an UNUSED slot, and on failure
frees it again. -/
theorem wp_allocproc : wp allocproc (fun r k' => match r with
      | none => k'.table = T ∨ ∃ q pid, (T.proc q).state = .unused ∧
          k'.table = T.set q ((T.proc q).started pid).freed
      | some q => (T.proc q).state = .unused ∧
          ∃ pid, k'.table = T.set q ((T.proc q).started pid)) NotInitExiting k := by
  simp only [allocproc, wp_bind, wp_gets]
  split
  · exact wp_pure.mpr (.inl hT)
  rename_i q hq
  have hunused : (T.proc q).state = .unused := by
    subst hT
    have hstate : (k.proc q).state = .unused := by simpa using List.find?_some hq
    exact hstate
  simp only [wp_bind]
  refine Keeps.andThen (.modify fun _ => rfl) hT fun _ k1 h1 => ?_
  refine wp_imp (wp_updProc_table h1
    (fun c => { c.started k.nextpid with hasTable := c.hasTable }) fun _ => rfl) fun _ k2 h2 => ?_
  refine wp_imp (keeps_onMem.to h2) fun tf k3 h3 => ?_
  refine Keeps.andThen (keeps_updProc fun _ => rfl) h3 fun _ k4 h4 => ?_
  refine wp_ite.mpr ⟨fun _ => ?_, fun _ => ?_⟩
  · refine wp_then (wp_freeproc h4) fun _ k5 h5 => wp_pure.mpr (.inr ⟨q, k.nextpid, hunused, ?_⟩)
    rw [h5, Table.set_same, Table.set_set]
    rfl
  refine wp_then (keeps_onMem.to h4) fun pt k5 h5 => ?_
  refine wp_then (wp_updProc_table h5 (fun c => { c with hasTable := pt.isSome }) fun _ => rfl)
    fun _ k6 h6 => ?_
  rw [Table.set_same, Table.set_set] at h6
  rcases pt with _ | pt
  · simp only [Option.isNone_none, if_true, wp_bind]
    refine wp_imp (wp_freeproc h6) fun _ k7 h7 => wp_pure.mpr (.inr ⟨q, k.nextpid, hunused, ?_⟩)
    rw [h7, Table.set_same, Table.set_set]
    rfl
  · exact wp_pure.mpr ⟨hunused, k.nextpid, h6⟩

/-! ### fork -/

omit hT

/-- A loop over the descriptors that leaves entry `q` of the table with `new` in them. -/
theorem wp_eachFd {q : Pid} {body : Fin NOFILE → KM Unit} {new : Fin NOFILE → Option FPtr}
    (hbody : ∀ fd o k, o fd = (T.proc q).ofile fd →
      k.table = T.set q ((T.proc q).setFiles o) → wp (body fd) (fun _ k' => k'.table =
        T.set q ((T.proc q).setFiles (update o fd (new fd)))) NotInitExiting k) (hT : k.table = T) :
    wp (each body (List.finRange NOFILE)) (fun _ k' => k'.table = T.set q ((T.proc q).setFiles new))
      NotInitExiting k := by
  -- the descriptors in `fds` are still what they were
  have hloop : ∀ (fds : List (Fin NOFILE)) (o : Fin NOFILE → Option FPtr) (k : State), fds.Nodup →
      (∀ fd ∈ fds, o fd = (T.proc q).ofile fd) → (∀ fd, fd ∉ fds → o fd = new fd) →
      k.table = T.set q ((T.proc q).setFiles o) →
      wp (each body fds) (fun _ k' => k'.table = T.set q ((T.proc q).setFiles new))
        NotInitExiting k := by
    intro fds
    induction fds with
    | nil =>
      intro o k _ _ hnew hk
      obtain rfl : o = new := funext fun fd => hnew fd List.not_mem_nil
      exact wp_pure.mpr hk
    | cons fd fds ih =>
      intro o k hnodup hold hnew hk
      obtain ⟨hfd, hnodup⟩ := List.nodup_cons.mp hnodup
      refine wp_then (hbody fd o k (hold fd List.mem_cons_self) hk) fun _ k1 h1 =>
        ih _ k1 hnodup (fun fd' hfd' => ?_) (fun fd' hfd' => ?_) h1
      · rw [update_of_ne (ne_of_mem_of_not_mem hfd' hfd)]
        exact hold fd' (List.mem_cons_of_mem _ hfd')
      · by_cases heq : fd' = fd
        · rw [heq, update_self]
        · rw [update_of_ne heq]
          exact hnew fd' (by simp [heq, hfd'])
  refine hloop _ (T.proc q).ofile k (List.nodup_finRange _) (fun _ _ => rfl)
    (fun fd hfd => absurd (List.mem_finRange fd) hfd) ?_
  rw [Core.setFiles_self, Table.set_self, hT]

theorem Core.setFiles_setFd (c : Core) (o : Fin NOFILE → Option FPtr) (fd : Fin NOFILE)
    (f : Option FPtr) : (c.setFiles o).setFd fd f = c.setFiles (update o fd f) := rfl

theorem wp_dupFiles (hne : p ≠ np) (hT : k.table = T) : wp (dupFiles p np) (fun _ k' => k'.table =
      T.set np ((T.proc np).setFiles (inheritFiles (T.proc p).ofile (T.proc np).ofile)))
      NotInitExiting k := by
  refine wp_eachFd (fun fd o k hfd hk => ?_) hT
  have hp : (k.proc p).ofile fd = (T.proc p).ofile fd := by
    rw [← Table.set_of_ne T ((T.proc np).setFiles o) hne, ← hk]
    rfl
  rw [wp_bind, wp_gets, id, hp, inheritFiles]
  cases (T.proc p).ofile fd with
  | none =>
    refine wp_pure.mpr ?_
    rw [hk, Option.none_or, ← hfd, update_eq_self]
  | some f =>
    refine wp_then (keeps_filedup.to hk) fun _ k1 h1 => wp_imp (wp_setFd h1) fun _ k2 h2 => ?_
    rw [h2, Table.set_same, Table.set_set, Core.setFiles_setFd, Option.some_or]

/-- `kfork` from the point where the child `np` has its memory. -/
theorem wp_forkShare {pid : Int} (hne : p ≠ np)
    (hT : k.table = T.set np ((T.proc np).started pid)) : wp (forkShare p np)
      (fun _ k' => k'.table = T.set np (((T.proc np).started pid).child p (T.proc p)))
      NotInitExiting k := by
  have hp : ∀ {k' : State} {c : Core}, k'.table = T.set np c → (k'.proc p).core = T.proc p := by
    intro k' c h
    rw [← State.table_proc, h, Table.set_of_ne _ _ hne]
  simp only [forkShare, wp_bind, wp_gets, id]
  refine wp_imp (wp_updProc_table hT (fun c => c.inherit (k.proc p).core) fun _ => rfl)
    fun _ k1 h1 => ?_
  rw [Table.set_same, Table.set_set, hp hT] at h1
  refine wp_imp (wp_dupFiles hne h1) fun _ k2 h2 => ?_
  rw [Table.set_same, Table.set_set, Table.set_of_ne _ _ hne] at h2
  have hcwd : (k2.proc p).cwd = (T.proc p).cwd := congrArg Core.cwd (hp h2)
  split
  · exact wp_stop.mpr (by rintro ⟨⟩)
  rename_i ip hip
  rw [hcwd] at hip
  refine wp_then (keeps_onFs.to h2) fun _ k3 h3 => ?_
  refine wp_then (wp_updProc_table h3 (fun c => { c with
    cwd := some ip, parent := some p, state := .runnable }) fun _ => rfl) fun _ k4 h4 => ?_
  refine wp_pure.mpr ?_
  rw [h4, Table.set_same, Table.set_set, Core.child, hip]
  rfl

include hT

theorem effect_fork (hp : (T.proc p).state ≠ .unused) :
    wp (kfork p) (fun _ k' => Effect p T .fork k'.table) NotInitExiting k := by
  simp only [kfork, wp_bind]
  refine wp_imp (wp_allocproc hT) ?_
  rintro (_ | np) k1 h1
  · rcases h1 with h1 | ⟨q, pid, hq, h1⟩
    · exact wp_pure.mpr (h1 ▸ .none _)
    · exact wp_pure.mpr (h1 ▸ .forkFail q pid hq)
  obtain ⟨hunused, pid, h1⟩ := h1
  have hne : p ≠ np := by
    rintro rfl
    exact hp hunused
  simp only [wp_bind, wp_gets]
  split
  swap
  · exact wp_stop.mpr (by rintro ⟨⟩)
  refine wp_then (keeps_onMem.to h1) ?_
  rintro ⟨new, ok⟩ k2 h2
  refine wp_then (wp_updProc_table h2 (fun c => { c with hasTable := true }) fun _ => rfl)
    fun _ k3 h3 => ?_
  rw [Table.set_same, Table.set_set] at h3
  refine wp_ite.mpr ⟨fun _ => ?_, fun _ => ?_⟩
  · refine wp_imp (wp_forkShare hne h3) fun _ k4 h4 => ?_
    exact h4 ▸ .fork np pid hunused
  · refine wp_then (wp_freeproc h3) fun _ k4 h4 => wp_pure.mpr ?_
    rw [h4, Table.set_same, Table.set_set]
    exact .forkFail np pid hunused

/-! ### exit, wait, kill -/

theorem wp_wakeup {me : Option Pid} {ch : Chan} :
    wp (wakeup me ch) (fun _ k' => k'.table = T.wake me ch) NotInitExiting k := by
  subst hT
  refine wp_modify.mpr ?_
  simp only [State.table, Table.wake, Table.mk.injEq, and_true]
  funext q
  split <;> rename_i h
  · exact (if_pos h).symm
  · exact (if_neg h).symm

theorem wp_wakeupProc {me : Pid} {q : Option Pid} :
    wp (wakeupProc me q) (fun _ k' => k'.table = T.wakeProc me q) NotInitExiting k := by
  rcases q with _ | q
  · exact wp_pure.mpr hT
  · exact wp_wakeup hT

theorem wp_reparent :
    wp (reparent p) (fun _ k' => k'.table = T.reparent p) NotInitExiting k := by
  simp only [reparent, wp_bind, wp_gets, wp_when]
  subst hT
  refine ⟨fun h => ?_, fun h => (if_neg h).symm⟩
  refine wp_modify.mpr (wp_imp (wp_wakeupProc rfl) fun _ k' hk' => ?_)
  rw [hk']
  refine Eq.trans ?_ (if_pos h).symm
  congr 1
  simp only [State.table, Table.mk.injEq, and_true]
  funext q
  split <;> rename_i hq
  · exact (if_pos hq).symm
  · exact (if_neg hq).symm

theorem wp_closeFiles :
    wp (closeFiles p) (fun _ k' => k'.table = T.set p ((T.proc p).setFiles fun _ => none))
      NotInitExiting k := by
  refine wp_eachFd (fun fd o k _ hk => ?_) hT
  have hp : (k.proc p).ofile fd = o fd := by
    rw [show o fd = ((T.set p ((T.proc p).setFiles o)).proc p).ofile fd by rw [Table.set_same]; rfl,
      ← hk]
    rfl
  rw [wp_bind, wp_gets, id, hp]
  cases ho : o fd with
  | none =>
    refine wp_pure.mpr ?_
    rw [hk, ← ho, update_eq_self]
  | some f =>
    refine wp_then (keeps_fileclose.to hk) fun _ k1 h1 => wp_imp (wp_setFd h1) fun _ k2 h2 => ?_
    rw [h2, Table.set_same, Table.set_set, Core.setFiles_setFd]

/-- `kexit` turns the process into a zombie, unless it is init. -/
theorem wp_kexit {status : Int} :
    wp (kexit p status) (fun _ k' => T.initproc ≠ some p ∧ k'.table = T.exit p)
      (fun e => e = .kern .initExiting → T.initproc = some p) k := by
  simp only [kexit, wp_bind, wp_gets]
  refine wp_ite.mpr ⟨fun hinit => wp_stop.mpr fun _ => ?_, fun hinit => ?_⟩
  · subst hT
    exact hinit
  have hne : T.initproc ≠ some p := by
    subst hT
    exact hinit
  -- from here on it stops for other reasons only
  refine wp_mono ?_ (fun _ _ h => h) fun e (he : NotInitExiting e) h => absurd h he
  simp only [wp_bind, wp_gets, id]
  refine wp_imp (wp_closeFiles hT) fun _ k1 h1 => ?_
  refine wp_imp (keeps_onFs.to h1) fun _ k2 h2 => ?_
  refine wp_imp (wp_updProc_table h2 (fun c => { c with cwd := none }) fun _ => rfl)
    fun _ k3 h3 => ?_
  rw [Table.set_same, Table.set_set] at h3
  refine wp_imp (wp_reparent h3) fun _ k4 h4 => ?_
  refine wp_imp (wp_wakeupProc h4) fun _ k5 h5 => ?_
  refine wp_imp (wp_updProc_table h5 (fun c => { c with state := .zombie }) fun _ => rfl)
    fun _ k6 h6 => ⟨hne, ?_⟩
  have hparent : (k4.proc p).parent = (k4.table.proc p).parent := rfl
  rw [h6, hparent, h4]
  rfl

theorem effect_sleep {ch : Chan} {b : Blocked} :
    wp (sleep p ch b) (fun _ k' => k'.table = T.set p ((T.proc p).sleep ch b))
      NotInitExiting k := by
  simp only [sleep, wp_bind, wp_gets]
  exact wp_updProc_table hT (fun c => c.sleep ch b) fun _ => rfl

theorem effect_wait {addr : Nat} :
    wp (kwait p addr) (fun _ k' => WaitEffect p addr T k'.table) NotInitExiting k := by
  simp only [kwait, wp_bind, wp_gets]
  split
  · rename_i q hq
    have hfound : (T.proc q).parent = some p ∧ (T.proc q).state = .zombie := by
      subst hT
      have hstate : (k.proc q).parent = some p ∧ (k.proc q).state = .zombie := by
        simpa using List.find?_some hq
      exact hstate
    have hcopy : KeepsTable (if addr = 0 then pure true
        else copyout p addr (ByteBuffer.leBytes 4 (u32 (k.proc q).xstate)) : KM Bool) :=
      .ite (.pure _) keeps_copyout
    refine wp_then (hcopy.to hT) fun ok k1 h1 => ?_
    refine wp_ite.mpr ⟨fun _ => ?_, fun _ => wp_pure.mpr (h1 ▸ .none)⟩
    refine wp_then (wp_freeproc h1) fun _ k2 h2 => ?_
    exact wp_pure.mpr (h2 ▸ .reap q hfound.2 hfound.1)
  · refine wp_ite.mpr ⟨fun _ => wp_pure.mpr (hT ▸ .none), fun _ => ?_⟩
    exact wp_then (effect_sleep hT) fun _ k1 h1 => wp_pure.mpr (h1 ▸ .sleep)

theorem effect_kill {pid : Int} :
    wp (kkill pid) (fun _ k' => Effect p T (.kill pid) k'.table) NotInitExiting k := by
  simp only [kkill, wp_bind, wp_gets]
  split
  · exact wp_pure.mpr (hT ▸ .none _)
  · rename_i q hq
    have hpid : (T.proc q).pid = pid := by
      subst hT
      have hfound : (k.proc q).pid = pid := by simpa using List.find?_some hq
      exact hfound
    refine wp_then (wp_updProc_table hT Core.kill fun pr => ?_) fun _ k1 h1 => ?_
    · simp only [Core.kill, Proc.core]
      split <;> rename_i hs <;> simp [Proc.wake, hs]
    · exact wp_pure.mpr (h1 ▸ .kill pid q hpid)

/-! ### Time and limits -/

theorem effect_pauseLoop {n ticks0 : Nat} :
    wp (pauseLoop p n ticks0) (fun _ k' => PauseEffect p n ticks0 T k'.table) NotInitExiting k := by
  simp only [pauseLoop, wp_bind, wp_gets, wp_ite, wp_pure]
  refine ⟨fun _ => ⟨fun _ => hT ▸ .none, fun _ => ?_⟩, fun _ => hT ▸ .none⟩
  exact wp_imp (effect_sleep hT) fun _ k1 h1 => h1 ▸ .sleep

theorem effect_setrlimit {resource n : Int} :
    wp (sysSetrlimit p resource n) (fun _ k' => Effect p T (.setrlimit resource n) k'.table)
      NotInitExiting k := by
  have hsame : Effect p T (.setrlimit resource n) k.table := hT ▸ .none _
  simp only [sysSetrlimit, wp_bind, wp_gets, wp_ite, wp_pure]
  refine ⟨?_, fun _ => ⟨?_, fun _ => hsame⟩⟩
  · rintro rfl
    refine ⟨fun hok => ?_, fun _ => hsame⟩
    simp only [cpuLimitOk, decide_eq_true_eq, not_or, not_lt, not_le] at hok
    refine wp_imp (wp_updProc_table hT (fun c => { c with cpuTicksMax := u64 n }) fun _ => rfl)
      fun _ k1 h1 => h1 ▸ .cpuLimit n hok.1 hok.2.1 ?_
    subst hT
    exact hok.2.2
  · rintro rfl
    refine ⟨fun hok => ?_, fun _ => hsame⟩
    simp only [nofileLimitOk, decide_eq_true_eq, not_or, not_lt, not_le] at hok
    refine wp_imp (wp_updProc_table hT (fun c => { c with nofileMax := n }) fun _ => rfl)
      fun _ k1 h1 => h1 ▸ .nofileLimit n hok.2.1 hok.1 ?_
    subst hT
    exact hok.2.2

omit hT

/-! ### Every system call -/

theorem wp_returns {m : KM Int} {Q : State → Prop} (h : wp m (fun _ k' => Q k') NotInitExiting k) :
    wp (returns m) (fun _ k' => Q k') NotInitExiting k := by
  simp only [returns, wp_bind, wp_pure]
  exact h

/-- A call that keeps the table has the empty effect. -/
theorem effect_of_keeps {m : KM (Option Int)} {c : Call} (hm : KeepsTable m)
    (hT : k.table = T) : wp m (fun _ k' => Effect p T c k'.table) NotInitExiting k :=
  hm.andThen hT fun _ _ h => h ▸ .none _

theorem keeps_returns {m : KM Int} (hm : KeepsTable m) : KeepsTable (returns m) :=
  .bind hm fun _ => .pure _

theorem keeps_withCwd {m : Option Fs.IPtr → Fs.FsM Int} : KeepsTable (withCwd p m) :=
  .bind (.gets _) fun _ => keeps_returns keeps_onFs

/-- Why a call can stop: init has exited only if it called `exit`. -/
def ExitOnly (p : Pid) (T : Table) (c : Call) (e : Stop) : Prop :=
  e = .kern .initExiting → (∃ status, c = .exit status) ∧ T.initproc = some p

/-- **What a system call does to the process table.** -/
theorem syscall_effect (c : Call) (hT : k.table = T) (hp : (T.proc p).state ≠ .unused) :
    wp (syscall p c) (fun _ k' => Effect p T c k'.table) (ExitOnly p T c) k := by
  have other : wp (syscall p c) (fun _ k' => Effect p T c k'.table) NotInitExiting k →
      wp (syscall p c) (fun _ k' => Effect p T c k'.table) (ExitOnly p T c) k :=
    fun h => wp_mono h (fun _ _ h => h) fun _ he h => absurd h he
  cases c with
  | exit status =>
    simp only [syscall, wp_bind]
    refine wp_mono (wp_kexit hT) ?_ fun e he h => ⟨⟨status, rfl⟩, he h⟩
    exact fun _ k1 h1 => wp_pure.mpr (h1.2 ▸ .exit status h1.1)
  | fork => exact other (wp_returns (effect_fork hT hp))
  | wait addr => exact other (wp_imp (effect_wait hT) fun _ _ h => .wait addr _ h)
  | pipe fdarray => exact other (wp_returns (effect_pipe hT))
  | kill pid => exact other (wp_returns (effect_kill hT))
  | chdir path => exact other (wp_returns (effect_chdir hT))
  | dup fd => exact other (wp_returns (effect_dup hT))
  | pause n =>
    refine other ?_
    simp only [syscall, sysPause, wp_bind, wp_gets]
    exact wp_imp (effect_pauseLoop hT) fun _ _ h => .pause n _ _ h
  | opn path omode => exact other (wp_returns (effect_open hT))
  | close fd => exact other (wp_returns (effect_close hT))
  | setrlimit resource n => exact other (wp_returns (effect_setrlimit hT))
  | read =>
    exact other (effect_of_keeps (keeps_returns (keeps_withFd fun _ => tableFrame.fileread)) hT)
  | exec => exact other (effect_of_keeps (keeps_returns (tableFrame.sysExec keeps_commitImage)) hT)
  | fstat =>
    exact other (effect_of_keeps (keeps_returns (keeps_withFd fun _ => tableFrame.filestat)) hT)
  | getpid | uptime => exact other (effect_of_keeps (keeps_returns (.gets _)) hT)
  | sbrk => exact other (effect_of_keeps (keeps_returns keeps_sysSbrk) hT)
  | write =>
    exact other (effect_of_keeps (keeps_returns (keeps_withFd fun _ => tableFrame.filewrite)) hT)
  | meminfo => exact other (effect_of_keeps (keeps_returns keeps_sysMeminfo) hT)
  | getrlimit => exact other (effect_of_keeps (keeps_returns keeps_sysGetrlimit) hT)
  | mknod | unlink | link | mkdir =>
    simp only [syscall] at other ⊢
    exact other (effect_of_keeps keeps_withCwd hT)

end Calls

/-! ### Every step -/

/-- What an event can do to the table. -/
inductive Move (T : Table) : Event → Table → Prop
  | call (p : Pid) (c : Call) (fails : List Bool) (T' : Table) :
      (T.proc p).state = .running → Effect p T c T' → Move T (.call p c fails) T'
  | dispatch (p : Pid) (fails : List Bool) :
      (T.proc p).state = .runnable → (T.proc p).blocked = none →
      Move T (.dispatch p fails) (T.set p (T.proc p).dispatched)
  | resumeWait (p : Pid) (fails : List Bool) (addr : Nat) (T' : Table) :
      (T.proc p).state = .runnable → (T.proc p).blocked = some (.wait addr) →
      WaitEffect p addr (T.set p (T.proc p).dispatched.awake) T' → Move T (.dispatch p fails) T'
  | resumePause (p : Pid) (fails : List Bool) (n ticks0 : Nat) (T' : Table) :
      (T.proc p).state = .runnable → (T.proc p).blocked = some (.pause n ticks0) →
      PauseEffect p n ticks0 (T.set p (T.proc p).dispatched.awake) T' →
      Move T (.dispatch p fails) T'
  | timer (p : Pid) (user : Bool) : (T.proc p).state = .running →
      Move T (.timer p user) (T.set p ((T.proc p).timer user))
  | fault (p : Pid) (va : Nat) (fails : List Bool) : Move T (.fault p va fails) T
  | faultKill (p : Pid) (va : Nat) (fails : List Bool) : (T.proc p).state = .running →
      Move T (.fault p va fails) (T.set p { T.proc p with killed := true })
  | store (p : Pid) (va : Nat) (v : UInt8) : Move T (.store p va v) T
  | tick : Move T .tick (T.wake none .ticks)

theorem keeps_setFails : KeepsTable (setFails fails) :=
  .modify fun _ => rfl

theorem keeps_userStore {p : Pid} {va : Nat} {v : UInt8} : KeepsTable (userStore p va v) := by
  refine .bind keeps_pagetableOf fun pt => ?_
  split
  · exact .pure _
  · exact .pure _
  · exact .ite keeps_onMem (.pure _)

theorem keeps_forkretFirst {p : Pid} : KeepsTable (forkretFirst p) :=
  .bind (.modify fun _ => rfl) fun _ => .bind keeps_onFs fun _ => .bind keeps_kexec fun _ =>
    .ite (.stop nofun) keeps_setA0

variable {k k' : State} {T : Table} {p : Pid}

theorem move_dispatch (hT : k.table = T) (hp : (T.proc p).state = .runnable) :
    wp (Event.body (.dispatch p fails)) (fun _ k' => Move T (.dispatch p fails) k'.table)
      NotInitExiting k := by
  simp only [Event.body, wp_bind]
  refine wp_imp (keeps_setFails.to hT) fun _ k1 h1 => ?_
  rw [wp_modify]
  have h2 : (k1.setProc p ((k1.proc p).dispatched k1.ticks)).table =
      T.set p (T.proc p).dispatched := by
    rw [State.table_setProc, ← h1]
    rfl
  have hblocked : ((k1.setProc p ((k1.proc p).dispatched k1.ticks)).proc p).blocked =
      (T.proc p).blocked := by
    rw [State.setProc_proc_same, ← h1]
    rfl
  generalize k1.setProc p ((k1.proc p).dispatched k1.ticks) = k2 at h2 hblocked
  simp only [goOn, wp_bind, wp_gets, id, hblocked]
  split
  · rename_i hnone
    refine wp_imp ((Keeps.when keeps_forkretFirst).to h2) fun _ k3 h3 => ?_
    exact h3 ▸ .dispatch p fails hp hnone
  rename_i b hb
  refine wp_then (wp_updProc_table h2 Core.awake fun _ => rfl) fun _ k3 h3 => ?_
  rw [Table.set_same, Table.set_set] at h3
  cases b with
  | wait addr =>
    refine wp_then (effect_wait h3) fun r k4 h4 => ?_
    refine wp_imp (keeps_setA0.wp k4) fun _ k5 h5 => ?_
    exact h5 ▸ .resumeWait p fails addr _ hp hb h4
  | pause n ticks0 =>
    refine wp_then (effect_pauseLoop h3) fun r k4 h4 => ?_
    refine wp_imp (keeps_setA0.wp k4) fun _ k5 h5 => ?_
    exact h5 ▸ .resumePause p fails n ticks0 _ hp hb h4

theorem move_fault {va : Nat} (hT : k.table = T) (hp : (T.proc p).state = .running) :
    wp (Event.body (.fault p va fails)) (fun _ k' => Move T (.fault p va fails) k'.table)
      NotInitExiting k := by
  simp only [Event.body, pageFault, wp_bind]
  refine wp_imp (keeps_setFails.to hT) fun _ k1 h1 => ?_
  refine wp_imp (keeps_onUser.to h1) fun pa k2 h2 => wp_when.mpr ⟨fun _ => ?_, fun _ => ?_⟩
  · refine wp_imp (wp_updProc_table h2 (fun c => { c with killed := true }) fun _ => rfl)
      fun _ k3 h3 => ?_
    exact h3 ▸ .faultKill p va fails hp
  · exact h2 ▸ .fault p va fails

/-- Why a step can stop: init has exited only if it called `exit`. -/
def ExitStep (T : Table) (e : Event) (x : Stop) : Prop :=
  x = .kern .initExiting →
    ∃ p status fails, e = .call p (.exit status) fails ∧ T.initproc = some p

theorem event_move {e : Event} (hen : e.enabled k) :
    wp e.body (fun _ k' => Move k.table e k'.table) (ExitStep k.table e) k := by
  have other : wp e.body (fun _ k' => Move k.table e k'.table) NotInitExiting k →
      wp e.body (fun _ k' => Move k.table e k'.table) (ExitStep k.table e) k :=
    fun h => wp_mono h (fun _ _ h => h) fun _ he h => absurd h he
  cases e with
  | call p c fails =>
    have hp : (k.table.proc p).state = .running := hen
    simp only [Event.body, wp_bind]
    have quiet : ∀ {x : Stop}, NotInitExiting x → ExitStep k.table (.call p c fails) x :=
      fun he h => absurd h he
    refine wp_mono (keeps_setFails.to rfl) (fun _ k1 h1 => ?_) fun _ => quiet
    refine wp_mono (syscall_effect c h1 (by rw [hp]; decide)) (fun r k2 h2 => ?_) ?_
    · refine wp_mono (keeps_setA0.wp k2) (fun _ k3 h3 => ?_) fun _ => quiet
      exact h3 ▸ .call p c fails _ hp h2
    · intro x hx h
      obtain ⟨⟨status, rfl⟩, hinit⟩ := hx h
      exact ⟨p, status, fails, rfl, hinit⟩
  | dispatch p fails => exact other (move_dispatch rfl hen)
  | timer p user =>
    refine wp_modify.mpr ?_
    rw [State.table_setProc]
    exact .timer p user hen
  | fault p va fails => exact other (move_fault rfl hen)
  | store p va v => exact other (keeps_userStore.andThen rfl fun _ _ h => h ▸ .store p va v)
  | tick =>
    refine other ?_
    simp only [Event.body, wp_bind]
    refine Keeps.andThen (f := State.table) (.modify fun _ => rfl) rfl fun _ k1 h1 => ?_
    exact wp_imp (wp_wakeup h1) fun _ k2 h2 => h2 ▸ .tick

/-- **What a step of the machine does to the process table.** -/
theorem step_move {e : Event} (h : Step k e k') : Move k.table e k'.table :=
  wp_ok (Q := fun _ k' => Move k.table e k'.table) (event_move h.1) h.2

/-- The kernel panics with "init exiting" only if init calls `exit`. -/
theorem stops_initExiting {e : Event} (h : Stops k e (.kern .initExiting)) :
    ∃ p status fails, e = .call p (.exit status) fails ∧ k.initproc = some p :=
  wp_error (event_move h.1) h.2 rfl

/-! ### Every entry -/

/-- What a process's own call does to it, unless it sleeps or exits. -/
inductive Own (c : Core) : Call → Core → Prop
  | dup (arg : Int) (fd : Fin NOFILE) (f : FPtr) : c.ofile fd = none →
      Own c (.dup arg) (c.setFd fd (some f))
  | close (arg : Int) (fd : Fin NOFILE) : Own c (.close arg) (c.setFd fd none)
  | opn (path : Option Fs.Path) (omode : Nat) (fd : Fin NOFILE) (f : FPtr) :
      (countFiles c.ofile : Int) < c.nofileMax → c.ofile fd = none →
      Own c (.opn path omode) (c.setFd fd (some f))
  | pipe (fdarray : Nat) (fd0 fd1 : Fin NOFILE) (f0 f1 : FPtr) : fd0 ≠ fd1 →
      c.ofile fd0 = none → c.ofile fd1 = none →
      Own c (.pipe fdarray) ((c.setFd fd0 (some f0)).setFd fd1 (some f1))
  | chdir (path : Option Fs.Path) (ip : Fs.IPtr) : Own c (.chdir path) { c with cwd := some ip }
  | cpuLimit (n : Int) : n ≠ 0 → n ≤ MAX_CPU_TICKS → c.cpuTicks < u64 n →
      Own c (.setrlimit RLIMIT_CPU n) { c with cpuTicksMax := u64 n }
  | nofileLimit (n : Int) : 0 < n → n ≤ NOFILE → countFiles c.ofile < n →
      Own c (.setrlimit RLIMIT_NOFILE n) { c with nofileMax := n }

/-- What the event `e` can make of entry `q` of the table. -/
inductive Change (T : Table) (e : Event) (q : Pid) : Core → Prop
  /-- nothing, or the parent has exited -/
  | parent (par : Option Pid) : Change T e q { T.proc q with parent := par }
  | wake (par : Option Pid) : (T.proc q).state = .sleeping →
      Change T e q { T.proc q with parent := par, state := .runnable }
  | forkFail (pid : Int) : (T.proc q).state = .unused →
      Change T e q ((T.proc q).started pid).freed
  | born (p : Pid) (pid : Int) : (T.proc q).state = .unused → (T.proc p).state = .running →
      Change T e q (((T.proc q).started pid).child p (T.proc p))
  | exit (par : Option Pid) (status : Int) (fails : List Bool) :
      e = .call q (.exit status) fails → (T.proc q).state = .running →
      Change T e q { (T.proc q).setFiles fun _ => none with
        cwd := none, parent := par, state := .zombie }
  | reaped : (T.proc q).state = .zombie → Change T e q (T.proc q).freed
  | sleep (ch : Chan) (b : Blocked) :
      (∃ c fails, e = .call q c fails) ∧ (T.proc q).state = .running ∨
        (∃ fails, e = .dispatch q fails) ∧ (T.proc q).state = .runnable ∧
          (T.proc q).blocked ≠ none →
      Change T e q ((T.proc q).sleep ch b)
  | dispatch : e.actor = some q → (T.proc q).state = .runnable → (T.proc q).blocked = none →
      Change T e q (T.proc q).dispatched
  | resume : e.actor = some q → (T.proc q).state = .runnable →
      Change T e q (T.proc q).dispatched.awake
  | timer (user : Bool) : e = .timer q user → (T.proc q).state = .running →
      Change T e q ((T.proc q).timer user)
  | fault (va : Nat) (fails : List Bool) : e = .fault q va fails → (T.proc q).state = .running →
      Change T e q { T.proc q with killed := true }
  | kill (p : Pid) (pid : Int) (fails : List Bool) : e = .call p (.kill pid) fails →
      (T.proc q).pid = pid → Change T e q (T.proc q).kill
  | own (c : Call) (fails : List Bool) (c' : Core) : e = .call q c fails →
      (T.proc q).state = .running → Own (T.proc q) c c' → Change T e q c'

variable {e : Event}

theorem Change.same (q : Pid) : Change T e q (T.proc q) := .parent (T.proc q).parent

/-- A change of entry `p`, seen from entry `q`. -/
theorem change_set (h : Change T e p c) (q : Pid) :
    Change T e q ((T.set p c).proc q) := by
  by_cases hq : q = p
  · subst hq
    rw [Table.set_same]
    exact h
  · rw [Table.set_of_ne _ _ hq]
    exact .same q

/-- An entry as `wakeup` and `reparent` may leave it. -/
def Nudged (c c' : Core) : Prop :=
  ∃ par, c' = { c with parent := par } ∨
    c.state = .sleeping ∧ c' = { c with parent := par, state := .runnable }

theorem Nudged.refl (c : Core) : Nudged c c := ⟨c.parent, .inl rfl⟩

theorem Nudged.trans {c' c'' : Core} (h : Nudged c c') (h' : Nudged c' c'') : Nudged c c'' := by
  obtain ⟨par, rfl | ⟨hs, rfl⟩⟩ := h <;> obtain ⟨par', rfl | ⟨hs', rfl⟩⟩ := h'
  · exact ⟨par', .inl rfl⟩
  · exact ⟨par', .inr ⟨hs', rfl⟩⟩
  · exact ⟨par', .inr ⟨hs, rfl⟩⟩
  · simp at hs'

theorem nudged_wake (T : Table) (me : Option Pid) (ch : Chan) (q : Pid) :
    Nudged (T.proc q) ((T.wake me ch).proc q) := by
  simp only [Table.wake]
  split
  · rename_i h
    exact ⟨(T.proc q).parent, .inr ⟨h.2.1, rfl⟩⟩
  · exact .refl _

theorem nudged_wakeProc (T : Table) (me : Pid) (o : Option Pid) (q : Pid) :
    Nudged (T.proc q) ((T.wakeProc me o).proc q) := by
  rcases o with _ | r
  · exact .refl _
  · exact nudged_wake T _ _ q

theorem nudged_reparent (T : Table) (p q : Pid) : Nudged (T.proc q) ((T.reparent p).proc q) := by
  simp only [Table.reparent]
  split
  · refine Nudged.trans ?_ (nudged_wakeProc _ _ _ q)
    dsimp only
    split
    · exact ⟨T.initproc, .inl rfl⟩
    · exact .refl _
  · exact .refl _

/-- What `kexit` of `p` leaves of the others. -/
theorem nudged_exit (T : Table) {p q : Pid} (hq : q ≠ p) :
    Nudged (T.proc q) ((T.exit p).proc q) := by
  simp only [Table.exit]
  rw [Table.set_of_ne _ _ hq]
  refine Nudged.trans ?_ (nudged_wakeProc _ _ _ q)
  refine Nudged.trans ?_ (nudged_reparent _ _ q)
  rw [Table.set_of_ne _ _ hq]
  exact .refl _

/-- What `kexit` leaves of `p` itself. -/
theorem exit_self (T : Table) (p : Pid) (hp : (T.proc p).state = .running) :
    ∃ par, (T.exit p).proc p = { (T.proc p).setFiles fun _ => none with
      cwd := none, parent := par, state := .zombie } := by
  simp only [Table.exit, Table.set_same]
  obtain ⟨par, h | ⟨hs, -⟩⟩ :=
    (nudged_reparent (T.set p { (T.proc p).setFiles fun _ => none with cwd := none }) p p).trans
      (nudged_wakeProc _ p _ p)
  · exact ⟨par, by rw [h, Table.set_same]⟩
  · -- it is running, so nobody wakes it
    simp [Core.setFiles, hp] at hs

theorem change_of_nudged {q : Pid} (h : Nudged (T.proc q) c) : Change T e q c := by
  obtain ⟨par, rfl | ⟨hs, rfl⟩⟩ := h
  · exact .parent par
  · exact .wake par hs

/-- A round of `wait` by a process that has the CPU, `T1` being the table at its
start. -/
theorem change_wait {T1 : Table} {addr : Nat} (hT1 : T1 = T.set p c) (hc : Change T e p c)
    (hrun : c.state = .running) (hsleep : ∀ ch b, Change T e p (c.sleep ch b))
    (h : WaitEffect p addr T1 T') (q : Pid) : Change T e q (T'.proc q) := by
  subst hT1
  cases h with
  | none => exact change_set hc q
  | reap r hz _ =>
    have hr : r ≠ p := by
      rintro rfl
      rw [Table.set_same, hrun] at hz
      exact absurd hz (by decide)
    rw [Table.set_of_ne _ _ hr] at hz ⊢
    by_cases hq : q = r
    · subst hq
      rw [Table.set_same]
      exact .reaped hz
    · rw [Table.set_of_ne _ _ hq]
      exact change_set hc q
  | sleep =>
    rw [Table.set_same, Table.set_set]
    exact change_set (hsleep _ _) q

theorem change_pause {T1 : Table} {n ticks0 : Nat} (hT1 : T1 = T.set p c)
    (hc : Change T e p c) (hsleep : ∀ ch b, Change T e p (c.sleep ch b))
    (h : PauseEffect p n ticks0 T1 T') (q : Pid) : Change T e q (T'.proc q) := by
  subst hT1
  cases h with
  | none => exact change_set hc q
  | sleep =>
    rw [Table.set_same, Table.set_set]
    exact change_set (hsleep _ _) q

theorem change_call {c : Call} (hp : (T.proc p).state = .running) (h : Effect p T c T')
    (q : Pid) : Change T (.call p c fails) q (T'.proc q) := by
  have hown : ∀ {c' : Core}, Own (T.proc p) c c' →
      Change T (.call p c fails) q ((T.set p c').proc q) :=
    fun ho => change_set (.own c fails _ rfl hp ho) q
  have hsleep : ∀ ch b, Change T (.call p c fails) p ((T.proc p).sleep ch b) :=
    fun ch b => .sleep ch b (.inl ⟨⟨c, fails, rfl⟩, hp⟩)
  cases h with
  | none => exact .same q
  | forkFail r pid hr => exact change_set (.forkFail pid hr) q
  | fork r pid hr => exact change_set (.born p pid hr hp) q
  | exit status _ =>
    by_cases hq : q = p
    · subst hq
      obtain ⟨par, h⟩ := exit_self T q hp
      rw [h]
      exact .exit par status fails rfl hp
    · exact change_of_nudged (nudged_exit T hq)
  | wait addr _ h => exact change_wait (Table.set_self T p).symm (.same p) hp hsleep h q
  | pause n ticks0 _ h => exact change_pause (Table.set_self T p).symm (.same p) hsleep h q
  | kill pid r hr => exact change_set (.kill p pid fails rfl hr) q
  | dup arg fd f hfd => exact hown (.dup arg fd f hfd)
  | close arg fd => exact hown (.close arg fd)
  | opn path omode fd f hlt hfd => exact hown (.opn path omode fd f hlt hfd)
  | pipe fdarray fd0 fd1 f0 f1 hne h0 h1 => exact hown (.pipe fdarray fd0 fd1 f0 f1 hne h0 h1)
  | chdir path ip => exact hown (.chdir path ip)
  | cpuLimit n h0 hmax hlt => exact hown (.cpuLimit n h0 hmax hlt)
  | nofileLimit n h0 hmax hlt => exact hown (.nofileLimit n h0 hmax hlt)

/-- **What a step of the machine does to one entry of the process table.** -/
theorem step_change (h : Step k e k') (q : Pid) : Change k.table e q (k'.proc q).core := by
  rw [← State.table_proc]
  have hm := step_move h
  generalize k.table = T at hm
  generalize k'.table = T' at hm
  cases hm with
  | call p c fails _ hp he => exact change_call hp he q
  | dispatch p fails hp hb => exact change_set (.dispatch rfl hp hb) q
  | resumeWait p fails addr _ hp hb he =>
    have hblocked : (T.proc p).blocked ≠ none := by simp [hb]
    exact change_wait rfl (.resume rfl hp) rfl
      (fun ch b => .sleep ch b (.inr ⟨⟨fails, rfl⟩, hp, hblocked⟩)) he q
  | resumePause p fails n ticks0 _ hp hb he =>
    have hblocked : (T.proc p).blocked ≠ none := by simp [hb]
    exact change_pause rfl (.resume rfl hp)
      (fun ch b => .sleep ch b (.inr ⟨⟨fails, rfl⟩, hp, hblocked⟩)) he q
  | timer p user hp => exact change_set (.timer user rfl hp) q
  | fault p va fails | store p va v => exact .same q
  | faultKill p va fails hp => exact change_set (.fault va fails rfl hp) q
  | tick => exact change_of_nudged (nudged_wake T none .ticks q)

/-- What others do to a process that has the CPU or waits for it. -/
theorem Change.passive {q : Pid} (h : Change T e q c) (ha : e.actor ≠ some q)
    (hs : (T.proc q).state = .running ∨ (T.proc q).state = .runnable) :
    c.state = (T.proc q).state ∧ c.cpuTicks = (T.proc q).cpuTicks := by
  cases h with
  | parent par => exact ⟨rfl, rfl⟩
  | wake par hw | forkFail pid hw | born p pid hw hp | reaped hw =>
    rcases hs with hs | hs <;> simp [hs] at hw
  | exit par status fails he hw | timer user he hw | fault va fails he hw
  | own call fails c' he hw ho => exact absurd (he ▸ rfl) ha
  | sleep ch b hw =>
    rcases hw with ⟨⟨_, _, he⟩, -⟩ | ⟨⟨_, he⟩, -⟩ <;> exact absurd (he ▸ rfl) ha
  | dispatch he hw | resume he hw => exact absurd he ha
  | kill p pid fails he hpid => exact ⟨by rcases hs with hs | hs <;> simp [Core.kill, hs], rfl⟩

theorem Table.wakeProc_initproc (T : Table) (me : Pid) (o : Option Pid) :
    (T.wakeProc me o).initproc = T.initproc := by
  rcases o with _ | r <;> rfl

theorem Table.reparent_initproc (T : Table) (p : Pid) : (T.reparent p).initproc = T.initproc := by
  simp only [Table.reparent]
  split
  · rw [Table.wakeProc_initproc]
  · rfl

/-- The first process stays the first process. -/
theorem step_initproc (h : Step k e k') : k'.initproc = k.initproc := by
  rw [← State.table_initproc, ← State.table_initproc k]
  have hm := step_move h
  generalize k.table = T at hm
  generalize k'.table = T' at hm
  have hwait : ∀ {p addr} {T T' : Table}, WaitEffect p addr T T' → T'.initproc = T.initproc := by
    intro p addr T T' h
    cases h <;> rfl
  have hpause : ∀ {p n m} {T T' : Table}, PauseEffect p n m T T' → T'.initproc = T.initproc := by
    intro p n m T T' h
    cases h <;> rfl
  cases hm with
  | call p c fails _ hp he =>
    cases he with
    | exit status _ =>
      simp only [Table.exit, Table.set_initproc, Table.wakeProc_initproc, Table.reparent_initproc]
    | wait addr _ h => exact hwait h
    | pause n ticks0 _ h => exact hpause h
    | _ => rfl
  | resumeWait p fails addr _ hp hb he => exact (hwait he).trans rfl
  | resumePause p fails n ticks0 _ hp hb he => exact (hpause he).trans rfl
  | _ => rfl

end Xv6.Kernel
