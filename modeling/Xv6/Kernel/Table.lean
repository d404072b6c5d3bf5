import Xv6.Kernel.Machine

/-!
# xv6 — the process table

Every invariant of the process table is about the same few fields, and most of
the kernel does not touch them.

* `Core`, `Table` — the fields of a process other than its memory, its name
  and its times, and the table of them.
* `keeps_…`       — the programs that leave the table alone.
* `Core.freed`, `Core.started`, …, `Table.exit` — what the others do to it; that
  they do is shown in `Xv6.Kernel.Effect`.
-/

namespace Xv6.Kernel

open Prog

variable {p : Pid} {k : State} {f : FPtr} {pt : Vm.Pagetable} {addr sz va : Nat} {fd n : Int}
  {tr : Transfer} {ip : Fs.IPtr}

/-! ### The table -/

/-- A process without its memory, name and times. -/
structure Core where
  state : ProcState
  chan : Option Chan
  killed : Bool
  pid : Int
  parent : Option Pid
  nofileCur : Int
  nofileMax : Int
  ofile : Fin NOFILE → Option FPtr
  cwd : Option Fs.IPtr
  cpuTicks : Nat
  cpuTicksMax : Nat
  blocked : Option Blocked
  /-- the process has a page table -/
  hasTable : Bool

/-- The core of a process. -/
def Proc.core (pr : Proc) : Core :=
  { state := pr.state, chan := pr.chan, killed := pr.killed, pid := pr.pid, parent := pr.parent
    nofileCur := pr.nofileCur, nofileMax := pr.nofileMax, ofile := pr.ofile, cwd := pr.cwd
    cpuTicks := pr.cpuTicks, cpuTicksMax := pr.cpuTicksMax, blocked := pr.blocked
    hasTable := pr.pagetable.isSome }

/-- The process table and the first process. -/
structure Table where
  proc : Pid → Core
  initproc : Option Pid

/-- The process table of a state. -/
def State.table (k : State) : Table := { proc := fun q => (k.proc q).core, initproc := k.initproc }

/-- Replace an entry. -/
def Table.set (T : Table) (p : Pid) (c : Core) : Table :=
  { T with proc := Function.update T.proc p c }

@[simp] theorem Table.set_same (T : Table) (p : Pid) (c : Core) : (T.set p c).proc p = c := by
  simp [Table.set]

theorem Table.set_of_ne (T : Table) {q : Pid} (c : Core) (h : q ≠ p) :
    (T.set p c).proc q = T.proc q := by
  simp [Table.set, h]

@[simp] theorem Table.set_initproc (T : Table) (p : Pid) (c : Core) :
    (T.set p c).initproc = T.initproc := rfl

@[simp] theorem Table.set_set (T : Table) (p : Pid) (c c' : Core) :
    (T.set p c).set p c' = T.set p c' := by
  simp [Table.set]

@[simp] theorem Table.set_self (T : Table) (p : Pid) : T.set p (T.proc p) = T := by simp [Table.set]

@[simp] theorem State.table_proc (k : State) (p : Pid) : k.table.proc p = (k.proc p).core := rfl

@[simp] theorem State.table_initproc (k : State) : k.table.initproc = k.initproc := rfl

@[simp] theorem State.table_setProc (k : State) (p : Pid) (pr : Proc) :
    (k.setProc p pr).table = k.table.set p pr.core := by
  simp only [State.table, State.setProc, Table.set, Table.mk.injEq, and_true]
  funext q
  by_cases hq : q = p
  · subst hq
    simp
  · simp [hq]

@[simp] theorem wp_updProc {f : Proc → Proc} {Q : Unit → State → Prop} {E : Stop → Prop} :
    wp (updProc p f) Q E k ↔ Q () (k.setProc p (f (k.proc p))) := wp_modify

@[simp] theorem State.setProc_proc_same (k : State) (p : Pid) (pr : Proc) :
    (k.setProc p pr).proc p = pr := by
  simp [State.setProc]

theorem State.setProc_proc_of_ne (k : State) {q : Pid} (pr : Proc) (h : q ≠ p) :
    (k.setProc p pr).proc q = k.proc q := by
  simp [State.setProc, h]

/-! ### Functions that work on files and memory -/

section Frames

variable {γ : Type} {E : Stop → Prop} {view : State → γ}

/-- What memory holds, of the kernel and of process `p`, does not show in `view`. -/
structure MemFrame (E : Stop → Prop) (view : State → γ) (p : Pid) : Prop where
  onMem {α : Type} {m : Vm.MemM α} : Keeps E view (onMem m)
  onUser {α : Type} {other : Option Vm.Pagetable} {m : Vm.UserM α} :
    Keeps E view (onUser p other m)

/-- Neither do the file system and the offsets of open files; and the kernel may stop
for any reason but the exit of init. -/
structure FileFrame (E : Stop → Prop) (view : State → γ) (p : Pid) : Prop
    extends MemFrame E view p where
  onFs {α : Type} {m : Fs.FsM α} : Keeps E view (onFs m)
  onFsMem {α : Type} {m : Fs.IoM Vm.Panic Vm.Mem α} : Keeps E view (onFsMem m)
  onIo {α : Type} {m : Fs.IoM Vm.Panic Vm.User α} : Keeps E view (onIo p m)
  setOff {f : FPtr} {g : File → Nat} : Keeps E view (updFile f fun x => { x with off := g x })
  kern {e : Panic} : e ≠ .initExiting → E (.kern e)

theorem MemFrame.pushArgs (h : MemFrame E view p) {base sp : Nat} {args : List (List UInt8)}
    {ustack : List Nat} : Keeps E view (pushArgs p pt base args sp ustack) := by
  induction args generalizing sp ustack with
  | nil => exact .pure _
  | cons arg args ih =>
    exact .ite (.pure _) <| .ite (.pure _) <| .bind h.onUser fun _ => .ite ih (.pure _)

theorem MemFrame.makeStack (h : MemFrame E view p) {argv : List (List UInt8)} :
    Keeps E view (makeStack p pt sz argv) := by
  refine .bind h.onMem ?_
  rintro ⟨pt', sz1⟩
  refine .ite (.pure _) (.bind h.onMem fun pt => .bind h.pushArgs fun r => ?_)
  rcases r with _ | ⟨sp, ustack⟩
  · exact .pure _
  · exact .ite (.pure _) <| .bind h.onUser fun _ => .ite (.pure _) (.pure _)

theorem MemFrame.fetchArgs (h : MemFrame E view p) {uargv : Nat} {str : Nat → Option (List UInt8)}
    {n i : Nat} {pages : List Nat} {args : List (List UInt8)} :
    Keeps E view (fetchArgs p uargv str n i pages args) := by
  induction n generalizing i pages args with
  | zero => exact .pure _
  | succ n ih =>
    refine .bind (.bind (.gets _) fun _ => .ite (.pure _) ?_) fun r => ?_
    · exact .bind h.onUser fun _ => .pure _
    rcases r with _ | _ | a
    · exact .pure _
    · exact .pure _
    · refine .bind h.onMem fun page => .ite (.pure _) ?_
      split
      · exact .pure _
      · exact ih

variable (h : FileFrame E view p)
include h

theorem FileFrame.filestat : Keeps E view (filestat p f addr) := by
  refine .bind (.gets _) fun k => .ite ?_ (.pure _)
  exact .bind h.onFs fun _ => .bind h.onUser fun _ => .ite (.pure _) (.pure _)

theorem FileFrame.fileread : Keeps E view (fileread p f addr n tr) := by
  refine .bind (.gets _) fun k => .ite (.pure _) ?_
  split
  · exact .bind h.onUser fun _ => .pure _
  · exact .ite (.pure _) (.bind h.onUser fun _ => .pure _)
  · exact .bind h.onFs fun _ => .bind h.onFs fun _ => .bind h.onIo fun _ =>
      .bind (.when h.setOff) fun _ => .bind h.onFs fun _ => .pure _
  · exact .stop (h.kern nofun)

theorem FileFrame.writeChunk {i n1 : Int} : Keeps E view (writeChunk p f ip addr i n1) :=
  .bind h.onFs fun _ => .bind h.onFs fun _ => .bind (.gets _) fun _ => .bind h.onIo fun _ =>
    .bind (.when h.setOff) fun _ => .bind h.onFs fun _ => .bind h.onFs fun _ => .pure _

theorem FileFrame.writeChunks {fuel : Nat} {i : Int} :
    Keeps E view (writeChunks p f ip addr n fuel i) := by
  induction fuel generalizing i with
  | zero => exact .pure _
  | succ fuel ih => exact .ite (.bind h.writeChunk fun _ => .ite (.pure _) ih) (.pure _)

theorem FileFrame.filewrite : Keeps E view (filewrite p f addr n tr) := by
  refine .bind (.gets _) fun k => .ite (.pure _) ?_
  split
  · exact .bind h.onUser fun _ => .pure _
  · exact .ite (.pure _) (.bind h.onUser fun _ => .pure _)
  · exact .bind h.onFs fun _ => .bind h.writeChunks fun _ => .pure _
  · exact .stop (h.kern nofun)

omit h in
/-- A call on a descriptor, which does nothing if the descriptor is not open. -/
theorem keeps_withFd {m : FPtr → KM Int} (hm : ∀ f, Keeps E view (m f)) :
    Keeps E view (argfd p fd >>= fun r => match r with
      | none => pure (-1)
      | some (_, f) => m f) := by
  refine .bind (.gets _) ?_
  rintro (_ | ⟨_, f⟩)
  · exact .pure _
  · exact hm f

theorem FileFrame.loadLoop {offset k i : Nat} : Keeps E view (loadLoop pt va ip offset sz k i) := by
  induction k generalizing i with
  | zero => exact .pure _
  | succ k ih =>
    exact .ite (.stop (h.kern nofun)) (.bind h.onFsMem fun _ => .ite (.pure _) ih)

theorem FileFrame.loadSegments {k off : Nat} : Keeps E view (loadSegments ip k off pt sz) := by
  induction k generalizing off pt sz with
  | zero => exact .pure _
  | succ k ih =>
    refine .bind h.onFs ?_
    rintro ⟨r, bs⟩
    refine .ite (.pure _) <| .ite ih <| .ite (.pure _) <| .ite (.pure _) <| .ite (.pure _) ?_
    refine .bind h.onMem ?_
    rintro ⟨pt', sz1⟩
    refine .ite (.pure _) (.bind ?_ fun _ => .ite ih (.pure _))
    exact h.loadLoop

theorem FileFrame.loadImage : Keeps E view (loadImage p ip) := by
  refine .bind h.onFs ?_
  rintro ⟨r, bs⟩
  refine .ite (.pure _) <| .ite (.pure _) <| .bind (.gets _) fun k => .bind h.onMem fun r => ?_
  rcases r with _ | pt
  · exact .pure _
  · exact .bind h.loadSegments fun _ => .pure _

/-- `kexec`, given what putting the new image in place does. -/
theorem FileFrame.kexec {path : Fs.Path} {argv : List (List UInt8)}
    (hcommit : ∀ {pt sz entry sp}, Keeps E view (commitImage p path pt sz entry sp)) :
    Keeps E view (kexec p path argv) := by
  refine .bind h.onFs fun _ => .bind (.gets _) fun k => .bind h.onFs fun r => ?_
  rcases r with _ | ip
  · exact .bind h.onFs fun _ => .pure _
  refine .bind h.onFs fun _ => .bind h.loadImage ?_
  rintro ⟨elf, _ | ⟨pt, sz, _ | _⟩⟩
  · exact .bind h.onFs fun _ => .pure _
  · exact .bind h.onMem fun _ => .bind h.onFs fun _ => .pure _
  · refine .bind h.onFs fun _ => .bind h.makeStack ?_
    rintro ⟨pt', sz', _ | sp⟩
    · exact .bind h.onMem fun _ => .pure _
    · exact .bind hcommit fun _ => .pure _

theorem FileFrame.sysExec {path : Option Fs.Path} {uargv : Nat} {str : Nat → Option (List UInt8)}
    (hcommit : ∀ {path pt sz entry sp}, Keeps E view (commitImage p path pt sz entry sp)) :
    Keeps E view (sysExec p path uargv str) := by
  rcases path with _ | path
  · exact .pure _
  refine .bind h.fetchArgs ?_
  rintro ⟨pages, _ | args⟩
  · exact .bind (.each (fun _ => h.onMem) _) fun _ => .pure _
  · exact .bind (h.kexec hcommit) fun _ => .bind (.each (fun _ => h.onMem) _) fun _ => .pure _

end Frames

/-! ### Programs that leave the table alone -/

/-- The kernel stops for another reason than the exit of init; only `kexit`
stops for that one. -/
abbrev NotInitExiting (e : Stop) : Prop := e ≠ .kern .initExiting

/-- The program leaves the process table alone. -/
abbrev KeepsTable {α : Type} (m : KM α) : Prop := Keeps NotInitExiting State.table m

section Keeps

variable {α : Type}

theorem keeps_onFs {m : Fs.FsM α} : KeepsTable (onFs m) := .zoom (fun _ => nofun) fun _ _ => rfl

theorem keeps_onMem {m : Vm.MemM α} : KeepsTable (onMem m) := .zoom (fun _ => nofun) fun _ _ => rfl

theorem keeps_onFsMem {m : Fs.IoM Vm.Panic Vm.Mem α} : KeepsTable (onFsMem m) :=
  .zoom (fun e => by cases e <;> nofun) fun _ _ => rfl

theorem keeps_updFile {g : File → File} : KeepsTable (updFile f g) :=
  .modify fun _ => rfl

/-- A change that the core of a process does not show. -/
theorem keeps_updProc {f : Proc → Proc} (h : ∀ pr, (f pr).core = pr.core) :
    KeepsTable (updProc p f) := by
  refine .modify fun k => ?_
  rw [State.table_setProc, h, ← State.table_proc, Table.set_self]

/-- A process that has a page table keeps having one while its memory changes. -/
theorem table_putUser (h : (k.proc p).pagetable = some pt) (u : Vm.User) :
    (k.putUser p u).table = k.table := by
  have hcore : ({ k.proc p with pagetable := some u.pt } : Proc).core = (k.proc p).core := by
    simp [Proc.core, h]
  change (k.setProc p _).table = k.table
  rw [State.table_setProc, hcore, ← State.table_proc, Table.set_self]

theorem keeps_onUser {other : Option Vm.Pagetable} {m : Vm.UserM α} :
    KeepsTable (onUser p other m) := by
  refine ⟨fun k => ?_⟩
  simp only [onUser, wp_bind, wp_gets]
  split
  · exact wp_stop.mpr (by rintro ⟨⟩)
  · rename_i pt hpt
    rw [wp_zoom]
    exact wp_mono (wp_true m _) (fun _ u _ => table_putUser hpt u) (by rintro _ _ ⟨⟩)

theorem keeps_onIo {m : Fs.IoM Vm.Panic Vm.User α} : KeepsTable (onIo p m) := by
  refine ⟨fun k => ?_⟩
  simp only [onIo, wp_bind, wp_gets]
  split
  · exact wp_stop.mpr (by rintro ⟨⟩)
  · rename_i pt hpt
    rw [wp_zoom]
    refine wp_mono (wp_true m _) (fun _ su _ => ?_) fun e _ => by cases e <;> rintro ⟨⟩
    exact table_putUser hpt su.2

theorem keeps_copyout {bs : List UInt8} : KeepsTable (copyout p va bs) :=
  keeps_onUser

end Keeps

theorem tableFrame : FileFrame NotInitExiting State.table p where
  onMem := keeps_onMem
  onUser := keeps_onUser
  onFs := keeps_onFs
  onFsMem := keeps_onFsMem
  onIo := keeps_onIo
  setOff := keeps_updFile
  kern he := fun heq => he (Stop.kern.inj heq)

/-- A descriptor argument is looked up without changing anything. -/
theorem keeps_argfd : KeepsTable (argfd p fd) := .gets _

theorem keeps_filealloc : KeepsTable filealloc := by
  refine .bind (.gets _) fun k => ?_
  split
  · exact .pure _
  · exact .bind keeps_updFile fun _ => .pure _

theorem keeps_filedup : KeepsTable (filedup f) :=
  .bind (.gets _) fun _ => .ite (.stop nofun) keeps_updFile

theorem keeps_pipeclose {page : Nat} {w : Bool} : KeepsTable (pipeclose page w) :=
  .bind (.modify fun _ => rfl) fun _ =>
    .bind (.gets _) fun _ => .when keeps_onMem

theorem keeps_fileRelease {x : File} : KeepsTable (fileRelease x) := by
  unfold fileRelease
  split
  · exact keeps_pipeclose
  · exact keeps_onFs
  · exact keeps_onFs
  · exact .pure _

theorem keeps_fileclose : KeepsTable (fileclose f) :=
  .bind (.gets _) fun _ => .ite (.stop nofun) <| .ite keeps_updFile <|
    .bind keeps_updFile fun _ => keeps_fileRelease

theorem keeps_pipealloc : KeepsTable pipealloc := by
  refine .bind keeps_filealloc fun r => ?_
  rcases r with _ | f0
  · exact .pure _
  refine .bind keeps_filealloc fun r => ?_
  rcases r with _ | f1
  · exact .bind keeps_fileclose fun _ => .pure _
  refine .bind keeps_onMem fun page => .ite ?_ ?_
  · exact .bind keeps_fileclose fun _ => .bind keeps_fileclose fun _ => .pure _
  · exact .bind (.modify fun _ => rfl) fun _ => .bind keeps_updFile fun _ =>
      .bind keeps_updFile fun _ => .pure _

theorem keeps_openFail : KeepsTable (openFail ip) :=
  .bind keeps_onFs fun _ => .pure _

theorem keeps_openInstall {omode : Nat} : KeepsTable (openInstall f ip omode) :=
  .bind keeps_onFs fun _ => .bind keeps_updFile fun _ => .bind keeps_updFile fun _ => keeps_onFs

theorem keeps_pipeFail {rf wf : FPtr} : KeepsTable (pipeFail rf wf) :=
  .bind keeps_fileclose fun _ => .bind keeps_fileclose fun _ => .pure _

theorem keeps_pagetableOf : KeepsTable (pagetableOf p) := by
  refine .bind (.gets _) fun k => ?_
  split
  · exact .stop nofun
  · exact .pure _

theorem keeps_commitImage {path : Fs.Path} {entry sp : Nat} :
    KeepsTable (commitImage p path pt sz entry sp) := by
  refine ⟨fun k => ?_⟩
  simp only [commitImage, wp_bind, wp_gets, id, wp_updProc]
  split
  · exact wp_stop.mpr (by rintro ⟨⟩)
  · rename_i opt hopt
    refine wp_imp (keeps_onMem.wp _) ?_
    intro _ k' hk'
    rw [hk', State.table_setProc]
    have hcore : ∀ pr : Proc, pr.core = (k.proc p).core → k.table.set p pr.core = k.table := by
      intro pr hpr
      rw [hpr, ← State.table_proc, Table.set_self]
    exact hcore _ (by simp [Proc.core, hopt])

theorem keeps_kexec {path : Fs.Path} {argv : List (List UInt8)} : KeepsTable (kexec p path argv) :=
  tableFrame.kexec keeps_commitImage

theorem core_eq_of_table {k' : State} (h : k'.table = k.table) (p : Pid) :
    (k'.proc p).core = (k.proc p).core := by
  rw [← State.table_proc, h, State.table_proc]

/-- A process that has a page table may get another one, and another size. -/
theorem table_setMemory {k' : State} {pt' : Vm.Pagetable} (hk : (k.proc p).pagetable = some pt)
    (h : k'.table = k.table) :
    (k'.setProc p { k'.proc p with pagetable := some pt', sz := sz }).table = k.table := by
  have hcore := core_eq_of_table h p
  have hsome : (k'.proc p).pagetable.isSome = true := by
    have := congrArg Core.hasTable hcore
    simpa [Proc.core, hk] using this
  have hsame : ({ k'.proc p with pagetable := some pt', sz := sz } : Proc).core =
      (k'.proc p).core := by
    simp [Proc.core, hsome]
  rw [State.table_setProc, hsame, hcore, h, ← State.table_proc, Table.set_self]

theorem keeps_growproc : KeepsTable (growproc p n) := by
  refine ⟨fun k => ?_⟩
  simp only [growproc, pagetableOf, wp_bind, wp_gets, wp_ite, wp_pure]
  refine ⟨fun _ => ⟨fun _ => trivial, fun _ => ?_⟩, fun _ => ⟨fun _ => ?_, fun _ => trivial⟩⟩
  all_goals
    split
    · exact wp_stop.mpr (by rintro ⟨⟩)
    rename_i pt hpt
    simp only [wp_pure]
    refine wp_imp (keeps_onMem.wp k) ?_
  · rintro ⟨pt', sz'⟩ k' hk'
    simp only [wp_updProc, State.setProc_proc_same, State.table_setProc, Table.set_set]
    simp only [← State.table_setProc]
    exact ⟨fun _ => table_setMemory hpt hk', fun _ => table_setMemory hpt hk'⟩
  · intro pt' k' hk'
    rw [wp_updProc]
    exact table_setMemory hpt hk'

theorem keeps_sysSbrk {t : Int} : KeepsTable (sysSbrk p n t) := by
  refine .bind (.gets _) fun k => .ite ?_ <| .ite (.pure _) <| .ite (.pure _) ?_
  · exact .bind keeps_growproc fun _ => .ite (.pure _) (.pure _)
  · exact .bind (keeps_updProc fun _ => rfl) fun _ => .pure _

theorem keeps_meminfo : KeepsTable meminfo :=
  .bind keeps_onMem fun _ => .bind keeps_onMem fun _ => .pure _

theorem keeps_sysMeminfo : KeepsTable (sysMeminfo p addr) :=
  .bind keeps_meminfo fun _ => .bind keeps_copyout fun _ => .ite (.pure _) (.pure _)

theorem keeps_sysGetrlimit {resource : Int} : KeepsTable (sysGetrlimit p resource addr) := by
  refine .bind (.gets _) fun k => ?_
  dsimp only
  split
  · exact .pure _
  · exact .bind keeps_copyout fun _ => .ite (.pure _) (.pure _)

theorem keeps_setA0 {r : Option Int} : KeepsTable (setA0 p r) := by
  unfold setA0
  split
  · exact .pure _
  · exact keeps_updProc fun _ => rfl

/-! ### Changes of the table -/

/-- A core after `freeproc`. -/
def Core.freed (c : Core) : Core :=
  { c with pid := 0, parent := none, chan := none, killed := false, state := .unused
           hasTable := false }

/-- A core after `allocproc` has taken the slot and found the memory for it. -/
def Core.started (c : Core) (pid : Int) : Core :=
  { c with pid := pid, state := .used, cpuTicks := 0, cpuTicksMax := 100, nofileCur := NOFILE
           nofileMax := NOFILE, hasTable := true }

/-- The descriptors of a child: those of the parent over what the slot had. -/
def inheritFiles (parent slot : Fin NOFILE → Option FPtr) (fd : Fin NOFILE) : Option FPtr :=
  (parent fd).or (slot fd)

/-- A core that `kkill` found. -/
def Core.kill (c : Core) : Core :=
  { c with killed := true, state := if c.state = .sleeping then .runnable else c.state }

/-- A core that goes to sleep. -/
def Core.sleep (c : Core) (ch : Chan) (b : Blocked) : Core :=
  { c with chan := some ch, state := .sleeping, blocked := some b }

/-- A core that the scheduler picks. -/
def Core.dispatched (c : Core) : Core := { c with state := .running }

/-- A core that was running when a timer interrupt came. -/
def Core.timer (c : Core) (user : Bool) : Core :=
  let ticks := u64 (c.cpuTicks + 1)
  { c with
    cpuTicks := ticks, state := .runnable
    killed := c.killed || (user && decide (0 < c.cpuTicksMax ∧ c.cpuTicksMax ≤ ticks)) }

/-- A core that goes on after `sleep`. -/
def Core.awake (c : Core) : Core := { c with chan := none, blocked := none }

/-- A core with one descriptor changed. -/
def Core.setFd (c : Core) (fd : Fin NOFILE) (f : Option FPtr) : Core :=
  { c with ofile := Function.update c.ofile fd f }

/-- A core with other descriptors. -/
def Core.setFiles (c : Core) (ofile : Fin NOFILE → Option FPtr) : Core := { c with ofile := ofile }

@[simp] theorem Core.setFiles_self (c : Core) : c.setFiles c.ofile = c := rfl

/-- A started core with the limits of its parent. -/
def Core.inherit (c parent : Core) : Core :=
  { c with nofileMax := parent.nofileMax, cpuTicksMax := parent.cpuTicksMax, cpuTicks := 0 }

/-- A started core after `kfork` has made it the child of `p`. -/
def Core.child (c : Core) (p : Pid) (parent : Core) : Core :=
  { (c.inherit parent).setFiles (inheritFiles parent.ofile c.ofile) with
    state := .runnable, cwd := parent.cwd, parent := some p }

/-- `wakeup(ch)` by `me`. -/
def Table.wake (T : Table) (me : Option Pid) (ch : Chan) : Table :=
  { T with proc := fun q =>
      if some q ≠ me ∧ (T.proc q).state = .sleeping ∧ (T.proc q).chan = some ch then
        { T.proc q with state := .runnable }
      else T.proc q }

/-- `wakeup` of a process that may be null. -/
def Table.wakeProc (T : Table) (me : Pid) : Option Pid → Table
  | none => T
  | some q => T.wake (some me) (.proc q)

/-- `reparent(p)`. -/
def Table.reparent (T : Table) (p : Pid) : Table :=
  if (List.finRange NPROC).any fun q => (T.proc q).parent = some p then
    Table.wakeProc { T with proc := fun q =>
      if (T.proc q).parent = some p then { T.proc q with parent := T.initproc } else T.proc q }
      p T.initproc
  else T

/-- `kexit` of `p`. -/
def Table.exit (T : Table) (p : Pid) : Table :=
  let T1 := (T.set p { (T.proc p).setFiles fun _ => none with cwd := none }).reparent p
  let T2 := T1.wakeProc p (T1.proc p).parent
  T2.set p { T2.proc p with state := .zombie }

end Xv6.Kernel
