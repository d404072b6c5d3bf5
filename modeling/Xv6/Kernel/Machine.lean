import Xv6.Kernel.Exec
import Xv6.Lib.Run

/-!
# xv6 — the kernel as a machine

System calls by any process, the scheduler's choices, page faults, stores by
user code and clock ticks, in any order. Everything the kernel does not decide
is in the event: which process moves, the arguments of its call, what `kalloc`
is refused, what a string in user memory says.

A system call is one step, up to its return or to the point where it puts the
process to sleep; a process that was woken goes on when it is scheduled.
-/

namespace Xv6.Kernel

open TransitionRun

/-- A system call and its arguments. Path arguments are what `argstr` fetches,
`none` if it fails. -/
inductive Call where
  | fork
  | exit (status : Int)
  | wait (addr : Nat)
  | pipe (fdarray : Nat)
  | read (fd : Int) (addr : Nat) (n : Int) (tr : Transfer)
  | kill (pid : Int)
  | exec (path : Option Fs.Path) (uargv : Nat) (str : Nat → Option (List UInt8))
  | fstat (fd : Int) (addr : Nat)
  | chdir (path : Option Fs.Path)
  | dup (fd : Int)
  | getpid
  | sbrk (n t : Int)
  | pause (n : Int)
  | uptime
  | opn (path : Option Fs.Path) (omode : Nat)
  | write (fd : Int) (addr : Nat) (n : Int) (tr : Transfer)
  | mknod (path : Option Fs.Path) (major minor : Int)
  | unlink (path : Option Fs.Path)
  | link (old new : Option Fs.Path)
  | mkdir (path : Option Fs.Path)
  | close (fd : Int)
  | meminfo (addr : Nat)
  | getrlimit (resource : Int) (addr : Nat)
  | setrlimit (resource n : Int)

/-- A call that returns at once. -/
def returns (m : KM Int) : KM (Option Int) := do
  let r ← m
  pure (some r)

/-- The current directory of `p`, for a call of the file system. -/
def withCwd (p : Pid) (m : Option Fs.IPtr → Fs.FsM Int) : KM (Option Int) := do
  let k ← .gets id
  returns (onFs (m (k.proc p).cwd))

/-- `syscall`: the value returned, `none` if the process sleeps or has exited. -/
def syscall (p : Pid) : Call → KM (Option Int)
  | .fork => returns (kfork p)
  | .exit status => do
    kexit p status
    pure none
  | .wait addr => kwait p addr
  | .pipe fdarray => returns (sysPipe p fdarray)
  | .read fd addr n tr => returns (sysRead p fd addr n tr)
  | .kill pid => returns (kkill pid)
  | .exec path uargv str => returns (sysExec p path uargv str)
  | .fstat fd addr => returns (sysFstat p fd addr)
  | .chdir path => returns (sysChdir p path)
  | .dup fd => returns (sysDup p fd)
  | .getpid => returns (.gets fun k => (k.proc p).pid)
  | .sbrk n t => returns (sysSbrk p n t)
  | .pause n => sysPause p n
  | .uptime => returns (.gets fun k => (k.ticks : Int))
  | .opn path omode => returns (sysOpen p path omode)
  | .write fd addr n tr => returns (sysWrite p fd addr n tr)
  | .mknod path major minor => withCwd p fun cwd => Fs.sysMknod cwd path major minor
  | .unlink path => withCwd p fun cwd => Fs.sysUnlink cwd path
  | .link old new => withCwd p fun cwd => Fs.sysLink cwd old new
  | .mkdir path => withCwd p fun cwd => Fs.sysMkdir cwd path
  | .close fd => returns (sysClose p fd)
  | .meminfo addr => returns (sysMeminfo p addr)
  | .getrlimit resource addr => returns (sysGetrlimit p resource addr)
  | .setrlimit resource n => returns (sysSetrlimit p resource n)

/-- Store the value a call returned where user code finds it. -/
def setA0 (p : Pid) : Option Int → KM Unit
  | none => pure ()
  | some r => updProc p fun pr => { pr with tf := { pr.tf with a0 := u64 r } }

/-- What happens next. `fails` are the answers `kalloc` gets. -/
inductive Event where
  /-- a running process makes a system call -/
  | call (p : Pid) (c : Call) (fails : List Bool)
  /-- the scheduler picks a process -/
  | dispatch (p : Pid) (fails : List Bool)
  /-- a timer interrupt while `p` runs, in user mode or in the kernel -/
  | timer (p : Pid) (user : Bool)
  /-- user code of `p` touches a page it has no mapping for -/
  | fault (p : Pid) (va : Nat) (fails : List Bool)
  /-- user code of `p` stores a byte -/
  | store (p : Pid) (va : Nat) (v : UInt8)
  /-- a clock interrupt -/
  | tick

/-- A timer interrupt charges a tick. `usertrap` then looks at the limit;
`kerneltrap` does not. -/
def Proc.charge (pr : Proc) (user : Bool) : Proc :=
  let ticks := u64 (pr.cpuTicks + 1)
  { pr with
    cpuTicks := ticks
    killed := pr.killed || (user && decide (0 < pr.cpuTicksMax ∧ pr.cpuTicksMax ≤ ticks)) }

/-- The scheduler switches to a process. -/
def Proc.dispatched (pr : Proc) (ticks : Nat) : Proc :=
  { pr with state := .running, contextSwitches := toInt (pr.contextSwitches + 1)
            waitTicks := u64 (pr.waitTicks + since ticks pr.waitStart) }

/-- `forkret` of the first process: reclaim orphans and run `/init`. -/
def forkretFirst (p : Pid) : KM Unit := do
  .modify fun k => { k with first := false }
  onFs Fs.ireclaim
  -- "/init"
  let r ← kexec p [47, 105, 110, 105, 116] [[47, 105, 110, 105, 116]]
  if r = -1 then .stop (.kern .exec) else setA0 p (some r)

/-- The next round of the call a process slept in. -/
def resume (p : Pid) : Blocked → KM (Option Int)
  | .wait addr => kwait p addr
  | .pause n ticks0 => pauseLoop p n ticks0

/-- A process goes on where it stopped: in the call it slept in, in `forkret`,
or in user code. -/
def goOn (p : Pid) : KM Unit := do
  let k ← .gets id
  match (k.proc p).blocked with
  | none => Prog.when (k.first = true) (forkretFirst p)
  | some b => do
    updProc p fun pr => { pr with chan := none, blocked := none }
    let r ← resume p b
    setA0 p r

/-- The answers `kalloc` will get. -/
def setFails (fails : List Bool) : KM Unit :=
  .modify fun k => { k with mem := { k.mem with fails := fails } }

/-- `usertrap` for a page fault: a process that touches what it may not is
marked killed. -/
def pageFault (p : Pid) (va : Nat) : KM Unit := do
  let pa ← onUser p none (Vm.vmfault va)
  Prog.when (pa = 0) (updProc p fun pr => { pr with killed := true })

/-- A store by user code to a page it may write. -/
def userStore (p : Pid) (va : Nat) (v : UInt8) : KM Unit := do
  let pt ← pagetableOf p
  match Vm.walkaddr pt (Vm.pgRoundDown va), (Vm.PageTable.slot 2 pt va).join with
  | 0, _ | _, none => pure ()
  | pa, some pte =>
    if pte.perm.w then onMem (.modify fun m =>
      { m with byte := Function.update m.byte (pa + va % Vm.PGSIZE) v })
    else pure ()

/-- Whether the event can happen. -/
def Event.enabled (k : State) : Event → Prop
  | .call p _ _ | .timer p _ | .fault p _ _ | .store p _ _ => (k.proc p).state = .running
  | .dispatch p _ => (k.proc p).state = .runnable
  | .tick => True

instance (k : State) : (e : Event) → Decidable (e.enabled k)
  | .call .. | .timer .. | .fault .. | .store .. | .dispatch .. =>
    inferInstanceAs (Decidable (_ = _))
  | .tick => isTrue trivial

/-- The process that moves. -/
def Event.actor : Event → Option Pid
  | .call p _ _ | .dispatch p _ | .timer p _ | .fault p _ _ | .store p _ _ => some p
  | .tick => none

/-- What the kernel does. -/
def Event.body : Event → KM Unit
  | .call p c fails => do
    setFails fails
    let r ← syscall p c
    setA0 p r
  | .dispatch p fails => do
    setFails fails
    .modify fun k => k.setProc p ((k.proc p).dispatched k.ticks)
    goOn p
  | .timer p user => .modify fun k =>
    -- and `yield`
    k.setProc p { (k.proc p).charge user with state := .runnable, waitStart := k.ticks }
  | .fault p va fails => do
    setFails fails
    pageFault p va
  | .store p va v => userStore p va v
  | .tick => do
    .modify fun k => { k with ticks := u32 (k.ticks + 1) }
    wakeup none .ticks

/-- The kernel takes a step and keeps running. -/
def Step (k : State) (e : Event) (k' : State) : Prop :=
  e.enabled k ∧ e.body k = .ok ((), k')

/-- The kernel stops in a step. -/
def Stops (k : State) (e : Event) (x : Stop) : Prop :=
  e.enabled k ∧ e.body k = .error x

/-- A step as a function, for concrete runs. -/
def stepFn (k : State) (e : Event) : Option State :=
  if e.enabled k then (e.body k).toOption.map Prod.snd else none

theorem step_of_stepFn {k k' : State} {e : Event} (h : stepFn k e = some k') : Step k e k' := by
  unfold stepFn at h
  split at h
  · rename_i he
    obtain ⟨⟨_, _⟩, hx, rfl⟩ := Option.map_eq_some_iff.mp h
    exact ⟨he, Prog.ok_of_toOption hx⟩
  · simp at h

end Xv6.Kernel
