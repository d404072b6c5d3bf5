import Xv6.Kernel.State
import Xv6.Lib.Run
import Xv6.Lib.Threads

/-!
# xv6 — scheduling, lock by lock (`kernel/proc.c`)

The kernel threads of all processes and the schedulers of all CPUs, with the locks
they take. Unlike in `Xv6.Kernel`, a system call is not one step here: threads on
different CPUs interleave between any two of the following.

* Taking or releasing `p->lock`, `wait_lock`, `tickslock` or another spin lock is a
  step; so is `swtch`.
* Straight-line code between these is one step. Where it reads `ticks` twice, which
  no lock of the reader protects, it is two.
* An interrupt can come wherever a thread holds no lock and is not in an interrupt
  handler. That of the timer runs `clockintr` on CPU 0; that of a device takes the lock
  of the device, and wakes up who waits for it.

Code that takes a spin lock `lk` which protects something else, and calls `sleep` or
`wakeup` with it (pipes, sleep locks, the log, the disk, `sys_pause`), is the location
`held lk`, with any order of such calls. Memory, files and what `kexit` and `kfork`
do to them are left out.
-/

namespace Xv6.Sched

open Kernel (Pid ProcState u32 u64)
open TransitionRun Threads
open Function (update)

/-- A CPU. -/
abbrev Cpu := Fin NCPU

/-- What protects a condition, and what is slept on until it holds: the clock, or
something else in the kernel. -/
inductive Cond where
  | ticks
  | other (n : Nat)
  deriving DecidableEq, Repr

/-- What processes sleep on: a parent on itself in `kwait`, or a condition. -/
inductive Chan where
  | proc (p : Pid)
  | cond (x : Cond)
  deriving DecidableEq, Repr

/-- Spin locks: `p->lock`, `wait_lock`, `tickslock` and others. -/
inductive Lock where
  | proc (p : Pid)
  | wait
  | cond (x : Cond)
  deriving DecidableEq, Repr

/-- The fields of `struct proc` that scheduling uses. -/
structure Proc where
  state : ProcState
  chan : Option Chan
  killed : Bool
  xstate : Int
  pid : Int
  parent : Option Pid
  startTime : Nat
  sleepTicks : Nat
  waitTicks : Nat
  waitStart : Nat
  sleepStart : Nat

/-- A slot that was never used. -/
def Proc.zero : Proc :=
  { state := .unused, chan := none, killed := false, xstate := 0, pid := 0, parent := none
    startTime := 0, sleepTicks := 0, waitTicks := 0, waitStart := 0, sleepStart := 0 }

/-- What threads share. -/
structure Data where
  proc : Pid → Proc
  /-- `c->proc` -/
  cproc : Cpu → Option Pid
  ticks : Nat
  nextpid : Int
  initproc : Pid

/-- Change a slot of the process table. -/
def Data.upd (d : Data) (p : Pid) (f : Proc → Proc) : Data :=
  { d with proc := update d.proc p (f (d.proc p)) }

/-- `ticks - start`, a `uint64`. -/
def Data.since (d : Data) (start : Nat) : Nat := u64 ((d.ticks : Int) - start)

/-! ### Where a thread is -/

/-- In `scheduler`. -/
inductive SchedPc where
  | start
  /-- interrupts are on, a round begins -/
  | idle
  /-- `acquire(&p->lock)` is next -/
  | scan (i : Pid)
  | look (i : Pid)
  /-- `swtch(&c->context, &p->context)` is next -/
  | go (i : Pid)
  /-- `swtch` has returned -/
  | back (i : Pid)
  /-- `release(&p->lock)` is next -/
  | drop (i : Pid)

/-- In `wakeup(ch)`. -/
inductive WakePc where
  | scan (i : Nat)
  | test (i : Pid)
  /-- `p->wait_start = ticks` is next -/
  | stamp (i : Pid)
  | release (i : Pid)

/-- In `kkill(pid)`. -/
inductive KillPc where
  | scan (i : Nat)
  | test (i : Pid)
  /-- `p->wait_start = ticks` is next -/
  | stamp (i : Pid)
  /-- `release(&p->lock); return 0` is next -/
  | found (i : Pid)
  | next (i : Pid)

/-- In `kfork`, with `allocproc`; `np` is the child. -/
inductive ForkPc where
  | scan (i : Nat)
  | test (i : Pid)
  | next (i : Pid)
  /-- `p->wait_start = ticks` is next -/
  | stamp (np : Pid)
  /-- pages are allocated, memory is copied -/
  | fill (np : Pid)
  /-- `release(&np->lock); return -1` is next -/
  | fail (np : Pid)
  /-- `acquire(&wait_lock)` is next -/
  | lockWait (np : Pid)
  | parent (np : Pid)
  /-- `release(&wait_lock)` is next -/
  | unlockWait (np : Pid)
  /-- `acquire(&np->lock)` is next -/
  | relock (np : Pid)
  | runnable (np : Pid)
  /-- `release(&np->lock)` is next -/
  | unlock (np : Pid)

/-- In `kexit(status)`. -/
inductive ExitPc where
  /-- `acquire(&wait_lock)` is next -/
  | lockWait
  | reparent (i : Nat)
  /-- `acquire(&p->lock)` is next -/
  | lock
  | zombie
  /-- `release(&wait_lock)` is next -/
  | unlockWait
  | sched
  /-- `sched` never returns -/
  | dead

/-- In `kwait`. -/
inductive WaitPc where
  /-- `acquire(&wait_lock)` is next -/
  | lockWait
  | scan (i : Nat) (havekids : Bool)
  | test (i : Pid)
  | next (i : Pid)
  /-- `release(&pp->lock)` is next, to return -/
  | done (i : Pid)
  /-- `release(&wait_lock); return` is next -/
  | unlockWait
  /-- `killed(p)` is next -/
  | killed
  | killedRead
  | killedRet (k : Bool)

/-- In `sleep(chan, lk)`. -/
inductive SleepPc where
  /-- `acquire(&p->lock)` is next -/
  | lock
  /-- `release(lk)` is next -/
  | drop
  | doze
  | sched
  /-- `sched` has returned -/
  | tidy
  /-- `release(&p->lock)` is next -/
  | unlock
  /-- `acquire(lk)` is next -/
  | relock

/-- In `clockintr`, or in the handler of the device with lock `n`. -/
inductive ClockPc where
  | lock
  | tick
  | unlock
  | devLock (n : Nat)
  | dev (n : Nat)

/-- At the end of a trap, and in `yield`. -/
inductive YieldPc where
  | tail
  | lock
  | runnable
  | sched
  /-- `sched` has returned -/
  | unlock

/-- Where a thread is. `p` is what `myproc()` returned when the function began, `ret`
is where the function returns to. -/
inductive Loc where
  | sched (pc : SchedPc)
  /-- in user code, or in the kernel without a lock -/
  | user
  /-- in the kernel with a lock of its own -/
  | held (x : Cond)
  | wake (ch : Option Chan) (pc : WakePc) (ret : Loc)
  | kill (pid : Int) (pc : KillPc)
  | fork (p : Pid) (pc : ForkPc)
  | exit (p : Pid) (status : Int) (pc : ExitPc)
  | wait (p : Pid) (pc : WaitPc)
  | sleep (p : Pid) (ch : Chan) (lk : Lock) (pc : SleepPc) (ret : Loc)
  /-- the thread of a new process, slot `p` -/
  | forkret (p : Pid)
  | clock (pc : ClockPc) (ret : Loc)
  | yield (p : Pid) (pc : YieldPc) (ret : Loc)

/-- A thread: the scheduler of a CPU, or a process in the kernel. -/
inductive Tid where
  | sched (c : Cpu)
  | proc (p : Pid)
  deriving DecidableEq, Repr

abbrev State := Sys Cpu Tid Lock Loc Data
abbrev Code := Instr Tid Lock Loc Data

/-- What the functions here stop with. -/
inductive Panic where
  /-- "sched p->lock" -/
  | schedLock
  /-- "sched locks" -/
  | schedLocks
  /-- "sched RUNNING" -/
  | schedRunning
  /-- "init exiting" -/
  | initExiting
  /-- "zombie exit" -/
  | zombieExit
  /-- a null pointer is followed -/
  | wild
  deriving DecidableEq, Repr

/-! ### The functions -/

/-- The next turn of `for(p = proc; p < &proc[NPROC]; p++)`. -/
def forProc (i : Nat) (body : Pid → Code) (done : Code) : Code :=
  if h : i < NPROC then body ⟨i, h⟩ else done

/-- `p->state = RUNNABLE; p->sleep_ticks += (ticks - p->sleep_start)`. -/
def Data.wake (d : Data) (i : Pid) : Data := d.upd i fun pr =>
  { pr with state := .runnable, sleepTicks := u64 (pr.sleepTicks + d.since pr.sleepStart) }

/-- `p->wait_start = ticks`. -/
def Data.stamp (d : Data) (i : Pid) : Data := d.upd i fun pr => { pr with waitStart := d.ticks }

/-- `freeproc`. -/
def Data.free (d : Data) (i : Pid) : Data := d.upd i fun pr =>
  { pr with pid := 0, parent := none, chan := none, killed := false, xstate := 0, state := .unused }

/-- `scheduler`. -/
def SchedPc.code (c : Cpu) (d : Data) : SchedPc → Code
  | .start => .run { d with cproc := update d.cproc c none } (.sched .idle)
  | .idle => .run d (.sched (.scan 0))
  | .scan i => .acquire (.proc i) (.sched (.look i))
  | .look i =>
    if (d.proc i).state = .runnable then
      let d' := d.upd i fun pr =>
        { pr with state := .running, waitTicks := u64 (pr.waitTicks + d.since pr.waitStart) }
      .run { d' with cproc := update d.cproc c (some i) } (.sched (.go i))
    else .run d (.sched (.drop i))
  | .go i => .swtch (.proc i) (.sched (.back i))
  | .back i => .run { d with cproc := update d.cproc c none } (.sched (.drop i))
  | .drop i => .release (.proc i)
    (if h : i.val + 1 < NPROC then .sched (.scan ⟨i.val + 1, h⟩) else .sched .idle)

/-- `wakeup(ch)`. -/
def WakePc.code (c : Cpu) (d : Data) (ch : Option Chan) (ret : Loc) : WakePc → Code
  | .scan i => forProc i
    (fun q => if d.cproc c = some q then .run d (.wake ch (.scan (i + 1)) ret)
      else .acquire (.proc q) (.wake ch (.test q) ret))
    (.run d ret)
  | .test i =>
    if (d.proc i).state = .sleeping ∧ (d.proc i).chan = ch then
      .run (d.wake i) (.wake ch (.stamp i) ret)
    else .run d (.wake ch (.release i) ret)
  | .stamp i => .run (d.stamp i) (.wake ch (.release i) ret)
  | .release i => .release (.proc i) (.wake ch (.scan (i.val + 1)) ret)

/-- `kkill(pid)`. -/
def KillPc.code (d : Data) (pid : Int) : KillPc → Code
  | .scan i => forProc i (fun q => .acquire (.proc q) (.kill pid (.test q))) (.run d .user)
  | .test i =>
    if (d.proc i).pid = pid then
      let d' := d.upd i fun pr => { pr with killed := true }
      if (d.proc i).state = .sleeping then .run (d'.wake i) (.kill pid (.stamp i))
      else .run d' (.kill pid (.found i))
    else .run d (.kill pid (.next i))
  | .stamp i => .run (d.stamp i) (.kill pid (.found i))
  | .found i => .release (.proc i) .user
  | .next i => .release (.proc i) (.kill pid (.scan (i.val + 1)))

/-- `kfork` by `p`; `ok` is whether memory is found for the child. `allocpid` is one
step with the rest of `allocproc`: nothing else uses `nextpid`. -/
def ForkPc.code (d : Data) (p : Pid) (ok : Bool) : ForkPc → Code
  | .scan i => forProc i (fun q => .acquire (.proc q) (.fork p (.test q))) (.run d .user)
  | .test i =>
    if (d.proc i).state = .unused then
      let d' := d.upd i fun pr =>
        { pr with pid := d.nextpid, state := .used, startTime := d.ticks, sleepTicks := 0
                  waitTicks := 0, sleepStart := 0 }
      .spawn { d' with nextpid := Kernel.toInt (d.nextpid + 1) } (.proc i) (.forkret i)
        (.fork p (.stamp i))
    else .run d (.fork p (.next i))
  | .next i => .release (.proc i) (.fork p (.scan (i.val + 1)))
  | .stamp np => .run (d.stamp np) (.fork p (.fill np))
  | .fill np =>
    if ok then .release (.proc np) (.fork p (.lockWait np))
    else .run (d.free np) (.fork p (.fail np))
  | .fail np => .release (.proc np) .user
  | .lockWait np => .acquire .wait (.fork p (.parent np))
  | .parent np => .run (d.upd np fun pr => { pr with parent := some p }) (.fork p (.unlockWait np))
  | .unlockWait np => .release .wait (.fork p (.relock np))
  | .relock np => .acquire (.proc np) (.fork p (.runnable np))
  | .runnable np => .run (d.upd np fun pr => { pr with state := .runnable, waitStart := d.ticks })
      (.fork p (.unlock np))
  | .unlock np => .release (.proc np) .user

/-- `sched`: the thread of `myproc()` waits at `next`. -/
def schedCode (s : State) (c : Cpu) (next : Loc) : Except Panic Code :=
  match s.data.cproc c with
  | none => .error .wild
  | some p =>
    if s.owner (.proc p) ≠ some c then .error .schedLock
    else if s.noff c ≠ 1 then .error .schedLocks
    else if (s.data.proc p).state = .running then .error .schedRunning
    else .ok (.swtch (.sched c) next)

/-- `kexit(status)` of `p`, from where it gives up its children. -/
def ExitPc.code (s : State) (c : Cpu) (p : Pid) (status : Int) : ExitPc → Except Panic Code
  | .lockWait => .ok (.acquire .wait (.exit p status (.reparent 0)))
  | .reparent i => .ok <| forProc i
    (fun q => if (s.data.proc q).parent = some p then
        .run (s.data.upd q fun pr => { pr with parent := some s.data.initproc })
          (.wake (some (.proc s.data.initproc)) (.scan 0) (.exit p status (.reparent (i + 1))))
      else .run s.data (.exit p status (.reparent (i + 1))))
    (.run s.data (.wake ((s.data.proc p).parent.map .proc) (.scan 0) (.exit p status .lock)))
  | .lock => .ok (.acquire (.proc p) (.exit p status .zombie))
  | .zombie => .ok (.run (s.data.upd p fun pr => { pr with xstate := status, state := .zombie })
      (.exit p status .unlockWait))
  | .unlockWait => .ok (.release .wait (.exit p status .sched))
  | .sched => schedCode s c (.exit p status .dead)
  | .dead => .error .zombieExit

/-- `kwait` by `p`; `ok` is whether the status can be copied out. -/
def WaitPc.code (d : Data) (p : Pid) (ok : Bool) : WaitPc → Code
  | .lockWait => .acquire .wait (.wait p (.scan 0 false))
  | .scan i havekids => forProc i
    (fun q => if (d.proc q).parent = some p then .acquire (.proc q) (.wait p (.test q))
      else .run d (.wait p (.scan (i + 1) havekids)))
    (if havekids then .run d (.wait p .killed) else .run d (.wait p .unlockWait))
  | .test i =>
    if (d.proc i).state = .zombie then
      if ok then .run (d.free i) (.wait p (.done i)) else .run d (.wait p (.done i))
    else .run d (.wait p (.next i))
  | .next i => .release (.proc i) (.wait p (.scan (i.val + 1) true))
  | .done i => .release (.proc i) (.wait p .unlockWait)
  | .unlockWait => .release .wait .user
  | .killed => .acquire (.proc p) (.wait p .killedRead)
  | .killedRead => .run d (.wait p (.killedRet (d.proc p).killed))
  | .killedRet k => .release (.proc p)
    (if k then .wait p .unlockWait
      else .sleep p (.proc p) .wait .lock (.wait p (.scan 0 false)))

/-- `sleep(ch, lk)` by `p`. -/
def SleepPc.code (s : State) (c : Cpu) (p : Pid) (ch : Chan) (lk : Lock) (ret : Loc) :
    SleepPc → Except Panic Code
  | .lock => .ok (.acquire (.proc p) (.sleep p ch lk .drop ret))
  | .drop => .ok (.release lk (.sleep p ch lk .doze ret))
  | .doze => .ok (.run (s.data.upd p fun pr =>
      { pr with chan := some ch, state := .sleeping, sleepStart := s.data.ticks })
      (.sleep p ch lk .sched ret))
  | .sched => schedCode s c (.sleep p ch lk .tidy ret)
  | .tidy => .ok (.run (s.data.upd p fun pr => { pr with chan := none })
      (.sleep p ch lk .unlock ret))
  | .unlock => .ok (.release (.proc p) (.sleep p ch lk .relock ret))
  | .relock => .ok (.acquire lk ret)

/-- `clockintr`, and the locks of `virtio_disk_intr`, `uartintr` and `consoleintr`. -/
def ClockPc.code (d : Data) (ret : Loc) : ClockPc → Code
  | .lock => .acquire (.cond .ticks) (.clock .tick ret)
  | .tick => .run { d with ticks := u32 (d.ticks + 1) }
      (.wake (some (.cond .ticks)) (.scan 0) (.clock .unlock ret))
  | .unlock => .release (.cond .ticks) ret
  | .devLock n => .acquire (.cond (.other n)) (.clock (.dev n) ret)
  | .dev n => .release (.cond (.other n)) ret

/-- `yield` by `p`. -/
def YieldPc.code (s : State) (c : Cpu) (p : Pid) (ret : Loc) : YieldPc → Except Panic Code
  | .tail => .ok (.run s.data (.yield p .lock ret))
  | .lock => .ok (.acquire (.proc p) (.yield p .runnable ret))
  | .runnable => .ok (.run (s.data.upd p fun pr =>
      { pr with state := .runnable, waitStart := s.data.ticks }) (.yield p .sched ret))
  | .sched => schedCode s c (.yield p .unlock ret)
  | .unlock => .ok (.release (.proc p) ret)

/-! ### Steps -/

/-- What the thread that is executed does: the next statement, in which an allocation
or a copy may fail; a system call; a call with or for a lock of its own; or an
interrupt comes. -/
inductive Act where
  | next (ok : Bool)
  | trap (dev : Option Nat)
  | fork
  | exit (status : Int)
  | wait
  | kill (pid : Int)
  | lock (x : Cond)
  | wakeup (x : Cond)
  | sleep (x : Cond)
  | unlock

/-- Interrupts are on: no lock is held, and no interrupt is being handled. -/
def Loc.intr : Loc → Bool
  | .sched .idle | .user => true
  | .kill _ (.scan _) => true
  | .fork _ (.scan _) | .fork _ (.lockWait _) | .fork _ (.relock _) => true
  | .exit _ _ .lockWait | .wait _ .lockWait => true
  | .sleep _ _ _ .relock _ => true
  | _ => false

/-- An interrupt of a device; or of the timer: `clockintr` on CPU 0, and `yield` if a
process was running. -/
def trapped (dev : Option Nat) (c : Cpu) (d : Data) (l : Loc) : Loc :=
  match dev with
  | some n => .clock (.devLock n) l
  | none =>
    let ret := match d.cproc c with
      | none => l
      | some p => .yield p .tail l
    if c = 0 then .clock .lock ret else ret

/-- `kexit` of `p` is called. -/
def exitCode (d : Data) (p : Pid) (status : Int) : Except Panic Code :=
  if p = d.initproc then .error .initExiting else .ok (.run d (.exit p status .lockWait))

/-- A process that runs calls a function. -/
def withProc (c : Cpu) (d : Data) (f : Pid → Except Panic Code) : Option (Except Panic Code) :=
  some (match d.cproc c with
    | none => .error .wild
    | some p => f p)

/-- What CPU `c` does if its thread is at `l` and does `a`; `none` if that is not
possible there. -/
def code (s : State) (c : Cpu) : Loc → Act → Option (Except Panic Code)
  | l, .trap dev => if l.intr then some (.ok (.run s.data (trapped dev c s.data l))) else none
  | .user, .fork => withProc c s.data fun p => .ok (.run s.data (.fork p (.scan 0)))
  | .user, .exit status => withProc c s.data fun p => exitCode s.data p status
  | .user, .wait => withProc c s.data fun p => .ok (.run s.data (.wait p .lockWait))
  | .user, .kill pid => some (.ok (.run s.data (.kill pid (.scan 0))))
  | .user, .lock x => some (.ok (.acquire (.cond x) (.held x)))
  | .held x, .wakeup y => some (.ok (.run s.data (.wake (some (.cond y)) (.scan 0) (.held x))))
  | .held x, .sleep y => withProc c s.data fun p =>
    .ok (.run s.data (.sleep p (.cond y) (.cond x) .lock (.held x)))
  | .clock (.dev n) ret, .wakeup y =>
    some (.ok (.run s.data (.wake (some (.cond y)) (.scan 0) (.clock (.dev n) ret))))
  | .held x, .unlock => some (.ok (.release (.cond x) .user))
  -- a killed process does not return to user code
  | .yield p .tail .user, .exit status => some (exitCode s.data p status)
  | .sched pc, .next _ => some (.ok (pc.code c s.data))
  | .wake ch pc ret, .next _ => some (.ok (pc.code c s.data ch ret))
  | .kill pid pc, .next _ => some (.ok (pc.code s.data pid))
  | .fork p pc, .next ok => some (.ok (pc.code s.data p ok))
  | .exit p status pc, .next _ => some (pc.code s c p status)
  | .wait p pc, .next ok => some (.ok (pc.code s.data p ok))
  | .sleep p ch lk pc ret, .next _ => some (pc.code s c p ch lk ret)
  | .forkret _, .next _ => withProc c s.data fun p => .ok (.release (.proc p) .user)
  | .clock pc ret, .next _ => some (.ok (pc.code s.data ret))
  | .yield p pc ret, .next _ => some (pc.code s c p ret)
  | _, _ => none

/-- A CPU moves. -/
structure Event where
  cpu : Cpu
  act : Act

/-- What the event makes a CPU do. -/
def codeOf (s : State) (e : Event) : Option (Except Panic Code) :=
  code s e.cpu (s.loc (s.cur e.cpu)) e.act

/-- A step; `none` if it is not possible or must wait for a lock. -/
def stepFn (s : State) (e : Event) : Option State :=
  match codeOf s e with
  | some (.ok i) => s.exec e.cpu i
  | _ => none

/-- The system takes a step. -/
def Step (s : State) (e : Event) (s' : State) : Prop := stepFn s e = some s'

/-- The system stops in a step. -/
def Panics (s : State) (e : Event) (x : Panic) : Prop := codeOf s e = some (.error x)

/-- The state `main` leaves: `userinit` has made the first process, and every CPU is
about to enter `scheduler`. -/
def boot : State :=
  { owner := fun _ => none
    noff := fun _ => 0
    cur := fun c => .sched c
    loc := fun t => match t with
      | .sched _ => .sched .start
      | .proc p => .forkret p
    data :=
      { proc := update (fun _ => Proc.zero) 0
          { Proc.zero with state := .runnable, pid := 1 }
        cproc := fun _ => none
        ticks := 0
        nextpid := 2
        initproc := 0 } }

theorem step_iff {s s' : State} {e : Event} :
    Step s e s' ↔ ∃ i, codeOf s e = some (.ok i) ∧ s.exec e.cpu i = some s' := by
  unfold Step stepFn
  split
  · rename_i i hi
    simp [hi]
  · rename_i hno
    simp only [reduceCtorEq, false_iff, not_exists, not_and]
    exact fun i hi => absurd hi (hno i)

theorem code_inj {i j : Code} (h : some (.ok i : Except Panic Code) = some (.ok j)) : i = j :=
  Except.ok.inj (Option.some.inj h)

end Xv6.Sched
