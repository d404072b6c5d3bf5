import Mathlib.Logic.Function.Basic
import Xv6.Lib.Run
import Xv6.Param

/-!
# xv6 — pipes (`kernel/pipe.c`), with `sleep` and `wakeup`

A step machine for one pipe: any number of processes run `pipewrite`,
`piperead` and `pipeclose`, and the steps of different processes interleave
freely. One step is what a process does between two points where another one
can get in its way:

* the pipe lock is taken and released in steps of their own;
* `sleep` (`kernel/proc.c`) takes the process's own lock, drops the pipe lock,
  goes to sleep and, once woken, takes the pipe lock again, one step each;
* `wakeup` visits the process table one slot at a time and waits for the lock
  of each slot;
* each turn of the copy loops is a step, and the copy may fail.

`kill` may strike any process between any two steps. What `copyin` delivers,
whether `copyout` succeeds and who moves next is chosen by the event.
-/

namespace Xv6.Pipes

open TransitionRun

/-- Size of the buffer of a pipe. -/
def PIPESIZE : Nat := 512

/-- A slot of the process table. -/
abbrev Pid := Fin NPROC

/-- The two channels processes sleep on: `&pi->nread` and `&pi->nwrite`. -/
inductive Chan where
  | nread
  | nwrite
  deriving DecidableEq, Repr

/-- `struct pipe`, the lock naming its holder. -/
structure Pipe where
  lock : Option Pid
  data : Nat → UInt8
  nread : UInt32
  nwrite : UInt32
  readopen : Bool
  writeopen : Bool

/-- `nread == nwrite`. -/
def Pipe.empty (pi : Pipe) : Prop := pi.nread = pi.nwrite

/-- `nwrite == nread + PIPESIZE`, in 32-bit arithmetic. -/
def Pipe.full (pi : Pipe) : Prop := pi.nwrite = pi.nread + UInt32.ofNat PIPESIZE

instance (pi : Pipe) : Decidable pi.empty := inferInstanceAs (Decidable (_ = _))
instance (pi : Pipe) : Decidable pi.full := inferInstanceAs (Decidable (_ = _))

/-- `pi->data[pi->nwrite++ % PIPESIZE] = ch`. -/
def Pipe.store (pi : Pipe) (ch : UInt8) : Pipe :=
  { pi with data := Function.update pi.data (pi.nwrite.toNat % PIPESIZE) ch
            nwrite := pi.nwrite + 1 }

/-! ### Where a process is -/

/-- Where a process is inside `sleep`. -/
inductive SleepPc where
  /-- `acquire(&p->lock)` is next -/
  | lockSelf
  /-- `release(lk)` is next -/
  | unlock
  /-- `p->chan = chan; p->state = SLEEPING; sched()` is next -/
  | doze
  /-- inside `sched` -/
  | asleep
  /-- `p->chan = 0; release(&p->lock)` is next -/
  | tidy
  /-- `acquire(lk)` is next -/
  | relock
  deriving DecidableEq, Repr

/-- What a call of `sleep` returns to: the loop head of `pipewrite` with `i`
bytes of `n` written, or that of `piperead`. -/
inductive Resume where
  | write (n : Int) (i : Nat)
  | read (n : Int)
  deriving DecidableEq, Repr

/-- What a call of `wakeup` returns to. -/
inductive After where
  /-- `pipewrite`, pipe full: `sleep(&pi->nwrite, &pi->lock)` -/
  | full (n : Int) (i : Nat)
  /-- the end of `pipewrite` or `piperead`: release the lock, return `r` -/
  | ret (r : Int)
  /-- the end of `pipeclose` -/
  | closed
  deriving DecidableEq, Repr

/-- Where a process is. -/
inductive Pc where
  | idle
  /-- `pipewrite`: `acquire`, the head of the loop, the store -/
  | writeLock (n : Int)
  | writeHead (n : Int) (i : Nat)
  | writeCopy (n : Int) (i : Nat)
  /-- `piperead`: `acquire`, the head of the waiting loop, the copy loop -/
  | readLock (n : Int)
  | readHead (n : Int)
  | readCopy (n : Int) (i : Nat)
  /-- `pipeclose`: `acquire`, the assignment -/
  | closeLock (writable : Bool)
  | close (writable : Bool)
  /-- `sleep(c, &pi->lock)` -/
  | sleep (c : Chan) (pt : SleepPc) (k : Resume)
  /-- `wakeup(c)` about to visit slot `i` -/
  | wakeup (c : Chan) (i : Nat) (k : After)
  deriving DecidableEq, Repr

/-- The states of a process that matter here; `running` is any of RUNNING and
RUNNABLE in which the process goes on when it is scheduled. -/
inductive ProcState where
  | sleeping
  | runnable
  | running
  deriving DecidableEq, Repr

/-- What the machine keeps of a process. -/
structure Proc where
  pc : Pc
  state : ProcState
  chan : Option Chan
  killed : Bool
  /-- `p->lock` is held by the process itself between two of its steps -/
  locked : Bool
  /-- return value of the last finished call -/
  ret : Int
  /-- the bytes `copyout` has stored for the process so far -/
  got : List UInt8

/-- The pipe and the processes. -/
structure State where
  pi : Pipe
  proc : Pid → Proc
  /-- the pipe's page has been freed -/
  freed : Bool

/-- Replace process `p`. -/
def State.set (s : State) (p : Pid) (pr : Proc) : State :=
  { s with proc := Function.update s.proc p pr }

/-- Process `p` goes on at `pc`. -/
def State.goto (s : State) (p : Pid) (pc : Pc) : State :=
  s.set p { s.proc p with pc := pc }

/-- `release(&pi->lock); return r`. -/
def State.finish (s : State) (p : Pid) (r : Int) : State :=
  { s.set p { s.proc p with pc := .idle, ret := r } with pi := { s.pi with lock := none } }

/-- `acquire(&pi->lock)`: possible once the lock is free. -/
def State.acquire (s : State) (p : Pid) (pc : Pc) : Option State :=
  if s.pi.lock = none ∧ s.freed = false then
    some { s.goto p pc with pi := { s.pi with lock := some p } }
  else none

/-! ### The steps -/

/-- What the user memory of the process answers in this step. -/
structure Input where
  /-- the byte `copyin` fetches, `none` when it fails -/
  copyin : Option UInt8
  /-- whether `copyout` succeeds -/
  copyout : Bool

/-- One step of `sleep(c, &pi->lock)`. A process that is `asleep` does not move
by itself. -/
def sleepStep (s : State) (p : Pid) (c : Chan) (k : Resume) : SleepPc → Option State
  | .lockSelf => some (s.set p { s.proc p with pc := .sleep c .unlock k, locked := true })
  | .unlock => some { s.goto p (.sleep c .doze k) with pi := { s.pi with lock := none } }
  | .doze =>
    some (s.set p { s.proc p with pc := .sleep c .asleep k, chan := some c
                                  state := .sleeping, locked := false })
  | .asleep => none
  | .tidy =>
    some (s.set p { s.proc p with pc := .sleep c .relock k, chan := none, locked := false })
  | .relock =>
    match k with
    | .write n i => s.acquire p (.writeHead n i)
    | .read n => s.acquire p (.readHead n)

/-- One turn of the loop of `wakeup(c)`, or its return. -/
def wakeupStep (s : State) (p : Pid) (c : Chan) (i : Nat) (k : After) : Option State :=
  if h : i < NPROC then
    let q : Pid := ⟨i, h⟩
    if q = p then some (s.goto p (.wakeup c (i + 1) k))
    -- acquire(&q->lock) waits for its holder
    else if (s.proc q).locked then none
    else if (s.proc q).state = .sleeping ∧ (s.proc q).chan = some c then
      some ((s.set q { s.proc q with state := .runnable }).goto p (.wakeup c (i + 1) k))
    else some (s.goto p (.wakeup c (i + 1) k))
  else
    match k with
    | .full n i => some (s.goto p (.sleep .nwrite .lockSelf (.write n i)))
    | .ret r => some (s.finish p r)
    | .closed =>
      if s.pi.readopen = false ∧ s.pi.writeopen = false then
        some { s.finish p 0 with freed := true }
      else some (s.finish p 0)

/-- `pipewrite` at the head of its loop. -/
def writeHead (s : State) (p : Pid) (n : Int) (i : Nat) : State :=
  if (i : Int) < n then
    if s.pi.readopen = false ∨ (s.proc p).killed then s.finish p (-1)
    else if s.pi.full then s.goto p (.wakeup .nread 0 (.full n i))
    else s.goto p (.writeCopy n i)
  else s.goto p (.wakeup .nread 0 (.ret i))

/-- `pipewrite` fetching and storing a byte; a failed `copyin` leaves the loop. -/
def writeCopy (s : State) (p : Pid) (n : Int) (i : Nat) : Option UInt8 → State
  | none => s.goto p (.wakeup .nread 0 (.ret i))
  | some ch => { s.goto p (.writeHead n (i + 1)) with pi := s.pi.store ch }

/-- `piperead` at the head of its waiting loop. -/
def readHead (s : State) (p : Pid) (n : Int) : State :=
  if s.pi.empty ∧ s.pi.writeopen then
    if (s.proc p).killed then s.finish p (-1)
    else s.goto p (.sleep .nread .lockSelf (.read n))
  else s.goto p (.readCopy n 0)

/-- One turn of the copy loop of `piperead`. -/
def readCopy (s : State) (p : Pid) (n : Int) (i : Nat) (copyout : Bool) : State :=
  if (i : Int) < n ∧ ¬ s.pi.empty then
    if copyout then
      let ch := s.pi.data (s.pi.nread.toNat % PIPESIZE)
      { s.set p { s.proc p with pc := .readCopy n (i + 1), got := (s.proc p).got ++ [ch] } with
        pi := { s.pi with nread := s.pi.nread + 1 } }
    else s.goto p (.wakeup .nwrite 0 (.ret (if i = 0 then -1 else i)))
  else s.goto p (.wakeup .nwrite 0 (.ret i))

/-- `pipeclose` closing one end. -/
def close (s : State) (p : Pid) (writable : Bool) : State :=
  if writable then
    { s.goto p (.wakeup .nread 0 .closed) with pi := { s.pi with writeopen := false } }
  else
    { s.goto p (.wakeup .nwrite 0 .closed) with pi := { s.pi with readopen := false } }

/-- The next step of process `p`. -/
def run (s : State) (p : Pid) (inp : Input) : Option State :=
  match (s.proc p).pc with
  | .idle => none
  | .writeLock n => s.acquire p (.writeHead n 0)
  | .writeHead n i => some (writeHead s p n i)
  | .writeCopy n i => some (writeCopy s p n i inp.copyin)
  | .readLock n => s.acquire p (.readHead n)
  | .readHead n => some (readHead s p n)
  | .readCopy n i => some (readCopy s p n i inp.copyout)
  | .closeLock w => s.acquire p (.close w)
  | .close w => some (close s p w)
  | .sleep c pt k => sleepStep s p c k pt
  | .wakeup c i k => wakeupStep s p c i k

/-- The calls a process can make. -/
inductive Call where
  | write (n : Int)
  | read (n : Int)
  | close (writable : Bool)
  deriving DecidableEq, Repr

/-- Where a call starts. -/
def Call.entry : Call → Pc
  | .write n => .writeLock n
  | .read n => .readLock n
  | .close w => .closeLock w

/-- `kkill` finds process `p`: it waits for `p->lock`, marks the process and
takes it out of its sleep. -/
def kkill (s : State) (p : Pid) : Option State :=
  if (s.proc p).locked then none
  else
    let st := if (s.proc p).state = .sleeping then .runnable else (s.proc p).state
    some (s.set p { s.proc p with killed := true, state := st })

/-- The scheduler picks a process that has been woken; the process is then in
`sched`, holding its own lock. -/
def schedule (s : State) (p : Pid) : Option State :=
  match (s.proc p).pc with
  | .sleep c .asleep k =>
    if (s.proc p).state = .runnable then
      some (s.set p { s.proc p with pc := .sleep c .tidy k, state := .running, locked := true })
    else none
  | _ => none

/-- What happens next. -/
inductive Event where
  | call (p : Pid) (c : Call)
  | run (p : Pid) (inp : Input)
  | schedule (p : Pid)
  | kill (p : Pid)

/-- The machine. -/
def step (s : State) : Event → Option State
  | .call p c => if (s.proc p).pc = .idle then some (s.goto p c.entry) else none
  | .run p inp => run s p inp
  | .schedule p => schedule s p
  | .kill p => kkill s p

/-- The step relation. -/
def Step (s : State) (e : Event) (t : State) : Prop := step s e = some t

/-- A process that uses no pipe. -/
def idleProc : Proc :=
  { pc := .idle, state := .running, chan := none, killed := false, locked := false, ret := 0
    got := [] }

/-- The pipe as `pipealloc` leaves it, its page holding arbitrary bytes. -/
def pipealloc (junk : Nat → UInt8) : State :=
  { pi := { lock := none, data := junk, nread := 0, nwrite := 0, readopen := true
            writeopen := true }
    proc := fun _ => idleProc
    freed := false }

end Xv6.Pipes
