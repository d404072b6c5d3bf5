import Xv6.Fs.Calls
import Xv6.Vm.Model

/-!
# xv6 — the kernel's state

The process table, the file table, the ends of pipes, the file system and
physical memory, and programs over them. A system call runs from its entry to
its return, or to the point where it puts the process to sleep, as one program;
where it calls into the file system or the memory system, it runs a program of
`Xv6.Fs` or `Xv6.Vm` on that part of the state, so that everything else stays
as it was.

Integers are mathematical; where C converts one or lets it wrap, the width is
written out (`toInt`, `u32`, `u64`).
-/

namespace Xv6.Kernel

/-- The value of an integer converted to `int`. -/
def toInt (x : Int) : Int := (x + 2 ^ 31) % 2 ^ 32 - 2 ^ 31
/-- The value of an integer converted to `uint`. -/
def u32 (x : Int) : Nat := (x % 2 ^ 32).toNat
/-- The value of an integer converted to `uint64`. -/
def u64 (x : Int) : Nat := (x % 2 ^ 64).toNat

/-- A slot of the process table. -/
abbrev Pid := Fin NPROC
/-- A slot of the file table. -/
abbrev FPtr := Fin NFILE

/-- `enum procstate`. -/
inductive ProcState where
  | unused
  | used
  | sleeping
  | runnable
  | running
  | zombie
  deriving DecidableEq, Repr

/-- What processes of this model sleep on: a parent on itself in `wait`, and
the clock in `pause`. -/
inductive Chan where
  | proc (p : Pid)
  | ticks
  deriving DecidableEq, Repr

/-- The system call in which a process sleeps, with the values it needs to go
on. -/
inductive Blocked where
  | wait (addr : Nat)
  | pause (n : Nat) (ticks0 : Nat)
  deriving DecidableEq, Repr

/-- The registers of the trap frame that the kernel sets. -/
structure Trapframe where
  epc : Nat
  sp : Nat
  a0 : Nat
  a1 : Nat
  deriving DecidableEq, Repr

/-- `struct proc`. -/
structure Proc where
  state : ProcState
  chan : Option Chan
  killed : Bool
  xstate : Int
  pid : Int
  nofileCur : Int
  nofileMax : Int
  parent : Option Pid
  sz : Nat
  pagetable : Option Vm.Pagetable
  /-- the page of the trap frame, 0 if there is none -/
  trapframe : Nat
  /-- what the page holds -/
  tf : Trapframe
  ofile : Fin NOFILE → Option FPtr
  cwd : Option Fs.IPtr
  name : List UInt8
  cpuTicks : Nat
  cpuTicksMax : Nat
  startTime : Nat
  sleepTicks : Nat
  waitTicks : Nat
  waitStart : Nat
  sleepStart : Nat
  contextSwitches : Int
  /-- where the process is asleep -/
  blocked : Option Blocked

/-- A slot that was never used. -/
def Proc.zero : Proc :=
  { state := .unused, chan := none, killed := false, xstate := 0, pid := 0, nofileCur := 0
    nofileMax := 0, parent := none, sz := 0, pagetable := none, trapframe := 0
    tf := ⟨0, 0, 0, 0⟩, ofile := fun _ => none, cwd := none, name := [], cpuTicks := 0
    cpuTicksMax := 0, startTime := 0, sleepTicks := 0, waitTicks := 0, waitStart := 0
    sleepStart := 0, contextSwitches := 0, blocked := none }

/-- `file->type`. -/
inductive FType where
  | none
  | pipe
  | inode
  | device
  deriving DecidableEq, Repr

/-- `struct file`; `pipe` is the address of the pipe's page. -/
structure File where
  type : FType
  ref : Int
  readable : Bool
  writable : Bool
  pipe : Nat
  ip : Option Fs.IPtr
  off : Nat
  major : Int

/-- An entry of the file table that was never used. -/
def File.zero : File :=
  { type := .none, ref := 0, readable := false, writable := false, pipe := 0, ip := none
    off := 0, major := 0 }

/-- The open ends of a pipe. -/
structure PipeEnds where
  readopen : Bool
  writeopen : Bool
  deriving DecidableEq, Repr

/-- The kernel. -/
structure State where
  proc : Pid → Proc
  nextpid : Int
  initproc : Option Pid
  /-- `ticks`, a `uint` -/
  ticks : Nat
  /-- `forkret` has not run yet -/
  first : Bool
  file : FPtr → File
  /-- the pipe in a page, by the page's address -/
  pipe : Nat → PipeEnds
  fs : Fs.State
  mem : Vm.Mem

/-- What kernel code outside the file and memory systems panics with. -/
inductive Panic where
  | filedup
  | fileclose
  | fileread
  | filewrite
  | initExiting
  | loadseg
  | exec
  deriving DecidableEq, Repr

/-- Why the kernel stops. -/
inductive Stop where
  | kern (e : Panic)
  | fs (e : Fs.Panic)
  | vm (e : Vm.Panic)
  deriving DecidableEq, Repr

/-- Programs over the kernel's state. -/
abbrev KM := Prog Stop State

section Parts

variable {α : Type}

/-- Run a program of the file system. -/
def onFs (m : Fs.FsM α) : KM α := m.zoom ⟨State.fs, fun k fs => { k with fs := fs }⟩ .fs

/-- Run a program of the memory system. -/
def onMem (m : Vm.MemM α) : KM α := m.zoom ⟨State.mem, fun k mem => { k with mem := mem }⟩ .vm

/-- Run a program that copies between the file system and physical memory. -/
def onFsMem (m : Fs.IoM Vm.Panic Vm.Mem α) : KM α :=
  m.zoom ⟨fun k => (k.fs, k.mem), fun k s => { k with fs := s.1, mem := s.2 }⟩
    (Sum.elim .fs .vm)

/-- Replace process `p`. -/
def State.setProc (k : State) (p : Pid) (pr : Proc) : State :=
  { k with proc := Function.update k.proc p pr }

/-- Change process `p`. -/
def updProc (p : Pid) (f : Proc → Proc) : KM Unit :=
  .modify fun k => k.setProc p (f (k.proc p))

/-- Change an entry of the file table. -/
def updFile (f : FPtr) (g : File → File) : KM Unit :=
  .modify fun k => { k with file := Function.update k.file f (g (k.file f)) }

/-- The user memory of process `p`, with the page table `pt`. -/
def State.user (k : State) (p : Pid) (pt : Vm.Pagetable) (other : Option Vm.Pagetable) : Vm.User :=
  { mem := k.mem, pt := pt, sz := (k.proc p).sz, other := other }

/-- The state after user memory has changed. -/
def State.putUser (k : State) (p : Pid) (u : Vm.User) : State :=
  { k.setProc p { k.proc p with pagetable := some u.pt } with mem := u.mem }

/-- Run a program over the user memory of `p`; `other` is the page table it is
given if that is not `p->pagetable`. -/
def onUser (p : Pid) (other : Option Vm.Pagetable) (m : Vm.UserM α) : KM α := do
  let k ← .gets id
  match (k.proc p).pagetable with
  | none => .stop (.vm .wild)
  | some pt =>
    m.zoom ⟨fun k => k.user p pt other, fun k u => k.putUser p u⟩ .vm

/-- Run a program that copies between the file system and the user memory of
`p`. -/
def onIo (p : Pid) (m : Fs.IoM Vm.Panic Vm.User α) : KM α := do
  let k ← .gets id
  match (k.proc p).pagetable with
  | none => .stop (.vm .wild)
  | some pt =>
    m.zoom ⟨fun k => (k.fs, k.user p pt none), fun k s => { k.putUser p s.2 with fs := s.1 }⟩
      (Sum.elim .fs .vm)

end Parts

/-- `copyout` to the running process. -/
def copyout (p : Pid) (dstva : Nat) (src : List UInt8) : KM Bool :=
  onUser p none (Vm.copyout dstva src)

/-- `copyin` from the running process. -/
def copyin (p : Pid) (srcva len : Nat) : KM (List UInt8 × Bool) :=
  onUser p none (Vm.copyin srcva len)

end Xv6.Kernel
