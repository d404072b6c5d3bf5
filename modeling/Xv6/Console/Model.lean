import Mathlib.Logic.Function.Basic
import Xv6.Lib.Run
import Xv6.Param

/-!
# xv6 — console input (`kernel/console.c`)

A step machine for `consoleintr` and `consoleread`: input bytes arrive at any time
and any number of processes read. `cons.lock` is held by the handler for all it does
and by a reader from one sleep to the next, so the handler is one step and a reader
makes one step for each turn of its loop:

* taking the lock, at the start and after a sleep, is a step of its own;
* going to sleep releases the lock in the same step (`sleep` holds the process's own
  lock meanwhile, so no wakeup comes in between);
* `kill` may strike any process between any two steps.

Whether `either_copyout` succeeds is chosen by the event. The echo of input on the
screen and the listing of processes by control-P are left out.
-/

namespace Xv6.Console

open TransitionRun

/-- Size of the input buffer. -/
def INPUT_BUF_SIZE : Nat := 128

/-- `C(x)`: the byte control-`x` sends. -/
def C (x : Char) : UInt8 := UInt8.ofNat x.toNat - UInt8.ofNat '@'.toNat

/-- The byte of the delete key. -/
def DEL : UInt8 := 0x7f

/-- `'\n'`. -/
def NEWLINE : UInt8 := 10

/-- `'\r'`. -/
def RETURN : UInt8 := 13

/-- A slot of the process table. -/
abbrev Pid := Fin NPROC

/-- The input buffer with its lock, naming its holder. -/
structure Cons where
  lock : Option Pid
  buf : Nat → UInt8
  /-- read index -/
  r : BitVec 32
  /-- write index -/
  w : BitVec 32
  /-- edit index -/
  e : BitVec 32

/-! ### `consoleintr` -/

/-- `cons.buf[cons.e++ % INPUT_BUF_SIZE] = c`. -/
def Cons.store (k : Cons) (c : UInt8) : Cons :=
  { k with buf := Function.update k.buf (k.e.toNat % INPUT_BUF_SIZE) c, e := k.e + 1 }

/-- The loop of control-U, which takes at most `e - w` turns. -/
def killLine : Nat → Cons → Cons
  | 0, k => k
  | turns + 1, k =>
    if k.e ≠ k.w ∧ k.buf ((k.e - 1).toNat % INPUT_BUF_SIZE) ≠ NEWLINE then
      killLine turns { k with e := k.e - 1 }
    else k

/-- An accepted byte is stored; one that ends the line commits it and wakes readers. -/
def append (k : Cons) (c : UInt8) : Cons × Bool :=
  let k := k.store c
  if c = NEWLINE ∨ c = C 'D' ∨ (k.e - k.r).toNat = INPUT_BUF_SIZE then
    ({ k with w := k.e }, true)
  else (k, false)

/-- `consoleintr`: the console after the byte `c`, and whether readers are woken. -/
def consoleintr (k : Cons) (c : UInt8) : Cons × Bool :=
  if c = C 'P' then (k, false)
  else if c = C 'U' then (killLine (k.e - k.w).toNat k, false)
  else if c = C 'H' ∨ c = DEL then
    (if k.e ≠ k.w then { k with e := k.e - 1 } else k, false)
  else if c ≠ 0 ∧ (k.e - k.r).toNat < INPUT_BUF_SIZE then
    append k (if c = RETURN then NEWLINE else c)
  else (k, false)

/-! ### `consoleread` -/

/-- Where a process is in `consoleread`; `n` counts down from `target`. -/
inductive Pc where
  | idle
  /-- about to take the lock for the first time -/
  | enter (n : Int32)
  /-- at the head of the loop, with the lock -/
  | loop (target : UInt32) (n : Int32)
  | asleep (target : UInt32) (n : Int32)
  /-- woken, about to take the lock again -/
  | woken (target : UInt32) (n : Int32)
  deriving DecidableEq

/-- A process, with the bytes its current call has put at `dst`. -/
structure Proc where
  pc : Pc
  killed : Bool
  dst : List UInt8
  deriving DecidableEq

structure State where
  cons : Cons
  proc : Pid → Proc

/-- What readers get to see. -/
inductive Out where
  /-- a byte is copied to the buffer of `p` -/
  | byte (p : Pid) (b : UInt8)
  /-- the call of `p` returns `v`, with `bs` in its buffer -/
  | ret (p : Pid) (v : Int32) (bs : List UInt8)
  deriving DecidableEq

def State.set (s : State) (p : Pid) (pr : Proc) : State :=
  { s with proc := Function.update s.proc p pr }

def State.goto (s : State) (p : Pid) (pc : Pc) : State := s.set p { s.proc p with pc := pc }

/-- `acquire(&cons.lock)`. -/
def State.acquire (s : State) (p : Pid) (pc : Pc) : Option (State × List Out) :=
  if s.cons.lock = none then
    some ({ s.goto p pc with cons := { s.cons with lock := some p } }, [])
  else none

/-- Release the lock and return `v`. -/
def State.finish (s : State) (p : Pid) (v : Int32) : State × List Out :=
  ({ s.set p { s.proc p with pc := .idle, dst := [] } with cons := { s.cons with lock := none } },
    [.ret p v (s.proc p).dst])

/-- `sleep(&cons.r, &cons.lock)`. -/
def State.sleep (s : State) (p : Pid) (target : UInt32) (n : Int32) : State :=
  { s.goto p (.asleep target n) with cons := { s.cons with lock := none } }

/-- `wakeup(&cons.r)`. -/
def State.wakeup (s : State) : State :=
  { s with proc := fun p =>
      match (s.proc p).pc with
      | .asleep target n => { s.proc p with pc := .woken target n }
      | _ => s.proc p }

/-- `target - n`, as an `int`. -/
def answer (target : UInt32) (n : Int32) : Int32 := (target - n.toUInt32).toInt32

/-- One turn of the loop, with the lock held; `copyout` tells whether
`either_copyout` succeeds. -/
def readTurn (s : State) (p : Pid) (target : UInt32) (n : Int32) (copyout : Bool) :
    State × List Out :=
  if 0 < n then
    if s.cons.r = s.cons.w then
      if (s.proc p).killed then s.finish p (-1) else (s.sleep p target n, [])
    else
      let c := s.cons.buf (s.cons.r.toNat % INPUT_BUF_SIZE)
      let fetched := { s with cons := { s.cons with r := s.cons.r + 1 } }
      if c = C 'D' then
        -- a ^D behind other bytes is kept for the next read
        (if n.toUInt32 < target then s else fetched).finish p (answer target n)
      else if copyout then
        let got := fetched.set p { s.proc p with dst := (s.proc p).dst ++ [c] }
        if c = NEWLINE then
          let done := got.finish p (answer target (n - 1))
          (done.1, .byte p c :: done.2)
        else (got.goto p (.loop target (n - 1)), [.byte p c])
      else fetched.finish p (answer target n)
  else s.finish p (answer target n)

/-! ### The machine -/

inductive Event where
  /-- the byte `c` arrives -/
  | intr (c : UInt8)
  /-- an idle process calls `consoleread` -/
  | call (p : Pid) (n : Int32)
  /-- a reader makes its next step -/
  | run (p : Pid) (copyout : Bool)
  | kill (p : Pid)
  deriving DecidableEq

/-- `kkill` marks the process and wakes it if it sleeps. -/
def kill (s : State) (p : Pid) : State :=
  match (s.proc p).pc with
  | .asleep target n => s.set p { s.proc p with killed := true, pc := .woken target n }
  | _ => s.set p { s.proc p with killed := true }

/-- The state after an event, and what readers see of it. -/
def react (s : State) : Event → Option (State × List Out)
  | .intr c =>
    if s.cons.lock = none then
      let (k, wake) := consoleintr s.cons c
      let t := { s with cons := k }
      some (if wake then t.wakeup else t, [])
    else none
  | .call p n =>
    if (s.proc p).pc = .idle then some (s.set p { s.proc p with pc := .enter n, dst := [] }, [])
    else none
  | .run p copyout =>
    match (s.proc p).pc with
    | .idle | .asleep _ _ => none
    | .enter n => s.acquire p (.loop n.toUInt32 n)
    | .woken target n => s.acquire p (.loop target n)
    | .loop target n => some (readTurn s p target n copyout)
  | .kill p => some (kill s p, [])

def step (s : State) (e : Event) : Option State := (react s e).map Prod.fst

/-- What readers see of an event. -/
def shown (s : State) (e : Event) : List Out := ((react s e).map Prod.snd).getD []

/-- The console before any input, with the indices at any equal values. -/
def initial (junk : Nat → UInt8) (i : BitVec 32) : State where
  cons := ⟨none, junk, i, i, i⟩
  proc := fun _ => ⟨.idle, false, []⟩

end Xv6.Console
