import Xv6.Kernel.File

/-!
# xv6 — processes (`kernel/proc.c`, `kernel/sysproc.c`)

The life of a process table slot (`allocproc`, `kfork`, `kexit`, `kwait`,
`freeproc`, `kkill`), memory growth, limits and accounting. A process that goes
to sleep in a system call leaves in its slot what the call needs to go on; the
scheduler's part is in `Xv6.Kernel.Machine`.
-/

namespace Xv6.Kernel

open ByteBuffer

/-! ### Sleep and wakeup -/

/-- `ticks - then`, as `uint64`. -/
def since (ticks start : Nat) : Nat := u64 ((ticks : Int) - start)

/-- A sleeping process becomes RUNNABLE. -/
def Proc.wake (pr : Proc) (ticks : Nat) : Proc :=
  { pr with state := .runnable
            sleepTicks := u64 (pr.sleepTicks + since ticks pr.sleepStart)
            waitStart := ticks }

/-- `wakeup(c)`, called by `me`. -/
def wakeup (me : Option Pid) (c : Chan) : KM Unit := .modify fun k =>
  { k with proc := fun q =>
      if some q ≠ me ∧ (k.proc q).state = .sleeping ∧ (k.proc q).chan = some c then
        (k.proc q).wake k.ticks
      else k.proc q }

/-- `wakeup(q)` by `me` of whoever sleeps on the process `q`, which may be a null
pointer. -/
def wakeupProc (me : Pid) : Option Pid → KM Unit
  | none => pure ()
  | some q => wakeup (some me) (.proc q)

/-- `sleep(c, …)` in the system call `b`. -/
def sleep (p : Pid) (c : Chan) (b : Blocked) : KM Unit := do
  let k ← .gets id
  updProc p fun pr =>
    { pr with chan := some c, state := .sleeping, sleepStart := k.ticks, blocked := some b }

/-! ### Slots -/

/-- `if(pagetable) proc_freepagetable(pagetable, sz)`. -/
def freePagetable (pt : Option Vm.Pagetable) (sz : Nat) : KM Unit :=
  match pt with
  | none => pure ()
  | some pt => onMem (Vm.procFreepagetable pt sz)

/-- `freeproc`. -/
def freeproc (p : Pid) : KM Unit := do
  let k ← .gets id
  let pr := k.proc p
  Prog.when (pr.trapframe ≠ 0) (onMem (Vm.kfree pr.trapframe))
  updProc p fun pr => { pr with trapframe := 0 }
  freePagetable pr.pagetable pr.sz
  updProc p fun pr => { pr with
    pagetable := none, sz := 0, pid := 0, parent := none, name := [], chan := none
    killed := false, xstate := 0, state := .unused }

/-- The fields `allocproc` sets in the slot it found. -/
def Proc.init (pr : Proc) (pid : Int) (ticks : Nat) : Proc :=
  { pr with
    pid := pid, state := .used, cpuTicks := 0, cpuTicksMax := 100, nofileCur := NOFILE
    nofileMax := NOFILE, startTime := ticks, sleepTicks := 0, waitTicks := 0
    contextSwitches := 0, waitStart := ticks, sleepStart := 0 }

/-- `allocproc`. -/
def allocproc : KM (Option Pid) := do
  let k ← .gets id
  match (List.finRange NPROC).find? fun p => (k.proc p).state = .unused with
  | none => pure none
  | some p => do
    .modify fun k => { k with nextpid := toInt (k.nextpid + 1) }
    updProc p fun pr => pr.init k.nextpid k.ticks
    let tf ← onMem Vm.kalloc
    updProc p fun pr => { pr with trapframe := tf }
    if tf = 0 then do
      freeproc p
      pure none
    else do
      let pt ← onMem (Vm.procPagetable tf)
      updProc p fun pr => { pr with pagetable := pt }
      if pt.isNone then do
        freeproc p
        pure none
      else pure (some p)

/-- `userinit`. -/
def userinit : KM Unit := do
  match ← allocproc with
  | none => .stop (.vm .wild)
  | some p => do
    .modify fun k => { k with initproc := some p }
    let cwd ← onFs (Fs.namei none [Fs.slash])
    let k ← .gets id
    updProc p fun pr => { pr with cwd := cwd, state := .runnable, waitStart := k.ticks }

/-! ### fork, exit, wait, kill -/

/-- The loop of `kfork` over the descriptors. -/
def dupFiles (p np : Pid) : KM Unit :=
  Prog.each (fun fd => do
    let k ← .gets id
    match (k.proc p).ofile fd with
    | none => pure ()
    | some f => do
      filedup f
      setFd np fd (some f)) (List.finRange NOFILE)

/-- What the child takes over from its parent before the descriptors. -/
def Proc.inherit (np p : Proc) : Proc :=
  { np with
    sz := p.sz, nofileMax := p.nofileMax, cpuTicksMax := p.cpuTicksMax, cpuTicks := 0
    tf := { p.tf with a0 := 0 } }

/-- `kfork` once the child has a copy of the memory. -/
def forkShare (p np : Pid) : KM Int := do
  let k ← .gets id
  updProc np fun pr => pr.inherit (k.proc p)
  dupFiles p np
  let k ← .gets id
  match (k.proc p).cwd with
  | none => .stop (.fs .wild)
  | some ip => do
    onFs (Fs.idup ip)
    updProc np fun pr => { pr with
      cwd := some ip, name := (k.proc p).name, parent := some p, state := .runnable
      waitStart := k.ticks }
    pure (k.proc np).pid

/-- `kfork`. -/
def kfork (p : Pid) : KM Int := do
  match ← allocproc with
  | none => pure (-1)
  | some np => do
    let k ← .gets id
    match (k.proc p).pagetable, (k.proc np).pagetable with
    | some old, some new => do
      let (new, ok) ← onMem (Vm.uvmcopy old new (k.proc p).sz)
      updProc np fun pr => { pr with pagetable := some new }
      if ok then forkShare p np
      else do
        freeproc np
        pure (-1)
    | _, _ => .stop (.vm .wild)

/-- `reparent`: the children of `p` pass to init, which is woken. -/
def reparent (p : Pid) : KM Unit := do
  let k ← .gets id
  Prog.when ((List.finRange NPROC).any fun q => (k.proc q).parent = some p) do
    .modify fun k => { k with proc := fun q =>
      if (k.proc q).parent = some p then { k.proc q with parent := k.initproc } else k.proc q }
    wakeupProc p k.initproc

/-- The loop of `kexit` over the descriptors. -/
def closeFiles (p : Pid) : KM Unit :=
  Prog.each (fun fd => do
    let k ← .gets id
    match (k.proc p).ofile fd with
    | none => pure ()
    | some f => do
      fileclose f
      setFd p fd none) (List.finRange NOFILE)

/-- `kexit`. -/
def kexit (p : Pid) (status : Int) : KM Unit := do
  let k ← .gets id
  if k.initproc = some p then .stop (.kern .initExiting)
  else do
    closeFiles p
    let k ← .gets id
    onFs do
      Fs.beginOp
      Fs.iputPtr (k.proc p).cwd
      Fs.endOp
    updProc p fun pr => { pr with cwd := none }
    reparent p
    let k ← .gets id
    wakeupProc p (k.proc p).parent
    updProc p fun pr => { pr with xstate := status, state := .zombie }

/-- One round of the loop of `kwait`: the value returned, or `none` if the
process goes to sleep. -/
def kwait (p : Pid) (addr : Nat) : KM (Option Int) := do
  let k ← .gets id
  match (List.finRange NPROC).find? fun q =>
      (k.proc q).parent = some p ∧ (k.proc q).state = .zombie with
  | some q => do
    let ok ← (if addr = 0 then pure true
      else copyout p addr (leBytes 4 (u32 (k.proc q).xstate)))
    if ok then do
      freeproc q
      pure (some (k.proc q).pid)
    else pure (some (-1))
  | none =>
    if ((List.finRange NPROC).any fun q => (k.proc q).parent = some p) = false
        ∨ (k.proc p).killed = true then pure (some (-1))
    else do
      sleep p (.proc p) (.wait addr)
      pure none

/-- `kkill`. -/
def kkill (pid : Int) : KM Int := do
  let k ← .gets id
  match (List.finRange NPROC).find? fun q => (k.proc q).pid = pid with
  | none => pure (-1)
  | some q => do
    updProc q fun pr =>
      let pr := { pr with killed := true }
      if pr.state = .sleeping then pr.wake k.ticks else pr
    pure 0

/-! ### Memory -/

/-- The page table of `p`, which every running process has. -/
def pagetableOf (p : Pid) : KM Vm.Pagetable := do
  let k ← .gets id
  match (k.proc p).pagetable with
  | none => .stop (.vm .wild)
  | some pt => pure pt

/-- `growproc`: whether it succeeded. -/
def growproc (p : Pid) (n : Int) : KM Bool := do
  let k ← .gets id
  let sz := (k.proc p).sz
  if 0 < n then
    if (Vm.TRAPFRAME : Int) < sz + n then pure false
    else do
      let pt ← pagetableOf p
      let (pt, sz') ← onMem (Vm.uvmalloc pt sz (sz + n.toNat) true false)
      updProc p fun pr => { pr with pagetable := some pt }
      if sz' = 0 then pure false
      else do
        updProc p fun pr => { pr with sz := sz' }
        pure true
  else if n < 0 then do
    -- the sum is one of uint64: below 0 it is larger than sz
    let newsz := u64 (sz + n)
    let pt ← pagetableOf p
    let pt ← onMem (Vm.uvmdealloc pt sz newsz)
    updProc p fun pr => { pr with pagetable := some pt, sz := min sz newsz }
    pure true
  else pure true

/-- How `sbrk` is to grow memory. -/
def SBRK_EAGER : Int := 1

/-- `sys_sbrk`. -/
def sysSbrk (p : Pid) (n t : Int) : KM Int := do
  let k ← .gets id
  let addr := (k.proc p).sz
  if t = SBRK_EAGER ∨ n < 0 then do
    if ← growproc p n then pure addr else pure (-1)
  else if u64 (addr + n) < addr then pure (-1)
  else if Vm.TRAPFRAME < u64 (addr + n) then pure (-1)
  else do
    updProc p fun pr => { pr with sz := u64 (pr.sz + n) }
    pure addr

/-- What `sys_meminfo` reports: `total_mem`, `free_mem` and `used_mem`. -/
def meminfo : KM (Nat × Nat × Nat) := do
  let total ← onMem (.gets Vm.Mem.total)
  let free ← onMem Vm.countFreeMem
  pure (total, free, u64 ((total : Int) - free))

/-- `sys_meminfo`. -/
def sysMeminfo (p : Pid) (addr : Nat) : KM Int := do
  let (total, free, used) ← meminfo
  if ← copyout p addr (leBytes 8 total ++ leBytes 8 free ++ leBytes 8 used) then pure 0
  else pure (-1)

/-! ### Time and limits -/

/-- One round of the loop of `sys_pause`: `none` if the process goes to sleep. -/
def pauseLoop (p : Pid) (n ticks0 : Nat) : KM (Option Int) := do
  let k ← .gets id
  if u32 ((k.ticks : Int) - ticks0) < n then
    if (k.proc p).killed then pure (some (-1))
    else do
      sleep p .ticks (.pause n ticks0)
      pure none
  else pure (some 0)

/-- `sys_pause`. -/
def sysPause (p : Pid) (n : Int) : KM (Option Int) := do
  let k ← .gets id
  pauseLoop p n.toNat k.ticks

/-- The resources with a limit. -/
def RLIMIT_NOFILE : Int := 0
def RLIMIT_CPU : Int := 1

/-- The tests of `setrlimit(RLIMIT_CPU, n)`. The last one compares `n`,
converted to `uint64`, with the ticks used. -/
def cpuLimitOk (pr : Proc) (n : Int) : Bool :=
  ¬ (n = 0 ∨ (MAX_CPU_TICKS : Int) < n ∨ u64 n ≤ pr.cpuTicks)

/-- The tests of `setrlimit(RLIMIT_NOFILE, n)`. -/
def nofileLimitOk (pr : Proc) (n : Int) : Bool :=
  ¬ ((NOFILE : Int) < n ∨ n ≤ 0 ∨ n ≤ openFiles pr)

/-- `sys_setrlimit`. -/
def sysSetrlimit (p : Pid) (resource n : Int) : KM Int := do
  let k ← .gets id
  if resource = RLIMIT_CPU then
    if cpuLimitOk (k.proc p) n then do
      updProc p fun pr => { pr with cpuTicksMax := u64 n }
      pure 0
    else pure (-1)
  else if resource = RLIMIT_NOFILE then
    if nofileLimitOk (k.proc p) n then do
      updProc p fun pr => { pr with nofileMax := n }
      pure 0
    else pure (-1)
  else pure (-1)

/-- `sys_getrlimit`. -/
def sysGetrlimit (p : Pid) (resource : Int) (addr : Nat) : KM Int := do
  let k ← .gets id
  let pr := k.proc p
  let lim : Option (Nat × Nat) :=
    if resource = RLIMIT_NOFILE then
      some (if pr.nofileMax ≤ openFiles pr then 0 else u64 (pr.nofileMax - openFiles pr),
        u64 pr.nofileMax)
    else if resource = RLIMIT_CPU then
      some (if pr.cpuTicksMax ≤ pr.cpuTicks then 0 else pr.cpuTicksMax - pr.cpuTicks,
        pr.cpuTicksMax)
    else none
  match lim with
  | none => pure (-1)
  | some (cur, max) => do
    if ← copyout p addr (leBytes 8 cur ++ leBytes 8 max) then pure 0 else pure (-1)

end Xv6.Kernel
