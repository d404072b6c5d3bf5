import Xv6.Bio.Cache
import Xv6.Lib.Holders
import Xv6.Log.Model

/-!
# xv6 — processes that use the buffer cache (`kernel/bio.c`, `kernel/log.c`)

A step machine in which processes read, change, log and release buffers, and in
which the last `end_op` runs `commit` on the same cache. A process may be stopped
between any two of these steps:

* `bget` under `bcache.lock`; then taking the buffer's sleep lock, with the disk
  read of `bread` if the buffer is not valid;
* changing a buffer that it has locked; `log_write`; `bwrite`;
* giving up the sleep lock in `brelse`; then dropping the reference under
  `bcache.lock`.

`Core` is the cache with the contents of the buffers, the sleep locks and the
disk. `commit` and `recover_from_log` are lists of instructions that the process
works off; what the file system does between `begin_op` and `end_op` is not
fixed, except that

* it changes only buffers of blocks outside the log area that it has locked,
  inside an operation, and calls `log_write` before it releases them
  (`bzero`, `balloc`, `bfree`, `ialloc`, `iupdate`, `bmap`, `writei` all do), with
  one exception: `writei` releases the buffer at once if `either_copyin` fails,
  whatever has been copied by then (`Event.copyFail`);
* it ends an operation with no buffer locked.

The marks on locked buffers, the list of pinned buffers and the blocks an
operation has named are history: no step of the source reads them.
-/

namespace Xv6.Bio

open ByteBuffer Function
open Log (Block Disk InLog putHead headBlocks)

/-- A process. -/
abbrev Tid := Fin NPROC

/-- What the holder of a buffer has done to it: nothing that is not logged,
changed it, or changed it and written it to the disk. -/
inductive Mark where
  | clean
  | dirty
  | written
  deriving DecidableEq, Repr

/-- A process inside `bget` or `brelse`: it has a reference to a buffer, but not
its lock. -/
inductive Busy where
  | no
  | want (x : Buf)
  | drop (x : Buf)
  deriving DecidableEq, Repr

/-- The buffer of that reference. -/
def Busy.buf : Busy → Option Buf
  | .no => none
  | .want x | .drop x => some x

/-! ### The cache with its contents -/

/-- The buffer cache, what its buffers hold, and the disk. -/
structure Core where
  cache : Cache
  data : Buf → Block
  /-- the sleep locks: the holder, and the mark -/
  lock : Buf → Option (Tid × Mark)
  disk : Disk
  busy : Tid → Busy
  /-- buffers pinned by the log -/
  pins : List Buf

namespace Core

/-- The first part of `bread`: `bget` up to `acquiresleep`. -/
def get (c : Core) (p : Tid) (b : Nat) : Except Fail Core :=
  match c.cache.bget ROOTDEV b with
  | .error e => .error e
  | .ok (x, cache) => .ok { c with cache := cache, busy := update c.busy p (.want x) }

/-- The rest of `bread`, once the lock is free: the buffer. -/
def take (c : Core) (p : Tid) : Option (Buf × Core) :=
  match c.busy p with
  | .want x =>
    if c.lock x ≠ none then none
    else
      let c := { c with lock := update c.lock x (some (p, .clean))
                        busy := update c.busy p .no }
      let h := c.cache.buf x
      some (x, if h.valid then c else { c with
        data := update c.data x (c.disk h.blockno)
        cache := c.cache.set x { h with valid := true } })
  | _ => none

/-- Mark a locked buffer. -/
def mark (c : Core) (x : Buf) (m : Mark) : Core :=
  { c with lock := update c.lock x ((c.lock x).map fun l => (l.1, m)) }

/-- Change what a buffer holds. -/
def store (c : Core) (x : Buf) (v : Block) : Core :=
  { c with data := update c.data x v }

/-- `bwrite`. -/
def bwrite (c : Core) (x : Buf) : Core :=
  { c with disk := update c.disk (c.cache.buf x).blockno (c.data x) }

/-- The first part of `brelse`: `releasesleep`. -/
def release (c : Core) (p : Tid) (x : Buf) : Core :=
  { c with lock := update c.lock x none, busy := update c.busy p (.drop x) }

/-- The rest of `brelse`. -/
def drop (c : Core) (p : Tid) : Option Core :=
  match c.busy p with
  | .drop x => some { c with cache := c.cache.brelse x, busy := update c.busy p .no }
  | _ => none

/-- `bpin`. -/
def bpin (c : Core) (x : Buf) : Core := { c with cache := c.cache.bpin x, pins := c.pins ++ [x] }

/-- `bunpin`. -/
def bunpin (c : Core) (x : Buf) : Core :=
  { c with cache := c.cache.bunpin x, pins := c.pins.erase x }

/-- The holder of a buffer's lock. -/
def holder (c : Core) (x : Buf) : Option Tid := (c.lock x).map Prod.fst

end Core

/-! ### commit and recovery -/

/-- The two buffers that `write_log` and `install_trans` work with. -/
inductive Reg where
  | src
  | dst
  deriving DecidableEq, Repr

/-- What `commit` and `recover_from_log` do next. -/
inductive Instr where
  /-- `bget`, for the block -/
  | get (b : Nat)
  /-- the rest of the `bread` of the block -/
  | take (r : Reg) (b : Nat)
  /-- `memmove(dst->data, src->data, BSIZE)` -/
  | copy
  /-- the stores of `write_head` -/
  | putHead
  | bwrite
  | bunpin
  /-- `releasesleep` in `brelse` -/
  | release (r : Reg)
  /-- the rest of `brelse` -/
  | drop
  /-- `log.lh.n = 0` -/
  | clear
  /-- `log.committing = 0` -/
  | done
  deriving DecidableEq, Repr

/-- `r = bread(log.dev, b)`. -/
def bread (r : Reg) (b : Nat) : List Instr := [.get b, .take r b]

/-- `brelse(r)`. -/
def brelse (r : Reg) : List Instr := [.release r, .drop]

/-- The loop of `write_log`. -/
def writeLog (start : Nat) : Nat → List Nat → List Instr
  | _, [] => []
  | tail, b :: lh =>
    bread .dst (start + tail + 1) ++ bread .src b ++ [.copy, .bwrite] ++ brelse .src ++
      brelse .dst ++ writeLog start (tail + 1) lh

/-- `write_head`. -/
def writeHead (start : Nat) : List Instr := bread .dst start ++ [.putHead, .bwrite] ++ brelse .dst

/-- The loop of `install_trans`. -/
def installTrans (start : Nat) (recovering : Bool) : Nat → List Nat → List Instr
  | _, [] => []
  | tail, b :: lh =>
    bread .src (start + tail + 1) ++ bread .dst b ++ [.copy, .bwrite] ++
      (if recovering then [] else [.bunpin]) ++ brelse .src ++ brelse .dst ++
      installTrans start recovering (tail + 1) lh

/-- `commit`, and what `end_op` does after it. -/
def commit (start : Nat) (lh : List Nat) : List Instr :=
  if lh = [] then [.done]
  else writeLog start 0 lh ++ writeHead start ++ installTrans start false 0 lh ++ [.clear] ++
    writeHead start ++ [.done]

/-- `readsb` and `recover_from_log`, for a disk whose log lists `lh`. -/
def recoverFromLog (start : Nat) (lh : List Nat) : List Instr :=
  bread .dst 1 ++ brelse .dst ++ bread .dst start ++ brelse .dst ++
    installTrans start true 0 lh ++ [.clear] ++ writeHead start ++ [.done]

/-! ### The machine -/

/-- A process. -/
structure Thread where
  /-- between `begin_op` and `end_op` -/
  op : Bool
  /-- the blocks its operation has named -/
  named : Finset Nat
  src : Option Buf
  dst : Option Buf
  /-- what is left of `commit` or `recover_from_log` -/
  code : List Instr

/-- The buffer in a register. -/
def Thread.reg (t : Thread) : Reg → Option Buf
  | .src => t.src
  | .dst => t.dst

/-- Change a register. -/
def Thread.setReg (t : Thread) (r : Reg) (x : Option Buf) : Thread :=
  match r with
  | .src => { t with src := x }
  | .dst => { t with dst := x }

/-- The cache, the log and the processes. -/
structure State where
  core : Core
  lh : List Nat
  outstanding : Nat
  committing : Bool
  thread : Tid → Thread

namespace State

/-- Replace a process. -/
def setThread (s : State) (p : Tid) (t : Thread) : State :=
  { s with thread := update s.thread p t }

/-- The process is free to do something else: not inside `bread`, `brelse`,
`commit` or `recover_from_log`. -/
def Free (s : State) (p : Tid) : Prop := s.core.busy p = .no ∧ (s.thread p).code = []

instance (s : State) (p : Tid) : Decidable (s.Free p) := inferInstanceAs (Decidable (_ ∧ _))

/-- The process runs an operation and has the buffer locked; block numbers are 32
bits wide. -/
def CanChange (start : Nat) (s : State) (p : Tid) (x : Buf) : Prop :=
  s.Free p ∧ (s.thread p).op = true ∧ s.core.holder x = some p ∧
    ¬ InLog start (s.core.cache.buf x).blockno ∧ (s.core.cache.buf x).blockno < 4294967296

instance (start : Nat) (s : State) (p : Tid) (x : Buf) : Decidable (s.CanChange start p x) :=
  inferInstanceAs (Decidable (_ ∧ _))

/-- `begin_op`, once it does not sleep. -/
def beginOp (s : State) (p : Tid) : Option State :=
  if ¬ s.Free p ∨ (s.thread p).op then none
  else if s.committing then none
  else if s.lh.length + (s.outstanding + 1) * MAXOPBLOCKS > LOGBLOCKS then none
  else some ({ s with outstanding := s.outstanding + 1 }.setThread p
    { s.thread p with op := true, named := ∅ })

/-- `log_write`; the panics take no step. -/
def logWrite (start : Nat) (s : State) (p : Tid) (x : Buf) : Option State :=
  let b := (s.core.cache.buf x).blockno
  if s.lh.length ≥ LOGBLOCKS then none
  else if s.outstanding < 1 then none
  else if s.CanChange start p x then
    let s := { s with core := s.core.mark x .clean }.setThread p
      { s.thread p with named := insert b (s.thread p).named }
    if b ∈ s.lh then some s   -- log absorption
    else some { s with core := s.core.bpin x, lh := s.lh ++ [b] }
  else none

/-- `end_op`, up to the call of `commit`. -/
def endOp (start : Nat) (s : State) (p : Tid) : Option State :=
  if s.committing then none
  else if s.Free p ∧ (s.thread p).op = true ∧ ∀ x, s.core.holder x ≠ some p then
    let s := { s with outstanding := s.outstanding - 1 }.setThread p { s.thread p with op := false }
    if s.outstanding ≠ 0 then some s
    else some ({ s with committing := true }.setThread p
      { s.thread p with code := commit start s.lh })
  else none

/-- The next instruction of a process inside `commit` or `recover_from_log`. -/
def instr (s : State) (p : Tid) : Option State :=
  let t := s.thread p
  match t.code with
  | [] => none
  | i :: code =>
    -- on to the next instruction, with these registers
    let go (c : Core) (t : Thread) : State :=
      { s with core := c }.setThread p { t with code := code }
    match i with
    | .get b =>
      match s.core.get p b with
      | .ok c => some (go c t)
      | .error _ => none
    | .take r _ => (s.core.take p).map fun (x, c) => go c (t.setReg r (some x))
    | .copy =>
      match t.src, t.dst with
      | some x, some y => some (go ((s.core.store y (s.core.data x)).mark y .dirty) t)
      | _, _ => none
    | .putHead => t.dst.map fun y =>
        go ((s.core.store y (putHead (s.core.data y) s.lh)).mark y .dirty) t
    | .bwrite => t.dst.map fun y => go ((s.core.bwrite y).mark y .written) t
    | .bunpin => t.dst.map fun y => go (s.core.bunpin y) t
    | .release r => (t.reg r).map fun x => go (s.core.release p x) (t.setReg r none)
    | .drop => (s.core.drop p).map fun c => go c t
    | .clear => some { go s.core t with lh := [] }
    | .done => some { go s.core t with committing := false }

end State

/-- What can happen next. -/
inductive Event where
  | beginOp (p : Tid)
  /-- the file system calls `bread` -/
  | get (p : Tid) (b : Nat)
  | take (p : Tid)
  /-- a buffer is changed in place -/
  | modify (p : Tid) (x : Buf) (v : Block)
  /-- `either_copyin` fails in `writei` after it has copied `bs` to offset `off` of
  the buffer -/
  | copyFail (p : Tid) (x : Buf) (off : Nat) (bs : List UInt8)
  | logWrite (p : Tid) (x : Buf)
  /-- the file system calls `brelse` -/
  | release (p : Tid) (x : Buf)
  | drop (p : Tid)
  | endOp (p : Tid)
  /-- the next instruction of `commit` or `recover_from_log` -/
  | instr (p : Tid)

/-- One step of the machine; `bget` that panics takes none. -/
def step (start : Nat) (s : State) : Event → Option State
  | .beginOp p => s.beginOp p
  | .get p b =>
    if s.Free p ∧ ¬ InLog start b then
      match s.core.get p b with
      | .ok c => some { s with core := c }
      | .error _ => none
    else none
  | .take p =>
    if (s.thread p).code = [] then (s.core.take p).map fun (_, c) => { s with core := c } else none
  | .modify p x v =>
    if s.CanChange start p x then some { s with core := (s.core.store x v).mark x .dirty } else none
  | .copyFail p x off bs =>
    if s.CanChange start p x then
      some { s with core := s.core.store x (ByteBuffer.store (s.core.data x) off bs) }
    else none
  | .logWrite p x => s.logWrite start p x
  | .release p x =>
    if s.Free p ∧ s.core.holder x = some p ∧ s.core.lock x ≠ some (p, .dirty) then
      some { s with core := s.core.release p x }
    else none
  | .drop p =>
    if (s.thread p).code = [] then (s.core.drop p).map fun c => { s with core := c } else none
  | .endOp p => s.endOp start p
  | .instr p => s.instr p

/-- The steps as a relation. -/
def Step (start : Nat) (s : State) (e : Event) (t : State) : Prop := step start s e = some t

/-- Power-on with disk `d`: process 0 is about to read the superblock and to
recover the log. Until it is through there is no other process; the machine keeps
them out as it does during a commit. -/
def powerOn (start : Nat) (d : Disk) (data : Buf → Block) : State where
  core := { cache := binit, data := data, lock := fun _ => none, disk := d, busy := fun _ => .no
            pins := [] }
  lh := headBlocks (d start)
  outstanding := 0
  committing := true
  thread := fun p => ⟨false, ∅, none, none,
    if p = 0 then recoverFromLog start (headBlocks (d start)) else []⟩

end Xv6.Bio
