import Xv6.Lib.Bytes
import Xv6.Lib.Run
import Xv6.Lib.Writes
import Xv6.Param

/-!
# xv6 — the redo log (`kernel/log.c`)

A step machine for the log: file-system operations interleave their
`begin_op`, buffer modifications, `log_write` and `end_op`; the last `end_op`
starts `commit`, whose four parts (`write_log`, `write_head`,
`install_trans`, `write_head`) are taken one disk write at a time; power can
be lost between any two steps, after which `recover_from_log` runs, again one
disk write at a time and itself open to further crashes.

What is modelled of the layers below:

* the disk is a function from block numbers to blocks, and one step makes at
  most one `bwrite`, in issue order (`virtio_disk_rw` is synchronous);
* the buffer cache holds blocks that have been read or modified; `bread`
  returns the cached contents, or reads the disk. A block that is not pinned
  may be recycled at any time (`Event.evict`), in which case what it held is
  forgotten;
* the header block is laid out as `struct logheader`: 32-bit integers, the
  count first. `write_head` overwrites the count and the first `n` entries
  and leaves the rest of the block as it was.

The state also carries its history: the operations that are active, every
`log_write` call made so far, and the list of transactions whose header write
reached the disk. No step reads the history.
-/

namespace Xv6.Log

open ByteBuffer StoreWrites Function

/-- A disk block. -/
abbrev Block := Buffer

/-- A disk: the contents of each block. -/
abbrev Disk := Nat → Block

/-! ### The on-disk header -/

/-- The `k`-th 32-bit integer of a block. -/
def getInt (b : Block) (k : Nat) : Nat := le32 b (4 * k)

/-- Store the integers `vs` from index `k` on. -/
def putInts (b : Block) (k : Nat) : List Nat → Block
  | [] => b
  | v :: vs => putInts (put32 b (4 * k) v) (k + 1) vs

/-- `read_head`: the block numbers listed in a header block. -/
def headBlocks (b : Block) : List Nat :=
  (List.range (getInt b 0)).map fun i => getInt b (i + 1)

/-- `write_head`: the header block `b` after storing `n` and `block[0..n)`. -/
def putHead (b : Block) (lh : List Nat) : Block :=
  putInts (put32 b 0 lh.length) 1 lh

/-! ### State -/

/-- A transaction whose header write reached the disk: what it writes to
which home block, and the `log_write` calls that it is made of, as pairs of
operation and block number. -/
structure Txn where
  writes : List (Nat × Block)
  calls : List (Nat × Nat)

/-- Where the machine is: running operations, inside `commit` or inside
`recover_from_log`. The argument is the loop variable `tail`. -/
inductive Phase where
  | running
  | writeLog (tail : Nat)
  | writeHead
  | install (tail : Nat)
  | clearHead
  | boot
  | recover (tail : Nat)
  | recoverClear
deriving DecidableEq

/-- The disk, the memory of the log and of the buffer cache, and the history. -/
structure State where
  disk : Disk
  /-- contents of the cached blocks -/
  cache : Nat → Option Block
  /-- blocks pinned by `bpin` -/
  pinned : Nat → Bool
  /-- `log.lh.block[0..n)` -/
  lh : List Nat
  outstanding : Nat
  committing : Bool
  phase : Phase
  /-- active operations, one for each `begin_op` not yet ended -/
  ops : List Nat
  nextOp : Nat
  /-- `log_write` calls of the transaction being built -/
  calls : List (Nat × Nat)
  /-- all `log_write` calls so far -/
  history : List (Nat × Nat)
  txns : List Txn

/-- `bread`: the cached contents of a block, or what the disk holds. -/
def State.bread (s : State) (b : Nat) : Block := (s.cache b).getD (s.disk b)

/-- `bwrite` of contents `v` for block `b`: the buffer keeps them. -/
def State.bwrite (s : State) (b : Nat) (v : Block) : State :=
  { s with disk := update s.disk b v
           cache := update s.cache b (some v) }

/-- Blocks of the log area: the header and `LOGBLOCKS` copies. -/
def InLog (start b : Nat) : Prop := start ≤ b ∧ b ≤ start + LOGBLOCKS

instance (start b : Nat) : Decidable (InLog start b) :=
  inferInstanceAs (Decidable (_ ∧ _))

/-! ### Operations -/

/-- `begin_op`, once it does not sleep: no commit is running and the log has
room for one more operation. -/
def beginOp (s : State) : Option State :=
  if s.committing then none
  else if s.lh.length + (s.outstanding + 1) * MAXOPBLOCKS > LOGBLOCKS then none
  else some { s with outstanding := s.outstanding + 1
                     ops := s.nextOp :: s.ops
                     nextOp := s.nextOp + 1 }

/-- An active operation changes the contents of a buffer it has read. -/
def modify (start : Nat) (s : State) (op b : Nat) (v : Block) : Option State :=
  if op ∈ s.ops ∧ ¬ InLog start b then
    some { s with cache := update s.cache b (some v) }
  else none

/-- `log_write` by an active operation on a buffer it holds; block numbers
are 32 bits wide. The two panics ("too big a transaction", "log_write outside
of trans") take no step. -/
def logWrite (start : Nat) (s : State) (op b : Nat) : Option State :=
  if s.lh.length ≥ LOGBLOCKS then none
  else if s.outstanding < 1 then none
  else if op ∈ s.ops ∧ (¬ InLog start b ∧ b < 4294967296) ∧ (s.cache b).isSome then
    let s := { s with calls := s.calls ++ [(op, b)]
                      history := s.history ++ [(op, b)] }
    if b ∈ s.lh then some s   -- log absorption
    else some { s with lh := s.lh ++ [b]
                       pinned := update s.pinned b true }
  else none

/-- `end_op`: the last operation starts `commit`, which does nothing when no
block was logged. The panic "log.committing" takes no step. -/
def endOp (s : State) (op : Nat) : Option State :=
  if s.committing then none
  else if op ∈ s.ops then
    let s := { s with outstanding := s.outstanding - 1, ops := s.ops.erase op }
    if s.outstanding ≠ 0 then some s
    else if s.lh = [] then some s
    else some { s with committing := true, phase := .writeLog 0 }
  else none

/-- The next disk write of `commit` or of `recover_from_log`. -/
def diskWrite (start : Nat) (s : State) : Option State :=
  match s.phase with
  | .running => none
  | .writeLog tail =>
    match s.lh[tail]? with
    | none => none
    | some b =>
      some { s.bwrite (start + tail + 1) (s.bread b) with
        phase := if tail + 1 < s.lh.length then .writeLog (tail + 1) else .writeHead }
  | .writeHead =>
    -- the true point at which the current transaction commits
    some { s.bwrite start (putHead (s.bread start) s.lh) with
      phase := .install 0
      txns := s.txns ++ [⟨s.lh.map fun b => (b, s.bread b), s.calls⟩]
      calls := [] }
  | .install tail =>
    match s.lh[tail]? with
    | none => none
    | some b =>
      let s := { s.bwrite b (s.bread (start + tail + 1)) with
        pinned := update s.pinned b false }
      some (if tail + 1 < s.lh.length then { s with phase := .install (tail + 1) }
        else { s with lh := [], phase := .clearHead })
  | .clearHead =>
    some { s.bwrite start (putHead (s.bread start) []) with
      phase := .running, committing := false }
  | .boot => none
  | .recover tail =>
    match s.lh[tail]? with
    | none => none
    | some b =>
      let s := s.bwrite b (s.bread (start + tail + 1))
      some (if tail + 1 < s.lh.length then { s with phase := .recover (tail + 1) }
        else { s with lh := [], phase := .recoverClear })
  | .recoverClear =>
    some { s.bwrite start (putHead (s.bread start) []) with phase := .running }

/-- `read_head` at the start of `recover_from_log`. -/
def readHead (start : Nat) (s : State) : Option State :=
  match s.phase with
  | .boot =>
    let lh := headBlocks (s.bread start)
    some { s with lh := lh
                  cache := update s.cache start (some (s.bread start))
                  phase := if lh = [] then .recoverClear else .recover 0 }
  | _ => none

/-- Power is lost: the disk and the history remain. -/
def crash (s : State) : State :=
  { s with cache := fun _ => none, pinned := fun _ => false, lh := []
           outstanding := 0, committing := false, ops := [], calls := []
           phase := .boot }

/-! ### The machine -/

/-- What can happen next. -/
inductive Event where
  | beginOp
  | modify (op b : Nat) (v : Block)
  | logWrite (op b : Nat)
  | endOp (op : Nat)
  /-- someone reads block `b` into the cache -/
  | read (b : Nat)
  /-- `bget` recycles the buffer of block `b` -/
  | evict (b : Nat)
  | diskWrite
  | readHead
  | crash

/-- No operation runs before recovery is complete. -/
def State.up (s : State) : Prop := ¬ (s.phase = .boot ∨ (∃ t, s.phase = .recover t) ∨
  s.phase = .recoverClear)

instance (s : State) : Decidable s.up :=
  match h : s.phase with
  | .running | .writeLog _ | .writeHead | .install _ | .clearHead =>
    isTrue (by simp [State.up, h])
  | .boot | .recover _ | .recoverClear => isFalse (by simp [State.up, h])

/-- One step of the machine. -/
def step (start : Nat) (s : State) : Event → Option State
  | .beginOp => if s.up then beginOp s else none
  | .modify op b v => modify start s op b v
  | .logWrite op b => logWrite start s op b
  | .endOp op => endOp s op
  | .read b => some { s with cache := update s.cache b (some (s.bread b)) }
  | .evict b =>
    if s.pinned b then none
    else some { s with cache := update s.cache b none }
  | .diskWrite => diskWrite start s
  | .readHead => readHead start s
  | .crash => some (crash s)

/-- The steps as a relation. -/
def Step (start : Nat) (s : State) (e : Event) (t : State) : Prop :=
  step start s e = some t

/-! ### What recovery should give -/

/-- The writes listed in the log area of a disk. -/
def loggedWrites (start : Nat) (d : Disk) : List (Nat × Block) :=
  (headBlocks (d start)).mapIdx fun i b => (b, d (start + i + 1))

/-- The transaction found on a disk at power-on, if its header lists any. -/
def bootTxns (start : Nat) (d : Disk) : List Txn :=
  if headBlocks (d start) = [] then [] else [⟨loggedWrites start d, []⟩]

/-- The disk `d` with the transactions `ts` applied in commit order. -/
def applyTxns (d : Disk) (ts : List Txn) : Disk :=
  applyWrites (ts.flatMap Txn.writes) d

/-- Power-on with disk `d`. -/
def powerOn (start : Nat) (d : Disk) : State where
  disk := d
  cache := fun _ => none
  pinned := fun _ => false
  lh := []
  outstanding := 0
  committing := false
  phase := .boot
  ops := []
  nextOp := 0
  calls := []
  history := []
  txns := bootTxns start d

/-- A header lists at most `LOGBLOCKS` distinct blocks outside the log area. -/
structure HeaderOk (start : Nat) (lh : List Nat) : Prop where
  length_le : lh.length ≤ LOGBLOCKS
  nodup : lh.Nodup
  home : ∀ b ∈ lh, ¬ InLog start b
  fits : ∀ b ∈ lh, b < 4294967296

end Xv6.Log
