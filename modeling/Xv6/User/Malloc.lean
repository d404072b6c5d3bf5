import Xv6.Lib.Bytes
import Xv6.Lib.Prog
import Xv6.Vm.Model
import Xv6.Kernel.State

/-!
# xv6 — the memory allocator of user programs (`user/umalloc.c`)

`malloc` and `free` over the memory of a process, byte by byte. A block begins
with a header of 16 bytes, `ptr` in the first 8 and `size` (the number of units of
16 bytes, the header's included) in the next 4. `sbrk` is what `sys_sbrk` does when
it is called with `SBRK_EAGER`: its argument is an `int`.

A loop that does not end is modelled by the fuel that it runs out of; a load or
store above the break is a fault, unless it is in the break's page.
-/

namespace Xv6.User

open ByteBuffer Kernel

/-- `sizeof(Header)`. -/
def HEADER : Nat := 16

/-- Bytes of physical memory: no process can have more of them mapped. -/
def PHYSMEM : Nat := Vm.PHYSTOP - Vm.KERNBASE

/-- The process, as far as the allocator is concerned. -/
structure Heap where
  mem : Buffer
  /-- the break: `p->sz` in the kernel -/
  sz : Nat
  /-- `&base` -/
  base : Nat
  freep : Nat
  /-- whether the kernel will run out of pages in the next calls of `sbrk` -/
  fails : List Bool

/-- Why the program does not go on. -/
inductive Stop where
  | fault
  | loops
  deriving DecidableEq, Repr

abbrev HeapM (α : Type) := Prog Stop Heap α

/-- The addresses from `a` on can be used. -/
def access (a n : Nat) : HeapM Unit := do
  let h ← .gets id
  if Vm.pgRoundUp h.sz < a + n then .stop .fault else pure ()

/-- `p->s.ptr`. -/
def ptr (m : Buffer) (p : Nat) : Nat := leField m p 8
/-- `p->s.size`. -/
def size (m : Buffer) (p : Nat) : Nat := leField m (p + 8) 4

def setPtr (m : Buffer) (p v : Nat) : Buffer := store m p (leBytes 8 v)
def setSize (m : Buffer) (p v : Nat) : Buffer := store m (p + 8) (leBytes 4 v)

def loadPtr (p : Nat) : HeapM Nat := do
  access p HEADER
  .gets fun h => ptr h.mem p

def loadSize (p : Nat) : HeapM Nat := do
  access p HEADER
  .gets fun h => size h.mem p

def storePtr (p v : Nat) : HeapM Unit := do
  access p HEADER
  .modify fun h => { h with mem := setPtr h.mem p v }

def storeSize (p v : Nat) : HeapM Unit := do
  access p HEADER
  .modify fun h => { h with mem := setSize h.mem p v }

def setFreep (p : Nat) : HeapM Unit := .modify fun h => { h with freep := p }

/-- `p + n` for a `Header *`. -/
def plus (p n : Nat) : Nat := u64 (p + HEADER * n)

/-- `sbrk`. -/
def sbrk (n : Int) : HeapM Int := do
  let h ← .gets id
  if 0 < n then do
    .modify fun h => { h with fails := h.fails.tail }
    if (Vm.TRAPFRAME : Int) < h.sz + n ∨ (PHYSMEM : Int) < h.sz + n ∨ h.fails.headD false = true
    then pure (-1)
    else do
      let sz := h.sz + n.toNat
      -- the new pages are cleared
      let mem := fill h.mem (Vm.pgRoundUp h.sz) (Vm.pgRoundUp sz - Vm.pgRoundUp h.sz) 0
      .modify fun h => { h with mem := mem, sz := sz }
      pure h.sz
  else do
    -- `uvmdealloc`: below 0 the sum is larger than sz
    .modify fun h => { h with sz := min h.sz (u64 (h.sz + n)) }
    pure h.sz

/-- The loop of `free`. -/
def freeLoop (bp : Nat) : Nat → Nat → HeapM Nat
  | 0, _ => .stop .loops
  | fuel + 1, p => do
    let next ← loadPtr p
    if p < bp ∧ bp < next then pure p
    else if next ≤ p ∧ (p < bp ∨ bp < next) then pure p
    else freeLoop bp fuel next

/-- `free`: block `bp` takes in the block after `p`, if that follows. -/
def joinNext (bp p : Nat) : HeapM Unit := do
  let bsize ← loadSize bp
  let next ← loadPtr p
  if plus bp bsize = next then do
    let nsize ← loadSize next
    storeSize bp (u32 (bsize + nsize))
    let next ← loadPtr p
    let nnext ← loadPtr next
    storePtr bp nnext
  else storePtr bp next

/-- `free`: block `p` takes in `bp`, if that follows, or is linked to it. -/
def joinPrev (bp p : Nat) : HeapM Unit := do
  let psize ← loadSize p
  if plus p psize = bp then do
    let bsize ← loadSize bp
    storeSize p (u32 (psize + bsize))
    let bnext ← loadPtr bp
    storePtr p bnext
  else storePtr p bp

/-- `free`. -/
def free (ap : Nat) : HeapM Unit := do
  let bp := u64 (ap - HEADER)
  let h ← .gets id
  let p ← freeLoop bp (2 * h.sz + 2) h.freep
  joinNext bp p
  joinPrev bp p
  setFreep p

/-- `morecore`. -/
def morecore (nu : Nat) : HeapM Nat := do
  let nu := if nu < 4096 then 4096 else nu
  let p ← sbrk (toInt (nu * HEADER))
  if p = -1 then pure 0
  else do
    let hp := u64 p
    storeSize hp nu
    free (hp + HEADER)
    .gets Heap.freep

/-- `malloc` once a block is found. -/
def take (nunits prevp p : Nat) : HeapM Nat := do
  let psize ← loadSize p
  if psize = nunits then do
    let next ← loadPtr p
    storePtr prevp next
    setFreep prevp
    pure (p + HEADER)
  else do
    storeSize p (psize - nunits)
    let p := plus p (psize - nunits)
    storeSize p nunits
    setFreep prevp
    pure (p + HEADER)

/-- `malloc` when block `p` is too small: at `freep` all have been seen, and memory is
added. There may be none. -/
def refill (nunits p : Nat) : HeapM (Option Nat) := do
  let h ← .gets id
  if p = h.freep then do
    let p ← morecore nunits
    pure (if p = 0 then none else some p)
  else pure (some p)

/-- The loop of `malloc`. -/
def mallocLoop (nunits : Nat) : Nat → Nat → Nat → HeapM Nat
  | 0, _, _ => .stop .loops
  | fuel + 1, prevp, p => do
    let psize ← loadSize p
    if nunits ≤ psize then take nunits prevp p
    else
      match ← refill nunits p with
      | none => pure 0
      | some p => do
        let next ← loadPtr p
        mallocLoop nunits fuel p next

/-- The number of units that `malloc` looks for. -/
def unitsFor (nbytes : Nat) : Nat := u32 ((nbytes + HEADER - 1) / HEADER + 1 : Nat)

/-- The first call makes a list of `base` alone. -/
def initList : HeapM Unit := do
  let h ← .gets id
  Prog.when (h.freep = 0) do
    storePtr h.base h.base
    setFreep h.base
    storeSize h.base 0

/-- `malloc`. -/
def malloc (nbytes : Nat) : HeapM Nat := do
  initList
  let h ← .gets id
  let p ← loadPtr h.freep
  mallocLoop (unitsFor nbytes) (4 * (h.sz + 1) + 4 * PHYSMEM) h.freep p

end Xv6.User
