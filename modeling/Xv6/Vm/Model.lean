import Mathlib.Data.List.FinRange
import Xv6.Lib.Bytes
import Xv6.Lib.Prog

/-!
# xv6 — physical pages and page tables (`kernel/kalloc.c`, `kernel/vm.c`)

The physical page allocator, user page tables and the functions that copy
between kernel and user memory.

* The free list is a linked list through the free pages: the first eight bytes
  of each hold the address of the next one. A store to a page that is free
  would change it.
* `kalloc` may fail at any call: each call consumes an answer of the
  environment, and only succeeds if the answer and the free list allow it.
* A page table is a tree of three levels of 512 entries. An entry of an inner
  level is empty or points to a table of the level below; an entry of the last
  level is empty or maps a page. Every mapping the kernel makes is readable, so
  `PTE_R` is not a field, and an entry is valid exactly if it is not empty.

Addresses and sizes are natural numbers. They stay far below `2^64` wherever
the code adds to them, because it tests them against `MAXVA` or `TRAPFRAME`
first.
-/

namespace Xv6.Vm

open ByteBuffer Function

/-- Bytes per page. -/
def PGSIZE : Nat := 4096
/-- One beyond the highest virtual address. -/
def MAXVA : Nat := 2 ^ 38
/-- The trampoline page, at the highest address. -/
def TRAMPOLINE : Nat := MAXVA - PGSIZE
/-- The page of `p->trapframe`, below the trampoline. -/
def TRAPFRAME : Nat := TRAMPOLINE - PGSIZE
/-- Start of physical memory. -/
def KERNBASE : Nat := 0x80000000
/-- End of physical memory. -/
def PHYSTOP : Nat := KERNBASE + 128 * 1024 * 1024

/-- `PGROUNDUP`. -/
def pgRoundUp (a : Nat) : Nat := (a + PGSIZE - 1) / PGSIZE * PGSIZE
/-- `PGROUNDDOWN`. -/
def pgRoundDown (a : Nat) : Nat := a / PGSIZE * PGSIZE

/-- What the functions of this module stop with: their panics, and the ends C
does not name. -/
inductive Panic where
  | kfree
  | walk
  | mappagesVa
  | mappagesSize
  | mappagesZero
  | mappagesRemap
  | uvmunmap
  | freewalkLeaf
  | uvmclear
  /-- a loop that does not end -/
  | hang
  /-- a null pointer is followed; `kerneltrap` panics -/
  | wild
  deriving DecidableEq, Repr

/-! ### Physical memory (kalloc.c) -/

/-- Physical memory and its allocator. -/
structure Mem where
  /-- the linker's `end`: the first address after the kernel -/
  kend : Nat
  /-- physical address of the trampoline code -/
  trampoline : Nat
  /-- `kmem.freelist`, 0 when empty -/
  freelist : Nat
  byte : Buffer
  /-- `total_mem_bytes` -/
  total : Nat
  /-- answers of the environment to the coming `kalloc`s, `true` for failure -/
  fails : List Bool

/-- Programs over physical memory. -/
abbrev MemM := Prog Panic Mem

/-- `memset(pa, v, PGSIZE)`. -/
def memset (pa : Nat) (v : UInt8) : MemM Unit :=
  .modify fun m => { m with byte := fill m.byte pa PGSIZE v }

/-- `((struct run *)pa)->next`. -/
def Mem.next (m : Mem) (pa : Nat) : Nat := leField m.byte pa 8

/-- The state after `kfree(pa)`. -/
def Mem.free (m : Mem) (pa : Nat) : Mem :=
  { m with byte := store (fill m.byte pa PGSIZE 1) pa (leBytes 8 m.freelist), freelist := pa }

/-- `kfree`. -/
def kfree (pa : Nat) : MemM Unit := do
  let kend ← .gets Mem.kend
  if pa % PGSIZE ≠ 0 ∨ pa < kend ∨ PHYSTOP ≤ pa then .stop .kfree
  else .modify fun m => m.free pa

/-- Take the environment's answer to a `kalloc`. -/
def kallocFails : MemM Bool := do
  let fails ← .gets Mem.fails
  match fails with
  | [] => pure false
  | b :: bs => do
    .modify fun m => { m with fails := bs }
    pure b

/-- `kalloc`: the address of a page, or 0. -/
def kalloc : MemM Nat := do
  if ← kallocFails then pure 0
  else do
    let r ← .gets Mem.freelist
    if r = 0 then pure 0
    else do
      .modify fun m => { m with freelist := m.next r }
      memset r 5
      pure r

/-- Length of the list that starts at `r`, if it ends within `fuel` nodes. -/
def countList (next : Nat → Nat) : Nat → Nat → Option Nat
  | _, 0 => some 0
  | 0, _ + 1 => none
  | fuel + 1, r + 1 => (countList next fuel (next (r + 1))).map (· + 1)

/-- `count_free_mem`: the loop follows the list; if it is still going after as
many nodes as there are pages, it has met one twice and does not end. -/
def countFreeMem : MemM Nat := do
  let m ← .gets id
  match countList m.next (PHYSTOP / PGSIZE) m.freelist with
  | some n => pure (n * PGSIZE)
  | none => .stop .hang

/-- `freerange(p, PHYSTOP)`, for `k` pages from `p` on. -/
def freerange : Nat → Nat → MemM Unit
  | 0, _ => pure ()
  | k + 1, p => do
    kfree p
    freerange k (p + PGSIZE)

/-- `kinit`. -/
def kinit : MemM Unit := do
  let kend ← .gets Mem.kend
  freerange ((PHYSTOP - pgRoundUp kend) / PGSIZE) (pgRoundUp kend)
  let n ← countFreeMem
  .modify fun m => { m with total := n }

/-! ### Page tables (vm.c) -/

/-- Permissions of a mapping besides `PTE_R`. -/
structure Perm where
  w : Bool
  x : Bool
  u : Bool
  deriving DecidableEq, Repr

/-- A valid last-level entry. -/
structure Pte where
  pa : Nat
  perm : Perm
  deriving DecidableEq, Repr

/-- A page of 512 entries, and its physical address. -/
structure Table (α : Type) where
  page : Nat
  entry : Fin 512 → Option α

/-- A page table whose root is at level `n`. -/
def PageTable : Nat → Type
  | 0 => Table Pte
  | n + 1 => Table (PageTable n)

/-- A user page table. -/
abbrev Pagetable := PageTable 2

/-- `PX(level, va)`. -/
def px (level va : Nat) : Fin 512 :=
  ⟨va / 2 ^ (12 + 9 * level) % 512, Nat.mod_lt _ (by decide)⟩

/-- A table without entries. -/
def PageTable.empty (page : Nat) : (n : Nat) → PageTable n
  | 0 => { page := page, entry := fun _ => none }
  | _ + 1 => { page := page, entry := fun _ => none }

/-- `walk(pagetable, va, 0)`: the entry for `va`, `none` if a table is missing
on the way. -/
def PageTable.slot : (n : Nat) → PageTable n → Nat → Option (Option Pte)
  | 0, t, va => some (t.entry (px 0 va))
  | n + 1, t, va => (t.entry (px (n + 1) va)).bind fun c => PageTable.slot n c va

/-- Store into the entry for `va`. -/
def PageTable.setSlot : (n : Nat) → PageTable n → Nat → Option Pte → PageTable n
  | 0, t, va, e => { page := t.page, entry := update t.entry (px 0 va) e }
  | n + 1, t, va, e =>
    let i := px (n + 1) va
    { page := t.page
      entry := update t.entry i ((t.entry i).map fun c => PageTable.setSlot n c va e) }

/-- `kalloc` and clear a table of level `n`. -/
def newTable (n : Nat) : MemM (Option (PageTable n)) := do
  let pa ← kalloc
  if pa = 0 then pure none
  else do
    memset pa 0
    pure (some (PageTable.empty pa n))

/-- The table an entry points to, a new one if the entry is empty. -/
def tableBelow (n : Nat) : Option (PageTable n) → MemM (Option (PageTable n))
  | some c => pure (some c)
  | none => newTable n

/-- The loop of `walk(pagetable, va, 1)`: make the missing tables on the way to
`va`. The tables made before a `kalloc` fails stay. -/
def walkAlloc : (n : Nat) → PageTable n → Nat → MemM (PageTable n × Bool)
  | 0, t, _ => pure (t, true)
  | n + 1, t, va => do
    let i := px (n + 1) va
    match ← tableBelow n (t.entry i) with
    | none => pure (t, false)
    | some c => do
      let (c', ok) ← walkAlloc n c va
      pure ({ page := t.page, entry := update t.entry i (some c') }, ok)

/-- `walk(pagetable, va, 1)`. -/
def walk (pt : Pagetable) (va : Nat) : MemM (Pagetable × Bool) :=
  if MAXVA ≤ va then .stop .walk else walkAlloc 2 pt va

/-- `walk(pagetable, va, 0)`. -/
def walkNoAlloc (pt : Pagetable) (va : Nat) : MemM (Option (Option Pte)) :=
  if MAXVA ≤ va then .stop .walk else pure (PageTable.slot 2 pt va)

/-- `walkaddr`: the physical page of a user page, 0 if there is none. -/
def walkaddr (pt : Pagetable) (va : Nat) : Nat :=
  if MAXVA ≤ va then 0
  else
    match PageTable.slot 2 pt va with
    | some (some pte) => if pte.perm.u then pte.pa else 0
    | _ => 0

/-- `ismapped`. -/
def ismapped (pt : Pagetable) (va : Nat) : MemM Bool := do
  let slot ← walkNoAlloc pt va
  pure slot.join.isSome

/-- The loop of `mappages`, for `k` pages. -/
def mapLoop (perm : Perm) : Nat → Pagetable → Nat → Nat → MemM (Pagetable × Bool)
  | 0, pt, _, _ => pure (pt, true)
  | k + 1, pt, a, pa => do
    let (pt, ok) ← walk pt a
    if ok = false then pure (pt, false)
    else if (PageTable.slot 2 pt a).join.isSome then .stop .mappagesRemap
    else mapLoop perm k (PageTable.setSlot 2 pt a (some ⟨pa, perm⟩)) (a + PGSIZE) (pa + PGSIZE)

/-- `mappages`: the table after it, and whether it succeeded. -/
def mappages (pt : Pagetable) (va size pa : Nat) (perm : Perm) : MemM (Pagetable × Bool) :=
  if va % PGSIZE ≠ 0 then .stop .mappagesVa
  else if size % PGSIZE ≠ 0 then .stop .mappagesSize
  else if size = 0 then .stop .mappagesZero
  else mapLoop perm (size / PGSIZE) pt va pa

/-- `uvmcreate`: an empty table, `none` if there is no page for it. -/
def uvmcreate : MemM (Option Pagetable) := newTable 2

/-- The loop of `uvmunmap`, for `k` pages. -/
def unmapLoop (doFree : Bool) : Nat → Pagetable → Nat → MemM Pagetable
  | 0, pt, _ => pure pt
  | k + 1, pt, a => do
    match (← walkNoAlloc pt a).join with
    | none => unmapLoop doFree k pt (a + PGSIZE)
    | some pte => do
      Prog.when (doFree = true) (kfree pte.pa)
      unmapLoop doFree k (PageTable.setSlot 2 pt a none) (a + PGSIZE)

/-- `uvmunmap`. -/
def uvmunmap (pt : Pagetable) (va npages : Nat) (doFree : Bool) : MemM Pagetable :=
  if va % PGSIZE ≠ 0 then .stop .uvmunmap else unmapLoop doFree npages pt va

/-- `uvmdealloc`: the table after it; the size it returns is `min oldsz newsz`. -/
def uvmdealloc (pt : Pagetable) (oldsz newsz : Nat) : MemM Pagetable :=
  if oldsz ≤ newsz then pure pt
  else if pgRoundUp newsz < pgRoundUp oldsz then
    uvmunmap pt (pgRoundUp newsz) ((pgRoundUp oldsz - pgRoundUp newsz) / PGSIZE) true
  else pure pt

/-- The loop of `uvmalloc`, for `k` pages from `a` on; `start` is where the
growth began. -/
def allocLoop (perm : Perm) (start : Nat) : Nat → Pagetable → Nat → MemM (Pagetable × Bool)
  | 0, pt, _ => pure (pt, true)
  | k + 1, pt, a => do
    let mem ← kalloc
    if mem = 0 then do
      let pt ← uvmdealloc pt a start
      pure (pt, false)
    else do
      memset mem 0
      let (pt, ok) ← mappages pt a PGSIZE mem perm
      if ok = false then do
        kfree mem
        let pt ← uvmdealloc pt a start
        pure (pt, false)
      else allocLoop perm start k pt (a + PGSIZE)

/-- Number of pages from `oldsz`, rounded up, to `newsz`. -/
def growPages (oldsz newsz : Nat) : Nat := (pgRoundUp newsz - pgRoundUp oldsz) / PGSIZE

/-- `uvmalloc`: the table and the new size, 0 on failure. -/
def uvmalloc (pt : Pagetable) (oldsz newsz : Nat) (w x : Bool) : MemM (Pagetable × Nat) :=
  if newsz < oldsz then pure (pt, oldsz)
  else do
    let (pt, ok) ← allocLoop ⟨w, x, true⟩ (pgRoundUp oldsz) (growPages oldsz newsz) pt
      (pgRoundUp oldsz)
    pure (pt, if ok then newsz else 0)

/-- The indexes of a table, which `freewalk` goes through. -/
@[irreducible] def indexes : List (Fin 512) := List.finRange 512

/-- `freewalk`: the tables below first, then the table itself. -/
def freewalk : (n : Nat) → PageTable n → MemM Unit
  | 0, t => do
    Prog.each (fun i => Prog.when ((t.entry i).isSome) (.stop .freewalkLeaf)) indexes
    kfree t.page
  | n + 1, t => do
    Prog.each (fun i =>
      match t.entry i with
      | some c => freewalk n c
      | none => pure ()) indexes
    kfree t.page

/-- `uvmfree`. -/
def uvmfree (pt : Pagetable) (sz : Nat) : MemM Unit := do
  let pt ← (if 0 < sz then uvmunmap pt 0 (pgRoundUp sz / PGSIZE) true else pure pt)
  freewalk 2 pt

/-- The loop of `uvmcopy`: `k` pages from `i` on still to be copied. -/
def copyLoop (old : Pagetable) : Nat → Pagetable → Nat → MemM (Pagetable × Bool)
  | 0, new, _ => pure (new, true)
  | k + 1, new, i => do
    match (← walkNoAlloc old i).join with
    | none => copyLoop old k new (i + PGSIZE)
    | some pte => do
      let mem ← kalloc
      if mem = 0 then do
        let new ← uvmunmap new 0 (i / PGSIZE) true
        pure (new, false)
      else do
        .modify fun m => { m with byte := move m.byte mem pte.pa PGSIZE }
        let (new, ok) ← mappages new i PGSIZE mem pte.perm
        if ok = false then do
          kfree mem
          let new ← uvmunmap new 0 (i / PGSIZE) true
          pure (new, false)
        else copyLoop old k new (i + PGSIZE)

/-- `uvmcopy`: the new table, and whether everything was copied. -/
def uvmcopy (old new : Pagetable) (sz : Nat) : MemM (Pagetable × Bool) :=
  copyLoop old (pgRoundUp sz / PGSIZE) new 0

/-- `uvmclear`: user code loses access to the page. -/
def uvmclear (pt : Pagetable) (va : Nat) : MemM Pagetable := do
  match ← walkNoAlloc pt va with
  | none => .stop .uvmclear
  | some none => pure pt
  | some (some pte) =>
    pure (PageTable.setSlot 2 pt va (some { pte with perm := { pte.perm with u := false } }))

/-! ### A process's page table (proc.c) -/

/-- `proc_pagetable`: a table that maps the trampoline and the trapframe. -/
def procPagetable (trapframe : Nat) : MemM (Option Pagetable) := do
  match ← uvmcreate with
  | none => pure none
  | some pt => do
    let trampoline ← .gets Mem.trampoline
    let (pt, ok) ← mappages pt TRAMPOLINE PGSIZE trampoline ⟨false, true, false⟩
    if ok = false then do
      uvmfree pt 0
      pure none
    else do
      let (pt, ok) ← mappages pt TRAPFRAME PGSIZE trapframe ⟨true, false, false⟩
      if ok = false then do
        let pt ← uvmunmap pt TRAMPOLINE 1 false
        uvmfree pt 0
        pure none
      else pure (some pt)

/-- `proc_freepagetable`. -/
def procFreepagetable (pt : Pagetable) (sz : Nat) : MemM Unit := do
  let pt ← uvmunmap pt TRAMPOLINE 1 false
  let pt ← uvmunmap pt TRAPFRAME 1 false
  uvmfree pt sz

/-! ### Copies between kernel and user memory -/

/-- The user memory the copy functions see: that of the running process, and
the page table they were given if it is not the process's own (`kexec` fills
the table of the new image). -/
structure User where
  mem : Mem
  /-- `p->pagetable` -/
  pt : Pagetable
  /-- `p->sz` -/
  sz : Nat
  other : Option Pagetable

/-- The page table that is walked. -/
def User.table (u : User) : Pagetable := u.other.getD u.pt

/-- Programs over user memory. -/
abbrev UserM := Prog Panic User

/-- Physical memory as a part of user memory. -/
def User.memPart : Prog.Part User Mem where
  get u := u.mem
  put u m := { u with mem := m }

/-- Run a program over physical memory. -/
def onMem {α : Type} (m : MemM α) : UserM α := m.zoom User.memPart id

/-- `vmfault`: the physical page newly mapped at `va`, 0 if none was. The
mapping is made in the process's own table. -/
def vmfault (va : Nat) : UserM Nat := do
  let u ← .gets id
  if u.sz ≤ va then pure 0
  else do
    let va := pgRoundDown va
    if ← onMem (ismapped u.table va) then pure 0
    else do
      let mem ← onMem kalloc
      if mem = 0 then pure 0
      else do
        onMem (memset mem 0)
        let (pt, ok) ← onMem (mappages u.pt va PGSIZE mem ⟨true, false, true⟩)
        .modify fun u => { u with pt := pt }
        if ok = false then do
          onMem (kfree mem)
          pure 0
        else pure mem

/-- The physical page behind a user address, faulted in if need be. -/
def userPage (va0 : Nat) : UserM Nat := do
  let u ← .gets id
  let pa0 := walkaddr u.table va0
  if pa0 = 0 then vmfault va0 else pure pa0

/-- The loop of `copyout`; each turn stores at least one byte, so as many turns
as bytes are enough. -/
def copyoutLoop : Nat → Nat → List UInt8 → UserM Bool
  | 0, _, _ => pure true
  | fuel + 1, dstva, src =>
    if src = [] then pure true
    else do
      let va0 := pgRoundDown dstva
      if MAXVA ≤ va0 then pure false
      else do
        let pa0 ← userPage va0
        if pa0 = 0 then pure false
        else do
          let u ← .gets id
          match ← onMem (walkNoAlloc u.table va0) with
          | none => .stop .wild
          | some none => pure false
          | some (some pte) =>
            if pte.perm.w = false then pure false
            else do
              let n := min (PGSIZE - (dstva - va0)) src.length
              onMem (.modify fun m =>
                { m with byte := store m.byte (pa0 + (dstva - va0)) (src.take n) })
              copyoutLoop fuel (va0 + PGSIZE) (src.drop n)

/-- `copyout`: whether all bytes were stored. -/
def copyout (dstva : Nat) (src : List UInt8) : UserM Bool :=
  copyoutLoop src.length dstva src

/-- The loop of `copyin`. -/
def copyinLoop : Nat → Nat → Nat → UserM (List UInt8 × Bool)
  | 0, _, _ => pure ([], true)
  | fuel + 1, srcva, len =>
    if len = 0 then pure ([], true)
    else do
      let va0 := pgRoundDown srcva
      let pa0 ← userPage va0
      if pa0 = 0 then pure ([], false)
      else do
        let n := min (PGSIZE - (srcva - va0)) len
        let u ← .gets id
        let bs := load u.mem.byte (pa0 + (srcva - va0)) n
        let (rest, ok) ← copyinLoop fuel (va0 + PGSIZE) (len - n)
        pure (bs ++ rest, ok)

/-- `copyin`: the bytes fetched, and whether these are all. -/
def copyin (srcva len : Nat) : UserM (List UInt8 × Bool) :=
  copyinLoop len srcva len

/-- The inner loop of `copyinstr`: the bytes up to and including the first NUL,
and whether there is one. -/
def untilNul : List UInt8 → List UInt8 × Bool
  | [] => ([], false)
  | b :: bs =>
    if b = 0 then ([0], true)
    else
      let (rest, got) := untilNul bs
      (b :: rest, got)

/-- The outer loop of `copyinstr`. It does not fault pages in. -/
def copyinstrLoop : Nat → Nat → Nat → UserM (List UInt8 × Bool)
  | 0, _, _ => pure ([], false)
  | fuel + 1, srcva, max =>
    if max = 0 then pure ([], false)
    else do
      let va0 := pgRoundDown srcva
      let u ← .gets id
      let pa0 := walkaddr u.table va0
      if pa0 = 0 then pure ([], false)
      else do
        let n := min (PGSIZE - (srcva - va0)) max
        let (bs, got) := untilNul (load u.mem.byte (pa0 + (srcva - va0)) n)
        if got then pure (bs, true)
        else do
          let (rest, got) ← copyinstrLoop fuel (va0 + PGSIZE) (max - n)
          pure (bs ++ rest, got)

/-- `copyinstr`: the bytes stored at `dst`, and whether the last one is the NUL. -/
def copyinstr (srcva max : Nat) : UserM (List UInt8 × Bool) :=
  copyinstrLoop max srcva max

end Xv6.Vm
