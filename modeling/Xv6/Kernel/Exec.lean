import Xv6.Kernel.Proc

/-!
# xv6 — exec (`kernel/exec.c`, `sys_exec`)

`kexec` builds the new image in a page table of its own and only then replaces
the old one; every failure before that point goes through one exit that gives
back the new table, the inode and the transaction.

The strings that `sys_exec` fetches from user memory are given by the caller of
the model (`none` for one that cannot be fetched); the array that holds their
addresses is read from user memory.
-/

namespace Xv6.Kernel

open ByteBuffer

/-- The fields of `struct elfhdr` that are used. -/
structure ElfHeader where
  magic : Nat
  entry : Nat
  phoff : Nat
  phnum : Nat

/-- `sizeof(struct elfhdr)`. -/
def ELFHDR : Nat := 64
/-- `ELF_MAGIC`. -/
def ELF_MAGIC : Nat := 0x464C457F

/-- The header stored in the bytes. -/
def ElfHeader.ofBytes (bs : List UInt8) : ElfHeader :=
  let b : Buffer := fun i => bs.getD i 0
  { magic := leField b 0 4, entry := leField b 24 8, phoff := leField b 32 8
    phnum := leField b 56 2 }

/-- The fields of `struct proghdr` that are used. -/
structure ProgHeader where
  type : Nat
  flags : Nat
  off : Nat
  vaddr : Nat
  filesz : Nat
  memsz : Nat

/-- `sizeof(struct proghdr)`. -/
def PROGHDR : Nat := 56
/-- `ELF_PROG_LOAD`. -/
def ELF_PROG_LOAD : Nat := 1

/-- The program header stored in the bytes. -/
def ProgHeader.ofBytes (bs : List UInt8) : ProgHeader :=
  let b : Buffer := fun i => bs.getD i 0
  { type := leField b 0 4, flags := leField b 4 4, off := leField b 8 8
    vaddr := leField b 16 8, filesz := leField b 32 8, memsz := leField b 40 8 }

/-- The loop of `loadseg`, `k` pages from offset `i` on. -/
def loadLoop (pt : Vm.Pagetable) (va : Nat) (ip : Fs.IPtr) (offset sz : Nat) : Nat → Nat → KM Bool
  | 0, _ => pure true
  | k + 1, i => do
    let pa := Vm.walkaddr pt (va + i)
    if pa = 0 then .stop (.kern .loadseg)
    else do
      let n := if sz - i < Vm.PGSIZE then sz - i else Vm.PGSIZE
      let r ← onFsMem (Fs.readi ip (fun tot bs => do
        .modify fun m => { m with byte := store m.byte (pa + tot) bs }
        pure true) (u32 (offset + i)) n)
      if r ≠ (n : Int) then pure false else loadLoop pt va ip offset sz k (i + Vm.PGSIZE)

/-- `loadseg`; offset and size are passed as `uint`. -/
def loadseg (pt : Vm.Pagetable) (va : Nat) (ip : Fs.IPtr) (offset sz : Nat) : KM Bool :=
  loadLoop pt va ip (u32 offset) (u32 sz) (Vm.pgRoundUp (u32 sz) / Vm.PGSIZE) 0

/-- The loop of `kexec` over the program headers: the table, the size reached
and whether all went well. -/
def loadSegments (ip : Fs.IPtr) :
    Nat → Nat → Vm.Pagetable → Nat → KM (Vm.Pagetable × Nat × Bool)
  | 0, _, pt, sz => pure (pt, sz, true)
  | k + 1, off, pt, sz => do
    let (r, bs) ← onFs (Fs.readiKernel ip off PROGHDR)
    let ph := ProgHeader.ofBytes bs
    if r ≠ (PROGHDR : Int) then pure (pt, sz, false)
    else if ph.type ≠ ELF_PROG_LOAD then loadSegments ip k (u32 (off + PROGHDR)) pt sz
    else if ph.memsz < ph.filesz then pure (pt, sz, false)
    else if u64 (ph.vaddr + ph.memsz) < ph.vaddr then pure (pt, sz, false)
    else if ph.vaddr % Vm.PGSIZE ≠ 0 then pure (pt, sz, false)
    else do
      let (pt, sz1) ← onMem (Vm.uvmalloc pt sz (ph.vaddr + ph.memsz)
        (ph.flags &&& 2 ≠ 0) (ph.flags &&& 1 ≠ 0))
      if sz1 = 0 then pure (pt, sz, false)
      else do
        if ← loadseg pt ph.vaddr ip ph.off ph.filesz then
          loadSegments ip k (u32 (off + PROGHDR)) pt sz1
        else pure (pt, sz1, false)

/-- The part of `kexec` that reads the file, with `ip` locked: the header and
the table, its size and whether all went well; `none` before there is a table. -/
def loadImage (p : Pid) (ip : Fs.IPtr) : KM (ElfHeader × Option (Vm.Pagetable × Nat × Bool)) := do
  let (r, bs) ← onFs (Fs.readiKernel ip 0 ELFHDR)
  let elf := ElfHeader.ofBytes bs
  if r ≠ (ELFHDR : Int) then pure (elf, none)
  else if elf.magic ≠ ELF_MAGIC then pure (elf, none)
  else do
    let k ← .gets id
    match ← onMem (Vm.procPagetable (k.proc p).trapframe) with
    | none => pure (elf, none)
    | some pt => do
      let img ← loadSegments ip elf.phnum (u32 elf.phoff) pt 0
      pure (elf, some img)

/-- `sp -= n; sp -= sp % 16`. -/
def pushDown (sp n : Nat) : Nat :=
  let sp := u64 ((sp : Int) - n)
  sp - sp % 16

/-- The loop of `kexec` over the arguments: the stack pointer and the addresses
of the strings, or nothing if they do not fit. -/
def pushArgs (p : Pid) (pt : Vm.Pagetable) (stackbase : Nat) :
    List (List UInt8) → Nat → List Nat → KM (Option (Nat × List Nat))
  | [], sp, ustack => pure (some (sp, ustack))
  | arg :: args, sp, ustack => do
    if MAXARG ≤ ustack.length then pure none
    else do
      let sp := pushDown sp (arg.length + 1)
      if sp < stackbase then pure none
      else do
        if ← onUser p (some pt) (Vm.copyout sp (arg ++ [0])) then
          pushArgs p pt stackbase args sp (ustack ++ [sp])
        else pure none

/-- The part of `kexec` that makes the stack: the table, its size, and the
stack pointer if all went well. -/
def makeStack (p : Pid) (pt : Vm.Pagetable) (sz : Nat) (argv : List (List UInt8)) :
    KM (Vm.Pagetable × Nat × Option Nat) := do
  let sz := Vm.pgRoundUp sz
  let (pt, sz1) ← onMem (Vm.uvmalloc pt sz (sz + (USERSTACK + 1) * Vm.PGSIZE) true false)
  if sz1 = 0 then pure (pt, sz, none)
  else do
    let pt ← onMem (Vm.uvmclear pt (sz1 - (USERSTACK + 1) * Vm.PGSIZE))
    let stackbase := sz1 - USERSTACK * Vm.PGSIZE
    match ← pushArgs p pt stackbase argv sz1 [] with
    | none => pure (pt, sz1, none)
    | some (sp, ustack) => do
      let sp := pushDown sp ((argv.length + 1) * 8)
      if sp < stackbase then pure (pt, sz1, none)
      else do
        let words := (ustack ++ [0]).flatMap (leBytes 8)
        if ← onUser p (some pt) (Vm.copyout sp words) then pure (pt, sz1, some sp)
        else pure (pt, sz1, none)

/-- `safestrcpy(p->name, last, 16)`, `last` being the last element of the path. -/
def lastName (path : Fs.Path) : List UInt8 :=
  ((path.reverse.takeWhile (· ≠ Fs.slash)).reverse).take 15

/-- The end of `kexec`: commit to the new image and free the old one. -/
def commitImage (p : Pid) (path : Fs.Path) (pt : Vm.Pagetable) (sz entry sp : Nat) : KM Unit := do
  let k ← .gets id
  let old := k.proc p
  updProc p fun pr => { pr with
    name := lastName path, pagetable := some pt, sz := sz
    tf := { pr.tf with a1 := sp, epc := entry, sp := sp } }
  match old.pagetable with
  | none => .stop (.vm .wild)
  | some opt => onMem (Vm.procFreepagetable opt old.sz)

/-- `kexec`. -/
def kexec (p : Pid) (path : Fs.Path) (argv : List (List UInt8)) : KM Int := do
  onFs Fs.beginOp
  let k ← .gets id
  match ← onFs (Fs.namei (k.proc p).cwd path) with
  | none => do
    onFs Fs.endOp
    pure (-1)
  | some ip => do
    onFs (Fs.ilock ip)
    match ← loadImage p ip with
    | (_, none) => do
      onFs do
        Fs.iunlockput ip
        Fs.endOp
      pure (-1)
    | (_, some (pt, sz, false)) => do
      onMem (Vm.procFreepagetable pt sz)
      onFs do
        Fs.iunlockput ip
        Fs.endOp
      pure (-1)
    | (elf, some (pt, sz, true)) => do
      onFs do
        Fs.iunlockput ip
        Fs.endOp
      match ← makeStack p pt sz argv with
      | (pt, sz, none) => do
        onMem (Vm.procFreepagetable pt sz)
        pure (-1)
      | (pt, sz, some sp) => do
        commitImage p path pt sz elf.entry sp
        pure argv.length

/-! ### sys_exec -/

/-- `fetchaddr`. -/
def fetchaddr (p : Pid) (addr : Nat) : KM (Option Nat) := do
  let k ← .gets id
  if (k.proc p).sz ≤ addr ∨ (k.proc p).sz < u64 (addr + 8) then pure none
  else do
    let (bs, ok) ← copyin p addr 8
    pure (if ok then some (leField (fun i => bs.getD i 0) 0 8) else none)

/-- The loop of `sys_exec` over `argv`, `n` slots of which are left: the pages
taken so far and, if all went well, the strings. -/
def fetchArgs (p : Pid) (uargv : Nat) (str : Nat → Option (List UInt8)) :
    Nat → Nat → List Nat → List (List UInt8) → KM (List Nat × Option (List (List UInt8)))
  | 0, _, pages, _ => pure (pages, none)
  | n + 1, i, pages, args => do
    match ← fetchaddr p (u64 (uargv + 8 * i)) with
    | none => pure (pages, none)
    | some 0 => pure (pages, some args)
    | some _ => do
      let page ← onMem Vm.kalloc
      if page = 0 then pure (pages, none)
      else
        -- fetchstr finds the NUL within PGSIZE bytes, or fails
        match (str i).filter fun s => s.length < Vm.PGSIZE with
        | none => pure (pages ++ [page], none)
        | some s => fetchArgs p uargv str n (i + 1) (pages ++ [page]) (args ++ [s])

/-- `sys_exec`. -/
def sysExec (p : Pid) (path : Option Fs.Path) (uargv : Nat) (str : Nat → Option (List UInt8)) :
    KM Int := do
  match path with
  | none => pure (-1)
  | some path => do
    match ← fetchArgs p uargv str MAXARG 0 [] [] with
    | (pages, none) => do
      Prog.each (fun page => onMem (Vm.kfree page)) pages
      pure (-1)
    | (pages, some args) => do
      let r ← kexec p path args
      Prog.each (fun page => onMem (Vm.kfree page)) pages
      pure r

end Xv6.Kernel
