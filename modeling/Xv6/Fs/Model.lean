import Mathlib.Data.List.FinRange
import Xv6.Lib.Bytes
import Xv6.Lib.Prog
import Xv6.Param

/-!
# xv6 — the file system (`kernel/fs.c`)

Block allocator, inodes, file contents, directories and path names, as one
process executes them between `begin_op` and `end_op`.

* The disk is kept by kind: the inode table, the free map and the data blocks.
  A block number that the allocator hands out is looked up among the data
  blocks; that it never is a block of the other kinds is a result, not part of
  the model.
* What is kept here is what the buffer cache shows, so a `bread` that is
  followed by a change of `bp->data` changes the block. `log_write` records the
  block number; the log itself is the subject of `Xv6.Log`.
* There is one device, so device numbers are left out.
* A sleep lock that is already held cannot be taken: a process that tries to
  lock an inode twice stops (`Panic.hang`).
-/

namespace Xv6.Fs

open ByteBuffer Function

/-- Block size. -/
def BSIZE : Nat := 1024
/-- Direct blocks of an inode. -/
def NDIRECT : Nat := 12
/-- Block numbers in an indirect block. -/
def NINDIRECT : Nat := BSIZE / 4
/-- Largest file, in blocks. -/
def MAXFILE : Nat := NDIRECT + NINDIRECT
/-- Inodes per block. -/
def IPB : Nat := BSIZE / 64
/-- Bitmap bits per block. -/
def BPB : Nat := BSIZE * 8
/-- Root inode number. -/
def ROOTINO : Nat := 1
/-- Characters in a directory entry's name. -/
def DIRSIZ : Nat := 14
/-- `sizeof(struct dirent)`. -/
def DIRENT : Nat := 16

/-- What the functions of the file system stop with. -/
inductive Panic where
  | freeingFreeBlock
  | igetNoInodes
  | ilock
  | ilockNoType
  | iunlock
  | bmapRange
  | dirlookupNotDir
  | dirlookupRead
  | dirlinkRead
  | isdiremptyReadi
  | unlinkNlink
  | unlinkWritei
  | logTooBig
  | logOutsideTrans
  /-- a wait that nobody ends, or a loop that does not -/
  | hang
  /-- a null pointer is followed; `kerneltrap` panics -/
  | wild
  deriving DecidableEq, Repr

/-! ### State -/

/-- The type of an inode; `free` is 0. -/
inductive IType where
  | free
  | dir
  | file
  | device
  deriving DecidableEq, Repr

/-- The value of an integer stored in a `short`. -/
def toShort (x : Int) : Int := (x + 32768) % 65536 - 32768

/-- The part of an inode that lives on disk. -/
structure Dinode where
  type : IType
  major : Int
  minor : Int
  nlink : Int
  size : Nat
  /-- `addrs[0..NDIRECT]`, the last one the indirect block -/
  addrs : Nat → Nat

/-- An inode of zeros. -/
def Dinode.zero : Dinode :=
  { type := .free, major := 0, minor := 0, nlink := 0, size := 0, addrs := fun _ => 0 }

/-- An entry of the inode table in memory. -/
structure Inode where
  inum : Nat
  ref : Int
  valid : Bool
  locked : Bool
  d : Dinode

/-- The fields of the super block that are used. -/
structure Superblock where
  size : Nat
  ninodes : Nat
  inodestart : Nat
  bmapstart : Nat

/-- A pointer into the inode table. -/
abbrev IPtr := Fin NINODE

/-- The file system: the disk as the buffer cache shows it, the inode table and
the current transaction. -/
structure State where
  sb : Superblock
  dinode : Nat → Dinode
  bitmap : Nat → Bool
  data : Nat → Buffer
  inode : IPtr → Inode
  /-- `log.outstanding` -/
  outstanding : Int
  /-- `log.lh.block[0..n)` -/
  lh : List Nat

/-- Programs over the file system. -/
abbrev FsM := Prog Panic State

/-- `IBLOCK`. -/
def Superblock.iblock (sb : Superblock) (inum : Nat) : Nat := inum / IPB + sb.inodestart
/-- `BBLOCK`. -/
def Superblock.bblock (sb : Superblock) (b : Nat) : Nat := b / BPB + sb.bmapstart
/-- The first block after the free map. -/
def Superblock.nmeta (sb : Superblock) : Nat := sb.bmapstart + sb.size / BPB + 1

/-- Change an entry of the inode table. -/
def State.setInode (fs : State) (ip : IPtr) (f : Inode → Inode) : State :=
  { fs with inode := update fs.inode ip (f (fs.inode ip)) }

/-- Change an entry of the inode table. -/
def setInode (ip : IPtr) (f : Inode → Inode) : FsM Unit :=
  .modify fun fs => fs.setInode ip f

/-- Change the in-memory copy of an inode's on-disk part. -/
def setDinode (ip : IPtr) (f : Dinode → Dinode) : FsM Unit :=
  setInode ip fun i => { i with d := f i.d }

/-- The in-memory copy of an inode's on-disk part. -/
def dinodeOf (ip : IPtr) : FsM Dinode := .gets fun fs => (fs.inode ip).d

/-! ### Transactions -/

/-- `begin_op`, with nobody else to wait for. -/
def beginOp : FsM Unit := do
  let fs ← .gets id
  if (fs.lh.length : Int) + (fs.outstanding + 1) * MAXOPBLOCKS > LOGBLOCKS then .stop .hang
  else .modify fun fs => { fs with outstanding := fs.outstanding + 1 }

/-- `end_op`; `commit` empties the list of logged blocks. -/
def endOp : FsM Unit := .modify fun fs =>
  { fs with outstanding := fs.outstanding - 1
            lh := if fs.outstanding - 1 = 0 then [] else fs.lh }

/-- `log_write` of block `b`. -/
def logWrite (b : Nat) : FsM Unit := do
  let fs ← .gets id
  if LOGBLOCKS ≤ fs.lh.length then .stop .logTooBig
  else if fs.outstanding < 1 then .stop .logOutsideTrans
  else .modify fun fs => { fs with lh := if b ∈ fs.lh then fs.lh else fs.lh ++ [b] }

/-! ### Blocks -/

/-- `balloc`: the first free block, marked and zeroed; 0 if there is none. -/
def balloc : FsM Nat := do
  let fs ← .gets id
  match (List.range fs.sb.size).find? fun b => fs.bitmap b = false with
  | none => pure 0
  | some b => do
    .modify fun fs => { fs with bitmap := update fs.bitmap b true }
    logWrite (fs.sb.bblock b)
    .modify fun fs => { fs with data := update fs.data b fun _ => 0 }
    logWrite b
    pure b

/-- `bfree`. -/
def bfree (b : Nat) : FsM Unit := do
  let fs ← .gets id
  if fs.bitmap b = false then .stop .freeingFreeBlock
  else do
    .modify fun fs => { fs with bitmap := update fs.bitmap b false }
    logWrite (fs.sb.bblock b)

/-! ### Inodes -/

/-- `iupdate`. -/
def iupdate (ip : IPtr) : FsM Unit := do
  .modify fun fs => { fs with
    dinode := update fs.dinode (fs.inode ip).inum (fs.inode ip).d }
  let fs ← .gets id
  logWrite (fs.sb.iblock (fs.inode ip).inum)

/-- `iget`. -/
def iget (inum : Nat) : FsM IPtr := do
  let fs ← .gets id
  match (List.finRange NINODE).find? fun ip =>
      0 < (fs.inode ip).ref ∧ (fs.inode ip).inum = inum with
  | some ip => do
    setInode ip fun i => { i with ref := i.ref + 1 }
    pure ip
  | none =>
    match (List.finRange NINODE).find? fun ip => (fs.inode ip).ref = 0 with
    | none => .stop .igetNoInodes
    | some ip => do
      setInode ip fun i => { i with inum := inum, ref := 1, valid := false }
      pure ip

/-- `ialloc`. -/
def ialloc (type : IType) : FsM (Option IPtr) := do
  let fs ← .gets id
  match (List.range' 1 (fs.sb.ninodes - 1)).find? fun i => (fs.dinode i).type = .free with
  | none => pure none
  | some inum => do
    .modify fun fs => { fs with
      dinode := update fs.dinode inum { Dinode.zero with type := type } }
    logWrite (fs.sb.iblock inum)
    let ip ← iget inum
    pure (some ip)

/-- `idup`. -/
def idup (ip : IPtr) : FsM Unit := setInode ip fun i => { i with ref := i.ref + 1 }

/-- `ilock`. -/
def ilock (ip : IPtr) : FsM Unit := do
  let fs ← .gets id
  if (fs.inode ip).ref < 1 then .stop .ilock
  else if (fs.inode ip).locked then .stop .hang
  else if (fs.inode ip).valid then setInode ip fun i => { i with locked := true }
  else if (fs.dinode (fs.inode ip).inum).type = .free then .stop .ilockNoType
  else setInode ip fun i => { i with locked := true, valid := true, d := fs.dinode i.inum }

/-- `iunlock`. -/
def iunlock (ip : IPtr) : FsM Unit := do
  let fs ← .gets id
  if (fs.inode ip).locked = false ∨ (fs.inode ip).ref < 1 then .stop .iunlock
  else setInode ip fun i => { i with locked := false }

/-- `if((addr = ip->addrs[k]) == 0) ip->addrs[k] = balloc()`: the block number
in slot `k` of the inode, 0 if there is none and no block is left. -/
def addrSlot (ip : IPtr) (k : Nat) : FsM Nat := do
  let d ← dinodeOf ip
  if d.addrs k = 0 then do
    let addr ← balloc
    if addr = 0 then pure 0
    else do
      setDinode ip fun d => { d with addrs := update d.addrs k addr }
      pure addr
  else pure (d.addrs k)

/-- Entry `j` of an indirect block. -/
def indirect (b : Buffer) (j : Nat) : Nat := le32 b (4 * j)

/-- `bmap`. -/
def bmap (ip : IPtr) (bn : Nat) : FsM Nat :=
  if bn < NDIRECT then addrSlot ip bn
  else if bn - NDIRECT < NINDIRECT then do
    let ind ← addrSlot ip NDIRECT
    if ind = 0 then pure 0
    else do
      let fs ← .gets id
      let addr := indirect (fs.data ind) (bn - NDIRECT)
      if addr = 0 then do
        let addr ← balloc
        if addr = 0 then pure 0
        else do
          .modify fun fs =>
            let b := put32 (fs.data ind) (4 * (bn - NDIRECT)) addr
            { fs with data := update fs.data ind b }
          logWrite ind
          pure addr
      else pure addr
  else .stop .bmapRange

/-- `if(addr) bfree(addr)`. -/
def bfreeIf (addr : Nat) : FsM Unit := Prog.when (addr ≠ 0) (bfree addr)

/-- `bfree(ip->addrs[k]); ip->addrs[k] = 0`. -/
def freeSlot (ip : IPtr) (k : Nat) : FsM Unit := do
  let d ← dinodeOf ip
  bfree (d.addrs k)
  setDinode ip fun d => { d with addrs := update d.addrs k 0 }

/-- Free the blocks an indirect block lists. -/
def freeIndirect (b : Nat) : FsM Unit := do
  let fs ← .gets id
  Prog.each (fun j => bfreeIf (indirect (fs.data b) j)) (List.range NINDIRECT)

/-- `itrunc`. -/
def itrunc (ip : IPtr) : FsM Unit := do
  Prog.each (fun i => do
    let d ← dinodeOf ip
    Prog.when (d.addrs i ≠ 0) (freeSlot ip i)) (List.range NDIRECT)
  let d ← dinodeOf ip
  Prog.when (d.addrs NDIRECT ≠ 0) do
    freeIndirect (d.addrs NDIRECT)
    freeSlot ip NDIRECT
  setDinode ip fun d => { d with size := 0 }
  iupdate ip

/-- The part of `iput` that truncates and frees an inode. -/
def ifree (ip : IPtr) : FsM Unit := do
  let i ← .gets fun fs => fs.inode ip
  if i.locked then .stop .hang
  else do
    setInode ip fun i => { i with locked := true }
    itrunc ip
    setDinode ip fun d => { d with type := .free }
    iupdate ip
    setInode ip fun i => { i with valid := false, locked := false }

/-- `iput`. -/
def iput (ip : IPtr) : FsM Unit := do
  let i ← .gets fun fs => fs.inode ip
  Prog.when (i.ref = 1 ∧ i.valid = true ∧ i.d.nlink = 0) (ifree ip)
  setInode ip fun i => { i with ref := i.ref - 1 }

/-- `iunlockput`. -/
def iunlockput (ip : IPtr) : FsM Unit := do
  iunlock ip
  iput ip

/-- The body of `ireclaim` for an inode that is allocated and has no links. -/
def reclaim (inum : Nat) : FsM Unit := do
  let ip ← iget inum
  beginOp
  ilock ip
  iunlock ip
  iput ip
  endOp

/-- `ireclaim`. -/
def ireclaim : FsM Unit := do
  let fs ← .gets id
  Prog.each (fun inum => do
    let d ← .gets fun fs => fs.dinode inum
    Prog.when (d.type ≠ .free ∧ d.nlink = 0) (reclaim inum)) (List.range' 1 (fs.sb.ninodes - 1))

/-! ### File contents -/

/-- Programs that work on the file system and on a side `U` that data is copied
to or from, which may stop with an `ε`. -/
abbrev IoM (ε U : Type) := Prog (Panic ⊕ ε) (State × U)

section Io

variable {ε U α : Type}

/-- A step of the file system. -/
def onFs (m : FsM α) : IoM ε U α := m.zoom ⟨Prod.fst, fun s fs => (fs, s.2)⟩ Sum.inl

/-- A step of the other side. -/
def onSide (m : Prog ε U α) : IoM ε U α := m.zoom ⟨Prod.snd, fun s u => (s.1, u)⟩ Sum.inr

/-- The loop of `readi`. `dst tot bs` copies out the bytes `bs`, which go to
offset `tot` of the destination, and says whether it could. Each turn moves at
least one byte, so `n` turns are enough. -/
def readLoop (ip : IPtr) (dst : Nat → List UInt8 → Prog ε U Bool) (n : Nat) :
    Nat → Nat → Nat → IoM ε U Int
  | 0, tot, _ => pure tot
  | fuel + 1, tot, off =>
    if tot < n then do
      let addr ← onFs (bmap ip (off / BSIZE))
      if addr = 0 then pure tot
      else do
        let s ← .gets id
        let m := min (n - tot) (BSIZE - off % BSIZE)
        let ok ← onSide (dst tot (load (s.1.data addr) (off % BSIZE) m))
        if ok then readLoop ip dst n fuel (tot + m) (off + m) else pure (-1)
    else pure tot

/-- `readi`; the sum `off + n` is one of 32-bit integers. -/
def readi (ip : IPtr) (dst : Nat → List UInt8 → Prog ε U Bool) (off n : Nat) : IoM ε U Int := do
  let d ← onFs (dinodeOf ip)
  if d.size < off ∨ (off + n) % 2 ^ 32 < off then pure 0
  else
    let n := if d.size < off + n then d.size - off else n
    readLoop ip dst n n 0 off

/-- The loop of `writei`. `src tot m` fetches the `m` bytes at offset `tot` of
the source: what it fetched, and whether that is all. The result is the number
of bytes written and the offset reached. A failed fetch leaves what it fetched
in the buffer, without logging it. -/
def writeLoop (ip : IPtr) (src : Nat → Nat → Prog ε U (List UInt8 × Bool)) (n : Nat) :
    Nat → Nat → Nat → IoM ε U (Nat × Nat)
  | 0, tot, off => pure (tot, off)
  | fuel + 1, tot, off =>
    if tot < n then do
      let addr ← onFs (bmap ip (off / BSIZE))
      if addr = 0 then pure (tot, off)
      else do
        let m := min (n - tot) (BSIZE - off % BSIZE)
        let (bs, ok) ← onSide (src tot m)
        onFs (.modify fun fs =>
          let b := store (fs.data addr) (off % BSIZE) bs
          { fs with data := update fs.data addr b })
        if ok then do
          onFs (logWrite addr)
          writeLoop ip src n fuel (tot + m) (off + m)
        else pure (tot, off)
    else pure (tot, off)

/-- `writei`. -/
def writei (ip : IPtr) (src : Nat → Nat → Prog ε U (List UInt8 × Bool)) (off n : Nat) :
    IoM ε U Int := do
  let d ← onFs (dinodeOf ip)
  if d.size < off ∨ (off + n) % 2 ^ 32 < off then pure (-1)
  else if MAXFILE * BSIZE < off + n then pure (-1)
  else do
    let (tot, off') ← writeLoop ip src n n 0 off
    onFs (setDinode ip fun d => { d with size := if d.size < off' then off' else d.size })
    onFs (iupdate ip)
    pure tot

end Io

/-- `readi` into a kernel buffer: the count returned and the bytes read. -/
def readiKernel (ip : IPtr) (off n : Nat) : FsM (Int × List UInt8) :=
  Prog.withLocal [] (Sum.elim id Empty.elim)
    (readi ip (fun _ bs => do
      .modify (· ++ bs)
      pure true) off n)

/-- `writei` from a kernel buffer. -/
def writeiKernel (ip : IPtr) (bs : List UInt8) (off : Nat) : FsM Int := do
  let (n, _) ← Prog.withLocal () (Sum.elim id Empty.elim)
    (writei ip (fun tot m => pure ((bs.drop tot).take m, true)) off bs.length)
  pure n

/-! ### Directories -/

/-- A path, or a component of one: the bytes of a C string before its NUL. -/
abbrev Path := List UInt8

/-- A C string, with zeros after its end. -/
def Path.buf (p : Path) : Buffer := fun i => p.getD i 0

/-- `strncmp`, with `n` bytes left at index `i`. -/
def strncmp (p q : Buffer) : Nat → Nat → Int
  | 0, _ => 0
  | n + 1, i =>
    if p i ≠ 0 ∧ p i = q i then strncmp p q n (i + 1)
    else ((p i).toNat : Int) - (q i).toNat

/-- `namecmp(name, t) == 0`. -/
def sameName (name : Path) (t : Buffer) : Bool := strncmp name.buf t DIRSIZ 0 = 0

/-- `strncpy(_, t, n)`: the bytes stored. -/
def strncpy (t : Buffer) (n : Nat) : List UInt8 :=
  let s := (load t 0 n).takeWhile (· ≠ 0)
  s ++ List.replicate (n - s.length) 0

/-- `struct dirent`. -/
structure Dirent where
  inum : Nat
  name : Buffer

/-- The directory entry stored in the bytes. -/
def Dirent.ofBytes (bs : List UInt8) : Dirent :=
  let b : Buffer := fun i => bs.getD i 0
  { inum := le16 b 0, name := fun i => b (2 + i) }

/-- The bytes of the entry `(inum, name)`; the inode number is stored in 16 bits. -/
def direntBytes (inum : Nat) (name : Path) : List UInt8 :=
  [UInt8.ofNat inum, UInt8.ofNat (inum / 256)] ++ strncpy name.buf DIRSIZ

/-- Read the directory entry at offset `off`, or stop. -/
def readDirent (dp : IPtr) (off : Nat) (e : Panic) : FsM Dirent := do
  let (r, bs) ← readiKernel dp off DIRENT
  if r ≠ (DIRENT : Int) then .stop e else pure (Dirent.ofBytes bs)

/-- Number of directory entries below `size`. -/
def slots (size : Nat) : Nat := (size + DIRENT - 1) / DIRENT

/-- `dirlookup`: the inode and the offset of the entry. -/
def dirlookup (dp : IPtr) (name : Path) : FsM (Option (IPtr × Nat)) := do
  let d ← dinodeOf dp
  if d.type ≠ .dir then .stop .dirlookupNotDir
  else
    Prog.firstM (fun k => do
      let de ← readDirent dp (k * DIRENT) .dirlookupRead
      if de.inum = 0 then pure none
      else if sameName name de.name then do
        let ip ← iget de.inum
        pure (some (ip, k * DIRENT))
      else pure none) (List.range (slots d.size))

/-- `dirlink`: whether the entry was written. -/
def dirlink (dp : IPtr) (name : Path) (inum : Nat) : FsM Bool := do
  match ← dirlookup dp name with
  | some (ip, _) => do
    iput ip
    pure false
  | none => do
    let d ← dinodeOf dp
    let free ← Prog.firstM (fun k => do
      let de ← readDirent dp (k * DIRENT) .dirlinkRead
      pure (if de.inum = 0 then some k else none)) (List.range (slots d.size))
    let off := (free.getD (slots d.size)) * DIRENT
    let r ← writeiKernel dp (direntBytes inum name) off
    pure (r = (DIRENT : Int))

/-! ### Paths -/

/-- The character `/`. -/
def slash : UInt8 := 47

/-- `skipelem`: the next path element and what follows it. -/
def skipelem (path : Path) : Option (Path × Path) :=
  let s := path.dropWhile (· = slash)
  if s = [] then none
  else
    some ((s.takeWhile (· ≠ slash)).take DIRSIZ,
      (s.dropWhile (· ≠ slash)).dropWhile (· = slash))

/-- The loop of `namex`. Each turn shortens the path, so as many turns as it
has bytes are enough. -/
def namexLoop (parent : Bool) : Nat → IPtr → Path → FsM (Option (IPtr × Path))
  | fuel, ip, path =>
    match skipelem path, fuel with
    | none, _ =>
      if parent then do
        iput ip
        pure none
      else pure (some (ip, []))
    | some _, 0 => .stop .hang
    | some (name, rest), fuel + 1 => do
      ilock ip
      let d ← dinodeOf ip
      if d.type ≠ .dir then do
        iunlockput ip
        pure none
      else if parent = true ∧ rest = [] then do
        -- stop one level early
        iunlock ip
        pure (some (ip, name))
      else do
        match ← dirlookup ip name with
        | none => do
          iunlockput ip
          pure none
        | some (next, _) => do
          iunlockput ip
          namexLoop parent fuel next rest

/-- `namex`: the inode and, for `nameiparent`, the last path element. -/
def namex (cwd : Option IPtr) (path : Path) (parent : Bool) : FsM (Option (IPtr × Path)) := do
  if path.head? = some slash then do
    let ip ← iget ROOTINO
    namexLoop parent path.length ip path
  else
    match cwd with
    | none => .stop .wild
    | some ip => do
      idup ip
      namexLoop parent path.length ip path

/-- `namei`. -/
def namei (cwd : Option IPtr) (path : Path) : FsM (Option IPtr) := do
  let r ← namex cwd path false
  pure (r.map Prod.fst)

/-- `nameiparent`. -/
def nameiparent (cwd : Option IPtr) (path : Path) : FsM (Option (IPtr × Path)) :=
  namex cwd path true

end Xv6.Fs
