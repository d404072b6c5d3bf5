import Xv6.Kernel.State

/-!
# xv6 — open files (`kernel/file.c`, `kernel/pipe.c`, `kernel/sysfile.c`)

The file table, and the system calls on descriptors. Of a pipe, what matters
here is its page and which ends are open; its contents, and when a reader or
writer waits, are the subject of `Xv6.Pipes`. A read or write on a pipe or a
device therefore takes the bytes it moves from the caller of the model.
-/

namespace Xv6.Kernel

open ByteBuffer Function

/-! ### The file table -/

/-- `filealloc`. -/
def filealloc : KM (Option FPtr) := do
  let k ← .gets id
  match (List.finRange NFILE).find? fun f => (k.file f).ref = 0 with
  | none => pure none
  | some f => do
    updFile f fun x => { x with ref := 1 }
    pure (some f)

/-- `filedup`. -/
def filedup (f : FPtr) : KM Unit := do
  let k ← .gets id
  if (k.file f).ref < 1 then .stop (.kern .filedup)
  else updFile f fun x => { x with ref := x.ref + 1 }

/-- The ends of a pipe after one is closed. -/
def PipeEnds.close (e : PipeEnds) (writable : Bool) : PipeEnds :=
  if writable then { e with writeopen := false } else { e with readopen := false }

/-- `pipeclose`. -/
def pipeclose (page : Nat) (writable : Bool) : KM Unit := do
  .modify fun k => { k with pipe := update k.pipe page ((k.pipe page).close writable) }
  let k ← .gets id
  Prog.when ((k.pipe page).readopen = false ∧ (k.pipe page).writeopen = false)
    (onMem (Vm.kfree page))

/-- What `fileclose` does once the last reference is gone. -/
def fileRelease (x : File) : KM Unit :=
  match x.type with
  | .pipe => pipeclose x.pipe x.writable
  | .inode | .device => onFs do
      Fs.beginOp
      Fs.iputPtr x.ip
      Fs.endOp
  | .none => pure ()

/-- `fileclose`. -/
def fileclose (f : FPtr) : KM Unit := do
  let k ← .gets id
  let x := k.file f
  if x.ref < 1 then .stop (.kern .fileclose)
  else if 0 < x.ref - 1 then updFile f fun x => { x with ref := x.ref - 1 }
  else do
    updFile f fun x => { x with ref := 0, type := .none }
    fileRelease x

/-- `pipealloc`: the read and the write end. -/
def pipealloc : KM (Option (FPtr × FPtr)) := do
  match ← filealloc with
  | none => pure none
  | some f0 => do
    match ← filealloc with
    | none => do
      fileclose f0
      pure none
    | some f1 => do
      let page ← onMem Vm.kalloc
      if page = 0 then do
        fileclose f0
        fileclose f1
        pure none
      else do
        .modify fun k => { k with pipe := update k.pipe page ⟨true, true⟩ }
        updFile f0 fun x =>
          { x with type := .pipe, readable := true, writable := false, pipe := page }
        updFile f1 fun x =>
          { x with type := .pipe, readable := false, writable := true, pipe := page }
        pure (some (f0, f1))

/-! ### Descriptors -/

/-- The number of descriptors in use. -/
def countFiles (ofile : Fin NOFILE → Option FPtr) : Nat :=
  ((List.finRange NOFILE).filter fun fd => (ofile fd).isSome).length

/-- `get_proc_open_files`. -/
def openFiles (p : Proc) : Nat := countFiles p.ofile

/-- `argfd`: the descriptor and its file. -/
def argfd (p : Pid) (fd : Int) : KM (Option (Fin NOFILE × FPtr)) := .gets fun k =>
  if h : 0 ≤ fd ∧ fd < NOFILE then
    let i : Fin NOFILE := ⟨fd.toNat, by omega⟩
    ((k.proc p).ofile i).map fun f => (i, f)
  else none

/-- Point a descriptor of `p` at a file, or at none. -/
def setFd (p : Pid) (fd : Fin NOFILE) (f : Option FPtr) : KM Unit :=
  updProc p fun pr => { pr with ofile := update pr.ofile fd f }

/-- `fdalloc`. -/
def fdalloc (p : Pid) (f : FPtr) : KM (Option (Fin NOFILE)) := do
  let k ← .gets id
  match (List.finRange NOFILE).find? fun fd =>
      ((fd.val : Int) < (k.proc p).nofileCur ∧ (k.proc p).ofile fd = none) with
  | none => pure none
  | some fd => do
    setFd p fd (some f)
    pure (some fd)

/-- `sys_dup`. -/
def sysDup (p : Pid) (fd : Int) : KM Int := do
  match ← argfd p fd with
  | none => pure (-1)
  | some (_, f) => do
    match ← fdalloc p f with
    | none => pure (-1)
    | some fd => do
      filedup f
      pure fd

/-- `sys_close`. -/
def sysClose (p : Pid) (fd : Int) : KM Int := do
  match ← argfd p fd with
  | none => pure (-1)
  | some (fd, f) => do
    setFd p fd none
    fileclose f
    pure 0

/-- The number a file's type is stored as in `struct stat`. -/
def typeCode : Fs.IType → Nat
  | .free => 0
  | .dir => 1
  | .file => 2
  | .device => 3

/-- The bytes of `struct stat`; the device number is `ROOTDEV`. -/
def statBytes (i : Fs.Inode) : List UInt8 :=
  leBytes 4 1 ++ leBytes 4 i.inum ++ leBytes 2 (typeCode i.d.type) ++
    leBytes 2 (u32 i.d.nlink) ++ leBytes 4 0 ++ leBytes 8 i.d.size

/-- The inode pointer of a file, as `ilock` takes it: a null pointer makes it
panic. -/
def ptr (ip : Option Fs.IPtr) : Fs.FsM Fs.IPtr :=
  match ip with
  | none => .stop .ilock
  | some ip => pure ip

/-- `filestat`. -/
def filestat (p : Pid) (f : FPtr) (addr : Nat) : KM Int := do
  let k ← .gets id
  if (k.file f).type = .inode ∨ (k.file f).type = .device then do
    let st ← onFs do
      let ip ← ptr (k.file f).ip
      Fs.ilock ip
      let i ← .gets fun fs => fs.inode ip
      Fs.iunlock ip
      pure (statBytes i)
    if ← copyout p addr st then pure 0 else pure (-1)
  else pure (-1)

/-- `sys_fstat`. -/
def sysFstat (p : Pid) (fd : Int) (addr : Nat) : KM Int := do
  match ← argfd p fd with
  | none => pure (-1)
  | some (_, f) => filestat p f addr

/-- The console, the only device with a driver. -/
def CONSOLE : Int := 1

/-- What a call moves through a pipe or a device: the bytes delivered by a read,
the number of bytes taken by a write, and the value returned. -/
structure Transfer where
  bytes : List UInt8
  len : Nat
  ret : Int

/-- `fileread`. -/
def fileread (p : Pid) (f : FPtr) (addr : Nat) (n : Int) (tr : Transfer) : KM Int := do
  let k ← .gets id
  let x := k.file f
  if x.readable = false then pure (-1)
  else
    match x.type with
    | .pipe => do
      let _ ← copyout p addr tr.bytes
      pure tr.ret
    | .device =>
      if x.major ≠ CONSOLE then pure (-1)
      else do
        let _ ← copyout p addr tr.bytes
        pure tr.ret
    | .inode => do
      let ip ← onFs (ptr x.ip)
      onFs (Fs.ilock ip)
      let r ← onIo p (Fs.readi ip (fun tot bs => Vm.copyout (u64 (addr + tot)) bs) x.off (u32 n))
      Prog.when (0 < r) (updFile f fun x => { x with off := u32 (x.off + r) })
      onFs (Fs.iunlock ip)
      pure r
    | .none => .stop (.kern .fileread)

/-- `sys_read`. -/
def sysRead (p : Pid) (fd : Int) (addr : Nat) (n : Int) (tr : Transfer) : KM Int := do
  match ← argfd p fd with
  | none => pure (-1)
  | some (_, f) => fileread p f addr n tr

/-- Bytes written per transaction: `((MAXOPBLOCKS-1-1-2) / 2) * BSIZE`. -/
def writeMax : Int := (MAXOPBLOCKS - 1 - 1 - 2) / 2 * Fs.BSIZE

/-- One transaction of `filewrite`: `n1` bytes from `addr + i`. -/
def writeChunk (p : Pid) (f : FPtr) (ip : Fs.IPtr) (addr : Nat) (i n1 : Int) : KM Int := do
  onFs Fs.beginOp
  onFs (Fs.ilock ip)
  let k ← .gets id
  let r ← onIo p (Fs.writei ip (fun tot m => Vm.copyin (u64 (addr + i + tot)) m)
    (k.file f).off (u32 n1))
  Prog.when (0 < r) (updFile f fun x => { x with off := u32 (x.off + r) })
  onFs (Fs.iunlock ip)
  onFs Fs.endOp
  pure r

/-- The loop of `filewrite`: the number of bytes written by complete
transactions. Each turn writes a byte, so `n` turns are enough. -/
def writeChunks (p : Pid) (f : FPtr) (ip : Fs.IPtr) (addr : Nat) (n : Int) : Nat → Int → KM Int
  | 0, i => pure i
  | fuel + 1, i =>
    if i < n then do
      let n1 := if writeMax < n - i then writeMax else n - i
      let r ← writeChunk p f ip addr i n1
      if r ≠ n1 then pure i else writeChunks p f ip addr n fuel (i + r)
    else pure i

/-- `filewrite`. -/
def filewrite (p : Pid) (f : FPtr) (addr : Nat) (n : Int) (tr : Transfer) : KM Int := do
  let k ← .gets id
  let x := k.file f
  if x.writable = false then pure (-1)
  else
    match x.type with
    | .pipe => do
      let _ ← copyin p addr tr.len
      pure tr.ret
    | .device =>
      if x.major ≠ CONSOLE then pure (-1)
      else do
        let _ ← copyin p addr tr.len
        pure tr.ret
    | .inode => do
      let ip ← onFs (ptr x.ip)
      let i ← writeChunks p f ip addr n n.toNat 0
      pure (if i = n then n else -1)
    | .none => .stop (.kern .filewrite)

/-- `sys_write`. -/
def sysWrite (p : Pid) (fd : Int) (addr : Nat) (n : Int) (tr : Transfer) : KM Int := do
  match ← argfd p fd with
  | none => pure (-1)
  | some (_, f) => filewrite p f addr n tr

/-! ### open and pipe -/

/-- The flag bit of an open mode is set. -/
def flag (omode bit : Nat) : Bool := omode &&& bit ≠ 0

def O_WRONLY : Nat := 0x001
def O_RDWR : Nat := 0x002
def O_CREATE : Nat := 0x200
def O_TRUNC : Nat := 0x400

/-- The part of `sys_open` that finds or makes the inode; it is returned
locked. -/
def openInode (cwd : Option Fs.IPtr) (path : Fs.Path) (omode : Nat) : Fs.FsM (Option Fs.IPtr) :=
  if flag omode O_CREATE then Fs.create cwd path .file 0 0
  else do
    match ← Fs.namei cwd path with
    | none => pure none
    | some ip => do
      Fs.ilock ip
      let d ← Fs.dinodeOf ip
      if d.type = .dir ∧ omode ≠ 0 then do
        Fs.iunlockput ip
        pure none
      else pure (some ip)

/-- `iunlockput(ip); end_op(); return -1`. -/
def openFail (ip : Fs.IPtr) : KM Int := do
  onFs do
    Fs.iunlockput ip
    Fs.endOp
  pure (-1)

/-- The part of `sys_open` that installs the file once a descriptor is found. -/
def openInstall (f : FPtr) (ip : Fs.IPtr) (omode : Nat) : KM Unit := do
  let d ← onFs (Fs.dinodeOf ip)
  updFile f fun x =>
    if d.type = .device then { x with type := .device, major := d.major }
    else { x with type := .inode, off := 0 }
  updFile f fun x => { x with
    ip := some ip
    readable := ! flag omode O_WRONLY
    writable := flag omode O_WRONLY || flag omode O_RDWR }
  onFs do
    Prog.when (flag omode O_TRUNC = true ∧ d.type = .file) (Fs.itrunc ip)
    Fs.iunlock ip
    Fs.endOp

/-- `sys_open` between `begin_op` and `end_op`. -/
def openOp (p : Pid) (path : Fs.Path) (omode : Nat) : KM Int := do
  onFs Fs.beginOp
  let k ← .gets id
  match ← onFs (openInode (k.proc p).cwd path omode) with
  | none => do
    onFs Fs.endOp
    pure (-1)
  | some ip => do
    let d ← onFs (Fs.dinodeOf ip)
    if d.type = .device ∧ (d.major < 0 ∨ (NDEV : Int) ≤ d.major) then openFail ip
    else do
      match ← filealloc with
      | none => openFail ip
      | some f => do
        match ← fdalloc p f with
        | none => do
          fileclose f
          openFail ip
        | some fd => do
          openInstall f ip omode
          pure fd

/-- `sys_open`; the path is `none` if it cannot be fetched. -/
def sysOpen (p : Pid) (path : Option Fs.Path) (omode : Nat) : KM Int := do
  let k ← .gets id
  if (k.proc p).nofileMax ≤ (openFiles (k.proc p) : Int) then pure (-1)
  else
    match path with
    | none => pure (-1)
    | some path => openOp p path omode

/-- The failing end of `sys_pipe`: close both ends. -/
def pipeFail (rf wf : FPtr) : KM Int := do
  fileclose rf
  fileclose wf
  pure (-1)

/-- `sys_pipe`. -/
def sysPipe (p : Pid) (fdarray : Nat) : KM Int := do
  match ← pipealloc with
  | none => pure (-1)
  | some (rf, wf) => do
    match ← fdalloc p rf with
    | none => pipeFail rf wf
    | some fd0 => do
      match ← fdalloc p wf with
      | none => do
        setFd p fd0 none
        pipeFail rf wf
      | some fd1 => do
        let ok0 ← copyout p fdarray (leBytes 4 fd0)
        let ok ← (if ok0 then copyout p (u64 (fdarray + 4)) (leBytes 4 fd1) else pure false)
        if ok then pure 0
        else do
          setFd p fd0 none
          setFd p fd1 none
          pipeFail rf wf

/-- `sys_chdir`. -/
def sysChdir (p : Pid) (path : Option Fs.Path) : KM Int := do
  let k ← .gets id
  match ← onFs (Fs.sysChdir (k.proc p).cwd path) with
  | none => pure (-1)
  | some ip => do
    updProc p fun pr => { pr with cwd := some ip }
    pure 0

end Xv6.Kernel
