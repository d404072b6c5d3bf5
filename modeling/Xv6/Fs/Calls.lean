import Xv6.Fs.Model

/-!
# xv6 — file-system calls on names (`kernel/sysfile.c`)

`create` and the bodies of the system calls `link`, `unlink`, `mkdir`, `mknod`
and `chdir`. The current directory of the caller and the path arguments are
parameters: `none` stands for a path that could not be fetched from user
memory. The result is the value the call returns.
-/

namespace Xv6.Fs

open ByteBuffer

/-- The name `.`. -/
def dot : Path := [46]
/-- The name `..`. -/
def dotdot : Path := [46, 46]

/-- `isdirempty`. -/
def isdirempty (dp : IPtr) : FsM Bool := do
  let d ← dinodeOf dp
  let used ← Prog.firstM (fun k => do
    let de ← readDirent dp (k * DIRENT) .isdiremptyReadi
    pure (if de.inum = 0 then none else some ())) (List.range' 2 (slots d.size - 2))
  pure used.isNone

/-- `ip->nlink += n; iupdate(ip)`. -/
def addLinks (ip : IPtr) (n : Int) : FsM Unit := do
  setDinode ip fun d => { d with nlink := toShort (d.nlink + n) }
  iupdate ip

/-- The first half of `create`'s work on a new inode: its fields and, for a
directory, its entries `.` and `..`. Whether all went well. -/
def createInit (ip dp : IPtr) (type : IType) (major minor : Int) : FsM Bool := do
  setDinode ip fun d => { d with major := toShort major, minor := toShort minor, nlink := 1 }
  iupdate ip
  if type = .dir then do
    let fs ← .gets id
    if ← dirlink ip dot (fs.inode ip).inum then dirlink ip dotdot (fs.inode dp).inum
    else pure false
  else pure true

/-- `create`: a locked inode, or nothing. -/
def create (cwd : Option IPtr) (path : Path) (type : IType) (major minor : Int) :
    FsM (Option IPtr) := do
  match ← nameiparent cwd path with
  | none => pure none
  | some (dp, name) => do
    ilock dp
    match ← dirlookup dp name with
    | some (ip, _) => do
      iunlockput dp
      ilock ip
      let d ← dinodeOf ip
      if type = .file ∧ (d.type = .file ∨ d.type = .device) then pure (some ip)
      else do
        iunlockput ip
        pure none
    | none => do
      match ← ialloc type with
      | none => do
        iunlockput dp
        pure none
      | some ip => do
        ilock ip
        let ok ← createInit ip dp type major minor
        let fs ← .gets id
        let ok ← (if ok then dirlink dp name (fs.inode ip).inum else pure false)
        if ok then do
          Prog.when (type = .dir) (addLinks dp 1)
          iunlockput dp
          pure (some ip)
        else do
          -- something went wrong, de-allocate ip
          setDinode ip fun d => { d with nlink := 0 }
          iupdate ip
          iunlockput ip
          iunlockput dp
          pure none

/-- The end of `sys_link` when the new name cannot be made: take the link back. -/
def linkBad (ip : IPtr) : FsM Int := do
  ilock ip
  addLinks ip (-1)
  iunlockput ip
  endOp
  pure (-1)

/-- `sys_link` between `begin_op` and `end_op`. -/
def linkOp (cwd : Option IPtr) (old new : Path) : FsM Int := do
  beginOp
  match ← namei cwd old with
  | none => do
    endOp
    pure (-1)
  | some ip => do
    ilock ip
    let d ← dinodeOf ip
    if d.type = .dir then do
      iunlockput ip
      endOp
      pure (-1)
    else do
      addLinks ip 1
      iunlock ip
      match ← nameiparent cwd new with
      | none => linkBad ip
      | some (dp, name) => do
        ilock dp
        let fs ← .gets id
        if ← dirlink dp name (fs.inode ip).inum then do
          iunlockput dp
          iput ip
          endOp
          pure 0
        else do
          iunlockput dp
          linkBad ip

/-- `sys_link`. -/
def sysLink (cwd : Option IPtr) : Option Path → Option Path → FsM Int
  | some old, some new => linkOp cwd old new
  | _, _ => pure (-1)

/-- The end of `sys_unlink` when it refuses. -/
def unlinkBad (dp : IPtr) : FsM Int := do
  iunlockput dp
  endOp
  pure (-1)

/-- The part of `sys_unlink` after both inodes are locked and found fit: erase
the entry at `off` and drop the links. -/
def unlinkErase (dp ip : IPtr) (off : Nat) : FsM Int := do
  let r ← writeiKernel dp (List.replicate DIRENT 0) off
  if r ≠ (DIRENT : Int) then .stop .unlinkWritei
  else do
    let d ← dinodeOf ip
    Prog.when (d.type = .dir) (addLinks dp (-1))
    iunlockput dp
    addLinks ip (-1)
    iunlockput ip
    endOp
    pure 0

/-- `sys_unlink` between `begin_op` and `end_op`. -/
def unlinkOp (cwd : Option IPtr) (path : Path) : FsM Int := do
  beginOp
  match ← nameiparent cwd path with
  | none => do
    endOp
    pure (-1)
  | some (dp, name) => do
    ilock dp
    if sameName name dot.buf = true ∨ sameName name dotdot.buf = true then unlinkBad dp
    else do
      match ← dirlookup dp name with
      | none => unlinkBad dp
      | some (ip, off) => do
        ilock ip
        let d ← dinodeOf ip
        if d.nlink < 1 then .stop .unlinkNlink
        else do
          let fit ← (if d.type = .dir then isdirempty ip else pure true)
          if fit = false then do
            iunlockput ip
            unlinkBad dp
          else unlinkErase dp ip off

/-- `sys_unlink`. -/
def sysUnlink (cwd : Option IPtr) : Option Path → FsM Int
  | some path => unlinkOp cwd path
  | none => pure (-1)

/-- `create` of a path that may not have been fetched. -/
def createArg (cwd : Option IPtr) (path : Option Path) (type : IType) (major minor : Int) :
    FsM (Option IPtr) :=
  match path with
  | none => pure none
  | some path => create cwd path type major minor

/-- `sys_mkdir` and `sys_mknod`: make an inode and let go of it. -/
def makeOp (cwd : Option IPtr) (path : Option Path) (type : IType) (major minor : Int) :
    FsM Int := do
  beginOp
  match ← createArg cwd path type major minor with
  | none => do
    endOp
    pure (-1)
  | some ip => do
    iunlockput ip
    endOp
    pure 0

/-- `sys_mkdir`. -/
def sysMkdir (cwd : Option IPtr) (path : Option Path) : FsM Int := makeOp cwd path .dir 0 0

/-- `sys_mknod`. -/
def sysMknod (cwd : Option IPtr) (path : Option Path) (major minor : Int) : FsM Int :=
  makeOp cwd path .device major minor

/-- `iput` of a pointer that may be null. -/
def iputPtr : Option IPtr → FsM Unit
  | none => .stop .wild
  | some ip => iput ip

/-- `namei` of a path that may not have been fetched. -/
def nameiArg (cwd : Option IPtr) : Option Path → FsM (Option IPtr)
  | none => pure none
  | some path => namei cwd path

/-- `sys_chdir`: the new current directory, if there is one. -/
def sysChdir (cwd : Option IPtr) (path : Option Path) : FsM (Option IPtr) := do
  beginOp
  match ← nameiArg cwd path with
  | none => do
    endOp
    pure none
  | some ip => do
    ilock ip
    let d ← dinodeOf ip
    if d.type ≠ .dir then do
      iunlockput ip
      endOp
      pure none
    else do
      iunlock ip
      iputPtr cwd
      endOp
      pure (some ip)

end Xv6.Fs
