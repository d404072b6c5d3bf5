import Mathlib.Algebra.GroupWithZero.Nat

/-!
# xv6 — system parameters

The constants of `kernel/param.h` that the models below use, under the source's
names.
-/

namespace Xv6

/-- Maximum number of processes. -/
def NPROC : Nat := 64
/-- Maximum number of CPUs. -/
def NCPU : Nat := 8
/-- Open files per process. -/
def NOFILE : Nat := 16
/-- The largest limit `setrlimit(RLIMIT_CPU, …)` admits. -/
def MAX_CPU_TICKS : Nat := 10000
/-- Open files per system. -/
def NFILE : Nat := 100
/-- Maximum number of active i-nodes. -/
def NINODE : Nat := 50
/-- Maximum major device number. -/
def NDEV : Nat := 10
/-- Device number of the root disk. -/
def ROOTDEV : Nat := 1
/-- Maximum number of `exec` arguments. -/
def MAXARG : Nat := 32
/-- User stack pages. -/
def USERSTACK : Nat := 1
/-- Maximum number of blocks any file-system operation writes. -/
def MAXOPBLOCKS : Nat := 10
/-- Maximum number of data blocks in the on-disk log. -/
def LOGBLOCKS : Nat := MAXOPBLOCKS * 3
/-- Size of the disk block cache. -/
def NBUF : Nat := MAXOPBLOCKS * 3

instance : NeZero NPROC := ⟨by decide⟩
instance : NeZero NCPU := ⟨by decide⟩
instance : NeZero NOFILE := ⟨by decide⟩
instance : NeZero NFILE := ⟨by decide⟩
instance : NeZero NINODE := ⟨by decide⟩
instance : NeZero NBUF := ⟨by decide⟩

end Xv6
