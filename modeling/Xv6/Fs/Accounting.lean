import Mathlib.Data.Multiset.Basic
import Xv6.Fs.Calls

/-!
# xv6 — keeping account of inode references

The functions of `kernel/fs.c` and `kernel/sysfile.c` that walk directories take
references to inodes and must give back each of them, on every exit. How they do
is the same whatever else is said about the file system.

* `Accounting E R` — the laws of the operations on single inodes. `R S A B` is a
  predicate of the file system in which references are counted: those in `A` are
  to inodes that have been read from disk, those in `B` are to inodes that may
  not have been. `S` are the inode numbers that `ireclaim` has dealt with.
* `Accounting.namex`, `.create`, `.sysLink`, `.sysUnlink`, … — from the laws, what
  the functions built from these operations do: on every return they hold what
  they held before, and the inode they return.
-/

namespace Xv6.Fs

open Prog Multiset

/-- What the code that walks directories stops with itself. -/
def Panic.ofWalk : Panic → Bool
  | .dirlookupNotDir | .dirlookupRead | .dirlinkRead | .isdiremptyReadi | .unlinkNlink
  | .unlinkWritei | .hang | .wild => true
  | _ => false

/-- A change of an inode that leaves its type and its contents alone. -/
def LinksOnly (f : Dinode → Dinode) : Prop :=
  ∀ d, (f d).type = d.type ∧ (f d).size = d.size ∧ (f d).addrs = d.addrs

/-- The laws that are enough to look names up, for a predicate `R` in which references
are counted. The operations stop for reasons in `E` only. -/
structure Reading (E : Panic → Prop)
    (R : Set Nat → Multiset IPtr → Multiset IPtr → State → Prop) : Prop where
  stops : ∀ e, e.ofWalk = true → E e
  iget : ∀ {S A B fs inum}, R S A B fs →
    wp (iget inum) (fun ip fs' => R S A (ip ::ₘ B) fs') E fs
  readi : ∀ {ε U : Type} {S A B ip off n} {dst : Nat → List UInt8 → Prog ε U Bool}, ip ∈ A →
    Stable (Sum.elim E fun _ => True) (fun s => R S A B s.1) (readi ip dst off n)

/-- The laws of all operations on inodes. -/
structure Accounting (E : Panic → Prop)
    (R : Set Nat → Multiset IPtr → Multiset IPtr → State → Prop) : Prop extends Reading E R where
  /-- it may be forgotten that an inode has been read -/
  loosen : ∀ {S ip A B fs}, R S (ip ::ₘ A) B fs → R S A (ip ::ₘ B) fs
  beginOp : ∀ {S A B}, Stable E (R S A B) beginOp
  endOp : ∀ {S A B}, Stable E (R S A B) endOp
  idup : ∀ {S A B fs ip}, ip ∈ A → R S A B fs →
    wp (idup ip) (fun _ fs' => R S (ip ::ₘ A) B fs') E fs
  ilock : ∀ {S A B fs ip}, R S A (ip ::ₘ B) fs →
    wp (ilock ip) (fun _ fs' => R S (ip ::ₘ A) B fs') E fs
  iunlock : ∀ {S A B ip}, Stable E (R S A B) (iunlock ip)
  iput : ∀ {S A B fs ip}, R S A (ip ::ₘ B) fs → wp (iput ip) (fun _ fs' => R S A B fs') E fs
  /-- `create` locks the inode it has allocated at once -/
  ialloc : ∀ {S A B fs type}, type ≠ .free → R S A B fs →
    wp (ialloc type) (fun r fs' =>
      match r with
      | none => R S A B fs'
      | some ip => wp (Fs.ilock ip) (fun _ fs'' => R S (ip ::ₘ A) B fs'') E fs') E fs
  /-- a change in memory is written to disk at once -/
  update : ∀ {S A B fs ip f}, ip ∈ A → LinksOnly f → R S A B fs →
    wp (setDinode ip f) (fun _ fs' => wp (iupdate ip) (fun _ fs'' => R S A B fs'') E fs') E fs
  itrunc : ∀ {S A B ip}, ip ∈ A → Stable E (R S A B) (itrunc ip)
  writei : ∀ {ε U : Type} {S A B ip off n} {src : Nat → Nat → Prog ε U (List UInt8 × Bool)},
    ip ∈ A → Stable (Sum.elim E fun _ => True) (fun s => R S A B s.1) (writei ip src off n)
  /-- an inode that is free, or has links, needs no holder -/
  skip : ∀ {S A B fs inum}, R S A B fs →
    ¬ ((fs.dinode inum).type ≠ .free ∧ (fs.dinode inum).nlink = 0) → R (insert inum S) A B fs
  /-- one that was locked has one -/
  take : ∀ {S A B fs inum}, R S A B fs →
    wp (Fs.iget inum) (fun ip fs1 => wp Fs.beginOp (fun _ fs2 =>
      wp (Fs.ilock ip) (fun _ fs3 => R (insert inum S) (ip ::ₘ A) B fs3) E fs2) E fs1) E fs

/-- The inode numbers in use on a disk with `n` inodes. -/
def inums (n : Nat) : Set Nat := {i | 1 ≤ i ∧ i < n}

variable {E : Panic → Prop} {R : Set Nat → Multiset IPtr → Multiset IPtr → State → Prop}
  {S : Set Nat} {A B : Multiset IPtr} {fs : State} {ip dp : IPtr} {cwd : Option IPtr}
  {name path : Path}

namespace Accounting

/-- What a search leaves: nothing more, or a reference to what it found. -/
def Found {α : Type} (R : Set Nat → Multiset IPtr → Multiset IPtr → State → Prop) (S : Set Nat)
    (A B : Multiset IPtr) (r : Option (IPtr × α)) (fs : State) : Prop :=
  match r with
  | none => R S A B fs
  | some (ip, _) => R S A (ip ::ₘ B) fs

/-- The same for an inode that is returned locked. -/
def FoundLocked (R : Set Nat → Multiset IPtr → Multiset IPtr → State → Prop) (S : Set Nat)
    (A B : Multiset IPtr) (r : Option IPtr) (fs : State) : Prop :=
  match r with
  | none => R S A B fs
  | some ip => R S (ip ::ₘ A) B fs

end Accounting

/-! ### Reading -/

namespace Reading

variable (h : Reading E R)

include h

theorem readiKernel (hip : ip ∈ A) {off n : Nat} :
    Stable E (R S A B) (readiKernel ip off n) := by
  refine ⟨fun fs hfs => ?_⟩
  rw [Fs.readiKernel, wp_withLocal]
  refine wp_mono ((h.readi hip).wp (fs, []) hfs) (fun _ _ h1 => h1) fun e he => ?_
  rcases e with e | e
  · exact he
  · exact e.elim

theorem readDirent (hdp : dp ∈ A) {off : Nat} {e : Panic}
    (he : e.ofWalk = true) : Stable E (R S A B) (readDirent dp off e) := by
  refine .bind (h.readiKernel hdp) ?_
  rintro ⟨r, bs⟩
  exact .ite (.stop (h.stops e he)) (.pure _)

theorem dirlookup (hdp : dp ∈ A) (hfs : R S A B fs) :
    wp (dirlookup dp name) (Accounting.Found R S A B) E fs := by
  simp only [Fs.dirlookup, wp_bind, Fs.dinodeOf, wp_gets, wp_ite]
  refine ⟨fun _ => wp_stop.mpr (h.stops _ rfl), fun _ => ?_⟩
  refine wp_imp (wp_firstM (A := fun r fs' => R S A (r.1 ::ₘ B) fs') ?_ hfs) ?_
  · intro k _ fs1 h1
    refine (h.readDirent hdp rfl).seq h1 fun de fs2 h2 => ?_
    simp only [wp_ite, wp_bind, wp_pure]
    refine ⟨fun _ => h2, fun _ => ⟨fun _ => ?_, fun _ => h2⟩⟩
    exact h.iget h2
  · rintro (_ | ⟨ip, off⟩) fs' h' <;> exact h'

theorem isdirempty (hdp : dp ∈ A) : Stable E (R S A B) (isdirempty dp) := by
  refine .bind (.gets _) fun d => .bind (.firstM (fun k => ?_) _) fun _ => .pure _
  exact .bind (h.readDirent hdp rfl) fun _ => .pure _

end Reading

/-! ### Single inodes -/

namespace Accounting

theorem dinodeOf : Stable E (R S A B) (dinodeOf ip) := .gets _

variable (h : Accounting E R)

include h

/-- An inode that was read may be locked again. -/
theorem relock (hip : ip ∈ A) : Stable E (R S A B) (Fs.ilock ip) := by
  refine ⟨fun fs hfs => ?_⟩
  obtain ⟨A', rfl⟩ := exists_cons_of_mem hip
  exact h.ilock (h.loosen hfs)

theorem iputKnown (hfs : R S (ip ::ₘ A) B fs) :
    wp (Fs.iput ip) (fun _ fs' => R S A B fs') E fs :=
  h.iput (h.loosen hfs)

theorem iunlockput (hfs : R S (ip ::ₘ A) B fs) :
    wp (iunlockput ip) (fun _ fs' => R S A B fs') E fs := by
  exact h.iunlock.seq hfs fun _ fs1 h1 => h.iputKnown h1

theorem addLinks (hip : ip ∈ A) (n : Int) :
    Stable E (R S A B) (addLinks ip n) := by
  refine ⟨fun fs hfs => ?_⟩
  rw [Fs.addLinks, wp_bind]
  exact h.update hip (fun _ => ⟨rfl, rfl, rfl⟩) hfs

/-! ### Directories -/

theorem writeiKernel (hip : ip ∈ A) {off : Nat} {bs : List UInt8} :
    Stable E (R S A B) (writeiKernel ip bs off) := by
  refine .bind ⟨fun fs hfs => ?_⟩ fun _ => .pure _
  rw [wp_withLocal]
  refine wp_mono ((h.writei hip).wp (fs, ()) hfs) (fun _ _ h1 => h1) fun e he => ?_
  rcases e with e | e
  · exact he
  · exact e.elim

theorem dirlink (hdp : dp ∈ A) {inum : Nat} :
    Stable E (R S A B) (dirlink dp name inum) := by
  refine ⟨fun fs hfs => ?_⟩
  refine wp_then (h.dirlookup hdp hfs) ?_
  rintro (_ | ⟨ip, off⟩) fs1 h1
  · -- the entry goes to the first free slot
    refine Stable.wp (.bind dinodeOf fun d => .bind (.firstM (fun k => ?_) _) fun free =>
      .bind (h.writeiKernel hdp) fun r => .pure _) fs1 h1
    exact .bind (h.readDirent hdp rfl) fun _ => .pure _
  · exact wp_then (h.iput h1) fun _ fs2 h2 => wp_pure.mpr h2

/-! ### Paths -/

/-- The loop of `namex` from the point where it locks the inode. What locking gives
is a hypothesis, since more is known of the first inode of all. -/
theorem namexLoop_locked {parent : Bool} {fuel : Nat} {rest : Path}
    (hskip : skipelem path = some (name, rest)) (hnext : ∀ {next fs'}, R S A (next ::ₘ B) fs' →
      wp (namexLoop parent fuel next rest) (Found R S A B) E fs')
    (hlock : wp (Fs.ilock ip) (fun _ fs' => R S (ip ::ₘ A) B fs') E fs) :
    wp (namexLoop parent (fuel + 1) ip path) (Found R S A B) E fs := by
  unfold namexLoop
  rw [hskip]
  simp only [wp_bind, wp_ite, Fs.dinodeOf, wp_gets]
  refine wp_imp hlock fun _ fs1 h1 => ⟨fun _ => ?_, fun _ => ⟨fun _ => ?_, fun _ => ?_⟩⟩
  · exact wp_imp (h.iunlockput h1) fun _ fs2 h2 => wp_pure.mpr h2
  · exact h.iunlock.andThen h1 fun _ fs2 h2 => wp_pure.mpr (h.loosen h2)
  · refine wp_imp (h.dirlookup (mem_cons_self ip A) h1) ?_
    rintro (_ | ⟨next, off⟩) fs2 h2
    · exact wp_then (h.iunlockput h2) fun _ fs3 h3 => wp_pure.mpr h3
    · exact wp_then (h.iunlockput h2) fun _ fs3 h3 => hnext h3

theorem namexLoop {parent : Bool} (fuel : Nat) {ip : IPtr} {path : Path}
    (hfs : R S A (ip ::ₘ B) fs) : wp (namexLoop parent fuel ip path) (Found R S A B) E fs := by
  induction fuel generalizing ip path fs with
  | zero =>
    unfold Fs.namexLoop
    split
    · rw [wp_ite]
      refine ⟨fun _ => ?_, fun _ => wp_pure.mpr hfs⟩
      exact wp_then (h.iput hfs) fun _ fs1 h1 => wp_pure.mpr h1
    · exact wp_stop.mpr (h.stops _ rfl)
    · rename_i heq
      cases heq
  | succ fuel ih =>
    cases hskip : skipelem path with
    | some r => exact h.namexLoop_locked hskip ih (h.ilock hfs)
    | none =>
      unfold Fs.namexLoop
      rw [hskip]
      simp only [wp_ite, wp_bind]
      refine ⟨fun _ => ?_, fun _ => wp_pure.mpr hfs⟩
      exact wp_imp (h.iput hfs) fun _ fs1 h1 => wp_pure.mpr h1

theorem namex {parent : Bool} (hcwd : ∀ ip, cwd = some ip → ip ∈ A)
    (hfs : R S A B fs) : wp (namex cwd path parent) (Found R S A B) E fs := by
  unfold Fs.namex
  rw [wp_ite]
  refine ⟨fun _ => ?_, fun _ => ?_⟩
  · exact wp_then (h.iget hfs) fun ip fs1 h1 => h.namexLoop _ h1
  · rcases cwd with _ | ip
    · exact wp_stop.mpr (h.stops _ rfl)
    · exact wp_then (h.idup (hcwd ip rfl) hfs) fun _ fs1 h1 => h.namexLoop _ (h.loosen h1)

/-- What `namei` leaves. -/
def FoundInode (R : Set Nat → Multiset IPtr → Multiset IPtr → State → Prop) (S : Set Nat)
    (A B : Multiset IPtr) (r : Option IPtr) (fs : State) : Prop :=
  match r with
  | none => R S A B fs
  | some ip => R S A (ip ::ₘ B) fs

theorem namei (hcwd : ∀ ip, cwd = some ip → ip ∈ A) (hfs : R S A B fs) :
    wp (namei cwd path) (FoundInode R S A B) E fs := by
  refine wp_then (h.namex hcwd hfs) ?_
  rintro (_ | ⟨ip, name⟩) fs1 h1 <;> exact wp_pure.mpr h1

theorem nameiparent (hcwd : ∀ ip, cwd = some ip → ip ∈ A)
    (hfs : R S A B fs) : wp (nameiparent cwd path) (Found R S A B) E fs :=
  h.namex hcwd hfs

/-! ### System calls on names -/

theorem createInit (hip : ip ∈ A) {type : IType} {major minor : Int} :
    Stable E (R S A B) (createInit ip dp type major minor) := by
  refine ⟨fun fs hfs => ?_⟩
  simp only [Fs.createInit, wp_bind]
  refine wp_imp (h.update hip (fun _ => ⟨rfl, rfl, rfl⟩) hfs) fun _ fs1 h1 =>
    wp_imp h1 fun _ fs2 h2 => ?_
  exact Stable.wp (.ite (.bind (.gets _) fun _ => .bind (h.dirlink hip) fun _ =>
    .ite (h.dirlink hip) (.pure _)) (.pure _)) fs2 h2

/-- The part of `create` after the new inode was locked. -/
theorem createLink {type : IType} {major minor : Int}
    (hfs : R S (ip ::ₘ dp ::ₘ A) B fs) :
    wp (do
      let ok ← Fs.createInit ip dp type major minor
      let fs ← .gets id
      let ok ← (if ok then Fs.dirlink dp name (fs.inode ip).inum else pure false)
      if ok then do
        Prog.when (type = .dir) (Fs.addLinks dp 1)
        Fs.iunlockput dp
        pure (some ip)
      else do
        setDinode ip fun d => { d with nlink := 0 }
        iupdate ip
        Fs.iunlockput ip
        Fs.iunlockput dp
        pure none) (FoundLocked R S A B) E fs := by
  have hip : ip ∈ ip ::ₘ dp ::ₘ A := mem_cons_self ..
  have hdp : dp ∈ ip ::ₘ dp ::ₘ A := mem_cons_of_mem (mem_cons_self ..)
  refine (h.createInit hip).seq hfs fun ok fs1 h1 => ?_
  rw [wp_bind, wp_gets]
  refine Stable.seq (.ite (h.dirlink hdp) (.pure _)) h1
    fun ok fs2 h2 => ?_
  simp only [wp_ite, wp_bind, wp_pure]
  refine ⟨fun _ => ?_, fun _ => ?_⟩
  · refine Stable.andThen (.when (h.addLinks hdp 1)) h2
      fun _ fs3 h3 => ?_
    rw [cons_swap] at h3
    exact h.iunlockput h3
  · refine wp_imp (h.update hip (fun _ => ⟨rfl, rfl, rfl⟩) h2) fun _ fs3 h3 =>
      wp_imp h3 fun _ fs4 h4 => ?_
    exact wp_imp (h.iunlockput h4) fun _ fs5 h5 => h.iunlockput h5

theorem create {type : IType} {major minor : Int} (htype : type ≠ .free)
    (hcwd : ∀ ip, cwd = some ip → ip ∈ A) (hfs : R S A B fs) :
    wp (create cwd path type major minor) (FoundLocked R S A B) E fs := by
  refine wp_then (h.nameiparent hcwd hfs) ?_
  rintro (_ | ⟨dp, name⟩) fs1 h1
  · exact wp_pure.mpr h1
  refine wp_then (h.ilock h1) fun _ fs2 h2 => ?_
  refine wp_then (h.dirlookup (mem_cons_self dp A) h2) ?_
  rintro (_ | ⟨ip, off⟩) fs3 h3
  · refine wp_then (h.ialloc htype h3) ?_
    rintro (_ | ip) fs4 h4
    · exact wp_then (h.iunlockput h4) fun _ fs5 h5 => wp_pure.mpr h5
    · exact wp_then h4 fun _ fs5 h5 => h.createLink h5
  · simp only [wp_bind, wp_ite, Fs.dinodeOf, wp_gets, wp_pure]
    refine wp_imp (h.iunlockput h3) fun _ fs4 h4 => ?_
    refine wp_imp (h.ilock h4) fun _ fs5 h5 => ⟨fun _ => h5, fun _ => ?_⟩
    exact h.iunlockput h5

theorem linkBad (hfs : R S (ip ::ₘ A) B fs) :
    wp (linkBad ip) (fun _ fs' => R S A B fs') E fs := by
  have hip := mem_cons_self ip A
  simp only [Fs.linkBad, wp_bind, wp_pure]
  refine (h.relock hip).andThen hfs fun _ fs1 h1 => ?_
  refine (h.addLinks hip (-1)).andThen h1 fun _ fs2 h2 => ?_
  exact wp_imp (h.iunlockput h2) fun _ fs3 h3 => h.endOp.wp fs3 h3

theorem linkOp {old new : Path} (hcwd : ∀ ip, cwd = some ip → ip ∈ A)
    (hfs : R S A B fs) : wp (linkOp cwd old new) (fun _ fs' => R S A B fs') E fs := by
  refine h.beginOp.seq hfs fun _ fs1 h1 => ?_
  refine wp_then (h.namei hcwd h1) ?_
  rintro (_ | ip) fs2 h2
  · exact Stable.wp (.bind h.endOp fun _ => .pure _) fs2 h2
  simp only [wp_bind, wp_ite, Fs.dinodeOf, wp_gets, wp_pure]
  refine wp_imp (h.ilock h2) fun _ fs3 h3 => ⟨fun _ => ?_, fun _ => ?_⟩
  · exact wp_imp (h.iunlockput h3) fun _ fs4 h4 => h.endOp.wp fs4 h4
  refine (h.addLinks (mem_cons_self ip A) 1).andThen h3 fun _ fs4 h4 => ?_
  refine h.iunlock.andThen h4 fun _ fs5 h5 => ?_
  refine wp_imp (h.nameiparent (fun x hx => mem_cons_of_mem (hcwd x hx)) h5) ?_
  rintro (_ | ⟨dp, name⟩) fs6 h6
  · exact h.linkBad h6
  simp only [wp_bind, wp_ite, wp_gets, wp_pure]
  refine wp_imp (h.ilock h6) fun _ fs7 h7 => ?_
  refine (h.dirlink (mem_cons_self dp _)).andThen h7 fun ok fs8 h8 =>
    ⟨fun _ => ?_, fun _ => ?_⟩
  · refine wp_imp (h.iunlockput h8) fun _ fs9 h9 => ?_
    exact wp_imp (h.iputKnown h9) fun _ fs10 h10 => h.endOp.wp fs10 h10
  · exact wp_imp (h.iunlockput h8) fun _ fs9 h9 => h.linkBad h9

theorem sysLink {old new : Option Path}
    (hcwd : ∀ ip, cwd = some ip → ip ∈ A) (hfs : R S A B fs) :
    wp (sysLink cwd old new) (fun _ fs' => R S A B fs') E fs := by
  rcases old with _ | old <;> rcases new with _ | new
  · exact wp_pure.mpr hfs
  · exact wp_pure.mpr hfs
  · exact wp_pure.mpr hfs
  · exact h.linkOp hcwd hfs

theorem unlinkBad (hfs : R S (dp ::ₘ A) B fs) :
    wp (unlinkBad dp) (fun _ fs' => R S A B fs') E fs := by
  simp only [Fs.unlinkBad, wp_bind, wp_pure]
  exact wp_imp (h.iunlockput hfs) fun _ fs1 h1 => h.endOp.wp fs1 h1

theorem unlinkErase {off : Nat} (hfs : R S (ip ::ₘ dp ::ₘ A) B fs) :
    wp (unlinkErase dp ip off) (fun _ fs' => R S A B fs') E fs := by
  have hip : ip ∈ ip ::ₘ A := mem_cons_self ..
  have hdp : dp ∈ ip ::ₘ dp ::ₘ A := mem_cons_of_mem (mem_cons_self ..)
  simp only [Fs.unlinkErase, wp_bind, wp_ite, Fs.dinodeOf, wp_gets, wp_pure]
  refine (h.writeiKernel hdp).andThen hfs fun r fs1 h1 =>
    ⟨fun _ => wp_stop.mpr (h.stops _ rfl), fun _ => ?_⟩
  refine Stable.andThen (.when (h.addLinks hdp (-1))) h1
    fun _ fs2 h2 => ?_
  rw [cons_swap] at h2
  refine wp_imp (h.iunlockput h2) fun _ fs3 h3 => ?_
  refine (h.addLinks hip (-1)).andThen h3 fun _ fs4 h4 => ?_
  exact wp_imp (h.iunlockput h4) fun _ fs5 h5 => h.endOp.wp fs5 h5

theorem unlinkOp (hcwd : ∀ ip, cwd = some ip → ip ∈ A)
    (hfs : R S A B fs) : wp (unlinkOp cwd path) (fun _ fs' => R S A B fs') E fs := by
  refine h.beginOp.seq hfs fun _ fs1 h1 => ?_
  refine wp_then (h.nameiparent hcwd h1) ?_
  rintro (_ | ⟨dp, name⟩) fs2 h2
  · exact Stable.wp (.bind h.endOp fun _ => .pure _) fs2 h2
  simp only [wp_bind, wp_ite]
  refine wp_imp (h.ilock h2) fun _ fs3 h3 => ⟨fun _ => h.unlinkBad h3, fun _ => ?_⟩
  refine wp_imp (h.dirlookup (mem_cons_self dp A) h3) ?_
  rintro (_ | ⟨ip, off⟩) fs4 h4
  · exact h.unlinkBad h4
  refine wp_then (h.ilock h4) fun _ fs5 h5 => ?_
  rw [wp_bind, Fs.dinodeOf, wp_gets, wp_ite]
  refine ⟨fun _ => wp_stop.mpr (h.stops _ rfl), fun _ => ?_⟩
  refine Stable.seq
    (.ite (h.isdirempty (mem_cons_self ip _)) (.pure _)) h5 fun fit fs6 h6 => ?_
  rw [wp_ite]
  refine ⟨fun _ => ?_, fun _ => ?_⟩
  · exact wp_then (h.iunlockput h6) fun _ fs7 h7 => h.unlinkBad h7
  · exact h.unlinkErase h6

theorem sysUnlink {path : Option Path}
    (hcwd : ∀ ip, cwd = some ip → ip ∈ A) (hfs : R S A B fs) :
    wp (sysUnlink cwd path) (fun _ fs' => R S A B fs') E fs := by
  rcases path with _ | path
  · exact wp_pure.mpr hfs
  · exact h.unlinkOp hcwd hfs

theorem makeOp {path : Option Path} {type : IType} {major minor : Int}
    (htype : type ≠ .free) (hcwd : ∀ ip, cwd = some ip → ip ∈ A) (hfs : R S A B fs) :
    wp (makeOp cwd path type major minor) (fun _ fs' => R S A B fs') E fs := by
  refine h.beginOp.seq hfs fun _ fs1 h1 => ?_
  rw [wp_bind]
  have harg : wp (createArg cwd path type major minor) (FoundLocked R S A B) E fs1 := by
    rcases path with _ | path
    · exact wp_pure.mpr h1
    · exact h.create htype hcwd h1
  refine wp_imp harg ?_
  rintro (_ | ip) fs2 h2
  · exact Stable.wp (I := R S A B) (.bind h.endOp fun _ => .pure _) fs2 h2
  · simp only [wp_bind, wp_pure]
    exact wp_imp (h.iunlockput h2) fun _ fs3 h3 => h.endOp.wp fs3 h3

/-- `sys_chdir` gives back the old current directory, or keeps it. -/
theorem sysChdir {path : Option Path} (hfs : R S (cwd.elim A (· ::ₘ A)) B fs) :
    wp (sysChdir cwd path) (fun r fs' => match r with
      | none => R S (cwd.elim A (· ::ₘ A)) B fs'
      | some ip => R S (ip ::ₘ A) B fs') E fs := by
  refine h.beginOp.seq hfs fun _ fs1 h1 => ?_
  rw [wp_bind]
  have harg : wp (nameiArg cwd path) (FoundInode R S (cwd.elim A (· ::ₘ A)) B) E fs1 := by
    rcases path with _ | path
    · exact wp_pure.mpr h1
    · refine h.namei (fun ip hip => ?_) h1
      rw [hip]
      exact mem_cons_self ip A
  refine wp_imp harg ?_
  rintro (_ | ip) fs2 h2
  · simp only [wp_bind, wp_pure]
    exact h.endOp.wp fs2 h2
  simp only [wp_bind, wp_ite, Fs.dinodeOf, wp_gets, wp_pure]
  refine wp_imp (h.ilock h2) fun _ fs3 h3 => ⟨fun _ => ?_, fun _ => ?_⟩
  · exact wp_imp (h.iunlockput h3) fun _ fs4 h4 => h.endOp.wp fs4 h4
  refine h.iunlock.andThen h3 fun _ fs4 h4 => ?_
  rcases cwd with _ | old
  · exact wp_stop.mpr (h.stops _ rfl)
  · rw [Option.elim, cons_swap] at h4
    exact wp_imp (h.iputKnown h4) fun _ fs5 h5 => h.endOp.wp fs5 h5

/-! ### Orphans -/

theorem reclaim {inum : Nat} (hfs : R S A B fs) :
    wp (reclaim inum) (fun _ fs' => R (insert inum S) A B fs') E fs := by
  simp only [Fs.reclaim, wp_bind]
  refine wp_imp (h.take hfs) fun ip fs1 h1 => wp_imp h1 fun _ fs2 h2 => wp_imp h2 fun _ fs3 h3 => ?_
  refine h.iunlock.andThen h3 fun _ fs4 h4 => ?_
  exact wp_imp (h.iputKnown h4) fun _ fs5 h5 => h.endOp.wp fs5 h5

/-- `ireclaim` deals with every inode number. -/
theorem ireclaim (hfs : R ∅ A B fs) :
    wp ireclaim (fun _ fs' => R (inums fs.sb.ninodes) A B fs') E fs := by
  have hloop : ∀ (n i : Nat) {S : Set Nat} {fs : State}, R S A B fs →
      wp (Prog.each (fun inum => do
        let d ← .gets fun fs => fs.dinode inum
        Prog.when (d.type ≠ .free ∧ d.nlink = 0) (Fs.reclaim inum)) (List.range' i n))
        (fun _ fs' => R (S ∪ {j | i ≤ j ∧ j < i + n}) A B fs') E fs := by
    intro n
    induction n with
    | zero =>
      intro i S fs hfs
      refine wp_pure.mpr ?_
      have hnone : {j | i ≤ j ∧ j < i + 0} = (∅ : Set Nat) := by
        ext j
        simp
      rwa [hnone, Set.union_empty]
    | succ n ih =>
      intro i S fs hfs
      rw [List.range'_succ, Prog.each, wp_bind, wp_bind, wp_gets]
      have hturn : wp (Prog.when ((fs.dinode i).type ≠ .free ∧ (fs.dinode i).nlink = 0)
          (Fs.reclaim i)) (fun _ fs' => R (insert i S) A B fs') E fs :=
        wp_when.mpr ⟨fun _ => h.reclaim hfs, fun hno => h.skip hfs hno⟩
      refine wp_imp hturn fun _ fs1 h1 => wp_imp (ih (i + 1) h1) fun _ fs2 h2 => ?_
      have hset : insert i S ∪ {j | i + 1 ≤ j ∧ j < i + 1 + n} =
          S ∪ {j | i ≤ j ∧ j < i + (n + 1)} := by
        ext j
        simp only [Set.mem_union, Set.mem_insert_iff, Set.mem_ofPred_eq]
        have : (i + 1 ≤ j ∧ j < i + 1 + n) ∨ j = i ↔ i ≤ j ∧ j < i + (n + 1) := by omega
        tauto
      rwa [hset] at h2
  rw [Fs.ireclaim, wp_bind, wp_gets]
  refine wp_imp (hloop (fs.sb.ninodes - 1) 1 hfs) fun _ fs1 h1 => ?_
  have hset : ∅ ∪ {j | 1 ≤ j ∧ j < 1 + (fs.sb.ninodes - 1)} = inums fs.sb.ninodes := by
    ext j
    simp only [Set.empty_union, Set.mem_ofPred_eq, inums]
    omega
  rwa [hset] at h1

end Accounting

end Xv6.Fs
