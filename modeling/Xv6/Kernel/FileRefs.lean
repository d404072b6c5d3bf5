import Xv6.Fs.Accounting
import Xv6.Kernel.PageFlow
import Xv6.Lib.Holders

/-!
# xv6 — keeping account of open files

The reference count of an entry of the file table says how many descriptors point
to it; the entry in turn holds a reference to an inode. This module follows the
functions of `kernel/file.c` and the system calls on descriptors through all their
exits, for any account `R` of inode references (`Xv6.Fs.Accounting`).

* `Files`  — the reference counts of the file table are the references in `F`; the
  inodes of open files, with those in `A` and `B`, are what `R` counts.
* `Held`   — the same with the descriptors and current directories of the moment.
* `AtRest` — no system call is in progress: the references are those of the
  descriptors and of the current directories.
-/

namespace Xv6.Kernel

open Prog Holders Function Multiset

variable {k' : State} {x : File} {addr omode : Nat} {arg n : Int}

/-- Reasons to stop: no panic of `filedup` or `fileclose`, and of the file system
those in `E`. -/
def NotFileRef (E : Fs.Panic → Prop) (x : Stop) : Prop :=
  x ≠ .kern .filedup ∧ x ≠ .kern .fileclose ∧ ∀ e, x = .fs e → E e

theorem NotFileRef.vm {E : Fs.Panic → Prop} {e : Vm.Panic} : NotFileRef E (.vm e) :=
  ⟨nofun, nofun, nofun⟩

theorem NotFileRef.fs {E : Fs.Panic → Prop} {e : Fs.Panic} (h : E e) : NotFileRef E (.fs e) :=
  ⟨nofun, nofun, fun _ he => Stop.fs.inj he ▸ h⟩

/-- The inode an open file holds. -/
def File.node (x : File) : Option Fs.IPtr :=
  if x.type = .inode ∨ x.type = .device then x.ip else none

/-- The inodes that open files hold. -/
def State.node (k : State) (f : FPtr) : Option Fs.IPtr := (k.file f).node

/-- The descriptors of all processes. -/
def State.slot (k : State) (s : Pid × Fin NOFILE) : Option FPtr := (k.proc s.1).ofile s.2

/-- The current directories of all processes. -/
def State.cwds (k : State) (p : Pid) : Option Fs.IPtr := (k.proc p).cwd

/-- The references to open files are those in `F`, and the references to inodes
those of open files and those in `A` and `B`; the first process has been started. -/
structure Files (R : Set Nat → Multiset Fs.IPtr → Multiset Fs.IPtr → Fs.State → Prop)
    (S : Set Nat) (F : Multiset FPtr) (A B : Multiset Fs.IPtr) (k : State) : Prop where
  count : ∀ f, (k.file f).ref = (F.count f : Int)
  closed : ∀ f, (k.file f).ref = 0 → (k.file f).type = .none
  named : ∀ f, (k.file f).type = .inode ∨ (k.file f).type = .device → (k.file f).ip ≠ none
  fs : R S (held k.node + A) B k.fs
  booted : k.first = false

variable {α : Type} {E : Fs.Panic → Prop}
  {R : Set Nat → Multiset Fs.IPtr → Multiset Fs.IPtr → Fs.State → Prop} {S : Set Nat}
  {F : Multiset FPtr} {A B : Multiset Fs.IPtr} {k : State} {p : Pid} {f : FPtr} {ip : Fs.IPtr}
  {σ : Pid × Fin NOFILE → Option FPtr} {γ : Pid → Option Fs.IPtr}

/-! ### Parts of the kernel that are not concerned -/

/-- The program leaves open files and the file system alone. -/
abbrev KeepsFiles (E : Fs.Panic → Prop) (m : KM α) : Prop :=
  Keeps (NotFileRef E) (fun k => (k.file, k.fs, k.first)) m

theorem Files.of_eq (h : Files R S F A B k)
    (hk : (k'.file, k'.fs, k'.first) = (k.file, k.fs, k.first)) : Files R S F A B k' := by
  obtain ⟨hfile, hrest⟩ := Prod.mk.inj hk
  obtain ⟨hfs, hfirst⟩ := Prod.mk.inj hrest
  have hnode : k'.node = k.node := by
    funext f
    rw [State.node, hfile, State.node]
  refine ⟨fun f => ?_, fun f => ?_, fun f => ?_, ?_, hfirst.trans h.booted⟩
  · rw [hfile]
    exact h.count f
  · rw [hfile]
    exact h.closed f
  · rw [hfile]
    exact h.named f
  · rw [hnode, hfs]
    exact h.fs

theorem Files.stable {m : KM α} (hm : KeepsFiles E m) : Stable (NotFileRef E) (Files R S F A B) m :=
  hm.stable fun _ _ hk h => h.of_eq hk

theorem keepsFiles_onMem {m : Vm.MemM α} : KeepsFiles E (onMem m) :=
  .zoom (fun _ => .vm) fun _ _ => rfl

theorem keepsFiles_updProc {g : Proc → Proc} : KeepsFiles E (updProc p g) := .modify fun _ => rfl

theorem keepsFiles_onUser {other : Option Vm.Pagetable} {m : Vm.UserM α} :
    KeepsFiles E (onUser p other m) := by
  refine .bind (.gets _) fun k => ?_
  split
  · exact .stop .vm
  · exact .zoom (fun _ => .vm) fun _ _ => rfl

theorem keepsFiles_copyout {va : Nat} {bs : List UInt8} : KeepsFiles E (copyout p va bs) :=
  keepsFiles_onUser

theorem keepsFiles_copyin {va n : Nat} : KeepsFiles E (copyin p va n) := keepsFiles_onUser

theorem keepsFiles_setFd {fd : Fin NOFILE} {o : Option FPtr} : KeepsFiles E (setFd p fd o) :=
  keepsFiles_updProc

theorem keepsFiles_fdalloc : KeepsFiles E (fdalloc p f) := by
  refine .bind (.gets _) fun k => ?_
  split
  · exact .pure _
  · exact .bind keepsFiles_setFd fun _ => .pure _

/-! ### The file system -/

/-- A program of the file system, given what it does to its account. -/
theorem Files.wp_onFs_to {m : Fs.FsM α} {C D : α → Multiset Fs.IPtr}
    {G : Set Nat → Multiset Fs.IPtr → Multiset Fs.IPtr → Fs.State → Prop} {T : Set Nat}
    (h : Files R S F A B k)
    (hm : ∀ N fs, R S (N + A) B fs → wp m (fun a fs' => G T (N + C a) (D a) fs') E fs) :
    wp (onFs m) (fun a k' => Files G T F (C a) (D a) k') (NotFileRef E) k := by
  rw [onFs, wp_zoom]
  exact wp_mono (hm _ _ h.fs) (fun a fs' h' => ⟨h.count, h.closed, h.named, h', h.booted⟩)
    fun _ he => .fs he

/-- A program of the file system, given its account. -/
theorem Files.wp_onFs {m : Fs.FsM α} {C D : α → Multiset Fs.IPtr} (h : Files R S F A B k)
    (hm : ∀ N fs, R S (N + A) B fs → wp m (fun a fs' => R S (N + C a) (D a) fs') E fs) :
    wp (onFs m) (fun a k' => Files R S F (C a) (D a) k') (NotFileRef E) k :=
  h.wp_onFs_to hm

theorem Files.stable_onFs {m : Fs.FsM α} (hm : ∀ N, Stable E (R S (N + A) B) m) :
    Stable (NotFileRef E) (Files R S F A B) (onFs m) :=
  ⟨fun _ h => h.wp_onFs fun N fs hfs => (hm N).wp fs hfs⟩

theorem Files.stable_onFsMem {m : Fs.IoM Vm.Panic Vm.Mem α}
    (hm : ∀ N, Stable (Sum.elim E fun _ => True) (fun s => R S (N + A) B s.1) m) :
    Stable (NotFileRef E) (Files R S F A B) (onFsMem m) := by
  refine ⟨fun k h => ?_⟩
  rw [onFsMem, wp_zoom]
  refine wp_mono ((hm _).wp _ h.fs) (fun a s h' => ⟨h.count, h.closed, h.named, h', h.booted⟩) ?_
  rintro (e | e) he
  · exact .fs he
  · exact .vm

/-! ### Entries of the file table -/

theorem State.node_setFile (k : State) (f : FPtr) (x : File) :
    (k.setFile f x).node = update k.node f x.node := by
  funext g
  by_cases hg : g = f
  · subst hg
    rw [State.node, State.setFile_file_same, update_self]
  · rw [State.node, State.setFile_file_of_ne _ _ hg, update_of_ne hg, State.node]

/-- An entry changes, and with it the references to it and those it holds. -/
theorem Files.setFile {F' : Multiset FPtr} {A' : Multiset Fs.IPtr} (h : Files R S F A B k)
    (hcount : x.ref = (F'.count f : Int)) (hothers : ∀ g, g ≠ f → F'.count g = F.count g)
    (hclosed : x.ref = 0 → x.type = .none)
    (hnamed : x.type = .inode ∨ x.type = .device → x.ip ≠ none)
    (hnode : held (update k.node f x.node) + A' = held k.node + A) :
    Files R S F' A' B (k.setFile f x) := by
  refine ⟨fun g => ?_, fun g => ?_, fun g => ?_, ?_, h.booted⟩
  · by_cases hg : g = f
    · rw [hg, State.setFile_file_same]
      exact hcount
    · rw [State.setFile_file_of_ne _ _ hg, h.count, hothers g hg]
  · by_cases hg : g = f
    · rw [hg, State.setFile_file_same]
      exact hclosed
    · rw [State.setFile_file_of_ne _ _ hg]
      exact h.closed g
  · by_cases hg : g = f
    · rw [hg, State.setFile_file_same]
      exact hnamed
    · rw [State.setFile_file_of_ne _ _ hg]
      exact h.named g
  · rw [State.node_setFile, hnode]
    exact h.fs

/-- An entry changes that holds the same inode afterwards. -/
theorem Files.setFile_same {F' : Multiset FPtr} (h : Files R S F A B k)
    (hcount : x.ref = (F'.count f : Int)) (hothers : ∀ g, g ≠ f → F'.count g = F.count g)
    (htype : x.type = (k.file f).type) (hip : x.ip = (k.file f).ip)
    (hclosed : x.ref = 0 → x.type = .none) : Files R S F' A B (k.setFile f x) := by
  have hnode : x.node = k.node f := by rw [State.node, File.node, File.node, htype, hip]
  refine h.setFile hcount hothers hclosed ?_ ?_
  · rw [htype, hip]
    exact h.named f
  · rw [hnode, update_eq_self]

theorem Files.pos_of_mem (h : Files R S F A B k) (hf : f ∈ F) : 0 < (k.file f).ref := by
  rw [h.count]
  exact_mod_cast count_pos.mpr hf

/-- A change of an entry that concerns neither its references nor its inode. -/
theorem Files.stable_updFile {g : File → File}
    (hg : ∀ x, (g x).ref = x.ref ∧ (g x).type = x.type ∧ (g x).ip = x.ip) :
    Stable (NotFileRef E) (Files R S F A B) (updFile f g) := by
  refine ⟨fun k h => wp_updFile.mpr ?_⟩
  obtain ⟨href, htype, hip⟩ := hg (k.file f)
  refine h.setFile_same (href.trans (h.count f)) (fun _ _ => rfl) htype hip fun h0 => ?_
  rw [htype]
  exact h.closed f (href.symm.trans h0)

/-- The entry that `filealloc` takes. -/
theorem Files.alloc (h : Files R S F A B k) (href : (k.file f).ref = 0) :
    Files R S (f ::ₘ F) A B (k.setFile f { k.file f with ref := 1 }) := by
  have hcount : F.count f = 0 := by
    have := h.count f
    omega
  refine h.setFile_same ?_ (fun g hg => ?_) rfl rfl fun h0 => ?_
  · rw [count_cons_self, hcount]
    rfl
  · rw [count_cons_of_ne hg]
  · cases h0

theorem Files.wp_filedup (h : Files R S F A B k) (hf : f ∈ F) :
    wp (filedup f) (fun _ k' => Files R S (f ::ₘ F) A B k') (NotFileRef E) k := by
  have hpos := h.pos_of_mem hf
  simp only [filedup, wp_bind, wp_gets, id, wp_ite]
  refine ⟨fun hlt => by omega, fun _ => wp_updFile.mpr ?_⟩
  refine h.setFile_same ?_ (fun g hg => ?_) rfl rfl fun h0 => ?_
  · rw [h.count, count_cons_self]
    rfl
  · rw [count_cons_of_ne hg]
  · change (k.file f).ref + 1 = 0 at h0
    omega

/-- The reference a closed file held to an inode is given back. -/
theorem Files.wp_fileRelease (acct : Fs.Accounting E R)
    (hnamed : x.type = .inode ∨ x.type = .device → x.ip ≠ none)
    (h : Files R S F (x.node.elim A (· ::ₘ A)) B k) :
    wp (fileRelease x) (fun _ k' => Files R S F A B k') (NotFileRef E) k := by
  have hinode : x.type = .inode ∨ x.type = .device → wp (onFs do
      Fs.beginOp
      Fs.iputPtr x.ip
      Fs.endOp) (fun _ k' => Files R S F A B k') (NotFileRef E) k := by
    intro htype
    obtain ⟨ip, hip⟩ := Option.ne_none_iff_exists'.mp (hnamed htype)
    rw [File.node, if_pos htype, hip, Option.elim] at h
    refine h.wp_onFs fun N fs hfs => ?_
    rw [hip, add_cons] at *
    simp only [wp_bind]
    refine acct.beginOp.andThen hfs fun _ fs1 h1 => ?_
    exact wp_imp (acct.iputKnown h1) fun _ fs2 h2 => acct.endOp.wp fs2 h2
  have hother : ¬ (x.type = .inode ∨ x.type = .device) → Files R S F A B k := by
    intro htype
    rwa [File.node, if_neg htype] at h
  unfold fileRelease
  split
  · rename_i htype
    have hkeeps : KeepsFiles E (pipeclose x.pipe x.writable) :=
      .bind (.modify fun _ => rfl) fun _ => .bind (.gets _) fun _ => .when keepsFiles_onMem
    exact (Files.stable hkeeps).wp k (hother (by simp [htype]))
  · rename_i htype
    exact hinode (.inl htype)
  · rename_i htype
    exact hinode (.inr htype)
  · rename_i htype
    exact wp_pure.mpr (hother (by simp [htype]))

/-- **`fileclose`** takes a reference, and with the last one the inode's. -/
theorem Files.wp_fileclose (acct : Fs.Accounting E R) (h : Files R S (f ::ₘ F) A B k) :
    wp (fileclose f) (fun _ k' => Files R S F A B k') (NotFileRef E) k := by
  have href : (k.file f).ref = F.count f + 1 := by
    rw [h.count, count_cons_self]
    rfl
  simp only [fileclose, wp_bind, wp_gets, id, wp_ite, wp_updFile]
  refine ⟨fun hlt => by omega, fun _ => ⟨fun hmore => ?_, fun hlast => ?_⟩⟩
  · refine h.setFile_same ?_ (fun g hg => ?_) rfl rfl fun h0 => ?_
    · change (k.file f).ref - 1 = _
      omega
    · rw [count_cons_of_ne hg]
    · change (k.file f).ref - 1 = 0 at h0
      omega
  · refine Files.wp_fileRelease acct (h.named f) ?_
    refine h.setFile ?_ (fun g hg => ?_) (fun _ => rfl) ?_ ?_
    · change (0 : Int) = _
      omega
    · rw [count_cons_of_ne hg]
    · rintro (htype | htype) <;> cases htype
    · have hnone : ({ k.file f with ref := 0, type := .none } : File).node = none := by
        simp [File.node]
      rw [hnone]
      cases hnode : (k.file f).node with
      | none =>
        have hkf : update k.node f none = k.node := by
          conv_rhs => rw [← update_eq_self f k.node]
          rw [State.node, hnode]
        rw [hkf, Option.elim]
      | some ip =>
        have hkf : k.node f = some ip := hnode
        rw [Option.elim, held_eq_cons hkf, add_cons, cons_add]

/-- A file that holds no inode before and after. -/
theorem Files.setPipe (h : Files R S F A B k) (hnone : (k.file f).type = .none)
    (hpipe : x.type = .pipe) (href : x.ref = (k.file f).ref) (hf : f ∈ F) :
    Files R S F A B (k.setFile f x) := by
  have hx : x.node = none := by simp [File.node, hpipe]
  have hk : k.node f = none := by simp [State.node, File.node, hnone]
  have hpos := h.pos_of_mem hf
  refine h.setFile (href.trans (h.count f)) (fun _ _ => rfl) (fun h0 => ?_) ?_ ?_
  · omega
  · rw [hpipe]
    rintro (htype | htype) <;> cases htype
  · rw [hx, ← hk, update_eq_self]

theorem Files.wp_pipealloc (acct : Fs.Accounting E R) (h : Files R S F A B k) :
    wp pipealloc (fun r k' => match r with
      | none => Files R S F A B k'
      | some (f0, f1) => Files R S (f0 ::ₘ f1 ::ₘ F) A B k') (NotFileRef E) k := by
  rw [pipealloc, wp_bind]
  refine wp_filealloc (wp_pure.mpr h) fun f0 href0 => ?_
  have h1 := h.alloc href0
  rw [wp_bind]
  refine wp_filealloc ?_ fun f1 href1 => ?_
  · exact wp_then (h1.wp_fileclose acct) fun _ _ h2 => wp_pure.mpr h2
  have h2 := h1.alloc href1
  have hne : f0 ≠ f1 := by
    rintro rfl
    rw [State.setFile_file_same] at href1
    cases href1
  refine keepsFiles_onMem.seq rfl fun page k3 hk3 => ?_
  have hfile := (Prod.mk.inj hk3).1
  have h3 := h2.of_eq hk3
  rw [wp_ite]
  refine ⟨fun _ => ?_, fun _ => ?_⟩
  · -- no page for the pipe
    rw [cons_swap] at h3
    simp only [wp_bind, wp_pure]
    exact wp_imp (h3.wp_fileclose acct) fun _ k4 h4 => h4.wp_fileclose acct
  have htype1 : (k3.file f1).type = .none := by
    rw [hfile, State.setFile_file_same]
    exact h1.closed f1 href1
  have htype0 : (k3.file f0).type = .none := by
    rw [hfile, State.setFile_file_of_ne _ _ hne, State.setFile_file_same]
    exact h.closed f0 href0
  simp only [wp_bind, wp_modify, wp_updFile, wp_pure]
  rw [cons_swap] at h3
  have h4 : Files R S (f0 ::ₘ f1 ::ₘ F) A B
      { k3 with pipe := update k3.pipe page ⟨true, true⟩ } := h3.of_eq rfl
  refine Files.setPipe (h4.setPipe htype0 rfl rfl (mem_cons_self ..)) ?_ rfl rfl
    (mem_cons_of_mem (mem_cons_self ..))
  rw [State.setFile_file_of_ne _ _ hne.symm]
  exact htype1

/-! ### Reading and writing -/

/-- The file `f` holds the inode `ip`. -/
def FilesAt (R : Set Nat → Multiset Fs.IPtr → Multiset Fs.IPtr → Fs.State → Prop) (S : Set Nat)
    (F : Multiset FPtr) (A B : Multiset Fs.IPtr) (f : FPtr) (ip : Fs.IPtr) (k : State) : Prop :=
  Files R S F A B k ∧ k.node f = some ip

theorem FilesAt.mem (h : FilesAt R S F A B f ip k) : ip ∈ held k.node + A :=
  mem_add.mpr (.inl (mem_held.mpr ⟨f, h.2⟩))

theorem FilesAt.stable_onFs {m : Fs.FsM α} (hm : ∀ C, ip ∈ C → Stable E (R S C B) m) :
    Stable (NotFileRef E) (FilesAt R S F A B f ip) (onFs m) := by
  refine ⟨fun k h => ?_⟩
  rw [onFs, wp_zoom]
  exact wp_mono ((hm _ h.mem).wp _ h.1.fs)
    (fun a fs' h' => ⟨⟨h.1.count, h.1.closed, h.1.named, h', h.1.booted⟩, h.2⟩) fun _ he => .fs he

theorem FilesAt.stable_onIo {m : Fs.IoM Vm.Panic Vm.User α}
    (hm : ∀ C, ip ∈ C → Stable (Sum.elim E fun _ => True) (fun s => R S C B s.1) m) :
    Stable (NotFileRef E) (FilesAt R S F A B f ip) (onIo p m) := by
  refine ⟨fun k h => ?_⟩
  simp only [onIo, wp_bind, wp_gets]
  split
  · exact wp_stop.mpr .vm
  · rw [wp_zoom]
    refine wp_mono ((hm _ h.mem).wp _ h.1.fs)
      (fun a s h' => ⟨⟨h.1.count, h.1.closed, h.1.named, h', h.1.booted⟩, h.2⟩) ?_
    rintro (e | e) he
    · exact .fs he
    · exact .vm

/-- The offset of an open file moves. -/
theorem FilesAt.stable_setOff {g : File → Nat} :
    Stable (NotFileRef E) (FilesAt R S F A B f ip) (updFile f fun x => { x with off := g x }) := by
  refine ⟨fun k h => ?_⟩
  have hfiles := (Files.stable_updFile (E := E) (f := f) (g := fun x => { x with off := g x })
    fun _ => ⟨rfl, rfl, rfl⟩).wp k h.1
  rw [wp_updFile] at hfiles ⊢
  refine ⟨hfiles, ?_⟩
  rw [State.node, State.setFile_file_same]
  exact h.2

/-- The inode of an open file. -/
theorem Files.at_of_inode (h : Files R S F A B k)
    (htype : (k.file f).type = .inode ∨ (k.file f).type = .device) :
    ∃ ip, (k.file f).ip = some ip ∧ FilesAt R S F A B f ip k := by
  obtain ⟨ip, hip⟩ := Option.ne_none_iff_exists'.mp (h.named f htype)
  refine ⟨ip, hip, h, ?_⟩
  rw [State.node, File.node, if_pos htype, hip]

theorem ptr_some_bind (m : Fs.IPtr → Fs.FsM α) : (ptr (some ip) >>= m) = m ip := rfl

theorem onFs_ptr_some_bind (m : Fs.IPtr → KM α) : (onFs (ptr (some ip)) >>= m) = m ip := rfl

theorem Files.stable_filestat (acct : Fs.Accounting E R) :
    Stable (NotFileRef E) (Files R S F A B) (filestat p f addr) := by
  refine ⟨fun k h => ?_⟩
  simp only [filestat, wp_bind, wp_gets, id, wp_ite, wp_pure]
  refine ⟨fun htype => ?_, fun _ => h⟩
  obtain ⟨ip, hip, hat⟩ := h.at_of_inode htype
  rw [hip]
  refine Stable.andThen (FilesAt.stable_onFs fun C hC => ?_) hat
    fun st k1 h1 => ?_
  · rw [ptr_some_bind]
    exact .bind (acct.relock hC) fun _ => .bind (.gets _) fun _ =>
      .bind acct.iunlock fun _ => .pure _
  · exact (Files.stable keepsFiles_copyout).andThen h1.1 fun _ k2 h2 => ⟨fun _ => h2, fun _ => h2⟩

/-- `fileread`, where inodes that have been read may be locked, read from and unlocked. -/
theorem Files.stable_fileread_of {tr : Transfer}
    (hlock : ∀ C ip, ip ∈ C → Stable E (R S C B) (Fs.ilock ip))
    (hread : ∀ C ip (dst : Nat → List UInt8 → Vm.UserM Bool) off n, ip ∈ C →
      Stable (Sum.elim E fun _ => True) (fun s => R S C B s.1) (Fs.readi ip dst off n))
    (hunlock : ∀ C ip, Stable E (R S C B) (Fs.iunlock ip)) :
    Stable (NotFileRef E) (Files R S F A B) (fileread p f addr n tr) := by
  have hout : ∀ {bs : List UInt8}, Stable (NotFileRef E) (Files R S F A B) (do
      let _ ← copyout p addr bs
      pure tr.ret) := .bind (Files.stable keepsFiles_copyout) fun _ => .pure _
  refine ⟨fun k h => ?_⟩
  rw [fileread, wp_bind, wp_gets, id, wp_ite]
  refine ⟨fun _ => wp_pure.mpr h, fun _ => ?_⟩
  split
  · exact hout.wp k h
  · exact (Stable.ite (.pure _) hout).wp k h
  · rename_i htype
    obtain ⟨ip, hip, hat⟩ := h.at_of_inode (.inl htype)
    rw [hip, onFs_ptr_some_bind]
    refine wp_imp (Stable.wp ?_ k hat) fun _ _ h' => h'.1
    refine .bind (FilesAt.stable_onFs fun C hC => hlock C ip hC) fun _ => ?_
    refine .bind (FilesAt.stable_onIo fun C hC => hread C ip _ _ _ hC) fun r => ?_
    refine .bind (.when FilesAt.stable_setOff) fun _ => ?_
    exact .bind (FilesAt.stable_onFs fun C _ => hunlock C ip) fun _ => .pure _
  · exact wp_stop.mpr ⟨nofun, nofun, nofun⟩

theorem Files.stable_fileread (acct : Fs.Accounting E R) {tr : Transfer} :
    Stable (NotFileRef E) (Files R S F A B) (fileread p f addr n tr) :=
  Files.stable_fileread_of (fun _ _ => acct.relock) (fun _ _ _ _ _ => acct.readi)
    fun _ _ => acct.iunlock

theorem FilesAt.stable_writeChunk (acct : Fs.Accounting E R) {i n1 : Int} :
    Stable (NotFileRef E) (FilesAt R S F A B f ip) (writeChunk p f ip addr i n1) := by
  refine .bind (FilesAt.stable_onFs fun _ _ => acct.beginOp) fun _ => ?_
  refine .bind (FilesAt.stable_onFs fun _ hC => acct.relock hC) fun _ => .bind (.gets _) fun _ => ?_
  refine .bind (FilesAt.stable_onIo fun _ hC => acct.writei hC) fun r => ?_
  refine .bind (.when FilesAt.stable_setOff) fun _ => ?_
  exact .bind (FilesAt.stable_onFs fun _ _ => acct.iunlock) fun _ =>
    .bind (FilesAt.stable_onFs fun _ _ => acct.endOp) fun _ => .pure _

theorem FilesAt.stable_writeChunks (acct : Fs.Accounting E R) (fuel : Nat) {i : Int} :
    Stable (NotFileRef E) (FilesAt R S F A B f ip) (writeChunks p f ip addr n fuel i) := by
  induction fuel generalizing i with
  | zero => exact .pure _
  | succ fuel ih =>
    exact .ite (.bind (FilesAt.stable_writeChunk acct) fun _ => .ite (.pure _) ih) (.pure _)

theorem Files.stable_filewrite (acct : Fs.Accounting E R) {tr : Transfer} :
    Stable (NotFileRef E) (Files R S F A B) (filewrite p f addr n tr) := by
  have hin : Stable (NotFileRef E) (Files R S F A B) (do
      let _ ← copyin p addr tr.len
      pure tr.ret) := .bind (Files.stable keepsFiles_copyin) fun _ => .pure _
  refine ⟨fun k h => ?_⟩
  rw [filewrite, wp_bind, wp_gets, id, wp_ite]
  refine ⟨fun _ => wp_pure.mpr h, fun _ => ?_⟩
  split
  · exact hin.wp k h
  · exact (Stable.ite (.pure _) hin).wp k h
  · rename_i htype
    obtain ⟨ip, hip, hat⟩ := h.at_of_inode (.inl htype)
    rw [hip, onFs_ptr_some_bind]
    refine wp_imp (Stable.wp ?_ k hat) fun _ _ h' => h'.1
    exact .bind (FilesAt.stable_writeChunks acct _) fun _ => .pure _
  · exact wp_stop.mpr ⟨nofun, nofun, nofun⟩

/-! ### Descriptors -/

/-- The descriptors are those in `σ` and the current directories those in `γ`. -/
structure Held (R : Set Nat → Multiset Fs.IPtr → Multiset Fs.IPtr → Fs.State → Prop) (S : Set Nat)
    (σ : Pid × Fin NOFILE → Option FPtr) (γ : Pid → Option Fs.IPtr) (F : Multiset FPtr)
    (A B : Multiset Fs.IPtr) (k : State) : Prop where
  slot : k.slot = σ
  cwds : k.cwds = γ
  files : Files R S F A B k

/-- No system call is in progress. -/
def AtRest (R : Set Nat → Multiset Fs.IPtr → Multiset Fs.IPtr → Fs.State → Prop) (S : Set Nat)
    (k : State) : Prop :=
  Files R S (held k.slot) (held k.cwds) 0 k

theorem Held.rest (h : Held R S σ γ (held σ) (held γ) 0 k) : AtRest R S k := by
  obtain ⟨rfl, rfl, hfiles⟩ := h
  exact hfiles

theorem AtRest.open (h : AtRest R S k) :
    Held R S k.slot k.cwds (held k.slot) (held k.cwds) 0 k := ⟨rfl, rfl, h⟩

theorem slot_eq_of_table (h : k'.table = k.table) : k'.slot = k.slot := by
  funext s
  exact congrArg (fun T => (T.proc s.1).ofile s.2) h

theorem cwds_eq_of_table (h : k'.table = k.table) : k'.cwds = k.cwds := by
  funext q
  exact congrArg (fun T => (T.proc q).cwd) h

/-- A program that leaves the process table alone. -/
theorem Held.keepFor {m : KM α} {Q : α → State → Prop} (h : Held R S σ γ F A B k)
    (hT : KeepsTable m) (hm : wp m Q (NotFileRef E) k) :
    wp m (fun a k' => Q a k' ∧ k'.slot = σ ∧ k'.cwds = γ) (NotFileRef E) k := by
  refine wp_imp (wp_and hm (hT.wp k)) ?_
  rintro a k' ⟨hQ, htable⟩
  exact ⟨hQ, (slot_eq_of_table htable).trans h.slot, (cwds_eq_of_table htable).trans h.cwds⟩

theorem Held.keep {m : KM α} {G : Multiset FPtr} {C D : Multiset Fs.IPtr}
    (h : Held R S σ γ F A B k) (hT : KeepsTable m)
    (hm : wp m (fun _ k' => Files R S G C D k') (NotFileRef E) k) :
    wp m (fun _ k' => Held R S σ γ G C D k') (NotFileRef E) k :=
  wp_imp (h.keepFor hT hm) fun _ _ h' => ⟨h'.2.1, h'.2.2, h'.1⟩

theorem Held.stable {m : KM α} (hT : KeepsTable m)
    (hm : Stable (NotFileRef E) (Files R S F A B) m) :
    Stable (NotFileRef E) (Held R S σ γ F A B) m :=
  ⟨fun k h => h.keep hT (hm.wp k h.files)⟩

/-- A call that moves no reference. -/
theorem AtRest.stable {m : KM α} (hT : KeepsTable m)
    (hm : ∀ F A, Stable (NotFileRef E) (Files R S F A 0) m) :
    Stable (NotFileRef E) (AtRest R S) m :=
  ⟨fun k h => wp_imp ((Held.stable hT (hm _ _)).wp k h.open) fun _ _ h' => h'.rest⟩

theorem State.slot_setProc (k : State) (p : Pid) (fd : Fin NOFILE) (o : Option FPtr) {pr : Proc}
    (h : pr.ofile = update (k.proc p).ofile fd o) :
    (k.setProc p pr).slot = update k.slot (p, fd) o := by
  funext ⟨q, fd'⟩
  rw [State.slot]
  by_cases hq : q = p
  · subst hq
    rw [State.setProc_proc_same, h]
    by_cases hfd : fd' = fd
    · rw [hfd, update_self, update_self]
    · rw [update_of_ne hfd, update_of_ne (by simp [hfd]), State.slot]
  · rw [State.setProc_proc_of_ne _ _ hq, update_of_ne (by simp [hq]), State.slot]

/-- A change of a process that does not concern its descriptors. -/
theorem State.slot_setProc_same (k : State) (p : Pid) {pr : Proc}
    (h : pr.ofile = (k.proc p).ofile) : (k.setProc p pr).slot = k.slot := by
  funext ⟨q, fd⟩
  rw [State.slot, State.slot]
  by_cases hq : q = p
  · rw [hq, State.setProc_proc_same, h]
  · rw [State.setProc_proc_of_ne _ _ hq]

theorem State.cwds_setProc (k : State) (p : Pid) (pr : Proc) :
    (k.setProc p pr).cwds = update k.cwds p pr.cwd := by
  funext q
  rw [State.cwds]
  by_cases hq : q = p
  · rw [hq, State.setProc_proc_same, update_self]
  · rw [State.setProc_proc_of_ne _ _ hq, update_of_ne hq, State.cwds]

theorem Held.setFd (h : Held R S σ γ F A B k) {fd : Fin NOFILE} {o : Option FPtr} :
    wp (setFd p fd o) (fun _ k' => Held R S (update σ (p, fd) o) γ F A B k') (NotFileRef E) k := by
  rw [Kernel.setFd, wp_updProc]
  refine ⟨?_, ?_, h.files.of_eq rfl⟩
  · rw [State.slot_setProc k p fd o rfl, h.slot]
  · rw [State.cwds_setProc, ← h.cwds]
    exact update_eq_self ..

theorem Held.wp_fdalloc (h : Held R S σ γ F A B k) : wp (fdalloc p f) (fun r k' => match r with
      | none => Held R S σ γ F A B k'
      | some fd => σ (p, fd) = none ∧ Held R S (update σ (p, fd) (some f)) γ F A B k')
      (NotFileRef E) k := by
  simp only [fdalloc, wp_bind, wp_gets]
  split
  · exact wp_pure.mpr h
  · rename_i fd hfd
    have hfree := List.find?_some hfd
    simp only [decide_eq_true_eq] at hfree
    refine wp_then h.setFd fun _ k' h' => wp_pure.mpr ⟨?_, h'⟩
    rw [← h.slot]
    exact hfree.2

theorem wp_argfd {Q : Option (Fin NOFILE × FPtr) → State → Prop} {E' : Stop → Prop}
    (hnone : Q none k) (hsome : ∀ fd f, k.slot (p, fd) = some f → Q (some (fd, f)) k) :
    wp (argfd p arg) Q E' k := by
  rw [argfd, wp_gets]
  split
  · dsimp only
    cases hf : (k.proc p).ofile ⟨arg.toNat, by omega⟩ with
    | none => exact hnone
    | some f => exact hsome _ f hf
  · exact hnone

theorem AtRest.wp_sysDup (h : AtRest R S k) :
    wp (sysDup p arg) (fun _ k' => AtRest R S k') (NotFileRef E) k := by
  rw [sysDup, wp_bind]
  refine wp_argfd (wp_pure.mpr h) fun fd f hf => ?_
  refine wp_then h.open.wp_fdalloc ?_
  rintro (_ | fd') k1 h1
  · exact wp_pure.mpr h1.rest
  obtain ⟨hfree, h1⟩ := h1
  rw [wp_bind]
  have hmem : f ∈ held k.slot := mem_held.mpr ⟨_, hf⟩
  refine wp_imp (h1.keep keeps_filedup (h1.files.wp_filedup hmem)) fun _ k2 h2 => wp_pure.mpr ?_
  rw [← held_update_some hfree] at h2
  exact h2.rest

theorem AtRest.wp_sysClose (acct : Fs.Accounting E R) (h : AtRest R S k) :
    wp (sysClose p arg) (fun _ k' => AtRest R S k') (NotFileRef E) k := by
  rw [sysClose, wp_bind]
  refine wp_argfd (wp_pure.mpr h) fun fd f hf => ?_
  refine wp_then h.open.setFd fun _ k1 h1 => ?_
  rw [held_eq_cons hf] at h1
  exact wp_then (h1.keep keeps_fileclose (h1.files.wp_fileclose acct)) fun _ k2 h2 =>
    wp_pure.mpr h2.rest

/-! ### open, pipe and chdir -/

theorem wp_openInode (acct : Fs.Accounting E R) {cwd : Option Fs.IPtr} {path : Fs.Path}
    {fs : Fs.State} (hcwd : ∀ ip, cwd = some ip → ip ∈ A) (hfs : R S A B fs) :
    wp (openInode cwd path omode) (Fs.Accounting.FoundLocked R S A B) E fs := by
  rw [openInode, wp_ite]
  refine ⟨fun _ => acct.create nofun hcwd hfs, fun _ => ?_⟩
  refine wp_then (acct.namei hcwd hfs) ?_
  rintro (_ | ip) fs1 h1
  · exact wp_pure.mpr h1
  simp only [wp_bind, Fs.dinodeOf, wp_gets, wp_ite, wp_pure]
  refine wp_imp (acct.ilock h1) fun _ fs2 h2 => ⟨fun _ => ?_, fun _ => h2⟩
  exact acct.iunlockput h2

theorem Files.wp_openFail (acct : Fs.Accounting E R) (h : Files R S F (ip ::ₘ A) B k) :
    wp (openFail ip) (fun _ k' => Files R S F A B k') (NotFileRef E) k := by
  simp only [openFail, wp_bind, wp_pure]
  refine h.wp_onFs fun N fs hfs => ?_
  rw [add_cons] at hfs
  exact wp_then (acct.iunlockput hfs) fun _ fs1 h1 => acct.endOp.wp fs1 h1

theorem State.setFile_setFile (k : State) (f : FPtr) (x y : File) :
    (k.setFile f x).setFile f y = k.setFile f y := by
  simp [State.setFile]

/-- The new file takes over the reference to the inode. -/
theorem Files.wp_openInstall (acct : Fs.Accounting E R) (hf : f ∈ F)
    (htype : (k.file f).type = .none) (h : Files R S F (ip ::ₘ A) B k) :
    wp (openInstall f ip omode) (fun _ k' => Files R S F A B k') (NotFileRef E) k := by
  rw [openInstall, wp_bind]
  have hd : wp (onFs (Fs.dinodeOf ip)) (fun _ k' => k = k') (NotFileRef E) k := by
    rw [onFs, wp_zoom, Fs.dinodeOf, wp_gets]
  refine wp_imp hd ?_
  rintro d _ rfl
  simp only [wp_bind, wp_updFile, State.setFile_file_same, State.setFile_setFile]
  have hnew : ∀ x : File, (x.type = .inode ∨ x.type = .device) → x.ip = some ip →
      x.ref = (k.file f).ref → FilesAt R S F A B f ip (k.setFile f x) := by
    intro x hx hip href
    have hnode : x.node = some ip := by rw [File.node, if_pos hx, hip]
    have hold : k.node f = none := by simp [State.node, File.node, htype]
    have hpos := h.pos_of_mem hf
    refine ⟨h.setFile (href.trans (h.count f)) (fun _ _ => rfl) (fun h0 => ?_) (fun _ => ?_) ?_, ?_⟩
    · omega
    · rw [hip]
      rintro ⟨⟩
    · rw [hnode, held_update_some hold, add_cons, cons_add]
    · rw [State.node, State.setFile_file_same, hnode]
  refine wp_imp (Stable.wp (FilesAt.stable_onFs fun C hC => ?_) _
    (hnew _ ?_ rfl ?_)) fun _ _ h' => h'.1
  · exact .bind (.when (acct.itrunc hC)) fun _ => .bind acct.iunlock fun _ => acct.endOp
  · split
    · exact .inr rfl
    · exact .inl rfl
  · split <;> rfl

theorem Held.cwd_mem (h : Held R S σ γ F (held γ) B k) (N : Multiset Fs.IPtr) (ip : Fs.IPtr)
    (hip : (k.proc p).cwd = some ip) : ip ∈ N + held γ := by
  refine mem_add.mpr (.inr (mem_held.mpr ⟨p, ?_⟩))
  rw [← h.cwds]
  exact hip

theorem AtRest.wp_openOp (acct : Fs.Accounting E R) (h : AtRest R S k) {path : Fs.Path} :
    wp (openOp p path omode) (fun _ k' => AtRest R S k') (NotFileRef E) k := by
  refine Stable.seq
    (Held.stable keeps_onFs (Files.stable_onFs fun _ => acct.beginOp)) h.open fun _ k1 h1 => ?_
  rw [wp_bind, wp_gets, wp_bind]
  have hopen := h1.files.wp_onFs (m := openInode (k1.proc p).cwd path omode)
    (C := fun r => r.elim (held k.cwds) (· ::ₘ held k.cwds)) (D := fun _ => 0) (E := E) ?_
  swap
  · intro N fs hfs
    refine wp_imp (wp_openInode acct (h1.cwd_mem N) hfs) ?_
    rintro (_ | ip) fs' h'
    · exact h'
    · rw [Option.elim, add_cons]
      exact h'
  refine wp_imp (h1.keepFor keeps_onFs hopen) ?_
  rintro (_ | ip) k2 ⟨hfiles2, hslot2, hcwds2⟩
  · have h2 : Held R S k.slot k.cwds (held k.slot) (held k.cwds) 0 k2 :=
      ⟨hslot2, hcwds2, hfiles2⟩
    exact (Held.stable keeps_onFs (Files.stable_onFs fun _ => acct.endOp)).seq h2
      fun _ k3 h3 => wp_pure.mpr h3.rest
  have h2 : Held R S k.slot k.cwds (held k.slot) (ip ::ₘ held k.cwds) 0 k2 :=
    ⟨hslot2, hcwds2, hfiles2⟩
  have hfail : ∀ {k3}, Held R S k.slot k.cwds (held k.slot) (ip ::ₘ held k.cwds) 0 k3 →
      wp (openFail ip) (fun _ k' => AtRest R S k') (NotFileRef E) k3 := fun h3 =>
    wp_imp (h3.keep keeps_openFail (h3.files.wp_openFail acct)) fun _ _ h4 => h4.rest
  refine (Held.stable keeps_onFs (Files.stable_onFs fun _ => .gets _)).seq h2
    fun d k3 h3 => ?_
  rw [wp_ite]
  refine ⟨fun _ => hfail h3, fun _ => ?_⟩
  rw [wp_bind]
  refine wp_filealloc (hfail h3) fun f href => ?_
  have htype := h3.files.closed f href
  have h4 : Held R S k.slot k.cwds (f ::ₘ held k.slot) (ip ::ₘ held k.cwds) 0
      (k3.setFile f { k3.file f with ref := 1 }) := ⟨h3.slot, h3.cwds, h3.files.alloc href⟩
  rw [wp_bind]
  have hfd := wp_and (h4.wp_fdalloc (p := p) (f := f) (E := E)) ((keepsFiles_fdalloc (E := E)).wp _)
  refine wp_imp hfd ?_
  rintro (_ | fd) k5 ⟨h5, hk5⟩
  · exact wp_then (h5.keep keeps_fileclose (h5.files.wp_fileclose acct)) fun _ _ h6 => hfail h6
  obtain ⟨hfree, h5⟩ := h5
  rw [wp_bind]
  have htype5 : (k5.file f).type = .none := by
    rw [(Prod.mk.inj hk5).1, State.setFile_file_same]
    exact htype
  refine wp_imp (h5.keep keeps_openInstall (h5.files.wp_openInstall acct
    (mem_cons_self ..) htype5)) fun _ k6 h6 => wp_pure.mpr ?_
  rw [← held_update_some hfree] at h6
  exact h6.rest

theorem AtRest.wp_sysOpen (acct : Fs.Accounting E R) (h : AtRest R S k) {path : Option Fs.Path} :
    wp (sysOpen p path omode) (fun _ k' => AtRest R S k') (NotFileRef E) k := by
  unfold sysOpen
  rw [wp_bind, wp_gets, wp_ite]
  refine ⟨fun _ => wp_pure.mpr h, fun _ => ?_⟩
  rcases path with _ | path
  · exact wp_pure.mpr h
  · exact h.wp_openOp acct

theorem Held.wp_pipeFail (acct : Fs.Accounting E R) {rf wf : FPtr}
    (h : Held R S σ γ (rf ::ₘ wf ::ₘ held σ) (held γ) 0 k) :
    wp (pipeFail rf wf) (fun _ k' => AtRest R S k') (NotFileRef E) k := by
  simp only [pipeFail, wp_bind, wp_pure]
  refine wp_imp (h.keep keeps_fileclose (h.files.wp_fileclose acct)) fun _ k1 h1 => ?_
  exact wp_imp (h1.keep keeps_fileclose (h1.files.wp_fileclose acct)) fun _ k2 h2 => h2.rest

theorem AtRest.wp_sysPipe (acct : Fs.Accounting E R) (h : AtRest R S k) {fdarray : Nat} :
    wp (sysPipe p fdarray) (fun _ k' => AtRest R S k') (NotFileRef E) k := by
  refine wp_then (h.open.keepFor keeps_pipealloc (Files.wp_pipealloc acct h)) ?_
  rintro (_ | ⟨rf, wf⟩) k1 ⟨hfiles1, hslot1, hcwds1⟩
  · refine wp_pure.mpr (Held.rest (σ := k.slot) (γ := k.cwds) ⟨hslot1, hcwds1, hfiles1⟩)
  have h1 : Held R S k.slot k.cwds (rf ::ₘ wf ::ₘ held k.slot) (held k.cwds) 0 k1 :=
    ⟨hslot1, hcwds1, hfiles1⟩
  refine wp_then h1.wp_fdalloc ?_
  rintro (_ | fd0) k2 h2
  · exact h2.wp_pipeFail acct
  obtain ⟨hfree0, h2⟩ := h2
  -- emptying the first descriptor again gives back what there was
  have hundo : ∀ {τ : Pid × Fin NOFILE → Option FPtr}, τ (p, fd0) = none →
      update (update τ (p, fd0) (some rf)) (p, fd0) none = τ := by
    intro τ hτ
    rw [update_idem, ← hτ, update_eq_self]
  refine wp_then h2.wp_fdalloc ?_
  rintro (_ | fd1) k3 h3
  · refine wp_then h3.setFd fun _ k4 h4 => ?_
    rw [hundo hfree0] at h4
    exact h4.wp_pipeFail acct
  obtain ⟨hfree1, h3⟩ := h3
  have hout : ∀ {va : Nat} {bs : List UInt8}, Stable (NotFileRef E)
      (Held R S (update (update k.slot (p, fd0) (some rf)) (p, fd1) (some wf))
        k.cwds (rf ::ₘ wf ::ₘ held k.slot) (held k.cwds) 0) (copyout p va bs) :=
    Held.stable keeps_copyout (Files.stable keepsFiles_copyout)
  refine hout.seq h3 fun ok0 k4 h4 => ?_
  refine (Stable.ite hout (.pure _)).seq h4 fun ok k5 h5 => ?_
  rw [wp_ite]
  refine ⟨fun _ => wp_pure.mpr ?_, fun _ => ?_⟩
  · rw [cons_swap, ← held_update_some hfree0, ← held_update_some hfree1] at h5
    exact h5.rest
  · have hne : (p, fd0) ≠ (p, fd1) := by
      intro heq
      rw [← heq, update_self] at hfree1
      cases hfree1
    have hfree1' : k.slot (p, fd1) = none := by rwa [update_of_ne hne.symm] at hfree1
    have hback : update (update (update (update k.slot
        (p, fd0) (some rf)) (p, fd1) (some wf)) (p, fd0) none) (p, fd1) none = k.slot := by
      have hsame : update k.slot (p, fd1) none = k.slot := by rw [← hfree1', update_eq_self]
      rw [update_comm hne, update_idem, update_comm hne, hsame,
        hundo hfree0]
    simp only [wp_bind]
    refine wp_imp h5.setFd fun _ k6 h6 => wp_imp h6.setFd fun _ k7 h7 => ?_
    rw [hback] at h7
    exact h7.wp_pipeFail acct

/-- The current directory of one process, apart from the others. -/
theorem held_cwds (γ : Pid → Option Fs.IPtr) (p : Pid) :
    held γ = (γ p).elim (held (update γ p none)) (· ::ₘ held (update γ p none)) := by
  cases h : γ p with
  | none => rw [Option.elim, ← h, update_eq_self]
  | some ip => rw [Option.elim, held_eq_cons h]

theorem AtRest.wp_sysChdir (acct : Fs.Accounting E R) (h : AtRest R S k) {path : Option Fs.Path} :
    wp (sysChdir p path) (fun _ k' => AtRest R S k') (NotFileRef E) k := by
  rw [sysChdir, wp_bind, wp_gets, wp_bind]
  have hchdir := Files.wp_onFs (E := E) (m := Fs.sysChdir (k.proc p).cwd path) h
    (C := fun r => r.elim (held k.cwds) (· ::ₘ held (update k.cwds p none)))
    (D := fun _ => 0) ?_
  swap
  · intro N fs hfs
    have hsplit : N + held k.cwds = (k.proc p).cwd.elim
        (N + held (update k.cwds p none))
        (· ::ₘ (N + held (update k.cwds p none))) := by
      rw [held_cwds k.cwds p]
      change N + ((k.proc p).cwd.elim _ _) = _
      cases (k.proc p).cwd with
      | none => rfl
      | some ip => rw [Option.elim, Option.elim, add_cons]
    rw [hsplit] at hfs
    refine wp_imp (acct.sysChdir hfs) ?_
    rintro (_ | ip) fs' h'
    · rw [Option.elim, hsplit]
      exact h'
    · rw [Option.elim, add_cons]
      exact h'
  refine wp_imp (h.open.keepFor keeps_onFs hchdir) ?_
  rintro (_ | ip) k1 ⟨hfiles1, hslot1, hcwds1⟩
  · exact wp_pure.mpr (Held.rest (σ := k.slot) (γ := k.cwds) ⟨hslot1, hcwds1, hfiles1⟩)
  simp only [wp_bind, wp_updProc, wp_pure]
  refine Held.rest (σ := k.slot) (γ := update k.cwds p (some ip)) ⟨?_, ?_, ?_⟩
  · rw [← hslot1]
    exact State.slot_setProc_same k1 p rfl
  · rw [State.cwds_setProc, hcwds1]
  · have hupdate : update (update k.cwds p none) p (some ip) =
        update k.cwds p (some ip) := update_idem ..
    rw [← hupdate, held_update_some (update_self ..)]
    exact hfiles1.of_eq rfl

end Xv6.Kernel
