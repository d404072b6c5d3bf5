import Xv6.Fs.InOrder
import Xv6.Fs.Paths
import Xv6.Kernel.RefCount

/-!
# xv6 — the disk in every run

Started on a disk in order, the kernel leaves it in order after every event: every
block has one owner, the free map is right, no file has a hole.

* `disk_run`     — every state of every run.
* `block_owners` — blocks and the free map.
* `no_holes`     — files, and that reading never allocates.
-/

namespace Xv6.Kernel

open Prog Holders TransitionRun

variable {k s s' : State} {es : List Event} {e : Event} {p : Pid} {f : FPtr}

/-- What is on a disk in order, before anything of it was read. -/
structure CleanDisk (fs : Fs.State) : Prop where
  sound : fs.volume.Sound
  range : ∀ i, (fs.dinode i).type ≠ .free → 1 ≤ i ∧ i < fs.sb.ninodes
  unused : ∀ ip, (fs.inode ip).ref = 0

theorem CleanDisk.inOrder {fs : Fs.State} (h : CleanDisk fs) : Fs.InOrder fs := by
  refine ⟨h.sound, h.range, fun ip hpos => ?_⟩
  rw [h.unused] at hpos
  exact absurd hpos (lt_irrefl 0)

/-- The account of references, on a disk in order, in every state. -/
theorem disk_run {k0 : State} (h0 : Fresh k0) (hdisk : CleanDisk k0.fs)
    (hboot : userinit k0 = .ok ((), k)) (hrun : Run Step k es s) :
    ∃ n, Carried Fs.InOrder n s.fs.dinode s ∧ ∀ q, Idle (s.proc q).core :=
  carried_run Fs.order_accounting h0 hdisk.unused hdisk.inOrder hboot hrun

/-- `balloc` hands out no block of metadata. -/
theorem balloc_range {fs fs' : Fs.State} {b : Nat} (h : fs.volume.Exact)
    (hb : Fs.balloc fs = .ok (b, fs')) (hne : b ≠ 0) : fs.sb.nmeta ≤ b ∧ b < fs.sb.size := by
  have hspec := wp_ok (Fs.wp_balloc fun _ _ => trivial) hb
  obtain ⟨h0, -⟩ | ⟨hlt, hfree, -⟩ := hspec
  · exact absurd h0 hne
  · exact ⟨(Allotment.Exact.of_free h hfree).1, hlt⟩

/-! ### Blocks -/

/--
**Every block has one owner.** Started on a disk in order, in every state of every run
no two pointers of allocated inodes (addresses, or entries of indirect blocks) name the
same block, a block of data is marked in the free map exactly if such a pointer names
it, blocks of metadata are marked and none of them is ever named or handed out, and the
panic of `bfree` cannot be reached.
-/
theorem block_owners {k0 : State} (h0 : Fresh k0) (hdisk : CleanDisk k0.fs)
    (hboot : userinit k0 = .ok ((), k)) (hrun : Run Step k es s) :
    (∀ x y, s.fs.volume.ptrs x ≠ 0 → s.fs.volume.ptrs x = s.fs.volume.ptrs y → x = y) ∧
    (∀ b, s.fs.sb.nmeta ≤ b → b < s.fs.sb.size →
      (s.fs.bitmap b = true ↔ ∃ x, s.fs.volume.ptrs x = b)) ∧
    (∀ b, b < s.fs.sb.nmeta → s.fs.bitmap b = true) ∧ (∀ x, s.fs.volume.ptrs x ≠ 0 →
      s.fs.sb.nmeta ≤ s.fs.volume.ptrs x ∧ s.fs.volume.ptrs x < s.fs.sb.size) ∧
    (∀ b fs', Fs.balloc s.fs = .ok (b, fs') → b ≠ 0 → s.fs.sb.nmeta ≤ b ∧ b < s.fs.sb.size) ∧
    ∀ e x, Stops s e x → x ≠ .fs .freeingFreeBlock := by
  obtain ⟨n, h, hidle⟩ := disk_run h0 hdisk hboot hrun
  have hexact : s.fs.volume.Exact := h.also.sound.exact
  refine ⟨hexact.unique, hexact.used_iff, hexact.reserved, hexact.range,
    fun b fs' => balloc_range hexact, fun e x hstop heq => ?_⟩
  obtain ⟨-, -, hfs⟩ := wp_error (h.wp_body Fs.order_accounting hidle hstop.1) hstop.2
  have := hfs _ heq
  cases this

/-- The pointers of an inode with one block. -/
theorem ptrs_of_one {v : Fs.Volume} {i b : Nat} (htype : (v.node i).type ≠ .free)
    (haddrs : ∀ k, (v.node i).addrs k = if k = 0 then b else 0) (j : Nat) :
    v.ptrs (i, j) = if j = 0 then b else 0 := by
  by_cases hj : j ≤ Fs.NDIRECT
  · rw [v.ptrs_eq htype (Nat.lt_of_le_of_lt hj (by decide)), Fs.ptr_addr hj, haddrs]
  · have hne : j ≠ 0 := by
      rintro rfl
      exact hj (Nat.zero_le _)
    rw [if_neg hne]
    by_contra hptr
    obtain ⟨-, -, heq⟩ := Fs.Volume.ptrs_ne_zero hptr
    rw [heq, Fs.ptr_entry_of_none hj (haddrs Fs.NDIRECT)] at hptr
    exact hptr rfl

/-- The small disk has two pointers. -/
theorem ptrs_small_dir : small.fs.volume.ptrs (1, 0) = 35 :=
  ptrs_of_one (b := 35) (by decide) (fun _ => rfl) 0

theorem ptrs_small_init : small.fs.volume.ptrs (2, 0) = 36 :=
  ptrs_of_one (b := 36) (by decide) (fun _ => rfl) 0

theorem ptrs_small {x : Nat × Nat} (hx : small.fs.volume.ptrs x ≠ 0) : x = (1, 0) ∨ x = (2, 0) := by
  obtain ⟨i, j⟩ := x
  have hone : ∀ {b : Nat}, (if j = 0 then b else 0) ≠ 0 → j = 0 := by
    intro b hb
    by_contra hj
    exact hb (if_neg hj)
  match i with
  | 0 => exact absurd (Fs.Volume.ptrs_of_free rfl) hx
  | 1 =>
    rw [ptrs_of_one (by decide) (fun _ => rfl)] at hx
    rw [hone hx]
    exact .inl rfl
  | 2 =>
    rw [ptrs_of_one (by decide) (fun _ => rfl)] at hx
    rw [hone hx]
    exact .inr rfl
  | i + 3 => exact absurd (Fs.Volume.ptrs_of_free rfl) hx

theorem exact_small : small.fs.volume.Exact := by
  refine ⟨by decide, fun b hb => ?_, fun x hne => ?_, fun x y hne heq => ?_, fun b hlo hhi => ?_⟩
  · have hb' : b < 35 := hb
    exact decide_eq_true (by omega)
  · rcases ptrs_small hne with rfl | rfl
    · decide
    · decide
  · have hne' := hne
    rw [heq] at hne'
    rcases ptrs_small hne with rfl | rfl <;> rcases ptrs_small hne' with rfl | rfl
    · rfl
    · cases heq
    · cases heq
    · rfl
  · have hlo' : 35 ≤ b := hlo
    have hused : small.fs.volume.bitmap b = true ↔ b < 37 := decide_eq_true_iff
    rw [hused]
    refine ⟨fun hb => ?_, fun ⟨x, hx⟩ => ?_⟩
    · rcases Nat.lt_or_ge b 36 with h | h
      · exact ⟨(1, 0), ptrs_small_dir.trans (by omega)⟩
      · exact ⟨(2, 0), ptrs_small_init.trans (by omega)⟩
    · rcases ptrs_small (x := x) (by omega) with rfl | rfl
      · rw [ptrs_small_dir] at hx
        omega
      · rw [ptrs_small_init] at hx
        omega

theorem cleanDisk_small : CleanDisk small.fs := by
  have hone : ∀ bn size, size ≤ Fs.BSIZE → bn * Fs.BSIZE < size → bn = 0 := by
    intro bn size hsize hbn
    rw [Fs.BSIZE_eq] at *
    omega
  refine ⟨⟨by decide, exact_small, fun i htype => ?_⟩, fun i htype => ?_, fun _ => rfl⟩
  · match i with
    | 0 => exact absurd rfl htype
    | 1 =>
      refine ⟨by decide, fun bn hbn => ?_⟩
      rw [hone bn 48 (by decide) hbn]
      decide
    | 2 =>
      refine ⟨by decide, fun bn hbn => ?_⟩
      rw [hone bn 64 (by decide) hbn]
      decide
    | i + 3 => exact absurd rfl htype
  · match i with
    | 0 => exact absurd rfl htype
    | 1 => decide
    | 2 => decide
    | i + 3 => exact absurd rfl htype

/-- Init creates the file `f` and writes a byte to it. -/
def writeFile : List Event :=
  [.dispatch 0 [], .call 0 (.opn (some [102]) 0x202) [],
    .call 0 (.write 0 4096 1 ⟨[], 0, 0⟩) []]

theorem block_owners_writeFile : ∃ k s, userinit small = .ok ((), k) ∧ Run Step k writeFile s ∧
    s.fs.bitmap 37 = true ∧ s.fs.volume.ptrs (3, 0) = 37 ∧
    (∀ x, s.fs.volume.ptrs x = 37 → x = (3, 0)) ∧
    ∀ e x, Stops s e x → x ≠ .fs .freeingFreeBlock := by
  obtain ⟨k, s, hboot, hrun, hs⟩ := userinit_of_bootRun small writeFile (C := fun _ _ => True)
    (f := fun s => (s.fs.bitmap 37, s.fs.volume.ptrs (3, 0))) (b := (true, 37)) (by decide +kernel)
  obtain ⟨hbit, hptr⟩ := Prod.mk.inj hs
  have h := block_owners fresh_small cleanDisk_small hboot hrun.of_restrict
  refine ⟨k, s, hboot, hrun.of_restrict, hbit, hptr, fun x hx => ?_, h.2.2.2.2.2⟩
  exact h.1 x (3, 0) (by omega) (hx.trans hptr.symm)

/-! ### Reading -/

/-- The file system does not stop in the log. -/
abbrev NotLog (e : Fs.Panic) : Prop := e.ofLog = false

section Read

variable {b : Fs.RefBase} {S : Set Nat} {F : Multiset FPtr} {A B C : Multiset Fs.IPtr}
  {fs : Fs.State} {ip : Fs.IPtr}

/-- What never writes to the log keeps the disk in order without it. -/
theorem stable_notLog {α : Type} {m : Fs.FsM α} (hm : ∀ fs, wp m (fun _ _ => True) NotLog fs)
    (hs : Stable Fs.NotBlocks (Fs.Ordered b S C B) m) : Stable NotLog (Fs.Ordered b S C B) m :=
  ⟨fun fs h => wp_imp (wp_and (hm fs) (hs.wp fs h)) fun _ _ h' => h'.2⟩

theorem wp_ilock_notLog (fs : Fs.State) : wp (Fs.ilock ip) (fun _ _ => True) NotLog fs := by
  rw [Fs.ilock, wp_bind, wp_gets]
  refine wp_ite.mpr ⟨fun _ => wp_stop.mpr rfl, fun _ => wp_ite.mpr ⟨fun _ => wp_stop.mpr rfl,
    fun _ => wp_ite.mpr ⟨fun _ => ?_, fun _ => wp_ite.mpr ⟨fun _ => wp_stop.mpr rfl,
      fun _ => ?_⟩⟩⟩⟩
  · exact wp_modify.mpr trivial
  · exact wp_modify.mpr trivial

theorem wp_iunlock_notLog (fs : Fs.State) : wp (Fs.iunlock ip) (fun _ _ => True) NotLog fs := by
  rw [Fs.iunlock, wp_bind, wp_gets]
  exact wp_ite.mpr ⟨fun _ => wp_stop.mpr rfl, fun _ => wp_modify.mpr trivial⟩

/-- An inode that has been read has no holes. -/
theorem whole_of_mem (h : Fs.Ordered b S C B fs) (hip : ip ∈ C) :
    Fs.Whole fs.data (fs.inode ip).d := by
  obtain ⟨hpos, hvalid, htype, -⟩ := h.known hip
  exact h.also.whole hpos hvalid htype

/-- Looking names up needs no transaction, since no file has a hole. -/
theorem reading_notLog (b : Fs.RefBase) : Fs.Reading NotLog (Fs.Ordered b) where
  stops e he := by cases e <;> first | rfl | cases he
  iget h := wp_imp (wp_and (Fs.wp_iget_locks fun _ => rfl) ((Fs.order_accounting b).iget h))
    fun _ _ h' => h'.2
  readi hC := by
    refine ⟨fun s hs => ?_⟩
    refine wp_mono ((Fs.InOrder.stable_readi fun fs h => whole_of_mem h hC).wp s hs)
      (fun _ _ => id) ?_
    rintro (e | e) he
    · exact he.elim
    · trivial

/-- `fileread` works outside of a transaction. -/
theorem stable_fileread_notLog {addr : Nat} {n : Int} {tr : Transfer} :
    Stable (NotFileRef NotLog) (Files (Fs.Ordered b) S F A B) (fileread p f addr n tr) := by
  refine Files.stable_fileread_of (fun C ip hC => ?_)
    (fun C ip dst off n => (reading_notLog b).readi) fun C ip => ?_
  · exact stable_notLog wp_ilock_notLog ((Fs.order_accounting b).relock hC)
  · exact stable_notLog wp_iunlock_notLog (Fs.order_accounting b).iunlock

end Read

/--
**Reading never allocates.** Started on a disk in order, in every state of every run no
file has a hole. Every operation on inodes keeps this also in the middle of a call, so
wherever an inode that has been read is read from, `readi` does what it would do without
`balloc`. So `dirlookup`, `isdirempty` and `loadseg`, called in the middle of any call and
with a transaction or without, never stop in the log; nor does `read`, which opens none.
-/
theorem no_holes {k0 : State} (h0 : Fresh k0) (hdisk : CleanDisk k0.fs)
    (hboot : userinit k0 = .ok ((), k)) (hrun : Run Step k es s) :
    (∀ i, (s.fs.dinode i).type ≠ .free → ∀ bn, bn * Fs.BSIZE < (s.fs.dinode i).size →
      Fs.ptr s.fs.data (s.fs.dinode i) (Fs.place bn) ≠ 0) ∧
    (∀ b, Fs.Accounting Fs.NotBlocks (Fs.Ordered b)) ∧
    (∀ b S A B fs ip, Fs.Ordered b S A B fs → ip ∈ A →
      ∀ (ε U : Type) (dst : Nat → List UInt8 → Prog ε U Bool) off n u,
        Fs.readi ip dst off n (fs, u) = Fs.readiMapped ip dst off n (fs, u)) ∧
    (∀ b S A B fs dp, Fs.Ordered b S A B fs → dp ∈ A → ∀ x,
      (∀ name, Fs.dirlookup dp name fs = .error x → NotLog x) ∧
      (Fs.isdirempty dp fs = .error x → NotLog x)) ∧
    (∀ b S F A B k ip, Files (Fs.Ordered b) S F (ip ::ₘ A) B k → ∀ pt va offset sz x,
      loadseg pt va ip offset sz k = .error (.fs x) → NotLog x) ∧
    ∀ p fd addr n tr fails x, Stops s (.call p (.read fd addr n tr) fails) x →
      x ≠ .fs .logOutsideTrans := by
  obtain ⟨n, h, hidle⟩ := disk_run h0 hdisk hboot hrun
  refine ⟨fun i htype => (h.also.sound.whole i htype).mapped, Fs.order_accounting,
    fun b S A B fs ip hord hip ε U dst off n u => Fs.readi_eq_mapped (whole_of_mem hord hip),
    fun b S A B fs dp hord hdp x => ⟨fun name => wp_error ((reading_notLog b).dirlookup hdp hord),
      wp_error (((reading_notLog b).isdirempty hdp).wp fs hord)⟩,
    fun b S F A B k ip hk pt va offset sz x hload =>
      (wp_error ((Files.stable_loadLoop (reading_notLog b) _ _).wp k hk) hload).2.2 x rfl,
    fun p fd addr n tr fails x hstop heq => ?_⟩
  obtain ⟨henabled, hbody⟩ := hstop
  rcases h with ⟨⟨-, hstill, -⟩, -⟩ | h
  · exact (hstill p).1 henabled
  have hcall : wp (Event.call p (.read fd addr n tr) fails).body (fun _ _ => True)
      (NotFileRef NotLog) s := by
    rw [Event.body, wp_bind, setFails, wp_modify, wp_bind]
    have h1 : AtRest (Fs.Ordered _) _ { s with mem := { s.mem with fails := fails } } := h.of_eq rfl
    refine wp_imp (Q := fun _ _ => True) ?_ fun r k' _ => ?_
    · rw [syscall, returns, wp_bind, sysRead, wp_bind, argfd, wp_gets]
      split
      · exact wp_pure.mpr (wp_pure.mpr trivial)
      · exact wp_imp (stable_fileread_notLog.wp _ h1) fun _ _ _ => wp_pure.mpr trivial
    · cases r <;> exact wp_modify.mpr trivial
  have hlog := (wp_error hcall hbody).2.2 _ heq
  cases hlog

/-- The file that `writeFile` leaves has one block, and reading it needs no other. -/
theorem no_holes_writeFile : ∃ k s, userinit small = .ok ((), k) ∧ Run Step k writeFile s ∧
    ((s.fs.dinode 3).type = .file ∧ (s.fs.dinode 3).size = 1 ∧
      Fs.ptr s.fs.data (s.fs.dinode 3) (Fs.place 0) ≠ 0) ∧
    ∀ fd addr n tr fails x, Stops s (.call 0 (.read fd addr n tr) fails) x →
      x ≠ .fs .logOutsideTrans := by
  obtain ⟨k, s, hboot, hrun, hs⟩ := userinit_of_bootRun small writeFile (C := fun _ _ => True)
    (f := fun s => ((s.fs.dinode 3).type, (s.fs.dinode 3).size)) (b := (.file, 1))
    (by decide +kernel)
  obtain ⟨htype, hsize⟩ := Prod.mk.inj hs
  have h := no_holes fresh_small cleanDisk_small hboot hrun.of_restrict
  refine ⟨k, s, hboot, hrun.of_restrict, ⟨htype, hsize, h.1 3 ?_ 0 ?_⟩, fun fd => h.2.2.2.2.2 0 fd⟩
  · rw [htype]
    nofun
  · rw [hsize]
    decide

end Xv6.Kernel
