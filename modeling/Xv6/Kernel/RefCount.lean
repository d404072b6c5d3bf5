import Xv6.Fs.Refs
import Xv6.Kernel.Conservation
import Xv6.Kernel.RefProc

/-!
# xv6 — reference counts in every run

What `Xv6.Kernel.RefProc` says of one event, started at boot: `userinit` leaves the
root directory as the current directory of the first process, before anything was
read from disk; the first dispatch reclaims orphans and runs `/init`; from then on
all references are those of descriptors and current directories.

Whatever else the operations on inodes keep (`P`) is kept on the way.

* `Waiting`     — the first process has not run.
* `Counted`     — it has not run, or the references are accounted for.
* `Carried`     — the same, and `P` holds of the file system.
* `carried_run` — every state of every run is like that.
* `file_refs`, `inode_refs` — what follows for open files and for inodes.
-/

namespace Xv6.Kernel

open Prog Holders TransitionRun

/-- The account of inode references, relative to `b`. -/
def RefsFrom (b : Fs.RefBase) (S : Set Nat) (A B : Multiset Fs.IPtr) (fs : Fs.State) : Prop :=
  Fs.Refs b S A B fs.refs

/-- No process runs or is in a system call. -/
def Still (k : State) : Prop := ∀ p, (k.proc p).state ≠ .running ∧ (k.proc p).blocked = none

/-- The first process has not run: its current directory is the only reference. -/
structure Waiting (k : State) : Prop where
  first : k.first = true
  file : ∀ f, k.file f = File.zero
  slot : ∀ x, k.slot x = none
  cwd : ∃ r, held k.cwds = {r} ∧
    Fs.Refs ⟨k.fs.sb.ninodes, k.fs.dinode, {r}⟩ ∅ 0 0 k.fs.refs

variable {k s s' : State} {es : List Event} {e : Event} {n : Nat} {disk : Nat → Fs.Dinode} {p : Pid}
  {E : Fs.Panic → Prop} {P : Fs.State → Prop}

theorem Waiting.of_eq {k' : State} (h : Waiting k)
    (hk : (k'.slot, k'.cwds, k'.file, k'.fs, k'.first) =
      (k.slot, k.cwds, k.file, k.fs, k.first)) : Waiting k' := by
  simp only [Prod.mk.injEq] at hk
  obtain ⟨hslot, hcwds, hfile, hfs, hfirst⟩ := hk
  refine ⟨hfirst.trans h.first, fun f => ?_, fun x => ?_, ?_⟩
  · rw [hfile]
    exact h.file f
  · rw [hslot]
    exact h.slot x
  · rw [hcwds, hfs]
    exact h.cwd

theorem Waiting.node (h : Waiting k) (f : FPtr) : k.node f = none := by
  rw [State.node, h.file]
  rfl

/-! ### Boot -/

/-- `userinit` leaves the first process waiting in the root directory. -/
theorem wp_userinit_waiting (acct : ∀ b, Fs.Accounting E (Fs.Carrying P b)) (h0 : Fresh k)
    (hinodes : ∀ ip, (k.fs.inode ip).ref = 0) (hP : P k.fs) :
    wp userinit (fun _ k' => Waiting k' ∧ P k'.fs) (NotFileRef E) k := by
  have hcwds : k.cwds = fun _ => none := by
    funext p
    rw [State.cwds, h0.proc]
    rfl
  have hslot : k.slot = fun _ => none := by
    funext x
    rw [State.slot, h0.proc]
    rfl
  refine wp_then (keepsHeld_allocproc.to rfl) ?_
  rintro (_ | q) k1 h1
  · exact wp_stop.mpr .vm
  simp only [Prod.mk.injEq] at h1
  obtain ⟨hslot1, hcwds1, hfile1, hfs1, hfirst1⟩ := h1
  rw [wp_bind, wp_modify, wp_bind, onFs, wp_zoom]
  refine wp_mono (Fs.wp_namei_root acct (fun ip => ?_) (hfs1 ▸ hP)) ?_ fun _ he => .fs he
  · rw [hfs1]
    exact hinodes ip
  rintro _ fs ⟨r, rfl, hfs, hP'⟩
  simp only [wp_bind, wp_gets, wp_updProc]
  refine ⟨⟨hfirst1.trans h0.first, fun f => ?_, fun x => ?_, r, ?_, hfs⟩, hP'⟩
  · change k1.file f = File.zero
    rw [hfile1, h0.file]
  · refine (congrFun (State.slot_setProc_same _ q (by rfl)) x).trans ?_
    change k1.slot x = none
    rw [hslot1, hslot]
  · rw [State.cwds_setProc]
    change held (Function.update k1.cwds q (some r)) = {r}
    rw [hcwds1, hcwds, held_update_some rfl, held_eq_zero fun _ => rfl]
    rfl

theorem Booted.still (h : Booted k) : Still k :=
  h.forall_core (P := fun c => c.state ≠ .running ∧ c.blocked = none) ⟨nofun, rfl⟩
    fun _ _ => ⟨nofun, rfl⟩

/-! ### The first dispatch -/

/-- The references of a process that waits, once it is on its way. -/
theorem Waiting.files {b : Fs.RefBase} (h : Waiting k) (hfs : Fs.Carrying P b ∅ 0 0 k.fs) :
    Files (Fs.Carrying P b) ∅ 0 0 0 { k with first := false } := by
  refine ⟨fun f => ?_, fun f _ => ?_, fun f hf => ?_, ?_, rfl⟩
  · rw [h.file]
    rfl
  · rw [h.file]
    rfl
  · rw [h.file] at hf
    rcases hf with hf | hf <;> cases hf
  · change Fs.Carrying P b ∅ (held k.node + 0) 0 k.fs
    rw [held_eq_zero h.node]
    exact hfs

/-- `ireclaim` looks at every inode. -/
theorem Files.wp_ireclaim {b : Fs.RefBase} (acct : Fs.Accounting E (Fs.Carrying P b))
    (h : Files (Fs.Carrying P b) ∅ 0 0 0 k) :
    wp (onFs Fs.ireclaim) (fun _ k' => Files (Fs.Carrying P b) (Fs.inums b.ninodes) 0 0 0 k')
      (NotFileRef E) k := by
  refine h.wp_onFs_to fun N fs hfs => ?_
  rw [← show fs.sb.ninodes = b.ninodes from hfs.refs.ninodes]
  exact acct.ireclaim hfs

/-- `kexec("/init")` reads the root directory, which the first process is in. -/
theorem Files.wp_kexecInit (acct : ∀ b, Fs.Accounting E (Fs.Carrying P b)) {r : Fs.IPtr}
    {S : Set Nat} (h : Files (Fs.Carrying P ⟨n, disk, {r}⟩) S 0 0 0 k) {argv : List (List UInt8)} :
    wp (kexec p [47, 105, 110, 105, 116] argv)
      (fun _ k' => Files (Fs.Carrying P ⟨n, disk, 0⟩) S 0 {r} 0 k') (NotFileRef E) k := by
  refine Files.wp_kexec (acct _) ?_
  refine Stable.andThen (Files.stable_onFs fun _ => (acct _).beginOp) h fun _ k1 h1 => ?_
  refine h1.wp_onFs_to (D := fun (o : Option Fs.IPtr) => o.elim 0 ({·}))
    fun N fs hfs => ?_
  rw [add_zero] at hfs
  refine wp_imp (Fs.wp_namei_unpin acct rfl rfl rfl hfs) ?_
  rw [add_comm]
  rintro (_ | ip) fs' h' <;> exact h'

/-- `forkret` of the first process reclaims orphans and runs `/init`. -/
theorem Waiting.wp_forkretFirst (acct : ∀ b, Fs.Accounting E (Fs.Carrying P b)) (h : Waiting k)
    (hP : P k.fs) (hn : k.fs.sb.ninodes = n) : wp (forkretFirst p)
      (fun _ k' => AtRest (Fs.Carrying P ⟨n, k.fs.dinode, 0⟩) (Fs.inums n) k')
      (NotFileRef E) k := by
  subst hn
  obtain ⟨r, hcwds, hrefs⟩ := h.cwd
  rw [forkretFirst, wp_bind, wp_modify, wp_bind]
  have h1 : Held _ ∅ k.slot k.cwds 0 0 0 { k with first := false } :=
    ⟨rfl, rfl, h.files ⟨hrefs, hP⟩⟩
  refine wp_imp (h1.keepFor keeps_onFs (h1.files.wp_ireclaim (acct _))) ?_
  rintro _ k2 ⟨h2, hslot2, hcwds2⟩
  have h2' : Held _ _ k.slot k.cwds 0 0 0 k2 := ⟨hslot2, hcwds2, h2⟩
  refine wp_then (h2'.keepFor keeps_kexec (h2.wp_kexecInit acct)) ?_
  rintro res k3 ⟨h3, hslot3, hcwds3⟩
  have hrest : AtRest (Fs.Carrying P ⟨k.fs.sb.ninodes, k.fs.dinode, 0⟩)
      (Fs.inums k.fs.sb.ninodes) k3 := by
    rw [AtRest, hslot3, hcwds3, held_eq_zero h.slot, hcwds]
    exact h3
  rw [wp_ite]
  exact ⟨fun _ => wp_stop.mpr ⟨nofun, nofun, nofun⟩, fun _ =>
    (AtRest.stable_of_keeps keepsHeld_setA0).wp k3 hrest⟩

/-! ### One event -/

/-- The references of a state after a call that began with `disk`: before the first
process has run, or with no call in progress. -/
def Counted (n : Nat) (disk : Nat → Fs.Dinode) (k : State) : Prop :=
  Waiting k ∧ Still k ∧ k.fs.sb.ninodes = n ∧ k.fs.dinode = disk ∨
    AtRest (RefsFrom ⟨n, disk, 0⟩) (Fs.inums n) k

/-- The same, and `P` holds. -/
def Carried (P : Fs.State → Prop) (n : Nat) (disk : Nat → Fs.Dinode) (k : State) : Prop :=
  (Waiting k ∧ Still k ∧ k.fs.sb.ninodes = n ∧ k.fs.dinode = disk) ∧ P k.fs ∨
    AtRest (Fs.Carrying P ⟨n, disk, 0⟩) (Fs.inums n) k

theorem Carried.counted (h : Carried P n disk k) : Counted n disk k := by
  rcases h with ⟨h, -⟩ | h
  · exact .inl h
  · exact .inr ⟨h.count, h.closed, h.named, h.fs.refs, h.booted⟩

theorem Carried.also (h : Carried P n disk k) : P k.fs := by
  rcases h with ⟨-, hP⟩ | h
  · exact hP
  · exact h.fs.also

theorem Carried.rebase (h : Carried P n disk k) : Carried P n k.fs.dinode k := by
  rcases h with ⟨⟨h, hstill, hn, -⟩, hP⟩ | h
  · exact .inl ⟨⟨h, hstill, hn, rfl⟩, hP⟩
  · exact .inr ⟨h.count, h.closed, h.named, h.fs.rebase, h.booted⟩

theorem still_wakeup {ch : Chan} (h : Still k) :
    wp (wakeup none ch) (fun _ k' => Still k') (fun _ => True) k := by
  rw [wakeup, wp_modify]
  intro q
  dsimp only
  split
  · exact ⟨nofun, (h q).2⟩
  · exact h q

/-- Before the first process runs there are clock ticks and its dispatch. -/
theorem Waiting.wp_body (acct : ∀ b, Fs.Accounting E (Fs.Carrying P b)) (h : Waiting k)
    (hstill : Still k) (hP : P k.fs) (hn : k.fs.sb.ninodes = n) (he : e.enabled k) :
    wp e.body (fun _ k' => Carried P n k.fs.dinode k') (NotFileRef E) k := by
  have hno : ∀ p, ¬ (k.proc p).state = .running := fun p => (hstill p).1
  cases e with
  | call p c fails | timer p user | fault p va fails | store p va v => exact absurd he (hno p)
  | tick =>
    rw [Event.body, wp_bind, wp_modify]
    have hkeep : KeepsHeld E (wakeup none .ticks) := keepsHeld_wakeup
    have hstill' : Still { k with ticks := u32 (k.ticks + 1) } := hstill
    refine wp_imp (wp_and (hkeep.to rfl) (still_wakeup hstill')) ?_
    rintro _ k' ⟨hk, hs⟩
    have hfs : k'.fs = k.fs := (Prod.mk.inj (Prod.mk.inj (Prod.mk.inj (Prod.mk.inj hk).2).2).2).1
    refine .inl ⟨⟨h.of_eq hk, hs, ?_, ?_⟩, ?_⟩ <;> rw [hfs]
    · exact hn
    · exact hP
  | dispatch p fails =>
    rw [Event.body, wp_bind, setFails, wp_modify, wp_bind, wp_modify]
    have hblocked : (k.proc p).blocked = none := (hstill p).2
    have h1 : Waiting (State.setProc { k with mem := { k.mem with fails := fails } } p
        ((k.proc p).dispatched k.ticks)) := by
      refine h.of_eq ?_
      exact keepsHeld_setProc rfl rfl
    rw [goOn, wp_bind, wp_gets, id]
    split
    · rw [wp_when]
      refine ⟨fun _ => wp_imp (h1.wp_forkretFirst acct hP hn) fun _ _ h' => .inr h',
        fun hfirst => ?_⟩
      exact absurd h1.first hfirst
    · rename_i b hb
      rw [State.setProc_proc_same] at hb
      have : (k.proc p).blocked = some b := hb
      rw [hblocked] at this
      cases this

/-- **One event** keeps account of all references. -/
theorem Carried.wp_body (acct : ∀ b, Fs.Accounting E (Fs.Carrying P b))
    (h : Carried P n k.fs.dinode k) (hidle : ∀ q, Idle (k.proc q).core) (he : e.enabled k) :
    wp e.body (fun _ k' => Carried P n k.fs.dinode k') (NotFileRef E) k := by
  rcases h with ⟨⟨h, hstill, hn, -⟩, hP⟩ | h
  · exact h.wp_body acct hstill hP hn he
  · exact wp_imp (event_rest (acct _) e h hidle) fun _ _ h' => .inr h'

/-! ### What the account says -/

section

variable (h : Counted n disk s)

include h

theorem Counted.file_ref (f : FPtr) :
    (s.file f).ref = (holders s.slot f : Int) := by
  rcases h with ⟨h, -⟩ | h
  · rw [h.file, holders_eq_zero.mpr fun x => by rw [h.slot]; nofun]
    rfl
  · rw [h.count, count_held]

theorem Counted.file_closed {f : FPtr} (hf : (s.file f).ref = 0) :
    (s.file f).type = .none := by
  rcases h with ⟨h, -⟩ | h
  · rw [h.file]
    rfl
  · exact h.closed f hf

theorem Counted.inode_ref (ip : Fs.IPtr) :
    (s.fs.inode ip).ref = (holders s.node ip : Int) + holders s.cwds ip := by
  rcases h with ⟨h, -⟩ | h
  · obtain ⟨r, hcwds, hrefs⟩ := h.cwd
    have hcount : (s.fs.inode ip).ref = _ := hrefs.count ip
    rw [hcount, ← count_held s.cwds, hcwds, ← count_held, held_eq_zero h.node]
    simp
  · have hcount : (s.fs.inode ip).ref = _ := h.fs.count ip
    rw [hcount, zero_add, add_zero, Multiset.count_add, count_held, count_held]
    rfl

theorem Counted.refs :
    ∃ b S A, b.disk = disk ∧ Fs.Refs b S A 0 s.fs.refs := by
  rcases h with ⟨h, -, -, hdisk⟩ | h
  · obtain ⟨r, -, hrefs⟩ := h.cwd
    exact ⟨_, _, _, hdisk, hrefs⟩
  · exact ⟨_, _, _, rfl, h.fs⟩

theorem Counted.unique {x y : Fs.IPtr} (hx : 0 < (s.fs.inode x).ref)
    (hy : 0 < (s.fs.inode y).ref) (hinum : (s.fs.inode x).inum = (s.fs.inode y).inum) : x = y := by
  obtain ⟨_, _, _, -, hrefs⟩ := h.refs
  exact hrefs.unique x y hx hy hinum

/-- An inode in use has been read from disk, and is allocated there. -/
theorem Counted.allocated (hfirst : s.first = false) {ip : Fs.IPtr}
    (hip : 0 < (s.fs.inode ip).ref) : (s.fs.dinode (s.fs.inode ip).inum).type ≠ .free := by
  rcases h with ⟨h, -⟩ | h
  · rw [h.first] at hfirst
    cases hfirst
  · have hmem := h.fs.mem_of_pos hip
    rw [zero_add, add_zero] at hmem
    obtain ⟨hfree, htype, -⟩ := h.fs.same ip hip (h.fs.valid ip hmem)
    rwa [← htype] at hfree

/-- An allocated inode without links is in use. -/
theorem Counted.kept (hfirst : s.first = false) {i : Nat} (hi : 1 ≤ i)
    (hi' : i < s.fs.sb.ninodes) (htype : (s.fs.dinode i).type ≠ .free)
    (hlink : (s.fs.dinode i).nlink = 0) :
    ∃ ip, 0 < (s.fs.inode ip).ref ∧ (s.fs.inode ip).inum = i := by
  rcases h with ⟨h, -⟩ | h
  · rw [h.first] at hfirst
    cases hfirst
  · rw [show s.fs.sb.ninodes = n from h.fs.ninodes] at hi'
    obtain ⟨ip, hpos, hinum, -⟩ := h.fs.kept i ⟨hi, hi'⟩ htype hlink
    exact ⟨ip, hpos, hinum⟩

/-- An inode that a call has freed has nothing left, and nobody uses it. -/
theorem Counted.freed {i : Nat} (hi : (disk i).type ≠ .free)
    (hfree : (s.fs.dinode i).type = .free) : Fs.Released (s.fs.dinode i) ∧
      ∀ ip, (s.fs.inode ip).inum = i → (s.fs.inode ip).ref ≤ 0 := by
  have h' := h
  rcases h with ⟨-, -, -, hdisk⟩ | h
  · rw [← hdisk] at hi
    exact absurd hfree hi
  · refine ⟨h.fs.gone i hi hfree, fun ip hinum => ?_⟩
    by_contra hpos
    have hall := h'.allocated h.booted (not_le.mp hpos)
    rw [hinum] at hall
    exact hall hfree

end

/-! ### Every run -/

/-- The account in every state, and that every process without a life has no files
and no directory. -/
theorem carried_run (acct : ∀ b, Fs.Accounting E (Fs.Carrying P b)) {k0 : State} (h0 : Fresh k0)
    (hinodes : ∀ ip, (k0.fs.inode ip).ref = 0) (hP : P k0.fs)
    (hboot : userinit k0 = .ok ((), k)) (hrun : Run Step k es s) :
    ∃ n, Carried P n s.fs.dinode s ∧ ∀ q, Idle (s.proc q).core := by
  have hk : Booted k := ⟨k0, h0, hboot⟩
  obtain ⟨hwait, hPk⟩ := wp_ok (wp_userinit_waiting acct h0 hinodes hP) hboot
  refine ⟨k.fs.sb.ninodes, hrun.invariant (P := fun s => Carried P k.fs.sb.ninodes s.fs.dinode s ∧
    ∀ q, Idle (s.proc q).core) ⟨.inl ⟨⟨hwait, hk.still, rfl, rfl⟩, hPk⟩, idle_run hk .start⟩ ?_⟩
  rintro s e s' ⟨h, hidle⟩ hs
  exact ⟨(wp_ok (h.wp_body acct hidle hs.1) hs.2).rebase, fun q =>
    idle_change (hidle q) (step_change hs q)⟩

/-- The references alone. -/
theorem carrying_accounting (b : Fs.RefBase) :
    Fs.Accounting (fun _ => True) (Fs.Carrying (fun _ => True) b) := by
  rw [Fs.carrying_true]
  exact Fs.refs_accounting b

/--
**Open files are counted.** In every state of every run the reference count of an
open file is the number of descriptors that point to it, a file without references
is closed, an inode is held once for each open file of it and for each process in
it, and each end of a pipe is open exactly as long as its one open file is. The
panics of `filedup` and `fileclose` cannot be reached.
-/
theorem file_refs {k0 : State} {boot : Multiset Nat} (h0 : Fresh k0) (hmem : BootMem boot k0.mem)
    (hinodes : ∀ ip, (k0.fs.inode ip).ref = 0) (hboot : userinit k0 = .ok ((), k))
    (hrun : Run Step k es s) : (∀ f, (s.file f).ref = (holders s.slot f : Int)) ∧
    (∀ f, (s.file f).ref = 0 → (s.file f).type = .none) ∧
    (∀ ip, (s.fs.inode ip).ref = (holders s.node ip : Int) + holders s.cwds ip) ∧
    (∀ f g page w, (s.res.file f).isEnd page w → (s.res.file g).isEnd page w → f = g) ∧
    (∀ f page w, (s.res.file f).isEnd page w →
      ((s.pipe page).readopen = true ↔ ∃ g, (s.res.file g).isEnd page false) ∧
      ((s.pipe page).writeopen = true ↔ ∃ g, (s.res.file g).isEnd page true)) ∧
    ∀ e x, Stops s e x → x ≠ .kern .filedup ∧ x ≠ .kern .fileclose := by
  obtain ⟨n, hcarried, hidle⟩ := carried_run carrying_accounting h0 hinodes trivial hboot hrun
  have h := hcarried.counted
  obtain ⟨u1, hgood1⟩ := wp_ok (wp_userinit_pages (h0.good hmem)) hboot
  obtain ⟨u, hgood⟩ := good_run hgood1 hrun
  have hfiles := hgood.inv.files
  refine ⟨h.file_ref, fun f => h.file_closed, h.inode_ref, fun f g page w => hfiles.unique,
    fun f page w hf => ?_, fun e x hstop => ?_⟩
  · have hpage := mem_pipes.mpr ⟨f, w, hf⟩
    exact ⟨hfiles.readopen page hpage, hfiles.writeopen page hpage⟩
  · obtain ⟨hdup, hclose, -⟩ :=
      wp_error (hcarried.wp_body carrying_accounting hidle hstop.1) hstop.2
    exact ⟨hdup, hclose⟩

/-- Init makes a pipe and a child, and closes one end. -/
def sharePipe : List Event :=
  [.dispatch 0 [], .call 0 (.pipe 4096) [], .call 0 .fork [], .call 0 (.close 0) []]

theorem file_refs_sharePipe : ∃ k s, userinit small = .ok ((), k) ∧ Run Step k sharePipe s ∧
    (s.file 1).ref = 2 ∧ (s.file 1).ref = (holders s.slot 1 : Int) ∧
    ∀ e x, Stops s e x → x ≠ .kern .filedup ∧ x ≠ .kern .fileclose := by
  obtain ⟨k, s, hboot, hrun, hs⟩ := userinit_of_bootRun small sharePipe (C := fun _ _ => True)
    (f := fun s => (s.file 1).ref) (b := 2) (by decide +kernel)
  have h := file_refs fresh_small bootMem_small (fun _ => rfl) hboot hrun.of_restrict
  exact ⟨k, s, hboot, hrun.of_restrict, hs, h.1 1, h.2.2.2.2.2⟩

/--
**Inodes are counted, and freed when nobody needs them.** In every state of every
run an inode is held once for each open file of it and for each process in it, and
by one entry of the inode table. Once the first process has run, an inode that is
held is allocated on disk, and an allocated inode without links is held. What a step
frees has neither links nor blocks left, and nobody holds it.
-/
theorem inode_refs {k0 : State} (h0 : Fresh k0) (hinodes : ∀ ip, (k0.fs.inode ip).ref = 0)
    (hboot : userinit k0 = .ok ((), k)) (hrun : Run Step k es s) :
    (∀ ip, (s.fs.inode ip).ref = (holders s.node ip : Int) + holders s.cwds ip) ∧
    (∀ x y, 0 < (s.fs.inode x).ref → 0 < (s.fs.inode y).ref →
      (s.fs.inode x).inum = (s.fs.inode y).inum → x = y) ∧
    (s.first = false → (∀ ip, 0 < (s.fs.inode ip).ref →
        (s.fs.dinode (s.fs.inode ip).inum).type ≠ .free) ∧
      ∀ i, 1 ≤ i → i < s.fs.sb.ninodes → (s.fs.dinode i).type ≠ .free →
        (s.fs.dinode i).nlink = 0 → ∃ ip, 0 < (s.fs.inode ip).ref ∧ (s.fs.inode ip).inum = i) ∧
    ∀ e s', Step s e s' → ∀ i, (s.fs.dinode i).type ≠ .free → (s'.fs.dinode i).type = .free →
      Fs.Released (s'.fs.dinode i) ∧
        ∀ ip, (s'.fs.inode ip).inum = i → (s'.fs.inode ip).ref ≤ 0 := by
  obtain ⟨n, hcarried, hidle⟩ := carried_run carrying_accounting h0 hinodes trivial hboot hrun
  have h := hcarried.counted
  refine ⟨h.inode_ref, fun x y => h.unique, fun hfirst => ⟨fun ip => h.allocated hfirst,
    fun i => h.kept hfirst⟩, fun e s' hs i hi hfree => ?_⟩
  exact (wp_ok (hcarried.wp_body carrying_accounting hidle hs.1) hs.2).counted.freed hi hfree

/-- Init creates the file `f` and removes its name. -/
def openUnlink : List Event :=
  [.dispatch 0 [], .call 0 (.opn (some [102]) 0x201) [], .call 0 (.unlink (some [102])) []]

/-- The inode stays until the descriptor is closed. -/
theorem inode_refs_openUnlink : ∃ k s s', userinit small = .ok ((), k) ∧ Run Step k openUnlink s ∧
    ((s.fs.dinode 3).type = .file ∧ (s.fs.dinode 3).nlink = 0 ∧
      ∃ ip, 0 < (s.fs.inode ip).ref ∧ (s.fs.inode ip).inum = 3) ∧
    Step s (.call 0 (.close 0) []) s' ∧ (s'.fs.dinode 3).type = .free ∧
    Fs.Released (s'.fs.dinode 3) := by
  obtain ⟨k, s, hboot, hrun, hs⟩ := userinit_of_bootRun small openUnlink (C := fun _ _ => True)
    (f := fun s => (stepFn s (.call 0 (.close 0) [])).map fun s' => (s.first,
      (s.fs.dinode 3).type, (s.fs.dinode 3).nlink, s.fs.sb.ninodes, (s'.fs.dinode 3).type))
    (b := some (false, .file, 0, 8, .free)) (by decide +kernel)
  obtain ⟨s', hstep, hs⟩ := Option.map_eq_some_iff.mp hs
  simp only [Prod.mk.injEq] at hs
  obtain ⟨hfirst, htype, hlink, hn, hfree⟩ := hs
  have halloc : (s.fs.dinode 3).type ≠ .free := by
    rw [htype]
    nofun
  have h := inode_refs fresh_small (fun _ => rfl) hboot hrun.of_restrict
  have hkept := (h.2.2.1 hfirst).2 3 (by decide) (by rw [hn]; decide) halloc hlink
  have hs' := step_of_stepFn hstep
  exact ⟨k, s, s', hboot, hrun.of_restrict, ⟨htype, hlink, hkept⟩, hs', hfree,
    (h.2.2.2 _ s' hs' 3 halloc hfree).1⟩

end Xv6.Kernel
