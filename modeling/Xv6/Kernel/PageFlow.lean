import Xv6.Fs.Io
import Xv6.Kernel.Resources

/-!
# xv6 — where the code of the kernel takes pages and leaves them

Every system call leaves the pages split between their owners, whatever `kalloc`
answers on the way.

* `Good L A u k` — the pages are split, the running code holds `A`, and `u` says
  which slots of the process table are unused.
* `Flows`        — a program preserves that and runs into no panic of the memory
  system. `flows_…` are the programs that hold no page when they return; those that do
  are in `Xv6.Kernel.PageProc`.
-/

namespace Xv6.Kernel

open Prog Vm Function Multiset

variable {r : Pid} {pt : Pagetable} {addr pa : Nat} {k' : State} {f : FPtr} {E : Stop → Prop}
  {arg n : Int} {ip : Fs.IPtr}

/-- The kernel stops for another reason than a panic of the memory system. -/
def NotVm (e : Stop) : Prop := ∀ x, e ≠ .vm x

/-- The pages are split between their owners, the running code holding `A`, and `u`
says which slots are unused. -/
structure Good (L : Layout) (A : Multiset Nat) (u : Pid → Bool) (k : State) : Prop where
  inv : Inv L Finset.univ A k.res
  unused : ∀ q, (k.proc q).space.unused = u q

/-- The program leaves the pages split as they were. -/
abbrev Flows {α : Type} (L : Layout) (A : Multiset Nat) (u : Pid → Bool) (m : KM α) : Prop :=
  Stable NotVm (Good L A u) m

variable {α : Type} {L : Layout} {A : Multiset Nat} {u : Pid → Bool} {k : State} {p q : Pid}

/-- The pages of the owners other than process `q` and the running code. -/
def others (L : Layout) (q : Pid) (k : State) : Multiset Nat :=
  L.boot + ∑ r ∈ Finset.univ.erase q, (k.proc r).space.pages + k.res.pipes.val

/-- What code that works on process `q` leaves alone. -/
def outside (L : Layout) (q : Pid) (k : State) : Frame := ⟨L.kend, L.total, k.mem, others L q k⟩

/-- From `k0` to `k` only process `q` has changed, and the other owners' pages hold
what they held. -/
structure Aside (L : Layout) (q : Pid) (k0 k : State) : Prop where
  only : ∃ pr mem n,
    k = { k0 with proc := update k0.proc q pr, mem := mem, nextpid := n }
  same : ∀ pa ∈ others L q k0, SamePage k0.mem k.mem pa

theorem Aside.refl (L : Layout) (q : Pid) (k : State) : Aside L q k k := by
  refine ⟨⟨k.proc q, k.mem, k.nextpid, ?_⟩, fun pa _ => .refl k.mem pa⟩
  rw [update_eq_self]

namespace Aside

variable {k0 k1 : State}

theorem others_eq (h : Aside L q k0 k1) : others L q k1 = others L q k0 := by
  obtain ⟨pr, mem, n, rfl⟩ := h.only
  have hsum : ∑ r ∈ Finset.univ.erase q, (update k0.proc q pr r).space.pages =
      ∑ r ∈ Finset.univ.erase q, (k0.proc r).space.pages :=
    Finset.sum_congr rfl fun r hr => by rw [update_of_ne (Finset.ne_of_mem_erase hr)]
  change _ + ∑ r ∈ Finset.univ.erase q, (update k0.proc q pr r).space.pages + _ = _
  rw [hsum]
  rfl

theorem proc_of_ne (h : Aside L q k0 k1) (hr : r ≠ q) : k1.proc r = k0.proc r := by
  obtain ⟨pr, mem, n, rfl⟩ := h.only
  exact update_of_ne hr ..

theorem trans (h : Aside L q k0 k1) {k2 : State} (h' : Aside L q k1 k2) : Aside L q k0 k2 := by
  refine ⟨?_, fun pa hpa => (h.same pa hpa).trans (h'.same pa (h.others_eq.symm ▸ hpa))⟩
  obtain ⟨pr, mem, n, rfl⟩ := h.only
  obtain ⟨pr', mem', n', rfl⟩ := h'.only
  exact ⟨pr', mem', n', by simp only [update_idem]⟩

/-- A change of the process. -/
theorem setProc (h : Aside L q k0 k1) (pr : Proc) : Aside L q k0 (k1.setProc q pr) :=
  h.trans ⟨⟨pr, k1.mem, k1.nextpid, rfl⟩, fun pa _ => .refl k1.mem pa⟩

/-- A change of memory outside the others' pages. -/
theorem setMem (h : Aside L q k0 k1) {mem : Mem} {A : Multiset Nat}
    (hm : Holds (outside L q k1) mem A) : Aside L q k0 { k1 with mem := mem } := by
  refine h.trans ⟨⟨k1.proc q, mem, k1.nextpid, ?_⟩, hm.same⟩
  rw [update_eq_self]

end Aside

/-- What process `q` sees of its memory; without a page table it is memory never
touched. -/
def State.view (k : State) (q : Pid) : View :=
  Vm.view k.mem fun v => (k.proc q).pagetable.bind (leaf · v)

theorem State.view_eq (h : (k.proc q).pagetable = some pt) :
    k.view q = Vm.view k.mem (leaf pt) := by
  rw [State.view, h]
  rfl

/-- The pages a process maps are among those it owns. -/
theorem Space.Ok.mem_pages {s : Space} (h : s.Ok)
    (hpa : pa ∈ frames fun v => s.pagetable.bind (leaf · v)) : pa ∈ s.pages := by
  cases hpt : s.pagetable with
  | none =>
    obtain ⟨v, pte, -, hpte, -⟩ := mem_frames_iff.mp hpa
    rw [hpt] at hpte
    cases hpte
  | some pt =>
    have hused : s.unused = false := by
      by_contra hunused
      have := (h.clear (by simpa using hunused)).2.1
      rw [hpt] at this
      cases this
    rw [hpt] at hpa
    rw [Space.pages, if_neg (by simp [hused]), Space.held, hpt]
    exact mem_add.mpr (.inr (mem_add.mpr (.inr hpa)))

/-- Those of another process are left alone. -/
theorem Good.mem_others (h : Good L A u k) (hr : r ≠ q)
    (hpa : pa ∈ frames fun v => (k.proc r).pagetable.bind (leaf · v)) : pa ∈ others L q k := by
  have hmem := (h.inv.proc r (Finset.mem_univ r)).mem_pages hpa
  exact mem_add.mpr (.inl (mem_add.mpr (.inr (mem_sum.mpr
    ⟨r, Finset.mem_erase.mpr ⟨hr, Finset.mem_univ r⟩, hmem⟩))))

/-- **Isolation.** Code that works on one process changes nothing the others see. -/
theorem Good.view_aside (h : Good L A u k) (ha : Aside L q k k') (hr : r ≠ q) :
    k'.view r = k.view r := by
  rw [State.view, ha.proc_of_ne hr]
  exact view_same fun pa hpa => ha.same pa (h.mem_others hr hpa)

theorem Good.of_res (h : Good L A u k) (hres : k'.res = k.res) : Good L A u k' := by
  refine ⟨hres ▸ h.inv, fun q => ?_⟩
  rw [← State.res_proc, hres]
  exact h.unused q

/-- What does not touch the owners. -/
theorem Flows.of_res {m : KM α} (hm : Keeps NotVm State.res m) : Flows L A u m :=
  hm.stable fun _ _ hres h => h.of_res hres

theorem keepsRes_onFs {m : Fs.FsM α} : Keeps NotVm State.res (onFs m) :=
  .zoom (fun _ _ => nofun) fun _ _ => rfl

theorem flows_onFs {m : Fs.FsM α} : Flows L A u (onFs m) := .of_res keepsRes_onFs

theorem keepsRes_updProc {f : Proc → Proc} (h : ∀ pr, (f pr).space = pr.space) :
    Keeps NotVm State.res (updProc p f) := by
  refine .modify fun k => ?_
  rw [State.res_setProc, h, ← State.res_proc, Resources.setProc, update_eq_self]

theorem flows_updProc {f : Proc → Proc} (h : ∀ pr, (f pr).space = pr.space) :
    Flows L A u (updProc p f) := .of_res (keepsRes_updProc h)

theorem flows_setFd {fd : Fin NOFILE} {f : Option FPtr} : Flows L A u (setFd p fd f) :=
  flows_updProc fun _ => rfl

theorem keepsRes_fdalloc : Keeps NotVm State.res (fdalloc p f) := by
  refine .bind (.gets _) fun k => ?_
  split
  · exact .pure _
  · exact .bind (keepsRes_updProc fun _ => rfl) fun _ => .pure _

theorem flows_fdalloc : Flows L A u (fdalloc p f) := .of_res keepsRes_fdalloc

theorem flows_argfd {fd : Int} : Flows L A u (argfd p fd) := .gets _

/-! ### User memory -/

theorem State.res_putUser (k : State) (p : Pid) (u : User) : (k.putUser p u).res =
      { k.res.setProc p { (k.proc p).space with pagetable := some u.pt } with mem := u.mem } := by
  have hset := State.res_setProc k p { k.proc p with pagetable := some u.pt }
  change { (k.setProc p _).res with mem := u.mem } = _
  rw [hset]
  rfl

/-- A process whose table stays as it was. -/
theorem State.putUser_of_eq {s : User} (h : (k.proc p).pagetable = some s.pt) :
    k.putUser p s = { k with mem := s.mem } := by
  have hproc : ({ k.proc p with pagetable := some s.pt } : Proc) = k.proc p := by rw [← h]
  rw [State.putUser, hproc, State.setProc, update_eq_self]

/-- A mapped page belongs to whoever holds the table. -/
theorem mem_of_frame (h : pa ∈ frames (leaf pt)) (B : Multiset Nat) : pa ∈ Vm.space pt + A + B :=
  mem_add.mpr (.inl (mem_add.mpr (.inl (mem_add.mpr (.inr h)))))

/-- A process in use has an address space, which can be worked on and put back. -/
theorem Good.openUser (h : Good L A u k) (hp : u p = false) :
    ∃ pt B, (k.proc p).pagetable = some pt ∧
      UserOk L.kend L.total B (k.proc p).sz (k.user p pt none) ∧ (∀ pa ∈ others L p k, pa ∈ B) ∧
      ∀ s, UserOk L.kend L.total B (k.proc p).sz s → Good L A u (k.putUser p s) := by
  have hused := (h.unused p).trans hp
  obtain ⟨pt, hpt, himage, htf, hopen⟩ := h.inv.openSpace (Finset.mem_univ p) hused
  have hown := hopen.front
  rw [add_assoc] at hown
  refine ⟨pt, _, hpt, ⟨hown, himage, rfl, rfl⟩, fun pa hpa => mem_add.mpr (.inr hpa),
    fun s hs => ⟨?_, fun q => ?_⟩⟩
  · have hback := hs.own
    rw [← add_assoc] at hback
    rw [State.res_putUser]
    have himage' := hs.image
    rw [hs.sz_eq] at himage'
    have hspace : ({ (k.proc p).space with pagetable := some s.pt } : Space) =
        ⟨false, (k.proc p).sz, some s.pt, (k.proc p).trapframe⟩ := by
      rw [← hused]
      rfl
    rw [hspace]
    exact Inv.closeSpace (Finset.mem_univ p) (hopen.mem hback) htf himage'
  · rw [← h.unused q]
    by_cases hq : q = p
    · subst hq
      simp [State.putUser, Proc.space]
    · simp [State.putUser, State.setProc, hq]

theorem State.view_user (h : (k.proc p).pagetable = some pt) : (k.user p pt none).view = k.view p :=
  (State.view_eq h).symm

theorem State.view_putUser (k : State) (p : Pid) (s : User) : (k.putUser p s).view p = s.view := by
  refine State.view_eq ?_
  simp [State.putUser]

/-- **A program over user memory** keeps the process's memory whole and leaves the
other owners' pages alone. -/
theorem wp_onUser {R : User → α → User → Prop} {E : Stop → Prop} (h : Good L A u k)
    (hp : u p = false) {m : UserM α} (hm : ∀ {kend total B s}, UserOk kend total B (k.proc p).sz s →
      wp m (fun a s' => Apart kend total B (k.proc p).sz s s' ∧ R s a s') (fun _ => False) s) :
    wp (onUser p none m) (fun a k' => Good L A u k' ∧ Aside L p k k' ∧
      ∃ pt s', (k.proc p).pagetable = some pt ∧ k' = k.putUser p s' ∧
        R (k.user p pt none) a s') E k := by
  obtain ⟨pt, B, hpt, hopen, hB, hclose⟩ := h.openUser hp
  simp only [onUser, wp_bind, wp_gets, id, hpt, wp_zoom]
  refine wp_mono (hm hopen) ?_ fun _ => False.elim
  rintro a s ⟨hs, hR⟩
  refine ⟨hclose s hs.ok, ⟨⟨_, s.mem, k.nextpid, rfl⟩, fun pa hpa => hs.same pa (hB pa hpa)⟩, ?_⟩
  exact ⟨pt, s, rfl, rfl, hR⟩

theorem flows_onUser (hp : u p = false) {m : UserM α}
    (hm : ∀ {kend total B sz s}, UserOk kend total B sz s →
      wp m (fun _ s' => Apart kend total B sz s s') (fun _ => False) s) :
    Flows L A u (onUser p none m) := by
  refine ⟨fun k hk => wp_imp (wp_onUser (R := fun _ _ _ => True) hk hp fun h => ?_)
    fun _ _ h => h.1⟩
  exact wp_imp (hm h) fun _ _ h' => ⟨h', trivial⟩

theorem flows_copyout (hp : u p = false) {va : Nat} {bs : List UInt8} :
    Flows L A u (copyout p va bs) :=
  flows_onUser hp fun h => wp_imp (wp_copyout _ _ h) fun _ _ h' => h'.1

theorem flows_copyin (hp : u p = false) {va n : Nat} : Flows L A u (copyin p va n) :=
  flows_onUser hp fun h => wp_imp (wp_copyin _ _ h) fun _ _ h' => h'.1.toApart

theorem flows_onIo (hp : u p = false) {m : Fs.IoM Vm.Panic User α}
    (hm : ∀ {kend total B sz s}, UserOk kend total B sz s.2 →
      wp m (fun _ s' => UserOk kend total B sz s'.2) (Sum.elim (fun _ => True) fun _ => False) s) :
    Flows L A u (onIo p m) := by
  refine ⟨fun k hk => ?_⟩
  obtain ⟨pt, B, hpt, hopen, -, hclose⟩ := hk.openUser hp
  simp only [onIo, wp_bind, wp_gets, id, hpt, wp_zoom]
  refine wp_mono (hm hopen) (fun _ s hs => (hclose s.2 hs).of_res rfl) ?_
  rintro (e | e) he
  · rintro _ ⟨⟩
  · exact he.elim

/-! ### Physical memory -/

/-- A program of the memory system that does not panic. -/
theorem wp_onMem_res {m : MemM α} {Q : α → State → Prop}
    (h : wp m (fun a mem => Q a { k with mem := mem }) (fun _ => False) k.mem) :
    wp (onMem m) Q E k := by
  rw [onMem, wp_zoom]
  exact wp_mono h (fun _ _ h => h) fun _ => False.elim

/-- `kalloc` by the running code. -/
theorem wp_kalloc_good (h : Good L A u k) : wp (onMem kalloc)
    (fun r k' => (∃ mem, k' = { k with mem := mem }) ∧
      (r = 0 ∧ Good L A u k' ∨ r ≠ 0 ∧ Good L (r ::ₘ A) u k')) NotVm k := by
  refine wp_onMem_res (wp_imp (wp_kalloc h.inv.front.holds) ?_)
  rintro r mem ⟨⟨hr, hmem⟩ | ⟨hr, hmem⟩, -⟩
  · exact ⟨⟨mem, rfl⟩, .inl ⟨hr, h.inv.mem hmem.own, h.unused⟩⟩
  · exact ⟨⟨mem, rfl⟩, .inr ⟨hr, h.inv.mem hmem.own, h.unused⟩⟩

/-- `kfree` of a page the running code holds. -/
theorem wp_kfree_good (h : Good L (pa ::ₘ A) u k) :
    wp (onMem (kfree pa)) (fun _ k' => Good L A u k') NotVm k := by
  refine wp_onMem_res (wp_imp (wp_kfree h.inv.front.holds) ?_)
  exact fun _ mem hmem => ⟨h.inv.mem hmem.1.own, h.unused⟩

/-! ### Files -/

/-- Replace an entry of the file table. -/
def State.setFile (k : State) (f : FPtr) (x : File) : State :=
  { k with file := update k.file f x }

@[simp] theorem State.setFile_file_same (k : State) (f : FPtr) (x : File) :
    (k.setFile f x).file f = x := update_self ..

theorem State.setFile_file_of_ne (k : State) {g : FPtr} (x : File) (h : g ≠ f) :
    (k.setFile f x).file g = k.file g := update_of_ne h ..

theorem wp_updFile {g : File → File} {Q : Unit → State → Prop} :
    wp (updFile f g) Q E k ↔ Q () (k.setFile f (g (k.file f))) := wp_modify

theorem Good.setFile {x : File} (h : Good L A u k)
    (hend : ∀ page w, x.res.isEnd page w ↔ (k.file f).res.isEnd page w)
    (hclosed : x.ref < 1 → x.type = .none) : Good L A u (k.setFile f x) := by
  refine ⟨?_, h.unused⟩
  rw [State.setFile, State.res_updFile]
  exact h.inv.setFile hend hclosed

/-- A file that is no pipe before and after. -/
theorem Good.setFile_of_ne_pipe {x : File} (h : Good L A u k) (hold : (k.file f).type ≠ .pipe)
    (hnew : x.type ≠ .pipe) (hclosed : x.ref < 1 → x.type = .none) : Good L A u (k.setFile f x) :=
  h.setFile (fun page w => iff_of_false (not_isEnd hnew page w) (not_isEnd hold page w)) hclosed

theorem Good.closed (h : Good L A u k) (hf : (k.file f).ref < 1) :
    (k.file f).type = .none := h.inv.files.closed f hf

/-- `filealloc` finds no entry, or takes one that is not in use. -/
theorem wp_filealloc {Q : Option FPtr → State → Prop} (hnone : Q none k)
    (hsome : ∀ f, (k.file f).ref = 0 → Q (some f) (k.setFile f { k.file f with ref := 1 })) :
    wp filealloc Q E k := by
  simp only [filealloc, wp_bind, wp_gets]
  split
  · exact wp_pure.mpr hnone
  · rename_i f hf
    have href : (k.file f).ref = 0 := by simpa using List.find?_some hf
    rw [wp_bind, wp_updFile]
    exact wp_pure.mpr (hsome f href)

/-- The entry `filealloc` takes. -/
theorem Good.alloc (h : Good L A u k) (hf : (k.file f).ref = 0) :
    Good L A u (k.setFile f { k.file f with ref := 1 }) ∧ (k.file f).type = .none := by
  have htype := h.closed (f := f) (by omega)
  refine ⟨h.setFile_of_ne_pipe ?_ ?_ fun hlt => ?_, htype⟩
  · rw [htype]
    nofun
  · rw [htype]
    nofun
  · omega

theorem flows_filedup : Flows L A u (filedup f) := by
  refine ⟨fun k hk => ?_⟩
  simp only [filedup, wp_bind, wp_gets, id, wp_ite]
  refine ⟨fun _ => wp_stop.mpr (by rintro _ ⟨⟩), fun href => wp_updFile.mpr (hk.setFile ?_ ?_)⟩
  · exact fun _ _ => Iff.rfl
  · intro hlt
    change (k.file f).ref + 1 < 1 at hlt
    omega

theorem flows_fileclose : Flows L A u (fileclose f) := by
  refine ⟨fun k hk => ?_⟩
  simp only [fileclose, wp_bind, wp_gets, id, wp_ite]
  refine ⟨fun _ => wp_stop.mpr (by rintro _ ⟨⟩), fun _ => ⟨fun href => ?_, fun _ => ?_⟩⟩
  · refine wp_updFile.mpr (hk.setFile (fun _ _ => Iff.rfl) fun hlt => ?_)
    change (k.file f).ref - 1 < 1 at hlt
    omega
  rw [wp_updFile]
  have hother : (k.file f).type ≠ .pipe →
      Good L A u (k.setFile f { k.file f with ref := 0, type := .none }) :=
    fun htype => hk.setFile_of_ne_pipe htype (by rintro ⟨⟩) fun _ => rfl
  unfold fileRelease
  split
  · rename_i htype
    -- the file was an end of a pipe
    have hend : (k.res.file f).isEnd (k.file f).pipe (k.file f).writable := ⟨htype, rfl, rfl⟩
    have hclose := hk.inv.closeEnd (x := ({ k.file f with ref := 0, type := .none } : File).res)
      hend rfl
    simp only [pipeclose, wp_bind, wp_modify, wp_gets, id, wp_when]
    have hres : ({ k.setFile f { k.file f with ref := 0, type := .none } with
        pipe := update k.pipe (k.file f).pipe
          ((k.pipe (k.file f).pipe).close (k.file f).writable) } : State).res =
        k.res.closeEnd (k.file f).pipe (k.file f).writable f
          ({ k.file f with ref := 0, type := .none } : File).res := by
      rw [Resources.closeEnd, ← State.res_updFile]
      rfl
    rw [← hres] at hclose
    simp only [update_self] at hclose ⊢
    split at hclose
    · rename_i hboth
      exact ⟨fun _ => wp_kfree_good ⟨hclose, hk.unused⟩, fun hne => absurd hboth hne⟩
    · rename_i hopen
      exact ⟨fun hboth => absurd hboth hopen, fun _ => ⟨hclose, hk.unused⟩⟩
  · rename_i htype
    exact flows_onFs.wp _ (hother (by rw [htype]; rintro ⟨⟩))
  · rename_i htype
    exact flows_onFs.wp _ (hother (by rw [htype]; rintro ⟨⟩))
  · rename_i htype
    exact wp_pure.mpr (hother (by rw [htype]; rintro ⟨⟩))

theorem flows_pipealloc : Flows L A u pipealloc := by
  refine ⟨fun k hk => ?_⟩
  simp only [pipealloc, wp_bind]
  refine wp_filealloc (wp_pure.mpr hk) fun f0 href0 => ?_
  obtain ⟨h1, htype0⟩ := hk.alloc href0
  rw [wp_bind]
  refine wp_filealloc ?_ fun f1 href1 => ?_
  · exact flows_fileclose.seq h1 fun _ _ h => wp_pure.mpr h
  obtain ⟨h2, htype1⟩ := h1.alloc href1
  have hne : f0 ≠ f1 := by
    rintro rfl
    rw [State.setFile_file_same] at href1
    cases href1
  refine wp_then (wp_kalloc_good h2) ?_
  rintro page _ ⟨⟨mem, rfl⟩, ⟨rfl, h3⟩ | ⟨hpage, h3⟩⟩
  · simp only [if_true, wp_bind]
    refine flows_fileclose.andThen h3 fun _ k4 h4 => ?_
    exact flows_fileclose.andThen h4 fun _ _ h5 => wp_pure.mpr h5
  · simp only [if_neg hpage, wp_bind, wp_modify, wp_updFile]
    refine wp_pure.mpr ⟨?_, h3.unused⟩
    have hres : ∀ {k : State} {f : FPtr} {x : File}, (k.setFile f x).res = k.res.setFile f x.res :=
      State.res_updFile ..
    have hf0 : ((k.setFile f0 { k.file f0 with ref := 1 }).setFile f1
        { (k.setFile f0 { k.file f0 with ref := 1 }).file f1 with ref := 1 }).file f0 =
        { k.file f0 with ref := 1 } := by
      rw [State.setFile_file_of_ne _ _ hne, State.setFile_file_same]
    rw [hres, hres]
    refine h3.inv.openPipe hne ?_ ?_ ⟨rfl, rfl, rfl⟩ ⟨rfl, rfl, rfl⟩ ?_ ?_
    · change (File.type (State.file _ f0)) ≠ _
      rw [hf0]
      rw [htype0]
      rintro ⟨⟩
    · change (File.type (State.file (State.setFile _ f1 _) f1)) ≠ _
      rw [State.setFile_file_same]
      rw [htype1]
      rintro ⟨⟩
    · change 1 ≤ File.ref (State.file _ f0)
      rw [hf0]
    · rw [State.setFile_file_of_ne _ _ (Ne.symm hne)]
      change 1 ≤ File.ref (State.file (State.setFile _ f1 _) f1)
      rw [State.setFile_file_same]

theorem flows_sysDup : Flows L A u (sysDup p arg) := by
  refine .bind flows_argfd fun r => ?_
  rcases r with _ | ⟨_, f⟩
  · exact .pure _
  · refine .bind flows_fdalloc fun r => ?_
    rcases r with _ | fd
    · exact .pure _
    · exact .bind flows_filedup fun _ => .pure _

theorem flows_sysClose : Flows L A u (sysClose p arg) := by
  refine .bind flows_argfd fun r => ?_
  rcases r with _ | ⟨fd, f⟩
  · exact .pure _
  · exact .bind flows_setFd fun _ => .bind flows_fileclose fun _ => .pure _

theorem flows_pipeFail {rf wf : FPtr} : Flows L A u (pipeFail rf wf) :=
  .bind flows_fileclose fun _ => .bind flows_fileclose fun _ => .pure _

theorem flows_sysPipe (hp : u p = false) {fdarray : Nat} : Flows L A u (sysPipe p fdarray) := by
  refine .bind flows_pipealloc fun r => ?_
  rcases r with _ | ⟨rf, wf⟩
  · exact .pure _
  refine .bind flows_fdalloc fun r => ?_
  rcases r with _ | fd0
  · exact flows_pipeFail
  refine .bind flows_fdalloc fun r => ?_
  rcases r with _ | fd1
  · exact .bind flows_setFd fun _ => flows_pipeFail
  refine .bind (flows_copyout hp) fun _ => .bind (.ite (flows_copyout hp) (.pure _)) fun _ => ?_
  exact .ite (.pure _) (.bind flows_setFd fun _ => .bind flows_setFd fun _ => flows_pipeFail)

/-- A change of a file that no owner notices. -/
theorem flows_updFile {g : File → File} (h : ∀ x, (g x).res = x.res) :
    Flows L A u (updFile f g) := by
  refine .of_res (.modify fun k => ?_)
  rw [State.res_updFile, h, ← State.res_file, Resources.setFile, update_eq_self]

theorem flows_filestat (hp : u p = false) : Flows L A u (filestat p f addr) := by
  refine .bind (.gets _) fun k => .ite ?_ (.pure _)
  exact .bind flows_onFs fun _ => .bind (flows_copyout hp) fun _ => .ite (.pure _) (.pure _)

theorem flows_fileread (hp : u p = false) {tr : Transfer} :
    Flows L A u (fileread p f addr n tr) := by
  have hcopy : Flows L A u (do
      let _ ← copyout p addr tr.bytes
      pure tr.ret : KM Int) := .bind (flows_copyout hp) fun _ => .pure _
  refine .bind (.gets _) fun k => .ite (.pure _) ?_
  split
  · exact hcopy
  · exact .ite (.pure _) hcopy
  · refine .bind flows_onFs fun ip => .bind flows_onFs fun _ => .bind (flows_onIo hp fun h => ?_)
      fun r => ?_
    · exact Fs.wp_readi_side (fun _ _ _ _ h => wp_imp (wp_copyout _ _ h) fun _ _ h' => h'.1.ok) _ h
    · exact .bind (.when (flows_updFile fun _ => rfl)) fun _ => .bind flows_onFs fun _ => .pure _
  · exact .stop fun _ => nofun

theorem flows_writeChunk (hp : u p = false) {i n1 : Int} :
    Flows L A u (writeChunk p f ip addr i n1) := by
  refine .bind flows_onFs fun _ => .bind flows_onFs fun _ => .bind (.gets _) fun k =>
    .bind (flows_onIo hp fun h => ?_) fun r => ?_
  · exact Fs.wp_writei_side (fun _ _ _ h => wp_imp (wp_copyin _ _ h) fun _ _ h' => h'.1.ok) _ h
  · exact .bind (.when (flows_updFile fun _ => rfl)) fun _ => .bind flows_onFs fun _ =>
      .bind flows_onFs fun _ => .pure _

theorem flows_writeChunks (hp : u p = false) (fuel : Nat) (i : Int) :
    Flows L A u (writeChunks p f ip addr n fuel i) := by
  induction fuel generalizing i with
  | zero => exact .pure _
  | succ fuel ih =>
    exact .ite (.bind (flows_writeChunk hp) fun r => .ite (.pure _) (ih _)) (.pure _)

theorem flows_filewrite (hp : u p = false) {tr : Transfer} :
    Flows L A u (filewrite p f addr n tr) := by
  have hcopy : Flows L A u (do
      let _ ← copyin p addr tr.len
      pure tr.ret : KM Int) := .bind (flows_copyin hp) fun _ => .pure _
  refine .bind (.gets _) fun k => .ite (.pure _) ?_
  split
  · exact hcopy
  · exact .ite (.pure _) hcopy
  · exact .bind flows_onFs fun ip => .bind (flows_writeChunks hp _ _) fun _ => .pure _
  · exact .stop fun _ => nofun

/-- A call on a descriptor, which does nothing if the descriptor is not open. -/
theorem flows_withFd {m : FPtr → KM Int} (hm : ∀ f, Flows L A u (m f)) : Flows L A u (do
      match ← argfd p arg with
      | none => pure (-1)
      | some (_, f) => m f) := by
  refine .bind flows_argfd fun r => ?_
  rcases r with _ | ⟨_, f⟩
  · exact .pure _
  · exact hm f

theorem flows_openFail : Flows L A u (openFail ip) :=
  .bind flows_onFs fun _ => .pure _

theorem file_eq_of_res (h : k'.res = k.res) (f : FPtr) :
    (k'.file f).type = (k.file f).type ∧ (k'.file f).ref = (k.file f).ref := by
  have hfile := congrArg (fun R => R.file f) h
  exact ⟨congrArg FileRes.type hfile, congrArg FileRes.ref hfile⟩

/-- `openInstall` makes a file of an entry that has no type yet. -/
theorem wp_openInstall_good {omode : Nat} (h : Good L A u k) (htype : (k.file f).type = .none)
    (href : (k.file f).ref = 1) :
    wp (openInstall f ip omode) (fun _ k' => Good L A u k') NotVm k := by
  simp only [openInstall, wp_bind, wp_updFile, State.setFile_file_same]
  refine keepsRes_onFs.andThen rfl fun d k1 hres => ?_
  obtain ⟨htype1, href1⟩ := file_eq_of_res hres f
  have hnew : ∀ x : File, x.type ≠ .pipe → x.ref = 1 → Good L A u (k1.setFile f x) := by
    refine fun x hx hr => (h.of_res hres).setFile_of_ne_pipe ?_ hx fun hlt => ?_
    · rw [htype1, htype]
      nofun
    · omega
  have hset : ∀ x y : File, (k1.setFile f x).setFile f y = k1.setFile f y := fun x y => by
    simp [State.setFile]
  rw [hset]
  refine flows_onFs.wp _ (hnew _ ?_ ?_)
  · split <;> nofun
  · split <;> exact href1.trans href

theorem flows_sysOpen {path : Option Fs.Path} {omode : Nat} :
    Flows L A u (sysOpen p path omode) := by
  refine .bind (.gets _) fun k => .ite (.pure _) ?_
  rcases path with _ | path
  · exact .pure _
  refine .bind flows_onFs fun _ => .bind (.gets _) fun k => .bind flows_onFs fun r => ?_
  rcases r with _ | ip
  · exact .bind flows_onFs fun _ => .pure _
  refine .bind flows_onFs fun d => .ite flows_openFail ⟨fun k hk => ?_⟩
  rw [wp_bind]
  refine wp_filealloc (flows_openFail.wp _ hk) fun f href => ?_
  obtain ⟨h1, htype⟩ := hk.alloc href
  refine keepsRes_fdalloc.seq rfl fun r k2 hres => ?_
  rcases r with _ | fd
  · exact flows_fileclose.seq (h1.of_res hres) fun _ _ h3 => flows_openFail.wp _ h3
  · obtain ⟨htype2, href2⟩ := file_eq_of_res hres f
    rw [State.setFile_file_same] at htype2 href2
    refine wp_then (wp_openInstall_good (h1.of_res hres) ?_ href2) fun _ _ h3 => wp_pure.mpr h3
    exact htype2.trans htype

theorem flows_sysChdir {path : Option Fs.Path} : Flows L A u (sysChdir p path) := by
  refine .bind (.gets _) fun k => .bind flows_onFs fun r => ?_
  rcases r with _ | ip
  · exact .pure _
  · exact .bind (flows_updProc fun _ => rfl) fun _ => .pure _

end Xv6.Kernel
