import Xv6.Kernel.InodePairs

/-!
# xv6 — which entries of the file table `inodepairs` reports

`sys_inodepairs` takes an entry for a file with an inode if `f->ip` is set.
`sys_open` sets it, nothing clears it: `fileclose` leaves it, and `pipealloc`
takes an entry as it finds it. So an end of a pipe in an entry that once was a
file still has an inode, as far as `sys_inodepairs` can tell.

* `Kind`        — what decides whether an entry is reported.
* `Typed`       — every entry is closed or of the kind its fields say.
* `CleanPipe`   — `pipe` finds entries that never were files.
* `pairs_real`  — then the pairs are pairs of open files with one inode.
* `pipe_paired` — an end of a pipe in a pair.
-/

namespace Xv6.Kernel

open Prog TransitionRun Function

variable {addr : Nat} {arg n : Int} {path : Option Fs.Path} {ip : Fs.IPtr} {s : Scan}

/-- What `sys_inodepairs` and the functions of `kernel/file.c` see of an entry. -/
structure Kind where
  ref : Int
  type : FType
  ip : Option Fs.IPtr

def File.kind (x : File) : Kind := ⟨x.ref, x.type, x.ip⟩

def State.kinds (k : State) (f : FPtr) : Kind := (k.file f).kind

/-- An entry is closed, or has a type; files with an inode have one, ends of pipes
do not. -/
structure Kind.Ok (x : Kind) : Prop where
  closed_iff : x.type = .none ↔ x.ref ≤ 0
  named : x.type = .inode ∨ x.type = .device → x.ip ≠ none
  pipe : x.type = .pipe → x.ip = none

/-- One more reference. -/
def Kind.dup (x : Kind) : Kind := { x with ref := x.ref + 1 }

/-- One reference less. -/
def Kind.close (x : Kind) : Kind :=
  if 1 < x.ref then { x with ref := x.ref - 1 } else { x with ref := 0, type := .none }

variable {α : Type} {k k' : State} {p : Pid} {f : FPtr} {x : Kind}

theorem Kind.Ok.dup (h : x.Ok) (hopen : 0 < x.ref) : x.dup.Ok := by
  refine ⟨⟨fun htype => ?_, fun href => ?_⟩, h.named, h.pipe⟩
  · have := h.closed_iff.mp htype
    omega
  · change x.ref + 1 ≤ 0 at href
    omega

theorem Kind.ok_closed (x : Kind) : ({ x with ref := 0, type := .none } : Kind).Ok := by
  refine ⟨⟨fun _ => le_rfl, fun _ => rfl⟩, ?_, nofun⟩
  rintro (htype | htype) <;> cases htype

theorem Kind.ok_pipe (href : x.ref = 1) (hip : x.ip = none) :
    ({ x with type := .pipe } : Kind).Ok := by
  refine ⟨⟨nofun, fun h => ?_⟩, ?_, fun _ => hip⟩
  · change x.ref ≤ 0 at h
    omega
  · rintro (htype | htype) <;> cases htype

theorem Kind.ok_inode (href : x.ref = 1) (htype : x.type = .inode ∨ x.type = .device) :
    ({ x with ip := some ip } : Kind).Ok := by
  refine ⟨⟨fun h => ?_, fun h => ?_⟩, nofun, fun h => ?_⟩
  · change x.type = .none at h
    simp [h] at htype
  · change x.ref ≤ 0 at h
    omega
  · change x.type = .pipe at h
    simp [h] at htype

theorem Kind.Ok.close (h : x.Ok) : x.close.Ok := by
  unfold Kind.close
  split
  · refine ⟨⟨fun htype => ?_, fun href => ?_⟩, h.named, h.pipe⟩
    · have := h.closed_iff.mp htype
      omega
    · change x.ref - 1 ≤ 0 at href
      omega
  · exact ok_closed x

/-- An entry that was just taken is closed again. -/
theorem Kind.ok_close_of_le (href : x.ref ≤ 1) : x.close.Ok := by
  rw [Kind.close, if_neg (by omega)]
  exact ok_closed x

theorem State.kinds_setFile (k : State) (f : FPtr) (x : File) :
    (k.setFile f x).kinds = update k.kinds f x.kind := by
  funext g
  by_cases hg : g = f
  · subst hg
    rw [State.kinds, State.setFile_file_same, update_self]
  · rw [State.kinds, State.setFile_file_of_ne _ _ hg, update_of_ne hg, State.kinds]

/-! ### Programs that leave the table alone -/

/-- Any reason to stop. -/
abbrev AnyStop (_ : Stop) : Prop := True

/-- The program leaves the kinds of the entries alone. -/
abbrev KeepsKinds (m : KM α) : Prop := Keeps AnyStop State.kinds m

theorem KeepsHeld.kinds {m : KM α} (hm : KeepsHeld (fun _ => True) m) : KeepsKinds m := by
  refine ⟨fun k => wp_mono (hm.wp k) (fun _ k' h => ?_) fun _ _ => trivial⟩
  have hfile : k'.file = k.file := congrArg (fun v => v.2.2.1) h
  funext g
  rw [State.kinds, hfile, State.kinds]

theorem KeepsFiles.kinds {m : KM α} (hm : KeepsFiles (fun _ => True) m) : KeepsKinds m := by
  refine ⟨fun k => wp_mono (hm.wp k) (fun _ k' h => ?_) fun _ _ => trivial⟩
  have hfile : k'.file = k.file := congrArg Prod.fst h
  funext g
  rw [State.kinds, hfile, State.kinds]

theorem keepsKinds_onFs {m : Fs.FsM α} : KeepsKinds (onFs m) :=
  .zoom (fun _ => trivial) fun _ _ => rfl

theorem keepsKinds_onMem {m : Vm.MemM α} : KeepsKinds (onMem m) :=
  .zoom (fun _ => trivial) fun _ _ => rfl

theorem keepsKinds_updProc {g : Proc → Proc} : KeepsKinds (updProc p g) := .modify fun _ => rfl

theorem keepsKinds_setFd {fd : Fin NOFILE} {o : Option FPtr} : KeepsKinds (setFd p fd o) :=
  keepsKinds_updProc

theorem keepsKinds_fdalloc : KeepsKinds (fdalloc p f) := KeepsFiles.kinds keepsFiles_fdalloc

theorem kindsFrame : FileFrame AnyStop State.kinds p where
  onMem := keepsKinds_onMem
  onUser := KeepsFiles.kinds keepsFiles_onUser
  onFs := keepsKinds_onFs
  onFsMem := .zoom (fun _ => trivial) fun _ _ => rfl
  onIo := by
    refine .bind (.gets _) fun k => ?_
    split
    · exact .stop trivial
    · exact .zoom (fun _ => trivial) fun _ _ => rfl
  setOff := by
    intro f g
    refine .modify fun k => ?_
    change (k.setFile f _).kinds = _
    rw [State.kinds_setFile]
    exact update_eq_self ..
  kern _ := trivial

theorem keepsKinds_goOn : KeepsKinds (goOn p) := by
  refine .bind (.gets _) fun k => ?_
  split
  · refine .when (.bind (.modify fun _ => rfl) fun _ => .bind keepsKinds_onFs fun _ =>
      .bind (kindsFrame.kexec (KeepsFiles.kinds keepsFiles_commitImage)) fun _ =>
        .ite (.stop trivial) (KeepsHeld.kinds keepsHeld_setA0))
  · rename_i b _
    refine .bind keepsKinds_updProc fun _ => .bind ?_ fun _ => KeepsHeld.kinds keepsHeld_setA0
    cases b with
    | wait addr => exact KeepsHeld.kinds keepsHeld_kwait
    | pause n ticks0 => exact KeepsHeld.kinds keepsHeld_pauseLoop

theorem keepsKinds_userinit : KeepsKinds userinit := by
  refine .bind (KeepsHeld.kinds keepsHeld_allocproc) fun r => ?_
  rcases r with _ | p
  · exact .stop trivial
  · exact .bind (.modify fun _ => rfl) fun _ => .bind keepsKinds_onFs fun _ =>
      .bind (.gets _) fun _ => keepsKinds_updProc

/-! ### Programs that change it -/

theorem wp_filedup_kinds : wp (filedup f)
    (fun _ k' => 0 < (k.kinds f).ref ∧ k'.kinds = update k.kinds f (k.kinds f).dup) AnyStop k := by
  simp only [filedup, wp_bind, wp_gets, wp_ite, wp_updFile]
  refine ⟨fun _ => wp_stop.mpr trivial, fun hopen => ⟨not_lt.mp hopen, ?_⟩⟩
  exact State.kinds_setFile ..

theorem wp_fileclose_kinds : wp (fileclose f)
    (fun _ k' => k'.kinds = update k.kinds f (k.kinds f).close) AnyStop k := by
  have hrelease : ∀ x, KeepsKinds (fileRelease x) := by
    intro x
    unfold fileRelease
    split
    · exact .bind (.modify fun _ => rfl) fun _ => .bind (.gets _) fun _ => .when keepsKinds_onMem
    · exact keepsKinds_onFs
    · exact keepsKinds_onFs
    · exact .pure _
  simp only [fileclose, wp_bind, wp_gets, id, wp_ite, wp_updFile]
  refine ⟨fun _ => wp_stop.mpr trivial, fun _ => ⟨fun hmore => ?_, fun hlast => ?_⟩⟩
  · have hclose : (k.kinds f).close = { k.kinds f with ref := (k.kinds f).ref - 1 } :=
      if_pos (by change 1 < (k.file f).ref; omega)
    rw [hclose]
    exact State.kinds_setFile ..
  · have hclose : (k.kinds f).close = { k.kinds f with ref := 0, type := .none } :=
      if_neg (by change ¬ 1 < (k.file f).ref; omega)
    refine (hrelease _).to ?_
    rw [hclose]
    exact State.kinds_setFile ..

/-- Every entry outside `D` is as its fields say. -/
def Typed (D : Set FPtr) (k : State) : Prop := ∀ f, f ∉ D → (k.kinds f).Ok

variable {D : Set FPtr}

theorem Typed.of_eq (h : Typed D k) (hk : k'.kinds = k.kinds) : Typed D k' := by
  intro f hf
  rw [hk]
  exact h f hf

theorem KeepsKinds.stable {m : KM α} (hm : KeepsKinds m) : Stable AnyStop (Typed D) m :=
  Keeps.stable hm fun _ _ hk h => h.of_eq hk

/-- Entry `f` becomes one that is as its fields say. -/
theorem Typed.update (h : Typed (insert f D) k) (hx : x.Ok)
    (hk : k'.kinds = update k.kinds f x) : Typed D k' := by
  intro g hg
  rw [hk]
  by_cases hgf : g = f
  · rw [hgf, update_self]
    exact hx
  · rw [update_of_ne hgf]
    exact h g (by simp [hgf, hg])

theorem Typed.setFile {y : File} (h : Typed (insert f D) k) (hy : y.kind.Ok) :
    Typed D (k.setFile f y) := h.update hy (State.kinds_setFile ..)

theorem Typed.mono {D' : Set FPtr} (h : Typed D k) (hD : D ⊆ D') : Typed D' k :=
  fun f hf => h f fun hf' => hf (hD hf')

theorem Typed.wp_filedup (h : Typed ∅ k) : wp (filedup f) (fun _ k' => Typed ∅ k') AnyStop k := by
  refine wp_imp wp_filedup_kinds ?_
  rintro _ k' ⟨hopen, hk⟩
  exact (h.mono (Set.empty_subset _)).update ((h f (by simp)).dup hopen) hk

theorem Typed.wp_fileclose (h : Typed ∅ k) : wp (fileclose f) (fun _ k' => Typed ∅ k') AnyStop k :=
  wp_imp wp_fileclose_kinds fun _ _ hk =>
    (h.mono (Set.empty_subset _)).update (h f (by simp)).close hk

/-- Closing an entry that was taken for nothing. -/
theorem Typed.wp_fileclose_taken (h : Typed (insert f D) k) (href : (k.kinds f).ref ≤ 1) :
    wp (fileclose f) (fun _ k' => Typed D k' ∧ ∀ g, g ≠ f → k'.kinds g = k.kinds g) AnyStop k := by
  refine wp_imp wp_fileclose_kinds fun _ k' hk =>
    ⟨h.update (Kind.ok_close_of_le href) hk, fun g hg => ?_⟩
  rw [hk, update_of_ne hg]

/-- `filealloc` takes the first entry that is free. -/
def State.freeFile (k : State) : Option FPtr :=
  (List.finRange NFILE).find? fun f => (k.file f).ref = 0

/-- The table with entry `f` taken. -/
def State.takeFile (k : State) (f : FPtr) : State := k.setFile f { k.file f with ref := 1 }

theorem wp_filealloc_free {Q : Option FPtr → State → Prop} (hnone : Q none k)
    (hsome : ∀ f, k.freeFile = some f → Q (some f) (k.takeFile f)) : wp filealloc Q AnyStop k := by
  simp only [filealloc, wp_bind, wp_gets, id]
  split
  · exact wp_pure.mpr hnone
  · rename_i f hf
    rw [wp_bind, wp_updFile]
    exact wp_pure.mpr (hsome f hf)

theorem Typed.take (h : Typed D k) : Typed (insert f D) (k.takeFile f) := by
  intro g hg
  have hgf : g ≠ f := fun heq => hg (heq ▸ Set.mem_insert f D)
  rw [State.takeFile, State.kinds_setFile, update_of_ne hgf]
  exact h g fun hg' => hg (Set.mem_insert_of_mem _ hg')

theorem kinds_takeFile (k : State) (f : FPtr) :
    (k.takeFile f).kinds = update k.kinds f { k.kinds f with ref := 1 } :=
  State.kinds_setFile ..

/-- The entries that `pipealloc` takes. -/
def State.pipeFiles (k : State) : List FPtr :=
  match k.freeFile with
  | none => []
  | some f0 => f0 :: (k.takeFile f0).freeFile.toList

/-- The event is a call of `pipe`. -/
def Event.isPipe : Event → Bool
  | .call _ (.pipe _) _ => true
  | _ => false

/-- The entries that `pipe` takes never were files with an inode. -/
def CleanPipe (k : State) (e : Event) : Prop :=
  e.isPipe = true → ∀ f ∈ k.pipeFiles, (k.file f).ip = none

instance (k : State) (e : Event) : Decidable (CleanPipe k e) :=
  inferInstanceAs (Decidable (_ → _))

/-- **`pipealloc`** gives entries of their kind, if the entries it takes have no
inode. -/
theorem Typed.wp_pipealloc (h : Typed ∅ k) (hclean : ∀ f ∈ k.pipeFiles, (k.file f).ip = none) :
    wp pipealloc (fun _ k' => Typed ∅ k') AnyStop k := by
  simp only [pipealloc, wp_bind]
  refine wp_filealloc_free (wp_pure.mpr h) fun f0 hf0 => ?_
  have h1 : Typed (insert f0 ∅) (k.takeFile f0) := h.take
  have href1 : ((k.takeFile f0).kinds f0).ref ≤ 1 := by rw [kinds_takeFile, update_self]
  simp only [wp_bind]
  refine wp_filealloc_free ?_ fun f1 hf1 => ?_
  · exact wp_then (h1.wp_fileclose_taken href1) fun _ _ h' => wp_pure.mpr h'.1
  have hmem : k.pipeFiles = [f0, f1] := by
    rw [State.pipeFiles, hf0]
    simp [hf1]
  have hip0 : (k.file f0).ip = none := hclean f0 (by simp [hmem])
  have hip1 : (k.file f1).ip = none := hclean f1 (by simp [hmem])
  have hne : f1 ≠ f0 := by
    rintro rfl
    have := List.find?_some hf1
    simp [State.takeFile] at this
  have h2 : Typed (insert f0 (insert f1 ∅)) ((k.takeFile f0).takeFile f1) := by
    rw [Set.insert_comm]
    exact h1.take
  have hkind0 : ((k.takeFile f0).takeFile f1).kinds f0 = { k.kinds f0 with ref := 1 } := by
    rw [kinds_takeFile, update_of_ne hne.symm, kinds_takeFile, update_self]
  have hkind1 : ((k.takeFile f0).takeFile f1).kinds f1 = { k.kinds f1 with ref := 1 } := by
    rw [kinds_takeFile, update_self, kinds_takeFile, update_of_ne hne]
  generalize (k.takeFile f0).takeFile f1 = k2 at h2 hkind0 hkind1
  refine keepsKinds_onMem.seq rfl fun page k3 hk3 => ?_
  have h3 := h2.of_eq hk3
  rw [← hk3] at hkind0 hkind1
  rw [wp_ite]
  refine ⟨fun _ => ?_, fun _ => ?_⟩
  · -- no page: both entries are closed again
    refine wp_then (h3.wp_fileclose_taken (by rw [hkind0])) ?_
    rintro _ k4 ⟨h4, hothers⟩
    refine wp_then (h4.wp_fileclose_taken ?_) fun _ _ h5 => wp_pure.mpr h5.1
    rw [hothers f1 hne, hkind1]
  · simp only [wp_bind, wp_modify, wp_updFile]
    have h4 : Typed (insert f0 (insert f1 ∅))
      { k3 with pipe := Function.update k3.pipe page ⟨true, true⟩ } := h3.of_eq rfl
    refine wp_pure.mpr ((h4.setFile ?_).setFile ?_)
    · exact Kind.ok_pipe (x := k3.kinds f0) (by rw [hkind0]) (by rw [hkind0]; exact hip0)
    · rw [State.setFile_file_of_ne _ _ hne]
      exact Kind.ok_pipe (x := k3.kinds f1) (by rw [hkind1]) (by rw [hkind1]; exact hip1)

/-- **`pipe`**, on all its exits. -/
theorem Typed.wp_sysPipe {fdarray : Nat} (h : Typed ∅ k)
    (hclean : ∀ f ∈ k.pipeFiles, (k.file f).ip = none) :
    wp (sysPipe p fdarray) (fun _ k' => Typed ∅ k') AnyStop k := by
  have hfail : ∀ rf wf, Stable AnyStop (Typed ∅) (pipeFail rf wf) := fun rf wf =>
    .bind ⟨fun _ h => h.wp_fileclose⟩ fun _ => .bind ⟨fun _ h => h.wp_fileclose⟩ fun _ => .pure _
  have hfd : ∀ {fd : Fin NOFILE} {o : Option FPtr}, Stable AnyStop (Typed ∅) (setFd p fd o) :=
    KeepsKinds.stable keepsKinds_setFd
  refine wp_then (h.wp_pipealloc hclean) fun r k1 h1 => ?_
  refine Stable.wp ?_ k1 h1
  rcases r with _ | ⟨rf, wf⟩
  · exact .pure _
  refine .bind (KeepsKinds.stable keepsKinds_fdalloc) fun r => ?_
  rcases r with _ | fd0
  · exact hfail rf wf
  refine .bind (KeepsKinds.stable keepsKinds_fdalloc) fun r => ?_
  rcases r with _ | fd1
  · exact .bind hfd fun _ => hfail rf wf
  refine .bind (KeepsKinds.stable kindsFrame.onUser) fun ok0 => .bind ?_ fun ok => ?_
  · exact .ite (KeepsKinds.stable kindsFrame.onUser) (.pure _)
  · exact .ite (.pure _) (.bind hfd fun _ => .bind hfd fun _ => hfail rf wf)

/-- **`open`** gives the entry it takes a type and an inode, or closes it. -/
theorem Typed.wp_sysOpen {omode : Nat} (h : Typed ∅ k) :
    wp (sysOpen p path omode) (fun _ k' => Typed ∅ k') AnyStop k := by
  have hfail : ∀ ip, Stable AnyStop (Typed ∅) (openFail ip) := fun ip =>
    .bind (KeepsKinds.stable keepsKinds_onFs) fun _ => .pure _
  unfold sysOpen
  rw [wp_bind, wp_gets, id, wp_ite]
  refine ⟨fun _ => wp_pure.mpr h, fun _ => ?_⟩
  rcases path with _ | path
  · exact wp_pure.mpr h
  change wp (openOp p path omode) _ _ _
  refine (KeepsKinds.stable keepsKinds_onFs).seq h fun _ k1 h1 => ?_
  rw [wp_bind, wp_gets, id]
  refine (KeepsKinds.stable keepsKinds_onFs).seq h1 ?_
  rintro (_ | ip) k2 h2
  · exact (Stable.bind (KeepsKinds.stable keepsKinds_onFs) fun _ => .pure _).wp k2 h2
  refine (KeepsKinds.stable keepsKinds_onFs).seq h2 fun d k3 h3 => ?_
  rw [wp_ite]
  refine ⟨fun _ => (hfail ip).wp k3 h3, fun _ => ?_⟩
  rw [wp_bind]
  refine wp_filealloc_free ((hfail ip).wp k3 h3) fun f _ => ?_
  have hkind : (k3.takeFile f).kinds f = { k3.kinds f with ref := 1 } := by
    rw [kinds_takeFile, update_self]
  have h4 : Typed (insert f ∅) (k3.takeFile f) := h3.take
  generalize k3.takeFile f = k4 at hkind h4
  refine keepsKinds_fdalloc.seq rfl ?_
  rintro (_ | fd) k5 hk5
  · refine wp_then ((h4.of_eq hk5).wp_fileclose_taken ?_) fun _ k6 h6 => (hfail ip).wp k6 h6.1
    rw [hk5, hkind]
  · rw [wp_bind]
    refine keepsKinds_onFs.seq hk5 fun d k6 hk6 => ?_
    have h6 := h4.of_eq hk6
    rw [wp_bind, wp_updFile, wp_bind, wp_updFile, State.setFile_file_same, State.setFile_setFile]
    refine (KeepsKinds.stable keepsKinds_onFs).andThen (h6.setFile ?_) fun _ k7 h7 =>
      wp_pure.mpr h7
    have href : (k6.file f).ref = 1 := by
      change (k6.kinds f).ref = 1
      rw [hk6, hkind]
    split
    · exact Kind.ok_inode (x := { k6.kinds f with type := .device }) href (.inr rfl)
    · exact Kind.ok_inode (x := { k6.kinds f with type := .inode }) href (.inl rfl)

theorem Typed.stable_kfork : Stable AnyStop (Typed ∅) (kfork p) := by
  refine .bind (KeepsHeld.kinds keepsHeld_allocproc).stable fun r => ?_
  rcases r with _ | np
  · exact .pure _
  refine .bind (.gets _) fun k => ?_
  split
  swap
  · exact .stop trivial
  refine .bind keepsKinds_onMem.stable ?_
  rintro ⟨new, ok⟩
  refine .bind keepsKinds_updProc.stable fun _ => .ite ?_ <|
    .bind (KeepsHeld.kinds keepsHeld_freeproc).stable fun _ => .pure _
  refine .bind (.gets _) fun k1 => .bind keepsKinds_updProc.stable fun _ =>
    .bind (.each (fun fd => .bind (.gets _) fun k2 => ?_) _) fun _ => .bind (.gets _) fun k3 => ?_
  · split
    · exact .pure _
    · exact .bind ⟨fun _ h => h.wp_filedup⟩ fun _ => keepsKinds_setFd.stable
  · split
    · exact .stop trivial
    · exact .bind keepsKinds_onFs.stable fun _ => .bind keepsKinds_updProc.stable fun _ => .pure _

theorem Typed.stable_kexit {status : Int} : Stable AnyStop (Typed ∅) (kexit p status) := by
  refine .bind (.gets _) fun k => .ite (.stop trivial) <| .bind (.each (fun fd => ?_) _) fun _ =>
    .bind (.gets _) fun _ => .bind keepsKinds_onFs.stable fun _ =>
    .bind keepsKinds_updProc.stable fun _ => .bind (KeepsHeld.kinds keepsHeld_reparent).stable
    fun _ => .bind (.gets _) fun _ => .bind (KeepsHeld.kinds keepsHeld_wakeupProc).stable
    fun _ => keepsKinds_updProc.stable
  refine .bind (.gets _) fun k1 => ?_
  split
  · exact .pure _
  · exact .bind ⟨fun _ h => h.wp_fileclose⟩ fun _ => keepsKinds_setFd.stable

theorem Typed.stable_sysDup : Stable AnyStop (Typed ∅) (sysDup p arg) := by
  refine .bind (.gets _) ?_
  rintro (_ | ⟨_, f⟩)
  · exact .pure _
  refine .bind keepsKinds_fdalloc.stable ?_
  rintro (_ | fd)
  · exact .pure _
  · exact .bind ⟨fun _ h => h.wp_filedup⟩ fun _ => .pure _

theorem Typed.stable_sysClose : Stable AnyStop (Typed ∅) (sysClose p arg) := by
  refine .bind (.gets _) ?_
  rintro (_ | ⟨fd, f⟩)
  · exact .pure _
  · exact .bind keepsKinds_setFd.stable fun _ => .bind ⟨fun _ h => h.wp_fileclose⟩ fun _ => .pure _

theorem keepsKinds_sysChdir : KeepsKinds (sysChdir p path) := by
  refine .bind (.gets _) fun k => .bind keepsKinds_onFs fun r => ?_
  rcases r with _ | ip
  · exact .pure _
  · exact .bind keepsKinds_updProc fun _ => .pure _

/-! ### Every event -/

theorem keepsKinds_withCwd {m : Option Fs.IPtr → Fs.FsM Int} : KeepsKinds (withCwd p m) :=
  .bind (.gets _) fun _ => .bind keepsKinds_onFs fun _ => .pure _

theorem KeepsKinds.returns {m : KM Int} (hm : KeepsKinds m) : KeepsKinds (returns m) :=
  .bind hm fun _ => .pure _

/-- **Every system call** leaves the entries as their fields say, `pipe` if the entries
it takes have no inode. -/
theorem Typed.wp_syscall (c : Call) (h : Typed ∅ k)
    (hclean : ∀ fdarray, c = .pipe fdarray → ∀ f ∈ k.pipeFiles, (k.file f).ip = none) :
    wp (syscall p c) (fun _ k' => Typed ∅ k') AnyStop k := by
  have keeps : ∀ {m : KM (Option Int)}, KeepsKinds m → wp m (fun _ k' => Typed ∅ k') AnyStop k :=
    fun hm => hm.stable.wp k h
  have stable : ∀ {m : KM Int}, Stable AnyStop (Typed ∅) m →
      wp (returns m) (fun _ k' => Typed ∅ k') AnyStop k := fun hm => (Stable.returns hm).wp k h
  cases c with
  | fork => exact stable Typed.stable_kfork
  | exit status =>
    exact wp_bind.mpr (wp_imp (Typed.stable_kexit.wp k h) fun _ _ h' => wp_pure.mpr h')
  | wait addr => exact keeps (KeepsHeld.kinds keepsHeld_kwait)
  | pipe fdarray =>
    exact wp_bind.mpr (wp_imp (h.wp_sysPipe (hclean fdarray rfl)) fun _ _ h' => wp_pure.mpr h')
  | read fd addr n tr =>
    exact keeps (KeepsKinds.returns (keeps_withFd fun _ => kindsFrame.fileread))
  | kill pid => exact keeps (KeepsKinds.returns (KeepsHeld.kinds keepsHeld_kkill))
  | exec path uargv str =>
    exact keeps (KeepsKinds.returns (kindsFrame.sysExec (KeepsFiles.kinds keepsFiles_commitImage)))
  | fstat fd addr =>
    exact keeps (KeepsKinds.returns (keeps_withFd fun _ => kindsFrame.filestat))
  | chdir path => exact keeps (KeepsKinds.returns keepsKinds_sysChdir)
  | dup fd => exact stable Typed.stable_sysDup
  | getpid | uptime => exact keeps (KeepsKinds.returns (.gets _))
  | sbrk n t => exact keeps (KeepsKinds.returns (KeepsHeld.kinds keepsHeld_sysSbrk))
  | pause n => exact keeps (.bind (.gets _) fun _ => KeepsHeld.kinds keepsHeld_pauseLoop)
  | opn path omode => exact stable ⟨fun _ h => h.wp_sysOpen⟩
  | write fd addr n tr =>
    exact keeps (KeepsKinds.returns (keeps_withFd fun _ => kindsFrame.filewrite))
  | mknod path major minor | unlink path | link old new | mkdir path =>
    rw [syscall]
    exact keeps keepsKinds_withCwd
  | close fd => exact stable Typed.stable_sysClose
  | meminfo addr => exact keeps (KeepsKinds.returns (KeepsHeld.kinds keepsHeld_sysMeminfo))
  | getrlimit resource addr =>
    exact keeps (KeepsKinds.returns (KeepsHeld.kinds keepsHeld_sysGetrlimit))
  | setrlimit resource n =>
    exact keeps (KeepsKinds.returns (KeepsHeld.kinds keepsHeld_sysSetrlimit))

theorem Typed.wp_body (e : Event) (h : Typed ∅ k) (hclean : CleanPipe k e) :
    wp e.body (fun _ k' => Typed ∅ k') AnyStop k := by
  have keeps : ∀ {m : KM Unit}, KeepsKinds m → wp m (fun _ k' => Typed ∅ k') AnyStop k :=
    fun hm => hm.stable.wp k h
  cases e with
  | call p c fails =>
    simp only [Event.body, wp_bind, setFails, wp_modify]
    have h1 : Typed ∅ { k with mem := { k.mem with fails := fails } } := h.of_eq rfl
    refine wp_imp (h1.wp_syscall c ?_) fun r k2 h2 =>
      (KeepsHeld.kinds keepsHeld_setA0).stable.wp k2 h2
    rintro fdarray rfl
    exact hclean rfl
  | dispatch p fails =>
    exact keeps (.bind (KeepsHeld.kinds keepsHeld_setFails) fun _ =>
      .bind (.modify fun _ => rfl) fun _ => keepsKinds_goOn)
  | timer p user => exact keeps (.modify fun _ => rfl)
  | fault p va fails =>
    exact keeps (.bind (KeepsHeld.kinds keepsHeld_setFails) fun _ =>
      KeepsHeld.kinds keepsHeld_pageFault)
  | store p va v => exact keeps (KeepsHeld.kinds keepsHeld_userStore)
  | tick => exact keeps (.bind (.modify fun _ => rfl) fun _ => KeepsHeld.kinds keepsHeld_wakeup)

theorem Booted.typed (h : Booted k) : Typed ∅ k := by
  obtain ⟨k0, hfresh, hk⟩ := h
  have h0 : Typed ∅ k0 := by
    intro f _
    rw [State.kinds, hfresh.file]
    exact Kind.ok_closed ⟨0, .none, none⟩
  exact wp_ok (Q := fun _ k' => Typed ∅ k') (keepsKinds_userinit.stable.wp k0 h0) hk

theorem typed_run {s : State} {es : List Event} (hk : Booted k)
    (hrun : Run (Restrict CleanPipe Step) k es s) : Typed ∅ s :=
  hrun.invariant (P := Typed ∅) hk.typed fun _ e _ h hs =>
    wp_ok (Q := fun _ k' => Typed ∅ k') (h.wp_body e hs.1) hs.2.2

/-! ### What is reported -/

/-- The entry is open, as a file with the inode `ip`. -/
def OpenInode (k : State) (f : FPtr) (ip : Fs.IPtr) : Prop :=
  0 < (k.file f).ref ∧ ((k.file f).type = .inode ∨ (k.file f).type = .device) ∧
    (k.file f).ip = some ip

/-- The record is about two files that share the inode it names. -/
def Record.Real (k : State) (r : Record) : Prop :=
  r.i ≠ r.j ∧ ∃ ip, OpenInode k r.i ip ∧ OpenInode k r.j ip ∧
    r.pair.inum = toInt (k.fs.inode ip).inum

/-- An open entry with an inode is a file. -/
theorem Kind.Ok.openInode (h : (k.kinds f).Ok) (href : 0 < (k.file f).ref)
    (hip : (k.file f).ip = some ip) : OpenInode k f ip := by
  refine ⟨href, ?_, hip⟩
  cases htype : (k.file f).type with
  | none =>
    have : (k.file f).ref ≤ 0 := h.closed_iff.mp htype
    omega
  | pipe => cases hip.symm.trans (h.pipe htype)
  | inode => exact .inl rfl
  | device => exact .inr rfl

/--
**Only files that share an inode are reported,** if `pipe` never takes an entry
that was a file before. In every such run from boot, each record of a call of
`inodepairs` is about two open files with the inode it names.
-/
theorem pairs_real {s : State} {es : List Event} {r : Record} (hk : Booted k)
    (hrun : Run (Restrict CleanPipe Step) k es s) (hr : r ∈ (scanAll s).out) : r.Real s := by
  have htyped := typed_run hk hrun
  rw [(scanAll_eq s).2] at hr
  obtain ⟨-, hlt, hrecord⟩ := mem_recordsFrom.mp (List.mem_of_mem_take hr)
  obtain ⟨ip, hip, heq⟩ := Option.map_eq_some_iff.mp hrecord
  obtain ⟨hi, hj, hipi, hipj⟩ := sharedInode_eq_some.mp hip
  refine ⟨hlt.ne, ip, ?_, ?_, ?_⟩
  · exact (htyped r.i (Set.notMem_empty _)).openInode hi hipi
  · exact (htyped r.j (Set.notMem_empty _)).openInode hj hipj
  · rw [← heq]
    rfl

theorem mem_step {r : Record} (hr : r ∈ s.out) : r ∈ (s.step k).out := by
  have hs := s.step_cases k
  generalize s.step k = s' at hs ⊢
  cases hs with
  | pass | release | look => exact hr
  | store => exact List.mem_append_left _ hr

/-- Records stay. -/
theorem mem_scanAll_of_mem {n : Nat} {r : Record} (hn : n ≤ Pc.left (.outer 0))
    (hr : r ∈ ((Scan.step k)^[n] .start).out) : r ∈ (scanAll k).out := by
  have hstays : ∀ m (s : Scan), r ∈ s.out → r ∈ ((Scan.step k)^[m] s).out := by
    intro m
    induction m with
    | zero => exact fun s hs => hs
    | succ m ih =>
      intro s hs
      exact ih _ (mem_step hs)
  obtain ⟨m, hm⟩ := Nat.exists_eq_add_of_le hn
  rw [scanAll, hm, Nat.add_comm, iterate_add_apply]
  exact hstays m _ hr

/-- Init opens `/init`, a pipe, and `/init` again. -/
def openInitTwice : List Event :=
  [.dispatch 0 [], .call 0 (.opn (some [47, 105, 110, 105, 116]) 0) [], .call 0 (.pipe 4096) [],
    .call 0 (.opn (some [47, 105, 110, 105, 116]) 0) []]

/-- `/init` in entries 0 and 3, as descriptors 0 and 3 of init. -/
def initPair : Record where
  i := 0
  j := 3
  pair := { inum := 2, dev := 1, offset_a := 0, offset_b := 0
            pid_a := 1, fd_a := 0, pid_b := 1, fd_b := 3 }

/-- The pipe is opened before an entry was freed: its ends are not reported. -/
theorem pairs_real_openInitTwice : ∃ k s, Booted k ∧
    Run (Restrict CleanPipe Step) k openInitTwice s ∧ initPair ∈ (scanAll s).out ∧
    initPair.Real s := by
  obtain ⟨k, s, hk, hrun, hs⟩ := run_of_bootRun openInitTwice (C := CleanPipe)
    (f := fun s => decide (((Scan.step s)^[70] .start).out = [initPair])) (b := true) fresh_small
    (by decide +kernel)
  have hmem : initPair ∈ (scanAll s).out := by
    refine mem_scanAll_of_mem (n := 70) (by decide) ?_
    rw [of_decide_eq_true hs]
    exact List.mem_singleton_self _
  exact ⟨k, s, hk, hrun, hmem, pairs_real hk hrun hmem⟩

/-- Init opens `/init` and closes it, opens a pipe, and opens `/init` again. -/
def pipeAfterClose : List Event :=
  [.dispatch 0 [], .call 0 (.opn (some [47, 105, 110, 105, 116]) 0) [], .call 0 (.close 0) [],
    .call 0 (.pipe 4096) [], .call 0 (.opn (some [47, 105, 110, 105, 116]) 0) []]

/-- **An end of a pipe is reported.** The pipe's end is in the entry that was
`/init` before, and `/init` is open again in another: they make a pair. -/
theorem pipe_paired : ∃ k s r, Booted k ∧ Run Step k pipeAfterClose s ∧ r ∈ (scanAll s).out ∧
    (s.file r.i).type = .pipe ∧ ¬ r.Real s := by
  obtain ⟨k, s, hk, hrun, hs⟩ := run_of_bootRun pipeAfterClose (C := fun _ _ => True)
    (f := fun s => decide ((((Scan.step s)^[70] .start).out.map Record.i = [0]) ∧
      (s.file 0).type = .pipe)) (b := true) fresh_small (by decide +kernel)
  obtain ⟨hout, htype⟩ := of_decide_eq_true hs
  obtain ⟨r, hr, hi⟩ := List.mem_map.mp (hout ▸ List.mem_singleton_self (0 : FPtr))
  have htype' : (s.file r.i).type = .pipe := by
    rw [hi]
    exact htype
  refine ⟨k, s, r, hk, hrun.of_restrict, mem_scanAll_of_mem (by decide) hr, htype', ?_⟩
  rintro ⟨-, ip, ⟨-, hfile, -⟩, -⟩
  rw [htype'] at hfile
  rcases hfile with h | h <;> cases h

end Xv6.Kernel
