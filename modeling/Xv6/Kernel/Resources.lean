import Mathlib.Algebra.BigOperators.Group.Finset.Basic
import Mathlib.Data.Fintype.Basic
import Xv6.Kernel.Table
import Xv6.Vm.Copy

/-!
# xv6 — who owns the pages of the kernel

Pages are owned by what `main` allocated at boot, by processes (the trap frame
and the address space) and by open pipes.

* `Resources`   — the part of the kernel's state that decides who owns what.
* `Inv L S A R` — the pages are split between the free list, boot, the processes
  of `S`, the open pipes, and `A`: what the code that is running holds and has
  not yet handed on. Between system calls `S` is everybody and `A` is empty.
* `Inv.openProc`, `Inv.closeProc` — a process that code works on is taken out of
  `S`, so that its pages are the code's, and put back when it is whole again.
-/

namespace Xv6.Kernel

open Prog Vm Function Multiset

/-! ### Resources -/

/-- The memory of a process. -/
@[ext] structure Space where
  unused : Bool
  sz : Nat
  pagetable : Option Pagetable
  trapframe : Nat

/-- The memory of a process. -/
def Proc.space (pr : Proc) : Space :=
  { unused := pr.state = .unused, sz := pr.sz, pagetable := pr.pagetable
    trapframe := pr.trapframe }

/-- What a file says about pipes. -/
structure FileRes where
  type : FType
  ref : Int
  writable : Bool
  pipe : Nat

def File.res (x : File) : FileRes :=
  { type := x.type, ref := x.ref, writable := x.writable, pipe := x.pipe }

/-- The part of the state that decides who owns which page. -/
structure Resources where
  mem : Mem
  proc : Pid → Space
  file : FPtr → FileRes
  pipe : Nat → PipeEnds

def State.res (k : State) : Resources :=
  { mem := k.mem, proc := fun p => (k.proc p).space, file := fun f => (k.file f).res
    pipe := k.pipe }

/-- Replace the memory of `p`. -/
def Resources.setProc (R : Resources) (p : Pid) (s : Space) : Resources :=
  { R with proc := update R.proc p s }

/-- Replace file `f`. -/
def Resources.setFile (R : Resources) (f : FPtr) (x : FileRes) : Resources :=
  { R with file := update R.file f x }

theorem State.res_setProc (k : State) (p : Pid) (pr : Proc) :
    (k.setProc p pr).res = k.res.setProc p pr.space := by
  simp only [State.res, State.setProc, Resources.setProc, Resources.mk.injEq, true_and, and_true]
  funext q
  by_cases hq : q = p
  · subst hq
    simp
  · simp [hq]

theorem State.res_updFile (k : State) (f : FPtr) (x : File) :
    ({ k with file := update k.file f x } : State).res = k.res.setFile f x.res := by
  simp only [State.res, Resources.setFile, Resources.mk.injEq, true_and, and_true]
  funext g
  by_cases hg : g = f
  · subst hg
    simp
  · simp [hg]

@[simp] theorem State.res_proc (k : State) (p : Pid) : k.res.proc p = (k.proc p).space := rfl
@[simp] theorem State.res_file (k : State) (f : FPtr) : k.res.file f = (k.file f).res := rfl

/-! ### Owners -/

/-- The page of the trap frame and those of the address space. -/
def Space.held (s : Space) : Multiset Nat :=
  (if s.trapframe = 0 then 0 else {s.trapframe}) + s.pagetable.elim 0 Vm.space

/-- The pages of a process; an unused slot has none. -/
def Space.pages (s : Space) : Multiset Nat := if s.unused then 0 else s.held

/-- What is mapped fits the size, if there is a page table. -/
def Space.Fits (s : Space) : Prop := ∀ pt, s.pagetable = some pt → Image (leaf pt) s.sz

/-- An unused slot is clear; any other has a trap frame and an address space. -/
structure Space.Ok (s : Space) : Prop where
  clear : s.unused = true → s.sz = 0 ∧ s.pagetable = none ∧ s.trapframe = 0
  whole : s.unused = false → s.trapframe ≠ 0 ∧ s.pagetable ≠ none
  fits : s.Fits

/-- The file is an end of a pipe. -/
def FileRes.isEnd (x : FileRes) (page : Nat) (w : Bool) : Prop :=
  x.type = .pipe ∧ x.pipe = page ∧ x.writable = w

instance (x : FileRes) (page : Nat) (w : Bool) : Decidable (x.isEnd page w) :=
  inferInstanceAs (Decidable (_ ∧ _ ∧ _))

/-- The pages of open pipes, each of them once. -/
def Resources.pipes (R : Resources) : Finset Nat :=
  (Finset.univ.filter fun f => (R.file f).type = .pipe).image fun f => (R.file f).pipe

/-- The file table and the pipes fit each other: a file that is closed has no
type, no end of a pipe is in two files, and an end is open as long as a file
refers to it. -/
structure FilesOk (R : Resources) : Prop where
  closed : ∀ f, (R.file f).ref < 1 → (R.file f).type = .none
  unique : ∀ {f g page w}, (R.file f).isEnd page w → (R.file g).isEnd page w → f = g
  readopen : ∀ page ∈ R.pipes,
    ((R.pipe page).readopen = true ↔ ∃ f, (R.file f).isEnd page false)
  writeopen : ∀ page ∈ R.pipes,
    ((R.pipe page).writeopen = true ↔ ∃ f, (R.file f).isEnd page true)

/-- What does not change while the kernel runs: `end`, `total_mem_bytes`, and the
pages taken at boot. -/
structure Layout where
  kend : Nat
  total : Nat
  boot : Multiset Nat

/-- **Every page has one owner.** The owners are boot, the processes of `S`, the
open pipes, and the code that is running, which holds `A`. -/
structure Inv (L : Layout) (S : Finset Pid) (A : Multiset Nat) (R : Resources) : Prop where
  own : Owns L.kend L.total R.mem
    (L.boot + ∑ p ∈ S, (R.proc p).pages + R.pipes.val + A)
  proc : ∀ p ∈ S, (R.proc p).Ok
  files : FilesOk R

/-- Only the file table and the pipes matter. -/
theorem FilesOk.of_eq {R R' : Resources} (h : FilesOk R) (hfile : R'.file = R.file)
    (hpipe : R'.pipe = R.pipe) : FilesOk R' := by
  obtain ⟨mem, proc, file, pipe⟩ := R'
  subst hfile hpipe
  exact ⟨h.closed, h.unique, h.readopen, h.writeopen⟩

variable {L : Layout} {S : Finset Pid} {A B : Multiset Nat} {R : Resources} {p : Pid}

namespace Inv

/-- The owned pages with those of the running code in front. -/
theorem front (h : Inv L S A R) : Owns L.kend L.total R.mem
    (A + (L.boot + ∑ p ∈ S, (R.proc p).pages + R.pipes.val)) := by
  rw [add_comm A]
  exact h.own

/-- The running code has used memory. -/
theorem mem (h : Inv L S A R) {m : Mem} (hm : Owns L.kend L.total m
    (B + (L.boot + ∑ p ∈ S, (R.proc p).pages + R.pipes.val))) : Inv L S B { R with mem := m } := by
  rw [add_comm B] at hm
  exact ⟨hm, h.proc, h.files.of_eq rfl rfl⟩

/-- A process outside `S` is the business of the running code. -/
theorem setProc (h : Inv L S A R) (hp : p ∉ S) (s : Space) : Inv L S A (R.setProc p s) := by
  have hsame : ∀ q ∈ S, (R.setProc p s).proc q = R.proc q := by
    intro q hq
    have hqp : q ≠ p := fun hqp => hp (hqp ▸ hq)
    exact update_of_ne hqp ..
  refine ⟨?_, fun q hq => ?_, h.files.of_eq rfl rfl⟩
  · have hsum : ∑ q ∈ S, ((R.setProc p s).proc q).pages = ∑ q ∈ S, (R.proc q).pages :=
      Finset.sum_congr rfl fun q hq => by rw [hsame q hq]
    rw [hsum]
    exact h.own
  · rw [hsame q hq]
    exact h.proc q hq

/-- Take a process out. -/
theorem openProc (h : Inv L S A R) (hp : p ∈ S) : Inv L (S.erase p) ((R.proc p).pages + A) R := by
  refine ⟨?_, fun q hq => h.proc q (Finset.mem_of_mem_erase hq), h.files⟩
  have hown := h.own
  rw [← Finset.add_sum_erase S _ hp] at hown
  convert hown using 1
  ac_rfl

/-- Put it back. -/
theorem closeProc (hp : p ∈ S) (h : Inv L (S.erase p) ((R.proc p).pages + A) R)
    (hok : (R.proc p).Ok) : Inv L S A R := by
  refine ⟨?_, fun q hq => ?_, h.files⟩
  · have hown := h.own
    rw [← Finset.add_sum_erase S _ hp]
    convert hown using 1
    ac_rfl
  · by_cases hqp : q = p
    · exact hqp ▸ hok
    · exact h.proc q (Finset.mem_erase.mpr ⟨hqp, hq⟩)

/-- A process that was worked on is put back. -/
theorem closeSet {s : Space} (hp : p ∈ S) (h : Inv L (S.erase p) (s.pages + A) R) (hok : s.Ok) :
    Inv L S A (R.setProc p s) := by
  have hsame : (R.setProc p s).proc p = s := update_self ..
  refine closeProc hp ?_ (by rwa [hsame])
  rw [hsame]
  exact h.setProc (Finset.notMem_erase p S) s

end Inv

/-- A process with memory. -/
theorem Space.Ok.alive {s : Space} (h : s.Ok) (hs : s.unused = false) :
    ∃ pt, s.pagetable = some pt ∧ Image (leaf pt) s.sz ∧ s.pages = {s.trapframe} + Vm.space pt := by
  obtain ⟨htf, hpt⟩ := h.whole hs
  obtain ⟨pt, hpt⟩ := Option.ne_none_iff_exists'.mp hpt
  refine ⟨pt, hpt, h.fits pt hpt, ?_⟩
  rw [Space.pages, hs, Space.held, hpt, if_neg htf]
  rfl

theorem Space.pages_whole {pt : Pagetable} {sz tf : Nat} (htf : tf ≠ 0) :
    (⟨false, sz, some pt, tf⟩ : Space).pages = {tf} + Vm.space pt := by
  rw [Space.pages, Space.held]
  simp [htf]

/-- Take out a process in use: its address space and its trap frame. -/
theorem Inv.openSpace (h : Inv L S A R) (hp : p ∈ S) (hused : (R.proc p).unused = false) :
    ∃ pt, (R.proc p).pagetable = some pt ∧ Image (leaf pt) (R.proc p).sz ∧
      (R.proc p).trapframe ≠ 0 ∧
      Inv L (S.erase p) (Vm.space pt + ({(R.proc p).trapframe} + A)) R := by
  obtain ⟨pt, hpt, himage, hpages⟩ := (h.proc p hp).alive hused
  refine ⟨pt, hpt, himage, ((h.proc p hp).whole hused).1, ?_⟩
  have hopen := h.openProc hp
  rwa [hpages, add_right_comm, add_comm _ (Vm.space pt)] at hopen

/-- Put it back with the address space `pt`. -/
theorem Inv.closeSpace {pt : Pagetable} {sz tf : Nat} (hp : p ∈ S)
    (h : Inv L (S.erase p) (Vm.space pt + ({tf} + A)) R) (htf : tf ≠ 0)
    (himage : Image (leaf pt) sz) : Inv L S A (R.setProc p ⟨false, sz, some pt, tf⟩) := by
  refine Inv.closeSet hp ?_ ⟨nofun, fun _ => ⟨htf, nofun⟩, fun pt' hpt' => ?_⟩
  · rwa [Space.pages_whole htf, add_right_comm, add_comm _ (Vm.space pt)]
  · cases hpt'
    exact himage

/-! ### Files and pipes -/

variable {f : FPtr} {x : FileRes} {page : Nat} {w : Bool}

theorem mem_pipes : page ∈ R.pipes ↔ ∃ f w, (R.file f).isEnd page w := by
  simp only [Resources.pipes, Finset.mem_image, Finset.mem_filter, Finset.mem_univ, true_and]
  constructor
  · rintro ⟨f, htype, hpage⟩
    exact ⟨f, (R.file f).writable, htype, hpage, rfl⟩
  · rintro ⟨f, w, htype, hpage, -⟩
    exact ⟨f, htype, hpage⟩

theorem setFile_same (R : Resources) (f : FPtr) (x : FileRes) : (R.setFile f x).file f = x :=
  update_self ..

theorem setFile_of_ne {g : FPtr} (hg : g ≠ f) : (R.setFile f x).file g = R.file g :=
  update_of_ne hg ..

/-- A change of a file that no pipe notices. -/
theorem Inv.setFile (h : Inv L S A R) (hend : ∀ page w, x.isEnd page w ↔ (R.file f).isEnd page w)
    (hclosed : x.ref < 1 → x.type = .none) : Inv L S A (R.setFile f x) := by
  have hiff : ∀ g page w, ((R.setFile f x).file g).isEnd page w ↔ (R.file g).isEnd page w := by
    intro g page w
    by_cases hg : g = f
    · rw [hg, setFile_same]
      exact hend page w
    · rw [setFile_of_ne hg]
  have hpipes : (R.setFile f x).pipes = R.pipes := by
    ext page
    simp only [mem_pipes, hiff]
  refine ⟨?_, h.proc, fun g hg => ?_, fun hg hg' => ?_, fun page hpage => ?_, fun page hpage => ?_⟩
  · rw [hpipes]
    exact h.own
  · by_cases hgf : g = f
    · rw [hgf, setFile_same] at hg ⊢
      exact hclosed hg
    · rw [setFile_of_ne hgf] at hg ⊢
      exact h.files.closed g hg
  · exact h.files.unique ((hiff ..).mp hg) ((hiff ..).mp hg')
  · simp only [hiff]
    exact h.files.readopen page (hpipes ▸ hpage)
  · simp only [hiff]
    exact h.files.writeopen page (hpipes ▸ hpage)

/-- A file that is not the end of a pipe. -/
theorem not_isEnd (hx : x.type ≠ .pipe) (page : Nat) (w : Bool) : ¬ x.isEnd page w :=
  fun h => hx h.1

/-- The page the running code holds is not that of an open pipe. -/
theorem Inv.page_notMem_pipes (h : Inv L S (page ::ₘ A) R) : page ∉ R.pipes := by
  obtain ⟨free, -, hfree⟩ := h.own.free
  have hnodup := hfree ▸ nodup_pages L.kend
  have hdisjoint := (nodup_add.mp (nodup_add.mp hnodup).2.1).2.2
  intro hmem
  exact disjoint_left.mp hdisjoint (mem_add.mpr (.inr hmem))
    (mem_cons_self ..)

/-- The files `f0` and `f1` become the ends of a pipe in `page`. -/
def Resources.openPipe (R : Resources) (page : Nat) (f0 : FPtr) (x0 : FileRes) (f1 : FPtr)
    (x1 : FileRes) : Resources :=
  (({ R with pipe := update R.pipe page ⟨true, true⟩ } :
    Resources).setFile f0 x0).setFile f1 x1

/-- The file `f`, one end of the pipe in `page`, is closed. -/
def Resources.closeEnd (R : Resources) (page : Nat) (w : Bool) (f : FPtr) (x : FileRes) :
    Resources :=
  { R.setFile f x with pipe := update R.pipe page ((R.pipe page).close w) }

section OpenPipe

variable {f0 f1 : FPtr} {x0 x1 : FileRes}

theorem file_openPipe (g : FPtr) : (R.openPipe page f0 x0 f1 x1).file g =
    if g = f1 then x1 else if g = f0 then x0 else R.file g := by
  rw [Resources.openPipe]
  by_cases hg1 : g = f1
  · rw [if_pos hg1, hg1, setFile_same]
  · rw [if_neg hg1, setFile_of_ne hg1]
    by_cases hg0 : g = f0
    · rw [if_pos hg0, hg0, setFile_same]
    · rw [if_neg hg0, setFile_of_ne hg0]

/-- An end of a pipe is one of the two new ones, or an old one. -/
theorem isEnd_openPipe (hne : f0 ≠ f1) (h0 : (R.file f0).type ≠ .pipe)
    (h1 : (R.file f1).type ≠ .pipe) (hx0 : x0.isEnd page false) (hx1 : x1.isEnd page true)
    {g : FPtr} {page' : Nat} {w : Bool} : ((R.openPipe page f0 x0 f1 x1).file g).isEnd page' w ↔
      page' = page ∧ (g = f0 ∧ w = false ∨ g = f1 ∧ w = true) ∨ (R.file g).isEnd page' w := by
  obtain ⟨htype0, hpage0, hw0⟩ := hx0
  obtain ⟨htype1, hpage1, hw1⟩ := hx1
  rw [file_openPipe]
  by_cases hg1 : g = f1
  · subst hg1
    have hno := not_isEnd h1 page' w
    simp only [if_true, FileRes.isEnd, htype1, true_and] at hno ⊢
    grind
  · by_cases hg0 : g = f0
    · subst hg0
      have hno := not_isEnd h0 page' w
      simp only [FileRes.isEnd] at hno ⊢
      grind
    · simp [hg0, hg1]

theorem pipes_openPipe (hne : f0 ≠ f1) (h0 : (R.file f0).type ≠ .pipe)
    (h1 : (R.file f1).type ≠ .pipe) (hx0 : x0.isEnd page false) (hx1 : x1.isEnd page true) :
    (R.openPipe page f0 x0 f1 x1).pipes = insert page R.pipes := by
  ext page'
  simp only [Finset.mem_insert, mem_pipes, isEnd_openPipe hne h0 h1 hx0 hx1]
  constructor
  · rintro ⟨g, w, ⟨hpage', -⟩ | hg⟩
    · exact .inl hpage'
    · exact .inr ⟨g, w, hg⟩
  · rintro (hpage' | ⟨g, w, hg⟩)
    · exact ⟨f0, false, .inl ⟨hpage', .inl ⟨rfl, rfl⟩⟩⟩
    · exact ⟨g, w, .inr hg⟩

theorem FilesOk.openPipe (h : FilesOk R) (hfresh : page ∉ R.pipes) (hne : f0 ≠ f1)
    (h0 : (R.file f0).type ≠ .pipe) (h1 : (R.file f1).type ≠ .pipe)
    (hx0 : x0.isEnd page false) (hx1 : x1.isEnd page true) (hr0 : 1 ≤ x0.ref)
    (hr1 : 1 ≤ x1.ref) : FilesOk (R.openPipe page f0 x0 f1 x1) := by
  have hend := @isEnd_openPipe R page f0 f1 x0 x1 hne h0 h1 hx0 hx1
  have hold : ∀ {g w}, ¬ (R.file g).isEnd page w := fun hg => hfresh (mem_pipes.mpr ⟨_, _, hg⟩)
  have hpipe : (R.openPipe page f0 x0 f1 x1).pipe page = ⟨true, true⟩ :=
    update_self ..
  have hother : ∀ {page'}, page' ≠ page →
      (R.openPipe page f0 x0 f1 x1).pipe page' = R.pipe page' :=
    fun hne' => update_of_ne hne' ..
  have hmem : ∀ {page'}, page' ∈ (R.openPipe page f0 x0 f1 x1).pipes → page' ≠ page →
      page' ∈ R.pipes := by
    intro page' hpage' hne'
    rw [pipes_openPipe hne h0 h1 hx0 hx1] at hpage'
    exact (Finset.mem_insert.mp hpage').resolve_left hne'
  refine ⟨fun g hg => ?_, fun {g g' page' w} hg hg' => ?_, fun page' hpage' => ?_,
    fun page' hpage' => ?_⟩
  · rw [file_openPipe] at hg ⊢
    split at hg
    · omega
    · split at hg
      · omega
      · rw [if_neg ‹_›, if_neg ‹_›]
        exact h.closed g hg
  · rw [hend] at hg hg'
    by_cases hp : page' = page
    · subst hp
      grind
    · exact h.unique (hg.resolve_left fun hg => hp hg.1) (hg'.resolve_left fun hg => hp hg.1)
  · by_cases hp : page' = page
    · subst hp
      rw [hpipe]
      exact iff_of_true rfl ⟨f0, hend.mpr (.inl ⟨rfl, .inl ⟨rfl, rfl⟩⟩)⟩
    · rw [hother hp, h.readopen page' (hmem hpage' hp)]
      simp [hend, hp]
  · by_cases hp : page' = page
    · subst hp
      rw [hpipe]
      exact iff_of_true rfl ⟨f1, hend.mpr (.inl ⟨rfl, .inr ⟨rfl, rfl⟩⟩)⟩
    · rw [hother hp, h.writeopen page' (hmem hpage' hp)]
      simp [hend, hp]

/-- **A new pipe** takes over the page of the running code. -/
theorem Inv.openPipe (h : Inv L S (page ::ₘ A) R) (hne : f0 ≠ f1)
    (h0 : (R.file f0).type ≠ .pipe) (h1 : (R.file f1).type ≠ .pipe)
    (hx0 : x0.isEnd page false) (hx1 : x1.isEnd page true) (hr0 : 1 ≤ x0.ref)
    (hr1 : 1 ≤ x1.ref) : Inv L S A (R.openPipe page f0 x0 f1 x1) := by
  have hfresh := h.page_notMem_pipes
  refine ⟨?_, h.proc, h.files.openPipe hfresh hne h0 h1 hx0 hx1 hr0 hr1⟩
  have hown := h.own
  rw [pipes_openPipe hne h0 h1 hx0 hx1, Finset.insert_val_of_notMem hfresh, add_cons,
    cons_add]
  rwa [add_cons] at hown

end OpenPipe

section CloseEnd

variable (hend : (R.file f).isEnd page w)

theorem isEnd_closeEnd (hx : x.type ≠ .pipe) {g : FPtr} {page' : Nat} {w' : Bool} :
    ((R.closeEnd page w f x).file g).isEnd page' w' ↔ g ≠ f ∧ (R.file g).isEnd page' w' := by
  by_cases hg : g = f
  · subst hg
    change ((R.setFile g x).file g).isEnd page' w' ↔ _
    rw [setFile_same]
    simp [not_isEnd hx]
  · change ((R.setFile f x).file g).isEnd page' w' ↔ _
    rw [setFile_of_ne hg]
    simp [hg]

include hend

/-- Of the pipe that loses an end, the other end may be left. -/
theorem isEnd_closeEnd_same (h : FilesOk R) (hx : x.type ≠ .pipe) {g : FPtr} {w' : Bool} :
    ((R.closeEnd page w f x).file g).isEnd page w' ↔ w' = !w ∧ (R.file g).isEnd page w' := by
  rw [isEnd_closeEnd hx]
  constructor
  · rintro ⟨hne, hg⟩
    refine ⟨?_, hg⟩
    rcases Bool.eq_or_eq_not w' w with rfl | rfl
    · exact absurd (h.unique hg hend) hne
    · rfl
  · rintro ⟨rfl, hg⟩
    refine ⟨?_, hg⟩
    rintro rfl
    have hw := hg.2.2.symm.trans hend.2.2
    cases w <;> cases hw

theorem isEnd_closeEnd_other (hx : x.type ≠ .pipe) {g : FPtr} {page' : Nat} {w' : Bool}
    (hp : page' ≠ page) :
    ((R.closeEnd page w f x).file g).isEnd page' w' ↔ (R.file g).isEnd page' w' := by
  rw [isEnd_closeEnd hx, and_iff_right_iff_imp]
  rintro hg rfl
  exact hp (hg.2.1.symm.trans hend.2.1)

theorem pipes_closeEnd (hx : x.type ≠ .pipe) {page' : Nat} (hp : page' ≠ page) :
    page' ∈ (R.closeEnd page w f x).pipes ↔ page' ∈ R.pipes := by
  simp only [mem_pipes, isEnd_closeEnd_other hend hx hp]

theorem FilesOk.closeEnd (h : FilesOk R) (hx : x.type = .none) :
    FilesOk (R.closeEnd page w f x) := by
  have hx' : x.type ≠ .pipe := by rw [hx]; nofun
  have hpage : page ∈ R.pipes := mem_pipes.mpr ⟨f, w, hend⟩
  have hsame : (R.closeEnd page w f x).pipe page = (R.pipe page).close w :=
    update_self ..
  have hother : ∀ {page'}, page' ≠ page → (R.closeEnd page w f x).pipe page' = R.pipe page' :=
    fun hne => update_of_ne hne ..
  refine ⟨fun g hg => ?_, fun hg hg' => ?_, fun page' hpage' => ?_, fun page' hpage' => ?_⟩
  · change ((R.setFile f x).file g).ref < 1 at hg
    change ((R.setFile f x).file g).type = .none
    by_cases hgf : g = f
    · rw [hgf, setFile_same]
      exact hx
    · rw [setFile_of_ne hgf] at hg ⊢
      exact h.closed g hg
  · exact h.unique ((isEnd_closeEnd hx').mp hg).2 ((isEnd_closeEnd hx').mp hg').2
  · by_cases hp : page' = page
    · subst hp
      have hread := h.readopen page' hpage
      simp only [hsame, isEnd_closeEnd_same hend h hx', PipeEnds.close]
      cases w <;> simp [hread]
    · simp only [hother hp, isEnd_closeEnd_other hend hx' hp]
      exact h.readopen page' ((pipes_closeEnd hend hx' hp).mp hpage')
  · by_cases hp : page' = page
    · subst hp
      have hwrite := h.writeopen page' hpage
      simp only [hsame, isEnd_closeEnd_same hend h hx', PipeEnds.close]
      cases w <;> simp [hwrite]
    · simp only [hother hp, isEnd_closeEnd_other hend hx' hp]
      exact h.writeopen page' ((pipes_closeEnd hend hx' hp).mp hpage')

/-- The pipe stays open exactly as long as one of its flags is set. -/
theorem mem_pipes_closeEnd (h : FilesOk R) (hx : x.type ≠ .pipe) :
    page ∈ (R.closeEnd page w f x).pipes ↔
      ((R.pipe page).close w).readopen = true ∨ ((R.pipe page).close w).writeopen = true := by
  have hpage : page ∈ R.pipes := mem_pipes.mpr ⟨f, w, hend⟩
  have hread := h.readopen page hpage
  have hwrite := h.writeopen page hpage
  simp only [mem_pipes, isEnd_closeEnd_same hend h hx, PipeEnds.close]
  cases w <;> simp [hread, hwrite]

/-- **Closing an end.** The pipe keeps its page, or the running code gets it. -/
theorem Inv.closeEnd (h : Inv L S A R) (hx : x.type = .none) :
    Inv L S (if ((R.pipe page).close w).readopen = false ∧ ((R.pipe page).close w).writeopen = false
      then page ::ₘ A else A) (R.closeEnd page w f x) := by
  have hx' : x.type ≠ .pipe := by rw [hx]; nofun
  have hpage : page ∈ R.pipes := mem_pipes.mpr ⟨f, w, hend⟩
  have hmem := mem_pipes_closeEnd hend h.files hx'
  refine ⟨?_, h.proc, h.files.closeEnd hend hx⟩
  have hown := h.own
  split
  · rename_i hclosed
    rw [hclosed.1, hclosed.2] at hmem
    have hgone : page ∉ (R.closeEnd page w f x).pipes := by simp [hmem]
    have hpipes : R.pipes = insert page (R.closeEnd page w f x).pipes := by
      ext page'
      by_cases hp : page' = page
      · simp [hp, hpage]
      · simp [hp, pipes_closeEnd hend hx' hp]
    rw [hpipes, Finset.insert_val_of_notMem hgone] at hown
    rw [add_cons]
    rwa [add_cons, cons_add] at hown
  · rename_i hopen
    have hpipes : (R.closeEnd page w f x).pipes = R.pipes := by
      ext page'
      by_cases hp : page' = page
      · rw [hp]
        refine iff_of_true (hmem.mpr ?_) hpage
        rcases not_and_or.mp hopen with hr | hw
        · exact .inl (by simpa using hr)
        · exact .inr (by simpa using hw)
      · exact pipes_closeEnd hend hx' hp
    rw [hpipes]
    exact hown

end CloseEnd

end Xv6.Kernel
