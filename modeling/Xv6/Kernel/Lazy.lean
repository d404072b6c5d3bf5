import Xv6.Kernel.Fork
import Xv6.Kernel.Sbrk

/-!
# xv6 — lazy allocation refines eager allocation

`sbrk` grants memory at once (`SBRK_EAGER`) or only when it is used. Here is the
memory a program may think it has (`Memory`): a size and a byte at every address,
with no word about pages. The kernel implements that in either mode (`wp_perform`), so
programs cannot tell the modes apart (`lazy_refines_eager`), as long as there is
physical memory: as many free pages as the next operation may take (`Op.need`), none of
which `kalloc` refuses.
-/

namespace Xv6.Kernel

open Prog Vm TransitionRun Function

variable {va : Nat}

/-- What processes do with their memory. -/
inductive Op where
  /-- `sbrk(n, t)` -/
  | sbrk (n t : Int)
  | load (va : Nat)
  | store (va : Nat) (v : UInt8)
  /-- the kernel reads user memory for the process -/
  | copyin (va len : Nat)
  /-- the kernel writes user memory for the process -/
  | copyout (va : Nat) (bs : List UInt8)
  | fork
  deriving DecidableEq

/-- What they get. -/
inductive Obs where
  | done
  | addr (r : Int)
  | byte (b : Option UInt8)
  | bytes (bs : List UInt8) (ok : Bool)
  | copied (ok : Bool)
  deriving DecidableEq

/-- The operation without the mode of allocation. -/
def Op.erase : Op → Op
  | .sbrk n _ => .sbrk n SBRK_EAGER
  | op => op

def perform (p : Pid) : Op → KM Obs
  | .sbrk n t => do
    let r ← sysSbrk p n t
    pure (.addr r)
  | .load va => do
    let b ← userLoad p va
    pure (.byte b)
  | .store va v => do
    userWrite p va v
    pure .done
  | .copyin va len => do
    let (bs, ok) ← copyin p va len
    pure (.bytes bs ok)
  | .copyout va bs => do
    let ok ← copyout p va bs
    pure (.copied ok)
  | .fork => do
    let _ ← kfork p
    pure .done

/-! ### The memory a program may think it has -/

/-- The memory of a process. -/
structure Memory where
  sz : Nat
  view : View

/-- The memories of all processes; `none` for a slot that is not in use. -/
abbrev Memories := Pid → Option Memory

def Memory.sbrk (M : Memory) (n : Int) : Int × Memory :=
  if 0 < n ∧ (TRAPFRAME : Int) < M.sz + n then (-1, M)
  else (M.sz, ⟨resized M.sz n, M.view.truncate (npages (resized M.sz n))⟩)

/-- An operation on one memory. Copies stop at the first address that may not be
used. -/
def Memory.run (M : Memory) : Op → Obs × Memory
  | .sbrk n _ => (.addr (M.sbrk n).1, (M.sbrk n).2)
  | .load va => (.byte (if M.view.readable M.sz va then some (M.view.byte va) else none), M)
  | .store va v =>
    (.done, if M.view.writable M.sz va then { M with view := M.view.store va [v] } else M)
  | .copyin va len =>
    let n := reach (M.view.readable M.sz) va len
    (.bytes (ByteBuffer.load M.view.byte va n) (decide (n = len)), M)
  | .copyout va bs =>
    let n := reach (M.view.writable M.sz) va bs.length
    (.copied (decide (n = bs.length)), { M with view := M.view.store va (bs.take n) })
  | .fork => (.done, M)

/-- The slot a child gets. -/
def freeMemory (ms : Memories) : Option Pid :=
  (List.finRange NPROC).find? fun q => (ms q).isNone

/-- An operation of process `p` on the memories. -/
def runMemories (ms : Memories) (p : Pid) (M : Memory) : Op → Obs × Memories
  | .fork => (.done, (freeMemory ms).elim ms fun np => update ms np (some M))
  | op => ((M.run op).1, update ms p (some (M.run op).2))

/-- The mode of allocation makes no difference here. -/
theorem runMemories_erase (ms : Memories) (p : Pid) (M : Memory) (op : Op) :
    runMemories ms p M op.erase = runMemories ms p M op := by
  cases op <;> rfl

/-- The memory of a process, as the kernel has it. -/
def State.memory (k : State) (q : Pid) : Memory := ⟨(k.proc q).sz, k.view q⟩

def State.memories (k : State) : Memories := fun q =>
  if (k.proc q).state = .unused then none else some (k.memory q)

/-! ### The pages an operation may take -/

/-- The pages of a memory that are there. -/
def State.mapped (k : State) (p : Pid) : Nat :=
  (List.range (npages (k.proc p).sz)).countP fun v => (k.entry p (v * PGSIZE)).isSome

/-- How many pages an operation may take, in the state before it: three for each page of
memory it maps, and for a child those of `allocproc` too. -/
def Op.need (k : State) (p : Pid) : Op → Nat
  | .sbrk n t =>
    if t = SBRK_EAGER ∧ (k.proc p).sz + n ≤ TRAPFRAME
    then 3 * growPages (k.proc p).sz ((k.proc p).sz + n.toNat) else 0
  | .load va => k.faults p va 1
  | .store va _ => k.faults p va 1
  | .copyin va len => k.faults p va len
  | .copyout va bs => k.faults p va bs.length
  | .fork => 6 + 3 * k.mapped p

/-- The operation is one a program can ask for: `sbrk` takes an `int`, and user code
stays in its memory. -/
def Op.Valid (sz : Nat) : Op → Prop
  | .sbrk n _ => -2 ^ 31 ≤ n ∧ n < 2 ^ 31
  | .load va => va < sz
  | .store va _ => va < sz
  | _ => True

instance (sz : Nat) : (op : Op) → Decidable (op.Valid sz)
  | .sbrk _ _ => inferInstanceAs (Decidable (_ ∧ _))
  | .load va => inferInstanceAs (Decidable (va < sz))
  | .store va _ => inferInstanceAs (Decidable (va < sz))
  | .copyin _ _ => isTrue trivial
  | .copyout _ _ => isTrue trivial
  | .fork => isTrue trivial

variable {L : Layout} {A : Multiset Nat} {u u' : Pid → Bool} {k k' : State} {p q : Pid} {op : Op}
  {o : Obs}

theorem wp_growproc_short {n : Int} (h : Good L A u k) (hp : u p = false) (hn : 0 < n)
    (hfits : (k.proc p).sz + n ≤ TRAPFRAME) : wp (growproc p n) (fun ok _ => ok = false →
      k.mem.Short (3 * growPages (k.proc p).sz ((k.proc p).sz + n.toNat))) (fun _ => True) k := by
  obtain ⟨pt, _, _, hspace, -⟩ := h.openSpace hp
  rw [growproc, wp_bind, wp_gets, wp_ite]
  refine ⟨fun _ => wp_ite.mpr ⟨fun hno => absurd hfits (not_le.mpr hno), fun _ => ?_⟩,
    fun hno => absurd hn hno⟩
  rw [wp_bind]
  refine wp_pagetableOf (congrArg Space.pagetable hspace) ?_
  rw [wp_bind, onMem, wp_zoom, uvmalloc, if_neg (not_lt.mpr (Nat.le_add_right ..))]
  refine wp_then (wp_allocLoop_kept _ h.inv.own.kept) ?_
  rintro ⟨pt', ok⟩ mem hshort
  rw [Nat.zero_add] at hshort
  refine wp_pure.mpr (wp_then (wp_true _ _) fun _ k2 _ => wp_ite.mpr ⟨fun h0 => ?_, fun _ => ?_⟩)
  · refine wp_known _ (hshort ?_)
    cases ok with
    | false => rfl
    | true =>
      change (k.proc p).sz + n.toNat = 0 at h0
      omega
  · exact wp_then (wp_true _ _) fun _ _ _ => wp_pure.mpr (by rintro ⟨⟩)

/-- **An eager `sbrk`** fails, within bounds, only if memory is short of the pages for it. -/
theorem wp_sysSbrk_short {n : Int} (h : Good L A u k) (hp : u p = false) (hn : 0 < n)
    (hfits : (k.proc p).sz + n ≤ TRAPFRAME) : wp (sysSbrk p n SBRK_EAGER) (fun r _ => r = -1 →
      k.mem.Short (3 * growPages (k.proc p).sz ((k.proc p).sz + n.toNat))) (fun _ => True) k := by
  rw [sysSbrk, wp_bind, wp_gets, wp_ite]
  refine ⟨fun _ => ?_, fun hno => absurd (.inl rfl) hno⟩
  refine wp_then (wp_growproc_short h hp hn hfits) fun ok k' hshort => ?_
  refine wp_ite.mpr ⟨fun _ => wp_pure.mpr fun hr => ?_, fun hok => wp_pure.mpr fun _ => ?_⟩
  · omega
  · exact hshort (Bool.eq_false_of_not_eq_true hok)

theorem wp_allocproc_short (h : Good L A u k) :
    wp allocproc (fun r k' => (r = none → k.freeSlot = none ∨ k.mem.Short 6) ∧
      (r ≠ none → KernelKept L.kend 6 k.mem k'.mem)) (fun _ => True) k := by
  have hnone : k.mem.Short 6 → ∀ k' : State,
      ((none : Option Pid) = none → k.freeSlot = none ∨ k.mem.Short 6) ∧
      ((none : Option Pid) ≠ none → KernelKept L.kend 6 k.mem k'.mem) :=
    fun hshort _ => ⟨fun _ => .inr hshort, fun hne => absurd rfl hne⟩
  simp only [allocproc, wp_bind, wp_gets]
  split
  · exact wp_pure.mpr ⟨fun _ => .inl ‹_›, fun hne => absurd rfl hne⟩
  rw [wp_bind, wp_modify, wp_bind, wp_updProc, wp_bind, onMem, wp_zoom]
  refine wp_imp (wp_kalloc_kept h.inv.own.kept) ?_
  rintro tf m1 ⟨h1, hshort, -⟩
  rw [wp_bind, wp_updProc, wp_ite]
  refine ⟨fun h0 => wp_then (wp_true _ _) fun _ k2 _ => ?_, fun _ => ?_⟩
  · exact wp_pure.mpr (hnone ((hshort h0).mono (by omega)) k2)
  rw [wp_bind, onMem, wp_zoom]
  refine wp_imp (wp_procPagetable_kept h1) ?_
  rintro pt m2 ⟨hshort, hkept⟩
  rw [wp_bind, wp_updProc]
  cases pt with
  | none => exact wp_then (wp_true _ _) fun _ k3 _ => wp_pure.mpr (hnone (hshort rfl) k3)
  | some pt => exact wp_pure.mpr ⟨by rintro ⟨⟩, fun _ => hkept (by rintro ⟨⟩)⟩

theorem wp_forkShare_used {np : Pid} :
    wp (forkShare p np) (fun _ k' => (k'.proc np).state ≠ .unused) (fun _ => True) k := by
  rw [forkShare, wp_bind, wp_gets]
  refine wp_then (wp_true _ _) fun _ k1 _ => wp_then (wp_true _ _) fun _ k2 _ => ?_
  rw [wp_bind, wp_gets]
  split
  · exact wp_stop.mpr trivial
  refine wp_then (wp_true _ _) fun _ k3 _ => ?_
  rw [wp_bind, wp_updProc]
  exact wp_pure.mpr (by simp [State.setProc_proc_same])

/-- **`kfork`** makes no child in a free slot only if memory is short of the pages for it. -/
theorem wp_kfork_short {np : Pid} (h : Good L A u k) (hp : u p = false)
    (hslot : k.freeSlot = some np) : wp (kfork p) (fun _ k' => (k'.proc np).state = .unused →
      k.mem.Short (6 + 3 * k.mapped p)) (fun _ => True) k := by
  refine wp_then (wp_and (wp_allocproc_short h) (wp_allocproc_pages h)) ?_
  rintro (_ | q) k1 ⟨⟨hshort, hkept⟩, hpages⟩
  · obtain hnone | hshort := hshort rfl
    · rw [hslot] at hnone
      cases hnone
    · exact wp_pure.mpr fun _ => hshort.mono (by omega)
  obtain ⟨hq, h1, -, haside⟩ := hpages
  obtain rfl := Option.some.inj (hslot.symm.trans hq)
  have hne : p ≠ np := by
    rintro rfl
    rw [h.unused_of_freeSlot hslot] at hp
    cases hp
  obtain ⟨old, sz, _, hspace, himage, -⟩ := h.openSpace hp
  have hold : (k.proc p).pagetable = some old := congrArg Space.pagetable hspace
  have hsz : (k.proc p).sz = sz := congrArg Space.sz hspace
  rw [wp_bind, wp_gets]
  simp only [id, haside.proc_of_ne hne, hold]
  split
  · rename_i old' new hold' hnew
    cases hold'
    rw [wp_bind, onMem, wp_zoom]
    refine wp_imp (wp_copyLoop_kept _ 0 ?_ (hkept (by rintro ⟨⟩))) ?_
    · rw [Nat.zero_add]
      exact npages_le_iff.mpr (hsz ▸ himage.sz_le)
    rintro ⟨new', ok⟩ mem hshort
    rw [wp_bind, wp_updProc]
    cases ok with
    | true => exact wp_imp wp_forkShare_used fun _ _ hused hno => absurd hno hused
    | false =>
      refine wp_imp (wp_true _ _) fun _ _ _ _ => ?_
      have hmapped : k.mapped p = (List.range' 0 (npages (k.proc p).sz)).countP
          fun v => (leaf old v).isSome := by
        have hpos : 0 < PGSIZE := by decide
        simp only [State.mapped, State.entry_eq hold, Nat.mul_div_cancel _ hpos,
          List.range_eq_range']
      rw [hmapped]
      exact hshort rfl
  · exact wp_stop.mpr trivial

/-! ### The kernel implements the memories -/

theorem memories_of_used (h : (k.proc q).state ≠ .unused) : k.memories q = some (k.memory q) :=
  if_neg h

theorem freeMemory_memories (k : State) : freeMemory k.memories = k.freeSlot := by
  have hsame : ∀ q : Pid, (k.memories q).isNone = decide ((k.proc q).state = .unused) := by
    intro q
    rw [State.memories]
    split <;> simp_all
  simp only [freeMemory, State.freeSlot, hsame]

/-- Only the memory of `q` has changed. -/
theorem Good.memories_aside (h : Good L A u k) (h' : Good L A u k') (hq : u q = false)
    (ha : Aside L q k k') : k'.memories = update k.memories q (some (k'.memory q)) := by
  funext r
  by_cases hr : r = q
  · rw [hr, update_self, memories_of_used (h'.used_iff.mp hq)]
  · rw [update_of_ne hr, State.memories, State.memories, State.memory, State.memory,
      ha.proc_of_ne hr, h.view_aside ha hr]

/-- What one operation leaves: the memories of `runMemories`, unless memory is short of the
pages the operation may take. -/
def Implements (L : Layout) (A : Multiset Nat) (p : Pid) (op : Op) (k : State) (o : Obs)
    (k' : State) : Prop :=
  (∃ u, Good L A u k') ∧
    (k.mem.Short (op.need k p) ∨ runMemories k.memories p (k.memory p) op = (o, k'.memories))

/-- Operations other than `fork` work on one memory. -/
theorem Good.implements (h : Good L A u k) (h' : Good L A u k') (hp : u p = false)
    (ha : Aside L p k k') (hop : op ≠ .fork)
    (hrun : k.mem.Short (op.need k p) ∨ (k.memory p).run op = (o, k'.memory p)) :
    Implements L A p op k o k' := by
  refine ⟨⟨u, h'⟩, hrun.imp_right fun hrun => ?_⟩
  rw [h.memories_aside h' hp ha]
  cases op with
  | fork => exact absurd rfl hop
  | _ => simp only [runMemories, hrun]

theorem wp_perform_sbrk {n t : Int} (h : Good L A u k) (hp : u p = false)
    (hn : -2 ^ 31 ≤ n ∧ n < 2 ^ 31) :
    wp (perform p (.sbrk n t)) (Implements L A p (.sbrk n t) k) NotVm k := by
  -- an answer of -1 within bounds
  have hshort : wp (sysSbrk p n t) (fun r _ => 0 < n → t = SBRK_EAGER →
      (k.proc p).sz + n ≤ TRAPFRAME → r = -1 → k.mem.Short (Op.need k p (.sbrk n t)))
      (fun _ => True) k := by
    by_cases hcase : 0 < n ∧ t = SBRK_EAGER ∧ (k.proc p).sz + n ≤ TRAPFRAME
    · obtain ⟨hpos, rfl, hfits⟩ := hcase
      refine wp_imp (wp_sysSbrk_short h hp hpos hfits) fun r _ hr _ _ _ hneg => ?_
      rw [Op.need, if_pos ⟨rfl, hfits⟩]
      exact hr hneg
    · exact wp_imp (wp_true _ _) fun _ _ _ hpos ht hfits => absurd ⟨hpos, ht, hfits⟩ hcase
  simp only [perform, wp_bind]
  refine wp_imp (wp_and (wp_sysSbrk h hp hn.2) hshort) ?_
  rintro r k' ⟨⟨h', haside, hr⟩, hshort⟩
  refine wp_pure.mpr (h.implements h' hp haside (by rintro ⟨⟩) ?_)
  cases hr with
  | refused hr hpos hmode hsz' hview =>
    subst hr
    by_cases hfits : ((k.proc p).sz : Int) + n ≤ TRAPFRAME
    · exact .inl (hshort hpos (hmode hfits) hfits rfl)
    · refine .inr ?_
      rw [Memory.run, Memory.sbrk, if_pos ⟨hpos, not_le.mp hfits⟩]
      simp only [State.memory, hsz', hview]
  | done hr hfits hsz' hview =>
    refine .inr ?_
    rw [Memory.run, Memory.sbrk, if_neg (fun hno => absurd (hfits hno.1) (not_le.mpr hno.2))]
    simp only [State.memory, hsz', hview, hr]

theorem wp_perform_load (h : Good L A u k) (hp : u p = false) (hva : va < (k.proc p).sz) :
    wp (perform p (.load va)) (Implements L A p (.load va) k) NotVm k := by
  simp only [perform, wp_bind]
  refine wp_imp (wp_userLoad h hp) ?_
  rintro r k' ⟨h', hr⟩
  refine wp_pure.mpr (h.implements h'.good hp h'.aside (by rintro ⟨⟩) ?_)
  have hmemory : k'.memory p = k.memory p := by rw [State.memory, State.memory, h'.sz, h'.view]
  rw [Memory.run, hmemory]
  cases r with
  | some b => exact .inr (by rw [State.memory, if_pos hr.1, hr.2])
  | none =>
    obtain hno | hentry := hr
    · exact .inr (by rw [State.memory, hno, if_neg Bool.false_ne_true])
    · exact .inl (h'.short hva hentry)

theorem wp_perform_store {v : UInt8} (h : Good L A u k) (hp : u p = false)
    (hva : va < (k.proc p).sz) :
    wp (perform p (.store va v)) (Implements L A p (.store va v) k) NotVm k := by
  simp only [perform, wp_bind]
  refine wp_imp (wp_userWrite h hp) ?_
  rintro _ k' ⟨h', haside, hsz, hshort, hview⟩
  refine wp_pure.mpr (h.implements h' hp haside (by rintro ⟨⟩) ?_)
  cases hentry : k'.entry p va with
  | none => exact .inl (hshort hva hentry)
  | some pte =>
    refine .inr ?_
    rw [hentry] at hview
    simp only [Option.isSome_some, and_true] at hview
    rw [Memory.run, State.memory, State.memory, hsz, hview]
    split <;> rfl

/-! ### Copies between the kernel and the process -/

theorem State.memory_putUser (k : State) (p : Pid) (s : User) :
    (k.putUser p s).memory p = ⟨(k.proc p).sz, s.view⟩ := by
  rw [State.memory, State.view_putUser, State.putUser]
  simp only [State.setProc_proc_same]

theorem wp_perform_copyin {len : Nat} (h : Good L A u k) (hp : u p = false) :
    wp (perform p (.copyin va len)) (Implements L A p (.copyin va len) k) NotVm k := by
  simp only [perform, wp_bind, copyin]
  refine wp_imp (wp_onUser h hp (R := fun s r s' => s'.view = s.view ∧
    (s.mem.Short (faultPages (k.proc p).sz s.pt va len) ∨
      r = (ByteBuffer.load s.view.byte va (reach (s.view.readable (k.proc p).sz) va len),
        decide (reach (s.view.readable (k.proc p).sz) va len = len)))) fun hs => ?_) ?_
  · refine wp_imp (wp_copyin va len hs) ?_
    rintro r s' ⟨hs', hr⟩
    exact ⟨hs'.toApart, hs'.view, hr⟩
  rintro ⟨bs, ok⟩ k' ⟨h', haside, pt, s', hpt, rfl, hview, hr⟩
  rw [State.view_user hpt] at hview hr
  refine wp_pure.mpr (h.implements h' hp haside (by rintro ⟨⟩)
    (hr.imp (fun hshort => ?_) fun hr => ?_))
  · rwa [Op.need, State.faults_eq hpt]
  · rw [State.memory_putUser, hview]
    simp only [Prod.mk.injEq] at hr
    rw [hr.1, hr.2]
    rfl

theorem wp_perform_copyout {bs : List UInt8} (h : Good L A u k) (hp : u p = false) :
    wp (perform p (.copyout va bs)) (Implements L A p (.copyout va bs) k) NotVm k := by
  simp only [perform, wp_bind]
  refine wp_imp (wp_copyout_reach h hp) ?_
  rintro ok k' ⟨h', haside, hsz, hr⟩
  refine wp_pure.mpr (h.implements h' hp haside (by rintro ⟨⟩) (hr.imp_right fun hr => ?_))
  rw [Memory.run, State.memory, State.memory, hsz, hr.1, hr.2]

/-! ### fork -/

theorem wp_perform_fork (h : Good L A u k) (hp : u p = false) :
    wp (perform p .fork) (Implements L A p .fork k) NotVm k := by
  have hshort : wp (kfork p) (fun _ k' => ∀ np, k.freeSlot = some np →
      (k'.proc np).state = .unused → k.mem.Short (Op.fork.need k p)) (fun _ => True) k := by
    cases hslot : k.freeSlot with
    | none => exact wp_imp (wp_true _ _) fun _ _ _ np hnp => by cases hnp
    | some np =>
      refine wp_imp (wp_kfork_short h hp hslot) fun _ _ hr q hq hunused => ?_
      cases hq
      exact hr hunused
  simp only [perform, wp_bind]
  refine wp_imp (wp_and (wp_kfork_pages h hp) hshort) ?_
  rintro r k' ⟨⟨np, hf⟩ | ⟨-, h', hk'⟩, hshort⟩
  · refine wp_pure.mpr ⟨⟨_, hf.good⟩, .inr ?_⟩
    rw [runMemories, freeMemory_memories, hf.slot, Option.elim_some]
    congr 1
    funext r
    by_cases hr : r = np
    · have hused := hf.good.used_iff.mp (update_self np false u)
      rw [hr, update_self, memories_of_used hused, State.memory, State.memory, hf.sz,
        hf.view]
    · rw [update_of_ne hr, State.memories, State.memories, State.memory, State.memory,
        (hf.rest r hr).1, (hf.rest r hr).2]
  · refine wp_pure.mpr ⟨⟨u, h'⟩, ?_⟩
    obtain ⟨hnone, rfl⟩ | ⟨np, hslot, -⟩ := hk'
    · refine .inr ?_
      rw [runMemories, freeMemory_memories, hnone]
      rfl
    · exact .inl (hshort np hslot (h'.unused_iff.mp (h.unused_of_freeSlot hslot)))

/-! ### Runs -/

/-- **The kernel implements the memories**, in either mode. -/
theorem wp_perform (h : Good L A u k) (hp : u p = false) (hop : op.Valid (k.proc p).sz) :
    wp (perform p op) (Implements L A p op k) NotVm k := by
  cases op with
  | sbrk n t => exact wp_perform_sbrk h hp hop
  | load va => exact wp_perform_load h hp hop
  | store va v => exact wp_perform_store h hp hop
  | copyin va len => exact wp_perform_copyin h hp
  | copyout va bs => exact wp_perform_copyout h hp
  | fork => exact wp_perform_fork h hp

/-- One operation: who does what, the answers `kalloc` gets, and the result. -/
structure Turn where
  p : Pid
  op : Op
  fails : List Bool
  obs : Obs
  deriving DecidableEq

/-- A process that exists performs a valid operation, and memory is not short of the pages for
it: as many are free, and `kalloc` does not fail for one of them. -/
def TurnStep (k : State) (x : Turn) (k' : State) : Prop :=
  (k.proc x.p).state ≠ .unused ∧ x.op.Valid (k.proc x.p).sz ∧
    ¬ { k.mem with fails := x.fails }.Short (x.op.need k x.p) ∧
    (do setFails x.fails; perform x.p x.op) k = .ok (x.obs, k')

/-- The step, computed. -/
def turn (k : State) (x : Turn) : Option State :=
  match (do setFails x.fails; perform x.p x.op) k with
  | .ok (o, k') =>
    if (k.proc x.p).state ≠ .unused ∧ x.op.Valid (k.proc x.p).sz ∧
      ¬ { k.mem with fails := x.fails }.Short (x.op.need k x.p) ∧ o = x.obs then some k' else none
  | .error _ => none

theorem turnStep_of_turn {x : Turn} (h : turn k x = some k') : TurnStep k x k' := by
  rw [turn] at h
  split at h
  · rename_i o k1 hrun
    split at h
    · rename_i hok
      obtain ⟨hused, hvalid, hshort, rfl⟩ := hok
      cases h
      exact ⟨hused, hvalid, hshort, hrun⟩
    · cases h
  · cases h

/-- A step of the kernel is a step on the memories. -/
theorem TurnStep.memories {x : Turn} (h : Good L A u k) (hstep : TurnStep k x k') :
    (∃ u, Good L A u k') ∧ ∃ M, k.memories x.p = some M ∧
      runMemories k.memories x.p M x.op = (x.obs, k'.memories) := by
  obtain ⟨hp, hop, hshort, hrun⟩ := hstep
  have hk1 := wp_ok (wp_setFails (p := x.p) x.fails h) rfl
  -- the answers `kalloc` will get are not seen in memory
  obtain ⟨hgood, hmem⟩ := wp_ok (wp_perform hk1.1 (h.used_iff.mpr hp) hop) hrun
  exact ⟨hgood, k.memory x.p, memories_of_used hp, hmem.resolve_left hshort⟩

/-- What the processes do, up to the mode of allocation. -/
def program (l : List Turn) : List (Pid × Op) := l.map fun x => (x.p, x.op.erase)

/-- The results so far and the memories, after one more operation. -/
def advance (s : List Obs × Memories) (x : Pid × Op) : Option (List Obs × Memories) :=
  (s.2 x.1).map fun M =>
    (s.1 ++ [(runMemories s.2 x.1 M x.2).1], (runMemories s.2 x.1 M x.2).2)

/-- The results of a program, and the memories it leaves. -/
def outcome (ms : Memories) (ops : List (Pid × Op)) : Option (List Obs × Memories) :=
  ops.foldlM advance ([], ms)

/-- A run of the kernel gives the results that the memories give, whatever the modes. -/
theorem outcome_of_run {k0 : State} {l : List Turn} (h : Good L A u k0)
    (hrun : Run TurnStep k0 l k) : (∃ u, Good L A u k) ∧
      outcome k0.memories (program l) = some (l.map Turn.obs, k.memories) := by
  induction hrun with
  | start => exact ⟨⟨u, h⟩, rfl⟩
  | @snoc l k1 k2 x hrun hstep ih =>
    obtain ⟨⟨u1, h1⟩, ih⟩ := ih
    obtain ⟨h2, M, hM, hx⟩ := hstep.memories h1
    refine ⟨h2, ?_⟩
    rw [outcome] at ih
    rw [outcome, program, List.map_append, List.foldlM_append]
    rw [program] at ih
    rw [ih]
    simp only [List.map_cons, List.foldlM_cons, advance,
      Option.bind_eq_bind, Option.bind_some, hM, Option.map_some, runMemories_erase, hx,
      List.map_append]
    rfl

/-- **Lazy allocation refines eager allocation.** Two runs of one program that differ
in the modes of their `sbrk` calls, and in which there are the pages each operation may
take, give the same results and leave the same memories. -/
theorem lazy_refines_eager {L' : Layout} {A' : Multiset Nat} {u' : Pid → Bool} {k0 k0' : State}
    {l l' : List Turn} (h : Good L A u k0) (h' : Good L' A' u' k0')
    (hmem : k0.memories = k0'.memories) (hprogram : program l = program l')
    (hrun : Run TurnStep k0 l k) (hrun' : Run TurnStep k0' l' k') :
    l.map Turn.obs = l'.map Turn.obs ∧ k.memories = k'.memories := by
  have hout := (outcome_of_run h hrun).2
  rw [hmem, hprogram, (outcome_of_run h' hrun').2] at hout
  simp only [Option.some.injEq, Prod.mk.injEq] at hout
  exact ⟨hout.1.symm, hout.2.symm⟩

/-- Init grows, uses one of its new pages, makes a child, shrinks into the page and grows
over it again; the child reads what was there when it was made. -/
def growAndFork (t : Int) : List Turn :=
  [⟨0, .sbrk 9000 t, [], .addr 8192⟩, ⟨0, .store 13000 7, [], .done⟩,
    ⟨0, .copyout 12286 [1, 2, 3, 4], [], .copied true⟩, ⟨0, .fork, [], .done⟩,
    ⟨0, .sbrk (-4904) t, [], .addr 17192⟩, ⟨0, .sbrk 9000 t, [], .addr 12288⟩,
    ⟨0, .load 13000, [], .byte (some 0)⟩, ⟨1, .load 13000, [], .byte (some 7)⟩,
    ⟨1, .copyin 12285 4, [], .bytes [0, 1, 2, 3] true⟩]

theorem lazy_refines_eager_growAndFork : ∃ k k0 s s', userinit small = .ok ((), k) ∧
    Run Step k [.dispatch 0 []] k0 ∧ Run TurnStep k0 (growAndFork SBRK_EAGER) s ∧
    Run TurnStep k0 (growAndFork 2) s' ∧ (s.entry 0 16384).isSome ∧ s'.entry 0 16384 = none ∧
    s.memories = s'.memories := by
  obtain ⟨k, k0, hboot, hrun0, hruns⟩ := userinit_of_bootRun small [.dispatch 0 []]
    (C := fun _ _ => True)
    (f := fun k0 => (exec turn k0 (growAndFork SBRK_EAGER)).bind fun s =>
      (exec turn k0 (growAndFork 2)).map fun s' =>
        ((s.entry 0 16384).isSome, (s'.entry 0 16384).isNone))
    (b := some (true, true)) (by decide +kernel)
  obtain ⟨s, hs, hruns⟩ := Option.bind_eq_some_iff.mp hruns
  obtain ⟨s', hs', hentries⟩ := Option.map_eq_some_iff.mp hruns
  simp only [Prod.mk.injEq, Option.isNone_iff_eq_none] at hentries
  have hrun := (run_of_exec hs).mono fun _ _ _ => turnStep_of_turn
  have hrun' := (run_of_exec hs').mono fun _ _ _ => turnStep_of_turn
  obtain ⟨u1, h1⟩ := wp_ok (wp_userinit_pages (fresh_small.good bootMem_small)) hboot
  obtain ⟨u, h⟩ := good_run h1 hrun0.of_restrict
  have hprogram : program (growAndFork SBRK_EAGER) = program (growAndFork 2) := rfl
  exact ⟨k, k0, s, s', hboot, hrun0.of_restrict, hrun, hrun', hentries.1, hentries.2,
    (lazy_refines_eager h h rfl hprogram hrun hrun').2⟩

end Xv6.Kernel
