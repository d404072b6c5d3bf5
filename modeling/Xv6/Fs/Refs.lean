import Mathlib.Algebra.Order.Group.Multiset
import Xv6.Fs.Accounting
import Xv6.Fs.Io

/-!
# xv6 — the inode table

What the operations on inodes keep, on any disk: the reference count of an entry
is the number of references there are, no inode has two entries, and an inode
without links is freed when its last reference goes, and not before.

* `RefView`  — the part of the file system this is about: the inode table without
  block addresses, and the inodes on disk.
* `Refs`     — the invariant, with the references the running code holds.
* `refs_accounting` — every operation on inodes keeps it.
-/

namespace Xv6.Fs

open Prog Function Multiset

/-- An entry of the inode table without sizes, addresses and locks. -/
structure Entry where
  inum : Nat
  ref : Int
  valid : Bool
  type : IType
  nlink : Int

def Inode.entry (i : Inode) : Entry :=
  { inum := i.inum, ref := i.ref, valid := i.valid, type := i.d.type, nlink := i.d.nlink }

/-- The inode table and the inodes on disk. -/
structure RefView where
  ninodes : Nat
  disk : Nat → Dinode
  entry : IPtr → Entry

def State.refs (fs : State) : RefView :=
  { ninodes := fs.sb.ninodes, disk := fs.dinode, entry := fun ip => (fs.inode ip).entry }

/-- An inode on disk after its release. -/
structure Released (d : Dinode) : Prop where
  nlink : d.nlink = 0
  size : d.size = 0
  addrs : ∀ k, k ≤ NDIRECT → d.addrs k = 0

/-- What the invariant is relative to: the number of inodes, the disk when the call
began, and the current directory of the first process before it has been read. -/
structure RefBase where
  ninodes : Nat
  disk : Nat → Dinode
  root : Multiset IPtr

/-- The inode table is in order and the references in it are those in `A` and `B`;
the inodes of `A` have been read from disk. -/
structure Refs (b : RefBase) (S : Set Nat) (A B : Multiset IPtr) (v : RefView) : Prop where
  ninodes : v.ninodes = b.ninodes
  count : ∀ ip, (v.entry ip).ref = ((b.root + A + B).count ip : Int)
  unique : ∀ x y, 0 < (v.entry x).ref → 0 < (v.entry y).ref →
    (v.entry x).inum = (v.entry y).inum → x = y
  root : ∀ r ∈ b.root, (v.entry r).inum = ROOTINO
  valid : ∀ ip ∈ A, (v.entry ip).valid = true
  /-- an inode in use is allocated on disk, and the copy in memory agrees -/
  same : ∀ ip, 0 < (v.entry ip).ref → (v.entry ip).valid = true →
    (v.entry ip).type ≠ .free ∧ (v.disk (v.entry ip).inum).type = (v.entry ip).type ∧
      (v.disk (v.entry ip).inum).nlink = (v.entry ip).nlink
  /-- an allocated inode without links is in use -/
  kept : ∀ i ∈ S, (v.disk i).type ≠ .free → (v.disk i).nlink = 0 →
    ∃ ip, 0 < (v.entry ip).ref ∧ (v.entry ip).inum = i ∧ (v.entry ip).valid = true
  /-- an inode that was freed has nothing left -/
  gone : ∀ i, (b.disk i).type ≠ .free → (v.disk i).type = .free → Released (v.disk i)

variable {b : RefBase} {S : Set Nat} {A B : Multiset IPtr} {v : RefView} {fs : State} {ip r : IPtr}
  {disk : Nat → Dinode} {n : Nat} {e : Entry} {d : Dinode}

namespace Refs

/-- Nothing has been freed yet when a call begins. -/
theorem rebase (h : Refs b S A B v) : Refs { b with disk := v.disk } S A B v :=
  { h with gone := fun _ hi hfree => absurd hfree hi }

/-- The root directory is the first to be read. -/
theorem unpin (h : Refs ⟨n, disk, {r}⟩ S (ip ::ₘ A) B v) (hip : (v.entry ip).inum = ROOTINO) :
    Refs ⟨n, disk, 0⟩ S (ip ::ₘ r ::ₘ A) B v := by
  have hr : (v.entry r).inum = ROOTINO := h.root r (mem_singleton_self r)
  have hcount : ∀ x, (({r} : Multiset IPtr) + ip ::ₘ A + B).count x =
      (0 + ip ::ₘ r ::ₘ A + B).count x := by
    intro x
    rw [zero_add, singleton_add, cons_swap]
  have hpos : ∀ x ∈ ({r} : Multiset IPtr) + ip ::ₘ A + B, 0 < (v.entry x).ref := by
    intro x hx
    rw [h.count]
    exact_mod_cast count_pos.mpr hx
  have heq : r = ip := h.unique r ip (hpos r (by simp)) (hpos ip (by simp)) (hr.trans hip.symm)
  refine { h with
    count := fun x => ?_
    root := fun x hx => absurd hx (notMem_zero x)
    valid := fun x hx => ?_ }
  · rw [h.count, hcount]
  · rcases mem_cons.mp hx with rfl | hx
    · exact h.valid x (mem_cons_self x A)
    · rcases mem_cons.mp hx with rfl | hx
      · rw [heq]
        exact h.valid ip (mem_cons_self ip A)
      · exact h.valid x (mem_cons_of_mem hx)

/-- A reference to the root directory that is kept until it is read. -/
theorem pin (h : Refs ⟨n, disk, 0⟩ S A (r ::ₘ B) v) (hr : (v.entry r).inum = ROOTINO) :
    Refs ⟨n, disk, {r}⟩ S A B v := by
  refine { h with
    count := fun x => ?_
    root := fun x hx => ?_ }
  · rw [h.count, zero_add, singleton_add, cons_add, add_cons]
  · rw [mem_singleton.mp hx]
    exact hr

theorem mono {S' : Set Nat} (h : Refs b S A B v) (hS : S' ⊆ S) : Refs b S' A B v :=
  { h with kept := fun i hi => h.kept i (hS hi) }

theorem pos_of_mem (h : Refs b S A B v) (hip : ip ∈ b.root + A + B) : 0 < (v.entry ip).ref := by
  rw [h.count]
  exact_mod_cast count_pos.mpr hip

theorem mem_of_pos (h : Refs b S A B v) (hip : 0 < (v.entry ip).ref) : ip ∈ b.root + A + B := by
  rw [h.count] at hip
  exact count_pos.mp (by exact_mod_cast hip)

theorem loosen (h : Refs b S (ip ::ₘ A) B v) : Refs b S A (ip ::ₘ B) v := by
  refine { h with
    count := fun x => ?_
    valid := fun x hx => h.valid x (mem_cons_of_mem hx) }
  rw [h.count, add_cons, add_cons, cons_add]

/-- An inode that has been read is known to be. -/
theorem tighten (h : Refs b S A (ip ::ₘ B) v) (hip : (v.entry ip).valid = true) :
    Refs b S (ip ::ₘ A) B v := by
  refine { h with count := fun x => ?_, valid := fun x hx => ?_ }
  · rw [h.count, add_cons, add_cons, cons_add]
  · rcases mem_cons.mp hx with rfl | hx
    · exact hip
    · exact h.valid x hx

/-- Locking makes sure that an orphan is in use. -/
theorem sweep {i : Nat} (h : Refs b S A B v) (hip : ip ∈ A) (hi : (v.entry ip).inum = i) :
    Refs b (insert i S) A B v := by
  refine { h with kept := fun j hj htype hlink => ?_ }
  rcases hj with rfl | hj
  · have hmem : ip ∈ b.root + A + B :=
      mem_add.mpr (.inl (mem_add.mpr (.inr hip)))
    exact ⟨ip, h.pos_of_mem hmem, hi, h.valid ip hip⟩
  · exact h.kept j hj htype hlink

theorem count_cons (x ip : IPtr) (C : Multiset IPtr) :
    ((ip ::ₘ C).count x : Int) = C.count x + if x = ip then 1 else 0 := by
  rw [Multiset.count_cons]
  split <;> simp

end Refs

/-! ### Changes of the view -/

/-- Replace an entry. -/
def RefView.setEntry (v : RefView) (ip : IPtr) (e : Entry) : RefView :=
  { v with entry := update v.entry ip e }

/-- Replace an inode on disk. -/
def RefView.setDisk (v : RefView) (i : Nat) (d : Dinode) : RefView :=
  { v with disk := update v.disk i d }

@[simp] theorem RefView.setEntry_same (v : RefView) (ip : IPtr) (e : Entry) :
    (v.setEntry ip e).entry ip = e := by
  simp [RefView.setEntry]

theorem RefView.setEntry_of_ne (v : RefView) {ip x : IPtr} (e : Entry) (h : x ≠ ip) :
    (v.setEntry ip e).entry x = v.entry x := by
  simp [RefView.setEntry, h]

@[simp] theorem RefView.setDisk_entry (v : RefView) (i : Nat) (d : Dinode) :
    (v.setDisk i d).entry = v.entry := rfl

@[simp] theorem RefView.setDisk_same (v : RefView) (i : Nat) (d : Dinode) :
    (v.setDisk i d).disk i = d := by
  simp [RefView.setDisk]

theorem RefView.setDisk_of_ne (v : RefView) {i j : Nat} (d : Dinode) (h : j ≠ i) :
    (v.setDisk i d).disk j = v.disk j := by
  simp [RefView.setDisk, h]

@[simp] theorem RefView.setEntry_setEntry (v : RefView) (ip : IPtr) (e e' : Entry) :
    (v.setEntry ip e).setEntry ip e' = v.setEntry ip e' := by
  simp [RefView.setEntry]

@[simp] theorem RefView.setDisk_setDisk (v : RefView) (i : Nat) (d d' : Dinode) :
    (v.setDisk i d).setDisk i d' = v.setDisk i d' := by
  simp [RefView.setDisk]

theorem RefView.setDisk_setEntry (v : RefView) (i : Nat) (d : Dinode) (ip : IPtr) (e : Entry) :
    (v.setDisk i d).setEntry ip e = (v.setEntry ip e).setDisk i d := rfl

@[simp] theorem State.setInode_same (fs : State) (ip : IPtr) (f : Inode → Inode) :
    (fs.setInode ip f).inode ip = f (fs.inode ip) := by
  simp [State.setInode]

theorem State.setInode_of_ne (fs : State) {ip x : IPtr} (f : Inode → Inode) (hx : x ≠ ip) :
    (fs.setInode ip f).inode x = fs.inode x := by
  simp [State.setInode, hx]

@[simp] theorem State.refs_setInode (fs : State) (ip : IPtr) (f : Inode → Inode) :
    (fs.setInode ip f).refs = fs.refs.setEntry ip (f (fs.inode ip)).entry := by
  simp only [State.refs, State.setInode, RefView.setEntry, RefView.mk.injEq, true_and]
  funext x
  by_cases hx : x = ip
  · subst hx
    simp
  · simp [hx]

@[simp] theorem State.refs_entry (fs : State) (ip : IPtr) :
    fs.refs.entry ip = (fs.inode ip).entry := rfl

@[simp] theorem State.refs_disk (fs : State) : fs.refs.disk = fs.dinode := rfl

namespace Refs

/-- Another number of references to an entry in use, with an orphan not given up. -/
theorem recount {B' : Multiset IPtr} {n : Int} (h : Refs b S A B v)
    (hcount : ∀ x, (if x = ip then n else (v.entry x).ref) = (b.root + A + B').count x)
    (hpos : 0 < n → 0 < (v.entry ip).ref)
    (hkept : 0 < (v.entry ip).ref → (v.entry ip).valid = true → (v.entry ip).nlink = 0 → 0 < n) :
    Refs b S A B' (v.setEntry ip { v.entry ip with ref := n }) := by
  have hentry : ∀ x, (v.setEntry ip { v.entry ip with ref := n }).entry x =
      { v.entry x with ref := if x = ip then n else (v.entry x).ref } := by
    intro x
    by_cases hx : x = ip
    · subst hx
      simp
    · simp [RefView.setEntry_of_ne _ _ hx, hx]
  have hheld : ∀ x, 0 < (if x = ip then n else (v.entry x).ref) → 0 < (v.entry x).ref := by
    intro x hx
    by_cases hxip : x = ip
    · rw [if_pos hxip] at hx
      exact hxip ▸ hpos hx
    · rwa [if_neg hxip] at hx
  refine ⟨h.ninodes, fun x => ?_, fun x y => ?_, fun r hr => ?_, fun x hx => ?_, fun x => ?_,
    fun i hi htype hlink => ?_, h.gone⟩
  · rw [hentry]
    exact hcount x
  · rw [hentry, hentry]
    exact fun hx hy => h.unique x y (hheld x hx) (hheld y hy)
  · rw [hentry]
    exact h.root r hr
  · rw [hentry]
    exact h.valid x hx
  · rw [hentry]
    exact fun hx => h.same x (hheld x hx)
  · obtain ⟨x, hx, hinum, hvalid⟩ := h.kept i hi htype hlink
    refine ⟨x, ?_, ?_⟩ <;> rw [hentry]
    · by_cases hxip : x = ip
      · subst hxip
        have hsame := (h.same x hx hvalid).2.2
        rw [hinum] at hsame
        rw [if_pos rfl]
        exact hkept hx hvalid (hsame.symm.trans hlink)
      · rwa [if_neg hxip]
    · exact ⟨hinum, hvalid⟩

/-- One more reference to an entry in use. -/
theorem acquire (h : Refs b S A B v) (hpos : 0 < (v.entry ip).ref) : Refs b S A (ip ::ₘ B)
      (v.setEntry ip { v.entry ip with ref := (v.entry ip).ref + 1 }) := by
  refine h.recount (fun x => ?_) (fun _ => hpos) fun _ _ _ => by omega
  rw [add_cons, count_cons, ← h.count]
  split
  · rw [‹x = ip›]
  · simp

/-- An entry that was not in use gets another inode. -/
theorem recycle (h : Refs b S A B v) (hzero : (v.entry ip).ref = 0)
    (hnew : ∀ x, 0 < (v.entry x).ref → (v.entry x).inum ≠ e.inum) (href : e.ref = 1)
    (hvalid : e.valid = false) : Refs b S A (ip ::ₘ B) (v.setEntry ip e) := by
  have hne : ∀ {x}, 0 < (v.entry x).ref → x ≠ ip := by
    rintro x hx rfl
    omega
  have hmem : ∀ {x}, x ∈ b.root + A + B → (v.setEntry ip e).entry x = v.entry x := fun hx =>
    v.setEntry_of_ne e (hne (h.pos_of_mem hx))
  refine ⟨h.ninodes, fun x => ?_, fun x y hx hy hinum => ?_, fun r hr => ?_, fun x hx => ?_,
    fun x hx hv => ?_, fun i hi htype hlink => ?_, h.gone⟩
  · rw [add_cons, count_cons, ← h.count]
    by_cases hx : x = ip
    · rw [hx, RefView.setEntry_same, href, hzero]
      simp
    · rw [RefView.setEntry_of_ne _ _ hx]
      simp [hx]
  · by_cases hxip : x = ip <;> by_cases hyip : y = ip
    · rw [hxip, hyip]
    · rw [RefView.setEntry_of_ne _ _ hyip] at hy hinum
      rw [hxip, RefView.setEntry_same] at hinum
      exact absurd hinum.symm (hnew y hy)
    · rw [RefView.setEntry_of_ne _ _ hxip] at hx hinum
      rw [hyip, RefView.setEntry_same] at hinum
      exact absurd hinum (hnew x hx)
    · rw [RefView.setEntry_of_ne _ _ hxip] at hx hinum
      rw [RefView.setEntry_of_ne _ _ hyip] at hy hinum
      exact h.unique x y hx hy hinum
  · rw [hmem (mem_add.mpr (.inl (mem_add.mpr (.inl hr))))]
    exact h.root r hr
  · rw [hmem (mem_add.mpr (.inl (mem_add.mpr (.inr hx))))]
    exact h.valid x hx
  · by_cases hxip : x = ip
    · rw [hxip, RefView.setEntry_same, hvalid] at hv
      cases hv
    · rw [RefView.setEntry_of_ne _ _ hxip] at hx hv ⊢
      exact h.same x hx hv
  · obtain ⟨x, hx, hrest⟩ := h.kept i hi htype hlink
    refine ⟨x, ?_⟩
    rw [RefView.setEntry_of_ne _ _ (hne hx)]
    exact ⟨hx, hrest⟩

/-- What is known of an inode in memory and on disk changes; it stays allocated. -/
theorem write (h : Refs b S A B v) (hinum : e.inum = (v.entry ip).inum)
    (href : e.ref = (v.entry ip).ref) (hvalid : e.valid = true) (htype : e.type ≠ .free)
    (hpos : 0 < (v.entry ip).ref) (hdtype : d.type = e.type) (hdlink : d.nlink = e.nlink) :
    Refs b S A B ((v.setEntry ip e).setDisk e.inum d) := by
  have hent : ∀ x, ((v.setEntry ip e).entry x).inum = (v.entry x).inum ∧
      ((v.setEntry ip e).entry x).ref = (v.entry x).ref := by
    intro x
    by_cases hx : x = ip
    · rw [hx, RefView.setEntry_same]
      exact ⟨hinum, href⟩
    · rw [RefView.setEntry_of_ne _ _ hx]
      exact ⟨rfl, rfl⟩
  refine ⟨h.ninodes, fun x => ?_, fun x y => ?_, fun r hr => ?_, fun x hx => ?_, fun x hx hv => ?_,
    fun i hi hitype hilink => ?_, fun i hib hi => ?_⟩
  · rw [RefView.setDisk_entry, (hent x).2]
    exact h.count x
  · rw [RefView.setDisk_entry, (hent x).1, (hent x).2, (hent y).1, (hent y).2]
    exact h.unique x y
  · rw [RefView.setDisk_entry, (hent r).1]
    exact h.root r hr
  · rw [RefView.setDisk_entry]
    by_cases hxip : x = ip
    · rw [hxip, RefView.setEntry_same, hvalid]
    · rw [RefView.setEntry_of_ne _ _ hxip]
      exact h.valid x hx
  · rw [RefView.setDisk_entry] at hx hv ⊢
    by_cases hxip : x = ip
    · rw [hxip, RefView.setEntry_same, RefView.setDisk_same]
      exact ⟨htype, hdtype, hdlink⟩
    · -- another entry in use has another inode number
      have hne : (v.entry x).inum ≠ e.inum := by
        intro heq
        rw [(hent x).2] at hx
        exact hxip (h.unique x ip hx hpos (heq.trans hinum))
      rw [RefView.setEntry_of_ne _ _ hxip] at hx hv ⊢
      rw [RefView.setDisk_of_ne _ _ hne]
      exact h.same x hx hv
  · by_cases hie : i = e.inum
    · refine ⟨ip, ?_⟩
      rw [RefView.setDisk_entry, RefView.setEntry_same, href, hie]
      exact ⟨hpos, rfl, hvalid⟩
    · rw [RefView.setDisk_of_ne _ _ hie] at hitype hilink
      obtain ⟨x, hx, hxi, hxv⟩ := h.kept i hi hitype hilink
      have hxip : x ≠ ip := by
        rintro rfl
        exact hie (hxi.symm.trans hinum.symm)
      refine ⟨x, ?_⟩
      rw [RefView.setDisk_entry, RefView.setEntry_of_ne _ _ hxip]
      exact ⟨hx, hxi, hxv⟩
  · by_cases hie : i = e.inum
    · rw [hie, RefView.setDisk_same, hdtype] at hi
      exact absurd hi htype
    · rw [RefView.setDisk_of_ne _ _ hie] at hi ⊢
      exact h.gone i hib hi

/-- One reference less, to an inode that need not be freed. -/
theorem drop (h : Refs b S A (ip ::ₘ B) v)
    (hno : ¬ ((v.entry ip).ref = 1 ∧ (v.entry ip).valid = true ∧ (v.entry ip).nlink = 0)) :
    Refs b S A B (v.setEntry ip { v.entry ip with ref := (v.entry ip).ref - 1 }) := by
  refine h.recount (fun x => ?_) (by omega) fun hpos hvalid hlink => ?_
  · have hcount := h.count x
    rw [add_cons, count_cons] at hcount
    split at hcount
    · rw [if_pos ‹x = ip›, ← ‹x = ip›, hcount, Int.add_sub_cancel]
    · rw [if_neg ‹¬ x = ip›, hcount, Int.add_zero]
  · -- the last reference to an orphan is not dropped this way
    have : (v.entry ip).ref ≠ 1 := fun h1 => hno ⟨h1, hvalid, hlink⟩
    omega

/-- The last reference goes, and the inode is freed. -/
theorem release (h : Refs b S A (ip ::ₘ B) v) (hlast : (v.entry ip).ref = 1) (href : e.ref = 0)
    (hdtype : d.type = .free) (hd : Released d) :
    Refs b S A B ((v.setEntry ip e).setDisk (v.entry ip).inum d) := by
  have hnot : ∀ {x}, x ∈ b.root + A + B → x ≠ ip := by
    rintro x hx rfl
    have hcount := h.count x
    rw [add_cons, count_cons, hlast, if_pos rfl] at hcount
    have := count_pos.mpr hx
    omega
  have hpos : 0 < (v.entry ip).ref := by omega
  have hheld : ∀ {x}, 0 < ((v.setEntry ip e).entry x).ref → x ≠ ip := by
    rintro x hx rfl
    rw [RefView.setEntry_same, href] at hx
    omega
  refine ⟨h.ninodes, fun x => ?_, fun x y hx hy => ?_, fun r hr => ?_, fun x hx => ?_,
    fun x hx => ?_, fun i hi htype hlink => ?_, fun i hib hi => ?_⟩
  · rw [RefView.setDisk_entry]
    have hcount := h.count x
    rw [add_cons, count_cons] at hcount
    by_cases hx : x = ip
    · rw [hx] at hcount ⊢
      rw [if_pos rfl] at hcount
      rw [RefView.setEntry_same]
      omega
    · rw [RefView.setEntry_of_ne _ _ hx, hcount, if_neg hx, add_zero]
  · rw [RefView.setDisk_entry] at hx hy ⊢
    have hxip := hheld hx
    have hyip := hheld hy
    rw [RefView.setEntry_of_ne _ _ hxip] at hx ⊢
    rw [RefView.setEntry_of_ne _ _ hyip] at hy ⊢
    exact h.unique x y hx hy
  · rw [RefView.setDisk_entry, RefView.setEntry_of_ne _ _
      (hnot (mem_add.mpr (.inl (mem_add.mpr (.inl hr)))))]
    exact h.root r hr
  · rw [RefView.setDisk_entry, RefView.setEntry_of_ne _ _
      (hnot (mem_add.mpr (.inl (mem_add.mpr (.inr hx)))))]
    exact h.valid x hx
  · rw [RefView.setDisk_entry] at hx ⊢
    have hxip := hheld hx
    rw [RefView.setEntry_of_ne _ _ hxip] at hx ⊢
    have hne : (v.entry x).inum ≠ (v.entry ip).inum := fun heq => hxip (h.unique x ip hx hpos heq)
    rw [RefView.setDisk_of_ne _ _ hne]
    exact h.same x hx
  · by_cases hie : i = (v.entry ip).inum
    · rw [hie, RefView.setDisk_same] at htype
      exact absurd hdtype htype
    · rw [RefView.setDisk_of_ne _ _ hie] at htype hlink
      obtain ⟨x, hx, hxi, hxv⟩ := h.kept i hi htype hlink
      have hxip : x ≠ ip := by
        rintro rfl
        exact hie hxi.symm
      refine ⟨x, ?_⟩
      rw [RefView.setDisk_entry, RefView.setEntry_of_ne _ _ hxip]
      exact ⟨hx, hxi, hxv⟩
  · by_cases hie : i = (v.entry ip).inum
    · rw [hie, RefView.setDisk_same]
      exact hd
    · rw [RefView.setDisk_of_ne _ _ hie] at hi ⊢
      exact h.gone i hib hi

/-- A free inode on disk is allocated; it has no holder yet. -/
theorem allocate {i : Nat} (h : Refs b S A B v) (hfree : (v.disk i).type = .free)
    (hd : d.type ≠ .free) : Refs b (S \ {i}) A B (v.setDisk i d) := by
  refine { h with
    same := fun x hx hv => ?_
    kept := fun j hj htype hlink => ?_
    gone := fun j hjb hj => ?_ }
  · rw [RefView.setDisk_entry] at hx hv ⊢
    have hsame := h.same x hx hv
    have hne : (v.entry x).inum ≠ i := by
      intro heq
      rw [heq] at hsame
      exact hsame.1 (hsame.2.1.symm.trans hfree)
    rw [RefView.setDisk_of_ne _ _ hne]
    exact hsame
  · have hne : j ≠ i := hj.2
    rw [RefView.setDisk_of_ne _ _ hne] at htype hlink
    exact h.kept j hj.1 htype hlink
  · by_cases hji : j = i
    · rw [hji, RefView.setDisk_same] at hj
      exact absurd hj hd
    · rw [RefView.setDisk_of_ne _ _ hji] at hj ⊢
      exact h.gone j hjb hj

end Refs

/-! ### Programs that leave the view alone -/

/-- The program leaves the inode table and the inodes on disk alone. -/
abbrev KeepsRefs {α : Type} (m : FsM α) : Prop := Keeps (fun _ => True) State.refs m

theorem RefView.setEntry_self (v : RefView) (ip : IPtr) : v.setEntry ip (v.entry ip) = v := by
  simp [RefView.setEntry]

/-- A change of an entry that the view does not show. -/
theorem keepsRefs_setInode {f : Inode → Inode} (h : ∀ i, (f i).entry = i.entry) :
    KeepsRefs (setInode ip f) := by
  refine .modify fun fs => ?_
  rw [State.refs_setInode, h, ← State.refs_entry, RefView.setEntry_self]

theorem keepsRefs_setDinode {f : Dinode → Dinode}
    (h : ∀ d, (f d).type = d.type ∧ (f d).nlink = d.nlink) : KeepsRefs (setDinode ip f) := by
  refine keepsRefs_setInode fun i => ?_
  simp only [Inode.entry, (h i.d).1, (h i.d).2]

/-- The program leaves all inodes alone, in memory and on disk. -/
abbrev KeepsNodes {α : Type} (m : FsM α) : Prop :=
  Keeps (fun _ => True) (fun fs => (fs.inode, fs.dinode, fs.sb)) m

theorem refs_eq_of_nodes {fs fs' : State}
    (h : (fs'.inode, fs'.dinode, fs'.sb) = (fs.inode, fs.dinode, fs.sb)) : fs'.refs = fs.refs :=
  congrArg (fun n : (IPtr → Inode) × (Nat → Dinode) × Superblock =>
    RefView.mk n.2.2.ninodes n.2.1 fun ip => (n.1 ip).entry) h

theorem KeepsNodes.refs {α : Type} {m : FsM α} (h : KeepsNodes m) : KeepsRefs m :=
  ⟨fun fs => wp_imp (h.wp fs) fun _ _ h' => refs_eq_of_nodes h'⟩

theorem keepsNodes_beginOp : KeepsNodes beginOp :=
  .bind (.gets _) fun _ => .ite (.stop trivial) (.modify fun _ => rfl)

theorem keepsNodes_endOp : KeepsNodes endOp := .modify fun _ => rfl

theorem keepsNodes_logWrite : KeepsNodes (logWrite n) :=
  .bind (.gets _) fun _ => .ite (.stop trivial) (.ite (.stop trivial) (.modify fun _ => rfl))

theorem keepsNodes_balloc : KeepsNodes balloc := by
  refine .bind (.gets _) fun fs => ?_
  split
  · exact .pure _
  · exact .bind (.modify fun _ => rfl) fun _ => .bind keepsNodes_logWrite fun _ =>
      .bind (.modify fun _ => rfl) fun _ => .bind keepsNodes_logWrite fun _ => .pure _

theorem keepsNodes_bfree : KeepsNodes (bfree n) :=
  .bind (.gets _) fun _ => .ite (.stop trivial) (.bind (.modify fun _ => rfl) fun _ =>
    keepsNodes_logWrite)

theorem keepsNodes_freeIndirect : KeepsNodes (freeIndirect n) :=
  .bind (.gets _) fun _ => .each (fun _ => .when keepsNodes_bfree) _

theorem keepsRefs_addrSlot : KeepsRefs (addrSlot ip n) :=
  .bind (.gets _) fun _ => .ite (.bind keepsNodes_balloc.refs fun _ => .ite (.pure _) <|
    .bind (keepsRefs_setDinode fun _ => ⟨rfl, rfl⟩) fun _ => .pure _) (.pure _)

theorem keepsRefs_bmap : KeepsRefs (bmap ip n) := by
  refine .ite keepsRefs_addrSlot (.ite (.bind keepsRefs_addrSlot fun ind => ?_) (.stop trivial))
  refine .ite (.pure _) (.bind (.gets _) fun fs => ?_)
  exact .ite (.bind keepsNodes_balloc.refs fun _ => .ite (.pure _) <|
    .bind (.modify fun _ => rfl) fun _ => .bind keepsNodes_logWrite.refs fun _ => .pure _) (.pure _)

theorem keepsRefs_iunlock : KeepsRefs (iunlock ip) :=
  .bind (.gets _) fun _ => .ite (.stop trivial) (keepsRefs_setInode fun _ => rfl)

theorem keepsRefs_freeSlot : KeepsRefs (freeSlot ip n) :=
  .bind (.gets _) fun _ => .bind keepsNodes_bfree.refs fun _ =>
    keepsRefs_setDinode fun _ => ⟨rfl, rfl⟩

/-- `iupdate` writes the entry to disk. -/
theorem wp_iupdate {Q : Unit → State → Prop} {E : Panic → Prop} (hE : ∀ e, E e)
    (h : ∀ fs', fs'.refs = fs.refs.setDisk (fs.inode ip).inum (fs.inode ip).d →
      fs'.inode = fs.inode → Q () fs') : wp (iupdate ip) Q E fs := by
  simp only [iupdate, wp_bind, wp_modify, wp_gets, logWrite, wp_ite, wp_stop]
  exact ⟨fun _ => hE _, fun _ => ⟨fun _ => hE _, fun _ => h _ rfl rfl⟩⟩

/-! ### Operations -/

/-- One slot of an inode is emptied, and nothing else the view shows. -/
theorem wp_freeSlot (n : Nat) : wp (freeSlot ip n) (fun _ fs' => fs'.refs = fs.refs ∧
    (fs'.inode ip).inum = (fs.inode ip).inum ∧
    (fs'.inode ip).d.addrs = update (fs.inode ip).d.addrs n 0) (fun _ => True) fs := by
  have hslot : wp (freeSlot ip n) (fun _ fs' => (fs'.inode ip).inum = (fs.inode ip).inum ∧
      (fs'.inode ip).d.addrs = update (fs.inode ip).d.addrs n 0) (fun _ => True) fs := ?_
  · exact wp_and (keepsRefs_freeSlot.wp fs) hslot
  simp only [freeSlot, dinodeOf, wp_bind, wp_gets, setDinode, setInode, wp_modify,
    State.setInode_same]
  refine wp_imp (keepsNodes_bfree.wp fs) fun _ fs1 h1 => ?_
  rw [(Prod.mk.inj h1).1]
  exact ⟨rfl, rfl⟩

/-- `itrunc` empties an inode, in memory and on disk. -/
theorem wp_itrunc : wp (itrunc ip) (fun _ fs' =>
    fs'.refs = fs.refs.setDisk (fs.inode ip).inum (fs'.inode ip).d ∧
    (fs'.inode ip).d.size = 0 ∧ ∀ k, k ≤ NDIRECT → (fs'.inode ip).d.addrs k = 0)
    (fun _ => True) fs := by
  have hinum : ∀ fs' : State, fs'.refs = fs.refs → (fs'.inode ip).inum = (fs.inode ip).inum :=
    fun fs' h => congrArg (fun v => (v.entry ip).inum) h
  simp only [itrunc, wp_bind, dinodeOf, wp_gets]
  -- the direct blocks
  refine wp_imp (wp_each_mem (I := fun fs' => fs'.refs = fs.refs)
    (P := fun k fs' => (fs'.inode ip).d.addrs k = 0) ?_ rfl) ?_
  · intro n _ fs1 h1
    rw [wp_bind, wp_gets, wp_when]
    refine ⟨fun _ => wp_imp (wp_freeSlot n) ?_, fun h0 => ⟨h1, not_not.mp h0, fun _ hc => hc⟩⟩
    rintro _ fs2 ⟨h2, -, haddrs⟩
    refine ⟨h2.trans h1, ?_, fun c hc => ?_⟩ <;> rw [haddrs]
    · exact update_self ..
    · rw [update_apply]
      split
      · rfl
      · exact hc
  rintro _ fs1 ⟨h1, hdirect, -⟩
  -- the indirect block
  have hind : wp (Prog.when ((fs1.inode ip).d.addrs NDIRECT ≠ 0) do
      freeIndirect ((fs1.inode ip).d.addrs NDIRECT)
      freeSlot ip NDIRECT) (fun _ fs2 => fs2.refs = fs.refs ∧
      ∀ k, k ≤ NDIRECT → (fs2.inode ip).d.addrs k = 0) (fun _ => True) fs1 := by
    have hrange : ∀ k, k ≤ NDIRECT → k ≠ NDIRECT → (fs1.inode ip).d.addrs k = 0 := fun k hk hne =>
      hdirect k (List.mem_range.mpr (lt_of_le_of_ne hk hne))
    rw [wp_when]
    refine ⟨fun _ => ?_, fun h0 => ⟨h1, fun k hk => ?_⟩⟩
    · refine wp_then (keepsNodes_freeIndirect.wp fs1) fun _ fs2 h2 => ?_
      have hrefs : fs2.refs = fs1.refs := refs_eq_of_nodes h2
      refine wp_imp (wp_freeSlot NDIRECT) ?_
      rintro _ fs3 ⟨h3, -, haddrs⟩
      refine ⟨h3.trans (hrefs.trans h1), fun k hk => ?_⟩
      rw [haddrs, update_apply]
      split
      · rfl
      · rename_i hne
        rw [(Prod.mk.inj h2).1]
        exact hrange k hk hne
    · by_cases hne : k = NDIRECT
      · rw [hne]
        exact not_not.mp h0
      · exact hrange k hk hne
  refine wp_imp hind ?_
  rintro _ fs2 ⟨h2, haddrs⟩
  simp only [setDinode, setInode, wp_modify]
  refine wp_iupdate (fun _ => trivial) fun fs3 h3 hinode => ?_
  have hd : (fs3.inode ip).d = { (fs2.inode ip).d with size := 0 } := by
    rw [hinode, State.setInode_same]
  refine ⟨?_, ?_, fun k hk => ?_⟩
  · rw [h3, State.refs_setInode, hd, State.setInode_same]
    have hself : ({ fs2.inode ip with d := { (fs2.inode ip).d with size := 0 } } : Inode).entry =
        fs2.refs.entry ip := rfl
    rw [hself, RefView.setEntry_self, h2, hinum fs2 h2]
  · rw [hd]
  · rw [hd]
    exact haddrs k hk

/-- `iput` of the last reference to an inode without links empties and frees it. -/
theorem wp_ifree : wp (ifree ip) (fun _ fs' => ∃ d : Dinode, d.type = .free ∧
    d.nlink = (fs.inode ip).d.nlink ∧ d.size = 0 ∧ (∀ k, k ≤ NDIRECT → d.addrs k = 0) ∧
    fs'.refs = (fs.refs.setEntry ip
      { fs.refs.entry ip with type := .free, valid := false }).setDisk (fs.inode ip).inum d)
    (fun _ => True) fs := by
  simp only [ifree, wp_bind, wp_gets, wp_ite, setDinode, setInode, wp_modify]
  refine ⟨fun _ => wp_stop.mpr trivial, fun _ => ?_⟩
  have h1 : (fs.setInode ip fun i => { i with locked := true }).refs = fs.refs := by
    rw [State.refs_setInode]
    exact RefView.setEntry_self _ ip
  have hinum1 : ((fs.setInode ip fun i => { i with locked := true }).inode ip).inum =
      (fs.inode ip).inum := by
    rw [State.setInode_same]
  refine wp_imp wp_itrunc ?_
  rintro _ fs2 ⟨h2, hsize, haddrs⟩
  rw [h1, hinum1] at h2
  have hentry2 : (fs2.inode ip).entry = (fs.inode ip).entry :=
    congrArg (fun v => v.entry ip) h2
  refine wp_iupdate (fun _ => trivial) fun fs4 h4 hinode => ?_
  refine ⟨{ (fs2.inode ip).d with type := .free }, rfl, congrArg Entry.nlink hentry2, hsize,
    haddrs, ?_⟩
  have hinum2 : (fs2.inode ip).inum = (fs.inode ip).inum := congrArg Entry.inum hentry2
  have href2 : (fs2.inode ip).ref = (fs.inode ip).ref := congrArg Entry.ref hentry2
  have hlink2 : (fs2.inode ip).d.nlink = (fs.inode ip).d.nlink := congrArg Entry.nlink hentry2
  rw [State.refs_setInode, h4, hinode, State.refs_setInode, State.setInode_same, h2]
  simp only [RefView.setDisk_setEntry, RefView.setDisk_setDisk, RefView.setEntry_setEntry,
    Inode.entry, State.refs_entry, hinum2, href2, hlink2]

theorem Refs.wp_iput (h : Refs b S A (ip ::ₘ B) fs.refs) :
    wp (iput ip) (fun _ fs' => Refs b S A B fs'.refs) (fun _ => True) fs := by
  simp only [iput, wp_bind, wp_gets, wp_when, setInode, wp_modify]
  refine ⟨fun hlast => wp_imp wp_ifree ?_, fun hno => ?_⟩
  · rintro _ fs1 ⟨d, htype, hlink, hsize, haddrs, h1⟩
    rw [State.refs_setInode, h1, RefView.setDisk_setEntry, RefView.setEntry_setEntry]
    have href : (fs1.inode ip).ref = (fs.inode ip).ref := by
      have := congrArg (fun v => (v.entry ip).ref) h1
      simpa [Inode.entry] using this
    refine h.release hlast.1 ?_ htype ⟨hlink.trans hlast.2.2, hsize, haddrs⟩
    simp only [href, hlast.1]
    rfl
  · rw [State.refs_setInode]
    exact h.drop hno

theorem Refs.wp_iget {inum : Nat} (h : Refs b S A B fs.refs) :
    wp (iget inum) (fun ip fs' => Refs b S A (ip ::ₘ B) fs'.refs ∧ (fs'.inode ip).inum = inum)
      (fun _ => True) fs := by
  simp only [iget, wp_bind, wp_gets]
  split
  · rename_i ip hfind
    have hip : 0 < (fs.inode ip).ref ∧ (fs.inode ip).inum = inum := by
      simpa using List.find?_some hfind
    simp only [wp_bind, setInode, wp_modify, wp_pure, State.setInode_same, State.refs_setInode]
    exact ⟨h.acquire hip.1, hip.2⟩
  · rename_i hnone
    have hnew : ∀ x, 0 < (fs.inode x).ref → (fs.inode x).inum ≠ inum := by
      intro x hx heq
      have := List.find?_eq_none.mp hnone x (List.mem_finRange x)
      simp [hx, heq] at this
    split
    · exact wp_stop.mpr trivial
    · rename_i ip hfind
      have hip : (fs.inode ip).ref = 0 := by simpa using List.find?_some hfind
      simp only [wp_bind, setInode, wp_modify, wp_pure, State.setInode_same, State.refs_setInode]
      exact ⟨h.recycle hip hnew rfl rfl, trivial⟩

theorem Refs.wp_idup (h : Refs b S A B fs.refs) (hip : ip ∈ A) :
    wp (idup ip) (fun _ fs' => Refs b S (ip ::ₘ A) B fs'.refs) (fun _ => True) fs := by
  simp only [idup, setInode, wp_modify, State.refs_setInode]
  have hmem : ip ∈ b.root + A + B :=
    mem_add.mpr (.inl (mem_add.mpr (.inr hip)))
  refine (h.acquire (h.pos_of_mem hmem)).tighten ?_
  rw [RefView.setEntry_same]
  exact h.valid ip hip

theorem Refs.wp_ilock (h : Refs b S A (ip ::ₘ B) fs.refs) :
    wp (ilock ip) (fun _ fs' => Refs b S (ip ::ₘ A) B fs'.refs ∧
      (fs'.inode ip).inum = (fs.inode ip).inum) (fun _ => True) fs := by
  have hmem : ip ∈ b.root + A + ip ::ₘ B :=
    mem_add.mpr (.inr (mem_cons_self ip B))
  have hpos := h.pos_of_mem hmem
  simp only [ilock, wp_bind, wp_gets, wp_ite, setInode, wp_modify, State.refs_setInode,
    State.setInode_same]
  refine ⟨fun _ => wp_stop.mpr trivial, fun _ => ⟨fun _ => wp_stop.mpr trivial, fun _ =>
    ⟨fun hvalid => ⟨?_, trivial⟩, fun _ => ⟨fun _ => wp_stop.mpr trivial, fun htype =>
      ⟨?_, trivial⟩⟩⟩⟩⟩
  · have hself : fs.refs.setEntry ip (fs.refs.entry ip) = fs.refs := RefView.setEntry_self _ ip
    change Refs b S (ip ::ₘ A) B (fs.refs.setEntry ip (fs.refs.entry ip))
    rw [hself]
    exact h.tighten hvalid
  · -- the inode is read from disk, which does not change
    have hdisk : ∀ e : Entry, e.inum = (fs.inode ip).inum →
        (fs.refs.setEntry ip e).setDisk e.inum (fs.dinode (fs.inode ip).inum) =
          fs.refs.setEntry ip e := by
      intro e he
      rw [he]
      simp [RefView.setDisk, RefView.setEntry]
    have hread := h.write (e := ({ fs.inode ip with
      valid := true, locked := true, d := fs.dinode (fs.inode ip).inum } : Inode).entry)
      rfl rfl rfl htype hpos rfl rfl
    rw [hdisk _ rfl] at hread
    refine hread.tighten ?_
    rw [RefView.setEntry_same]
    rfl

theorem Refs.wp_ialloc {type : IType} (h : Refs b S A B fs.refs) (htype : type ≠ .free) :
    wp (ialloc type) (fun r fs' => match r with
      | none => Refs b S A B fs'.refs
      | some ip => wp (ilock ip) (fun _ fs'' => Refs b S (ip ::ₘ A) B fs''.refs)
          (fun _ => True) fs') (fun _ => True) fs := by
  simp only [ialloc, wp_bind, wp_gets]
  split
  · exact wp_pure.mpr h
  · rename_i inum hfind
    have hfree : (fs.dinode inum).type = .free := by simpa using List.find?_some hfind
    simp only [wp_bind, wp_modify]
    have h1 : Refs b (S \ {inum}) A B (State.refs { fs with
        dinode := update fs.dinode inum { Dinode.zero with type := type } }) :=
      h.allocate hfree htype
    refine keepsNodes_logWrite.refs.andThen rfl fun _ fs2 h2 => ?_
    rw [← h2] at h1
    refine wp_imp h1.wp_iget ?_
    rintro ip fs3 ⟨h3, hinum⟩
    refine wp_pure.mpr (wp_imp h3.wp_ilock ?_)
    rintro _ fs4 ⟨h4, hinum'⟩
    refine (h4.sweep (mem_cons_self ip A) (hinum'.trans hinum)).mono ?_
    intro i hi
    by_cases hii : i = inum
    · exact .inl hii
    · exact .inr ⟨hi, hii⟩

/-- A change of an inode that has been read, which the view shows on disk only. -/
theorem Refs.setDisk (h : Refs b S A B fs.refs) (hip : ip ∈ A)
    (htype : d.type = (fs.inode ip).d.type) (hlink : d.nlink = (fs.inode ip).d.nlink) :
    Refs b S A B (fs.refs.setDisk (fs.inode ip).inum d) := by
  have hmem : ip ∈ b.root + A + B :=
    mem_add.mpr (.inl (mem_add.mpr (.inr hip)))
  have hpos := h.pos_of_mem hmem
  have hvalid := h.valid ip hip
  have hw := h.write rfl rfl hvalid (h.same ip hpos hvalid).1 hpos
    htype hlink
  rwa [RefView.setEntry_self] at hw

theorem Refs.wp_update {f : Dinode → Dinode} (h : Refs b S A B fs.refs) (hip : ip ∈ A)
    (hf : ∀ d, (f d).type = d.type) : wp (setDinode ip f) (fun _ fs' => wp (iupdate ip)
      (fun _ fs'' => Refs b S A B fs''.refs) (fun _ => True) fs') (fun _ => True) fs := by
  simp only [setDinode, setInode, wp_modify]
  refine wp_iupdate (fun _ => trivial) fun fs1 h1 _ => ?_
  have hmem : ip ∈ b.root + A + B :=
    mem_add.mpr (.inl (mem_add.mpr (.inr hip)))
  have hpos := h.pos_of_mem hmem
  have hvalid := h.valid ip hip
  rw [h1, State.refs_setInode, State.setInode_same]
  refine h.write rfl rfl hvalid ?_ hpos rfl rfl
  exact (hf _).trans_ne (h.same ip hpos hvalid).1

theorem Refs.stable {α : Type} {m : FsM α} (hm : KeepsRefs m) :
    Stable (fun _ => True) (fun fs => Refs b S A B fs.refs) m :=
  Keeps.stable hm fun _ _ h hr => by rwa [h]

theorem Refs.stable_itrunc (hip : ip ∈ A) :
    Stable (fun _ => True) (fun fs => Refs b S A B fs.refs) (itrunc ip) := by
  refine ⟨fun fs h => wp_imp wp_itrunc ?_⟩
  rintro _ fs1 ⟨h1, -, -⟩
  have hentry : (fs1.inode ip).entry = (fs.inode ip).entry := congrArg (fun v => v.entry ip) h1
  rw [h1]
  exact h.setDisk hip (congrArg Entry.type hentry) (congrArg Entry.nlink hentry)

theorem Refs.stable_writei {ε U : Type} {src : Nat → Nat → Prog ε U (List UInt8 × Bool)} {off : Nat}
    (hip : ip ∈ A) :
    Stable (OnFs fun _ => True) (fun s => Refs b S A B s.1.refs) (writei ip src off n) := by
  refine .bind (stable_onFs (Refs.stable (.gets _))) fun _ => .ite (.pure _) (.ite (.pure _) ?_)
  refine .bind (stable_writeLoop
    (fun _ => Refs.stable keepsRefs_bmap) (fun _ => Refs.stable keepsNodes_logWrite.refs)
    (fun _ _ h => h) _ _ _) ?_
  rintro ⟨tot, off'⟩
  refine ⟨fun s h => ?_⟩
  have hupdate := Refs.wp_update h hip
    (f := fun d => { d with size := if d.size < off' then off' else d.size }) fun _ => rfl
  simp only [wp_bind, wp_pure]
  rw [onFs, wp_zoom]
  refine wp_mono hupdate (fun _ fs1 h1 => ?_) fun _ _ => trivial
  rw [onFs, wp_zoom]
  exact wp_mono h1 (fun _ _ h2 => h2) fun _ _ => trivial

/-- Every operation on inodes keeps the table in order and the references counted. -/
theorem refs_accounting (b : RefBase) :
    Accounting (fun _ => True) (fun S A B fs => Refs b S A B fs.refs) where
  stops _ _ := trivial
  loosen h := h.loosen
  beginOp := Refs.stable keepsNodes_beginOp.refs
  endOp := Refs.stable keepsNodes_endOp.refs
  iget h := wp_imp h.wp_iget fun _ _ h' => h'.1
  idup hip h := h.wp_idup hip
  ilock h := wp_imp h.wp_ilock fun _ _ h' => h'.1
  iunlock := Refs.stable keepsRefs_iunlock
  iput h := h.wp_iput
  ialloc htype h := h.wp_ialloc htype
  update hip hf h := h.wp_update hip fun d => (hf d).1
  itrunc hip := Refs.stable_itrunc hip
  readi _ := stable_readi fun _ => Refs.stable keepsRefs_bmap
  writei hip := Refs.stable_writei hip
  skip h hno := by
    refine { h with kept := fun i hi htype hlink => ?_ }
    rcases hi with rfl | hi
    · exact absurd ⟨htype, hlink⟩ hno
    · exact h.kept i hi htype hlink
  take h := by
    refine wp_imp h.wp_iget ?_
    rintro ip fs1 ⟨h1, hinum⟩
    refine keepsNodes_beginOp.andThen rfl fun _ fs2 h2 => ?_
    have hrefs : fs2.refs = fs1.refs := refs_eq_of_nodes h2
    rw [← hrefs] at h1
    refine wp_imp h1.wp_ilock ?_
    rintro _ fs3 ⟨h3, hinum'⟩
    refine h3.sweep (mem_cons_self ip _) (hinum'.trans ?_)
    rw [(Prod.mk.inj h2).1, hinum]

/-- The references are counted, and `P` holds. -/
structure Carrying (P : State → Prop) (b : RefBase) (S : Set Nat) (A B : Multiset IPtr)
    (fs : State) : Prop where
  refs : Refs b S A B fs.refs
  also : P fs

theorem carrying_true (b : RefBase) :
    Carrying (fun _ => True) b = fun S A B fs => Refs b S A B fs.refs := by
  funext S A B fs
  exact propext ⟨Carrying.refs, fun h => ⟨h, trivial⟩⟩

theorem Carrying.rebase {P : State → Prop} {root : Multiset IPtr}
    (h : Carrying P ⟨n, disk, root⟩ S A B fs) : Carrying P ⟨n, fs.dinode, root⟩ S A B fs :=
  ⟨h.refs.rebase, h.also⟩

/-! ### Boot -/

variable {E : Panic → Prop} {P : State → Prop}

/-- Nobody has used the inode table. -/
theorem Refs.start (h : ∀ ip, (fs.inode ip).ref = 0) :
    Refs ⟨fs.sb.ninodes, fs.dinode, 0⟩ ∅ 0 0 fs.refs := by
  have hzero : ∀ ip, ¬ 0 < (fs.refs.entry ip).ref := by
    intro ip hpos
    rw [show (fs.refs.entry ip).ref = 0 from h ip] at hpos
    exact lt_irrefl 0 hpos
  exact ⟨rfl, fun ip => h ip, fun x _ hx => absurd hx (hzero x), nofun, nofun,
    fun ip hip => absurd hip (hzero ip), nofun, fun _ hi hfree => absurd hfree hi⟩

/-- `namei("/")` by `userinit`. -/
theorem wp_namei_root (acct : ∀ b, Accounting E (Carrying P b))
    (h : ∀ ip, (fs.inode ip).ref = 0) (hP : P fs) :
    wp (namei none [slash]) (fun r fs' => ∃ ip, r = some ip ∧
      Refs ⟨fs'.sb.ninodes, fs'.dinode, {ip}⟩ ∅ 0 0 fs'.refs ∧ P fs') E fs := by
  unfold namei namex
  rw [if_pos (List.head?_cons ..), wp_bind, wp_bind]
  have hstart := Refs.start h
  refine wp_imp (wp_and ((acct _).iget ⟨hstart, hP⟩) hstart.wp_iget) ?_
  rintro ip fs' ⟨⟨-, hP'⟩, h', hinum⟩
  -- the path has no element
  rw [show namexLoop false [slash].length ip [slash] = pure (some (ip, [])) from rfl, wp_pure,
    wp_pure]
  have hpin := (h'.pin hinum).rebase
  rw [← show fs'.sb.ninodes = fs.sb.ninodes from h'.ninodes] at hpin
  exact ⟨ip, rfl, hpin, hP'⟩

/-- The first path from the root: its directory is read, and so is the current
directory of the first process. -/
theorem wp_namei_unpin (acct : ∀ b, Accounting E (Carrying P b)) {fuel : Nat} {cwd : Option IPtr}
    {path name rest : Path} (hhead : path.head? = some slash)
    (hskip : skipelem path = some (name, rest)) (hlen : path.length = fuel + 1)
    (h : Carrying P ⟨n, disk, {r}⟩ S A B fs) :
    wp (namei cwd path) (Accounting.FoundInode (Carrying P ⟨n, disk, 0⟩) S (r ::ₘ A) B) E fs := by
  rw [namei, wp_bind]
  unfold namex
  rw [if_pos hhead]
  refine wp_then (wp_and ((acct _).iget h) h.refs.wp_iget) ?_
  rintro ip fs1 ⟨h1, -, hinum1⟩
  rw [hlen]
  have acct0 := acct ⟨n, disk, 0⟩
  refine wp_imp (acct0.namexLoop_locked (S := S) (A := r ::ₘ A) (B := B) hskip
    (fun hfs => acct0.namexLoop fuel hfs) ?_) ?_
  · refine wp_imp (wp_and ((acct _).ilock h1) h1.refs.wp_ilock) ?_
    rintro _ fs2 ⟨⟨-, hP2⟩, h2, hinum2⟩
    exact ⟨h2.unpin (hinum2.trans hinum1), hP2⟩
  · rintro (_ | ⟨ip, name⟩) fs2 h2 <;> exact wp_pure.mpr h2

end Xv6.Fs
