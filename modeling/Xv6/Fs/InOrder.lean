import Xv6.Fs.Refs
import Xv6.Fs.Walk

/-!
# xv6 — a disk in order stays in order

On a disk in order every block has one owner, the free map is right and no file has a
hole. `InOrder` adds that the inode table agrees with the disk. Every operation on
inodes keeps this, those included that stop half way because the disk is full or a
user's buffer is bad; so neither `bfree` finds a block free nor `bmap` a file too large.

* `InOrder.replace`   — one inode is replaced on disk.
* `order_accounting`  — the laws of the operations, with the references counted.
-/

namespace Xv6.Fs

open Prog Function

/-- The disk is in order, and the inode table agrees with it. -/
structure InOrder (fs : State) : Prop where
  sound : fs.volume.Sound
  range : ∀ i, (fs.dinode i).type ≠ .free → 1 ≤ i ∧ i < fs.sb.ninodes
  synced : ∀ ip, 0 < (fs.inode ip).ref → (fs.inode ip).valid = true →
    (fs.inode ip).d = fs.dinode (fs.inode ip).inum

/-- What the code that hands out blocks stops with. -/
def Panic.ofBlocks : Panic → Bool
  | .freeingFreeBlock | .bmapRange => true
  | _ => false

/-- The file system stops for another reason. -/
abbrev NotBlocks (e : Panic) : Prop := e.ofBlocks = false

variable {b : RefBase} {S : Set Nat} {A B : Multiset IPtr} {fs fs' : State} {ip : IPtr}
  {f : Inode → Inode}

theorem notBlocks_ofLog {e : Panic} (h : e.ofLog = true) : NotBlocks e := by
  cases e <;> first | rfl | cases h

theorem notBlocks_ofWalk {e : Panic} (h : e.ofWalk = true) : NotBlocks e := by
  cases e <;> first | rfl | cases h

/-- Nobody else uses the inode of entry `ip`. -/
def Alone (fs : State) (ip : IPtr) : Prop :=
  ∀ x, x ≠ ip → 0 < (fs.inode x).ref → (fs.inode x).inum ≠ (fs.inode ip).inum

theorem Refs.alone (h : Refs b S A B fs.refs) (hip : 0 < (fs.inode ip).ref) : Alone fs ip :=
  fun x hx hpos heq => hx (h.unique x ip hpos hip heq)

namespace InOrder

/-- An entry of the inode table changes. -/
theorem setInode (h : InOrder fs) (hf : 0 < (f (fs.inode ip)).ref →
      (f (fs.inode ip)).valid = true → (f (fs.inode ip)).d = fs.dinode (f (fs.inode ip)).inum) :
    InOrder (fs.setInode ip f) := by
  refine ⟨h.sound, h.range, fun x => ?_⟩
  by_cases hx : x = ip
  · rw [hx, State.setInode_same]
    exact hf
  · rw [show (fs.setInode ip f).inode x = fs.inode x by simp [State.setInode, hx]]
    exact h.synced x

/-- An inode is replaced on disk. -/
theorem replace {i : Nat} (h : InOrder fs) (haway : fs.volume.Elsewhere fs'.volume i)
    (hexact : fs'.volume.Exact) (hnode : (fs'.dinode i).type ≠ .free →
      (1 ≤ i ∧ i < fs.sb.ninodes) ∧ Whole fs'.data (fs'.dinode i))
    (hsynced : ∀ ip, 0 < (fs'.inode ip).ref → (fs'.inode ip).valid = true →
      (fs'.inode ip).d = fs'.dinode (fs'.inode ip).inum) : InOrder fs' := by
  have hsb : fs'.sb = fs.sb := haway.sb
  refine ⟨⟨?_, hexact, fun j htype => ?_⟩, fun j htype => ?_, hsynced⟩
  · rw [haway.sb]
    exact h.sound.size_le
  · by_cases hj : j = i
    · rw [hj] at htype ⊢
      exact (hnode htype).2
    · have htype' := htype
      rw [haway.others j hj] at htype'
      exact haway.whole hj htype' (h.sound.whole j htype')
  · rw [hsb]
    by_cases hj : j = i
    · rw [hj] at htype ⊢
      exact (hnode htype).1
    · rw [show fs'.dinode j = fs.dinode j from haway.others j hj] at htype
      exact h.range j htype

/-- The inode of entry `ip`, which agrees with the disk, is replaced in memory and on
disk. -/
theorem rewrite (h : InOrder fs) (halone : Alone fs ip)
    (haway : fs.volume.Elsewhere fs'.volume (fs.inode ip).inum) (hexact : fs'.volume.Exact)
    (hnode : (fs'.dinode (fs.inode ip).inum).type ≠ .free →
      (fs.dinode (fs.inode ip).inum).type ≠ .free ∧ Whole fs'.data (fs'.dinode (fs.inode ip).inum))
    (hothers : ∀ x, x ≠ ip → fs'.inode x = fs.inode x)
    (hsame : 0 < (fs'.inode ip).ref → (fs'.inode ip).valid = true →
      (fs'.inode ip).d = fs'.dinode (fs'.inode ip).inum) : InOrder fs' := by
  refine h.replace haway hexact (fun htype => ?_) fun x hx hvalid => ?_
  · obtain ⟨hold, hwhole⟩ := hnode htype
    exact ⟨h.range _ hold, hwhole⟩
  · by_cases hxp : x = ip
    · rw [hxp] at hx hvalid ⊢
      exact hsame hx hvalid
    · rw [hothers x hxp] at hx hvalid ⊢
      rw [h.synced x hx hvalid]
      exact (haway.others _ (halone x hxp hx)).symm

theorem working (h : InOrder fs) (hpos : 0 < (fs.inode ip).ref)
    (hvalid : (fs.inode ip).valid = true) : fs.working ip = fs.volume :=
  fs.working_eq ip (h.synced ip hpos hvalid)

theorem whole (h : InOrder fs) (hpos : 0 < (fs.inode ip).ref)
    (hvalid : (fs.inode ip).valid = true) (htype : (fs.inode ip).d.type ≠ .free) :
    Whole fs.data (fs.inode ip).d := by
  rw [h.synced ip hpos hvalid] at htype ⊢
  exact h.sound.whole _ htype

/-! ### Operations -/

theorem stable_beginOp : Stable NotBlocks InOrder beginOp :=
  .bind (.gets _) fun _ => .ite (.stop rfl) (.modify fun _ h => ⟨h.sound, h.range, h.synced⟩)

theorem stable_endOp : Stable NotBlocks InOrder endOp :=
  .modify fun _ h => ⟨h.sound, h.range, h.synced⟩

theorem wp_iget {inum : Nat} (h : InOrder fs) :
    wp (iget inum) (fun _ fs' => InOrder fs') NotBlocks fs := by
  rw [iget, wp_bind, wp_gets]
  split
  · rename_i ip hfind
    have hpos : 0 < (fs.inode ip).ref := by
      have := List.find?_some hfind
      simp only [decide_eq_true_eq] at this
      exact this.1
    rw [wp_bind, Fs.setInode, wp_modify]
    exact wp_pure.mpr (h.setInode fun _ hvalid => h.synced ip hpos hvalid)
  · split
    · exact wp_stop.mpr rfl
    · rw [wp_bind, Fs.setInode, wp_modify]
      exact wp_pure.mpr (h.setInode fun _ hvalid => by cases hvalid)

theorem wp_idup (h : InOrder fs) (hpos : 0 < (fs.inode ip).ref) :
    wp (idup ip) (fun _ fs' => InOrder fs') NotBlocks fs := by
  rw [idup, Fs.setInode, wp_modify]
  exact h.setInode fun _ hvalid => h.synced ip hpos hvalid

theorem wp_ilock (h : InOrder fs) : wp (ilock ip) (fun _ fs' => InOrder fs') NotBlocks fs := by
  rw [ilock, wp_bind, wp_gets]
  rw [wp_ite]
  refine ⟨fun _ => wp_stop.mpr rfl, fun hpos => wp_ite.mpr ⟨fun _ => wp_stop.mpr rfl, fun _ =>
    wp_ite.mpr ⟨fun _ => ?_, fun _ => wp_ite.mpr ⟨fun _ => wp_stop.mpr rfl, fun _ => ?_⟩⟩⟩⟩
  · rw [Fs.setInode, wp_modify]
    exact h.setInode fun hpos hvalid => h.synced ip hpos hvalid
  · rw [Fs.setInode, wp_modify]
    exact h.setInode fun _ _ => rfl

theorem stable_iunlock : Stable NotBlocks InOrder (iunlock ip) := by
  refine .bind (.gets _) fun _ => .ite (.stop rfl) (.modify fun fs h => ?_)
  exact h.setInode fun hpos hvalid => h.synced ip hpos hvalid

/-- Links change, in memory and on disk. -/
theorem wp_update {f : Dinode → Dinode} (h : InOrder fs) (hpos : 0 < (fs.inode ip).ref)
    (hvalid : (fs.inode ip).valid = true) (halone : Alone fs ip) (hf : LinksOnly f) :
    wp (setDinode ip f) (fun _ fs' => wp (iupdate ip) (fun _ fs'' => InOrder fs'')
      NotBlocks fs') NotBlocks fs := by
  obtain ⟨htype, hsize, haddrs⟩ := hf (fs.inode ip).d
  have hd := h.synced ip hpos hvalid
  rw [setDinode, Fs.setInode, wp_modify, iupdate, wp_bind, wp_modify, wp_bind, wp_gets]
  refine wp_logWrite (fun _ => notBlocks_ofLog) fun lh => ?_
  rw [State.setInode_same]
  have hexact := h.sound.exact.renode (n := update fs.dinode (fs.inode ip).inum
    (f (fs.inode ip).d)) (fun i => ?_) (fun i => ?_)
  · refine h.rewrite halone ⟨rfl, fun j hj => update_of_ne hj .., fun _ _ _ _ => rfl⟩
      hexact (fun hnew => ?_) (fun x hx => by simp [State.setInode, hx]) fun _ _ => ?_
    · change (update fs.dinode _ _ _).type ≠ _ at hnew
      change _ ∧ Whole fs.data (update fs.dinode _ _ _)
      rw [update_self] at hnew ⊢
      rw [htype, hd] at hnew
      have hwhole := h.sound.whole _ hnew
      refine ⟨hnew, by rw [hsize, hd]; exact hwhole.size_le, fun bn hbn => ?_⟩
      rw [hsize, hd] at hbn
      rw [ptr_congr (d := fs.dinode (fs.inode ip).inum) (fun k _ => by rw [haddrs, hd])
        fun _ => rfl]
      exact hwhole.mapped bn hbn
    · simp [State.setInode]
  · by_cases hi : i = (fs.inode ip).inum
    · rw [hi, update_self, htype, hd]
      rfl
    · rw [update_of_ne hi]
      rfl
  · by_cases hi : i = (fs.inode ip).inum
    · rw [hi, update_self, haddrs, hd]
      rfl
    · rw [update_of_ne hi]
      rfl

/-- An inode gives back all its blocks. -/
theorem wp_itrunc (h : InOrder fs) (hpos : 0 < (fs.inode ip).ref)
    (hvalid : (fs.inode ip).valid = true) (htype : (fs.inode ip).d.type ≠ .free)
    (halone : Alone fs ip) :
    wp (itrunc ip) (fun _ fs' => InOrder fs' ∧ ∃ d : Dinode, d.type = (fs.inode ip).d.type ∧
      (∀ k, k ≤ NDIRECT → d.addrs k = 0) ∧
      fs'.inode = update fs.inode ip { fs.inode ip with d := d }) NotBlocks fs := by
  have hd := h.synced ip hpos hvalid
  have hexact : (fs.working ip).Exact := by
    rw [h.working hpos hvalid]
    exact h.sound.exact
  refine wp_imp (wp_itrunc_blocks (fun _ => notBlocks_ofLog) hexact htype) ?_
  rintro _ _ ⟨addrs, bitmap, lh, hzero, rfl, hexact'⟩
  refine ⟨?_, { (fs.inode ip).d with size := 0, addrs := addrs }, rfl, hzero, rfl⟩
  refine h.rewrite halone ⟨rfl, fun j hj => update_of_ne hj .., fun _ _ _ _ => rfl⟩
    hexact' (fun _ => ?_) (fun x hx => fs.rework_inode_of_ne ip _ bitmap fs.data lh hx)
    fun _ _ => ?_
  · rw [hd] at htype
    refine ⟨htype, ?_⟩
    simp only [State.putNode, update_self]
    exact ⟨Nat.zero_le _, fun bn hbn => absurd hbn (Nat.not_lt_zero _)⟩
  · simp [State.putNode]

/-- An inode without blocks is marked free, on disk first. -/
theorem wp_retire (h : InOrder fs) (halone : Alone fs ip)
    (hd : (fs.inode ip).d = fs.dinode (fs.inode ip).inum)
    (hzero : ∀ k, k ≤ NDIRECT → (fs.inode ip).d.addrs k = 0) :
    wp (setDinode ip fun d => { d with type := .free }) (fun _ fs1 => wp (iupdate ip)
      (fun _ fs2 => wp (Fs.setInode ip fun i => { i with valid := false, locked := false })
        (fun _ fs' => InOrder fs' ∧ (fs'.inode ip).valid = false) NotBlocks fs2) NotBlocks fs1)
      NotBlocks fs := by
  rw [setDinode, Fs.setInode, wp_modify, iupdate, wp_bind, wp_modify, wp_bind, wp_gets]
  refine wp_logWrite (fun _ => notBlocks_ofLog) fun lh => ?_
  rw [Fs.setInode, wp_modify, State.setInode_same]
  have hexact := h.sound.exact.reset (i := (fs.inode ip).inum)
    (d := { (fs.inode ip).d with type := .free }) (fun k => ?_) hzero
  · refine ⟨h.rewrite halone ⟨rfl, fun j hj => update_of_ne hj .., fun _ _ _ _ => rfl⟩
      hexact (fun hnew => ?_) (fun x hx => ?_) fun _ hvalid => ?_, ?_⟩
    · change (update fs.dinode _ _ _).type ≠ _ at hnew
      rw [update_self] at hnew
      exact absurd rfl hnew
    · simp [State.setInode, hx]
    · rw [State.setInode_same] at hvalid
      cases hvalid
    · rw [State.setInode_same]
  · by_contra hne
    obtain ⟨-, -, hptr⟩ := Volume.ptrs_ne_zero hne
    rw [hptr, ptr_of_empty] at hne
    · exact hne rfl
    · change ∀ k, k ≤ NDIRECT → (fs.dinode (fs.inode ip).inum).addrs k = 0
      rwa [← hd]

/-- The last reference to an inode without links goes. -/
theorem wp_ifree (h : InOrder fs) (hpos : 0 < (fs.inode ip).ref)
    (hvalid : (fs.inode ip).valid = true) (htype : (fs.inode ip).d.type ≠ .free)
    (halone : Alone fs ip) :
    wp (ifree ip) (fun _ fs' => InOrder fs' ∧ (fs'.inode ip).valid = false) NotBlocks fs := by
  rw [ifree, wp_bind, wp_gets, wp_ite]
  refine ⟨fun _ => wp_stop.mpr rfl, fun _ => ?_⟩
  rw [wp_bind, Fs.setInode, wp_modify, wp_bind]
  have hlocked : (fs.setInode ip fun i => { i with locked := true }).inode ip =
      { fs.inode ip with locked := true } := State.setInode_same ..
  have h1 : InOrder (fs.setInode ip fun i => { i with locked := true }) :=
    h.setInode fun hpos hvalid => h.synced ip hpos hvalid
  have halone1 : Alone (fs.setInode ip fun i => { i with locked := true }) ip := by
    intro x hx
    rw [hlocked, State.setInode_of_ne _ _ hx]
    exact halone x hx
  refine wp_imp (h1.wp_itrunc (by rwa [hlocked]) (by rwa [hlocked]) (by rwa [hlocked]) halone1) ?_
  rintro _ fs2 ⟨h2, d, -, hzero, hinode⟩
  have hip : fs2.inode ip = { fs.inode ip with locked := true, d := d } := by
    rw [hinode, update_self, hlocked]
  have halone2 : Alone fs2 ip := by
    intro x hx
    rw [hinode, update_of_ne hx, update_self]
    exact halone1 x hx
  refine wp_then (h2.wp_retire halone2 ?_ ?_) fun _ fs3 h3 => ?_
  · exact h2.synced ip (by rwa [hip]) (by rwa [hip])
  · rwa [hip]
  · rw [wp_bind]
    exact h3

theorem wp_iput (h : InOrder fs) (hpos : 0 < (fs.inode ip).ref)
    (htype : (fs.inode ip).valid = true → (fs.inode ip).d.type ≠ .free) (halone : Alone fs ip) :
    wp (iput ip) (fun _ fs' => InOrder fs') NotBlocks fs := by
  rw [iput, wp_bind, wp_gets, wp_bind, wp_when]
  refine ⟨fun hlast => ?_, fun _ => ?_⟩
  · have hvalid := hlast.2.1
    refine wp_imp (h.wp_ifree hpos hvalid (htype hvalid) halone) ?_
    rintro _ fs1 ⟨h1, hinvalid⟩
    rw [Fs.setInode, wp_modify]
    refine h1.setInode fun _ hvalid' => ?_
    rw [hinvalid] at hvalid'
    cases hvalid'
  · rw [Fs.setInode, wp_modify]
    exact h.setInode fun _ hvalid => h.synced ip hpos hvalid

/-- `ialloc` marks an inode that nobody uses. -/
theorem wp_ialloc {type : IType} (h : InOrder fs)
    (hopen : ∀ x, 0 < (fs.inode x).ref → (fs.inode x).valid = true → (fs.inode x).d.type ≠ .free) :
    wp (ialloc type) (fun _ fs' => InOrder fs') NotBlocks fs := by
  rw [ialloc, wp_bind, wp_gets]
  split
  · exact wp_pure.mpr h
  · rename_i inum hfind
    have hfree : (fs.dinode inum).type = .free := by simpa using List.find?_some hfind
    have hrange : 1 ≤ inum ∧ inum < fs.sb.ninodes := by
      have hmem := List.mem_range'_1.mp (List.mem_of_find?_eq_some hfind)
      simp only [id] at hmem
      omega
    rw [wp_bind, wp_modify, wp_bind]
    refine wp_logWrite (fun _ => notBlocks_ofLog) fun lh => ?_
    rw [wp_bind]
    have hexact := h.sound.exact.reset (d := { Dinode.zero with type := type })
      (fun k => Volume.ptrs_of_free hfree) fun _ _ => rfl
    refine wp_imp (InOrder.wp_iget ?_) fun _ fs' h' => wp_pure.mpr h'
    refine h.replace ⟨rfl, fun j hj => update_of_ne hj .., fun _ _ _ _ => rfl⟩
      hexact (fun _ => ⟨hrange, ?_⟩) fun x hx hvalid => ?_
    · dsimp only
      rw [update_self]
      exact ⟨Nat.zero_le _, fun bn hbn => absurd hbn (Nat.not_lt_zero _)⟩
    · have hd := h.synced x hx hvalid
      refine hd.trans (update_of_ne (fun heq => ?_) ..).symm
      have htype := hopen x hx hvalid
      rw [hd, heq] at htype
      exact htype hfree

/-- Reading a file changes nothing. -/
theorem stable_readi {ε U : Type} {off n : Nat} {dst : Nat → List UInt8 → Prog ε U Bool}
    {P : State → Prop} (hP : ∀ fs, P fs → Whole fs.data (fs.inode ip).d) :
    Stable (Sum.elim (fun _ => False) fun _ => True) (fun s => P s.1) (readi ip dst off n) := by
  refine ⟨fun ⟨fs, u⟩ h => ?_⟩
  refine wp_imp (wp_readi (J := fun _ _ => True) (K := fun _ => True) (hP fs h)
    (fun tot m u _ _ => wp_imp (wp_true _ u) fun ok _ _ => ?_) trivial) fun _ s' h' => ?_
  · split <;> trivial
  · rw [h'.1]
    exact h

/-- Writing to a file. -/
theorem wp_writei {ε U : Type} {off n : Nat} {src : Nat → Nat → Prog ε U (List UInt8 × Bool)}
    {u : U} (h : InOrder fs) (hpos : 0 < (fs.inode ip).ref) (hvalid : (fs.inode ip).valid = true)
    (htype : (fs.inode ip).d.type ≠ .free) (halone : Alone fs ip) :
    wp (writei ip src off n) (fun _ s' => InOrder s'.1) (Sum.elim NotBlocks fun _ => True)
      (fs, u) := by
  have hd := h.synced ip hpos hvalid
  have hwork := h.working hpos hvalid
  refine wp_imp (Fs.wp_writei False (fun _ => 0) (J := fun _ _ => True) (K := fun _ => True)
    (fun _ => notBlocks_ofLog) (fun tot m u _ _ => wp_imp (wp_true _ u) fun r _ _ => ?_)
    h.sound.size_le htype (hwork ▸ h.sound.exact) (h.whole hpos hvalid htype) trivial) ?_
  · split
    · exact ⟨trivial, False.elim⟩
    · trivial
  rintro r s' (⟨-, rfl, -⟩ | ⟨tot, -, -, -, -, hwritten, -⟩)
  · exact h
  have haway := hwritten.away
  rw [hwork] at haway
  have hwhole := hwritten.whole
  obtain ⟨addrs, bitmap, data, lh, hs'⟩ := hwritten.frame
  have hnode : s'.1.dinode (fs.inode ip).inum = (s'.1.inode ip).d := by
    rw [hs']
    simp [State.putNode]
  refine h.rewrite halone haway hwritten.exact (fun _ => ⟨?_, ?_⟩) (fun x hx => ?_) fun _ _ => ?_
  · rwa [← hd]
  · rwa [hnode]
  · rw [hs']
    exact fs.rework_inode_of_ne ip _ bitmap data lh hx
  · have hinum : (s'.1.inode ip).inum = (fs.inode ip).inum := by
      rw [hs']
      simp [State.putNode]
    rw [hinum, hnode]

end InOrder

/-! ### The account -/

/-- The references are counted and the disk is in order. -/
abbrev Ordered : RefBase → Set Nat → Multiset IPtr → Multiset IPtr → State → Prop :=
  Carrying InOrder

namespace Ordered

/-- An inode that has been read. -/
theorem known (h : Ordered b S A B fs) (hip : ip ∈ A) : 0 < (fs.inode ip).ref ∧
    (fs.inode ip).valid = true ∧ (fs.inode ip).d.type ≠ .free ∧ Alone fs ip := by
  have hmem : ip ∈ b.root + A + B :=
    Multiset.mem_add.mpr (.inl (Multiset.mem_add.mpr (.inr hip)))
  have hpos : 0 < (fs.inode ip).ref := h.refs.pos_of_mem hmem
  have hvalid : (fs.inode ip).valid = true := h.refs.valid ip hip
  exact ⟨hpos, hvalid, (h.refs.same ip hpos hvalid).1, h.refs.alone hpos⟩

/-- What keeps the references counted and the disk in order. -/
theorem both {α : Type} {m : FsM α} {A' B' : α → Multiset IPtr}
    (hrefs : wp m (fun a fs' => Refs b S (A' a) (B' a) fs'.refs) (fun _ => True) fs)
    (horder : wp m (fun _ fs' => InOrder fs') NotBlocks fs) :
    wp m (fun a fs' => Ordered b S (A' a) (B' a) fs') NotBlocks fs :=
  wp_imp (wp_and horder hrefs) fun _ _ h => ⟨h.2, h.1⟩

theorem stable {α : Type} {m : FsM α}
    (hrefs : Stable (fun _ => True) (fun fs => Refs b S A B fs.refs) m)
    (horder : Stable NotBlocks InOrder m) : Stable NotBlocks (Ordered b S A B) m :=
  ⟨fun fs h => both (hrefs.wp fs h.refs) (horder.wp fs h.also)⟩

theorem wp_ilock (h : Ordered b S A (ip ::ₘ B) fs) :
    wp (ilock ip) (fun _ fs' => Ordered b S (ip ::ₘ A) B fs') NotBlocks fs :=
  both ((refs_accounting b).ilock h.refs) h.also.wp_ilock

end Ordered

/-- Every operation on inodes keeps the disk in order. -/
theorem order_accounting (b : RefBase) : Accounting NotBlocks (Ordered b) where
  stops _ he := notBlocks_ofWalk he
  loosen h := ⟨h.refs.loosen, h.also⟩
  beginOp := Ordered.stable (refs_accounting b).beginOp InOrder.stable_beginOp
  endOp := Ordered.stable (refs_accounting b).endOp InOrder.stable_endOp
  iget h := Ordered.both ((refs_accounting b).iget h.refs) h.also.wp_iget
  idup hip h := Ordered.both ((refs_accounting b).idup hip h.refs) (h.also.wp_idup (h.known hip).1)
  ilock h := h.wp_ilock
  iunlock := Ordered.stable (refs_accounting b).iunlock InOrder.stable_iunlock
  iput {S A B fs ip} h := by
    have hmem : ip ∈ b.root + A + ip ::ₘ B :=
      Multiset.mem_add.mpr (.inr (Multiset.mem_cons_self ip B))
    have hpos : 0 < (fs.inode ip).ref := h.refs.pos_of_mem hmem
    exact Ordered.both ((refs_accounting b).iput h.refs) (h.also.wp_iput hpos
      (fun hvalid => (h.refs.same ip hpos hvalid).1) (h.refs.alone hpos))
  ialloc htype h := by
    refine wp_imp (wp_and (h.also.wp_ialloc fun x hx hvalid => (h.refs.same x hx hvalid).1)
      ((refs_accounting b).ialloc htype h.refs)) ?_
    rintro (_ | ip) fs1 ⟨horder, hrefs⟩
    · exact ⟨hrefs, horder⟩
    · exact Ordered.both hrefs horder.wp_ilock
  update hip hf h := by
    obtain ⟨hpos, hvalid, -, halone⟩ := h.known hip
    refine wp_imp (wp_and (h.also.wp_update hpos hvalid halone hf)
      ((refs_accounting b).update hip hf h.refs)) ?_
    rintro _ fs1 ⟨horder, hrefs⟩
    exact Ordered.both hrefs horder
  itrunc hip := by
    refine ⟨fun fs h => ?_⟩
    obtain ⟨hpos, hvalid, htype, halone⟩ := h.known hip
    exact Ordered.both (((refs_accounting b).itrunc hip).wp fs h.refs)
      (wp_imp (h.also.wp_itrunc hpos hvalid htype halone) fun _ _ h' => h'.1)
  readi hip := by
    refine ⟨fun s h => wp_mono ((InOrder.stable_readi fun fs h => ?_).wp s h) (fun _ _ => id) ?_⟩
    · obtain ⟨hpos, hvalid, htype, -⟩ := Ordered.known h hip
      exact h.also.whole hpos hvalid htype
    · rintro (e | e) he
      · exact he.elim
      · trivial
  writei hip := by
    refine ⟨fun s h => ?_⟩
    obtain ⟨hpos, hvalid, htype, halone⟩ := h.known hip
    refine wp_imp (wp_and (h.also.wp_writei hpos hvalid htype halone)
      (((refs_accounting b).writei hip).wp s h.refs)) fun _ s' h' => ⟨h'.2, h'.1⟩
  skip h hno := ⟨(refs_accounting b).skip h.refs hno, h.also⟩
  take h := by
    refine wp_imp (wp_and h.also.wp_iget ((refs_accounting b).take h.refs)) ?_
    rintro ip fs1 ⟨horder1, hrefs1⟩
    refine wp_imp (wp_and (InOrder.stable_beginOp.wp fs1 horder1) hrefs1) ?_
    rintro _ fs2 ⟨horder2, hrefs2⟩
    exact Ordered.both hrefs2 horder2.wp_ilock

end Xv6.Fs
