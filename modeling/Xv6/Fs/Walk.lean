import Mathlib.Algebra.Order.Group.Multiset
import Xv6.Fs.Calls
import Xv6.Fs.Contents

/-!
# xv6 — walking along paths

`namex` and what it calls change nothing on a disk in order: they take references to
inodes and give them back, and leave the one they return.

* `lookup`, `resolve` — what a name in a directory, and a path, stand for.
* `Ready`             — a file system between two calls.
* `Walked fs0 A fs`   — `fs` is `fs0` but for the inode table, where the references in
  `A` were added.
* `wp_dirlookup`, `wp_namex` — the code finds what `lookup` and `resolve` say.
-/

namespace Xv6.Fs

open Prog ByteBuffer Multiset

variable {inum : Nat} {parent : Bool} {path : Path}

/-! ### Names -/

/-- Entry `k` of a directory. -/
def dirent (v : Volume) (i k : Nat) : Dirent :=
  Dirent.ofBytes (load (byteAt v.data (v.node i)) (k * DIRENT) DIRENT)

/-- The entry, if it is for `name`: the inode number and the offset of the entry. -/
def matchAt (v : Volume) (i : Nat) (name : Path) (k : Nat) : Option (Nat × Nat) :=
  if (dirent v i k).inum = 0 then none
  else if sameName name (dirent v i k).name then some ((dirent v i k).inum, k * DIRENT)
  else none

/-- The first entry for `name`. -/
def lookup (v : Volume) (i : Nat) (name : Path) : Option (Nat × Nat) :=
  (List.range (slots (v.node i).size)).findSome? (matchAt v i name)

/-- What a path stands for that starts at inode `i`: an inode number and, if the parent
is asked for, the last path element. -/
def resolve (v : Volume) (parent : Bool) : Nat → Nat → Path → Option (Nat × Path)
  | fuel, i, path =>
    match skipelem path, fuel with
    | none, _ => if parent then none else some (i, [])
    | some _, 0 => none
    | some (name, rest), fuel + 1 =>
      if (v.node i).type ≠ .dir then none
      else if parent = true ∧ rest = [] then some (i, name)
      else (lookup v i name).bind fun r => resolve v parent fuel r.1 rest

/-! ### The inode table during a walk -/

/-- The disk is in order; the inode table has one entry for an inode, which agrees with
the disk once it was read; and an allocated inode without links is in use. -/
structure Ready (fs : State) : Prop where
  sound : fs.volume.Sound
  nonneg : ∀ ip, 0 ≤ (fs.inode ip).ref
  unique : ∀ x y, 0 < (fs.inode x).ref → 0 < (fs.inode y).ref →
    (fs.inode x).inum = (fs.inode y).inum → x = y
  synced : ∀ ip, 0 < (fs.inode ip).ref → (fs.inode ip).valid = true →
    (fs.inode ip).d = fs.dinode (fs.inode ip).inum ∧ (fs.inode ip).d.type ≠ .free
  kept : ∀ i, (fs.dinode i).type ≠ .free → (fs.dinode i).nlink = 0 →
    ∃ ip, 0 < (fs.inode ip).ref ∧ (fs.inode ip).inum = i

/-- From `fs0` on, the references in `A` were taken, and nothing else has happened. -/
structure Walked (fs0 : State) (A : Multiset IPtr) (fs : State) : Prop where
  rest : fs = { fs0 with inode := fs.inode }
  count : ∀ ip, (fs.inode ip).ref = (fs0.inode ip).ref + A.count ip
  known : ∀ ip, 0 < (fs0.inode ip).ref → (fs.inode ip).inum = (fs0.inode ip).inum ∧
    ((fs0.inode ip).valid = true → (fs.inode ip).valid = true)
  unique : ∀ x y, 0 < (fs.inode x).ref → 0 < (fs.inode y).ref →
    (fs.inode x).inum = (fs.inode y).inum → x = y
  synced : ∀ ip, 0 < (fs.inode ip).ref → (fs.inode ip).valid = true →
    (fs.inode ip).d = fs.dinode (fs.inode ip).inum ∧ (fs.inode ip).d.type ≠ .free

variable {E : Panic → Prop} {fs0 fs : State} {A A' : Multiset IPtr} {ip : IPtr} {i : Inode}
  {f : Inode → Inode}

/-- The inode has been read. -/
structure Open (fs : State) (ip : IPtr) (inum : Nat) : Prop where
  pos : 0 < (fs.inode ip).ref
  valid : (fs.inode ip).valid = true
  inum : (fs.inode ip).inum = inum

theorem Open.setInode {x : IPtr} (h : Open fs x inum)
    (hf : x = ip → 0 < (f (fs.inode ip)).ref ∧ (f (fs.inode ip)).valid = (fs.inode ip).valid ∧
      (f (fs.inode ip)).inum = (fs.inode ip).inum) : Open (fs.setInode ip f) x inum := by
  by_cases hx : x = ip
  · obtain ⟨hpos, hvalid, hinum⟩ := hf hx
    subst hx
    have hsame : (fs.setInode x f).inode x = f (fs.inode x) := by simp [State.setInode]
    refine ⟨?_, ?_, ?_⟩ <;> rw [hsame]
    · exact hpos
    · rw [hvalid, h.valid]
    · rw [hinum, h.inum]
  · have hother : (fs.setInode ip f).inode x = fs.inode x := by simp [State.setInode, hx]
    refine ⟨?_, ?_, ?_⟩ <;> rw [hother]
    · exact h.pos
    · exact h.valid
    · exact h.inum

theorem inum_setInode {x : IPtr} (hf : ∀ i, (f i).inum = i.inum) :
    ((fs.setInode ip f).inode x).inum = (fs.inode x).inum := by
  by_cases hx : x = ip
  · subst hx
    simp [State.setInode, hf]
  · simp [State.setInode, hx]

theorem Ready.walked (h : Ready fs) : Walked fs 0 fs :=
  ⟨rfl, fun ip => by simp, fun ip _ => ⟨rfl, id⟩, h.unique, h.synced⟩

namespace Walked

theorem volume (h : Walked fs0 A fs) : fs.volume = fs0.volume := by
  rw [h.rest]
  rfl

theorem dinode (h : Walked fs0 A fs) : fs.dinode = fs0.dinode := by rw [h.rest]

theorem pos_of_mem (h0 : Ready fs0) (h : Walked fs0 A fs) (hip : ip ∈ A) :
    0 < (fs.inode ip).ref := by
  have hnonneg := h0.nonneg ip
  have hcount := count_pos.mpr hip
  rw [h.count]
  omega

/-- An entry is replaced. -/
theorem set (h : Walked fs0 A fs) (hf : f (fs.inode ip) = i)
    (href : i.ref = (fs0.inode ip).ref + A'.count ip)
    (hothers : ∀ x, x ≠ ip → A'.count x = A.count x)
    (hknown : 0 < (fs0.inode ip).ref → i.inum = (fs0.inode ip).inum ∧
      ((fs0.inode ip).valid = true → i.valid = true))
    (hunique : 0 < i.ref → ∀ x, x ≠ ip → 0 < (fs.inode x).ref → (fs.inode x).inum ≠ i.inum)
    (hsynced : 0 < i.ref → i.valid = true → i.d = fs.dinode i.inum ∧ i.d.type ≠ .free) :
    Walked fs0 A' (fs.setInode ip f) := by
  have hsame : (fs.setInode ip f).inode ip = i := by simp [State.setInode, hf]
  have hother : ∀ x, x ≠ ip → (fs.setInode ip f).inode x = fs.inode x := by
    intro x hx
    simp [State.setInode, hx]
  refine ⟨?_, fun x => ?_, fun x hx => ?_, fun x y hx hy hxy => ?_, fun x hx hvalid => ?_⟩
  · rw [State.setInode, h.rest]
  · by_cases hxp : x = ip
    · rw [hxp, hsame, href]
    · rw [hother x hxp, h.count, hothers x hxp]
  · by_cases hxp : x = ip
    · rw [hxp] at hx ⊢
      rw [hsame]
      exact hknown hx
    · rw [hother x hxp]
      exact h.known x hx
  · by_cases hxp : x = ip <;> by_cases hyp : y = ip
    · rw [hxp, hyp]
    · rw [hxp, hsame] at hx hxy
      rw [hother y hyp] at hy hxy
      exact absurd hxy.symm (hunique hx y hyp hy)
    · rw [hyp, hsame] at hy hxy
      rw [hother x hxp] at hx hxy
      exact absurd hxy (hunique hy x hxp hx)
    · rw [hother x hxp] at hx hxy
      rw [hother y hyp] at hy hxy
      exact h.unique x y hx hy hxy
  · by_cases hxp : x = ip
    · rw [hxp, hsame] at hx hvalid ⊢
      exact hsynced hx hvalid
    · rw [hother x hxp] at hx hvalid ⊢
      exact h.synced x hx hvalid

/-- The count of an entry in use changes, or its lock. -/
theorem recount (h : Walked fs0 A fs) (hpos : 0 < (fs.inode ip).ref)
    (hf : (f (fs.inode ip)).inum = (fs.inode ip).inum ∧
      (f (fs.inode ip)).valid = (fs.inode ip).valid ∧ (f (fs.inode ip)).d = (fs.inode ip).d)
    (href : (f (fs.inode ip)).ref = (fs0.inode ip).ref + A'.count ip)
    (hothers : ∀ x, x ≠ ip → A'.count x = A.count x) : Walked fs0 A' (fs.setInode ip f) := by
  obtain ⟨hinum, hvalid, hd⟩ := hf
  refine h.set rfl href hothers (fun h0 => ?_) (fun _ x hx hx' heq => ?_) fun _ hv => ?_
  · rw [hinum, hvalid]
    exact h.known ip h0
  · rw [hinum] at heq
    exact hx (h.unique x ip hx' hpos heq)
  · rw [hvalid] at hv
    rw [hd, hinum]
    exact h.synced ip hpos hv

/-! ### Operations on inodes -/

theorem wp_iget (h : Walked fs0 A fs) (hE : (∀ x, (fs.inode x).ref ≠ 0) → E .igetNoInodes) :
    wp (iget inum) (fun ip fs' => Walked fs0 (ip ::ₘ A) fs' ∧ (fs'.inode ip).inum = inum ∧
      ∀ x i, Open fs x i → Open fs' x i) E fs := by
  rw [iget, wp_bind, wp_gets]
  split
  · rename_i ip hfind
    obtain ⟨hpos, hinum⟩ : 0 < (fs.inode ip).ref ∧ (fs.inode ip).inum = inum := by
      simpa using List.find?_some hfind
    rw [wp_bind, setInode, wp_modify]
    refine wp_pure.mpr ⟨h.recount hpos ⟨rfl, rfl, rfl⟩ ?_ fun x hx => ?_, ?_, fun x i hx =>
      hx.setInode fun _ => ⟨Int.lt_add_one_of_le hpos.le, rfl, rfl⟩⟩
    · have hcount := h.count ip
      rw [count_cons_self]
      push_cast
      omega
    · exact count_cons_of_ne hx A
    · simpa [State.setInode] using hinum
  · rename_i hnone
    split
    · rename_i hfull
      refine wp_stop.mpr (hE fun x => ?_)
      simpa using List.find?_eq_none.mp hfull x (List.mem_finRange x)
    · rename_i ip hfind
      have hzero : (fs.inode ip).ref = 0 := by simpa using List.find?_some hfind
      have hcount := h.count ip
      rw [wp_bind, setInode, wp_modify]
      refine wp_pure.mpr ⟨h.set rfl ?_ (fun x hx => ?_) (fun hpos => ?_) (fun _ x _ hpos heq => ?_)
        (by intros; contradiction), ?_, fun x i hx => hx.setInode fun heq => ?_⟩
      · rw [count_cons_self]
        push_cast
        omega
      · exact count_cons_of_ne hx A
      · omega
      · have hno := List.find?_eq_none.mp hnone x (List.mem_finRange x)
        simp only [decide_eq_true_eq, not_and] at hno
        exact hno hpos heq
      · simp [State.setInode]
      · have hpos := hx.pos
        rw [heq] at hpos
        omega

theorem wp_idup (h : Walked fs0 A fs) (hpos : 0 < (fs.inode ip).ref) :
    wp (idup ip) (fun _ fs' => Walked fs0 (ip ::ₘ A) fs' ∧
      (fs'.inode ip).inum = (fs.inode ip).inum) E fs := by
  rw [idup, setInode, wp_modify]
  refine ⟨h.recount hpos ⟨rfl, rfl, rfl⟩ ?_ fun x hx => count_cons_of_ne hx A, ?_⟩
  · have hcount := h.count ip
    rw [count_cons_self]
    push_cast
    omega
  · simp [State.setInode]

theorem wp_ilock (h : Walked fs0 A fs) (hpos : 0 < (fs.inode ip).ref)
    (hE : E .hang ∧ E .ilockNoType) :
    wp (ilock ip) (fun _ fs' => Walked fs0 A fs' ∧ Open fs' ip (fs.inode ip).inum ∧
      ∀ x i, Open fs x i → Open fs' x i) E fs := by
  rw [ilock, wp_bind, wp_gets]
  dsimp only [id]
  rw [if_neg (by omega), wp_ite]
  refine ⟨fun _ => wp_stop.mpr hE.1, fun _ => wp_ite.mpr ⟨fun hvalid => ?_, fun hnot => ?_⟩⟩
  · rw [setInode, wp_modify]
    have hopen : Open fs ip (fs.inode ip).inum := ⟨hpos, hvalid, rfl⟩
    have hkeep : ∀ x i, Open fs x i →
        Open (fs.setInode ip fun i => { i with locked := true }) x i :=
      fun x i hx => hx.setInode fun _ => ⟨hpos, rfl, rfl⟩
    exact ⟨h.recount hpos ⟨rfl, rfl, rfl⟩ (h.count ip) fun _ _ => rfl, hkeep _ _ hopen, hkeep⟩
  · refine wp_ite.mpr ⟨fun _ => wp_stop.mpr hE.2, fun htype => ?_⟩
    rw [setInode, wp_modify]
    refine ⟨h.set rfl (h.count ip) (fun _ _ => rfl) (fun h0 => ⟨(h.known ip h0).1, fun _ => rfl⟩)
      (fun _ x hx hx' heq => hx (h.unique x ip hx' hpos heq)) fun _ _ => ⟨rfl, htype⟩, ⟨?_, ?_, ?_⟩,
      fun x i hx => hx.setInode fun heq => absurd hx.valid (heq ▸ hnot)⟩
    · simpa [State.setInode]
    · simp [State.setInode]
    · simp [State.setInode]

theorem wp_iunlock (h : Walked fs0 A fs) (hpos : 0 < (fs.inode ip).ref) (hE : E .iunlock) :
    wp (iunlock ip) (fun _ fs' => Walked fs0 A fs' ∧ (∀ x, (fs'.inode x).inum = (fs.inode x).inum) ∧
      ∀ x inum, Open fs x inum → Open fs' x inum) E fs := by
  rw [iunlock, wp_bind, wp_gets, wp_ite]
  refine ⟨fun _ => wp_stop.mpr hE, fun _ => ?_⟩
  rw [setInode, wp_modify]
  exact ⟨h.recount hpos ⟨rfl, rfl, rfl⟩ (h.count ip) fun _ _ => rfl,
    fun x => inum_setInode fun _ => rfl, fun x inum hx => hx.setInode fun _ => ⟨hpos, rfl, rfl⟩⟩

/-- A reference that was taken is given back. The inode is not freed: one without links
was in use before. -/
theorem iput_eq (h0 : Ready fs0) (h : Walked fs0 (ip ::ₘ A) fs) :
    iput ip fs = .ok ((), fs.setInode ip fun i => { i with ref := i.ref - 1 }) := by
  have hpos := h.pos_of_mem h0 (mem_cons_self ip A)
  have hcount := h.count ip
  have hnonneg := h0.nonneg ip
  rw [count_cons_self] at hcount
  push_cast at hcount
  have hkeep : ¬ ((fs.inode ip).ref = 1 ∧ (fs.inode ip).valid = true ∧
      (fs.inode ip).d.nlink = 0) := by
    rintro ⟨hone, hvalid, hlink⟩
    obtain ⟨hd, htype⟩ := h.synced ip hpos hvalid
    rw [hd, h.dinode] at hlink htype
    obtain ⟨x, hx, hinum⟩ := h0.kept _ htype hlink
    have hx' : 0 < (fs.inode x).ref := by
      rw [h.count]
      omega
    have heq := h.unique x ip hx' hpos ((h.known x hx).1.trans hinum)
    rw [heq] at hx
    omega
  rw [iput, bind_of_ok rfl, when, if_neg hkeep]
  rfl

theorem wp_iput (h0 : Ready fs0) (h : Walked fs0 (ip ::ₘ A) fs) :
    wp (iput ip) (fun _ fs' => Walked fs0 A fs' ∧ (∀ x, (fs'.inode x).inum = (fs.inode x).inum) ∧
      ∀ x i, x ≠ ip → Open fs x i → Open fs' x i) E fs := by
  refine wp_of_ok (h.iput_eq h0) ⟨h.recount (h.pos_of_mem h0 (mem_cons_self ip A))
    ⟨rfl, rfl, rfl⟩ ?_ fun x hx => (count_cons_of_ne hx A).symm, fun x => ?_,
    fun x i hne hx => hx.setInode fun heq => absurd heq hne⟩
  · have hcount := h.count ip
    rw [count_cons_self] at hcount
    change (fs.inode ip).ref - 1 = _
    omega
  · exact inum_setInode fun _ => rfl

theorem wp_iunlockput (h0 : Ready fs0) (h : Walked fs0 (ip ::ₘ A) fs) (hE : E .iunlock) :
    wp (iunlockput ip) (fun _ fs' => Walked fs0 A fs' ∧
      (∀ x, (fs'.inode x).inum = (fs.inode x).inum) ∧
      ∀ x i, x ≠ ip → Open fs x i → Open fs' x i) E fs := by
  refine wp_then (h.wp_iunlock (h.pos_of_mem h0 (mem_cons_self ip A)) hE) ?_
  rintro _ fs1 ⟨h1, hinum1, hopen1⟩
  refine wp_imp (h1.wp_iput h0) ?_
  rintro _ fs2 ⟨h2, hinum2, hopen2⟩
  exact ⟨h2, fun x => (hinum2 x).trans (hinum1 x),
    fun x i hne hx => hopen2 x i hne (hopen1 x i hx)⟩

/-- Reading an inode that is open. -/
theorem whole (h0 : Ready fs0) (h : Walked fs0 A fs) (ho : Open fs ip inum) :
    Whole fs.data (fs.inode ip).d := by
  obtain ⟨hd, htype⟩ := h.synced ip ho.pos ho.valid
  have hwhole := h0.sound.whole (fs.inode ip).inum
  rw [← h.volume] at hwhole
  rw [hd] at htype ⊢
  exact hwhole htype

theorem node (h : Walked fs0 A fs) (ho : Open fs ip inum) :
    (fs.inode ip).d = fs0.volume.node inum := by
  rw [(h.synced ip ho.pos ho.valid).1, ho.inum, h.dinode]
  rfl

theorem data_eq (h : Walked fs0 A fs) : fs.data = fs0.volume.data := by
  rw [h.rest]
  rfl

/-! ### Directories -/

/-- An entry below the end of a directory in order is read. -/
theorem readLen_dirent {d : Dinode} (hsize : d.size ≤ MAXFILE * BSIZE) (hdvd : DIRENT ∣ d.size)
    {k : Nat} (hk : k < slots d.size) : readLen d (k * DIRENT) DIRENT = DIRENT := by
  obtain ⟨n, hn⟩ := hdvd
  rw [slots] at hk
  rw [readLen]
  rw [MAXFILE_eq, BSIZE_eq] at hsize
  rw [show DIRENT = 16 from rfl] at *
  rw [if_neg (by omega), if_neg (by omega)]

theorem wp_readDirent {k : Nat} {e : Panic} (h0 : Ready fs0) (h : Walked fs0 A fs)
    (ho : Open fs ip inum)
    (hE : readLen (fs0.volume.node inum) (k * DIRENT) DIRENT ≠ DIRENT → E e) :
    wp (readDirent ip (k * DIRENT) e)
      (fun de fs' => fs' = fs ∧ de = dirent fs0.volume inum k) E fs := by
  rw [readDirent, wp_bind]
  refine wp_mono (wp_readiKernel (h.whole h0 ho)) ?_ fun _ he => he.elim
  rintro _ fs' ⟨rfl, rfl⟩
  rw [wp_ite]
  rw [ne_eq, Int.natCast_inj, h.node ho, h.data_eq]
  refine ⟨fun hlen => wp_stop.mpr (hE hlen), fun hlen => wp_pure.mpr ⟨rfl, ?_⟩⟩
  rw [not_not.mp hlen]
  rfl

/-- What a search in a directory leaves. -/
def Found (fs0 : State) (A : Multiset IPtr) (r : Option (Nat × Nat)) (a : Option (IPtr × Nat))
    (fs : State) : Prop :=
  match r, a with
  | none, none => Walked fs0 A fs
  | some (inum, off), some (ip, off') => Walked fs0 (ip ::ₘ A) fs ∧
      (fs.inode ip).inum = inum ∧ off' = off
  | _, _ => False

end Walked

/-- What can go wrong on a path. -/
def Panic.ofPath : Panic → Bool
  | .igetNoInodes | .ilockNoType | .iunlock | .dirlookupRead | .hang | .wild => true
  | _ => false

namespace Walked

/-- **`dirlookup`** finds what the directory holds. -/
theorem wp_dirlookup {name : Path} (h0 : Ready fs0) (h : Walked fs0 A fs) (ho : Open fs ip inum)
    (hdir : (fs0.volume.node inum).type = .dir)
    (hget : (∀ x, (fs.inode x).ref ≠ 0) → E .igetNoInodes)
    (hread : ¬ DIRENT ∣ (fs0.volume.node inum).size → E .dirlookupRead) :
    wp (dirlookup ip name) (fun a fs' => Found fs0 A (lookup fs0.volume inum name) a fs' ∧
      ∀ x i, Open fs x i → Open fs' x i) E fs := by
  have hwhole := h.whole h0 ho
  rw [h.node ho] at hwhole
  rw [dirlookup, wp_bind, dinodeOf, wp_gets, h.node ho, if_neg (not_not.mpr hdir), lookup]
  have hslots : ∀ k ∈ List.range (slots (fs0.volume.node inum).size),
      k < slots (fs0.volume.node inum).size := fun k => List.mem_range.mp
  generalize List.range (slots (fs0.volume.node inum).size) = ks at hslots ⊢
  induction ks with
  | nil => exact wp_pure.mpr ⟨h, fun _ _ => id⟩
  | cons k ks ih =>
    replace ih := ih fun k' hk' => hslots k' (List.mem_cons_of_mem k hk')
    rw [firstM, wp_bind]
    refine wp_then (h.wp_readDirent h0 ho fun hlen => hread fun hdvd => hlen ?_) ?_
    · exact readLen_dirent hwhole.size_le hdvd (hslots k (List.mem_cons_self ..))
    rintro _ fs' ⟨rfl, rfl⟩
    rw [List.findSome?_cons, matchAt, wp_ite]
    refine ⟨fun hzero => ?_, fun hne => wp_ite.mpr ⟨fun hname => ?_, fun hname => ?_⟩⟩
    · rw [if_pos hzero]
      exact wp_pure.mpr ih
    · rw [if_neg hne, if_pos hname]
      refine wp_then (h.wp_iget hget) ?_
      rintro next fs1 ⟨h1, hinum, hopen⟩
      exact wp_pure.mpr (wp_pure.mpr ⟨⟨h1, hinum, rfl⟩, hopen⟩)
    · rw [if_neg hne, if_neg hname]
      exact wp_pure.mpr ih

/-! ### Paths -/

/-- What a walk along a path leaves. -/
def Reached (fs0 : State) (A : Multiset IPtr) (r : Option (Nat × Path)) (a : Option (IPtr × Path))
    (fs : State) : Prop :=
  match r, a with
  | none, none => Walked fs0 A fs
  | some (inum, name), some (ip, name') => Walked fs0 (ip ::ₘ A) fs ∧
      (fs.inode ip).inum = inum ∧ name' = name
  | _, _ => False

/-- At the end of the path. -/
theorem wp_pathEnd (h0 : Ready fs0) (h : Walked fs0 (ip ::ₘ A) fs) : wp (if parent then do
      iput ip
      pure none
    else pure (some (ip, [])))
      (Reached fs0 A (if parent then none else some ((fs.inode ip).inum, []))) E fs := by
  cases parent with
  | true =>
    exact wp_then (h.wp_iput h0) fun _ fs1 h1 => wp_pure.mpr h1.1
  | false => exact wp_pure.mpr ⟨h, rfl, rfl⟩

theorem wp_namexLoop (hE : ∀ e, e.ofPath = true → E e) (h0 : Ready fs0) (fuel : Nat) {ip : IPtr}
    (h : Walked fs0 (ip ::ₘ A) fs) : wp (namexLoop parent fuel ip path)
      (Reached fs0 A (resolve fs0.volume parent fuel (fs.inode ip).inum path)) E fs := by
  induction fuel generalizing ip path fs with
  | zero =>
    unfold namexLoop resolve
    cases skipelem path with
    | none => exact wp_pathEnd h0 h
    | some r => exact wp_stop.mpr (hE _ rfl)
  | succ fuel ih =>
    unfold namexLoop resolve
    cases skipelem path with
    | none => exact wp_pathEnd h0 h
    | some r =>
      obtain ⟨name, rest⟩ := r
      dsimp only
      rw [wp_bind]
      have hpos := h.pos_of_mem h0 (mem_cons_self ip A)
      refine wp_imp (h.wp_ilock hpos ⟨hE _ rfl, hE _ rfl⟩) ?_
      rintro _ fs1 ⟨h1, ho, -⟩
      rw [wp_bind, dinodeOf, wp_gets, h1.node ho, wp_ite]
      refine ⟨fun hdir => ?_, fun hdir => ?_⟩
      · rw [if_pos hdir]
        exact wp_then (h1.wp_iunlockput h0 (hE _ rfl)) fun _ fs2 h2 => wp_pure.mpr h2.1
      rw [if_neg hdir, wp_ite]
      refine ⟨fun hlast => ?_, fun hmore => ?_⟩
      · rw [if_pos hlast]
        refine wp_then (h1.wp_iunlock ho.pos (hE _ rfl)) ?_
        rintro _ fs2 ⟨h2, hinum, -⟩
        exact wp_pure.mpr ⟨h2, (hinum ip).trans ho.inum, rfl⟩
      rw [if_neg hmore]
      refine wp_then (h1.wp_dirlookup h0 ho (not_not.mp hdir) (fun _ => hE _ rfl)
        fun _ => hE _ rfl) ?_
      rintro a fs2 ⟨hfound, -⟩
      cases hlook : lookup fs0.volume (fs.inode ip).inum name with
      | none =>
        rw [hlook] at hfound
        cases a with
        | some a => exact hfound.elim
        | none =>
          exact wp_then (Walked.wp_iunlockput h0 hfound (hE _ rfl)) fun _ fs3 h3 => wp_pure.mpr h3.1
      | some r =>
        rw [hlook] at hfound
        cases a with
        | none => exact hfound.elim
        | some a =>
          obtain ⟨next, off⟩ := a
          obtain ⟨inum, off'⟩ := r
          obtain ⟨h2, hinum, -⟩ := hfound
          rw [wp_bind]
          rw [cons_swap] at h2
          refine wp_imp (h2.wp_iunlockput h0 (hE _ rfl)) ?_
          rintro _ fs3 ⟨h3, hinum3, -⟩
          have hnext : wp (namexLoop parent fuel next rest) _ E fs3 := ih h3
          rwa [hinum3, hinum] at hnext

/-- The inode a path starts from. -/
def origin (fs : State) (cwd : Option IPtr) (path : Path) : Nat :=
  if path.head? = some slash then ROOTINO else cwd.elim 0 fun ip => (fs.inode ip).inum

/-- **`namex`** finds what the path stands for. -/
theorem wp_namex {cwd : Option IPtr} (hE : ∀ e, e.ofPath = true → E e) (h0 : Ready fs0)
    (h : Walked fs0 A fs) (hcwd : ∀ ip, cwd = some ip → 0 < (fs0.inode ip).ref) :
    wp (namex cwd path parent)
      (Reached fs0 A (resolve fs0.volume parent path.length (origin fs0 cwd path) path)) E fs := by
  unfold namex origin
  rw [wp_ite]
  refine ⟨fun hroot => ?_, fun hrel => ?_⟩
  · rw [if_pos hroot]
    refine wp_then (h.wp_iget fun _ => hE _ rfl) ?_
    rintro ip fs1 ⟨h1, hinum, -⟩
    rw [← hinum]
    exact h1.wp_namexLoop hE h0 _
  · rw [if_neg hrel]
    cases cwd with
    | none => exact wp_stop.mpr (hE _ rfl)
    | some ip =>
      have hpos : 0 < (fs.inode ip).ref := by
        have := hcwd ip rfl
        rw [h.count]
        omega
      refine wp_then (h.wp_idup hpos) ?_
      rintro _ fs1 ⟨h1, hinum⟩
      rw [Option.elim, ← (h.known ip (hcwd ip rfl)).1, ← hinum]
      exact h1.wp_namexLoop hE h0 _

/-- What `namei` leaves. -/
def ReachedInode (fs0 : State) (A : Multiset IPtr) (r : Option Nat) (a : Option IPtr)
    (fs : State) : Prop :=
  match r, a with
  | none, none => Walked fs0 A fs
  | some inum, some ip => Walked fs0 (ip ::ₘ A) fs ∧ (fs.inode ip).inum = inum
  | _, _ => False

theorem wp_namei {cwd : Option IPtr} (hE : ∀ e, e.ofPath = true → E e) (h0 : Ready fs0)
    (h : Walked fs0 A fs) (hcwd : ∀ ip, cwd = some ip → 0 < (fs0.inode ip).ref) :
    wp (namei cwd path) (ReachedInode fs0 A
      ((resolve fs0.volume false path.length (origin fs0 cwd path) path).map Prod.fst)) E fs := by
  refine wp_then (h.wp_namex hE h0 hcwd) fun a fs1 h1 => wp_pure.mpr ?_
  generalize resolve fs0.volume false path.length (origin fs0 cwd path) path = r at h1 ⊢
  rcases r with _ | ⟨inum, name⟩ <;> rcases a with _ | ⟨ip, name'⟩
  · exact h1
  · exact h1.elim
  · exact h1.elim
  · exact ⟨h1.1, h1.2.1⟩

end Walked

/-! ### A small disk -/

/-- An empty directory with one link. -/
def emptyDir : Dinode := { Dinode.zero with type := .dir, nlink := 1 }

/-- A disk of 24 blocks, the first three of them in use, with two empty directories: the
root directory and inode 2. The first two entries of the inode table are for them, the others
are free; `n` operations are going on. -/
def bare (n : Int) : State where
  sb := { size := 24, ninodes := 8, inodestart := 1, bmapstart := 2 }
  dinode i := if i = ROOTINO ∨ i = 2 then emptyDir else Dinode.zero
  bitmap b := b < 3
  data _ _ := 0
  inode ip := if ip.val < 2 then ⟨ip.val + 1, 1, true, false, emptyDir⟩
    else ⟨0, 0, false, false, .zero⟩
  outstanding := n
  lh := []

theorem bare_inode {n : Int} (h : 0 < ((bare n).inode ip).ref) :
    ip.val < 2 ∧ (bare n).inode ip = ⟨ip.val + 1, 1, true, false, emptyDir⟩ := by
  by_cases hip : ip.val < 2
  · exact ⟨hip, if_pos hip⟩
  · simp only [bare, hip, if_false, lt_self_iff_false] at h

theorem bare_dinode {n : Int} (i : Nat) (h : ((bare n).dinode i).type ≠ .free) :
    i = ROOTINO ∨ i = 2 := by
  by_contra hi
  exact h (by simp only [bare, if_neg hi, Dinode.zero])

theorem ready_bare (n : Int) : Ready (bare n) := by
  have hmeta : (bare n).volume.sb.nmeta = 3 := by
    change 2 + 24 / BPB + 1 = 3
    decide
  have hempty : ∀ i, ((bare n).volume.node i).size = 0 ∧ ∀ k,
      ((bare n).volume.node i).addrs k = 0 := by
    intro i
    by_cases hi : i = ROOTINO ∨ i = 2 <;> simp [State.volume, bare, hi, emptyDir, Dinode.zero]
  have hptrs : ∀ x, (bare n).volume.ptrs x = 0 := by
    intro x
    by_contra hne
    obtain ⟨-, -, hptr⟩ := Volume.ptrs_ne_zero hne
    rw [hptr, ptr_of_empty fun k _ => (hempty _).2 k] at hne
    exact hne rfl
  refine ⟨⟨show 24 ≤ 2 ^ 32 by decide, ?_, fun i _ => ⟨?_, fun bn hbn => ?_⟩⟩, fun ip => ?_,
    fun x y hx hy heq => ?_, fun ip hpos _ => ?_, fun i htype hlink => ?_⟩
  · rw [Volume.Exact, hmeta]
    refine ⟨by decide, fun b hb => decide_eq_true hb, fun x hx => absurd (hptrs x) hx,
      fun x y hx => absurd (hptrs x) hx, fun b hlo _ => ?_⟩
    have hused : (bare n).volume.bitmap b = true ↔ b < 3 := decide_eq_true_iff
    refine hused.trans ⟨fun hb => absurd hb (by omega), ?_⟩
    rintro ⟨x, hx⟩
    rw [hptrs] at hx
    omega
  · rw [(hempty i).1]
    exact Nat.zero_le _
  · rw [(hempty i).1] at hbn
    exact absurd hbn (Nat.not_lt_zero _)
  · by_cases hip : ip.val < 2 <;> simp only [bare, hip, if_true, if_false] <;> decide
  · rw [(bare_inode hx).2, (bare_inode hy).2] at heq
    exact Fin.ext (Nat.succ_injective heq)
  · obtain ⟨hlt, hip⟩ := bare_inode hpos
    have hinum : ip.val + 1 = ROOTINO ∨ ip.val + 1 = 2 := by
      rw [ROOTINO]
      omega
    rw [hip]
    exact ⟨(if_pos hinum).symm, by rintro ⟨⟩⟩
  · obtain rfl | rfl := bare_dinode i htype
    · exact ⟨0, Int.one_pos, rfl⟩
    · exact ⟨1, Int.one_pos, rfl⟩

end Xv6.Fs
