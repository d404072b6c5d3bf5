import Xv6.Fs.Model
import Xv6.Lib.Allot

/-!
# xv6 — what is on a disk

Inodes, the free map and data blocks, without the programs that change them. An
inode has pointers to blocks: its addresses and, if it has an indirect block, the
entries of that.

* `Volume.Exact`     — no two pointers of allocated inodes are the same, and the free
  map marks the blocks that a pointer names, and those that hold no data.
* `Whole`            — an inode has a block for every part of its file.
* `byteAt`           — a byte of a file.
* `Volume.Elsewhere` — one inode was worked on, the others show the same files.
* `Volume.Grows`     — it has got more blocks, and nothing else was changed.
-/

namespace Xv6.Fs

open ByteBuffer Allotment Function

/-- Pointers of an inode. -/
def NPTR : Nat := NDIRECT + 1 + NINDIRECT

theorem NDIRECT_eq : NDIRECT = 12 := rfl
theorem NINDIRECT_eq : NINDIRECT = 256 := rfl
theorem MAXFILE_eq : MAXFILE = 268 := rfl
theorem NPTR_eq : NPTR = 269 := rfl
theorem BSIZE_eq : BSIZE = 1024 := rfl

/-- Pointer `k` of an inode, 0 if there is none: its addresses, then the entries of
its indirect block. -/
def ptr (data : Nat → Buffer) (d : Dinode) (k : Nat) : Nat :=
  if k ≤ NDIRECT then d.addrs k
  else if d.addrs NDIRECT = 0 then 0
  else indirect (data (d.addrs NDIRECT)) (k - (NDIRECT + 1))

/-- The number of the pointer to block `bn` of a file. -/
def place (bn : Nat) : Nat := if bn < NDIRECT then bn else bn + 1

/-- Byte `o` of a file. -/
def byteAt (data : Nat → Buffer) (d : Dinode) (o : Nat) : UInt8 :=
  data (ptr data d (place (o / BSIZE))) (o % BSIZE)

/-- The file has no hole and is not too large. -/
structure Whole (data : Nat → Buffer) (d : Dinode) : Prop where
  size_le : d.size ≤ MAXFILE * BSIZE
  mapped : ∀ bn, bn * BSIZE < d.size → ptr data d (place bn) ≠ 0

/-- What is on a disk. -/
structure Volume where
  sb : Superblock
  node : Nat → Dinode
  bitmap : Nat → Bool
  data : Nat → Buffer

/-- All pointers of allocated inodes. -/
def Volume.ptrs (v : Volume) (x : Nat × Nat) : Nat :=
  if x.2 < NPTR ∧ (v.node x.1).type ≠ .free then ptr v.data (v.node x.1) x.2 else 0

/-- Blocks have one owner, and the free map is right. -/
def Volume.Exact (v : Volume) : Prop :=
  Allotment.Exact v.ptrs v.bitmap v.sb.nmeta v.sb.size

variable {v v' v'' : Volume} {data data' : Nat → Buffer} {d : Dinode} {i j k b bn : Nat}

/-! ### Pointers -/

theorem place_lt (h : bn < MAXFILE) : place bn < NPTR := by
  rw [MAXFILE_eq] at h
  rw [place, NPTR_eq]
  split <;> omega

theorem place_ne_indirect (bn : Nat) : place bn ≠ NDIRECT := by
  rw [place]
  split <;> omega

theorem place_inj {bn' : Nat} (h : place bn = place bn') : bn = bn' := by
  rw [place, place] at h
  split at h <;> split at h <;> omega

theorem indirect_zero (j : Nat) : indirect (fun _ => 0) j = 0 := rfl

theorem indirect_put32 (buf : Buffer) (j : Nat) (hb : b < 2 ^ 32) :
    indirect (put32 buf (4 * j) b) j = b := by
  rw [indirect, le32_put32]
  exact Nat.mod_eq_of_lt hb

theorem indirect_put32_of_ne (buf : Buffer) {j j' : Nat} (h : j' ≠ j) :
    indirect (put32 buf (4 * j) b) j' = indirect buf j' := by
  rw [indirect, le32_put32_of_disjoint (by omega), indirect]

theorem ptr_addr (hk : k ≤ NDIRECT) : ptr data d k = d.addrs k := if_pos hk

theorem ptr_entry (hk : ¬ k ≤ NDIRECT) (hind : d.addrs NDIRECT ≠ 0) :
    ptr data d k = indirect (data (d.addrs NDIRECT)) (k - (NDIRECT + 1)) := by
  rw [ptr, if_neg hk, if_neg hind]

theorem ptr_entry_of_none (hk : ¬ k ≤ NDIRECT) (hind : d.addrs NDIRECT = 0) : ptr data d k = 0 := by
  rw [ptr, if_neg hk, if_pos hind]

theorem ptr_of_empty (h : ∀ k, k ≤ NDIRECT → d.addrs k = 0) : ptr data d k = 0 := by
  by_cases hk : k ≤ NDIRECT
  · rw [ptr_addr hk, h k hk]
  · exact ptr_entry_of_none hk (h NDIRECT le_rfl)

/-- Pointers depend on the inode and its indirect block only. -/
theorem ptr_congr {d' : Dinode} (haddrs : ∀ k, k ≤ NDIRECT → d'.addrs k = d.addrs k)
    (h : d.addrs NDIRECT ≠ 0 → data' (d.addrs NDIRECT) = data (d.addrs NDIRECT)) :
    ptr data' d' k = ptr data d k := by
  by_cases hk : k ≤ NDIRECT
  · rw [ptr_addr hk, ptr_addr hk, haddrs k hk]
  · have hsame := haddrs NDIRECT le_rfl
    by_cases hind : d.addrs NDIRECT = 0
    · rw [ptr_entry_of_none hk hind, ptr_entry_of_none hk (hsame.trans hind)]
    · rw [ptr_entry hk hind, ptr_entry hk (hsame ▸ hind), hsame, h hind]

theorem Volume.ptrs_eq (htype : (v.node i).type ≠ .free) (hk : k < NPTR) :
    v.ptrs (i, k) = ptr v.data (v.node i) k := if_pos ⟨hk, htype⟩

theorem Volume.ptrs_of_free (htype : (v.node i).type = .free) : v.ptrs (i, k) = 0 :=
  if_neg fun h => h.2 htype

theorem Volume.ptrs_ne_zero (h : v.ptrs (i, k) ≠ 0) :
    k < NPTR ∧ (v.node i).type ≠ .free ∧ v.ptrs (i, k) = ptr v.data (v.node i) k := by
  by_cases hc : k < NPTR ∧ (v.node i).type ≠ .free
  · exact ⟨hc.1, hc.2, if_pos hc⟩
  · exact absurd (if_neg hc) h

/-- The indirect block of an allocated inode is one of its pointers. -/
theorem Volume.ptrs_indirect (htype : (v.node i).type ≠ .free) :
    v.ptrs (i, NDIRECT) = (v.node i).addrs NDIRECT := by
  rw [v.ptrs_eq htype (by decide), ptr_addr le_rfl]

/-- All pointers of an inode are the same if it is, and its indirect block too. -/
theorem Volume.ptrs_congr (hnode : v'.node j = v.node j)
    (h : v.ptrs (j, NDIRECT) ≠ 0 → v'.data (v.ptrs (j, NDIRECT)) = v.data (v.ptrs (j, NDIRECT))) :
    v'.ptrs (j, k) = v.ptrs (j, k) := by
  by_cases htype : (v.node j).type = .free
  · rw [v.ptrs_of_free htype, v'.ptrs_of_free (hnode ▸ htype)]
  rw [v.ptrs_indirect htype] at h
  simp only [Volume.ptrs, hnode]
  congr 1
  exact ptr_congr (fun _ _ => rfl) h

/-! ### One inode is worked on -/

/-- Inodes other than `i` and their blocks are as they were. -/
structure Volume.Elsewhere (v v' : Volume) (i : Nat) : Prop where
  sb : v'.sb = v.sb
  others : ∀ j, j ≠ i → v'.node j = v.node j
  blocks : ∀ j k, j ≠ i → v.ptrs (j, k) ≠ 0 → v'.data (v.ptrs (j, k)) = v.data (v.ptrs (j, k))

namespace Volume.Elsewhere

theorem refl (v : Volume) (i : Nat) : v.Elsewhere v i :=
  ⟨rfl, fun _ _ => rfl, fun _ _ _ _ => rfl⟩

theorem ptrs (h : v.Elsewhere v' i) (hj : j ≠ i) : v'.ptrs (j, k) = v.ptrs (j, k) :=
  Volume.ptrs_congr (h.others j hj) (h.blocks j NDIRECT hj)

theorem trans (h : v.Elsewhere v' i) (h' : v'.Elsewhere v'' i) : v.Elsewhere v'' i := by
  refine ⟨h'.sb.trans h.sb, fun j hj => (h'.others j hj).trans (h.others j hj),
    fun j k hj hne => ?_⟩
  have hptr := h.ptrs (k := k) hj
  rw [← h.blocks j k hj hne, ← hptr]
  exact h'.blocks j k hj (hptr ▸ hne)

/-- Pointers of the other inodes. -/
theorem ptr (h : v.Elsewhere v' i) (hj : j ≠ i) (htype : (v.node j).type ≠ .free) (hk : k < NPTR) :
    ptr v'.data (v'.node j) k = ptr v.data (v.node j) k := by
  rw [← v.ptrs_eq htype hk, ← v'.ptrs_eq (h.others j hj ▸ htype) hk]
  exact h.ptrs hj

theorem whole (h : v.Elsewhere v' i) (hj : j ≠ i) (htype : (v.node j).type ≠ .free)
    (hw : Whole v.data (v.node j)) : Whole v'.data (v'.node j) := by
  refine ⟨by rw [h.others j hj]; exact hw.size_le, fun bn hbn => ?_⟩
  rw [h.others j hj] at hbn
  have hsize := hw.size_le
  rw [h.ptr hj htype (place_lt ?_)]
  · exact hw.mapped bn hbn
  · rw [BSIZE_eq] at *
    omega

/-- The files of the other inodes. -/
theorem byteAt (h : v.Elsewhere v' i) (hj : j ≠ i) (htype : (v.node j).type ≠ .free)
    (hw : Whole v.data (v.node j)) {o : Nat} (ho : o < (v.node j).size) :
    byteAt v'.data (v'.node j) o = byteAt v.data (v.node j) o := by
  have hsize := hw.size_le
  have hbn : o / BSIZE < MAXFILE := by
    rw [BSIZE_eq] at *
    omega
  have hmap := hw.mapped (o / BSIZE) (by rw [BSIZE_eq]; omega)
  have hblock := h.blocks j (place (o / BSIZE)) hj
  rw [v.ptrs_eq htype (place_lt hbn)] at hblock
  rw [Fs.byteAt, Fs.byteAt, h.ptr hj htype (place_lt hbn), hblock hmap]

end Volume.Elsewhere

/-- Inode `i` has got more blocks, and nothing else has changed but the entries of its
indirect block. -/
structure Volume.Grows (v v' : Volume) (i : Nat) : Prop extends Volume.Elsewhere v v' i where
  node : ∃ addrs, v'.node i = { v.node i with addrs := addrs }
  kept : ∀ k, v.ptrs (i, k) ≠ 0 → v'.ptrs (i, k) = v.ptrs (i, k)
  own : ∀ k, k ≠ NDIRECT → v.ptrs (i, k) ≠ 0 → v'.data (v.ptrs (i, k)) = v.data (v.ptrs (i, k))

namespace Volume.Grows

theorem refl (v : Volume) (i : Nat) : v.Grows v i :=
  ⟨.refl v i, ⟨_, rfl⟩, fun _ _ => rfl, fun _ _ _ => rfl⟩

theorem trans (h : v.Grows v' i) (h' : v'.Grows v'' i) : v.Grows v'' i := by
  obtain ⟨addrs, hnode⟩ := h.node
  obtain ⟨addrs', hnode'⟩ := h'.node
  refine ⟨h.toElsewhere.trans h'.toElsewhere, ⟨addrs', by rw [hnode', hnode]⟩, fun k hk => ?_,
    fun k hne hk => ?_⟩
  · have hk' := h.kept k hk
    exact (h'.kept k (hk' ▸ hk)).trans hk'
  · have hk' := h.kept k hk
    rw [← h.own k hne hk, ← hk']
    exact h'.own k hne (hk' ▸ hk)

theorem type (h : v.Grows v' i) : (v'.node i).type = (v.node i).type := by
  obtain ⟨addrs, hnode⟩ := h.node
  rw [hnode]

theorem ptr (h : v.Grows v' i) (htype : (v.node i).type ≠ .free) (hk : k < NPTR)
    (hne : ptr v.data (v.node i) k ≠ 0) : ptr v'.data (v'.node i) k = ptr v.data (v.node i) k := by
  rw [← v.ptrs_eq htype hk] at hne ⊢
  rw [← v'.ptrs_eq (h.type ▸ htype) hk]
  exact h.kept k hne

/-- A byte of a block the file had. -/
theorem byteAt (h : v.Grows v' i) (htype : (v.node i).type ≠ .free) {o : Nat}
    (ho : o / BSIZE < MAXFILE) (hne : Fs.ptr v.data (v.node i) (place (o / BSIZE)) ≠ 0) :
    byteAt v'.data (v'.node i) o = byteAt v.data (v.node i) o := by
  have hown := h.own (place (o / BSIZE)) (place_ne_indirect _)
  rw [v.ptrs_eq htype (place_lt ho)] at hown
  rw [Fs.byteAt, Fs.byteAt, h.ptr htype (place_lt ho) hne, hown hne]

end Volume.Grows

/-! ### A block is taken -/

/-- Address `k` of inode `i` is set to a new block. -/
def Volume.link (v : Volume) (i k b : Nat) : Volume where
  sb := v.sb
  node := update v.node i
    { v.node i with addrs := update (v.node i).addrs k b }
  bitmap := update v.bitmap b true
  data := update v.data b fun _ => 0

/-- Entry `j` of the indirect block `ind` is set to a new block. -/
def Volume.linkEntry (v : Volume) (ind j b : Nat) : Volume where
  sb := v.sb
  node := v.node
  bitmap := update v.bitmap b true
  data := update (update v.data b fun _ => 0) ind
    (put32 (update v.data b (fun _ => 0) ind) (4 * j) b)

namespace Volume.Exact

theorem ptrs_ne_free (h : v.Exact) (hfree : v.bitmap b = false) (x : Nat × Nat) : v.ptrs x ≠ b :=
  (Allotment.Exact.of_free h hfree).2 x

theorem ne_zero_of_free (h : v.Exact) (hfree : v.bitmap b = false) : b ≠ 0 := by
  have hlo := (Allotment.Exact.of_free h hfree).1
  have hpos := h.pos
  omega

/-- Links and sizes of inodes do not matter. -/
theorem renode (h : v.Exact) {n : Nat → Dinode} (htype : ∀ i, (n i).type = (v.node i).type)
    (haddrs : ∀ i, (n i).addrs = (v.node i).addrs) : Volume.Exact { v with node := n } := by
  refine Allotment.Exact.congr h fun x => ?_
  simp only [Volume.ptrs, htype, ptr, haddrs]

/-- An inode without blocks may become another one without blocks. -/
theorem reset (h : v.Exact) (hold : ∀ k, v.ptrs (i, k) = 0) {d : Dinode}
    (hnew : ∀ k, k ≤ NDIRECT → d.addrs k = 0) :
    Volume.Exact { v with node := update v.node i d } := by
  refine Allotment.Exact.congr h fun ⟨j, k⟩ => ?_
  by_cases hj : j = i
  · rw [hj, hold]
    by_contra hne
    obtain ⟨-, -, hptr⟩ := Volume.ptrs_ne_zero hne
    rw [hptr, ptr_of_empty] at hne
    · exact hne rfl
    · dsimp only
      rwa [update_self]
  · exact Volume.ptrs_congr (update_of_ne hj ..) fun _ => rfl

theorem ptrs_link (h : v.Exact) (htype : (v.node i).type ≠ .free) (hk : k ≤ NDIRECT)
    (hzero : (v.node i).addrs k = 0) (hfree : v.bitmap b = false) :
    (v.link i k b).ptrs = update v.ptrs (i, k) b := by
  funext ⟨j, m⟩
  by_cases hj : j = i
  · subst hj
    have haddrs : ((v.link j k b).node j).addrs = update (v.node j).addrs k b := by
      simp only [Volume.link, update_self]
    have htype' : ((v.link j k b).node j).type = (v.node j).type := by
      simp only [Volume.link, update_self]
    by_cases hm : m < NPTR
    · rw [Volume.ptrs_eq (htype' ▸ htype) hm]
      by_cases hmk : m = k
      · rw [hmk, ptr_addr hk, haddrs, update_self, update_self]
      rw [update_of_ne fun heq => hmk (Prod.mk.inj heq).2, Volume.ptrs_eq htype hm]
      by_cases hma : m ≤ NDIRECT
      · rw [ptr_addr hma, ptr_addr hma, haddrs, update_of_ne hmk]
      by_cases hkn : k = NDIRECT
      · -- the new indirect block is empty
        subst hkn
        have hb := h.ne_zero_of_free hfree
        rw [ptr_entry_of_none hma hzero, ptr_entry hma, haddrs, update_self]
        · exact (congrArg (indirect · _) (update_self ..)).trans (indirect_zero _)
        · rwa [haddrs]
      · have hind : ((v.link j k b).node j).addrs NDIRECT = (v.node j).addrs NDIRECT := by
          rw [haddrs, update_of_ne (Ne.symm hkn)]
        have hne : (v.node j).addrs NDIRECT ≠ b :=
          v.ptrs_indirect htype ▸ h.ptrs_ne_free hfree (j, NDIRECT)
        by_cases hzero' : (v.node j).addrs NDIRECT = 0
        · rw [ptr_entry_of_none hma hzero', ptr_entry_of_none hma (hind.trans hzero')]
        · rw [ptr_entry hma hzero', ptr_entry hma (hind ▸ hzero'), hind]
          exact congrArg (indirect · _) (update_of_ne hne ..)
    · have hzero' : ∀ w : Volume, w.ptrs (j, m) = 0 := fun w => if_neg fun hc => hm hc.1
      rw [hzero', update_of_ne, hzero']
      intro heq
      obtain rfl := (Prod.mk.inj heq).2
      exact hm (hk.trans_lt (by decide))
  · rw [update_of_ne fun heq => hj (Prod.mk.inj heq).1]
    refine Volume.ptrs_congr (update_of_ne hj ..) fun _ => ?_
    exact update_of_ne (h.ptrs_ne_free hfree _) ..

theorem link (h : v.Exact) (htype : (v.node i).type ≠ .free) (hk : k ≤ NDIRECT)
    (hzero : (v.node i).addrs k = 0) (hb : b < v.sb.size) (hfree : v.bitmap b = false) :
    (v.link i k b).Exact ∧ v.Grows (v.link i k b) i := by
  have hptrs := h.ptrs_link htype hk hzero hfree
  have hdata : ∀ x, (v.link i k b).data (v.ptrs x) = v.data (v.ptrs x) := fun x =>
    update_of_ne (h.ptrs_ne_free hfree x) ..
  refine ⟨?_, ⟨rfl, fun j hj => update_of_ne hj .., fun j m _ _ => hdata _⟩,
    ⟨_, update_self ..⟩, fun m hm => ?_, fun m _ _ => hdata _⟩
  · rw [Volume.Exact, hptrs]
    refine Allotment.Exact.take h ?_ hb hfree
    rw [Volume.ptrs_eq htype (hk.trans_lt (by decide)), ptr_addr hk, hzero]
  · rw [hptrs, update_of_ne]
    intro heq
    obtain rfl := (Prod.mk.inj heq).2
    rw [Volume.ptrs_eq htype (hk.trans_lt (by decide)), ptr_addr hk, hzero] at hm
    exact hm rfl

theorem ptrs_linkEntry (h : v.Exact) (htype : (v.node i).type ≠ .free) {ind j : Nat}
    (hind : (v.node i).addrs NDIRECT = ind) (hne : ind ≠ 0) (hj : j < NINDIRECT)
    (hb : b < 2 ^ 32) (hfree : v.bitmap b = false) :
    (v.linkEntry ind j b).ptrs = update v.ptrs (i, NDIRECT + 1 + j) b := by
  have hold : v.ptrs (i, NDIRECT) = ind := (v.ptrs_indirect htype).trans hind
  have hbuf : update v.data b (fun _ => 0) ind = v.data ind :=
    update_of_ne (hold ▸ h.ptrs_ne_free hfree (i, NDIRECT)) ..
  funext ⟨i', m⟩
  by_cases hi : i' = i
  · subst hi
    have htype' : ((v.linkEntry ind j b).node i').type ≠ .free := htype
    have hind' : ((v.linkEntry ind j b).node i').addrs NDIRECT = ind := hind
    by_cases hm : m < NPTR
    · rw [Volume.ptrs_eq htype' hm]
      by_cases hma : m ≤ NDIRECT
      · rw [update_of_ne, Volume.ptrs_eq htype hm, ptr_addr hma, ptr_addr hma]
        · rfl
        · intro heq
          have := (Prod.mk.inj heq).2
          omega
      · rw [ptr_entry hma (hind' ▸ hne), hind']
        have hdata : (v.linkEntry ind j b).data ind = put32 (v.data ind) (4 * j) b := by
          rw [← hbuf]
          exact update_self ..
        rw [hdata]
        by_cases hmj : m - (NDIRECT + 1) = j
        · rw [hmj, indirect_put32 _ _ hb, show m = NDIRECT + 1 + j by omega, update_self]
        · rw [indirect_put32_of_ne _ hmj, update_of_ne, Volume.ptrs_eq htype hm,
            ptr_entry hma (hind ▸ hne), hind]
          intro heq
          have := (Prod.mk.inj heq).2
          omega
    · have hzero' : ∀ w : Volume, w.ptrs (i', m) = 0 := fun w => if_neg fun hc => hm hc.1
      rw [hzero', update_of_ne, hzero']
      intro heq
      have := (Prod.mk.inj heq).2
      rw [NPTR_eq, NDIRECT_eq, NINDIRECT_eq] at *
      omega
  · rw [update_of_ne fun heq => hi (Prod.mk.inj heq).1]
    refine Volume.ptrs_congr rfl fun hne' => ?_
    have hother : v.ptrs (i', NDIRECT) ≠ ind := fun heq =>
      hi (Prod.mk.inj (h.unique _ _ hne' (heq.trans hold.symm))).1
    refine (update_of_ne hother ..).trans ?_
    exact update_of_ne (h.ptrs_ne_free hfree _) ..

theorem linkEntry (h : v.Exact) (htype : (v.node i).type ≠ .free) {ind j : Nat}
    (hind : (v.node i).addrs NDIRECT = ind) (hne : ind ≠ 0) (hj : j < NINDIRECT)
    (hzero : indirect (v.data ind) j = 0) (hb : b < v.sb.size) (hsize : v.sb.size ≤ 2 ^ 32)
    (hfree : v.bitmap b = false) :
    (v.linkEntry ind j b).Exact ∧ v.Grows (v.linkEntry ind j b) i := by
  have hptrs := h.ptrs_linkEntry htype hind hne hj (hb.trans_le hsize) hfree
  have hold : v.ptrs (i, NDIRECT) = ind := (v.ptrs_indirect htype).trans hind
  have hempty : v.ptrs (i, NDIRECT + 1 + j) = 0 := by
    rw [Volume.ptrs_eq htype, ptr_entry (by omega) (hind ▸ hne), hind, Nat.add_sub_cancel_left,
      hzero]
    rw [NPTR]
    omega
  have hdata : ∀ x, x ≠ (i, NDIRECT) → v.ptrs x ≠ 0 →
      (v.linkEntry ind j b).data (v.ptrs x) = v.data (v.ptrs x) := by
    intro x hx hne'
    have hother : v.ptrs x ≠ ind := fun heq => hx (h.unique _ _ hne' (heq.trans hold.symm))
    refine (update_of_ne hother ..).trans ?_
    exact update_of_ne (h.ptrs_ne_free hfree _) ..
  refine ⟨?_, ⟨rfl, fun _ _ => rfl, fun i' m hi hne' => hdata _ ?_ hne'⟩, ⟨_, rfl⟩, fun m hm => ?_,
    fun m hm hne' => hdata _ ?_ hne'⟩
  · rw [Volume.Exact, hptrs]
    exact Allotment.Exact.take h hempty hb hfree
  · exact fun heq => hi (Prod.mk.inj heq).1
  · rw [hptrs, update_of_ne]
    intro heq
    obtain rfl := (Prod.mk.inj heq).2
    exact hm hempty
  · exact fun heq => hm (Prod.mk.inj heq).2

end Volume.Exact

/-! ### A block is given back -/

/-- The block at address `k` of inode `i` is freed and the address cleared. -/
def Volume.unlink (v : Volume) (i k : Nat) : Volume where
  sb := v.sb
  node := update v.node i
    { v.node i with addrs := update (v.node i).addrs k 0 }
  bitmap := update v.bitmap ((v.node i).addrs k) false
  data := v.data

/-- A block is freed. -/
def Volume.free (v : Volume) (b : Nat) : Volume :=
  { v with bitmap := update v.bitmap b false }

/-- The pointers that are left when the blocks that the first `j` entries of the indirect
block name have been freed. -/
def Volume.stripped (v : Volume) (i j : Nat) (x : Nat × Nat) : Nat :=
  if x.1 = i ∧ NDIRECT < x.2 ∧ x.2 ≤ NDIRECT + j then 0 else v.ptrs x

/-- Blocks have one owner but for those that have been freed. -/
def Volume.Stripped (v : Volume) (i j : Nat) : Prop :=
  Allotment.Exact (v.stripped i j) v.bitmap v.sb.nmeta v.sb.size

theorem Volume.elsewhere_unlink (v : Volume) (i k : Nat) : v.Elsewhere (v.unlink i k) i :=
  ⟨rfl, fun _ hj => update_of_ne hj .., fun _ _ _ _ => rfl⟩

theorem Volume.unlink_addrs (v : Volume) (i k : Nat) :
    ((v.unlink i k).node i).addrs = update (v.node i).addrs k 0 := by
  simp only [Volume.unlink, update_self]

theorem Volume.unlink_type (v : Volume) (i k : Nat) :
    ((v.unlink i k).node i).type = (v.node i).type := by
  simp only [Volume.unlink, update_self]

namespace Volume.Exact

theorem unlink (h : v.Exact) (htype : (v.node i).type ≠ .free) (hk : k < NDIRECT)
    (hne : (v.node i).addrs k ≠ 0) : (v.unlink i k).Exact := by
  have haddr : v.ptrs (i, k) = (v.node i).addrs k := by
    rw [v.ptrs_eq htype (hk.trans (by decide)), ptr_addr hk.le]
  have hptrs : (v.unlink i k).ptrs = update v.ptrs (i, k) 0 := by
    funext ⟨j, m⟩
    by_cases hj : j = i
    · subst hj
      have htype' : ((v.unlink j k).node j).type ≠ .free := by rwa [v.unlink_type]
      by_cases hmk : m = k
      · rw [hmk, update_self, Volume.ptrs_eq htype' (hk.trans (by decide)),
          ptr_addr hk.le, v.unlink_addrs, update_self]
      · rw [update_of_ne fun heq => hmk (Prod.mk.inj heq).2]
        by_cases hm : m < NPTR
        · rw [Volume.ptrs_eq htype' hm, Volume.ptrs_eq htype hm]
          have hsame : ∀ m, m ≠ k → ((v.unlink j k).node j).addrs m = (v.node j).addrs m := by
            intro m hm
            rw [v.unlink_addrs, update_of_ne hm]
          by_cases hma : m ≤ NDIRECT
          · rw [ptr_addr hma, ptr_addr hma, hsame m hmk]
          · simp only [ptr, if_neg hma, hsame NDIRECT (by omega)]
            rfl
        · exact (if_neg fun hc => hm hc.1).trans (if_neg fun hc => hm hc.1).symm
    · rw [update_of_ne fun heq => hj (Prod.mk.inj heq).1]
      exact (v.elsewhere_unlink i k).ptrs hj
  have hgive := Allotment.Exact.give h (haddr ▸ hne)
  rwa [haddr, ← hptrs] at hgive

theorem strip (h : v.Exact) : v.Stripped i 0 := by
  refine Allotment.Exact.congr h fun x => if_neg ?_
  omega

end Volume.Exact

namespace Volume.Stripped

/-- The next entry of the indirect block. -/
theorem stripped_entry (htype : (v.node i).type ≠ .free) (hind : (v.node i).addrs NDIRECT ≠ 0)
    (hj : j < NINDIRECT) : v.stripped i j (i, NDIRECT + 1 + j) =
      indirect (v.data ((v.node i).addrs NDIRECT)) j := by
  rw [Volume.stripped, if_neg (by omega), v.ptrs_eq htype (by rw [NPTR]; omega),
    ptr_entry (by omega) hind, Nat.add_sub_cancel_left]

theorem stripped_succ (v : Volume) (i j : Nat) :
    v.stripped i (j + 1) = update (v.stripped i j) (i, NDIRECT + 1 + j) 0 := by
  funext ⟨i', m⟩
  by_cases heq : (i', m) = (i, NDIRECT + 1 + j)
  · rw [heq, update_self]
    exact if_pos (by omega)
  · rw [update_of_ne heq, Volume.stripped]
    have hne : ¬ (i' = i ∧ m = NDIRECT + 1 + j) := fun hc => heq (by rw [hc.1, hc.2])
    congr 1
    simp only [eq_iff_iff]
    omega

/-- An entry without a block. -/
theorem skip (h : v.Stripped i j) (hzero : v.stripped i j (i, NDIRECT + 1 + j) = 0) :
    v.Stripped i (j + 1) := by
  refine Allotment.Exact.congr h fun x => ?_
  rw [stripped_succ, ← hzero, update_eq_self]

/-- The block an entry names is freed. -/
theorem free (h : v.Stripped i j) (hne : v.stripped i j (i, NDIRECT + 1 + j) ≠ 0) :
    (v.free (v.stripped i j (i, NDIRECT + 1 + j))).Stripped i (j + 1) := by
  have hgive := Allotment.Exact.give h hne
  rwa [← stripped_succ] at hgive

/-- The indirect block is freed after the blocks it names. -/
theorem unlink (h : v.Stripped i NINDIRECT) (htype : (v.node i).type ≠ .free)
    (hind : (v.node i).addrs NDIRECT ≠ 0) : (v.unlink i NDIRECT).Exact := by
  have haddr : v.stripped i NINDIRECT (i, NDIRECT) = (v.node i).addrs NDIRECT := by
    rw [Volume.stripped, if_neg (by omega), v.ptrs_indirect htype]
  have hptrs : (v.unlink i NDIRECT).ptrs =
      update (v.stripped i NINDIRECT) (i, NDIRECT) 0 := by
    funext ⟨j, m⟩
    by_cases hj : j = i
    · subst hj
      have htype' : ((v.unlink j NDIRECT).node j).type ≠ .free := by rwa [v.unlink_type]
      have hnone : ((v.unlink j NDIRECT).node j).addrs NDIRECT = 0 := by
        rw [v.unlink_addrs, update_self]
      by_cases hm : m < NPTR
      · rw [Volume.ptrs_eq htype' hm]
        by_cases hmn : m = NDIRECT
        · rw [hmn, ptr_addr le_rfl, hnone, update_self]
        rw [update_of_ne fun heq => hmn (Prod.mk.inj heq).2, Volume.stripped]
        by_cases hma : m ≤ NDIRECT
        · rw [if_neg (by omega), v.ptrs_eq htype hm, ptr_addr hma, ptr_addr hma, v.unlink_addrs,
            update_of_ne hmn]
        · rw [ptr_entry_of_none hma hnone, if_pos]
          rw [NPTR_eq] at hm
          rw [NDIRECT_eq, NINDIRECT_eq] at *
          omega
      · have hzero : ∀ w : Volume, w.ptrs (j, m) = 0 := fun w => if_neg fun hc => hm hc.1
        rw [hzero, update_of_ne, Volume.stripped, hzero]
        · split <;> rfl
        · intro heq
          obtain rfl := (Prod.mk.inj heq).2
          exact hm (by decide)
    · rw [update_of_ne fun heq => hj (Prod.mk.inj heq).1, Volume.stripped,
        if_neg fun hc => hj hc.1]
      exact (v.elsewhere_unlink i NDIRECT).ptrs hj
  have hgive := Allotment.Exact.give h (haddr ▸ hind)
  rwa [haddr, ← hptrs] at hgive

end Volume.Stripped

/-! ### Bytes are stored -/

/-- Bytes are stored in a block. -/
def Volume.write (v : Volume) (b o : Nat) (bs : List UInt8) : Volume :=
  { v with data := update v.data b (store (v.data b) o bs) }

namespace Volume.Exact

/-- What is stored in a block of data changes no pointer. -/
theorem ptrs_write (h : v.Exact) (hk : k ≠ NDIRECT) (hne : v.ptrs (i, k) ≠ 0) (o : Nat)
    (bs : List UInt8) (x : Nat × Nat) : (v.write (v.ptrs (i, k)) o bs).ptrs x = v.ptrs x := by
  refine Volume.ptrs_congr rfl fun hne' => update_of_ne (fun heq => ?_) ..
  exact hk (Prod.mk.inj (h.unique _ _ hne heq.symm)).2

theorem write (h : v.Exact) (hk : k ≠ NDIRECT) (hne : v.ptrs (i, k) ≠ 0) (o : Nat)
    (bs : List UInt8) :
    (v.write (v.ptrs (i, k)) o bs).Exact ∧ v.Elsewhere (v.write (v.ptrs (i, k)) o bs) i := by
  refine ⟨Allotment.Exact.congr h (h.ptrs_write hk hne o bs), rfl, fun _ _ => rfl,
    fun j m hj hne' => update_of_ne (fun heq => ?_) ..⟩
  exact hj (Prod.mk.inj (h.unique _ _ hne' heq)).1

/-- What is stored in a block of a file is stored in the file. -/
theorem byteAt_write (h : v.Exact) (htype : (v.node i).type ≠ .free) {off o : Nat}
    (bs : List UInt8) (hoff : off / BSIZE < MAXFILE)
    (hne : v.ptrs (i, place (off / BSIZE)) ≠ 0) (hlen : off % BSIZE + bs.length ≤ BSIZE)
    (ho : o / BSIZE < MAXFILE) :
    byteAt (v.write (v.ptrs (i, place (off / BSIZE))) (off % BSIZE) bs).data (v.node i) o =
      store (byteAt v.data (v.node i)) off bs o := by
  obtain ⟨w, hw⟩ : ∃ w, w = v.write (v.ptrs (i, place (off / BSIZE))) (off % BSIZE) bs := ⟨_, rfl⟩
  have hptr : ∀ k, k < NPTR → ptr w.data (v.node i) k = ptr v.data (v.node i) k := by
    intro k hk
    have hsame := h.ptrs_write (place_ne_indirect _) hne (off % BSIZE) bs (i, k)
    rw [← hw, v.ptrs_eq htype hk] at hsame
    rw [← hsame]
    have hnode : w.node = v.node := by rw [hw]; rfl
    have htype' : (w.node i).type ≠ .free := by rwa [hnode]
    rw [Volume.ptrs_eq htype' hk, hnode]
  rw [← hw, byteAt, hptr _ (place_lt ho), ← v.ptrs_eq htype (place_lt ho), hw]
  by_cases hbn : o / BSIZE = off / BSIZE
  · rw [hbn, Volume.write]
    simp only [update_self]
    have hbyte : v.data (v.ptrs (i, place (off / BSIZE))) (o % BSIZE) =
        byteAt v.data (v.node i) o := by
      rw [byteAt, hbn, v.ptrs_eq htype (place_lt hoff)]
    simp only [store, hbyte]
    -- both offsets are in one block
    have hiff : off % BSIZE ≤ o % BSIZE ↔ off ≤ o := by
      rw [BSIZE_eq] at *
      omega
    have hdiff : o % BSIZE - off % BSIZE = o - off := by
      rw [BSIZE_eq] at *
      omega
    rw [hdiff]
    simp only [hiff]
  · have hother : v.ptrs (i, place (o / BSIZE)) ≠ v.ptrs (i, place (off / BSIZE)) := fun heq =>
      hbn (place_inj (Prod.mk.inj (h.unique _ _ hne heq.symm)).2).symm
    rw [Volume.write]
    simp only [update_of_ne hother]
    rw [store_of_outside, byteAt, v.ptrs_eq htype (place_lt ho)]
    rw [BSIZE_eq] at *
    omega

end Volume.Exact

/-- A disk in order: blocks have one owner, the free map is right, files have no holes. -/
structure Volume.Sound (v : Volume) : Prop where
  size_le : v.sb.size ≤ 2 ^ 32
  exact : v.Exact
  whole : ∀ i, (v.node i).type ≠ .free → Whole v.data (v.node i)

end Xv6.Fs
