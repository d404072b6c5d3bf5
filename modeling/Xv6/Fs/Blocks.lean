import Xv6.Fs.Volume

/-!
# xv6 — blocks of an inode

`balloc`, `bfree`, `bmap` and `itrunc` over a disk in order. While an inode is worked
on, its copy in memory is ahead of the one on disk; what is on the disk is then seen
with that copy in place (`State.working`).

* `Extended`  — an inode that is worked on has got more blocks.
* `wp_bmap`   — the block of a file, if need be a new one.
* `wp_bmap_mapped` — a block that is there is found without any change.
* `wp_itrunc_blocks` — an inode gives back all its blocks.
-/

namespace Xv6.Fs

open Prog ByteBuffer Function

/-- What `log_write` stops with. -/
def Panic.ofLog : Panic → Bool
  | .logTooBig | .logOutsideTrans => true
  | _ => false

/-- What is on the disk. -/
def State.volume (fs : State) : Volume := ⟨fs.sb, fs.dinode, fs.bitmap, fs.data⟩

/-- The same with the copy of inode `ip` in memory in place of that on disk. -/
def State.working (fs : State) (ip : IPtr) : Volume :=
  ⟨fs.sb, update fs.dinode (fs.inode ip).inum (fs.inode ip).d, fs.bitmap, fs.data⟩

/-- The state after some work on inode `ip`. -/
def State.rework (fs : State) (ip : IPtr) (d : Dinode) (bitmap : Nat → Bool)
    (data : Nat → Buffer) (lh : List Nat) : State :=
  { fs.setInode ip fun i => { i with d := d } with bitmap := bitmap, data := data, lh := lh }

/-- An inode is written to disk. -/
def State.putNode (fs : State) (i : Nat) (d : Dinode) : State :=
  { fs with dinode := update fs.dinode i d }

variable {E : Panic → Prop} {fs fs' fs'' : State} {ip : IPtr} {b k bn : Nat}

section State

variable (fs : State) (ip : IPtr) (d : Dinode) (bitmap : Nat → Bool) (data : Nat → Buffer)
  (lh : List Nat)

@[simp] theorem State.rework_inode : (fs.rework ip d bitmap data lh).inode ip =
    { fs.inode ip with d := d } := by
  simp [State.rework, State.setInode]

@[simp] theorem State.rework_d : ((fs.rework ip d bitmap data lh).inode ip).d = d := by
  rw [State.rework_inode]

@[simp] theorem State.rework_bitmap : (fs.rework ip d bitmap data lh).bitmap = bitmap := rfl

@[simp] theorem State.rework_data : (fs.rework ip d bitmap data lh).data = data := rfl

@[simp] theorem State.rework_sb : (fs.rework ip d bitmap data lh).sb = fs.sb := rfl

@[simp] theorem State.rework_dinode : (fs.rework ip d bitmap data lh).dinode = fs.dinode := rfl

theorem State.rework_inode_of_ne {x : IPtr} (hx : x ≠ ip) :
    (fs.rework ip d bitmap data lh).inode x = fs.inode x := by
  simp [State.rework, State.setInode, hx]

@[simp] theorem State.rework_working : (fs.rework ip d bitmap data lh).working ip =
    ⟨fs.sb, update fs.dinode (fs.inode ip).inum d, bitmap, data⟩ := by
  simp [State.working]

@[simp] theorem State.rework_rework (d' : Dinode) (bitmap' : Nat → Bool) (data' : Nat → Buffer)
    (lh' : List Nat) : (fs.rework ip d bitmap data lh).rework ip d' bitmap' data' lh' =
      fs.rework ip d' bitmap' data' lh' := by
  simp [State.rework, State.setInode]

theorem State.rework_self : fs.rework ip (fs.inode ip).d bitmap data lh =
    { fs with bitmap := bitmap, data := data, lh := lh } := by
  simp [State.rework, State.setInode]

@[simp] theorem State.working_node : (fs.working ip).node (fs.inode ip).inum = (fs.inode ip).d :=
  update_self ..

/-- An inode that is the same on disk and in memory. -/
theorem State.working_eq (h : (fs.inode ip).d = fs.dinode (fs.inode ip).inum) :
    fs.working ip = fs.volume := by
  rw [State.working, State.volume, h, update_eq_self]

theorem State.working_link (k b : Nat) : (fs.working ip).link (fs.inode ip).inum k b =
    (fs.rework ip { (fs.inode ip).d with addrs := update (fs.inode ip).d.addrs k b }
      (update fs.bitmap b true) (update fs.data b fun _ => 0) lh).working ip := by
  rw [Volume.link]
  simp [State.working]

end State

/-- Inode `ip` has got more blocks. -/
structure Extended (ip : IPtr) (fs fs' : State) : Prop where
  frame : ∃ addrs bitmap data lh,
    fs' = fs.rework ip { (fs.inode ip).d with addrs := addrs } bitmap data lh
  exact : (fs'.working ip).Exact
  grows : (fs.working ip).Grows (fs'.working ip) (fs.inode ip).inum

theorem Extended.refl (h : (fs.working ip).Exact) : Extended ip fs fs :=
  ⟨⟨_, _, _, _, (fs.rework_self ip fs.bitmap fs.data fs.lh).symm⟩, h, .refl _ _⟩

theorem Extended.inum (h : Extended ip fs fs') : (fs'.inode ip).inum = (fs.inode ip).inum := by
  obtain ⟨_, _, _, _, rfl⟩ := h.frame
  rw [State.rework_inode]

theorem Extended.sb (h : Extended ip fs fs') : fs'.sb = fs.sb := by
  obtain ⟨_, _, _, _, rfl⟩ := h.frame
  rfl

theorem Extended.type (h : Extended ip fs fs') : (fs'.inode ip).d.type = (fs.inode ip).d.type := by
  obtain ⟨_, _, _, _, rfl⟩ := h.frame
  rw [State.rework_inode]

theorem Extended.trans (h : Extended ip fs fs') (h' : Extended ip fs' fs'') :
    Extended ip fs fs'' := by
  have hinum := h.inum
  obtain ⟨addrs, bitmap, data, lh, rfl⟩ := h.frame
  obtain ⟨addrs', bitmap', data', lh', rfl⟩ := h'.frame
  refine ⟨⟨addrs', bitmap', data', lh', ?_⟩, h'.exact, h.grows.trans (hinum ▸ h'.grows)⟩
  rw [State.rework_rework, State.rework_inode]

/-! ### Blocks -/

theorem wp_logWrite {Q : Unit → State → Prop} (hE : ∀ e, e.ofLog = true → E e)
    (hQ : ∀ lh, Q () { fs with lh := lh }) : wp (logWrite b) Q E fs := by
  simp only [logWrite, wp_bind, wp_gets, wp_ite, wp_modify]
  exact ⟨fun _ => wp_stop.mpr (hE _ rfl), fun _ => ⟨fun _ => wp_stop.mpr (hE _ rfl), fun _ => hQ _⟩⟩

/-- `balloc` takes a free block and fills it with zeros. -/
theorem wp_balloc (hE : ∀ e, e.ofLog = true → E e) : wp balloc (fun b fs' => b = 0 ∧ fs' = fs ∨
      b < fs.sb.size ∧ fs.bitmap b = false ∧ ∃ lh, fs' = { fs with
        bitmap := update fs.bitmap b true
        data := update fs.data b fun _ => 0
        lh := lh }) E fs := by
  simp only [balloc, wp_bind, wp_gets]
  split
  · exact wp_pure.mpr (.inl ⟨rfl, rfl⟩)
  · rename_i b hfind
    have hfree : fs.bitmap b = false := by simpa using List.find?_some hfind
    have hb : b < fs.sb.size := List.mem_range.mp (List.mem_of_find?_eq_some hfind)
    simp only [wp_bind, wp_modify, wp_pure]
    refine wp_logWrite hE fun lh => wp_logWrite hE fun lh' => .inr ⟨hb, hfree, lh', rfl⟩

/-- `bfree` frees a block that is in use. -/
theorem wp_bfree (hE : ∀ e, e.ofLog = true → E e) (hused : fs.bitmap b = true) :
    wp (bfree b) (fun _ fs' => ∃ lh, fs' = { fs with
      bitmap := update fs.bitmap b false, lh := lh }) E fs := by
  simp only [bfree, wp_bind, wp_gets, id, wp_ite, wp_modify]
  refine ⟨fun hfree => ?_, fun _ => wp_logWrite hE fun lh => ⟨lh, rfl⟩⟩
  rw [hused] at hfree
  cases hfree

/-! ### bmap -/

theorem wp_addrSlot (hE : ∀ e, e.ofLog = true → E e) (h : (fs.working ip).Exact)
    (htype : (fs.inode ip).d.type ≠ .free) (hk : k ≤ NDIRECT) :
    wp (addrSlot ip k) (fun r fs' => Extended ip fs fs' ∧ r = (fs'.inode ip).d.addrs k ∧
      ((fs.inode ip).d.addrs k ≠ 0 → fs' = fs) ∧
      ((fs.inode ip).d.addrs k = 0 → r ≠ 0 → fs'.data r = fun _ => 0)) E fs := by
  simp only [addrSlot, dinodeOf, wp_bind, wp_gets, wp_ite]
  refine ⟨fun hzero => ?_, fun hne => wp_pure.mpr
    ⟨.refl h, rfl, fun _ => rfl, fun h0 => absurd h0 hne⟩⟩
  refine wp_imp (wp_balloc hE) ?_
  rintro b fs1 (⟨rfl, rfl⟩ | ⟨hb, hfree, lh, rfl⟩)
  · exact ⟨fun _ => wp_pure.mpr ⟨.refl h, hzero.symm, fun _ => rfl, fun _ h0 => absurd rfl h0⟩,
      fun h0 => absurd rfl h0⟩
  have hbne := h.ne_zero_of_free hfree
  refine ⟨fun h0 => absurd h0 hbne, fun _ => ?_⟩
  simp only [setDinode, setInode, wp_modify, wp_pure]
  have hnode := fs.working_node ip
  obtain ⟨hexact, hgrows⟩ := h.link (hnode.symm ▸ htype) hk (hnode.symm ▸ hzero) hb hfree
  rw [State.working_link _ _ lh] at hexact hgrows
  refine ⟨⟨⟨_, _, _, lh, rfl⟩, hexact, hgrows⟩, ?_, fun hne => absurd hzero hne, fun _ _ => ?_⟩
  · simp [State.setInode]
  · exact update_self ..

/-- **`bmap`** finds the block, if need be a new one, filled with zeros. -/
theorem wp_bmap (hE : ∀ e, e.ofLog = true → E e) (h : (fs.working ip).Exact)
    (hsize : fs.sb.size ≤ 2 ^ 32) (htype : (fs.inode ip).d.type ≠ .free) (hbn : bn < MAXFILE) :
    wp (bmap ip bn) (fun r fs' => Extended ip fs fs' ∧
      r = ptr fs'.data (fs'.inode ip).d (place bn) ∧
      (ptr fs.data (fs.inode ip).d (place bn) ≠ 0 → fs' = fs) ∧
      (ptr fs.data (fs.inode ip).d (place bn) = 0 → r ≠ 0 → fs'.data r = fun _ => 0)) E fs := by
  rw [bmap, wp_ite]
  refine ⟨fun hdirect => ?_, fun hdirect => ?_⟩
  · have hplace : place bn = bn := if_pos hdirect
    simp only [hplace, ptr_addr hdirect.le]
    exact wp_addrSlot hE h htype hdirect.le
  have hplace : place bn = bn + 1 := if_neg hdirect
  have hentry : ¬ bn + 1 ≤ NDIRECT := by omega
  have hj : bn - NDIRECT < NINDIRECT := by
    rw [MAXFILE_eq] at hbn
    rw [NDIRECT_eq, NINDIRECT_eq] at *
    omega
  have hplace' : bn + 1 - (NDIRECT + 1) = bn - NDIRECT := by omega
  rw [if_pos hj, wp_bind, hplace]
  refine wp_imp (wp_addrSlot hE h htype le_rfl) ?_
  rintro ind fs1 ⟨h1, rfl, hsame, hzeros⟩
  rw [wp_ite]
  refine ⟨fun hnone => wp_pure.mpr ⟨h1, ?_, fun hne => ?_, fun _ h0 => absurd rfl h0⟩,
    fun hind => ?_⟩
  · rw [ptr_entry_of_none hentry hnone]
  · exact hsame fun h0 => hne (ptr_entry_of_none hentry h0)
  have hptr : ptr fs1.data (fs1.inode ip).d (bn + 1) =
      indirect (fs1.data ((fs1.inode ip).d.addrs NDIRECT)) (bn - NDIRECT) := by
    rw [ptr_entry hentry hind, hplace']
  -- a block that was mapped before is found in the state as it was
  have hmapped : ptr fs.data (fs.inode ip).d (bn + 1) ≠ 0 → fs1 = fs := fun hne =>
    hsame fun h0 => hne (ptr_entry_of_none hentry h0)
  have hfound : ptr fs.data (fs.inode ip).d (bn + 1) = ptr fs1.data (fs1.inode ip).d (bn + 1) := by
    by_cases h0 : (fs.inode ip).d.addrs NDIRECT = 0
    · rw [ptr_entry_of_none hentry h0, hptr, hzeros h0 hind, indirect_zero]
    · rw [hsame h0]
  rw [wp_bind, wp_gets]
  simp only [id, wp_ite]
  refine ⟨fun hzero => ?_, fun hne => wp_pure.mpr ⟨h1, hptr.symm, hmapped, fun h0 => ?_⟩⟩
  · refine wp_then (wp_balloc hE) ?_
    rintro b fs2 (⟨rfl, rfl⟩ | ⟨hb, hfree, lh, rfl⟩)
    · rw [wp_ite]
      refine ⟨fun _ => wp_pure.mpr ⟨h1, ?_, hmapped, fun _ h0 => absurd rfl h0⟩,
        fun h0 => absurd rfl h0⟩
      rw [hptr, hzero]
    rw [wp_ite]
    refine ⟨fun h0 => absurd h0 (h1.exact.ne_zero_of_free hfree), fun _ => ?_⟩
    rw [wp_bind, wp_modify, wp_bind]
    refine wp_logWrite hE fun lh' => wp_pure.mpr ?_
    have hnode := fs1.working_node ip
    have htype1 : ((fs1.working ip).node (fs1.inode ip).inum).type ≠ .free := by
      rw [hnode, h1.type]
      exact htype
    have hsize1 : (fs1.working ip).sb.size ≤ 2 ^ 32 := by
      change fs1.sb.size ≤ 2 ^ 32
      rwa [h1.sb]
    obtain ⟨hexact, hgrows⟩ := h1.exact.linkEntry htype1 (congrArg (Dinode.addrs · NDIRECT) hnode)
      hind hj hzero hb hsize1 hfree
    have hptrs := h1.exact.ptrs_linkEntry htype1 (congrArg (Dinode.addrs · NDIRECT) hnode) hind hj
      (hb.trans_le hsize1) hfree
    refine ⟨h1.trans ⟨⟨_, _, _, lh', (fs1.rework_self ip _ _ lh').symm⟩, hexact, hgrows⟩, ?_,
      fun hne => ?_, fun _ _ => ?_⟩
    · have hnew := congrFun hptrs ((fs1.inode ip).inum, NDIRECT + 1 + (bn - NDIRECT))
      have htype2 : (((fs1.working ip).linkEntry ((fs1.inode ip).d.addrs NDIRECT) (bn - NDIRECT)
        b).node (fs1.inode ip).inum).type ≠ .free := htype1
      rw [update_self, show NDIRECT + 1 + (bn - NDIRECT) = bn + 1 by omega,
        Volume.ptrs_eq htype2 (hplace ▸ place_lt hbn)] at hnew
      exact hnew.symm.trans (congrArg (ptr _ · _) hnode)
    · rw [hfound, hptr] at hne
      exact absurd hzero hne
    · have hother : b ≠ (fs1.inode ip).d.addrs NDIRECT := by
        have := h1.exact.ptrs_ne_free hfree ((fs1.inode ip).inum, NDIRECT)
        rw [Volume.ptrs_indirect htype1, hnode] at this
        exact Ne.symm this
      exact (update_of_ne hother ..).trans (update_self ..)
  · rw [hfound, hptr] at h0
    exact absurd h0 hne

/-- A block that is there is found, and nothing is changed. -/
theorem wp_bmap_mapped (hbn : bn < MAXFILE) (hne : ptr fs.data (fs.inode ip).d (place bn) ≠ 0) :
    wp (bmap ip bn) (fun r fs' => r = ptr fs.data (fs.inode ip).d (place bn) ∧ fs' = fs)
      (fun _ => False) fs := by
  rw [bmap, wp_ite]
  refine ⟨fun hdirect => ?_, fun hdirect => ?_⟩
  · rw [place, if_pos hdirect, ptr_addr hdirect.le] at hne ⊢
    rw [addrSlot, dinodeOf, wp_bind, wp_gets, if_neg hne]
    exact wp_pure.mpr ⟨rfl, rfl⟩
  rw [place, if_neg hdirect] at hne ⊢
  have hentry : ¬ bn + 1 ≤ NDIRECT := by omega
  have hj : bn - NDIRECT < NINDIRECT := by
    rw [MAXFILE_eq] at hbn
    rw [NDIRECT_eq, NINDIRECT_eq] at *
    omega
  have hind : (fs.inode ip).d.addrs NDIRECT ≠ 0 := fun h0 => hne (ptr_entry_of_none hentry h0)
  rw [ptr_entry hentry hind, show bn + 1 - (NDIRECT + 1) = bn - NDIRECT by omega] at hne ⊢
  rw [if_pos hj, wp_bind, addrSlot, dinodeOf, wp_bind, wp_gets, if_neg hind, wp_pure, if_neg hind,
    wp_bind, wp_gets]
  simp only [id, if_neg hne]
  exact wp_pure.mpr ⟨rfl, rfl⟩

/-! ### itrunc -/

/-- Inode `ip` has given back some blocks. -/
structure Freed (ip : IPtr) (fs fs' : State) : Prop where
  frame : ∃ addrs bitmap lh,
    fs' = fs.rework ip { (fs.inode ip).d with addrs := addrs } bitmap fs.data lh
  exact : (fs'.working ip).Exact

theorem Freed.refl (h : (fs.working ip).Exact) : Freed ip fs fs :=
  ⟨⟨_, _, _, (fs.rework_self ip fs.bitmap fs.data fs.lh).symm⟩, h⟩

theorem Freed.type (h : Freed ip fs fs') : (fs'.inode ip).d.type = (fs.inode ip).d.type := by
  obtain ⟨_, _, _, rfl⟩ := h.frame
  rw [State.rework_inode]

/-- The state after `freeSlot` is that after `Volume.unlink`. -/
theorem State.working_unlink (fs : State) (ip : IPtr) (k : Nat) (lh : List Nat) :
    (fs.working ip).unlink (fs.inode ip).inum k =
      (fs.rework ip { (fs.inode ip).d with addrs := update (fs.inode ip).d.addrs k 0 }
        (update fs.bitmap ((fs.inode ip).d.addrs k) false) fs.data lh).working ip := by
  rw [Volume.unlink]
  simp [State.working]

theorem wp_freeSlot_used (hE : ∀ e, e.ofLog = true → E e)
    (hused : fs.bitmap ((fs.inode ip).d.addrs k) = true) :
    wp (freeSlot ip k) (fun _ fs' => ∃ lh, fs' = fs.rework ip
      { (fs.inode ip).d with addrs := update (fs.inode ip).d.addrs k 0 }
      (update fs.bitmap ((fs.inode ip).d.addrs k) false) fs.data lh) E fs := by
  simp only [freeSlot, dinodeOf, wp_bind, wp_gets]
  refine wp_imp (wp_bfree hE hused) ?_
  rintro _ _ ⟨lh, rfl⟩
  simp only [setDinode, setInode, wp_modify]
  exact ⟨lh, rfl⟩

/-- The blocks an indirect block names are freed. -/
theorem wp_freeIndirect (hE : ∀ e, e.ofLog = true → E e) (h : (fs.working ip).Exact)
    (htype : (fs.inode ip).d.type ≠ .free) (hind : (fs.inode ip).d.addrs NDIRECT ≠ 0) :
    wp (freeIndirect ((fs.inode ip).d.addrs NDIRECT)) (fun _ fs' => ∃ bitmap lh,
      fs' = fs.rework ip (fs.inode ip).d bitmap fs.data lh ∧
      Volume.Stripped { fs.working ip with bitmap := bitmap } (fs.inode ip).inum NINDIRECT)
      E fs := by
  have hnode := fs.working_node ip
  have hentry : ∀ {j bitmap}, j < NINDIRECT →
      Volume.stripped { fs.working ip with bitmap := bitmap } (fs.inode ip).inum j
        ((fs.inode ip).inum, NDIRECT + 1 + j) =
      indirect (fs.data ((fs.inode ip).d.addrs NDIRECT)) j := by
    intro j bitmap hj
    have := Volume.Stripped.stripped_entry (hnode.symm ▸ htype)
      (hnode.symm ▸ hind) hj
    rwa [hnode] at this
  rw [freeIndirect, wp_bind, wp_gets]
  refine wp_each_range (I := fun j fs' => ∃ bitmap lh,
    fs' = fs.rework ip (fs.inode ip).d bitmap fs.data lh ∧
    Volume.Stripped { fs.working ip with bitmap := bitmap } (fs.inode ip).inum j) ?_
    ⟨_, _, (fs.rework_self ip fs.bitmap fs.data fs.lh).symm, h.strip⟩
  rintro j _ hj ⟨bitmap, lh, rfl, hstrip⟩
  rw [bfreeIf, wp_when]
  refine ⟨fun hne => ?_, fun hzero => ⟨_, _, rfl, hstrip.skip ?_⟩⟩
  · have hused := Allotment.Exact.used_of_held hstrip (ne_of_eq_of_ne (hentry hj) hne)
    have hfree := hstrip.free (ne_of_eq_of_ne (hentry hj) hne)
    rw [hentry hj] at hused hfree
    refine wp_imp (wp_bfree hE hused) ?_
    rintro _ _ ⟨lh', rfl⟩
    exact ⟨_, lh', rfl, hfree⟩
  · exact (hentry hj).trans (not_not.mp hzero)

/-- The direct blocks are freed. -/
theorem wp_freeDirect (hE : ∀ e, e.ofLog = true → E e) (h : (fs.working ip).Exact)
    (htype : (fs.inode ip).d.type ≠ .free) :
    wp (Prog.each (fun i => do
      let d ← dinodeOf ip
      Prog.when (d.addrs i ≠ 0) (freeSlot ip i)) (List.range NDIRECT))
      (fun _ fs' => Freed ip fs fs' ∧ ∀ k, k < NDIRECT → (fs'.inode ip).d.addrs k = 0) E fs := by
  refine wp_each_range (I := fun j fs' => Freed ip fs fs' ∧
    ∀ k, k < j → (fs'.inode ip).d.addrs k = 0) ?_ ⟨.refl h, nofun⟩
  rintro j fs1 hj ⟨h1, hzero⟩
  have hnode := fs1.working_node ip
  have htype1 : ((fs1.working ip).node (fs1.inode ip).inum).type ≠ .free := by
    rw [hnode, h1.type]
    exact htype
  rw [wp_bind, dinodeOf, wp_gets, wp_when]
  refine ⟨fun hne => ?_, fun h0 => ⟨h1, fun k hk => ?_⟩⟩
  · have hheld : (fs1.working ip).ptrs ((fs1.inode ip).inum, j) = (fs1.inode ip).d.addrs j := by
      rw [Volume.ptrs_eq htype1 (hj.trans (by decide)), ptr_addr hj.le, hnode]
    have hused := Allotment.Exact.used_of_held h1.exact (hheld ▸ hne)
    rw [hheld] at hused
    refine wp_imp (wp_freeSlot_used hE hused) ?_
    rintro _ _ ⟨lh, rfl⟩
    have hexact := h1.exact.unlink htype1 hj (hnode.symm ▸ hne)
    rw [State.working_unlink fs1 ip j lh] at hexact
    refine ⟨⟨?_, hexact⟩, fun k hk => ?_⟩
    · obtain ⟨addrs, bitmap, lh1, rfl⟩ := h1.frame
      exact ⟨_, _, lh, by rw [State.rework_rework, State.rework_inode]; rfl⟩
    · rw [State.rework_inode]
      by_cases hkj : k = j
      · rw [hkj]
        exact update_self ..
      · exact (update_of_ne hkj ..).trans (hzero k (by omega))
  · by_cases hkj : k = j
    · rw [hkj]
      exact not_not.mp h0
    · exact hzero k (by omega)

/-- The indirect block is freed, with what it names. -/
theorem wp_freeRest (hE : ∀ e, e.ofLog = true → E e) (h : (fs.working ip).Exact)
    (htype : (fs.inode ip).d.type ≠ .free)
    (hdirect : ∀ k, k < NDIRECT → (fs.inode ip).d.addrs k = 0) :
    wp (Prog.when ((fs.inode ip).d.addrs NDIRECT ≠ 0) do
      freeIndirect ((fs.inode ip).d.addrs NDIRECT)
      freeSlot ip NDIRECT) (fun _ fs' => Freed ip fs fs' ∧
      ∀ k, k ≤ NDIRECT → (fs'.inode ip).d.addrs k = 0) E fs := by
  have hnode := fs.working_node ip
  rw [wp_when]
  refine ⟨fun hne => ?_, fun h0 => ⟨.refl h, fun k hk => ?_⟩⟩
  · refine wp_then (wp_freeIndirect hE h htype hne) ?_
    rintro _ _ ⟨bitmap, lh, rfl, hstrip⟩
    have hheld : Volume.stripped { fs.working ip with bitmap := bitmap } (fs.inode ip).inum
        NINDIRECT ((fs.inode ip).inum, NDIRECT) = (fs.inode ip).d.addrs NDIRECT := by
      rw [Volume.stripped, if_neg (by omega)]
      refine (Volume.ptrs_indirect (hnode.symm ▸ htype)).trans ?_
      rw [hnode]
    have hused := Allotment.Exact.used_of_held hstrip (ne_of_eq_of_ne hheld hne)
    rw [hheld] at hused
    refine wp_imp (wp_freeSlot_used hE (by rwa [State.rework_inode])) ?_
    rintro _ _ ⟨lh', rfl⟩
    have hexact := hstrip.unlink (hnode.symm ▸ htype) (hnode.symm ▸ hne)
    rw [State.rework_rework, State.rework_d]
    refine ⟨⟨⟨_, _, lh', rfl⟩, ?_⟩, fun k hk => ?_⟩
    · simpa [Volume.unlink, State.working] using hexact
    · rw [State.rework_d]
      by_cases hkj : k = NDIRECT
      · simp [hkj]
      · exact (update_of_ne hkj ..).trans (hdirect k (by omega))
  · by_cases hkj : k = NDIRECT
    · rw [hkj]
      exact not_not.mp h0
    · exact hdirect k (by omega)

theorem Freed.trans (h : Freed ip fs fs') (h' : Freed ip fs' fs'') : Freed ip fs fs'' := by
  obtain ⟨addrs, bitmap, lh, rfl⟩ := h.frame
  obtain ⟨addrs', bitmap', lh', rfl⟩ := h'.frame
  refine ⟨⟨addrs', bitmap', lh', ?_⟩, h'.exact⟩
  rw [State.rework_rework, State.rework_inode]
  rfl

/-- **`itrunc`** gives back all blocks. -/
theorem wp_itrunc_blocks (hE : ∀ e, e.ofLog = true → E e) (h : (fs.working ip).Exact)
    (htype : (fs.inode ip).d.type ≠ .free) :
    wp (itrunc ip) (fun _ fs' => ∃ addrs bitmap lh, (∀ k, k ≤ NDIRECT → addrs k = 0) ∧
      fs' = (fs.rework ip { (fs.inode ip).d with size := 0, addrs := addrs } bitmap fs.data
        lh).putNode (fs.inode ip).inum { (fs.inode ip).d with size := 0, addrs := addrs } ∧
      fs'.volume.Exact) E fs := by
  refine wp_then (wp_freeDirect hE h htype) ?_
  rintro _ fs1 ⟨h1, hdirect⟩
  rw [wp_bind, dinodeOf, wp_gets]
  refine wp_then (wp_freeRest hE h1.exact (h1.type ▸ htype) hdirect) ?_
  rintro _ fs2 ⟨h2, hzero⟩
  have hfreed := h1.trans h2
  obtain ⟨addrs, bitmap, lh, rfl⟩ := hfreed.frame
  rw [State.rework_d] at hzero
  simp only [setDinode, setInode, wp_bind, wp_modify, iupdate, wp_gets]
  refine wp_logWrite hE fun lh' => ⟨addrs, bitmap, lh', hzero, ?_, ?_⟩
  · simp [State.rework, State.setInode, State.putNode]
  · have hexact := hfreed.exact
    rw [State.rework_working] at hexact
    have hexact' := hexact.renode (n := update fs.dinode (fs.inode ip).inum
      { (fs.inode ip).d with size := 0, addrs := addrs }) (fun i => ?_) (fun i => ?_)
    · simpa [State.volume, State.rework, State.setInode] using hexact'
    · by_cases hi : i = (fs.inode ip).inum <;> simp [hi]
    · by_cases hi : i = (fs.inode ip).inum <;> simp [hi]

end Xv6.Fs
