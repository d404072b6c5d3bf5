import Mathlib.Data.Finset.Card
import Xv6.Fs.Walk

/-!
# xv6 — what one write may log

`filewrite` cuts a write into chunks such that one `writei` stays within the
`MAXOPBLOCKS` blocks that `begin_op` reserves for an operation. A chunk touches at most
four blocks of the file; the first of four is there already, each of the others may need
a new block and a block of the free map for it, the file may need an indirect block, with
another block of the free map, and the inode is written.

* `Logged S fs0 fs` — from `fs0` on, blocks of `S` were logged and no others.
* `overhead`        — the indirect block of a file and its block of the free map.
* `wp_writeTurn`, `wp_writeAligned` — what one turn of the loop costs, and what the turns
  cost that start at a block boundary.
* `writei_budget`   — a chunk logs at most `MAXOPBLOCKS` blocks.
-/

namespace Xv6.Fs

open Prog ByteBuffer Function Finset

variable {ε U : Type} {fs0 fs fs' : State} {ip : IPtr} {S T : Finset Nat} {b bn off n : Nat}

/-! ### The list of logged blocks -/

/-- From `fs0` on, the list of logged blocks has got different new blocks, all of them in
`S`. -/
structure Logged (S : Finset Nat) (fs0 fs : State) : Prop where
  grown : ∃ new, fs.lh = fs0.lh ++ new ∧ new.Nodup ∧ ∀ b ∈ new, b ∈ S
  outstanding : fs.outstanding = fs0.outstanding

/-- The log has no room for an operation, or none has begun. -/
def Unreserved (fs : State) : Panic → Prop
  | .logTooBig => LOGBLOCKS < fs.lh.length + MAXOPBLOCKS
  | .logOutsideTrans => fs.outstanding < 1
  | _ => False

namespace Logged

theorem refl (fs : State) : Logged ∅ fs fs :=
  ⟨⟨[], (List.append_nil _).symm, List.nodup_nil, nofun⟩, rfl⟩

variable (h : Logged S fs0 fs)

include h

theorem mono (hS : S ⊆ T) : Logged T fs0 fs := by
  obtain ⟨new, hlh, hnodup, hmem⟩ := h.grown
  exact ⟨⟨new, hlh, hnodup, fun b hb => hS (hmem b hb)⟩, h.outstanding⟩

theorem exists_new :
    ∃ new, fs.lh = fs0.lh ++ new ∧ new.Nodup ∧ new.length ≤ S.card := by
  obtain ⟨new, hlh, hnodup, hmem⟩ := h.grown
  refine ⟨new, hlh, hnodup, ?_⟩
  rw [← List.toFinset_card_of_nodup hnodup]
  exact card_le_card fun b hb => hmem b (List.mem_toFinset.mp hb)

theorem length_le : fs.lh.length ≤ fs0.lh.length + S.card := by
  obtain ⟨new, hlh, -, hlen⟩ := h.exists_new
  rw [hlh, List.length_append]
  omega

/-- Changes of other parts of the state. -/
theorem congr (hlh : fs'.lh = fs.lh)
    (hout : fs'.outstanding = fs.outstanding) : Logged S fs0 fs' :=
  ⟨hlh ▸ h.grown, hout.trans h.outstanding⟩

/-- **`log_write`** has room as long as the operation keeps to its budget. -/
theorem wp_logWrite (hcard : S.card < MAXOPBLOCKS) :
    wp (logWrite b) (fun _ fs' => Logged (insert b S) fs0 fs' ∧ fs'.sb = fs.sb ∧
      fs'.inode = fs.inode) (Unreserved fs0) fs := by
  have hlen := h.length_le
  rw [logWrite, wp_bind, wp_gets, wp_ite]
  refine ⟨fun hfull => wp_stop.mpr ?_, fun _ => ?_⟩
  · dsimp only [Unreserved, id] at *
    omega
  rw [wp_ite]
  refine ⟨fun hout => wp_stop.mpr ?_, fun _ => ?_⟩
  · rw [Unreserved, ← h.outstanding]
    exact hout
  rw [wp_modify]
  refine ⟨⟨?_, h.outstanding⟩, rfl, rfl⟩
  obtain ⟨new, hlh, hnodup, hmem⟩ := h.grown
  have hmem' : ∀ c ∈ new, c ∈ insert b S := fun c hc => mem_insert_of_mem (hmem c hc)
  by_cases hb : b ∈ fs.lh
  · exact ⟨new, by rw [if_pos hb, hlh], hnodup, hmem'⟩
  · refine ⟨new ++ [b], by rw [if_neg hb, hlh, List.append_assoc], ?_, fun c hc => ?_⟩
    · refine List.nodup_append'.mpr ⟨hnodup, List.nodup_singleton b, ?_⟩
      rw [List.disjoint_singleton]
      exact fun hnew => hb (hlh ▸ List.mem_append_right _ hnew)
    · rcases List.mem_append.mp hc with hc | hc
      · exact hmem' c hc
      · rw [List.mem_singleton.mp hc]
        exact mem_insert_self b S

/-- A new block costs two blocks of the log. -/
theorem wp_balloc (hcard : S.card + 2 ≤ MAXOPBLOCKS) :
    wp balloc (fun b fs' => Logged (S ∪ {b, fs.sb.bblock b}) fs0 fs' ∧
      fs'.sb = fs.sb ∧ fs'.inode = fs.inode) (Unreserved fs0) fs := by
  rw [balloc, wp_bind, wp_gets]
  split
  · exact wp_pure.mpr ⟨h.mono subset_union_left, rfl, rfl⟩
  rename_i b hfind
  rw [wp_bind, wp_modify, wp_bind]
  have h1 : Logged S fs0 { fs with bitmap := update fs.bitmap b true } := h.congr rfl rfl
  refine wp_imp (h1.wp_logWrite (by omega)) ?_
  rintro _ fs2 ⟨h2, hsb2, hinode2⟩
  rw [wp_bind, wp_modify, wp_bind]
  have h3 : Logged (insert (fs.sb.bblock b) S) fs0
      { fs2 with data := update fs2.data b fun _ => 0 } := h2.congr rfl rfl
  have hle := card_insert_le (fs.sb.bblock b) S
  refine wp_imp (h3.wp_logWrite (by omega)) ?_
  rintro _ fs4 ⟨h4, hsb4, hinode4⟩
  refine wp_pure.mpr ⟨h4.mono fun c hc => ?_, hsb4.trans hsb2, hinode4.trans hinode2⟩
  simp only [mem_insert, mem_union, mem_singleton] at hc ⊢
  tauto

/-- The inode is written. -/
theorem wp_iupdate (hcard : S.card < MAXOPBLOCKS) :
    wp (iupdate ip) (fun _ fs' => Logged (insert (fs.sb.iblock (fs.inode ip).inum) S) fs0 fs')
      (Unreserved fs0) fs := by
  rw [iupdate, wp_bind, wp_modify, wp_bind, wp_gets]
  have h1 : Logged S fs0 { fs with
      dinode := update fs.dinode (fs.inode ip).inum (fs.inode ip).d } := h.congr rfl rfl
  exact wp_imp (h1.wp_logWrite hcard) fun _ fs' h' => h'.1

/-- A slot of an inode is there, or a new block is found for it. -/
theorem wp_addrSlot {k : Nat} (hcard : S.card + 2 ≤ MAXOPBLOCKS) :
    wp (addrSlot ip k) (fun addr fs' => fs' = fs ∧ addr = (fs.inode ip).d.addrs k ∧ addr ≠ 0 ∨
      (fs.inode ip).d.addrs k = 0 ∧ Logged (S ∪ {addr, fs.sb.bblock addr}) fs0 fs' ∧
        fs'.sb = fs.sb ∧ (fs'.inode ip).inum = (fs.inode ip).inum ∧
        (fs'.inode ip).d.addrs = update (fs.inode ip).d.addrs k addr) (Unreserved fs0) fs := by
  rw [addrSlot, dinodeOf, wp_bind, wp_gets, wp_ite]
  refine ⟨fun hzero => ?_, fun hne => wp_pure.mpr (.inl ⟨rfl, rfl, hne⟩)⟩
  refine wp_then (h.wp_balloc hcard) ?_
  rintro addr fs1 ⟨h1, hsb, hinode⟩
  rw [wp_ite]
  refine ⟨fun hnone => wp_pure.mpr (.inr ⟨hzero, ?_, hsb, by rw [hinode], ?_⟩), fun _ => ?_⟩
  · rwa [hnone] at h1
  · rw [hinode, ← hzero, update_eq_self]
  · rw [wp_bind, setDinode, setInode, wp_modify, wp_pure]
    refine .inr ⟨hzero, h1.congr rfl rfl, hsb, ?_, ?_⟩
    · simp [State.setInode, hinode]
    · simp [State.setInode, hinode]

end Logged

/-! ### Blocks of a file -/

/-- The indirect block of a file and its block of the free map. -/
def overhead (sb : Superblock) (d : Dinode) : Finset Nat :=
  if d.addrs NDIRECT = 0 then ∅ else {d.addrs NDIRECT, sb.bblock (d.addrs NDIRECT)}

theorem overhead_congr {sb : Superblock} {d d' : Dinode} (h : d'.addrs NDIRECT = d.addrs NDIRECT) :
    overhead sb d' = overhead sb d := by
  rw [overhead, overhead, h]

theorem card_pair_le (T : Finset Nat) (x y : Nat) : (T ∪ {x, y}).card ≤ T.card + 2 :=
  (card_union_le ..).trans (Nat.add_le_add_left card_le_two _)

theorem card_union_overhead_le (T : Finset Nat) (sb : Superblock) (d : Dinode) :
    (T ∪ overhead sb d).card ≤ T.card + 2 := by
  rw [overhead]
  split
  · rw [union_empty]
    omega
  · exact card_pair_le ..

/-- In the work on inode `ip` the blocks of `T` were logged, and those of its indirect
block. -/
structure Spent (T : Finset Nat) (fs0 : State) (ip : IPtr) (fs : State) : Prop where
  logged : Logged (T ∪ overhead fs.sb (fs.inode ip).d) fs0 fs
  sb : fs.sb = fs0.sb
  inum : (fs.inode ip).inum = (fs0.inode ip).inum

namespace Spent

theorem refl (fs : State) (ip : IPtr) : Spent ∅ fs ip fs :=
  ⟨(Logged.refl fs).mono (empty_subset _), rfl, rfl⟩

theorem mono (h : Spent S fs0 ip fs) (hS : S ⊆ T) : Spent T fs0 ip fs :=
  ⟨h.logged.mono (union_subset_union_left hS), h.sb, h.inum⟩

theorem setData (h : Spent T fs0 ip fs) (data : Nat → Buffer) :
    Spent T fs0 ip { fs with data := data } :=
  ⟨h.logged.congr rfl rfl, h.sb, h.inum⟩

/-- A block is logged that is counted already. -/
theorem wp_logWrite (h : Spent T fs0 ip fs) (hb : b ∈ T ∪ overhead fs.sb (fs.inode ip).d)
    (hcard : T.card + 3 ≤ MAXOPBLOCKS) :
    wp (logWrite b) (fun _ fs' => Spent T fs0 ip fs') (Unreserved fs0) fs := by
  have hle := card_union_overhead_le T fs.sb (fs.inode ip).d
  refine wp_imp (h.logged.wp_logWrite (by omega)) ?_
  rintro _ fs' ⟨h', hsb, hinode⟩
  rw [insert_eq_of_mem hb] at h'
  exact ⟨by rwa [hsb, hinode], hsb.trans h.sb, by rw [hinode, h.inum]⟩

/-- A pointer of the inode to a data block. -/
theorem wp_direct {k : Nat} (h : Spent T fs0 ip fs) (hk : k < NDIRECT)
    (hcard : T.card + 4 ≤ MAXOPBLOCKS) :
    wp (addrSlot ip k) (fun addr fs' => Spent (T ∪ {addr, fs0.sb.bblock addr}) fs0 ip fs')
      (Unreserved fs0) fs := by
  have hle := card_union_overhead_le T fs.sb (fs.inode ip).d
  refine wp_imp (h.logged.wp_addrSlot (by omega)) ?_
  rintro addr fs' (⟨rfl, -, -⟩ | ⟨-, h', hsb, hinum, haddrs⟩)
  · exact h.mono subset_union_left
  have hsame : overhead fs'.sb (fs'.inode ip).d = overhead fs.sb (fs.inode ip).d := by
    rw [hsb]
    refine overhead_congr ?_
    rw [haddrs, update_of_ne hk.ne']
  refine ⟨?_, hsb.trans h.sb, hinum.trans h.inum⟩
  rw [hsame, union_right_comm, ← h.sb]
  exact h'

/-- The pointer of the inode to the indirect block. -/
theorem wp_indirect (h : Spent T fs0 ip fs) (hcard : T.card + 4 ≤ MAXOPBLOCKS) :
    wp (addrSlot ip NDIRECT) (fun ind fs' =>
      if ind = 0 then Spent (T ∪ {0, fs0.sb.bblock 0}) fs0 ip fs'
      else Spent T fs0 ip fs' ∧ (fs'.inode ip).d.addrs NDIRECT = ind) (Unreserved fs0) fs := by
  have hle := card_union_overhead_le T fs.sb (fs.inode ip).d
  refine wp_imp (h.logged.wp_addrSlot (by omega)) ?_
  rintro ind fs' (⟨rfl, rfl, hne⟩ | ⟨hzero, h', hsb, hinum, haddrs⟩)
  · rw [if_neg hne]
    exact ⟨h, rfl⟩
  have hind : (fs'.inode ip).d.addrs NDIRECT = ind := by rw [haddrs, update_self]
  rw [overhead, if_pos hzero, union_empty] at h'
  split
  · rename_i hnone
    rw [hnone] at h'
    exact ⟨h.sb ▸ h'.mono subset_union_left, hsb.trans h.sb, hinum.trans h.inum⟩
  · rename_i hne
    refine ⟨⟨?_, hsb.trans h.sb, hinum.trans h.inum⟩, hind⟩
    rw [overhead, hind, if_neg hne, hsb]
    exact h'

/-- **`bmap`** costs two blocks of the log, not counting the indirect block. -/
theorem wp_bmap (h : Spent T fs0 ip fs) (hcard : T.card + 5 ≤ MAXOPBLOCKS) (hbn : bn < MAXFILE) :
    wp (bmap ip bn) (fun addr fs' => Spent (T ∪ {addr, fs0.sb.bblock addr}) fs0 ip fs')
      (Unreserved fs0) fs := by
  rw [bmap, wp_ite]
  refine ⟨fun hdirect => h.wp_direct hdirect (by omega), fun hdirect => ?_⟩
  have hj : bn - NDIRECT < NINDIRECT := by
    rw [MAXFILE_eq] at hbn
    rw [NDIRECT_eq, NINDIRECT_eq] at *
    omega
  rw [if_pos hj]
  refine wp_then (h.wp_indirect (by omega)) fun ind fs1 h1 => ?_
  rw [wp_ite]
  refine ⟨fun hnone => wp_pure.mpr ((if_pos hnone).mp h1), fun hne => ?_⟩
  obtain ⟨h1, hind⟩ := (if_neg hne).mp h1
  rw [wp_bind, wp_gets]
  rw [wp_ite]
  refine ⟨fun _ => ?_, fun _ => wp_pure.mpr (h1.mono subset_union_left)⟩
  have hle := card_union_overhead_le T fs1.sb (fs1.inode ip).d
  refine wp_then (h1.logged.wp_balloc (by omega)) ?_
  rintro addr fs2 ⟨h2, hsb, hinode⟩
  have hspent : Spent (T ∪ {addr, fs0.sb.bblock addr}) fs0 ip fs2 := by
    refine ⟨?_, hsb.trans h1.sb, by rw [hinode, h1.inum]⟩
    rw [hsb, hinode, union_right_comm, ← h1.sb]
    exact h2
  rw [wp_ite]
  refine ⟨fun hnone => wp_pure.mpr (hnone ▸ hspent), fun _ => ?_⟩
  rw [wp_bind, wp_modify, wp_bind]
  have hmem : ind ∈ T ∪ {addr, fs0.sb.bblock addr} ∪ overhead fs2.sb (fs2.inode ip).d := by
    rw [hinode]
    refine mem_union_right _ ?_
    rw [overhead, hind, if_neg hne]
    exact mem_insert_self ..
  have hle2 := card_pair_le T addr (fs0.sb.bblock addr)
  refine wp_imp ((hspent.setData _).wp_logWrite hmem (by omega)) fun _ fs3 h3 => wp_pure.mpr h3

end Spent

/-! ### writei -/

section Write

variable {src : Nat → Nat → Prog ε U (List UInt8 × Bool)} {addr tot m fuel : Nat} {s : State × U}

/-- What may stop a write: the log has no room, or the other side stops. -/
abbrev Unbudgeted (fs0 : State) : Panic ⊕ ε → Prop := Sum.elim (Unreserved fs0) fun _ => True

/-- One turn of the loop after `bmap`: the block costs nothing more. -/
theorem wp_writeTurn {next : IoM ε U (Nat × Nat)} {Q : Nat × Nat → State × U → Prop}
    {o : Nat} (h : Spent T fs0 ip s.1) (haddr : addr ∈ T) (hcard : T.card + 3 ≤ MAXOPBLOCKS)
    (hnext : ∀ s', Spent T fs0 ip s'.1 → wp next Q (Unbudgeted fs0) s')
    (hstop : ∀ s', Spent T fs0 ip s'.1 → Q (tot, off) s') :
    wp (do
      let (bs, ok) ← onSide (src tot m)
      onFs (.modify fun fs =>
        let b := store (fs.data addr) o bs
        { fs with data := update fs.data addr b })
      if ok then do
        onFs (logWrite addr)
        next
      else pure (tot, off)) Q (Unbudgeted fs0) s := by
  rw [wp_bind, onSide, wp_zoom]
  refine wp_mono (wp_true _ _) ?_ fun _ _ => trivial
  rintro ⟨bs, ok⟩ u -
  rw [wp_bind, onFs, wp_zoom, wp_modify, wp_ite]
  refine ⟨fun _ => ?_, fun _ => wp_pure.mpr (hstop _ (h.setData _))⟩
  rw [wp_bind, onFs, wp_zoom]
  exact wp_imp ((h.setData _).wp_logWrite (mem_union_left _ haddr) hcard)
    fun _ fs1 h1 => hnext _ h1

/-- The turns of the loop that start at a block boundary cost two blocks each. -/
theorem wp_writeAligned (h : Spent T fs0 ip s.1) (halign : off % BSIZE = 0 ∨ n ≤ tot)
    (hmax : off + (n - tot) ≤ MAXFILE * BSIZE)
    (hcard : T.card + 2 * ((n - tot + BSIZE - 1) / BSIZE) + 3 ≤ MAXOPBLOCKS) :
    wp (writeLoop ip src n fuel tot off)
      (fun _ s' => ∃ T', T'.card + 3 ≤ MAXOPBLOCKS ∧ Spent T' fs0 ip s'.1) (Unbudgeted fs0) s := by
  induction fuel generalizing T tot off s with
  | zero => exact wp_pure.mpr ⟨T, by omega, h⟩
  | succ fuel ih =>
    rw [writeLoop, wp_ite]
    refine ⟨fun hlt => ?_, fun _ => wp_pure.mpr ⟨T, by omega, h⟩⟩
    have hstart : off % BSIZE = 0 := halign.resolve_right (by omega)
    have hbn : off / BSIZE < MAXFILE := by
      rw [BSIZE_eq] at *
      omega
    have hturn : 1 ≤ (n - tot + BSIZE - 1) / BSIZE := by
      rw [BSIZE_eq]
      omega
    rw [wp_bind, onFs, wp_zoom]
    refine wp_imp (h.wp_bmap (by omega) hbn) fun addr fs1 h1 => ?_
    have hle := card_pair_le T addr (fs0.sb.bblock addr)
    have hspent : (T ∪ {addr, fs0.sb.bblock addr}).card + 3 ≤ MAXOPBLOCKS := by omega
    rw [wp_ite]
    refine ⟨fun _ => wp_pure.mpr ⟨_, hspent, h1⟩, fun _ => ?_⟩
    refine wp_writeTurn h1 ?_ hspent (fun s' h' => ih h' ?_ ?_ ?_) fun s' h' => ⟨_, hspent, h'⟩
    · exact mem_union_right _ (mem_insert_self ..)
    · rw [BSIZE_eq] at *
      omega
    · omega
    · have hnext : (n - (tot + min (n - tot) (BSIZE - off % BSIZE)) + BSIZE - 1) / BSIZE + 1 ≤
          (n - tot + BSIZE - 1) / BSIZE := by
        rw [BSIZE_eq] at *
        omega
      omega

/-- The loop: if the first turn starts inside a block, that block is there. -/
theorem wp_writeLoop_budget (hw : Whole fs.data (fs.inode ip).d)
    (hoff : off ≤ (fs.inode ip).d.size) (hmax : off + n ≤ MAXFILE * BSIZE)
    (hchunk : n ≤ (MAXOPBLOCKS - 1 - 1 - 2) / 2 * BSIZE) {u : U} :
    wp (writeLoop ip src n fuel 0 off)
      (fun _ s' => ∃ T, T.card + 3 ≤ MAXOPBLOCKS ∧ Spent T fs ip s'.1) (Unbudgeted fs) (fs, u) := by
  have hstart := Spent.refl fs ip
  rw [show (MAXOPBLOCKS - 1 - 1 - 2) / 2 = 3 from rfl] at hchunk
  by_cases halign : off % BSIZE = 0
  · refine wp_writeAligned hstart (.inl halign) hmax ?_
    rw [card_empty, show MAXOPBLOCKS = 10 from rfl]
    rw [BSIZE_eq] at *
    omega
  cases fuel with
  | zero => exact wp_pure.mpr ⟨∅, by decide, hstart⟩
  | succ fuel =>
    rw [writeLoop, wp_ite]
    refine ⟨fun hlt => ?_, fun _ => wp_pure.mpr ⟨∅, by decide, hstart⟩⟩
    have hbn : off / BSIZE < MAXFILE := by
      rw [BSIZE_eq] at *
      omega
    have hne := hw.mapped (off / BSIZE) (by rw [BSIZE_eq] at *; omega)
    rw [wp_bind, onFs, wp_zoom]
    refine wp_mono (wp_bmap_mapped hbn hne) ?_ fun _ h => h.elim
    rintro addr fs1 ⟨-, rfl⟩
    have hone : Spent {addr} fs1 ip fs1 := hstart.mono (empty_subset _)
    have hcard : ({addr} : Finset Nat).card + 3 ≤ MAXOPBLOCKS := by
      rw [card_singleton]
      decide
    rw [wp_ite]
    refine ⟨fun _ => wp_pure.mpr ⟨_, hcard, hone⟩, fun _ => ?_⟩
    refine wp_writeTurn hone (mem_singleton_self addr) hcard
      (fun s' h' => wp_writeAligned h' ?_ ?_ ?_) fun s' h' => ⟨_, hcard, h'⟩
    · rw [BSIZE_eq] at *
      omega
    · omega
    · rw [card_singleton, show MAXOPBLOCKS = 10 from rfl]
      rw [BSIZE_eq] at *
      omega

/-- **A chunk fits.** Whatever the size of the file system and whatever its free map says,
a write to a file without holes, of at most as many bytes as `filewrite` gives to one
transaction, adds at most `MAXOPBLOCKS` blocks to the list of logged blocks: data blocks,
the indirect block, blocks of the free map and the block of the inode. It is stopped by the
log only if `begin_op` has reserved nothing. -/
theorem writei_budget (hw : Whole fs.data (fs.inode ip).d)
    (hchunk : n ≤ (MAXOPBLOCKS - 1 - 1 - 2) / 2 * BSIZE) (off : Nat) (u : U) :
    wp (writei ip src off n) (fun _ s' => ∃ new, s'.1.lh = fs.lh ++ new ∧ new.Nodup ∧
      new.length ≤ MAXOPBLOCKS) (Unbudgeted fs) (fs, u) := by
  have hnothing : ∃ new, fs.lh = fs.lh ++ new ∧ new.Nodup ∧ new.length ≤ MAXOPBLOCKS :=
    ⟨[], (List.append_nil _).symm, List.nodup_nil, Nat.zero_le _⟩
  rw [writei, wp_bind, onFs, wp_zoom, dinodeOf, wp_gets]
  dsimp only
  rw [wp_ite]
  refine ⟨fun _ => wp_pure.mpr hnothing, fun hoff => ?_⟩
  rw [wp_ite]
  refine ⟨fun _ => wp_pure.mpr hnothing, fun hmax => ?_⟩
  refine wp_then (wp_writeLoop_budget hw (by omega) (by omega) hchunk) ?_
  rintro ⟨tot, off'⟩ ⟨fs1, u1⟩ ⟨T, hcard, h1⟩
  dsimp only at h1 ⊢
  have hle := card_union_overhead_le T fs1.sb (fs1.inode ip).d
  rw [wp_bind, onFs, wp_zoom, setDinode, setInode, wp_modify, wp_bind, onFs, wp_zoom]
  have hsized : Logged (T ∪ overhead fs1.sb (fs1.inode ip).d) fs (fs1.setInode ip fun i =>
      { i with d := { i.d with size := if i.d.size < off' then off' else i.d.size } }) :=
    h1.logged.congr rfl rfl
  refine wp_imp (hsized.wp_iupdate (by omega)) fun _ fs2 h2 => wp_pure.mpr ?_
  obtain ⟨new, hlh, hnodup, hlen⟩ := h2.exists_new
  exact ⟨new, hlh, hnodup, hlen.trans ((card_insert_le ..).trans (by omega))⟩

end Write

/-- An operation has begun, and inode 1 is a file whose twelve direct blocks are in use, the
last of them in part. -/
def twelveBlocks : State :=
  { bare 1 with
    bitmap := fun b => b < 15
    inode := update (bare 1).inode 0 ⟨1, 1, true, true, { emptyDir with
      type := .file
      size := 11 * BSIZE + 600
      addrs := fun k => if k < NDIRECT then k + 3 else 0 }⟩ }

theorem whole_twelveBlocks : Whole twelveBlocks.data (twelveBlocks.inode 0).d := by
  refine ⟨by decide, fun bn hbn => ?_⟩
  have hsize : bn * 1024 < 11 * 1024 + 600 := hbn
  have hlt : bn < NDIRECT := (by omega : bn < 12)
  rw [place, if_pos hlt, ptr, if_pos hlt.le]
  change (if bn < NDIRECT then bn + 3 else 0) ≠ 0
  rw [if_pos hlt]
  exact Nat.succ_ne_zero _

/-- A chunk of full size is written from the middle of the last direct block on: four blocks
of data, three of them new, and the indirect block. -/
theorem writei_budget_indirect : ∃ s', (writei 0 (fun _ m => pure (List.replicate m 7, true))
    (11 * BSIZE + 500) 3072 : IoM Empty Unit Int) (twelveBlocks, ()) = .ok (3072, s') ∧
    s'.1.lh.length = 7 ∧ ∃ new, s'.1.lh = twelveBlocks.lh ++ new ∧ new.Nodup ∧
      new.length ≤ MAXOPBLOCKS := by
  have heval : ((writei 0 (fun _ m => pure (List.replicate m 7, true)) (11 * BSIZE + 500) 3072 :
      IoM Empty Unit Int) (twelveBlocks, ())).toOption.map (fun r => (r.1, r.2.1.lh.length)) =
      some (3072, 7) := by decide +kernel
  obtain ⟨⟨r, s'⟩, hr, hval⟩ := Option.map_eq_some_iff.mp heval
  obtain ⟨rfl, hlen⟩ := Prod.mk.inj hval
  have hok := ok_of_toOption hr
  exact ⟨s', hok, hlen, wp_ok (writei_budget whole_twelveBlocks (by decide) _ ()) hok⟩

end Xv6.Fs
