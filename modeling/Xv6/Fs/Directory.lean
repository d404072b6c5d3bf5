import Xv6.Fs.Names
import Xv6.Fs.Walk
import Xv6.Lib.Slots

/-!
# xv6 — directories

A directory is a table whose slots hold a name and an inode number, or are free. With
distinct names it is a map from names to numbers.

* `slot`, `Proper`   — the table, and when it is a map.
* `Put`              — what storing bytes in a file changes.
* `wp_dirlink`       — `dirlink` puts an entry into the first free slot, or changes nothing.
* `wp_eraseEntry`    — what `sys_unlink` does to an entry.
* `directory_map`    — both as operations on the map.
-/

namespace Xv6.Fs

open Prog ByteBuffer Words Function List

variable {E : Panic → Prop} {fs fs' fs'' : State} {A B : Multiset IPtr} {ip dp : IPtr}
  {v v' v'' : Volume} {i k off inum : Nat} {bs : List UInt8} {name : Path}

/-! ### What a directory holds -/

/-- Slot `k` of a directory: the name and the inode number of its entry. -/
def slot (v : Volume) (i k : Nat) : Option (Path × Nat) :=
  if (dirent v i k).inum = 0 then none
  else some (nameIn (dirent v i k).name, (dirent v i k).inum)

/-- A directory that ends with an entry and whose names are distinct. -/
structure Proper (v : Volume) (i : Nat) : Prop where
  dir : (v.node i).type = .dir
  entries : DIRENT ∣ (v.node i).size
  distinct : Slots.Distinct (slot v i) (slots (v.node i).size)

/-- Searching a directory is searching its table. -/
theorem lookup_eq_get (v : Volume) (i : Nat) (name : Path) :
    lookup v i name = (Slots.get (slot v i) (slots (v.node i).size) (nameIn name.buf)).map
      fun r => (r.1, r.2 * DIRENT) := by
  rw [lookup, Slots.get, map_findSome?]
  congr 1
  funext k
  rw [comp_apply, matchAt, slot]
  by_cases hzero : (dirent v i k).inum = 0
  · rw [if_pos hzero, if_pos hzero]
    rfl
  rw [if_neg hzero, if_neg hzero, Option.bind_some]
  by_cases hname : nameIn name.buf = nameIn (dirent v i k).name
  · rw [if_pos (sameName_iff.mpr hname), if_pos hname.symm]
    rfl
  · rw [if_neg (mt sameName_iff.mp hname), if_neg (Ne.symm hname)]
    rfl

theorem slots_mul (n : Nat) : slots (n * DIRENT) = n := by
  rw [slots, show DIRENT = 16 from rfl]
  omega

theorem Proper.size (h : Proper v i) : (v.node i).size = slots (v.node i).size * DIRENT := by
  obtain ⟨n, hn⟩ := h.entries
  rw [hn, Nat.mul_comm, slots_mul]

/-! ### The inode table -/

/-- From `fs` to `fs'` the references in `A` were taken. -/
structure Took (A : Multiset IPtr) (fs fs' : State) : Prop where
  ref : ∀ x, (fs'.inode x).ref = (fs.inode x).ref + A.count x
  known : ∀ x, 0 < (fs.inode x).ref → (fs'.inode x).inum = (fs.inode x).inum ∧
    ((fs.inode x).valid = true → (fs'.inode x).valid = true)

theorem Took.trans (h : Took A fs fs') (h' : Took B fs' fs'') : Took (A + B) fs fs'' := by
  refine ⟨fun x => ?_, fun x hx => ?_⟩
  · rw [h'.ref, h.ref, Multiset.count_add]
    omega
  · obtain ⟨hinum, hvalid⟩ := h.known x hx
    obtain ⟨hinum', hvalid'⟩ := h'.known x (by rw [h.ref]; omega)
    exact ⟨hinum'.trans hinum, hvalid' ∘ hvalid⟩

theorem Took.pos {x : IPtr} (h : Took A fs fs') (hx : 0 < (fs.inode x).ref) :
    0 < (fs'.inode x).ref := by
  rw [h.ref]
  omega

theorem Took.opened {x : IPtr} (h : Took A fs fs') (ho : Open fs x i) : Open fs' x i := by
  obtain ⟨hinum, hvalid⟩ := h.known x ho.pos
  exact ⟨h.pos ho.pos, hvalid ho.valid, hinum.trans ho.inum⟩

theorem Walked.took (h : Walked fs A fs') : Took A fs fs' := ⟨h.count, h.known⟩

/-- A walk leaves a file system between two calls. -/
theorem Walked.ready (h0 : Ready fs) (h : Walked fs A fs') : Ready fs' := by
  refine ⟨h.volume ▸ h0.sound, fun x => ?_, h.unique, h.synced, fun i htype hlink => ?_⟩
  · have hnonneg := h0.nonneg x
    rw [h.count]
    omega
  · rw [h.dinode] at htype hlink
    obtain ⟨x, hx, hinum⟩ := h0.kept i htype hlink
    exact ⟨x, by rw [h.count]; omega, (h.known x hx).1.trans hinum⟩

/-! ### An inode is replaced -/

theorem Ready.node (h : Ready fs) (ho : Open fs ip i) : (fs.inode ip).d = fs.volume.node i :=
  h.walked.node ho

theorem Ready.type (h : Ready fs) (ho : Open fs ip i) : (fs.volume.node i).type ≠ .free := by
  rw [← h.node ho]
  exact (h.synced ip ho.pos ho.valid).2

theorem Ready.working (h : Ready fs) (ho : Open fs ip i) : fs.working ip = fs.volume :=
  fs.working_eq ip (h.synced ip ho.pos ho.valid).1

theorem Ready.whole (h : Ready fs) (ho : Open fs ip i) :
    Whole fs.volume.data (fs.volume.node i) := h.sound.whole i (h.type ho)

/-- An open inode is replaced, in memory and on disk. -/
theorem Ready.replace {d : Dinode} {bitmap : Nat → Bool} {data : Nat → Buffer} {lh : List Nat}
    (h : Ready fs) (ho : Open fs ip i) (htype : d.type ≠ .free)
    (hsound : ((fs.rework ip d bitmap data lh).putNode i d).volume.Sound) :
    Ready ((fs.rework ip d bitmap data lh).putNode i d) ∧
      Took 0 fs ((fs.rework ip d bitmap data lh).putNode i d) := by
  have hsame : ((fs.rework ip d bitmap data lh).putNode i d).inode ip =
      { fs.inode ip with d := d } := fs.rework_inode ip d bitmap data lh
  have hother : ∀ x, x ≠ ip → ((fs.rework ip d bitmap data lh).putNode i d).inode x = fs.inode x :=
    fun x hx => fs.rework_inode_of_ne ip d bitmap data lh hx
  have hnode : ((fs.rework ip d bitmap data lh).putNode i d).dinode =
      update fs.dinode i d := rfl
  generalize (fs.rework ip d bitmap data lh).putNode i d = fs' at *
  have hentry : ∀ x, (fs'.inode x).ref = (fs.inode x).ref ∧ (fs'.inode x).inum = (fs.inode x).inum ∧
      (fs'.inode x).valid = (fs.inode x).valid := by
    intro x
    by_cases hx : x = ip
    · rw [hx, hsame]
      exact ⟨rfl, rfl, rfl⟩
    · rw [hother x hx]
      exact ⟨rfl, rfl, rfl⟩
  refine ⟨⟨hsound, fun x => ?_, fun x y hx hy hxy => ?_, fun x hx hvalid => ?_,
    fun j hj hlink => ?_⟩, fun x => ?_, fun x _ => ?_⟩
  · rw [(hentry x).1]
    exact h.nonneg x
  · rw [(hentry x).1] at hx
    rw [(hentry y).1] at hy
    rw [(hentry x).2.1, (hentry y).2.1] at hxy
    exact h.unique x y hx hy hxy
  · rw [(hentry x).1] at hx
    rw [(hentry x).2.2] at hvalid
    rw [hnode]
    by_cases hxp : x = ip
    · rw [hxp, hsame, ho.inum, update_self]
      exact ⟨rfl, htype⟩
    · have hne : (fs.inode x).inum ≠ i := fun heq =>
        hxp (h.unique x ip hx ho.pos (heq.trans ho.inum.symm))
      rw [hother x hxp, update_of_ne hne]
      exact h.synced x hx hvalid
  · by_cases hji : j = i
    · exact ⟨ip, by rw [(hentry ip).1]; exact ho.pos, by rw [(hentry ip).2.1, ho.inum, hji]⟩
    · rw [hnode, update_of_ne hji] at hj hlink
      obtain ⟨x, hx, hinum⟩ := h.kept j hj hlink
      exact ⟨x, by rw [(hentry x).1]; exact hx, by rw [(hentry x).2.1, hinum]⟩
  · rw [(hentry x).1]
    simp
  · rw [(hentry x).2.1, (hentry x).2.2]
    exact ⟨rfl, id⟩

/-- A disk in order stays so if one inode is replaced by one that is in order. -/
theorem Volume.Elsewhere.sound (h : v.Elsewhere v' i) (hv : v.Sound) (hexact : v'.Exact)
    (hwhole : Whole v'.data (v'.node i)) : v'.Sound := by
  refine ⟨h.sb ▸ hv.size_le, hexact, fun j htype => ?_⟩
  by_cases hj : j = i
  · rw [hj]
    exact hwhole
  · rw [h.others j hj] at htype
    exact h.whole hj htype (hv.whole j htype)

/-! ### Bytes are stored in a file -/

/-- The bytes `bs` were stored in inode `i` at offset `off`, which may have grown, and
nothing else has changed. -/
structure Put (i off : Nat) (bs : List UInt8) (fs fs' : State) : Prop where
  ready : Ready fs'
  took : Took 0 fs fs'
  away : fs.volume.Elsewhere fs'.volume i
  node : ∃ addrs, fs'.volume.node i = { fs.volume.node i with
    size := max (fs.volume.node i).size (off + bs.length), addrs := addrs }
  bytes : ∀ o, o < (fs'.volume.node i).size → byteAt fs'.volume.data (fs'.volume.node i) o =
    store (byteAt fs.volume.data (fs.volume.node i)) off bs o

theorem load_getD_drop {tot m : Nat} (h : tot + m ≤ bs.length) :
    load (fun i => bs.getD i 0) tot m = (bs.drop tot).take m := by
  refine ext_getElem ?_ fun j hj _ => ?_
  · rw [length_load, length_take, length_drop]
    omega
  · rw [length_load] at hj
    have hlt : tot + j < bs.length := by omega
    simp [load, hlt]

/-- **`writei` from the kernel.** -/
theorem wp_writeiKernel (hE : ∀ e, e.ofLog = true → E e) (h : Ready fs) (ho : Open fs ip i) :
    wp (writeiKernel ip bs off) (fun r fs' => r = -1 ∧ fs' = fs ∧
        ((fs.volume.node i).size < off ∨ MAXFILE * BSIZE < off + bs.length) ∨
      ∃ tot : Nat, r = (tot : Int) ∧ tot ≤ bs.length ∧ off ≤ (fs.volume.node i).size ∧
        Put i off (bs.take tot) fs fs' ∧ (tot = bs.length ∨
          ptr fs'.volume.data (fs'.volume.node i) (place ((off + tot) / BSIZE)) = 0)) E fs := by
  have hd := h.node ho
  have hwork := h.working ho
  have hwhole := h.whole ho
  rw [writeiKernel, wp_bind, wp_withLocal]
  refine wp_mono (Fs.wp_writei (F := fun _ => False) True (fun i => bs.getD i 0)
    (J := fun _ _ => True) (K := fun _ => False) hE (fun tot m u hm _ => wp_pure.mpr ?_)
    h.sound.size_le (hd.symm ▸ h.type ho) (hwork.symm ▸ h.sound.exact) (hd.symm ▸ hwhole)
    trivial) ?_ ?_
  · rw [if_pos rfl, load_getD_drop hm]
    exact ⟨trivial, fun _ => rfl⟩
  · rintro r ⟨fs', u⟩ (⟨rfl, heq, hout⟩ | ⟨tot, rfl, htot, hoff, -, hwritten, hend⟩)
    · cases heq
      rw [hd] at hout
      exact wp_pure.mpr (.inl ⟨rfl, rfl, hout⟩)
    rcases hend with ⟨-, hbytes, hend⟩ | ⟨-, hfalse⟩
    swap
    · exact hfalse.elim
    dsimp only at hwritten hbytes hend
    have haway := hwritten.away
    rw [hwork, ho.inum] at haway
    have hwhole' := hwritten.whole
    have hexact := hwritten.exact
    obtain ⟨addrs, bitmap, data, lh, hfs'⟩ := hwritten.frame
    rw [ho.inum, hd] at hfs'
    have hnode : (fs'.inode ip).d = fs'.volume.node i := by
      rw [hfs']
      simp [State.volume, State.putNode]
    rw [hnode] at hwhole' hbytes hend
    have hsound : fs'.volume.Sound := haway.sound h.sound hexact hwhole'
    have hlen : (bs.take tot).length = tot := by rw [length_take, Nat.min_eq_left htot]
    have hsize : fs'.volume.node i = { fs.volume.node i with
        size := max (fs.volume.node i).size (off + tot), addrs := addrs } := by
      rw [hfs']
      simp [State.volume, State.putNode]
    obtain ⟨hready, htook⟩ : Ready fs' ∧ Took 0 fs fs' := by
      rw [hfs'] at hsound ⊢
      exact h.replace ho (h.type ho) hsound
    refine wp_pure.mpr (.inr ⟨tot, rfl, htot, hd ▸ hoff, ⟨hready, htook, haway, ⟨addrs, ?_⟩,
      fun o ho' => ?_⟩, hend⟩)
    · rw [hsize, hlen]
    · rw [hsize] at ho'
      have hbyte := hbytes trivial o (by rw [hd]; exact ho')
      rw [load_getD_drop (by omega), drop_zero] at hbyte
      rw [← hd]
      exact hbyte
  · rintro (e | e) he
    · exact he
    · exact he.elim

namespace Put

/-- Nothing happens before bytes are stored but a walk. -/
theorem of_walked (hw : Walked fs 0 fs') (h : Put i off bs fs' fs'') : Put i off bs fs fs'' := by
  have hvolume := hw.volume
  have haway := h.away
  have hnode := h.node
  have hbytes := h.bytes
  rw [hvolume] at haway hnode hbytes
  exact ⟨h.ready, hw.took.trans h.took, haway, hnode, hbytes⟩

/-- A walk stores nothing. -/
theorem nothing (h0 : Ready fs) (hw : Walked fs 0 fs') : Put i 0 [] fs fs' := by
  refine ⟨hw.ready h0, hw.took, hw.volume ▸ .refl .., ⟨(fs.volume.node i).addrs, ?_⟩, fun o _ => ?_⟩
  · rw [hw.volume]
    simp
  · rw [hw.volume, store_nil]

/-- Storing no bytes at an offset is storing none at all. -/
theorem at_zero (h : Put i off [] fs fs') (hoff : off ≤ (fs.volume.node i).size) :
    Put i 0 [] fs fs' := by
  obtain ⟨addrs, hnode⟩ := h.node
  refine ⟨h.ready, h.took, h.away, ⟨addrs, ?_⟩, fun o ho => ?_⟩
  · rw [hnode]
    simp [hoff]
  · rw [h.bytes o ho, store_nil, store_nil]

theorem size (h : Put i off bs fs fs') :
    (fs'.volume.node i).size = max (fs.volume.node i).size (off + bs.length) := by
  obtain ⟨addrs, hnode⟩ := h.node
  rw [hnode]

theorem type (h : Put i off bs fs fs') : (fs'.volume.node i).type = (fs.volume.node i).type := by
  obtain ⟨addrs, hnode⟩ := h.node
  rw [hnode]

/-- The entries of a directory when one was stored. -/
theorem dirent (h : Put i (k * DIRENT) bs fs fs') (hlen : bs.length = DIRENT) {j : Nat}
    (hj : j * DIRENT + DIRENT ≤ (fs'.volume.node i).size) : dirent fs'.volume i j =
      if j = k then Dirent.ofBytes bs else Fs.dirent fs.volume i j := by
  have hload : load (byteAt fs'.volume.data (fs'.volume.node i)) (j * DIRENT) DIRENT =
      load (store (byteAt fs.volume.data (fs.volume.node i)) (k * DIRENT) bs) (j * DIRENT)
        DIRENT :=
    load_congr fun o ho => h.bytes _ (by omega)
  rw [Fs.dirent, hload]
  by_cases hjk : j = k
  · rw [if_pos hjk, hjk]
    nth_rewrite 3 [← hlen]
    rw [load_store]
  · rw [if_neg hjk, load_store_of_disjoint, Fs.dirent]
    rw [hlen, show DIRENT = 16 from rfl]
    omega

end Put

/-! ### dirlink -/

/-- The slot that `dirlink` takes: the first free one, or one behind the last. -/
structure FirstFree (v : Volume) (i k : Nat) : Prop where
  le : k ≤ slots (v.node i).size
  free : k < slots (v.node i).size → slot v i k = none
  used : ∀ j, j < k → slot v i j ≠ none

theorem slot_eq_none_iff : slot v i k = none ↔ (dirent v i k).inum = 0 := by
  rw [slot]
  split <;> simp_all

/-- The search for a free slot. -/
theorem wp_freeSlot_search (h : Ready fs) (ho : Open fs dp i)
    (hread : ¬ DIRENT ∣ (fs.volume.node i).size → E .dirlinkRead) :
    wp (firstM (fun k => do
      let de ← readDirent dp (k * DIRENT) .dirlinkRead
      pure (if de.inum = 0 then some k else none)) (range (slots (fs.volume.node i).size)))
      (fun r fs' => fs' = fs ∧ FirstFree fs.volume i (r.getD (slots (fs.volume.node i).size)))
      E fs := by
  rw [range_eq_range']
  refine wp_imp (wp_firstM_range
    (I := fun j fs' => fs' = fs ∧ ∀ j', j' < j → slot fs.volume i j' ≠ none)
    (A := fun k fs' => fs' = fs ∧ FirstFree fs.volume i k) _ 0 (fun j fs' _ hj ⟨hfs', hused⟩ => ?_)
    ⟨rfl, fun j' hj' => absurd hj' (Nat.not_lt_zero j')⟩) fun r fs' h' => ?_
  · rw [hfs']
    refine wp_then (h.walked.wp_readDirent h ho fun hlen => hread fun hdvd => hlen ?_) ?_
    · exact Walked.readLen_dirent (h.whole ho).size_le hdvd (by omega)
    rintro _ fs1 ⟨hfs1, rfl⟩
    rw [hfs1]
    refine wp_pure.mpr ?_
    by_cases hzero : (dirent fs.volume i j).inum = 0
    · rw [if_pos hzero]
      exact ⟨rfl, by omega, fun _ => slot_eq_none_iff.mpr hzero, hused⟩
    · rw [if_neg hzero]
      refine ⟨rfl, fun j' hj' => ?_⟩
      rcases Nat.lt_succ_iff_lt_or_eq.mp hj' with hj' | rfl
      · exact hused j' hj'
      · exact mt slot_eq_none_iff.mp hzero
  · cases r with
    | none =>
      rw [Nat.zero_add] at h'
      exact ⟨h'.1, le_rfl, fun hlt => absurd hlt (lt_irrefl _), h'.2⟩
    | some k => exact h'

/-- An entry is written as a whole or not at all: it lies in one block. -/
theorem wp_writeDirent (hE : ∀ e, e.ofLog = true → E e) (h : Ready fs) (ho : Open fs dp i)
    (hlen : bs.length = DIRENT) : wp (writeiKernel dp bs (k * DIRENT)) (fun r fs' =>
      r = (DIRENT : Int) ∧ k * DIRENT ≤ (fs.volume.node i).size ∧ Put i (k * DIRENT) bs fs fs' ∨
      r ≠ (DIRENT : Int) ∧ ¬ k * DIRENT + DIRENT ≤ (fs.volume.node i).size ∧
        Put i 0 [] fs fs') E fs := by
  have hwhole := h.whole ho
  refine wp_imp (wp_writeiKernel hE h ho) ?_
  rintro r fs' (⟨rfl, rfl, hout⟩ | ⟨tot, rfl, htot, hoff, hput, hend⟩)
  · refine .inr ⟨by decide, fun hin => ?_, .nothing h h.walked⟩
    have hle := hwhole.size_le
    rw [hlen] at hout
    omega
  rcases Nat.eq_or_lt_of_le htot with rfl | hlt
  · rw [take_length] at hput
    exact .inl ⟨by rw [hlen], hoff, hput⟩
  -- the block of the entry could not be had
  have hnone := hend.resolve_left hlt.ne
  have hblock : (k * DIRENT + tot) / BSIZE = k * DIRENT / BSIZE := by
    rw [hlen] at hlt
    rw [show DIRENT = 16 from rfl, BSIZE_eq] at *
    omega
  have hsize := hput.size
  have hmap := (hput.ready.whole (hput.took.opened ho)).mapped (k * DIRENT / BSIZE)
  rw [hblock] at hnone
  rw [hsize, length_take, Nat.min_eq_left htot] at hmap
  have hshort : ¬ k * DIRENT / BSIZE * BSIZE < max (fs.volume.node i).size (k * DIRENT + tot) :=
    fun hlt => hmap hlt hnone
  obtain rfl : tot = 0 := by
    rw [BSIZE_eq] at hshort
    omega
  refine .inr ⟨by decide, fun hin => hshort ?_, hput.at_zero hoff⟩
  rw [BSIZE_eq] at *
  omega

/-- **`dirlink`** stores an entry in the first free slot if the name is new and there is
room; otherwise it changes nothing. -/
theorem wp_dirlink (hE : ∀ e, e.ofLog = true → E e)
    (hget : (∀ x, (fs.inode x).ref ≠ 0) → E .igetNoInodes)
    (hread : ¬ DIRENT ∣ (fs.volume.node i).size → E .dirlookupRead ∧ E .dirlinkRead) (h : Ready fs)
    (ho : Open fs dp i) (hdir : (fs.volume.node i).type = .dir) :
    wp (dirlink dp name inum) (fun ok fs' =>
      if ok then lookup fs.volume i name = none ∧ ∃ k, FirstFree fs.volume i k ∧
        k * DIRENT ≤ (fs.volume.node i).size ∧ Put i (k * DIRENT) (direntBytes inum name) fs fs'
      else Put i 0 [] fs fs') E fs := by
  refine wp_then (h.walked.wp_dirlookup h ho hdir hget fun hdvd => (hread hdvd).1) ?_
  rintro a fs1 ⟨hfound, hopen⟩
  cases hlook : lookup fs.volume i name with
  | some r =>
    rw [hlook] at hfound
    cases a with
    | none => exact hfound.elim
    | some a =>
      obtain ⟨ip, off⟩ := a
      obtain ⟨inum, off'⟩ := r
      obtain ⟨h1, -⟩ := hfound
      exact wp_then (h1.wp_iput h) fun _ fs2 h2 => wp_pure.mpr (.nothing h h2.1)
  | none =>
    rw [hlook] at hfound
    cases a with
    | some a => exact hfound.elim
    | none =>
      have h1 : Walked fs 0 fs1 := hfound
      have ho1 := hopen dp i ho
      have hready := h1.ready h
      rw [wp_bind, dinodeOf, wp_gets, hready.node ho1, wp_bind]
      have hvolume := h1.volume
      refine wp_imp (wp_freeSlot_search hready ho1 fun hdvd => (hread (hvolume ▸ hdvd)).2) ?_
      rintro free fs2 ⟨rfl, hfree⟩
      refine wp_then (wp_writeDirent hE hready ho1 (length_direntBytes inum name)) ?_
      rintro r fs3 (⟨rfl, hoff, hput⟩ | ⟨hr, -, hput⟩)
      · refine wp_pure.mpr ?_
        rw [if_pos (decide_eq_true rfl)]
        rw [hvolume] at hfree hoff
        have hput' := Put.of_walked h1 hput
        rw [hvolume] at hput'
        exact ⟨rfl, _, hfree, hoff, hput'⟩
      · refine wp_pure.mpr ?_
        rw [if_neg (by simpa using hr)]
        exact .of_walked h1 hput

/-! ### Directories as maps -/

/-- The directory has the same names. -/
theorem Put.same_names (h : Put i 0 [] fs fs') (hp : Proper fs.volume i) :
    Proper fs'.volume i ∧ (fs'.volume.node i).size = (fs.volume.node i).size ∧
      ∀ name, lookup fs'.volume i name = lookup fs.volume i name := by
  have hsize : (fs'.volume.node i).size = (fs.volume.node i).size := by simpa using h.size
  have hslot : ∀ k, k < slots (fs.volume.node i).size →
      slot fs'.volume i k = slot fs.volume i k := by
    intro k hk
    have hend := hp.size
    have hdirent : Fs.dirent fs'.volume i k = Fs.dirent fs.volume i k := by
      rw [Fs.dirent, Fs.dirent, load_congr fun o ho => ?_]
      rw [h.bytes _ ?_, store_nil]
      rw [show DIRENT = 16 from rfl] at *
      omega
    rw [slot, slot, hdirent]
  refine ⟨⟨h.type ▸ hp.dir, hsize ▸ hp.entries, ?_⟩, hsize, fun name => ?_⟩
  · rw [hsize]
    exact hp.distinct.congr hslot
  · rw [lookup_eq_get, lookup_eq_get, hsize, Slots.get_congr_of_eq hp.distinct hslot]

/-- The slots of a directory when an entry was stored. -/
theorem Put.slot (h : Put i (k * DIRENT) bs fs fs') (hlen : bs.length = DIRENT)
    (hp : Proper fs.volume i) : DIRENT ∣ (fs'.volume.node i).size ∧
    slots (fs'.volume.node i).size = max (slots (fs.volume.node i).size) (k + 1) ∧
    ∀ j, j < slots (fs'.volume.node i).size → slot fs'.volume i j = if j = k then
        if (Dirent.ofBytes bs).inum = 0 then none
        else some (nameIn (Dirent.ofBytes bs).name, (Dirent.ofBytes bs).inum)
      else Fs.slot fs.volume i j := by
  have hsize : (fs'.volume.node i).size =
      max (slots (fs.volume.node i).size) (k + 1) * DIRENT := by
    rw [h.size, hlen, hp.size, slots_mul, show DIRENT = 16 from rfl]
    omega
  rw [hsize, slots_mul]
  refine ⟨Dvd.intro_left _ rfl, rfl, fun j hj => ?_⟩
  have hdirent := h.dirent hlen (j := j) (by rw [hsize, show DIRENT = 16 from rfl]; omega)
  rw [Fs.slot, hdirent]
  by_cases hjk : j = k
  · rw [if_pos hjk, if_pos hjk]
  · rw [if_neg hjk, if_neg hjk]
    rfl

/-- **A new entry** adds a name to the map. -/
theorem Put.insert (h : Put i (k * DIRENT) (direntBytes inum name) fs fs') (hp : Proper fs.volume i)
    (hzero : inum ≠ 0) (hlt : inum < 2 ^ 16) (hnone : lookup fs.volume i name = none)
    (hfree : FirstFree fs.volume i k) :
    Proper fs'.volume i ∧ lookup fs'.volume i name = some (inum, k * DIRENT) ∧
      ∀ other, nameIn other.buf ≠ nameIn name.buf →
        lookup fs'.volume i other = lookup fs.volume i other := by
  obtain ⟨hdvd, hslots, hslot⟩ := h.slot (length_direntBytes inum name) hp
  obtain ⟨hinum, hname⟩ := ofBytes_direntBytes hlt name
  rw [hinum, if_neg hzero, hname] at hslot
  rw [lookup_eq_get, Option.map_eq_none_iff] at hnone
  obtain ⟨hdistinct, hget, hothers⟩ :=
    Slots.get_insert hp.distinct hnone hfree.le hfree.free inum
  have hupdate : ∀ j, j < slots (fs'.volume.node i).size → Fs.slot fs'.volume i j =
      update (Fs.slot fs.volume i) k (some (nameIn name.buf, inum)) j := by
    intro j hj
    rw [hslot j hj, update_apply]
  rw [← hslots] at hdistinct hget hothers
  refine ⟨⟨h.type ▸ hp.dir, hdvd, hdistinct.congr hupdate⟩, ?_, fun other hother => ?_⟩
  · rw [lookup_eq_get, Slots.get_congr_of_eq hdistinct hupdate, hget]
    rfl
  · rw [lookup_eq_get, lookup_eq_get, Slots.get_congr_of_eq hdistinct hupdate, hothers _ hother]

/-- **An entry of zeros** removes a name from the map. -/
theorem Put.erase (h : Put i off (replicate DIRENT 0) fs fs') (hp : Proper fs.volume i)
    (hlook : lookup fs.volume i name = some (inum, off)) :
    Proper fs'.volume i ∧ (fs'.volume.node i).size = (fs.volume.node i).size ∧
      lookup fs'.volume i name = none ∧ ∀ other, nameIn other.buf ≠ nameIn name.buf →
        lookup fs'.volume i other = lookup fs.volume i other := by
  rw [lookup_eq_get, Option.map_eq_some_iff] at hlook
  obtain ⟨⟨_, k⟩, hget, heq⟩ := hlook
  obtain ⟨rfl, rfl⟩ := Prod.mk.inj heq
  obtain ⟨hk, hentry⟩ := Slots.of_get_eq_some hget
  obtain ⟨hdvd, hslots, hslot⟩ := h.slot (length_replicate ..) hp
  rw [show (Dirent.ofBytes (replicate DIRENT 0)).inum = 0 from rfl, if_pos rfl] at hslot
  rw [Nat.max_eq_left hk] at hslots
  obtain ⟨hdistinct, hgone, hothers⟩ := Slots.get_erase hp.distinct hk hentry
  have hupdate : ∀ j, j < slots (fs'.volume.node i).size → Fs.slot fs'.volume i j =
      update (Fs.slot fs.volume i) k none j := by
    intro j hj
    rw [hslot j hj, update_apply]
  have hsize : (fs'.volume.node i).size = (fs.volume.node i).size := by
    obtain ⟨n, hn⟩ := hdvd
    rw [hn, Nat.mul_comm, slots_mul] at hslots
    rw [hn, hp.size, hslots, Nat.mul_comm]
  rw [← hslots] at hdistinct hgone hothers
  refine ⟨⟨h.type ▸ hp.dir, hdvd, hdistinct.congr hupdate⟩, hsize, ?_, fun other hother => ?_⟩
  · rw [lookup_eq_get, Slots.get_congr_of_eq hdistinct hupdate, hgone]
    rfl
  · rw [lookup_eq_get, lookup_eq_get, Slots.get_congr_of_eq hdistinct hupdate, hothers _ hother,
      hslots]

/-- The entry that was found is erased. -/
theorem wp_eraseEntry (hE : ∀ e, e.ofLog = true → E e) (h : Ready fs) (ho : Open fs dp i)
    (hp : Proper fs.volume i) (hlook : lookup fs.volume i name = some (inum, off)) :
    wp (writeiKernel dp (replicate DIRENT 0) off) (fun r fs' =>
      r = (DIRENT : Int) ∧ Put i off (replicate DIRENT 0) fs fs') E fs := by
  rw [lookup_eq_get, Option.map_eq_some_iff] at hlook
  obtain ⟨⟨_, k⟩, hget, heq⟩ := hlook
  obtain ⟨rfl, rfl⟩ := Prod.mk.inj heq
  obtain ⟨hk, -⟩ := Slots.of_get_eq_some hget
  refine wp_imp (wp_writeDirent hE h ho (length_replicate ..)) ?_
  rintro r fs' (⟨hr, -, hput⟩ | ⟨-, hshort, -⟩)
  · exact ⟨hr, hput⟩
  · refine absurd ?_ hshort
    rw [hp.size, show DIRENT = 16 from rfl]
    omega

/-- **`isdirempty`** looks at all entries but the first two. -/
theorem wp_isdirempty (h : Ready fs) (ho : Open fs dp i)
    (hread : ¬ DIRENT ∣ (fs.volume.node i).size → E .isdiremptyReadi) :
    wp (isdirempty dp) (fun r fs' => fs' = fs ∧ (r = true ↔
      ∀ k, 2 ≤ k → k < slots (fs.volume.node i).size → slot fs.volume i k = none)) E fs := by
  rw [isdirempty, wp_bind, dinodeOf, wp_gets, h.node ho]
  refine wp_then (wp_firstM_range
    (I := fun j fs' => fs' = fs ∧ ∀ k, 2 ≤ k → k < j → slot fs.volume i k = none)
    (A := fun _ fs' => fs' = fs ∧
      ∃ k, 2 ≤ k ∧ k < slots (fs.volume.node i).size ∧ slot fs.volume i k ≠ none)
    _ 2 (fun j fs' hlo hj hI => ?_) ⟨rfl, fun k hk hk' => absurd hk (by omega)⟩)
    fun r fs' h' => wp_pure.mpr ?_
  · obtain ⟨hfs', hfree⟩ := hI
    rw [hfs']
    refine wp_then (h.walked.wp_readDirent h ho fun hlen => hread fun hdvd => hlen ?_) ?_
    · exact Walked.readLen_dirent (h.whole ho).size_le hdvd (by omega)
    rintro _ fs1 ⟨hfs1, rfl⟩
    rw [hfs1]
    refine wp_pure.mpr ?_
    by_cases hzero : (dirent fs.volume i j).inum = 0
    · rw [if_pos hzero]
      refine ⟨rfl, fun k hk hk' => ?_⟩
      rcases Nat.lt_succ_iff_lt_or_eq.mp hk' with hk' | rfl
      · exact hfree k hk hk'
      · exact slot_eq_none_iff.mpr hzero
    · rw [if_neg hzero]
      exact ⟨rfl, j, hlo, by omega, mt slot_eq_none_iff.mp hzero⟩
  · cases r with
    | none =>
      refine ⟨h'.1, fun _ k hk hk' => h'.2 k hk (by omega), fun _ => rfl⟩
    | some _ =>
      obtain ⟨hfs', k, hk, hk', hne⟩ := h'
      exact ⟨hfs', by rintro ⟨⟩, fun hall => absurd (hall k hk hk') hne⟩

/-- **A directory is a map on names.** Take a directory that has no holes and whose names
are distinct. `dirlink` of a name and a number succeeds only if the name is absent; then
the name stands for the number, every other name for what it did, and the directory has
grown only if it had no free slot. The entry of zeros that `sys_unlink` stores is stored in
full and removes just that name. `dirlookup` finds what a name stands for. The directory
stays as it was assumed, so none of the reads of entries fails. -/
theorem directory_map (h : Ready fs) (ho : Open fs dp i) (hp : Proper fs.volume i) (name : Path)
    {inum : Nat} (hzero : inum ≠ 0) (hlt : inum < 2 ^ 16) : wp (dirlink dp name inum) (fun ok fs' =>
      Ready fs' ∧ Open fs' dp i ∧ Proper fs'.volume i ∧ fs.volume.Elsewhere fs'.volume i ∧
      if ok then lookup fs.volume i name = none ∧
        (lookup fs'.volume i name).map Prod.fst = some inum ∧
        (∀ other, nameIn other.buf ≠ nameIn name.buf →
          lookup fs'.volume i other = lookup fs.volume i other) ∧
        ((fs'.volume.node i).size = (fs.volume.node i).size ∨
          (fs'.volume.node i).size = (fs.volume.node i).size + DIRENT ∧
          ∀ k, k < slots (fs.volume.node i).size → slot fs.volume i k ≠ none)
      else (fs'.volume.node i).size = (fs.volume.node i).size ∧
        ∀ other, lookup fs'.volume i other = lookup fs.volume i other)
      (fun e => e.ofLog = true ∨ e = .igetNoInodes ∧ ∀ x, (fs.inode x).ref ≠ 0) fs ∧
    (∀ inum' off, lookup fs.volume i name = some (inum', off) →
      wp (writeiKernel dp (replicate DIRENT 0) off) (fun r fs' =>
        r = (DIRENT : Int) ∧ Ready fs' ∧ Open fs' dp i ∧ Proper fs'.volume i ∧
        fs.volume.Elsewhere fs'.volume i ∧ (fs'.volume.node i).size = (fs.volume.node i).size ∧
        lookup fs'.volume i name = none ∧ ∀ other, nameIn other.buf ≠ nameIn name.buf →
          lookup fs'.volume i other = lookup fs.volume i other) (fun e => e.ofLog = true) fs) ∧
    wp (dirlookup dp name) (fun a fs' =>
      Walked.Found fs 0 (lookup fs.volume i name) a fs' ∧ ∀ x i, Open fs x i → Open fs' x i)
      (fun e => e = .igetNoInodes ∧ ∀ x, (fs.inode x).ref ≠ 0) fs ∧
    wp (isdirempty dp) (fun r fs' => fs' = fs ∧ (r = true ↔
      ∀ k, 2 ≤ k → k < slots (fs.volume.node i).size → slot fs.volume i k = none))
      (fun _ => False) fs := by
  have hdvd : ¬ DIRENT ∣ (fs.volume.node i).size → False := fun hno => hno hp.entries
  refine ⟨?_, fun inum' off hlook => ?_, ?_, wp_isdirempty h ho hdvd⟩
  · refine wp_imp (wp_dirlink (fun e he => .inl he) (fun hfull => .inr ⟨rfl, hfull⟩)
      (fun hno => (hdvd hno).elim) h ho hp.dir) fun ok fs' h' => ?_
    cases ok with
    | false =>
      obtain ⟨hproper, hsize, hnames⟩ := h'.same_names hp
      exact ⟨h'.ready, h'.took.opened ho, hproper, h'.away, hsize, hnames⟩
    | true =>
      rw [if_pos rfl] at h' ⊢
      obtain ⟨hnone, k, hfree, hoff, hput⟩ := h'
      obtain ⟨hproper, hnew, hothers⟩ := hput.insert hp hzero hlt hnone hfree
      refine ⟨hput.ready, hput.took.opened ho, hproper, hput.away, hnone, ?_, hothers, ?_⟩
      · rw [hnew]
        rfl
      · rw [hput.size, length_direntBytes]
        rcases Nat.lt_or_ge k (slots (fs.volume.node i).size) with hk | hk
        · refine .inl (Nat.max_eq_left ?_)
          rw [hp.size, show DIRENT = 16 from rfl]
          omega
        · have hend := hp.size
          obtain rfl := Nat.le_antisymm hfree.le hk
          refine .inr ⟨?_, hfree.used⟩
          rw [← hend]
          omega
  · refine wp_imp (wp_eraseEntry (fun _ he => he) h ho hp hlook) fun r fs' ⟨hr, hput⟩ => ?_
    obtain ⟨hproper, hsize, hgone, hothers⟩ := hput.erase hp hlook
    exact ⟨hr, hput.ready, hput.took.opened ho, hproper, hput.away, hsize, hgone, hothers⟩
  · exact h.walked.wp_dirlookup h ho hp.dir (fun hfull => ⟨rfl, hfull⟩) fun hno => (hdvd hno).elim

theorem proper_bare (n : Int) : Proper (bare n).volume ROOTINO := by
  have hslots : slots ((bare n).volume.node ROOTINO).size = 0 := by
    change slots 0 = 0
    decide
  refine ⟨rfl, Dvd.intro_left 0 rfl, fun j _ _ _ _ hj => ?_⟩
  rw [hslots] at hj
  exact absurd hj (Nat.not_lt_zero j)

theorem open_bare (n : Int) : Open (bare n) 0 ROOTINO := ⟨Int.one_pos, rfl, rfl⟩

/-- A name that fills its entry. -/
def fourteen : Path := [97, 98, 99, 100, 101, 102, 103, 104, 105, 106, 107, 108, 109, 110]

/-- Two names are linked in the root directory; the first is removed, and a third one takes
the slot it had. -/
theorem directory_map_reused : ∃ fs1 fs2 fs3 fs4, dirlink 0 [97] 2 (bare 1) = .ok (true, fs1) ∧
    dirlink 0 fourteen 3 fs1 = .ok (true, fs2) ∧ lookup fs2.volume ROOTINO [97] = some (2, 0) ∧
    writeiKernel 0 (replicate DIRENT 0) 0 fs2 = .ok (16, fs3) ∧
    lookup fs3.volume ROOTINO [97] = none ∧ lookup fs3.volume ROOTINO fourteen = some (3, 16) ∧
    dirlink 0 [98] 4 fs3 = .ok (true, fs4) ∧ lookup fs4.volume ROOTINO [98] = some (4, 0) ∧
    lookup fs4.volume ROOTINO fourteen = some (3, 16) ∧ Proper fs4.volume ROOTINO := by
  obtain ⟨fs4, hrun⟩ := exists_ok_of_map (x := (do
      let a ← dirlink 0 [97] 2
      let b ← dirlink 0 fourteen 3
      let fs2 ← .gets id
      let r ← writeiKernel 0 (replicate DIRENT 0) 0
      let c ← dirlink 0 [98] 4
      let fs4 ← .gets id
      pure ([a, b, c], r, [lookup fs2.volume ROOTINO [97], lookup fs2.volume ROOTINO fourteen,
        lookup fs4.volume ROOTINO [98]]) : FsM _) (bare 1))
    (a := ([true, true, true], 16, [some (2, 0), some (3, 16), some (4, 0)])) (by decide +kernel)
  obtain ⟨a, fs1, h1, hrun⟩ := bind_eq_ok hrun
  obtain ⟨b, fs2, h2, hrun⟩ := bind_eq_ok hrun
  obtain ⟨r, fs3, h3, hrun⟩ := bind_eq_ok (show (writeiKernel 0 _ 0 >>= _) fs2 = _ from hrun)
  obtain ⟨c, fs4, h4, hrun⟩ := bind_eq_ok hrun
  obtain ⟨hvals, rfl⟩ := Prod.mk.inj (Except.ok.inj hrun)
  simp only [Prod.mk.injEq, cons.injEq, and_true] at hvals
  obtain ⟨⟨rfl, rfl, rfl⟩, rfl, hx, hy, hz⟩ := hvals
  obtain ⟨hr1, ho1, hp1, -⟩ := wp_ok (directory_map (ready_bare 1) (open_bare 1) (proper_bare 1)
    [97] two_ne_zero (by decide)).1 h1
  obtain ⟨hr2, ho2, hp2, -⟩ := wp_ok (directory_map hr1 ho1 hp1 fourteen three_ne_zero
    (by decide)).1 h2
  obtain ⟨-, hr3, ho3, hp3, -, -, hgone, hkept⟩ := wp_ok ((directory_map hr2 ho2 hp2 [97]
    two_ne_zero (by decide)).2.1 2 0 hx) h3
  obtain ⟨-, -, hp4, -, -, -, hkept', -⟩ := wp_ok (directory_map hr3 ho3 hp3 [98] four_ne_zero
    (by decide)).1 h4
  have h14 := (hkept fourteen (by decide)).trans hy
  exact ⟨fs1, fs2, fs3, fs4, h1, h2, hx, h3, hgone, h14, h4, hz,
    (hkept' fourteen (by decide)).trans h14, hp4⟩

end Xv6.Fs
