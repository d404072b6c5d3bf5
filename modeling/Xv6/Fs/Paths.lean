import Xv6.Fs.Directory

/-!
# xv6 — path names

A path stands for the names between its slashes, each cut to `DIRSIZ` bytes, and for the
inode that is found by going down along them.

* `components`       — the names of a path.
* `follow`, `followParent` — the inode a list of names leads to, and the directory that
  holds the last of them. `resolve_false`, `resolve_true`: this is what `resolve` finds.
* `skipelemAt`       — `skipelem` on a string in memory; `skipelemAt_spec`: it finds the
  names that `skipelem` finds.
* `Stuck`            — why a walk along a path may stop.
* `namex_components` — `namei` and `nameiparent` are these folds.
-/

namespace Xv6.Fs

open Prog ByteBuffer Words Function List

variable {E : Panic → Prop} {fs0 fs : State} {A : Multiset IPtr} {ip cwd : IPtr} {v : Volume}
  {path rest name : Path} {fuel i inum : Nat}

/-! ### Components -/

/-- The names of a path: what stands between slashes, cut to the length of a name. -/
def components (path : Path) : List Path := (fields slash path).map (·.take DIRSIZ)

theorem skipelem_eq_none (h : skipelem path = none) : components path = [] := by
  rw [skipelem] at h
  split at h
  · rename_i hs
    rw [components, ← fields_dropWhile, hs]
    rfl
  · cases h

theorem skipelem_eq_some (h : skipelem path = some (name, rest)) :
    components path = name :: components rest ∧ rest.length < path.length ∧
      (rest = [] ↔ components rest = []) := by
  rw [skipelem] at h
  split at h
  · cases h
  rename_i hs
  obtain ⟨rfl, rfl⟩ := Prod.mk.inj (Option.some.inj h)
  refine ⟨?_, (length_dropWhile_le _ _).trans_lt (length_rest_lt hs), fun h => ?_, fun h => ?_⟩
  · rw [components, fields_eq_cons hs, components, fields_dropWhile]
    rfl
  · rw [h]
    rfl
  · -- what is left does not begin with a slash
    by_contra hne
    rw [components, ← fields_dropWhile, dropWhile_idempotent,
      fields_eq_cons (by rwa [dropWhile_idempotent])] at h
    cases h

/-- Taking one name after the other off a path comes to an end. -/
theorem wellFounded_skipelem :
    WellFounded fun rest path : Path => ∃ name, skipelem path = some (name, rest) :=
  Subrelation.wf (fun ⟨_, h⟩ => (skipelem_eq_some h).2.1) (measure length).wf

/-! ### Following a path -/

/-- From the directory `i` down to `name`. -/
def descend (v : Volume) (i : Nat) (name : Path) : Option Nat :=
  if (v.node i).type = .dir then (lookup v i name).map Prod.fst else none

/-- The inode the names lead to. -/
def follow (v : Volume) (i : Nat) (names : List Path) : Option Nat := names.foldlM (descend v) i

/-- The directory that all names but the last lead to, and the last name. -/
def followParent (v : Volume) (i : Nat) (names : List Path) : Option (Nat × Path) :=
  names.getLast?.bind fun last => (follow v i names.dropLast).bind fun j =>
    if (v.node j).type = .dir then some (j, last) else none

theorem follow_cons (v : Volume) (i : Nat) (name : Path) (names : List Path) :
    follow v i (name :: names) = (descend v i name).bind fun j => follow v j names :=
  foldlM_cons ..

theorem followParent_cons (v : Volume) (i : Nat) (name : Path) {names : List Path}
    (h : names ≠ []) :
    followParent v i (name :: names) = (descend v i name).bind fun j => followParent v j names := by
  obtain ⟨last, hlast⟩ := Option.ne_none_iff_exists'.mp (mt getLast?_eq_none_iff.mp h)
  rw [followParent, getLast?_cons_of_ne_nil h, dropLast_cons_of_ne_nil h, follow_cons,
    hlast, Option.bind_some, Option.bind_assoc]
  simp only [followParent, hlast, Option.bind_some]

theorem descend_of_dir (h : (v.node i).type = .dir) :
    descend v i name = (lookup v i name).map Prod.fst := if_pos h

theorem descend_of_not_dir (h : (v.node i).type ≠ .dir) : descend v i name = none := if_neg h

/-- **A path stands for what its names lead to.** -/
theorem resolve_false (h : path.length ≤ fuel) :
    resolve v false fuel i path = (follow v i (components path)).map fun j => (j, []) := by
  induction fuel generalizing path i with
  | zero =>
    unfold resolve
    cases hskip : skipelem path with
    | none =>
      rw [skipelem_eq_none hskip]
      rfl
    | some r => exact absurd (skipelem_eq_some hskip).2.1 (by omega)
  | succ fuel ih =>
    unfold resolve
    cases hskip : skipelem path with
    | none =>
      rw [skipelem_eq_none hskip]
      rfl
    | some r =>
      obtain ⟨name, rest⟩ := r
      obtain ⟨hcomp, hlen, -⟩ := skipelem_eq_some hskip
      dsimp only
      rw [hcomp, follow_cons]
      by_cases hdir : (v.node i).type = .dir
      · rw [if_neg (not_not.mpr hdir), descend_of_dir hdir]
        cases lookup v i name with
        | none => rfl
        | some r => exact ih (by omega)
      · rw [if_pos hdir, descend_of_not_dir hdir]
        rfl

/-- The same for the parent. -/
theorem resolve_true (h : path.length ≤ fuel) :
    resolve v true fuel i path = followParent v i (components path) := by
  induction fuel generalizing path i with
  | zero =>
    unfold resolve
    cases hskip : skipelem path with
    | none =>
      rw [skipelem_eq_none hskip]
      rfl
    | some r => exact absurd (skipelem_eq_some hskip).2.1 (by omega)
  | succ fuel ih =>
    unfold resolve
    cases hskip : skipelem path with
    | none =>
      rw [skipelem_eq_none hskip]
      rfl
    | some r =>
      obtain ⟨name, rest⟩ := r
      obtain ⟨hcomp, hlen, hlast⟩ := skipelem_eq_some hskip
      dsimp only
      rw [hcomp]
      by_cases hrest : rest = []
      · rw [hlast.mp hrest, hrest]
        by_cases hdir : (v.node i).type = .dir <;> simp [followParent, follow]
      rw [followParent_cons v i name (mt hlast.mpr hrest)]
      by_cases hdir : (v.node i).type = .dir
      · rw [if_neg (not_not.mpr hdir), if_neg (by simp [hrest]), descend_of_dir hdir]
        cases lookup v i name with
        | none => rfl
        | some r => exact ih (by omega)
      · rw [if_pos hdir, descend_of_not_dir hdir]
        rfl

/-! ### skipelem on a string in memory -/

/-- `skipelem` with pointers: `path` is an index into the string `s`, which has `len` bytes
at most, and the name is copied to the caller's buffer. -/
def skipelemAt (s : Buffer) (len path : Nat) (name : Buffer) : Option (Nat × Buffer) :=
  let start := scan s (· = slash) len path
  if s start = 0 then none
  else
    let stop := scan s (fun c => c ≠ slash ∧ c ≠ 0) len start
    let n := stop - start
    let name :=
      if DIRSIZ ≤ n then store name 0 (load s start DIRSIZ)
      else update (store name 0 (load s start n)) n 0
    some (scan s (· = slash) len stop, name)

/-- A name that was copied, with a NUL after it if there is room. -/
theorem nameIn_copied {elem : Path} (helem : ∀ c ∈ elem, c ≠ 0) (name : Buffer) :
    nameIn (if DIRSIZ ≤ elem.length then store name 0 (elem.take DIRSIZ)
      else update (store name 0 elem) elem.length 0) = elem.take DIRSIZ := by
  have hall : ∀ l : List UInt8, l.takeWhile (· ≠ 0) = l ↔ ∀ c ∈ l, c ≠ 0 := by
    intro l
    rw [takeWhile_eq_self_iff]
    simp
  split
  · rename_i hlong
    have hlen : (elem.take DIRSIZ).length = DIRSIZ := by
      rw [length_take, Nat.min_eq_left hlong]
    have hload := load_store name 0 (elem.take DIRSIZ)
    rw [hlen] at hload
    rw [nameIn, hload, hall]
    exact fun c hc => helem c (mem_of_mem_take hc)
  · rename_i hshort
    rw [take_of_length_le (by omega)]
    obtain ⟨k, hk⟩ : ∃ k, DIRSIZ = elem.length + (k + 1) :=
      ⟨DIRSIZ - elem.length - 1, by omega⟩
    have hload : load (update (store name 0 elem) elem.length 0) 0 elem.length =
        load (store name 0 elem) 0 elem.length :=
      load_congr fun i hi => update_of_ne (by omega) ..
    rw [nameIn, hk, load_add, hload, load_store, load_succ,
      takeWhile_append_of_pos fun c hc => by simpa using helem c hc,
      takeWhile_cons_of_neg (by simp), append_nil]

/-- A byte that does not occur does not end a word. -/
theorem takeWhile_ne_and {l : List UInt8} (h : ∀ c ∈ l, c ≠ 0) (sep : UInt8) :
    l.takeWhile (fun c => c ≠ sep ∧ c ≠ 0) = l.takeWhile (· ≠ sep) := by
  induction l with
  | nil => rfl
  | cons a l ih =>
    have ha := h a (mem_cons_self ..)
    have htail := ih fun c hc => h c (mem_cons_of_mem a hc)
    by_cases hsep : a = sep
    · rw [takeWhile_cons_of_neg (by simp [hsep]), takeWhile_cons_of_neg (by simp [hsep])]
    · rw [takeWhile_cons_of_pos (by simp [hsep, ha]),
        takeWhile_cons_of_pos (by simp [hsep]), htail]

/-- The pointer version has found the name and the rest: the pointer has moved on to the
rest, and the name is in the buffer, with a NUL or filling it. -/
def Skipped (s : Buffer) (i : Nat) : Option (Path × Path) → Option (Nat × Buffer) → Prop
  | none, none => True
  | some (name, rest), some (next, buf) => i < next ∧ StringAt s next rest ∧ nameIn buf = name
  | _, _ => False

/-- **`skipelem` on pointers** finds what `skipelem` finds. -/
theorem skipelemAt_spec {s : Buffer} {len : Nat} (h : StringAt s i path)
    (hlen : path.length ≤ len) (buf : Buffer) :
    Skipped s i (skipelem path) (skipelemAt s len i buf) := by
  have hstart := (h.scan (p := (· = slash)) (by decide) hlen).1
  have hat := h.drop (· = slash)
  have hlen1 := length_dropWhile_le (· = slash) path
  have hne : path.dropWhile (· = slash) ≠ [] →
      (path.dropWhile (· = slash)).takeWhile (· ≠ slash) ≠ [] := takeWhile_ne_nil
  rw [skipelem, skipelemAt, hstart]
  generalize hs : i + (path.takeWhile (· = slash)).length = start at hat ⊢
  generalize path.dropWhile (· = slash) = text at hat hlen1 hne ⊢
  dsimp only
  by_cases htext : text = []
  · rw [if_pos htext, if_pos (hat.eq_nil_iff.mp htext)]
    trivial
  rw [if_neg htext, if_neg (mt hat.eq_nil_iff.mpr htext)]
  have hzero := hat.ne_zero
  have hstop := (hat.scan (p := fun c => c ≠ slash ∧ c ≠ 0) (by decide) (hlen1.trans hlen)).1
  have hend := hat.drop (· ≠ slash)
  have hlen2 := length_dropWhile_le (· ≠ slash) text
  have hword : text.takeWhile (· ≠ slash) <+: text := takeWhile_prefix _
  rw [takeWhile_ne_and hzero] at hstop
  replace hne := length_pos_iff.mpr (hne htext)
  generalize text.takeWhile (· ≠ slash) = word at hstop hend hword hne ⊢
  have hload : ∀ n, n ≤ word.length → load s start n = word.take n := by
    intro n hn
    rw [hat.load (hn.trans hword.length_le), prefix_iff_eq_take.mp hword, take_take,
      Nat.min_eq_left hn]
  have hnext := (hend.scan (p := (· = slash)) (by decide) (hlen2.trans (hlen1.trans hlen))).1
  rw [hstop, hnext, Nat.add_sub_cancel_left]
  refine ⟨by omega, hend.drop (· = slash), ?_⟩
  rw [← nameIn_copied (fun c hc => hzero c (hword.subset hc)) buf]
  split
  · rename_i hlong
    rw [hload _ hlong]
  · rw [hload _ le_rfl, take_length]

/-! ### Why a walk may stop -/

/-- The locks of the inode table. -/
def State.locks (fs : State) : IPtr → Bool := fun ip => (fs.inode ip).locked

/-- The inodes that a walk from `cwd` can come to: the root, the current directory, and
what directories name. -/
inductive Nameable (fs : State) (cwd : IPtr) : Nat → Prop
  | root : Nameable fs cwd ROOTINO
  | cwd : Nameable fs cwd (fs.inode cwd).inum
  | entry {i k : Nat} : (fs.dinode i).type = .dir → k < slots (fs.dinode i).size →
      (dirent fs.volume i k).inum ≠ 0 → Nameable fs cwd (dirent fs.volume i k).inum

/-- Why a walk along a path may stop. On a proper disk, with two entries of the inode table
free and nobody else at work, there is no reason. -/
inductive Stuck (fs : State) (cwd : IPtr) : Panic → Prop
  /-- no two entries of the inode table are free -/
  | table : (∀ x y, (fs.inode x).ref = 0 → (fs.inode y).ref = 0 → x = y) →
      Stuck fs cwd .igetNoInodes
  /-- somebody else holds a lock -/
  | lock (x : IPtr) : fs.locks x = true → Stuck fs cwd .hang
  /-- a directory names an inode that is not allocated -/
  | dangling {i : Nat} : Nameable fs cwd i → (fs.dinode i).type = .free →
      Stuck fs cwd .ilockNoType
  /-- a directory ends within an entry -/
  | ragged {i : Nat} : (fs.dinode i).type = .dir → ¬ DIRENT ∣ (fs.dinode i).size →
      Stuck fs cwd .dirlookupRead

theorem nameable_of_lookup {off : Nat} (hdir : (fs.dinode i).type = .dir)
    (h : lookup fs.volume i name = some (inum, off)) : Nameable fs cwd inum := by
  obtain ⟨k, hk, hmatch⟩ := exists_of_findSome?_eq_some h
  rw [matchAt] at hmatch
  split at hmatch
  · cases hmatch
  · rename_i hne
    split at hmatch
    · obtain ⟨rfl, -⟩ := Prod.mk.inj (Option.some.inj hmatch)
      exact .entry hdir (mem_range.mp hk) hne
    · cases hmatch

/-! ### Locks -/

-- What each operation does to the locks, and when it stops. What else it does is said by
-- the lemmas of the same names in `Walked`.

theorem locks_setInode {f : Inode → Inode} :
    (fs.setInode ip f).locks = update fs.locks ip (f (fs.inode ip)).locked := by
  funext x
  by_cases hx : x = ip
  · subst hx
    simp [State.locks, State.setInode]
  · simp [State.locks, State.setInode, hx]

theorem locks_setInode_same {f : Inode → Inode}
    (hf : (f (fs.inode ip)).locked = (fs.inode ip).locked) :
    (fs.setInode ip f).locks = fs.locks := by
  rw [locks_setInode, hf]
  exact update_eq_self ..

theorem wp_iget_locks (hE : (∀ x, (fs.inode x).ref ≠ 0) → E .igetNoInodes) :
    wp (iget inum) (fun _ fs' => fs'.locks = fs.locks) E fs := by
  rw [iget, wp_bind, wp_gets]
  split
  · rw [wp_bind, setInode, wp_modify]
    exact wp_pure.mpr (locks_setInode_same rfl)
  · split
    · rename_i hnone
      refine wp_stop.mpr (hE fun x => ?_)
      simpa using find?_eq_none.mp hnone x (mem_finRange x)
    · rw [wp_bind, setInode, wp_modify]
      exact wp_pure.mpr (locks_setInode_same rfl)

theorem wp_idup_locks : wp (idup ip) (fun _ fs' => fs'.locks = fs.locks) E fs := by
  rw [idup, setInode, wp_modify]
  exact locks_setInode_same rfl

theorem wp_ilock_locks (hpos : 0 < (fs.inode ip).ref) (hlock : fs.locks ip = true → E .hang)
    (htype : (fs.dinode (fs.inode ip).inum).type = .free → E .ilockNoType) :
    wp (ilock ip) (fun _ fs' => fs.locks ip = false ∧ fs'.locks = update fs.locks ip true)
      E fs := by
  rw [ilock, wp_bind, wp_gets]
  dsimp only [id]
  rw [if_neg (by omega), wp_ite]
  refine ⟨fun hl => wp_stop.mpr (hlock hl), fun hl => wp_ite.mpr ⟨fun _ => ?_, fun _ => ?_⟩⟩
  · rw [setInode, wp_modify]
    exact ⟨Bool.eq_false_of_not_eq_true hl, locks_setInode⟩
  · refine wp_ite.mpr ⟨fun hfree => wp_stop.mpr (htype hfree), fun _ => ?_⟩
    rw [setInode, wp_modify]
    exact ⟨Bool.eq_false_of_not_eq_true hl, locks_setInode⟩

theorem wp_iunlock_locks (hpos : 0 < (fs.inode ip).ref) (hlock : fs.locks ip = true) :
    wp (iunlock ip) (fun _ fs' => fs'.locks = update fs.locks ip false) E fs := by
  have hgo : ¬ ((fs.inode ip).locked = false ∨ (fs.inode ip).ref < 1) := by
    rintro (h | h)
    · rw [State.locks, h] at hlock
      cases hlock
    · omega
  rw [iunlock, wp_bind, wp_gets, id, if_neg hgo, setInode, wp_modify]
  exact locks_setInode

namespace Walked

theorem wp_iput_locks (h0 : Ready fs0) (h : Walked fs0 (ip ::ₘ A) fs) :
    wp (iput ip) (fun _ fs' => fs'.locks = fs.locks) E fs :=
  wp_of_ok (h.iput_eq h0) (locks_setInode_same rfl)

theorem wp_iunlockput_locks (h0 : Ready fs0) (h : Walked fs0 (ip ::ₘ A) fs)
    (hlock : fs.locks ip = true) :
    wp (iunlockput ip) (fun _ fs' => fs'.locks = update fs.locks ip false) E fs := by
  have hpos := h.pos_of_mem h0 (Multiset.mem_cons_self ip A)
  refine wp_then (wp_and (wp_iunlock_locks hpos hlock)
    (h.wp_iunlock (E := fun _ => True) hpos trivial)) ?_
  rintro _ fs1 ⟨hlocks, h1, -⟩
  refine wp_imp (h1.wp_iput_locks h0) fun _ fs2 hlocks2 => ?_
  rw [hlocks2, hlocks]

theorem wp_dirlookup_locks (h0 : Ready fs0) (h : Walked fs0 A fs) (ho : Open fs ip inum)
    (hdir : (fs0.volume.node inum).type = .dir)
    (hget : (∀ x, (fs.inode x).ref ≠ 0) → E .igetNoInodes)
    (hread : ¬ DIRENT ∣ (fs0.volume.node inum).size → E .dirlookupRead) :
    wp (dirlookup ip name) (fun _ fs' => fs'.locks = fs.locks) E fs := by
  have hwhole := h.whole h0 ho
  rw [h.node ho] at hwhole
  rw [dirlookup, wp_bind, dinodeOf, wp_gets, h.node ho, if_neg (not_not.mpr hdir)]
  refine wp_imp (wp_firstM (I := fun fs' => fs' = fs) (A := fun _ fs' => fs'.locks = fs.locks)
    (fun k hk fs' hfs' => ?_) rfl) fun r fs' h' => ?_
  · subst hfs'
    refine wp_then (h.wp_readDirent h0 ho fun hlen => hread fun hdvd => ?_) ?_
    · exact hlen (readLen_dirent hwhole.size_le hdvd (mem_range.mp hk))
    rintro _ _ ⟨rfl, rfl⟩
    rw [wp_ite]
    refine ⟨fun _ => wp_pure.mpr rfl, fun _ => wp_ite.mpr ⟨fun _ => ?_, fun _ => wp_pure.mpr rfl⟩⟩
    exact wp_then (wp_iget_locks hget) fun _ _ hlocks => wp_pure.mpr hlocks
  · cases r with
    | none => rw [show fs' = fs from h']
    | some a => exact h'

/-- While a walk holds one reference, a second one can be had. -/
theorem exists_free (h : Walked fs0 {ip} fs) {x y : IPtr} (hx : (fs0.inode x).ref = 0)
    (hy : (fs0.inode y).ref = 0) (hxy : x ≠ y) : ∃ z, (fs.inode z).ref = 0 := by
  have hother : ∀ z, z ≠ ip → (fs0.inode z).ref = 0 → (fs.inode z).ref = 0 := by
    intro z hz hzero
    rw [h.count, Multiset.count_singleton, if_neg hz, hzero]
    rfl
  by_cases hxp : x = ip
  · exact ⟨y, hother y (hxp ▸ hxy.symm) hy⟩
  · exact ⟨x, hother x hxp hx⟩

/-- **A walk stops for a reason, and gives back all locks.** -/
theorem wp_namexLoop_locks {parent : Bool} (hE : ∀ e, Stuck fs0 cwd e → E e) (h0 : Ready fs0)
    (fuel : Nat) (hfuel : path.length ≤ fuel) (h : Walked fs0 {ip} fs)
    (hlocks : fs.locks = fs0.locks) (hname : Nameable fs0 cwd (fs.inode ip).inum) :
    wp (namexLoop parent fuel ip path) (fun _ fs' => fs'.locks = fs0.locks) E fs := by
  -- the end of the path
  have hend : ∀ {fs : State} {ip : IPtr}, Walked fs0 {ip} fs → fs.locks = fs0.locks →
      wp (if parent then do
        iput ip
        pure none
      else pure (some (ip, [])) : FsM (Option (IPtr × Path)))
        (fun _ fs' => fs'.locks = fs0.locks) E fs := by
    intro fs ip h hlocks
    rw [wp_ite]
    refine ⟨fun _ => ?_, fun _ => wp_pure.mpr hlocks⟩
    refine wp_then (wp_iput_locks h0 (A := 0) h) fun _ fs1 h1 => wp_pure.mpr ?_
    rw [h1, hlocks]
  induction fuel generalizing ip path fs with
  | zero =>
    unfold namexLoop
    cases hskip : skipelem path with
    | none => exact hend h hlocks
    | some r => exact absurd (skipelem_eq_some hskip).2.1 (by omega)
  | succ fuel ih =>
    unfold namexLoop
    cases hskip : skipelem path with
    | none => exact hend h hlocks
    | some r =>
      obtain ⟨name, rest⟩ := r
      have hlen := (skipelem_eq_some hskip).2.1
      have hpos := h.pos_of_mem h0 (Multiset.mem_singleton_self ip)
      have hheld : ∀ fs' : State, fs'.locks = update fs0.locks ip true →
          fs'.locks ip = true := by
        intro fs' hfs'
        rw [hfs', update_self]
      refine wp_then (wp_and (wp_ilock_locks hpos (fun hl => hE _ (.lock ip (hlocks ▸ hl)))
        fun hfree => hE _ (.dangling hname (h.dinode ▸ hfree)))
        (h.wp_ilock (E := fun _ => True) hpos ⟨trivial, trivial⟩)) ?_
      rintro _ fs1 ⟨⟨hfree, hlocks1⟩, h1, ho, -⟩
      rw [hlocks] at hfree hlocks1
      have hback : ∀ fs' : State, fs'.locks =
          update (update fs0.locks ip true) ip false → fs'.locks = fs0.locks := by
        intro fs' hfs'
        rw [hfs', update_idem, ← hfree, update_eq_self]
      rw [wp_bind, dinodeOf, wp_gets, h1.node ho, wp_ite]
      refine ⟨fun _ => ?_, fun hdir => ?_⟩
      · -- not a directory
        refine wp_then (wp_iunlockput_locks h0 h1 (hheld _ hlocks1)) fun _ fs2 h2 =>
          wp_pure.mpr (hback _ ?_)
        rw [h2, hlocks1]
      rw [not_not] at hdir
      rw [wp_ite]
      refine ⟨fun _ => ?_, fun _ => ?_⟩
      · -- the parent is asked for, and reached
        refine wp_then (wp_iunlock_locks ho.pos (hheld _ hlocks1)) fun _ fs2 h2 =>
          wp_pure.mpr (hback _ ?_)
        rw [h2, hlocks1]
      refine wp_then (wp_and (h1.wp_dirlookup_locks h0 ho hdir (fun hall => hE _ (.table ?_))
        fun hdvd => hE _ (.ragged hdir hdvd))
        (h1.wp_dirlookup (E := fun _ => True) h0 ho hdir (fun _ => trivial) fun _ => trivial)) ?_
      · intro x y hx hy
        by_contra hxy
        obtain ⟨z, hz⟩ := h1.exists_free hx hy hxy
        exact hall z hz
      rintro a fs2 ⟨hlocks2, hfound, -⟩
      rw [hlocks1] at hlocks2
      cases hlook : lookup fs0.volume (fs.inode ip).inum name with
      | none =>
        rw [hlook] at hfound
        cases a with
        | some a => exact hfound.elim
        | none =>
          refine wp_then (wp_iunlockput_locks h0 hfound (hheld _ hlocks2)) fun _ fs3 h3 =>
            wp_pure.mpr (hback _ ?_)
          rw [h3, hlocks2]
      | some r =>
        rw [hlook] at hfound
        cases a with
        | none => exact hfound.elim
        | some a =>
          obtain ⟨next, off⟩ := a
          obtain ⟨inum, off'⟩ := r
          obtain ⟨h2, hinum, -⟩ := hfound
          -- the walk goes on from what was found, once `ip` is given back
          have h2' : Walked fs0 (ip ::ₘ {next}) fs2 := by
            rwa [show next ::ₘ {ip} = ip ::ₘ ({next} : Multiset IPtr) from
              Multiset.cons_swap next ip 0] at h2
          refine wp_then (wp_and (h2'.wp_iunlockput_locks h0 (hheld _ hlocks2))
            (h2'.wp_iunlockput (E := fun _ => True) h0 trivial)) ?_
          rintro _ fs3 ⟨hlocks3, h3, hinum3, -⟩
          rw [hlocks2] at hlocks3
          refine ih (by omega) h3 (hback _ hlocks3) ?_
          rw [hinum3, hinum]
          exact nameable_of_lookup hdir hlook

theorem wp_namex_locks {parent : Bool} (h : Ready fs) (hcwd : 0 < (fs.inode cwd).ref) :
    wp (namex (some cwd) path parent) (fun _ fs' => fs'.locks = fs.locks) (Stuck fs cwd) fs := by
  unfold namex
  rw [wp_ite]
  refine ⟨fun _ => ?_, fun _ => ?_⟩
  · refine wp_then (wp_and (wp_iget_locks fun hall => .table fun x _ hx => absurd hx (hall x))
      (h.walked.wp_iget (E := fun _ => True) fun _ => trivial)) ?_
    rintro ip fs1 ⟨hlocks, h1, hinum, -⟩
    exact wp_namexLoop_locks (fun _ he => he) h _ le_rfl h1 hlocks (hinum ▸ .root)
  · refine wp_then (wp_and (wp_idup_locks)
      (h.walked.wp_idup (E := fun _ => True) hcwd)) ?_
    rintro _ fs1 ⟨hlocks, h1, hinum⟩
    exact wp_namexLoop_locks (fun _ he => he) h _ le_rfl h1 hlocks (hinum ▸ .cwd)

end Walked

/-! ### Names and paths -/

/-- **Path resolution is a fold over the components.** From a file system between two
calls, `namei` finds the inode that the names of the path lead to, and `nameiparent` the
directory that all but the last lead to; nothing else is changed, and they stop for the
reasons above only. Taking names off a string comes to an end, and on a string in memory
`skipelem` takes off the same names. -/
theorem namex_components (h : Ready fs) (cwd : IPtr) (hcwd : 0 < (fs.inode cwd).ref) (path : Path) :
    wp (namei (some cwd) path) (fun r fs' => Walked.ReachedInode fs 0
      (follow fs.volume (Walked.origin fs (some cwd) path) (components path)) r fs' ∧
        fs'.locks = fs.locks) (Stuck fs cwd) fs ∧
    wp (nameiparent (some cwd) path) (fun r fs' => Walked.Reached fs 0
      (followParent fs.volume (Walked.origin fs (some cwd) path) (components path)) r fs' ∧
        fs'.locks = fs.locks) (Stuck fs cwd) fs ∧
    (WellFounded fun rest path : Path => ∃ name, skipelem path = some (name, rest)) ∧
    ∀ s i len buf, StringAt s i path → path.length ≤ len →
      Skipped s i (skipelem path) (skipelemAt s len i buf) := by
  have hcwd' : ∀ ip, some cwd = some ip → 0 < (fs.inode ip).ref := by
    rintro _ ⟨⟩
    exact hcwd
  refine ⟨?_, ?_, wellFounded_skipelem, fun s i len buf hs hlen => skipelemAt_spec hs hlen buf⟩
  · have hlocks : wp (namei (some cwd) path) (fun _ fs' => fs'.locks = fs.locks)
        (Stuck fs cwd) fs := by
      exact wp_then (Walked.wp_namex_locks h hcwd) fun _ _ hlocks => wp_pure.mpr hlocks
    refine wp_imp (wp_and hlocks (h.walked.wp_namei (fun _ _ => trivial) h hcwd'
     )) fun r fs' h' => ⟨?_, h'.1⟩
    have hreached := h'.2
    rw [resolve_false le_rfl] at hreached
    simpa [comp_def] using hreached
  · refine wp_imp (wp_and (Walked.wp_namex_locks h hcwd) (h.walked.wp_namex (fun _ _ => trivial) h
      hcwd')) fun r fs' h' => ⟨?_, h'.1⟩
    have hreached := h'.2
    rwa [resolve_true le_rfl] at hreached

theorem Ready.put_of_dirlink {dp : IPtr} {fs' : State} (h : Ready fs) (ho : Open fs dp i)
    (hdir : (fs.volume.node i).type = .dir) (hok : dirlink dp name inum fs = .ok (true, fs')) :
    ∃ off bs, Put i off bs fs fs' := by
  have hput := wp_ok (wp_dirlink (fun _ _ => trivial) (fun _ => trivial)
    (fun _ => ⟨trivial, trivial⟩) h ho hdir) hok
  obtain ⟨-, k, -, -, hput⟩ := hput
  exact ⟨_, _, hput⟩

/-- The path `d/..//d`. -/
def downUpDown : Path := [100, 47, 46, 46, 47, 47, 100]

/-- The root directory gets a directory `d`, and that one its `..`. From the root,
`d/..//d` leads down, up and down again; the parent of `/d/x` is `d`. -/
theorem namex_components_tree : ∃ fs fs1 fs2,
    (do let _ ← dirlink 0 [100] 2; dirlink 1 [46, 46] 1 : FsM Bool) (bare 1) = .ok (true, fs) ∧
    components downUpDown = [[100], [46, 46], [100]] ∧
    namei (some 0) downUpDown fs = .ok (some 1, fs1) ∧
    follow fs.volume ROOTINO (components downUpDown) = some 2 ∧
    Walked fs {1} fs1 ∧ (fs1.inode 1).inum = 2 ∧
    nameiparent (some 1) [47, 100, 47, 120] fs = .ok (some (1, [120]), fs2) ∧
    Walked.Reached fs 0 (followParent fs.volume ROOTINO [[100], [120]]) (some (1, [120])) fs2 := by
  obtain ⟨fs, hrun⟩ := exists_ok_of_map (x := (do
      let a ← dirlink 0 [100] 2
      let b ← dirlink 1 [46, 46] 1
      let fs ← .gets id
      pure (a && b && (namei (some 0) downUpDown fs).map Prod.fst = .ok (some 1) &&
        (nameiparent (some 1) [47, 100, 47, 120] fs).map Prod.fst = .ok (some (1, [120])) &&
        follow fs.volume ROOTINO (components downUpDown) = some 2) : FsM Bool)
      (bare 1)) (a := true) (by decide +kernel)
  obtain ⟨a, fs0, h0, hrun⟩ := bind_eq_ok hrun
  obtain ⟨b, fs, h, hrun⟩ := bind_eq_ok hrun
  obtain ⟨hvals, rfl⟩ := Prod.mk.inj (Except.ok.inj hrun)
  simp only [Bool.and_eq_true, decide_eq_true_eq, id] at hvals
  obtain ⟨⟨⟨⟨rfl, rfl⟩, hnamei⟩, hparent⟩, hfollow⟩ := hvals
  obtain ⟨fs1, hnamei⟩ := exists_ok_of_map hnamei
  obtain ⟨fs2, hparent⟩ := exists_ok_of_map hparent
  obtain ⟨k, e, hput⟩ := (ready_bare 1).put_of_dirlink (open_bare 1) rfl h0
  have ho : Open fs0 1 2 := hput.took.opened ⟨Int.one_pos, rfl, rfl⟩
  have hdir : (fs0.volume.node 2).type = .dir := by
    rw [hput.away.others 2 (by decide)]
    rfl
  obtain ⟨k', e', hput'⟩ := hput.ready.put_of_dirlink ho hdir h
  have hroot := hput'.took.opened (hput.took.opened (open_bare 1))
  have hsub := hput'.took.opened ho
  obtain ⟨hdown, -⟩ := wp_ok (namex_components hput'.ready 0 hroot.pos downUpDown).1 hnamei
  obtain ⟨hup, -⟩ := wp_ok (namex_components hput'.ready 1 hsub.pos [47, 100, 47, 120]).2.1 hparent
  have horigin : Walked.origin fs (some 0) downUpDown = ROOTINO := hroot.inum
  rw [horigin, hfollow] at hdown
  exact ⟨fs, fs1, fs2, (bind_of_ok h0).trans h, by decide, hnamei, hfollow, hdown.1, hdown.2,
    hparent, hup⟩

end Xv6.Fs
