import Xv6.Fs.Blocks

/-!
# xv6 — the contents of files

`readi` and `writei` on a disk in order. Reading a file without holes changes nothing
and hands out the bytes of the file; writing stores the bytes in the file, as far as
there is room on the disk.

* `wp_readi`  — what is read.
* `wp_writei` — what is written.
-/

namespace Xv6.Fs

open Prog ByteBuffer Function

variable {ε U : Type} {E : Panic → Prop} {F : ε → Prop} {fs fs' : State} {ip : IPtr} {d : Dinode}
  {data : Nat → Buffer} {off n tot : Nat}

/-! ### Reading -/

/-- What is read from one block of a file. -/
theorem load_block {m : Nat} (hm : off % BSIZE + m ≤ BSIZE) :
    load (data (ptr data d (place (off / BSIZE)))) (off % BSIZE) m =
      load (byteAt data d) off m := by
  refine load_congr fun i hi => ?_
  have hdiv : (off + i) / BSIZE = off / BSIZE := by
    rw [BSIZE_eq] at *
    omega
  have hmod : (off + i) % BSIZE = off % BSIZE + i := by
    rw [BSIZE_eq] at *
    omega
  rw [byteAt, hdiv, hmod]

/-- How many bytes `readi` reads of a file. -/
def readLen (d : Dinode) (off n : Nat) : Nat :=
  if d.size < off ∨ (off + n) % 2 ^ 32 < off then 0
  else if d.size < off + n then d.size - off else n

section Read

variable {dst : Nat → List UInt8 → Prog ε U Bool} {J : Nat → U → Prop} {K : U → Prop} {u : U}

/-- The loop of `readi`. `J tot` is what the other side satisfies when it has got `tot`
bytes, `K` is what it satisfies after a failure. -/
theorem wp_readLoop {start fuel : Nat} (hw : Whole fs.data (fs.inode ip).d)
    (hdst : ∀ tot m u, tot + m ≤ n → J tot u →
      wp (dst tot (load (byteAt fs.data (fs.inode ip).d) (start + tot) m))
        (fun ok u' => if ok then J (tot + m) u' else K u') F u) (htot : tot ≤ n)
    (hfuel : n - tot ≤ fuel) (hend : start + n ≤ (fs.inode ip).d.size) (hu : J tot u) :
    wp (readLoop ip dst n fuel tot (start + tot))
      (fun r s' => s'.1 = fs ∧ (r = (n : Int) ∧ J n s'.2 ∨ r = -1 ∧ K s'.2))
      (Sum.elim (fun _ => False) F) (fs, u) := by
  induction fuel generalizing tot u with
  | zero =>
    obtain rfl : tot = n := by omega
    exact wp_pure.mpr ⟨rfl, .inl ⟨rfl, hu⟩⟩
  | succ fuel ih =>
    rw [readLoop, wp_ite]
    refine ⟨fun hlt => ?_, fun hge => ?_⟩
    · obtain ⟨bn, hbn⟩ : ∃ bn, bn = (start + tot) / BSIZE := ⟨_, rfl⟩
      have hmax := hw.size_le
      have hne := hw.mapped bn (by rw [BSIZE_eq] at *; omega)
      rw [wp_bind, onFs, wp_zoom, ← hbn]
      refine wp_mono (wp_bmap_mapped (by rw [BSIZE_eq] at *; omega) hne) ?_ fun _ h => h.elim
      rintro addr _ ⟨rfl, rfl⟩
      rw [if_neg hne, wp_bind, wp_gets]
      generalize hm : min (n - tot) (BSIZE - (start + tot) % BSIZE) = m
      have hmod : (start + tot) % BSIZE < BSIZE := Nat.mod_lt _ (by decide)
      rw [wp_bind, onSide, wp_zoom, id, hbn, load_block (by omega)]
      refine wp_imp (hdst tot m u (by omega) hu) fun ok u' h' => ?_
      rw [wp_ite]
      refine ⟨fun hok => ?_, fun hfail => ?_⟩
      · rw [if_pos hok] at h'
        rw [Nat.add_assoc]
        exact ih (by omega) (by omega) h'
      · rw [if_neg hfail] at h'
        exact wp_pure.mpr ⟨rfl, .inr ⟨rfl, h'⟩⟩
    · obtain rfl : tot = n := by omega
      exact wp_pure.mpr ⟨rfl, .inl ⟨rfl, hu⟩⟩

/-- **`readi`** changes nothing, and hands out the bytes of the file. -/
theorem wp_readi (hw : Whole fs.data (fs.inode ip).d)
    (hdst : ∀ tot m u, tot + m ≤ readLen (fs.inode ip).d off n → J tot u →
      wp (dst tot (load (byteAt fs.data (fs.inode ip).d) (off + tot) m))
        (fun ok u' => if ok then J (tot + m) u' else K u') F u) (hu : J 0 u) :
    wp (readi ip dst off n) (fun r s' => s'.1 = fs ∧ (r = (readLen (fs.inode ip).d off n : Int) ∧
        J (readLen (fs.inode ip).d off n) s'.2 ∨ r = -1 ∧ K s'.2))
      (Sum.elim (fun _ => False) F) (fs, u) := by
  rw [readi, wp_bind, onFs, wp_zoom, dinodeOf, wp_gets]
  dsimp only
  rw [readLen] at hdst ⊢
  rw [wp_ite]
  refine ⟨fun hout => ?_, fun hin => ?_⟩
  · rw [if_pos hout]
    exact wp_pure.mpr ⟨rfl, .inl ⟨rfl, hu⟩⟩
  rw [if_neg hin] at hdst ⊢
  generalize hlen : (if (fs.inode ip).d.size < off + n then (fs.inode ip).d.size - off else n) = len
    at hdst ⊢
  have hle : off + len ≤ (fs.inode ip).d.size := by
    rw [← hlen]
    split <;> omega
  exact wp_readLoop hw hdst (Nat.zero_le _) le_rfl hle hu

end Read

/-! ### Reading without an allocator -/

section Mapped

variable {dst : Nat → List UInt8 → Prog ε U Bool} {u : U}

/-- The number of a block of a file, 0 if it has none. -/
def mappedBlock (ip : IPtr) (bn : Nat) : FsM Nat :=
  .gets fun fs => ptr fs.data (fs.inode ip).d (place bn)

/-- The loop of `readi` with block numbers looked up only: `balloc` does not occur. -/
def readLoopMapped (ip : IPtr) (dst : Nat → List UInt8 → Prog ε U Bool) (n : Nat) :
    Nat → Nat → Nat → IoM ε U Int
  | 0, tot, _ => pure tot
  | fuel + 1, tot, off =>
    if tot < n then do
      let addr ← onFs (mappedBlock ip (off / BSIZE))
      if addr = 0 then pure tot
      else do
        let s ← .gets id
        let m := min (n - tot) (BSIZE - off % BSIZE)
        let ok ← onSide (dst tot (load (s.1.data addr) (off % BSIZE) m))
        if ok then readLoopMapped ip dst n fuel (tot + m) (off + m) else pure (-1)
    else pure tot

/-- `readi` with that loop. -/
def readiMapped (ip : IPtr) (dst : Nat → List UInt8 → Prog ε U Bool) (off n : Nat) :
    IoM ε U Int := do
  let d ← onFs (dinodeOf ip)
  if d.size < off ∨ (off + n) % 2 ^ 32 < off then pure 0
  else
    let n := if d.size < off + n then d.size - off else n
    readLoopMapped ip dst n n 0 off

theorem onFs_ok {α : Type} {m : FsM α} {a : α} (h : m fs = .ok (a, fs')) :
    (onFs m : IoM ε U α) (fs, u) = .ok (a, (fs', u)) := by
  simp only [onFs, zoom, h]

/-- What the other side does leaves the file system alone. -/
theorem fst_of_onSide {α : Type} {m : Prog ε U α} {a : α} {s' : State × U}
    (h : (onSide m : IoM ε U α) (fs, u) = .ok (a, s')) : s' = (fs, s'.2) := by
  simp only [onSide, zoom] at h
  split at h
  · cases h
    rfl
  · cases h

theorem readLoop_eq_mapped (hw : Whole fs.data (fs.inode ip).d) (fuel : Nat)
    (hend : off + (n - tot) ≤ (fs.inode ip).d.size) :
    readLoop ip dst n fuel tot off (fs, u) = readLoopMapped ip dst n fuel tot off (fs, u) := by
  induction fuel generalizing tot off u with
  | zero => rfl
  | succ fuel ih =>
    rw [readLoop, readLoopMapped]
    split
    · have hmax := hw.size_le
      have hne := hw.mapped (off / BSIZE) (by rw [BSIZE_eq] at *; omega)
      obtain ⟨addr, fs', hbmap, rfl, rfl⟩ :=
        exists_ok_of_wp (wp_bmap_mapped (by rw [BSIZE_eq] at *; omega) hne)
      rw [bind_of_ok (onFs_ok hbmap), bind_of_ok (onFs_ok rfl), if_neg hne, if_neg hne]
      refine bind_congr_ok fun s _ hs => ?_
      cases hs
      refine bind_congr_ok fun ok s' hok => ?_
      rw [fst_of_onSide hok]
      split
      · refine ih ?_
        omega
      · rfl
    · rfl

/-- **Reading a file without holes never asks for a block.** -/
theorem readi_eq_mapped (hw : Whole fs.data (fs.inode ip).d) :
    readi ip dst off n (fs, u) = readiMapped ip dst off n (fs, u) := by
  have hd : (onFs (dinodeOf ip) : IoM ε U Dinode) (fs, u) = .ok ((fs.inode ip).d, (fs, u)) := rfl
  rw [readi, readiMapped, bind_of_ok hd, bind_of_ok hd]
  split
  · rfl
  · refine readLoop_eq_mapped hw _ ?_
    split <;> omega

end Mapped

/-- `readi` into a kernel buffer. -/
theorem wp_readiKernel (hw : Whole fs.data (fs.inode ip).d) :
    wp (readiKernel ip off n) (fun r fs' => fs' = fs ∧ r = ((readLen (fs.inode ip).d off n : Int),
        load (byteAt fs.data (fs.inode ip).d) off (readLen (fs.inode ip).d off n)))
      (fun _ => False) fs := by
  rw [readiKernel, wp_withLocal]
  refine wp_mono (wp_readi (F := fun _ => False) (K := fun _ => False) (J := fun tot bs =>
    bs = load (byteAt fs.data (fs.inode ip).d) off tot) hw (fun tot m bs _ hbs => ?_) rfl) ?_ ?_
  · rw [wp_bind, wp_modify]
    refine wp_pure.mpr ?_
    rw [if_pos rfl, hbs, load_add]
  · rintro r s' ⟨hfs, ⟨hr, hbs⟩ | ⟨-, h⟩⟩
    · exact ⟨hfs, Prod.ext hr hbs⟩
    · exact h.elim
  · rintro (e | e) he
    · exact he.elim
    · exact he.elim

/-! ### Work on one inode -/

/-- Inode `ip` has been worked on in memory: it may have got more blocks, and its
blocks may have been written to. -/
structure Touched (ip : IPtr) (fs fs' : State) : Prop where
  frame : ∃ addrs bitmap data lh,
    fs' = fs.rework ip { (fs.inode ip).d with addrs := addrs } bitmap data lh
  exact : (fs'.working ip).Exact
  away : (fs.working ip).Elsewhere (fs'.working ip) (fs.inode ip).inum
  kept : ∀ k, (fs.working ip).ptrs ((fs.inode ip).inum, k) ≠ 0 →
    (fs'.working ip).ptrs ((fs.inode ip).inum, k) = (fs.working ip).ptrs ((fs.inode ip).inum, k)

theorem Extended.touched (h : Extended ip fs fs') : Touched ip fs fs' :=
  ⟨h.frame, h.exact, h.grows.toElsewhere, h.grows.kept⟩

namespace Touched

variable {fs'' : State}

theorem refl (h : (fs.working ip).Exact) : Touched ip fs fs := (Extended.refl h).touched

theorem inum (h : Touched ip fs fs') : (fs'.inode ip).inum = (fs.inode ip).inum := by
  obtain ⟨_, _, _, _, rfl⟩ := h.frame
  rw [State.rework_inode]

theorem sb (h : Touched ip fs fs') : fs'.sb = fs.sb := by
  obtain ⟨_, _, _, _, rfl⟩ := h.frame
  rfl

theorem type (h : Touched ip fs fs') : (fs'.inode ip).d.type = (fs.inode ip).d.type := by
  obtain ⟨_, _, _, _, rfl⟩ := h.frame
  rw [State.rework_inode]

theorem trans (h : Touched ip fs fs') (h' : Touched ip fs' fs'') : Touched ip fs fs'' := by
  have hinum := h.inum
  obtain ⟨addrs, bitmap, data, lh, rfl⟩ := h.frame
  obtain ⟨addrs', bitmap', data', lh', rfl⟩ := h'.frame
  refine ⟨⟨addrs', bitmap', data', lh', ?_⟩, h'.exact, h.away.trans (hinum ▸ h'.away),
    fun k hk => ?_⟩
  · rw [State.rework_rework, State.rework_inode]
  · have hkept := h.kept k hk
    have hkept' := h'.kept k
    rw [hinum] at hkept'
    exact (hkept' (hkept ▸ hk)).trans hkept

/-- A pointer of the inode. -/
theorem ptr_eq (h : Touched ip fs fs') (htype : (fs.inode ip).d.type ≠ .free) {k : Nat}
    (hk : k < NPTR) (hne : ptr fs.data (fs.inode ip).d k ≠ 0) :
    ptr fs'.data (fs'.inode ip).d k = ptr fs.data (fs.inode ip).d k := by
  have hnode := fs.working_node ip
  have hnode' := fs'.working_node ip
  have hkept := h.kept k
  rw [Volume.ptrs_eq (hnode.symm ▸ htype) hk, hnode, ← h.inum,
    Volume.ptrs_eq (hnode'.symm ▸ h.type.symm ▸ htype) hk, hnode'] at hkept
  exact hkept hne

end Touched

/-- Bytes are stored in a block of the file, and the block may be logged. -/
theorem touched_store (h : (fs.working ip).Exact) (htype : (fs.inode ip).d.type ≠ .free) {bn : Nat}
    (hbn : bn < MAXFILE) (hne : ptr fs.data (fs.inode ip).d (place bn) ≠ 0) (o : Nat)
    (bs : List UInt8) (lh : List Nat) : Touched ip fs { fs with
      data := update fs.data (ptr fs.data (fs.inode ip).d (place bn))
        (store (fs.data (ptr fs.data (fs.inode ip).d (place bn))) o bs)
      lh := lh } := by
  have hnode := fs.working_node ip
  have hptr : (fs.working ip).ptrs ((fs.inode ip).inum, place bn) =
      ptr fs.data (fs.inode ip).d (place bn) := by
    rw [Volume.ptrs_eq (hnode.symm ▸ htype) (place_lt hbn), hnode]
    rfl
  have hwrite := h.write (place_ne_indirect bn) (hptr ▸ hne) o bs
  have hptrs := h.ptrs_write (place_ne_indirect bn) (hptr ▸ hne) o bs
  rw [hptr] at hwrite hptrs
  exact ⟨⟨_, _, _, lh, (fs.rework_self ip _ _ lh).symm⟩, hwrite.1, hwrite.2, fun k _ => hptrs _⟩

/-- The file has a block for every byte before offset `o`. -/
def Mapped (ip : IPtr) (fs : State) (o : Nat) : Prop :=
  ∀ bn, bn * BSIZE < o → ptr fs.data (fs.inode ip).d (place bn) ≠ 0

theorem Whole.mapped_size (hw : Whole fs.data (fs.inode ip).d) :
    Mapped ip fs (fs.inode ip).d.size := hw.mapped

theorem Mapped.mono {o o' : Nat} (h : Mapped ip fs o') (ho : o ≤ o') : Mapped ip fs o :=
  fun bn hbn => h bn (hbn.trans_le ho)

theorem Mapped.touched {o : Nat} (h : Mapped ip fs o) (ho : o ≤ MAXFILE * BSIZE)
    (htype : (fs.inode ip).d.type ≠ .free) (ht : Touched ip fs fs') : Mapped ip fs' o := by
  intro bn hbn
  rw [ht.ptr_eq htype (place_lt ?_) (h bn hbn)]
  · exact h bn hbn
  · rw [BSIZE_eq] at *
    omega

/-- One block more is mapped. -/
theorem Mapped.next {o m : Nat} (h : Mapped ip fs o)
    (hblock : ptr fs.data (fs.inode ip).d (place (o / BSIZE)) ≠ 0) (hm : o % BSIZE + m ≤ BSIZE) :
    Mapped ip fs (o + m) := by
  intro bn hbn
  by_cases hlt : bn * BSIZE < o
  · exact h bn hlt
  · have hbn' : bn = o / BSIZE := by
      rw [BSIZE_eq] at *
      omega
    rw [hbn']
    exact hblock

/-- Of the bytes of the file those from `start` on are the first `tot` ones of `bytes`, and
the others are as they were in `fs`, where there was a block for them. -/
def Filed (ip : IPtr) (fs : State) (start : Nat) (bytes : Buffer) (tot : Nat)
    (fs' : State) : Prop :=
  ∀ o, o / BSIZE < MAXFILE →
    (start ≤ o ∧ o < start + tot ∨ ptr fs.data (fs.inode ip).d (place (o / BSIZE)) ≠ 0) →
    byteAt fs'.data (fs'.inode ip).d o =
      store (byteAt fs.data (fs.inode ip).d) start (load bytes 0 tot) o

theorem Filed.refl (start : Nat) (bytes : Buffer) : Filed ip fs start bytes 0 fs := by
  intro o _ _
  rw [show load bytes 0 0 = [] from rfl, store_nil]

/-- The file gets a block. -/
theorem Filed.extended {start : Nat} {bytes : Buffer} {fs'' : State}
    (h : Filed ip fs start bytes tot fs') (ht : Touched ip fs fs')
    (htype : (fs.inode ip).d.type ≠ .free) (hmap : Mapped ip fs' (start + tot))
    (hext : Extended ip fs' fs'') : Filed ip fs start bytes tot fs'' := by
  intro o ho hin
  rw [← h o ho hin]
  have hnode := fs'.working_node ip
  have hnode' := fs''.working_node ip
  have hne : ptr fs'.data (fs'.inode ip).d (place (o / BSIZE)) ≠ 0 := by
    obtain ⟨-, hlt⟩ | hne := hin
    · refine hmap _ ?_
      rw [BSIZE_eq]
      omega
    · rwa [ht.ptr_eq htype (place_lt ho) hne]
  have hsame := hext.grows.byteAt (by rw [hnode, ht.type]; exact htype) ho
    (by rw [hnode]; exact hne)
  rwa [hnode, ← hext.inum, hnode'] at hsame

/-- The next bytes are stored. -/
theorem Filed.store {start m : Nat} {bytes : Buffer} (lh : List Nat)
    (h : Filed ip fs start bytes tot fs') (hexact : (fs'.working ip).Exact)
    (htype : (fs'.inode ip).d.type ≠ .free) (hbn : (start + tot) / BSIZE < MAXFILE)
    (hne : ptr fs'.data (fs'.inode ip).d (place ((start + tot) / BSIZE)) ≠ 0)
    (hm : (start + tot) % BSIZE + m ≤ BSIZE) : Filed ip fs start bytes (tot + m) { fs' with
      data := update fs'.data
        (ptr fs'.data (fs'.inode ip).d (place ((start + tot) / BSIZE)))
        (ByteBuffer.store (fs'.data (ptr fs'.data (fs'.inode ip).d (place ((start + tot) / BSIZE))))
          ((start + tot) % BSIZE) (load bytes tot m))
      lh := lh } := by
  have hnode := fs'.working_node ip
  have hptr : (fs'.working ip).ptrs ((fs'.inode ip).inum, place ((start + tot) / BSIZE)) =
      ptr fs'.data (fs'.inode ip).d (place ((start + tot) / BSIZE)) := by
    rw [Volume.ptrs_eq (hnode.symm ▸ htype) (place_lt hbn), hnode]
    rfl
  intro o ho hin
  have hwrite := hexact.byteAt_write (hnode.symm ▸ htype) (load bytes tot m) hbn (hptr ▸ hne)
    (by rw [length_load]; exact hm) ho
  rw [hptr, hnode] at hwrite
  refine hwrite.trans ?_
  rw [load_add, Nat.zero_add, ← store_append, length_load]
  refine store_congr fun hout => h o ho ?_
  rw [length_load] at hout
  omega

/-! ### Writing -/

section Write

variable {src : Nat → Nat → Prog ε U (List UInt8 × Bool)} {J : Nat → U → Prop} {K : U → Prop}
  {known : Prop} {bytes : Buffer} {u : U}

/-- What a write of `n` bytes at `start` leaves when `tot` bytes were written: these are all
that were fetched, and the write has ended because it was done or because the file has got no
block for the next byte; or a fetch has failed. -/
structure Wrote (ip : IPtr) (fs : State) (start n : Nat) (bytes : Buffer) (known : Prop)
    (J : Nat → U → Prop) (K : U → Prop) (tot : Nat) (s : State × U) : Prop where
  touched : Touched ip fs s.1
  mapped : Mapped ip s.1 (start + tot)
  le : tot ≤ n
  ended : J tot s.2 ∧ (known → Filed ip fs start bytes tot s.1) ∧
      (tot = n ∨ ptr s.1.data (s.1.inode ip).d (place ((start + tot) / BSIZE)) = 0) ∨
    tot < n ∧ K s.2

/-- The loop of `writei`. `J tot` is what the other side satisfies when `tot` bytes were
fetched, `K` is what it satisfies after a failure; if it is `known` what is fetched, it is
known what the file holds. -/
theorem wp_writeLoop (start : Nat) {fuel : Nat} {fs1 : State} (hE : ∀ e, e.ofLog = true → E e)
    (hsrc : ∀ tot m u, tot + m ≤ n → J tot u → wp (src tot m)
      (fun r u' => if r.2 then J (tot + m) u' ∧ (known → r.1 = load bytes tot m) else K u') F u)
    (hsize : fs.sb.size ≤ 2 ^ 32) (htype : (fs.inode ip).d.type ≠ .free)
    (hmax : start + n ≤ MAXFILE * BSIZE) (ht : Touched ip fs fs1)
    (hmap : Mapped ip fs1 (start + tot)) (hfiled : known → Filed ip fs start bytes tot fs1)
    (htot : tot ≤ n) (hfuel : n - tot ≤ fuel) (hu : J tot u) :
    wp (writeLoop ip src n fuel tot (start + tot))
      (fun r s' => Wrote ip fs start n bytes known J K r.1 s' ∧ r.2 = start + r.1)
      (Sum.elim E F) (fs1, u) := by
  induction fuel generalizing tot u fs1 with
  | zero =>
    obtain rfl : tot = n := by omega
    exact wp_pure.mpr ⟨⟨ht, hmap, le_rfl, .inl ⟨hu, hfiled, .inl rfl⟩⟩, rfl⟩
  | succ fuel ih =>
    rw [writeLoop, wp_ite]
    refine ⟨fun hlt => ?_, fun hge => ?_⟩
    · have hmod : (start + tot) % BSIZE < BSIZE := Nat.mod_lt _ (by decide)
      have hbn : (start + tot) / BSIZE < MAXFILE := by
        rw [BSIZE_eq] at *
        omega
      have htype1 : (fs1.inode ip).d.type ≠ .free := ht.type.symm ▸ htype
      rw [wp_bind, onFs, wp_zoom]
      refine wp_mono (wp_bmap hE ht.exact (ht.sb.symm ▸ hsize) htype1 hbn) ?_ fun _ h => h
      rintro addr fs2 ⟨hext, rfl, -, -⟩
      have ht2 := ht.trans hext.touched
      have hmap2 := hmap.touched (by omega) htype1 hext.touched
      have htype2 : (fs2.inode ip).d.type ≠ .free := ht2.type.symm ▸ htype
      rw [wp_ite]
      refine ⟨fun hnone => wp_pure.mpr ⟨⟨ht2, hmap2, htot, .inl ⟨hu, fun hk =>
        (hfiled hk).extended ht htype hmap hext, .inr hnone⟩⟩, rfl⟩, fun hne => ?_⟩
      generalize hm : min (n - tot) (BSIZE - (start + tot) % BSIZE) = m
      rw [wp_bind, onSide, wp_zoom]
      refine wp_imp (hsrc tot m u (by omega) hu) ?_
      rintro ⟨bs, ok⟩ u' hr
      rw [wp_bind, onFs, wp_zoom, wp_modify, wp_ite]
      refine ⟨fun hok => ?_, fun hfail => wp_pure.mpr ⟨⟨?_, ?_, htot, .inr ⟨hlt, ?_⟩⟩, rfl⟩⟩
      · obtain ⟨hJ, hbs⟩ := (if_pos hok).mp hr
        rw [wp_bind, onFs, wp_zoom]
        refine wp_logWrite hE fun lh => ?_
        have hstore := touched_store ht2.exact htype2 hbn hne ((start + tot) % BSIZE) bs lh
        rw [Nat.add_assoc]
        refine ih (ht2.trans hstore) ?_ (fun hk => ?_) (by omega) (by omega) hJ
        · rw [← Nat.add_assoc]
          refine (hmap2.next hne (by omega)).touched ?_ htype2 hstore
          omega
        · have hfiled2 := (hfiled hk).extended ht htype hmap hext
          have hstored := hfiled2.store (m := m) lh ht2.exact htype2 hbn hne (by omega)
          rwa [← hbs hk] at hstored
      · exact ht2.trans (touched_store ht2.exact htype2 hbn hne _ bs fs2.lh)
      · exact hmap2.touched (by omega) htype2
          (touched_store ht2.exact htype2 hbn hne ((start + tot) % BSIZE) bs fs2.lh)
      · exact (if_neg hfail).mp hr
    · obtain rfl : tot = n := by omega
      exact wp_pure.mpr ⟨⟨ht, hmap, le_rfl, .inl ⟨hu, hfiled, .inl rfl⟩⟩, rfl⟩

/-- Inode `ip` was written to, has the size `size` now, and is on disk. -/
structure Written (ip : IPtr) (fs : State) (size : Nat) (fs' : State) : Prop where
  frame : ∃ addrs bitmap data lh, fs' = (fs.rework ip
    { (fs.inode ip).d with size := size, addrs := addrs } bitmap data lh).putNode
      (fs.inode ip).inum { (fs.inode ip).d with size := size, addrs := addrs }
  exact : fs'.volume.Exact
  away : (fs.working ip).Elsewhere fs'.volume (fs.inode ip).inum
  whole : Whole fs'.data (fs'.inode ip).d

/-- The end of `writei`: the size is set and the inode written to disk. -/
theorem wp_setSize {size : Nat} {s : State × U} (hE : ∀ e, e.ofLog = true → E e)
    (ht : Touched ip fs s.1) (hmap : Mapped ip s.1 size) (hmax : size ≤ MAXFILE * BSIZE)
    {f : Dinode → Dinode} (hf : f (s.1.inode ip).d = { (s.1.inode ip).d with size := size }) :
    wp (onFs (setDinode ip f)) (fun _ s1 => wp (onFs (iupdate ip))
      (fun _ s' => Written ip fs size s'.1 ∧ s'.1.data = s.1.data ∧ s'.2 = s.2 ∧
        (s'.1.inode ip).d = { (s.1.inode ip).d with size := size })
      (Sum.elim E F) s1) (Sum.elim E F) s := by
  obtain ⟨fs1, u1⟩ := s
  obtain ⟨addrs, bitmap, data, lh, rfl⟩ := ht.frame
  have hset : (fs.rework ip { (fs.inode ip).d with addrs := addrs } bitmap data lh).setInode ip
      (fun i => { i with d := f i.d }) =
      fs.rework ip { (fs.inode ip).d with size := size, addrs := addrs } bitmap data lh := by
    rw [State.rework_d] at hf
    simp [State.rework, State.setInode, hf]
  rw [onFs, wp_zoom, setDinode, setInode, wp_modify]
  rw [hset, onFs, wp_zoom, iupdate, wp_bind, wp_modify, wp_bind, wp_gets]
  have hnode : ∀ i, i ≠ (fs.inode ip).inum → update fs.dinode (fs.inode ip).inum
      { (fs.inode ip).d with size := size, addrs := addrs } i = update fs.dinode
      (fs.inode ip).inum { (fs.inode ip).d with addrs := addrs } i := by
    intro i hi
    rw [update_of_ne hi, update_of_ne hi]
  have hexact := ht.exact
  have haway := ht.away
  rw [State.rework_working] at hexact haway
  refine wp_logWrite hE fun lh' => ⟨⟨⟨addrs, bitmap, data, lh', ?_⟩, ?_, ?_, ?_⟩, rfl, rfl, ?_⟩
  · simp [State.rework, State.putNode, State.setInode]
  · have hsized := hexact.renode (n := update fs.dinode (fs.inode ip).inum
      { (fs.inode ip).d with size := size, addrs := addrs }) (fun i => ?_) (fun i => ?_)
    · simpa [State.volume, State.rework, State.setInode] using hsized
    · by_cases hi : i = (fs.inode ip).inum <;> simp [hi]
    · by_cases hi : i = (fs.inode ip).inum <;> simp [hi]
  · have hstep : Volume.Elsewhere ⟨fs.sb, update fs.dinode (fs.inode ip).inum
        { (fs.inode ip).d with addrs := addrs }, bitmap, data⟩ ⟨fs.sb, update fs.dinode
        (fs.inode ip).inum { (fs.inode ip).d with size := size, addrs := addrs }, bitmap, data⟩
        (fs.inode ip).inum := ⟨rfl, hnode, fun _ _ _ _ => rfl⟩
    simpa [State.volume, State.rework, State.setInode] using haway.trans hstep
  · refine ⟨?_, fun bn hbn => ?_⟩
    · simpa [State.rework, State.setInode] using hmax
    · have hbn' : bn * BSIZE < size := by simpa [State.rework, State.setInode] using hbn
      have hne := hmap bn hbn'
      simpa [State.rework, State.setInode, ptr] using hne
  · simp

variable (known bytes) in
/-- **`writei`** refuses, or stores the bytes at the offset as far as it gets. -/
theorem wp_writei (hE : ∀ e, e.ofLog = true → E e)
    (hsrc : ∀ tot m u, tot + m ≤ n → J tot u → wp (src tot m)
      (fun r u' => if r.2 then J (tot + m) u' ∧ (known → r.1 = load bytes tot m) else K u') F u)
    (hsize : fs.sb.size ≤ 2 ^ 32) (htype : (fs.inode ip).d.type ≠ .free)
    (hexact : (fs.working ip).Exact) (hw : Whole fs.data (fs.inode ip).d) (hu : J 0 u) :
    wp (writei ip src off n) (fun r s' =>
      r = -1 ∧ s' = (fs, u) ∧ ((fs.inode ip).d.size < off ∨ MAXFILE * BSIZE < off + n) ∨
      ∃ tot : Nat, r = (tot : Int) ∧ tot ≤ n ∧ off ≤ (fs.inode ip).d.size ∧
        off + n ≤ MAXFILE * BSIZE ∧ Written ip fs (max (fs.inode ip).d.size (off + tot)) s'.1 ∧
        (J tot s'.2 ∧ (known → ∀ o, o < max (fs.inode ip).d.size (off + tot) →
            byteAt s'.1.data (s'.1.inode ip).d o =
              store (byteAt fs.data (fs.inode ip).d) off (load bytes 0 tot) o) ∧
          (tot = n ∨ ptr s'.1.data (s'.1.inode ip).d (place ((off + tot) / BSIZE)) = 0) ∨
        tot < n ∧ K s'.2)) (Sum.elim E F) (fs, u) := by
  have hlimit := hw.size_le
  rw [writei, wp_bind, onFs, wp_zoom, dinodeOf, wp_gets]
  dsimp only
  rw [wp_ite]
  refine ⟨fun hoff => wp_pure.mpr (.inl ⟨rfl, rfl, ?_⟩), fun hoff => ?_⟩
  · -- a sum of 32-bit numbers that wraps around is too large
    rw [MAXFILE_eq, BSIZE_eq] at *
    omega
  rw [wp_ite]
  refine ⟨fun hmax => wp_pure.mpr (.inl ⟨rfl, rfl, .inr hmax⟩), fun hmax => ?_⟩
  have hle : off ≤ (fs.inode ip).d.size := by omega
  refine wp_then (wp_writeLoop off hE hsrc hsize htype (by omega) (.refl hexact)
    (hw.mapped_size.mono (by omega)) (fun _ => .refl off bytes) (Nat.zero_le n) le_rfl hu) ?_
  rintro ⟨tot, off'⟩ s1 ⟨hwrote, hoff'⟩
  dsimp only at hwrote hoff' ⊢
  have htot := hwrote.le
  have hnew : (s1.1.inode ip).d.size = (fs.inode ip).d.size := by
    obtain ⟨_, _, _, _, h⟩ := hwrote.touched.frame
    rw [h, State.rework_inode]
  have hmap : Mapped ip s1.1 (max (fs.inode ip).d.size (off + tot)) := by
    intro bn hbn
    rcases lt_max_iff.mp hbn with hbn | hbn
    · exact hw.mapped_size.touched hlimit htype hwrote.touched bn hbn
    · exact hwrote.mapped bn hbn
  refine wp_then (wp_setSize hE hwrote.touched hmap (by omega) ?_) fun _ s2 h2 => ?_
  · congr 1
    split <;> omega
  refine wp_then h2 fun _ s3 h3 => wp_pure.mpr
    (.inr ⟨tot, rfl, htot, hle, by omega, h3.1, ?_⟩)
  obtain ⟨-, hdata, hside, hd⟩ := h3
  rw [hside, hdata, hd]
  refine hwrote.ended.imp_left ?_
  rintro ⟨hJ, hfiled, hend⟩
  refine ⟨hJ, fun hk o ho => ?_, hend⟩
  -- every byte before the end had a block, or was written
  refine hfiled hk o ?_ ?_
  · rw [BSIZE_eq] at *
    omega
  · by_cases hin : off ≤ o ∧ o < off + tot
    · exact .inl hin
    · refine .inr (hw.mapped _ ?_)
      rw [BSIZE_eq]
      omega

end Write

end Xv6.Fs
