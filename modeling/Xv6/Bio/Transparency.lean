import Xv6.Bio.Commit

/-!
# xv6 — the cache shows what the disk holds

A block that the file system releases has been logged, with the exception of one
that `writei` was copying to when the user's buffer ended. Where that copy had not
begun, a buffer without references holds what the disk holds, and recycling it
changes nothing that a later `bread` returns.
-/

namespace Xv6.Bio

open TransitionRun
open Log (Block Disk)

variable {clean : Prop} {s : State} {p : Tid} {x : Buf} {c : Core}

/-! ### What bread returns -/

/-- What a `bread` of the block would return now: what a buffer holds, or the
disk. -/
def Core.view (c : Core) (b : Nat) : Block :=
  match (List.finRange NBUF).find? fun x =>
      (c.cache.buf x).valid && (c.cache.buf x).carries ROOTDEV b with
  | some x => c.data x
  | none => c.disk b

theorem view_eq_data (h : c.Ok clean) (hv : (c.cache.buf x).valid = true) :
    c.view (c.cache.buf x).blockno = c.data x := by
  have hdev := h.dev x (.inl hv)
  unfold Core.view
  split
  · rename_i y hy
    have hcar := List.find?_some hy
    simp only [Bool.and_eq_true, carries_iff] at hcar
    rw [h.eq_of_blockno hdev hcar.2.1 hcar.2.2]
  · rename_i hnone
    have := List.find?_eq_none.mp hnone x (List.mem_finRange x)
    simp [carries_iff, hv, hdev] at this

theorem view_eq_disk {b : Nat}
    (hnone : ∀ x, (c.cache.buf x).valid = true → (c.cache.buf x).carries ROOTDEV b = false) :
    c.view b = c.disk b := by
  unfold Core.view
  split
  · rename_i y hy
    have hcar := List.find?_some hy
    simp only [Bool.and_eq_true] at hcar
    rw [hnone y hcar.1] at hcar
    exact absurd hcar.2 (by decide)
  · rfl

/-- Every block looks the same whether or not `bget` recycles a buffer for
another one. -/
theorem view_get {c' : Core} (h : c.Ok True) (hbusy : c.busy p = .no) {b : Nat}
    (hget : c.get p b = .ok c') (b' : Nat) : c'.view b' = c.view b' := by
  have hok := (h.get hbusy hget).1
  obtain ⟨order, hord⟩ := h.ordered
  unfold Core.get at hget
  rcases bget_cases hord ROOTDEV b with ⟨x, hcar, hx⟩ | ⟨hnone, ⟨x, hfree, hx⟩ | ⟨-, hx⟩⟩ <;>
    rw [hx] at hget <;> cases hget
  · simp only [Core.view, addRef_carries, fun y => (addRef_same c.cache x 1 y).1]
  · have hzero : c.users x = 0 := h.refcnt_eq_zero.mp (by simpa using List.find?_some hfree)
    -- the recycled buffer held what the disk holds
    have hclean : c.Synced x := by
      refine .inr ⟨fun hmem => Core.users_ne_zero_of_mem hmem hzero, fun hdirty => ?_⟩
      have hsome : (c.lock x).isSome := by
        cases hl : c.lock x <;> simp [Core.markOf, hl] at hdirty ⊢
      exact Core.users_ne_zero_of_lock hsome hzero
    by_cases hv : ∃ y, y ≠ x ∧ (c.cache.buf y).valid = true ∧ (c.cache.buf y).carries ROOTDEV b'
    · obtain ⟨y, hne, hvalid, hy⟩ := hv
      obtain ⟨-, rfl⟩ := carries_iff.mp hy
      rw [view_eq_data h hvalid]
      have hsame : (c.cache.set x ⟨false, ROOTDEV, b, 1⟩).buf y = c.cache.buf y := by
        rw [set_buf, if_neg hne]
      have hview := view_eq_data hok (by rw [hsame]; exact hvalid)
      rwa [hsame] at hview
    · rw [view_eq_disk]
      · by_cases hvx : (c.cache.buf x).valid = true ∧ (c.cache.buf x).carries ROOTDEV b'
        · obtain ⟨-, rfl⟩ := carries_iff.mp hvx.2
          rw [view_eq_data h hvx.1, h.data trivial x hvx.1 hclean]
        · refine (view_eq_disk (c := c) fun y hvalid => ?_).symm
          by_cases hyx : y = x
          · simpa [hyx ▸ hvalid, hyx] using hvx
          · simpa using fun hcar => hv ⟨y, hyx, hvalid, hcar⟩
      · intro y hvalid
        by_cases hyx : y = x
        · rw [hyx, set_buf, if_pos rfl] at hvalid
          cases hvalid
        · rw [set_buf, if_neg hyx] at hvalid ⊢
          simpa using fun hcar => hv ⟨y, hyx, hvalid, hcar⟩

/-- `bread` returns what the block looks like when the lock is taken. -/
theorem data_take {c' : Core} (h : c.Ok clean) (ht : c.Takes p x c') :
    c'.data x = c.view (c.cache.buf x).blockno := by
  rw [ht.data]
  split
  · rename_i hv
    refine (view_eq_disk fun y hvalid => ?_).symm
    have hdev := h.dev x (.inr (Core.users_ne_zero_of_busy (by rw [ht.want]; rfl)))
    by_contra hcar
    simp only [Bool.not_eq_false, carries_iff] at hcar
    rw [← h.eq_of_blockno hdev hcar.1 hcar.2, hv.2] at hvalid
    cases hvalid
  · rename_i hv
    exact (view_eq_data h (by simpa using hv)).symm

/-- In every run of the file system's operations, commits and recoveries in which
no failing copy from user memory has changed the buffer it was copying to:

* a valid buffer without references holds what the disk does;
* `bread` returns the block as it looks when the lock is taken, and `bget`,
  recycling a buffer or not, changes the looks of no block.
-/
theorem cache_transparent {start : Nat} {d : Disk} {data : Buf → Block} {es : List Event}
    (hrun : Run (Restrict CleanFail (Step start)) (powerOn start d data) es s) :
    (∀ x, (s.core.cache.buf x).valid = true → (s.core.cache.buf x).refcnt = 0 →
      s.core.data x = s.core.disk (s.core.cache.buf x).blockno) ∧
    (∀ p x c, s.core.take p = some (x, c) → c.data x = s.core.view (s.core.cache.buf x).blockno) ∧
    (∀ p b c, s.core.busy p = .no → s.core.get p b = .ok c → ∀ b', c.view b' = s.core.view b') := by
  have hok : s.core.Ok True :=
    (inv_run (hrun.mono fun _ _ _ hs => ⟨fun _ => hs.1, hs.2⟩)).core
  refine ⟨fun x hv hzero => hok.data trivial x hv (.inr ⟨fun hmem => ?_, fun hdirty => ?_⟩),
    fun p x c htake => data_take hok (Core.takes_of_take htake),
    fun p b c hbusy hget => view_get hok hbusy hget⟩
  · exact Core.users_ne_zero_of_mem hmem (hok.refcnt_eq_zero.mp hzero)
  · have hsome : (s.core.lock x).isSome := by
      cases hl : s.core.lock x <;> simp [Core.markOf, hl] at hdirty ⊢
    exact Core.users_ne_zero_of_lock hsome (hok.refcnt_eq_zero.mp hzero)

/-- Process `p` reads block `b`, which comes to be in buffer `x`. -/
def look (p : Tid) (x : Buf) (b : Nat) : List Event := [.get p b, .take p, .release p x, .drop p]

/-- The first process recovers an empty log. -/
def recover : List Event := List.replicate 16 (.instr 0)

/-- Nothing is copied from user memory. -/
def NoFail : Event → Bool
  | .copyFail _ _ _ _ => false
  | _ => true

/-- One operation changes block 40 and is committed. -/
def logOne : List Event :=
  recover ++ [.beginOp 1, .get 1 40, .take 1, .modify 1 2 (fun _ => 7), .logWrite 1 2, .release 1 2,
    .drop 1, .endOp 1] ++ List.replicate 35 (.instr 1)

theorem cache_transparent_logOne : ∃ s, exec (fun s e => if NoFail e then step 2 s e else none)
        (powerOn 2 (fun _ _ => 0) fun _ _ => 0) logOne = some s ∧
      s.committing = false ∧ (s.core.cache.buf 2).refcnt = 0 ∧ s.core.data 2 = s.core.disk 40 := by
  have hsome : ((exec (fun s e => if NoFail e then step 2 s e else none)
      (powerOn 2 (fun _ _ => 0) fun _ _ => 0) logOne).map fun s =>
      (s.committing, s.core.cache.buf 2)) = some (false, ⟨true, 1, 40, 0⟩) := by decide +kernel
  obtain ⟨s, hs, hval⟩ := Option.map_eq_some_iff.mp hsome
  simp only [Prod.mk.injEq] at hval
  obtain ⟨hc, hbuf⟩ := hval
  have hrun : Run (Restrict CleanFail (Step 2)) (powerOn 2 (fun _ _ => 0) fun _ _ => 0) logOne
      s := by
    refine (run_restrict_of_exec hs).mono ?_
    rintro s (_ | _ | _ | _ | _ | _ | _ | _ | _ | _) t ⟨hfail, hstep⟩
    case copyFail => cases hfail
    all_goals exact ⟨trivial, hstep⟩
  refine ⟨s, hs, hc, by rw [hbuf], ?_⟩
  have hdata := (cache_transparent hrun).1 2 (by rw [hbuf]) (by rw [hbuf])
  rwa [hbuf] at hdata

/-- A `write` whose user buffer ends after one byte that can be read: the copy to
block 40 fails after that byte. -/
def spoil : List Event :=
  recover ++ [.beginOp 1, .get 1 40, .take 1, .copyFail 1 2 0 [7], .release 1 2, .drop 1, .endOp 1,
    .instr 1]

/-- Thirty other blocks are read. -/
def flush : List Event :=
  (List.range NBUF).flatMap fun i => look 1 (Fin.ofNat NBUF (i + 3)) (100 + i)

/-- The buffer is left changed, without references and not logged; and block 40 is
read back differently once the buffer has been recycled. -/
theorem cache_spoiled : ∃ s t, Run (Step 2) (powerOn 2 (fun _ _ => 0) fun _ _ => 0) spoil s ∧
      (s.core.cache.buf 2).valid = true ∧ (s.core.cache.buf 2).refcnt = 0 ∧
      s.core.data 2 0 = 7 ∧ s.core.disk (s.core.cache.buf 2).blockno 0 = 0 ∧
      Run (Step 2) s flush t ∧ s.core.view 40 0 = 7 ∧ t.core.view 40 0 = 0 := by
  have hsome : ((exec (step 2) (powerOn 2 (fun _ _ => 0) fun _ _ => 0) spoil).bind fun s =>
      (exec (step 2) s flush).map fun t => (s.core.cache.buf 2, s.core.data 2 0, s.core.disk 40 0,
        s.core.view 40 0, t.core.view 40 0)) = some (⟨true, 1, 40, 0⟩, 7, 0, 7, 0) := by
    decide +kernel
  obtain ⟨s, hs, hrest⟩ := Option.bind_eq_some_iff.mp hsome
  obtain ⟨t, ht, hval⟩ := Option.map_eq_some_iff.mp hrest
  simp only [Prod.mk.injEq] at hval
  obtain ⟨hbuf, hdata, hdisk, hview, hview'⟩ := hval
  refine ⟨s, t, run_of_exec hs, by rw [hbuf], by rw [hbuf], hdata, ?_, run_of_exec ht, hview,
    hview'⟩
  rw [hbuf]
  exact hdisk

end Xv6.Bio
