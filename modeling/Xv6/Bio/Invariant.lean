import Xv6.Bio.Model

/-!
# xv6 — the invariant of the buffer cache

Every reference to a buffer is held by its lock, by a process inside `bread` or
`brelse`, or by the log (`Core.users`). A buffer that holds something else than
the disk is pinned by the log, or its holder has changed it and not yet logged or
written it (`Core.Ok.data`); a buffer without references is neither.

One lemma for each thing a process can do to the cache; each also says which
buffers stay for their block.
-/

namespace Xv6.Bio

open Holders Function List

namespace Core

/-- The references to a buffer. -/
def users (c : Core) (x : Buf) : Nat :=
  (c.lock x).isSome.toNat + holders (fun p => (c.busy p).buf) x + c.pins.count x

/-- The mark of a locked buffer. -/
def markOf (c : Core) (x : Buf) : Option Mark := (c.lock x).map Prod.snd

/-- The buffer should hold what the disk does. -/
def Synced (c : Core) (x : Buf) : Prop :=
  c.markOf x = some .written ∨ x ∉ c.pins ∧ c.markOf x ≠ some .dirty

/-- The invariant. What it says about contents is claimed only as long as `clean`
holds: no failing copy from user memory has changed a buffer. -/
structure Ok (clean : Prop) (c : Core) : Prop where
  ordered : ∃ order, Ordered c.cache order
  unique : c.cache.Unique
  refs : ∀ x, (c.cache.buf x).refcnt = UInt32.ofNat (c.users x)
  nodup : c.pins.Nodup
  dev : ∀ x, (c.cache.buf x).valid = true ∨ c.users x ≠ 0 → (c.cache.buf x).dev = ROOTDEV
  held : ∀ x, (c.lock x).isSome → (c.cache.buf x).valid = true
  data : clean → ∀ x, (c.cache.buf x).valid = true → c.Synced x →
    c.data x = c.disk (c.cache.buf x).blockno

variable {clean : Prop} {c c' : Core} {p : Tid} {x y : Buf}

/-! ### References -/

theorem Ok.users_lt (h : c.Ok clean) (x : Buf) : c.users x < 2 ^ 32 := by
  have hlock : (c.lock x).isSome.toNat ≤ 1 := Bool.toNat_le _
  have hbusy : holders (fun p => (c.busy p).buf) x ≤ 64 := by
    simpa [NPROC] using holders_le_card (f := fun p => (c.busy p).buf)
  have hpins : c.pins.count x ≤ 1 := nodup_iff_count_le_one.mp h.nodup x
  unfold users
  omega

theorem ofNat_succ_sub (n : Nat) : UInt32.ofNat (n + 1) + (-1) = UInt32.ofNat n := by
  rw [UInt32.ofNat_add, UInt32.add_assoc]
  exact UInt32.add_zero _

theorem Ok.refcnt_eq_zero (h : c.Ok clean) : (c.cache.buf x).refcnt = 0 ↔ c.users x = 0 := by
  have hlt := h.users_lt x
  rw [h.refs, ← UInt32.toNat_inj]
  simp
  omega

theorem users_ne_zero_of_lock (h : (c.lock x).isSome) : c.users x ≠ 0 := by simp [users, h]

theorem users_ne_zero_of_busy (h : (c.busy p).buf = some x) : c.users x ≠ 0 := by
  have := holders_pos (f := fun p => (c.busy p).buf) h
  unfold users
  omega

theorem users_ne_zero_of_mem (h : x ∈ c.pins) : c.users x ≠ 0 := by
  have := count_pos_iff.mpr h
  unfold users
  omega

theorem buf_update (f : Tid → Busy) (p : Tid) (v : Busy) :
    (fun q => (update f p v q).buf) = update (fun q => (f q).buf) p v.buf :=
  comp_update Busy.buf f p v

/-- A process turns from one buffer to another. -/
theorem users_busy (c : Core) (p : Tid) (v : Busy) (y : Buf) :
    { c with busy := update c.busy p v }.users y + (if (c.busy p).buf = some y then 1 else 0) =
      c.users y + (if v.buf = some y then 1 else 0) := by
  have h := holders_update (fun q => (c.busy q).buf) p v.buf y
  rw [← buf_update] at h
  simp only [users]
  omega

/-- References depend on the locks, on the processes and on the pins. -/
theorem users_congr (hlock : ∀ x, (c'.lock x).isSome = (c.lock x).isSome) (hbusy : c'.busy = c.busy)
    (hpins : c'.pins = c.pins) (x : Buf) : c'.users x = c.users x := by
  simp only [users, hlock, hbusy, hpins]

/-- Two valid buffers of one block are the same. -/
theorem Ok.eq_of_blockno (h : c.Ok clean) (hx : (c.cache.buf x).dev = ROOTDEV)
    (hy : (c.cache.buf y).dev = ROOTDEV)
    (heq : (c.cache.buf y).blockno = (c.cache.buf x).blockno) : x = y := by
  refine h.unique x y (by rw [hx]; decide) ?_
  simp [Header.carries, hx, hy, heq]

/-- A step after which the buffers are for the same blocks and the same of them
are valid. -/
theorem Ok.of_same (h : c.Ok clean) (hsame : c.cache.Same c'.cache)
    (hord : ∃ order, Ordered c'.cache order)
    (hrefs : ∀ y, (c'.cache.buf y).refcnt = UInt32.ofNat (c'.users y))
    (hdev : ∀ y, c'.users y ≠ 0 → (c.cache.buf y).dev = ROOTDEV) (hnodup : c'.pins.Nodup)
    (hheld : ∀ y, (c'.lock y).isSome → (c.cache.buf y).valid = true)
    (hdata : clean → ∀ y, (c.cache.buf y).valid = true → c'.Synced y →
      c'.data y = c'.disk (c.cache.buf y).blockno) : c'.Ok clean where
  ordered := hord
  unique := h.unique.of_carries hsame.carries
  refs := hrefs
  nodup := hnodup
  dev y hy := by
    rw [(hsame y).1] at hy
    rw [(hsame y).2.1]
    exact hy.elim (fun hv => h.dev y (.inl hv)) (hdev y)
  held y hy := by
    rw [(hsame y).1]
    exact hheld y hy
  data hclean y hy hsync := by
    rw [(hsame y).1] at hy
    rw [(hsame y).2.2]
    exact hdata hclean y hy hsync

/-! ### bread -/

theorem users_want (hbusy : c.busy p = .no) (cache : Cache) (x y : Buf) :
    { c with cache := cache, busy := update c.busy p (.want x) }.users y =
      c.users y + (if y = x then 1 else 0) := by
  have h := c.users_busy p (.want x) y
  simp only [hbusy, Busy.buf, Option.some.injEq, eq_comm (a := x)] at h
  exact h

/-- `bget` gives the process a reference to a buffer for the block; buffers with
references stay for theirs. -/
theorem Ok.get (h : c.Ok clean) (hbusy : c.busy p = .no) {b : Nat} (hget : c.get p b = .ok c') :
    c'.Ok clean ∧ ∃ x cache, c' = { c with cache := cache, busy := update c.busy p (.want x) } ∧
      (cache.buf x).dev = ROOTDEV ∧ (cache.buf x).blockno = b ∧
      ∀ y, c.users y ≠ 0 → (cache.buf y).blockno = (c.cache.buf y).blockno := by
  obtain ⟨order, hord⟩ := h.ordered
  unfold Core.get at hget
  rcases bget_cases hord ROOTDEV b with ⟨x, hcar, hx⟩ | ⟨hnone, ⟨x, hfree, hx⟩ | ⟨-, hx⟩⟩ <;>
    rw [hx] at hget <;> cases hget
  · -- the block is cached
    have hsame := addRef_same c.cache x 1
    simp only [Header.carries, decide_eq_true_eq] at hcar
    refine ⟨h.of_same hsame ⟨order, hord.ring, hord.all⟩ (fun y => ?_) (fun y hy => ?_) h.nodup
      h.held h.data, x, _, rfl, ?_, ?_, fun y _ => (hsame y).2.2⟩
    · rw [addRef_refcnt, users_want hbusy, h.refs]
      split
      · exact (UInt32.ofNat_add _ 1).symm
      · rfl
    · rw [users_want hbusy] at hy
      by_cases heq : y = x
      · rw [heq]
        exact hcar.1
      · exact h.dev y (.inr (by simpa [heq] using hy))
    · rw [(hsame x).2.1]
      exact hcar.1
    · rw [(hsame x).2.2]
      exact hcar.2
  · -- a buffer without references is recycled
    have hzero : c.users x = 0 := h.refcnt_eq_zero.mp (by simpa using find?_some hfree)
    have hlock : c.lock x = none := by
      by_contra hsome
      exact users_ne_zero_of_lock (Option.isSome_iff_ne_none.mpr hsome) hzero
    refine ⟨⟨⟨order, hord.ring, hord.all⟩, h.unique.assign hnone x, fun y => ?_, h.nodup,
      fun y hy => ?_, fun y hy => ?_, fun hc y hy hsync => ?_⟩, x, _, rfl, ?_, ?_, fun y hy => ?_⟩
    · rw [set_buf, users_want hbusy]
      split
      · simp [*]
      · exact h.refs y
    · rw [users_want hbusy] at hy
      simp only [set_buf] at hy ⊢
      split
      · rfl
      · exact h.dev y (by simpa [*] using hy)
    · have hne : y ≠ x := by
        rintro rfl
        simp [hlock] at hy
      simpa [set_buf, hne] using h.held y hy
    · have hne : y ≠ x := by
        rintro rfl
        simp [set_buf] at hy
      simp only [set_buf, if_neg hne] at hy ⊢
      exact h.data hc y hy hsync
    · simp [set_buf]
    · simp [set_buf]
    · have hne : y ≠ x := by
        rintro rfl
        exact hy hzero
      simp [set_buf, hne]

/-- What the rest of `bread` does. -/
structure Takes (c : Core) (p : Tid) (x : Buf) (c' : Core) : Prop where
  want : c.busy p = .want x
  free : c.lock x = none
  lock : c'.lock = update c.lock x (some (p, .clean))
  busy : c'.busy = update c.busy p .no
  pins : c'.pins = c.pins
  disk : c'.disk = c.disk
  links : c'.cache.links = c.cache.links
  header : ∀ y, c'.cache.buf y =
    if y = x then { c.cache.buf x with valid := true } else c.cache.buf y
  data : ∀ y, c'.data y = if y = x ∧ (c.cache.buf x).valid = false then
    c.disk (c.cache.buf x).blockno else c.data y

theorem takes_of_take (htake : c.take p = some (x, c')) : c.Takes p x c' := by
  unfold take at htake
  split at htake
  · rename_i z hz
    split at htake
    · cases htake
    · rename_i hlock
      simp only [Option.some.injEq, Prod.mk.injEq] at htake
      obtain ⟨rfl, hc⟩ := htake
      split at hc <;> rename_i hv <;> subst hc
      · refine ⟨hz, by simpa using hlock, rfl, rfl, rfl, rfl, rfl, fun y => ?_, fun y => ?_⟩
        · split
          · subst y
            rw [← hv]
          · rfl
        · simp [hv]
      · refine ⟨hz, by simpa using hlock, rfl, rfl, rfl, rfl, rfl, fun y => ?_, fun y => ?_⟩
        · exact set_buf _ _ _ _
        · simp [hv, update_apply]
  · cases htake

theorem Takes.users (h : c.Takes p x c') (y : Buf) : c'.users y = c.users y := by
  have hbusy := c.users_busy p .no y
  rw [h.want] at hbusy
  simp only [Core.users, Busy.buf, h.lock, h.busy, h.pins, update_apply] at hbusy ⊢
  by_cases heq : y = x
  · subst heq
    simp only [h.free] at hbusy ⊢
    simp at hbusy ⊢
    omega
  · simp only [if_neg heq] at hbusy ⊢
    simp [Ne.symm heq] at hbusy ⊢
    omega

theorem Ok.take (h : c.Ok clean) (ht : c.Takes p x c') : c'.Ok clean := by
  obtain ⟨order, hord⟩ := h.ordered
  have hheader : ∀ y, (c'.cache.buf y).dev = (c.cache.buf y).dev ∧
      (c'.cache.buf y).blockno = (c.cache.buf y).blockno ∧
      (c'.cache.buf y).refcnt = (c.cache.buf y).refcnt := by
    intro y
    rw [ht.header]
    split
    · simp [*]
    · simp
  have hused : c.users x ≠ 0 := users_ne_zero_of_busy (p := p) (by rw [ht.want]; rfl)
  refine ⟨⟨order, ht.links ▸ hord.ring, hord.all⟩, h.unique.of_carries fun y => ?_, fun y => ?_,
    ht.pins ▸ h.nodup, fun y hy => ?_, fun y hy => ?_, fun hc y hy hsync => ?_⟩
  · funext dev blockno
    simp [Header.carries, hheader y]
  · rw [(hheader y).2.2, ht.users, h.refs]
  · rw [(hheader y).1]
    rw [ht.users] at hy
    refine hy.elim (fun hv => ?_) fun hu => h.dev y (.inr hu)
    by_cases heq : y = x
    · exact heq ▸ h.dev x (.inr hused)
    · rw [ht.header, if_neg heq] at hv
      exact h.dev y (.inl hv)
  · rw [ht.header]
    split
    · rfl
    · rename_i hne
      rw [ht.lock, update_of_ne hne] at hy
      exact h.held y hy
  · rw [(hheader y).2.1, ht.disk, ht.data]
    by_cases heq : y = x
    · subst heq
      split
      · rfl
      · rename_i hv
        refine h.data hc y (by simpa using hv) (.inr ⟨?_, by simp [markOf, ht.free]⟩)
        -- the lock was just taken, so only a pin can excuse the buffer
        rw [← ht.pins]
        rcases hsync with hwritten | hclean
        · simp [markOf, ht.lock] at hwritten
        · exact hclean.1
    · rw [if_neg (by simp [heq])]
      rw [ht.header, if_neg heq] at hy
      refine h.data hc y hy ?_
      simpa [Synced, markOf, ht.lock, ht.pins, update_of_ne heq] using hsync

/-! ### brelse -/

/-- A buffer is released once what was done to it is logged or written. -/
theorem Ok.release (h : c.Ok clean) (hbusy : c.busy p = .no) {m : Mark}
    (hx : c.lock x = some (p, m)) (hm : m ≠ .dirty) : (c.release p x).Ok clean := by
  have husers : ∀ y, (c.release p x).users y = c.users y := by
    intro y
    have hdrop := c.users_busy p (.drop x) y
    rw [hbusy] at hdrop
    simp only [users, Busy.buf, Core.release] at hdrop ⊢
    by_cases heq : y = x
    · subst heq
      simp [hx] at hdrop ⊢
      omega
    · simp [heq, Ne.symm heq] at hdrop ⊢
      omega
  refine h.of_same (fun _ => ⟨rfl, rfl, rfl⟩) h.ordered (fun y => by rw [husers]; exact h.refs y)
    (fun y hy => h.dev y (.inr (husers y ▸ hy))) h.nodup (fun y hy => ?_) fun hc y hy hsync => ?_
  · refine h.held y ?_
    simp only [Core.release, update_apply] at hy
    split at hy
    · simp at hy
    · exact hy
  · refine h.data hc y hy ?_
    by_cases heq : y = x
    · subst heq
      rcases hsync with hwritten | hclean
      · simp [markOf, Core.release] at hwritten
      · exact .inr ⟨hclean.1, by simpa [markOf, hx] using hm⟩
    · simpa [Synced, markOf, Core.release, update_of_ne heq] using hsync

/-- What the rest of `brelse` does. -/
theorem Ok.drop (h : c.Ok clean) (hdrop : c.drop p = some c') :
    c'.Ok clean ∧ ∃ x, c.busy p = .drop x ∧
    c' = { c with cache := c.cache.brelse x, busy := update c.busy p .no } := by
  obtain ⟨order, hord⟩ := h.ordered
  unfold Core.drop at hdrop
  split at hdrop
  · rename_i x hx
    cases hdrop
    refine ⟨?_, x, hx, rfl⟩
    have husers : ∀ y, c.users y = { c with
        cache := c.cache.brelse x, busy := update c.busy p .no }.users y +
        (if y = x then 1 else 0) := by
      intro y
      have hno := c.users_busy p .no y
      simp only [hx, Busy.buf, Option.some.injEq, eq_comm (a := x)] at hno
      exact hno.symm
    refine h.of_same (brelse_same _ _) ⟨_, hord.brelse x⟩ (fun y => ?_) (fun y hy => ?_) h.nodup
      h.held h.data
    · rw [brelse_buf, addRef_refcnt, h.refs, husers]
      split
      · exact ofNat_succ_sub _
      · rfl
    · exact h.dev y (.inr (by rw [husers]; omega))
  · cases hdrop

/-! ### Changes -/

theorem isSome_mark (c : Core) (x y : Buf) (m : Mark) :
    ((c.mark x m).lock y).isSome = (c.lock y).isSome := by
  simp only [mark, update_apply]
  split
  · simp [*]
  · rfl

theorem markOf_mark (c : Core) (x y : Buf) (m : Mark) : (c.mark x m).markOf y =
    if y = x then (c.lock x).map (fun _ => m) else c.markOf y := by
  simp only [markOf, mark, update_apply]
  split <;> simp [comp_def]

theorem synced_mark (c : Core) {x y : Buf} (m : Mark) (hne : y ≠ x) :
    (c.mark x m).Synced y ↔ c.Synced y := by
  simp only [Synced, markOf_mark, if_neg hne]
  rfl

/-- A step that changes what a locked buffer holds, the disk and the mark, but no
header. -/
theorem Ok.change (h : c.Ok clean) (hcache : c'.cache = c.cache)
    (hlock : ∀ y, (c'.lock y).isSome = (c.lock y).isSome) (hbusy : c'.busy = c.busy)
    (hpins : c'.pins = c.pins) (hdata : clean → ∀ y, (c.cache.buf y).valid = true → c'.Synced y →
      c'.data y = c'.disk (c.cache.buf y).blockno) : c'.Ok clean := by
  have husers := users_congr hlock hbusy hpins
  refine h.of_same (fun _ => by rw [hcache]; exact ⟨rfl, rfl, rfl⟩) (hcache ▸ h.ordered)
    (fun y => ?_) (fun y hy => h.dev y (.inr (husers y ▸ hy))) (hpins ▸ h.nodup) (fun y hy => ?_)
    hdata
  · rw [hcache, husers]
    exact h.refs y
  · exact h.held y (hlock y ▸ hy)

/-- A locked buffer is changed. -/
theorem Ok.modify (h : c.Ok clean) (hx : (c.lock x).isSome) (v : Log.Block) :
    ((c.store x v).mark x .dirty).Ok clean := by
  refine h.change rfl (isSome_mark (c.store x v) x · .dirty) rfl rfl fun hc y hy hsync => ?_
  have hne : y ≠ x := by
    rintro rfl
    obtain ⟨l, hl⟩ := Option.isSome_iff_exists.mp hx
    simp [Synced, markOf_mark, store, hl] at hsync
  have hdata : ((c.store x v).mark x .dirty).data y = c.data y := update_of_ne hne _ _
  rw [hdata]
  exact h.data hc y hy ((synced_mark (c.store x v) _ hne).mp hsync)

/-- A buffer is written to the disk. -/
theorem Ok.bwrite (h : c.Ok clean) (hx : (c.cache.buf x).valid = true) :
    ((c.bwrite x).mark x .written).Ok clean := by
  refine h.change rfl (isSome_mark (c.bwrite x) x · .written) rfl rfl fun hc y hy hsync => ?_
  show c.data y = update c.disk (c.cache.buf x).blockno (c.data x) (c.cache.buf y).blockno
  by_cases heq : y = x
  · rw [heq, update_self]
  · -- no other buffer is for the block
    have hne : (c.cache.buf y).blockno ≠ (c.cache.buf x).blockno := fun hblock =>
      heq (h.eq_of_blockno (h.dev x (.inl hx)) (h.dev y (.inl hy)) hblock).symm
    rw [update_of_ne hne]
    exact h.data hc y hy ((synced_mark (c.bwrite x) _ heq).mp hsync)

/-- `log_write` of a block that is in the log. -/
theorem Ok.absorb (h : c.Ok clean) (hx : x ∈ c.pins) : (c.mark x .clean).Ok clean := by
  refine h.change rfl (isSome_mark c x · .clean) rfl rfl fun hc y hy hsync => h.data hc y hy ?_
  have hne : y ≠ x := by
    rintro rfl
    rcases hsync with hwritten | hclean
    · rw [markOf_mark] at hwritten
      cases hl : c.lock y <;> simp [hl] at hwritten
    · exact hclean.1 hx
  exact (synced_mark c _ hne).mp hsync

/-- `log_write` of a block that is not. -/
theorem Ok.pin (h : c.Ok clean) (hlock : (c.lock x).isSome) (hx : x ∉ c.pins) :
    ((c.mark x .clean).bpin x).Ok clean := by
  obtain ⟨order, hord⟩ := h.ordered
  have husers : ∀ y, ((c.mark x .clean).bpin x).users y = c.users y + (if y = x then 1 else 0) := by
    intro y
    have hsome := isSome_mark c x y .clean
    have hcount : (c.pins ++ [x]).count y = c.pins.count y + if y = x then 1 else 0 := by
      simp only [count_append, count_singleton', eq_comm]
    show ((c.mark x .clean).lock y).isSome.toNat + holders (fun p => (c.busy p).buf) y +
      (c.pins ++ [x]).count y = _
    rw [hsome, hcount, ← Nat.add_assoc]
    rfl
  refine h.of_same (addRef_same _ _ _) ⟨order, hord.ring, hord.all⟩ (fun y => ?_) (fun y hy => ?_)
    ?_ (fun y hy => ?_) fun hc y hy hsync => ?_
  · rw [husers]
    show ((c.cache.addRef x 1).buf y).refcnt = _
    rw [addRef_refcnt, h.refs]
    split
    · exact (UInt32.ofNat_add _ 1).symm
    · rfl
  · rw [husers] at hy
    by_cases heq : y = x
    · exact heq ▸ h.dev x (.inr (users_ne_zero_of_lock hlock))
    · exact h.dev y (.inr (by simpa [heq] using hy))
  · refine nodup_append.mpr ⟨h.nodup, nodup_singleton x, fun a ha b hb heq => hx ?_⟩
    rwa [← mem_singleton.mp hb, ← heq]
  · refine h.held y ?_
    rw [← isSome_mark c x y .clean]
    exact hy
  · refine h.data hc y hy ?_
    have hsync' : (c.mark x .clean).markOf y = some .written ∨
        y ∉ c.pins ++ [x] ∧ (c.mark x .clean).markOf y ≠ some .dirty := hsync
    have hne : y ≠ x := by
      rintro rfl
      rcases hsync' with hwritten | hclean
      · rw [markOf_mark] at hwritten
        cases hl : c.lock y <;> simp [hl] at hwritten
      · simp at hclean
    simp only [markOf_mark, if_neg hne] at hsync'
    exact hsync'.imp id fun hclean => ⟨fun hmem => hclean.1 (mem_append_left _ hmem), hclean.2⟩

/-- `bunpin`, after `bwrite`. -/
theorem Ok.bunpin (h : c.Ok clean) (hx : x ∈ c.pins) (hmark : c.markOf x = some .written) :
    (c.bunpin x).Ok clean := by
  obtain ⟨order, hord⟩ := h.ordered
  have husers : ∀ y, c.users y = (c.bunpin x).users y + (if y = x then 1 else 0) := by
    intro y
    have hpos := count_pos_iff.mpr hx
    simp only [users, Core.bunpin]
    by_cases heq : y = x
    · rw [heq, count_erase_self, if_pos rfl]
      omega
    · rw [count_erase_of_ne heq, if_neg heq]
      rfl
  refine h.of_same (addRef_same _ _ _) ⟨order, hord.ring, hord.all⟩ (fun y => ?_) (fun y hy => ?_)
    (h.nodup.sublist erase_sublist) h.held fun hc y hy hsync => h.data hc y hy ?_
  · show ((c.cache.addRef x (-1)).buf y).refcnt = _
    rw [addRef_refcnt, h.refs, husers]
    split
    · exact ofNat_succ_sub _
    · rfl
  · exact h.dev y (.inr (by rw [husers]; omega))
  · by_cases heq : y = x
    · exact .inl (heq ▸ hmark)
    · refine hsync.imp id fun hclean => ⟨fun hmem => hclean.1 ?_, hclean.2⟩
      exact (mem_erase_of_ne heq).mpr hmem

end Core

end Xv6.Bio
