import Mathlib.Data.Fintype.Card
import Mathlib.Data.List.Pairwise
import Mathlib.Data.Nat.Cast.WithTop
import Xv6.Lib.Ring
import Xv6.Lib.Run
import Xv6.Param

/-!
# xv6 — the buffer cache (`kernel/bio.c`)

The `NBUF` buffers are linked in a ring, most recently released first. The parts
of `bget`, `brelse`, `bpin` and `bunpin` that run under `bcache.lock` are
functions on the ring and the buffers' headers; the sleep locks and the contents
of the buffers come in with `Xv6.Bio.Model`.

`refcnt` is a `uint` and wraps.

* `bget_cases`       — what `bget` does, told from the buffers alone.
* `lru_run`          — the ring stays a ring, ordered by last release.
* `cache_structure`  — the results for any sequence of calls.
-/

namespace Xv6.Bio

open LinkedRing TransitionRun Function List

/-- A buffer of the cache. -/
abbrev Buf := Fin NBUF

/-- The fields of `struct buf` that `bcache.lock` protects, and `valid`. -/
structure Header where
  valid : Bool
  dev : Nat
  blockno : Nat
  refcnt : UInt32
  deriving DecidableEq, Repr

/-- `bcache`. -/
structure Cache where
  links : Links Buf
  buf : Buf → Header

/-- How `bget` may fail to return. -/
inductive Fail where
  | noBuffers
  /-- the links do not lead back to the head -/
  | forever
  deriving DecidableEq, Repr

/-- `binit`. -/
def binit : Cache where
  links := (List.finRange NBUF).foldl Links.pushFront Links.empty
  buf := fun _ => ⟨false, 0, 0, 0⟩

/-- Replace the header of a buffer. -/
def Cache.set (c : Cache) (b : Buf) (h : Header) : Cache :=
  { c with buf := update c.buf b h }

/-- Add to the reference count of a buffer. -/
def Cache.addRef (c : Cache) (b : Buf) (n : UInt32) : Cache :=
  c.set b { c.buf b with refcnt := (c.buf b).refcnt + n }

/-- The buffer is for this block. -/
def Header.carries (h : Header) (dev blockno : Nat) : Bool := h.dev = dev ∧ h.blockno = blockno

/-- `bget`, up to where it takes the buffer's lock. -/
def Cache.bget (c : Cache) (dev blockno : Nat) : Except Fail (Buf × Cache) :=
  -- Is the block already cached?
  match scan c.links.next (fun b => (c.buf b).carries dev blockno) (NBUF + 1)
      (c.links.next none) with
  | none => .error .forever
  | some (some b) => .ok (b, c.addRef b 1)
  | some none =>
    -- Recycle the least recently used (LRU) unused buffer.
    match scan c.links.prev (fun b => (c.buf b).refcnt = 0) (NBUF + 1) (c.links.prev none) with
    | none => .error .forever
    | some (some b) => .ok (b, c.set b ⟨false, dev, blockno, 1⟩)
    | some none => .error .noBuffers

/-- `brelse`, after it has given up the buffer's lock. -/
def Cache.brelse (c : Cache) (b : Buf) : Cache :=
  let c := c.addRef b (-1)
  -- no one is waiting for it
  if (c.buf b).refcnt = 0 then { c with links := c.links.moveToFront b } else c

/-- `bpin`. -/
def Cache.bpin (c : Cache) (b : Buf) : Cache := c.addRef b 1

/-- `bunpin`. -/
def Cache.bunpin (c : Cache) (b : Buf) : Cache := c.addRef b (-1)

/-! ### What the functions do -/

/-- The ring holds every buffer, in this order. -/
structure Ordered (c : Cache) (order : List Buf) : Prop where
  ring : IsRing c.links order
  all : ∀ b, b ∈ order

variable {c : Cache} {order : List Buf}

theorem carries_iff {h : Header} {dev b : Nat} :
    h.carries dev b = true ↔ h.dev = dev ∧ h.blockno = b := by
  simp [Header.carries]

theorem set_buf (c : Cache) (b b' : Buf) (h : Header) :
    (c.set b h).buf b' = if b' = b then h else c.buf b' := by
  simp only [Cache.set, update_apply]

theorem addRef_refcnt (c : Cache) (b b' : Buf) (n : UInt32) : ((c.addRef b n).buf b').refcnt =
    if b' = b then (c.buf b').refcnt + n else (c.buf b').refcnt := by
  rw [Cache.addRef, set_buf]
  split
  · simp [*]
  · rfl

/-- The buffers are for the same blocks, and the same of them are valid. -/
def Cache.Same (c c' : Cache) : Prop := ∀ b, (c'.buf b).valid = (c.buf b).valid ∧
  (c'.buf b).dev = (c.buf b).dev ∧ (c'.buf b).blockno = (c.buf b).blockno

theorem addRef_same (c : Cache) (b : Buf) (n : UInt32) : c.Same (c.addRef b n) := by
  intro b'
  rw [Cache.addRef, set_buf]
  split
  · simp [*]
  · simp

theorem Cache.Same.carries {c' : Cache} (h : c.Same c') (b : Buf) :
    (c'.buf b).carries = (c.buf b).carries := by
  funext dev blockno
  simp [Header.carries, h b]

@[simp] theorem addRef_carries (c : Cache) (b b' : Buf) (n : UInt32) :
    ((c.addRef b n).buf b').carries = (c.buf b').carries :=
  (addRef_same c b n).carries b'

theorem brelse_eq (c : Cache) (b : Buf) : c.brelse b = if ((c.addRef b (-1)).buf b).refcnt = 0 then
      { c.addRef b (-1) with links := c.links.moveToFront b } else c.addRef b (-1) := rfl

theorem brelse_buf (c : Cache) (b : Buf) : (c.brelse b).buf = (c.addRef b (-1)).buf := by
  rw [brelse_eq]
  split <;> rfl

theorem Ordered.length (h : Ordered c order) : order.length = NBUF := by
  rw [← toFinset_card_of_nodup h.ring.nodup,
    Finset.eq_univ_of_forall fun b => mem_toFinset.mpr (h.all b), Finset.card_fin]

theorem brelse_same (c : Cache) (b : Buf) : c.Same (c.brelse b) := by
  intro b'
  rw [brelse_buf]
  exact addRef_same c b _ b'

/-- A buffer that carries the block gets one more reference; else the last
unused buffer of the ring is recycled; else there is none. -/
theorem bget_cases (h : Ordered c order) (dev blockno : Nat) :
    (∃ b, (c.buf b).carries dev blockno ∧ c.bget dev blockno = .ok (b, c.addRef b 1)) ∨
    (∀ b, ¬ (c.buf b).carries dev blockno) ∧
      ((∃ b, order.reverse.find? (fun b => (c.buf b).refcnt = 0) = some b ∧
        c.bget dev blockno = .ok (b, c.set b ⟨false, dev, blockno, 1⟩)) ∨
      (∀ b, (c.buf b).refcnt ≠ 0) ∧ c.bget dev blockno = .error .noBuffers) := by
  have hnext := scan_eq (fun b => (c.buf b).carries dev blockno) h.ring.next
    (n := NBUF + 1) (by rw [h.length]; omega)
  have hprev := scan_eq (fun b => decide ((c.buf b).refcnt = 0)) h.ring.prev
    (n := NBUF + 1) (by rw [length_reverse, h.length]; omega)
  unfold Cache.bget
  rw [hnext, hprev]
  cases hfind : order.find? fun b => (c.buf b).carries dev blockno with
  | some b => exact .inl ⟨b, by simpa using find?_some hfind, rfl⟩
  | none =>
    refine .inr ⟨fun b => find?_eq_none.mp hfind b (h.all b), ?_⟩
    cases hfree : order.reverse.find? fun b => decide ((c.buf b).refcnt = 0) with
    | some b => exact .inl ⟨b, rfl, rfl⟩
    | none =>
      refine .inr ⟨fun b => ?_, rfl⟩
      simpa using find?_eq_none.mp hfree b (mem_reverse.mpr (h.all b))

theorem Ordered.brelse (h : Ordered c order) (b : Buf) : Ordered (c.brelse b)
      (if ((c.brelse b).buf b).refcnt = 0 then b :: order.erase b else order) := by
  rw [brelse_eq]
  split
  · refine ⟨h.ring.moveToFront (h.all b), fun b' => ?_⟩
    by_cases heq : b' = b
    · simp [heq]
    · simp [mem_erase_of_ne heq, h.all b']
  · exact ⟨h.ring, h.all⟩

theorem ordered_foldl {l : Links Buf} {order : List Buf} (h : IsRing l order) :
    ∀ bs : List Buf, (bs ++ order).Nodup → IsRing (bs.foldl Links.pushFront l) (bs.reverse ++ order)
  | [], _ => h
  | b :: bs, hnodup => by
    rw [foldl_cons, reverse_cons, append_assoc]
    have hnot := (nodup_cons.mp hnodup).1
    refine ordered_foldl (h.pushFront fun hmem => hnot (mem_append_right _ hmem)) bs ?_
    exact (nodup_middle (a := b)).mpr hnodup

theorem ordered_binit : Ordered binit (finRange NBUF).reverse := by
  refine ⟨?_, by simp⟩
  have h := ordered_foldl isRing_empty (finRange NBUF) (by simp [nodup_finRange])
  exact h

/-! ### Any sequence of calls -/

/-- The cache and its history: when each buffer was last released to zero, which
no step reads. -/
structure Lru where
  cache : Cache
  /-- releases to zero so far -/
  clock : Nat
  /-- the number of the last one of each buffer, `⊥` if there was none -/
  released : Buf → WithBot Nat

/-- A call. -/
inductive Call where
  | bget (dev blockno : Nat)
  | brelse (b : Buf)
  | bpin (b : Buf)
  | bunpin (b : Buf)

/-- The cache after a call; a `bget` that panics takes no step. -/
def Lru.step (s : Lru) : Call → Option Lru
  | .bget dev blockno =>
    match s.cache.bget dev blockno with
    | .ok (_, c) => some { s with cache := c }
    | .error _ => none
  | .brelse b =>
    let c := s.cache.brelse b
    if (c.buf b).refcnt = 0 then
      some ⟨c, s.clock + 1, update s.released b (s.clock + 1 : Nat)⟩
    else some { s with cache := c }
  | .bpin b => some { s with cache := s.cache.bpin b }
  | .bunpin b => some { s with cache := s.cache.bunpin b }

/-- The steps as a relation. -/
def Lru.Step (s : Lru) (e : Call) (t : Lru) : Prop := s.step e = some t

/-- The cache after `binit`. -/
def Lru.start : Lru := ⟨binit, 0, fun _ => ⊥⟩

/-- The ring lists the buffers by last release, the latest first. -/
structure LruOrder (s : Lru) (order : List Buf) : Prop extends Ordered s.cache order where
  sorted : order.Pairwise fun b b' => s.released b' ≤ s.released b
  bound : ∀ b, s.released b ≤ (s.clock : WithBot Nat)

/-- A block of a device is in at most one buffer. -/
def Cache.Unique (c : Cache) : Prop :=
  ∀ b b', 1 ≤ (c.buf b).dev → (c.buf b').carries (c.buf b).dev (c.buf b).blockno → b = b'

variable {s : Lru} {e : Call}

theorem lru_release (h : LruOrder s order) (b : Buf)
    (hzero : ((s.cache.brelse b).buf b).refcnt = 0) :
    LruOrder ⟨s.cache.brelse b, s.clock + 1, update s.released b (s.clock + 1 : Nat)⟩
      (b :: order.erase b) := by
  have hord := h.toOrdered.brelse b
  rw [if_pos hzero] at hord
  have hlt : ∀ b', s.released b' ≤ ((s.clock + 1 : Nat) : WithBot Nat) := fun b' =>
    (h.bound b').trans (WithBot.coe_le_coe.mpr (Nat.le_succ _))
  refine { hord with
    sorted := pairwise_cons.mpr ⟨fun b' hb' => ?_, ?_⟩, bound := fun b' => ?_ }
  · have hne : b' ≠ b := fun heq => (List.Nodup.mem_erase_iff h.ring.nodup).mp hb' |>.1 heq
    simpa [hne] using hlt b'
  · refine (h.sorted.sublist erase_sublist).imp_of_mem fun {x y} hx hy hxy => ?_
    have hxb := ((List.Nodup.mem_erase_iff h.ring.nodup).mp hx).1
    have hyb := ((List.Nodup.mem_erase_iff h.ring.nodup).mp hy).1
    simpa [hxb, hyb] using hxy
  · by_cases heq : b' = b
    · simp [heq]
    · simpa [heq] using hlt b'

theorem lru_step {t : Lru} (h : ∃ order, LruOrder s order) (hs : s.Step e t) :
    ∃ order, LruOrder t order := by
  obtain ⟨order, h⟩ := h
  unfold Lru.Step at hs
  cases e with
  | bget dev blockno =>
    simp only [Lru.step] at hs
    rcases bget_cases h.toOrdered dev blockno with ⟨b, -, hb⟩ | ⟨-, ⟨b, -, hb⟩ | ⟨-, hb⟩⟩ <;>
      rw [hb] at hs <;> cases hs <;> exact ⟨order, { h with }⟩
  | brelse b =>
    simp only [Lru.step] at hs
    split at hs <;> cases hs
    · exact ⟨_, lru_release h b ‹_›⟩
    · have hord := h.toOrdered.brelse b
      rw [if_neg ‹_›] at hord
      exact ⟨order, { hord with sorted := h.sorted, bound := h.bound }⟩
  | bpin b | bunpin b =>
    cases hs
    exact ⟨order, { h with }⟩

theorem lru_run {es : List Call} (hrun : Run Lru.Step Lru.start es s) :
    ∃ order, LruOrder s order := by
  refine hrun.invariant ?_ fun _ _ _ => lru_step
  refine ⟨_, { ordered_binit with sorted := ?_, bound := fun _ => bot_le }⟩
  exact pairwise_of_forall fun _ _ => le_rfl

theorem Cache.Unique.of_carries {c' : Cache} (h : c.Unique)
    (heq : ∀ b, (c'.buf b).carries = (c.buf b).carries) : c'.Unique := by
  have hdev : ∀ b, (c'.buf b).dev = (c.buf b).dev ∧ (c'.buf b).blockno = (c.buf b).blockno := by
    intro b
    have := congrFun (congrFun (heq b) (c.buf b).dev) (c.buf b).blockno
    simpa [Header.carries] using this
  intro b b' hb hcar
  rw [(hdev b).1, (hdev b).2, heq] at hcar
  rw [(hdev b).1] at hb
  exact h b b' hb hcar

/-- A block that no buffer carries can be given to any. -/
theorem Cache.Unique.assign (h : c.Unique) {dev blockno : Nat}
    (hnone : ∀ b, ¬ (c.buf b).carries dev blockno) (b : Buf) :
    (c.set b ⟨false, dev, blockno, 1⟩).Unique := by
  intro x y hx hcar
  by_cases hxb : x = b <;> by_cases hyb : y = b
  · rw [hxb, hyb]
  · simp only [hxb, Cache.set, update_self, update_of_ne hyb] at hcar
    exact absurd hcar (hnone y)
  · simp only [hyb, Cache.set, update_self, update_of_ne hxb] at hcar
    refine absurd ?_ (hnone x)
    simp only [Header.carries, decide_eq_true_eq] at hcar ⊢
    exact ⟨hcar.1.symm, hcar.2.symm⟩
  · simp only [Cache.set, update_of_ne hxb, update_of_ne hyb] at hx hcar
    exact h x y hx hcar

theorem unique_step {t : Lru} (hord : ∃ order, LruOrder s order) (h : s.cache.Unique)
    (hs : s.Step e t) : t.cache.Unique := by
  obtain ⟨order, hord⟩ := hord
  unfold Lru.Step at hs
  cases e with
  | bget dev blockno =>
    simp only [Lru.step] at hs
    rcases bget_cases hord.toOrdered dev blockno with ⟨b, -, hb⟩ | ⟨hnone, ⟨b, -, hb⟩ | ⟨-, hb⟩⟩ <;>
      rw [hb] at hs <;> cases hs
    · exact h.of_carries fun b' => addRef_carries _ _ _ _
    · exact h.assign hnone b
  | brelse b =>
    have hcar : ∀ b', ((s.cache.brelse b).buf b').carries = (s.cache.buf b').carries := by
      intro b'
      rw [brelse_buf, addRef_carries]
    simp only [Lru.step] at hs
    split at hs <;> cases hs <;> exact h.of_carries hcar
  | bpin b | bunpin b =>
    cases hs
    exact h.of_carries fun b' => addRef_carries _ _ _ _

theorem unique_run {es : List Call} (hrun : Run Lru.Step Lru.start es s) : s.cache.Unique := by
  induction hrun with
  | start => exact fun b b' hdev => absurd hdev (by simp [Lru.start, binit])
  | snoc hrun hs ih => exact unique_step (lru_run hrun) ih hs

/-- A reference keeps a buffer for its block. -/
theorem carries_of_ref {t : Lru} (hord : ∃ order, LruOrder s order) (hs : s.Step e t) {b : Buf}
    (hb : (s.cache.buf b).refcnt ≠ 0) : (t.cache.buf b).carries = (s.cache.buf b).carries := by
  obtain ⟨order, hord⟩ := hord
  unfold Lru.Step at hs
  cases e with
  | bget dev blockno =>
    simp only [Lru.step] at hs
    rcases bget_cases hord.toOrdered dev blockno with ⟨x, -, hx⟩ | ⟨-, ⟨x, hfree, hx⟩ | ⟨-, hx⟩⟩ <;>
      rw [hx] at hs <;> cases hs
    · exact addRef_carries _ _ _ _
    · -- the recycled buffer has no reference
      have hne : b ≠ x := by
        rintro rfl
        exact hb (by simpa using find?_some hfree)
      simp [Cache.set, hne]
  | brelse x =>
    simp only [Lru.step] at hs
    split at hs <;> cases hs <;> rw [brelse_buf, addRef_carries]
  | bpin x | bunpin x =>
    cases hs
    exact addRef_carries _ _ _ _

/-- The last unused buffer of the ring is the one released longest ago. -/
theorem oldest_of_find (h : LruOrder s order) {b b' : Buf}
    (hfind : order.reverse.find? (fun b => (s.cache.buf b).refcnt = 0) = some b)
    (hb' : (s.cache.buf b').refcnt = 0) : s.released b ≤ s.released b' := by
  obtain ⟨-, newer, older, heq, hused⟩ := find?_eq_some_iff_append.mp hfind
  have hsorted := pairwise_reverse.mpr h.sorted
  rw [heq, pairwise_append, pairwise_cons] at hsorted
  have hmem : b' ∈ newer ++ b :: older := heq ▸ mem_reverse.mpr (h.all b')
  rcases mem_append.mp hmem with hmem | hmem
  · simpa [hb'] using hused b' hmem
  · rcases mem_cons.mp hmem with rfl | hmem
    · exact le_rfl
    · exact hsorted.2.1.1 b' hmem

/-- After any sequence of `bget`, `brelse`, `bpin` and `bunpin` from `binit` on:

* the links form one ring of all buffers, each once;
* a block of a device is in at most one buffer;
* a call leaves a buffer that has references to its block;
* the buffer recycled for a block that is not cached has no reference, and none
  of the others without a reference was released to zero longer ago;
* `bget` does not run forever, and panics only if every buffer has a reference.
-/
theorem cache_structure {es : List Call} {s : Lru} (hrun : Run Lru.Step Lru.start es s) :
    (∃ order : List Buf, IsRing s.cache.links order ∧ ∀ b, b ∈ order) ∧
    (∀ b b', 1 ≤ (s.cache.buf b).dev → (s.cache.buf b').dev = (s.cache.buf b).dev →
      (s.cache.buf b').blockno = (s.cache.buf b).blockno → b = b') ∧
    (∀ e t, s.Step e t → ∀ b, 0 < (s.cache.buf b).refcnt →
      (t.cache.buf b).dev = (s.cache.buf b).dev ∧
      (t.cache.buf b).blockno = (s.cache.buf b).blockno) ∧
    (∀ dev blockno b c, (∀ b', ¬ (s.cache.buf b').carries dev blockno) →
      s.cache.bget dev blockno = .ok (b, c) → (s.cache.buf b).refcnt = 0 ∧
      ∀ b', (s.cache.buf b').refcnt = 0 → s.released b ≤ s.released b') ∧
    (∀ dev blockno e, s.cache.bget dev blockno = .error e →
      e = .noBuffers ∧ ∀ b, (s.cache.buf b).refcnt ≠ 0) := by
  obtain ⟨order, h⟩ := lru_run hrun
  refine ⟨⟨order, h.ring, h.all⟩, fun b b' hdev heq heq' => ?_, fun e t hs b hb => ?_,
    fun dev blockno b c hnone hget => ?_, fun dev blockno e hget => ?_⟩
  · exact unique_run hrun b b' hdev (by simp [Header.carries, heq, heq'])
  · have hcar := carries_of_ref ⟨order, h⟩ hs (UInt32.ne_of_lt hb).symm
    have := congrFun (congrFun hcar (s.cache.buf b).dev) (s.cache.buf b).blockno
    simpa [Header.carries] using this
  · rcases bget_cases h.toOrdered dev blockno with ⟨x, hx, -⟩ | ⟨-, ⟨x, hfree, hx⟩ | ⟨-, hx⟩⟩
    · exact absurd hx (hnone x)
    · rw [hx] at hget
      cases hget
      exact ⟨by simpa using find?_some hfree, fun b' => oldest_of_find h hfree⟩
    · rw [hx] at hget
      cases hget
  · rcases bget_cases h.toOrdered dev blockno with ⟨x, -, hx⟩ | ⟨-, ⟨x, -, hx⟩ | ⟨hused, hx⟩⟩ <;>
      rw [hx] at hget <;> cases hget
    exact ⟨rfl, hused⟩

/-- Two blocks are read and released, the second one first. -/
def twoBlocks : List Call := [.bget 1 7, .bget 1 9, .bpin 1, .brelse 1, .brelse 0, .bunpin 1]

theorem cache_structure_twoBlocks : ∃ s, exec Lru.step Lru.start twoBlocks = some s ∧
      (∃ order : List Buf, IsRing s.cache.links order ∧ ∀ b, b ∈ order) ∧
      s.released 0 = (1 : Nat) ∧ (s.cache.buf 1).blockno = 9 := by
  have hsome : ((exec Lru.step Lru.start twoBlocks).map fun s =>
      (s.released 0, (s.cache.buf 1).blockno)) = some (((1 : Nat) : WithBot Nat), 9) := by
    decide +kernel
  obtain ⟨s, hs, hval⟩ := Option.map_eq_some_iff.mp hsome
  simp only [Prod.mk.injEq] at hval
  exact ⟨s, hs, (cache_structure (run_of_exec hs)).1, hval.1, hval.2⟩

end Xv6.Bio
