import Mathlib.Algebra.BigOperators.Ring.Finset
import Mathlib.Algebra.Order.BigOperators.Group.Finset
import Mathlib.Data.Finset.Option
import Xv6.Bio.Commit

/-!
# xv6 — when the cache runs dry

A buffer in use is pinned by the log, or a process has locked it, or is about to,
or is just releasing it. Where operations hold at most two buffers at a time, at
most `log.lh.n + 2 * outstanding` are in use, and at most `log.lh.n` when a commit
reads a block that is not pinned.

Neither number is below `NBUF` by itself: the log admits as many blocks as there
are buffers, and once it has pinned them all `write_log` finds none for its copy.

* `card_used_le`        — the buffers in use, counted by who uses them.
* `supplied_run`        — what processes own, in every state.
* `bget_has_buffer`     — where the two numbers leave room, `bget` finds a buffer.
* `commit_runs_dry`     — three operations that log ten blocks each.
-/

namespace Xv6.Bio

open Holders TransitionRun Function Finset
open Log (Block Disk)

variable {s s' : State} {p q : Tid} {x y : Buf} {c c' : Core} {b start : Nat}

/-! ### What a process owns -/

/-- The buffers that a process has locked, is about to lock or is just releasing. -/
def Core.owned (c : Core) (p : Tid) : Nat := holders c.holder p + (c.busy p).buf.isSome.toNat

theorem holder_update {l : Option (Tid × Mark)} (hlock : c'.lock = update c.lock x l) :
    c'.holder = update c.holder x (l.map Prod.fst) := by
  funext y
  simp only [Core.holder, hlock, update_apply]
  split <;> rfl

/-- A step that changes neither locks nor what processes wait for. -/
theorem owned_congr (hholder : c'.holder = c.holder) (hbusy : c'.busy = c.busy) :
    c'.owned q = c.owned q := by
  rw [Core.owned, hholder, hbusy, Core.owned]

theorem holder_mark (c : Core) (x : Buf) (m : Mark) : (c.mark x m).holder = c.holder := by
  funext y
  simp only [Core.holder, Core.mark, update_apply]
  split
  · simp [*, comp_def]
  · rfl

/-- A process turns to another buffer. -/
theorem owned_busy (c : Core) (cache : Cache) (p : Tid) (v : Busy) :
    (∀ q, q ≠ p → { c with cache := cache, busy := update c.busy p v }.owned q = c.owned q) ∧
    { c with cache := cache, busy := update c.busy p v }.owned p +
      (c.busy p).buf.isSome.toNat = c.owned p + v.buf.isSome.toNat := by
  have howned : ∀ q, { c with cache := cache, busy := update c.busy p v }.owned q =
      holders c.holder q + (update c.busy p v q).buf.isSome.toNat := fun _ => rfl
  refine ⟨fun q hq => ?_, ?_⟩
  · rw [howned, update_of_ne hq, Core.owned]
  · rw [howned, update_self, Core.owned]
    omega

theorem owned_take (ht : c.Takes p x c') (q : Tid) : c'.owned q = c.owned q := by
  have hcount := holders_update c.holder x (some p) q
  have hfree : c.holder x = none := by simp [Core.holder, ht.free]
  have hholder := holder_update ht.lock
  simp only [Option.map_some] at hholder
  simp only [hfree, reduceCtorEq, if_false, Nat.add_zero] at hcount
  rw [Core.owned, hholder, hcount, ht.busy, Core.owned]
  by_cases hq : q = p
  · subst hq
    simp [ht.want, Busy.buf]
  · simp [hq, Ne.symm hq]

theorem owned_release (hbusy : c.busy p = .no) (hx : c.holder x = some p) (q : Tid) :
    (c.release p x).owned q = c.owned q := by
  have hcount := holders_update c.holder x none q
  have hholder : (c.release p x).holder = update c.holder x none :=
    holder_update (l := none) rfl
  simp only [hx, reduceCtorEq, if_false, Nat.add_zero] at hcount
  rw [Core.owned, hholder, Core.owned, ← hcount]
  by_cases hq : q = p
  · subst hq
    simp [Core.release, hbusy, Busy.buf]
  · simp [Core.release, hq, Ne.symm hq]

/-- The buffers in use, counted by who uses them. -/
theorem card_used_le (c : Core) :
    (univ.filter fun x => c.users x ≠ 0).card ≤ c.pins.length + ∑ p, c.owned p := by
  let own (p : Tid) : Finset Buf :=
    (univ.filter fun x => c.holder x = some p) ∪ (c.busy p).buf.toFinset
  have hown : ∀ p, (own p).card ≤ c.owned p := by
    intro p
    refine (card_union_le _ _).trans (Nat.add_le_add le_rfl ?_)
    cases (c.busy p).buf <;> simp
  have hsub : (univ.filter fun x => c.users x ≠ 0) ⊆
      c.pins.toFinset ∪ univ.biUnion own := by
    intro x hx
    simp only [mem_filter] at hx
    unfold Core.users at hx
    simp only [mem_union, List.mem_toFinset, mem_biUnion, mem_univ, true_and]
    by_cases hpin : x ∈ c.pins
    · exact .inl hpin
    right
    rw [List.count_eq_zero.mpr hpin] at hx
    cases hl : c.lock x with
    | some l =>
      refine ⟨l.1, mem_union_left _ (mem_filter.mpr ⟨mem_univ x, ?_⟩)⟩
      simp [Core.holder, hl]
    | none =>
      have hbusy : holders (fun p => (c.busy p).buf) x ≠ 0 := by simpa [hl] using hx
      obtain ⟨p, hp⟩ := not_forall_not.mp fun hall => hbusy (holders_eq_zero.mpr hall)
      exact ⟨p, mem_union_right _ (by simp [hp])⟩
  calc _ ≤ _ := card_le_card hsub
    _ ≤ c.pins.toFinset.card + (univ.biUnion own).card := card_union_le _ _
    _ ≤ c.pins.length + ∑ p, c.owned p :=
      Nat.add_le_add c.pins.toFinset_card_le
        (card_biUnion_le.trans (sum_le_sum fun p _ => hown p))

/-! ### The operations and their room -/

/-- Only operations use the cache; they hold at most two buffers at a time, and
name at most `MAXOPBLOCKS` distinct blocks. -/
def Admitted (s : State) : Event → Prop
  | .get p _ => (s.thread p).op = true ∧ s.core.owned p ≤ 1
  | .logWrite p x =>
    (insert (s.core.cache.buf x).blockno (s.thread p).named).card ≤ MAXOPBLOCKS
  | _ => True

/-- An operation that reads a block, and a commit that begins, leave a buffer to
each of the others. -/
def Room (s : State) : Event → Prop
  | .get _ _ => s.lh.length + 2 * s.outstanding ≤ NBUF
  | .endOp _ => s.outstanding = 1 → s.lh.length < NBUF
  | _ => True

instance (s : State) (e : Event) : Decidable (Admitted s e) :=
  match e with
  | .get _ _ => inferInstanceAs (Decidable (_ ∧ _))
  | .logWrite _ _ => inferInstanceAs (Decidable (_ ≤ _))
  | .beginOp _ | .take _ | .modify _ _ _ | .copyFail _ _ _ _ | .release _ _ | .drop _ | .endOp _
  | .instr _ => isTrue trivial

instance (s : State) (e : Event) : Decidable (Room s e) :=
  match e with
  | .get _ _ => inferInstanceAs (Decidable (_ ≤ _))
  | .endOp _ => inferInstanceAs (Decidable (_ → _))
  | .beginOp _ | .take _ | .modify _ _ _ | .copyFail _ _ _ _ | .logWrite _ _ | .release _ _
  | .drop _ | .instr _ => isTrue trivial

/-- The step would end in "bget: no buffers". -/
def RunsDry (s : State) : Event → Prop
  | .get p b => s.core.get p b = .error .noBuffers
  | .instr p => ∃ b code, (s.thread p).code = .get b :: code ∧
    s.core.get p b = .error .noBuffers
  | _ => False

/-- What processes own. -/
structure Supplied (s : State) : Prop where
  inv : Inv False s
  owns : ∀ p, (s.thread p).code = [] →
    s.core.owned p ≤ if (s.thread p).op = true then 2 else 0
  pins : ∀ p, (s.thread p).code ≠ [] → s.core.pins.length < NBUF
  regs : ∀ p, (s.thread p).code ≠ [] → ∀ x, s.core.holder x = some p →
    (s.thread p).src = some x ∨ (s.thread p).dst = some x

/-- A buffer for the block is found where one is cached, or one is not in use. -/
theorem get_ne_noBuffers {clean : Prop} (hok : c.Ok clean)
    (h : (∃ x, (c.cache.buf x).carries ROOTDEV b) ∨ c.pins.length + ∑ p, c.owned p < NBUF) :
    c.get p b ≠ .error .noBuffers := by
  obtain ⟨order, hord⟩ := hok.ordered
  unfold Core.get
  rcases bget_cases hord ROOTDEV b with ⟨x, -, hx⟩ | ⟨hnone, ⟨x, -, hx⟩ | ⟨hused, hx⟩⟩ <;> rw [hx]
  · nofun
  · nofun
  · intro _
    rcases h with ⟨x, hcar⟩ | hroom
    · exact hnone x hcar
    · have hall : (univ.filter fun x => c.users x ≠ 0) = univ :=
        filter_true_of_mem fun x _ => fun hzero => hused x (hok.refcnt_eq_zero.mpr hzero)
      have hle := card_used_le c
      rw [hall, card_fin] at hle
      omega

/-- While no one commits, operations own at most two buffers each, and the one
that owns at most one has room for another. -/
theorem Supplied.sum_owned (h : Supplied s) (hop : (s.thread p).op = true)
    (hp : s.core.owned p ≤ 1) : ∑ q, s.core.owned q < 2 * s.outstanding := by
  have hc := h.inv.log.not_committing_of_op hop
  have hidle := (h.inv.log.running hc).2
  have hsum : 2 * s.outstanding = ∑ q, if (s.thread q).op = true then 2 else 0 := by
    rw [h.inv.log.count, State.ops, holders, card_filter, mul_sum]
    refine sum_congr rfl fun q _ => ?_
    split <;> simp
  rw [hsum]
  refine sum_lt_sum (fun q _ => h.owns q (hidle q)) ⟨p, mem_univ p, ?_⟩
  rw [if_pos hop]
  omega

theorem Supplied.not_dry_get (h : Supplied s) (hadm : Admitted s (.get p b))
    (hroom : Room s (.get p b)) : ¬ RunsDry s (.get p b) := by
  have hc := h.inv.log.not_committing_of_op hadm.1
  have hpins : s.core.pins.length = s.lh.length := by
    rw [← (h.inv.log.running hc).1, List.length_map]
  have hsum := h.sum_owned hadm.1 hadm.2
  refine get_ne_noBuffers h.inv.core (.inr ?_)
  unfold Room at hroom
  omega

/-- No one else owns a buffer during a commit. -/
theorem Supplied.owned_eq_zero (h : Supplied s) (hcode : (s.thread p).code ≠ []) (hq : q ≠ p) :
    s.core.owned q = 0 := by
  have hop : (s.thread q).op = false := by
    cases hop : (s.thread q).op with
    | false => rfl
    | true =>
      have := h.inv.log.not_committing_of_op hop
      rw [h.inv.log.committing_of_code hcode] at this
      cases this
  simpa [hop] using h.owns q ((h.inv.log.commit p hcode).1 q hq)

theorem Supplied.not_dry_instr (h : Supplied s) : ¬ RunsDry s (.instr p) := by
  rintro ⟨b, code, hcode, hdry⟩
  have hne : (s.thread p).code ≠ [] := by simp [hcode]
  obtain ⟨f, hheld, hwaits, hwant, hdrop, hread, -⟩ := h.inv.frame hcode
  have hbusy := hwaits.not_busy hwant hdrop
  have hsum : ∑ q, s.core.owned q = holders s.core.holder p := by
    rw [sum_eq_single p (fun q _ hq => h.owned_eq_zero hne hq) (by simp), Core.owned, hbusy]
    rfl
  refine get_ne_noBuffers h.inv.core ?_ hdry
  rcases hread with hpinned | ⟨hsrc, hdst⟩ | hnone
  · -- the block is pinned, so it is cached
    left
    rw [hheld.pins, List.mem_map] at hpinned
    obtain ⟨x, hx, rfl⟩ := hpinned
    exact ⟨x, carries_iff.mpr ⟨h.inv.core.dev x (.inr (Core.users_ne_zero_of_mem hx)), rfl⟩⟩
  · -- nothing but the pins is in use
    right
    have hzero : holders s.core.holder p = 0 := by
      refine holders_eq_zero.mpr fun x hx => ?_
      rcases h.regs p hne x hx with hr | hr
      · rw [hheld.src, hr] at hsrc
        cases hsrc
      · rw [hheld.dst, hr] at hdst
        cases hdst
    have := h.pins p hne
    omega
  · -- recovery: nothing is pinned
    right
    have hpins : s.core.pins.length = 0 := by
      rw [← List.length_map, ← hheld.pins, hnone]
      rfl
    have htwo : holders s.core.holder p ≤ 2 := by
      have hsub : (univ.filter fun x => s.core.holder x = some p) ⊆
          (s.thread p).src.toFinset ∪ (s.thread p).dst.toFinset := by
        intro x hx
        simpa [Option.mem_toFinset] using h.regs p hne x (mem_filter.mp hx).2
      refine (card_le_card hsub).trans ((card_union_le _ _).trans ?_)
      cases (s.thread p).src <;> cases (s.thread p).dst <;> simp
    have : NBUF = 30 := rfl
    omega

/-! ### Every run -/

/-- A step of a process outside `commit` that changes the cache only. -/
theorem Supplied.core_step (h : Supplied s) (hinv : Inv False { s with core := c })
    (hown : ∀ q, c.owned q ≤ s.core.owned q ∨ (s.thread q).op = true ∧ c.owned q ≤ 2)
    (hpins : c.pins = s.core.pins) (hregs : ∀ q x, (s.thread q).code ≠ [] →
      c.holder x = some q → s.core.holder x = some q) : Supplied { s with core := c } where
  inv := hinv
  owns q hq := by
    rcases hown q with hle | ⟨hop, hle⟩
    · exact hle.trans (h.owns q hq)
    · rwa [if_pos hop]
  pins q hq := hpins ▸ h.pins q hq
  regs q hq x hx := h.regs q hq x (hregs q x hq hx)

theorem supplied_get (h : Supplied s) (hadm : Admitted s (.get p b)) (hfree : s.Free p)
    (hget : s.core.get p b = .ok c) : Supplied { s with core := c } := by
  have hinv := inv_get h.inv hfree hget
  obtain ⟨-, x, cache, rfl, -⟩ := h.inv.core.get hfree.1 hget
  obtain ⟨hothers, hp⟩ := owned_busy s.core cache p (.want x)
  refine h.core_step hinv (fun q => ?_) rfl fun _ _ _ hx => hx
  by_cases hq : q = p
  · subst hq
    have hle := hadm.2
    simp only [Busy.buf, Option.isSome_some,
      Bool.toNat_true] at hp
    exact .inr ⟨hadm.1, by omega⟩
  · exact .inl (hothers q hq).le

theorem supplied_take (h : Supplied s) (hcode : (s.thread p).code = [])
    (ht : s.core.Takes p x c) : Supplied { s with core := c } := by
  refine h.core_step (inv_take h.inv hcode ht) (fun q => .inl (owned_take ht q).le) ht.pins
    fun q y hq hy => ?_
  rw [holder_update ht.lock, update_apply] at hy
  split at hy
  · cases hy
    exact absurd hcode hq
  · exact hy

theorem supplied_drop (h : Supplied s) (hcode : (s.thread p).code = [])
    (hdrop : s.core.drop p = some c) : Supplied { s with core := c } := by
  have hinv := inv_drop h.inv hcode hdrop
  obtain ⟨-, x, -, rfl⟩ := h.inv.core.drop hdrop
  obtain ⟨hothers, hp⟩ := owned_busy s.core (s.core.cache.brelse x) p .no
  refine h.core_step hinv (fun q => .inl ?_) rfl fun _ _ _ hx => hx
  by_cases hq : q = p
  · subst hq
    simp only [Busy.buf, Option.isSome_none, Bool.toNat_false] at hp
    omega
  · exact (hothers q hq).le

theorem supplied_release (h : Supplied s) (hfree : s.Free p) {m : Mark}
    (hx : s.core.lock x = some (p, m)) (hm : m ≠ .dirty) :
    Supplied { s with core := s.core.release p x } := by
  have hholder : s.core.holder x = some p := by simp [Core.holder, hx]
  refine h.core_step (inv_release h.inv hfree hx hm)
    (fun q => .inl (owned_release hfree.1 hholder q).le) rfl fun q y _ hy => ?_
  rw [holder_update (l := none) rfl, update_apply] at hy
  split at hy
  · cases hy
  · exact hy

/-- A step that changes contents and marks only. -/
theorem Supplied.change (h : Supplied s) (hinv : Inv False { s with core := c })
    (hholder : c.holder = s.core.holder) (hbusy : c.busy = s.core.busy)
    (hpins : c.pins = s.core.pins) : Supplied { s with core := c } :=
  h.core_step hinv (fun _ => .inl (owned_congr hholder hbusy).le) hpins
    fun _ _ _ hx => hholder ▸ hx

/-- While no one commits, only the share of each process counts. -/
theorem supplied_of_running (hinv : Inv False s) (hidle : ∀ p, (s.thread p).code = [])
    (hown : ∀ p, s.core.owned p ≤ if (s.thread p).op = true then 2 else 0) : Supplied s :=
  ⟨hinv, fun p _ => hown p, fun p hp => absurd (hidle p) hp, fun p hp => absurd (hidle p) hp⟩

theorem supplied_beginOp (h : Supplied s) (hs : s.beginOp p = some s') : Supplied s' := by
  have hinv := inv_beginOp h.inv hs
  unfold State.beginOp at hs
  split at hs
  · cases hs
  split at hs
  · cases hs
  rename_i hc
  split at hs <;> cases hs
  simp only [Bool.not_eq_true] at hc
  refine supplied_of_running hinv (hinv.log.running hc).2 fun q => ?_
  have hq := h.owns q ((h.inv.log.running hc).2 q)
  by_cases heq : q = p
  · subst heq
    simp only [State.setThread, update_self, if_true]
    refine hq.trans ?_
    split <;> omega
  · simpa [State.setThread, heq] using hq

theorem supplied_logWrite (h : Supplied s) (hs : s.logWrite start p x = some s') : Supplied s' := by
  have hinv := inv_logWrite h.inv hs
  unfold State.logWrite at hs
  simp only at hs
  split at hs
  · cases hs
  split at hs
  · cases hs
  split at hs
  · rename_i hx
    have hc := h.inv.log.not_committing_of_op hx.2.1
    have hown : ∀ q, s.core.owned q ≤ if ((s.setThread p { s.thread p with
        named := insert (s.core.cache.buf x).blockno (s.thread p).named }).thread q).op = true
        then 2 else 0 := by
      intro q
      have hq := h.owns q ((h.inv.log.running hc).2 q)
      by_cases heq : q = p
      · subst heq
        simpa [State.setThread] using hq
      · simpa [State.setThread, heq] using hq
    have hmark : ∀ q, (s.core.mark x .clean).owned q = s.core.owned q := fun q =>
      owned_congr (holder_mark _ _ _) rfl
    split at hs <;> cases hs
    · refine supplied_of_running hinv (hinv.log.running hc).2 fun q => ?_
      exact (hmark q).le.trans (hown q)
    · refine supplied_of_running hinv (hinv.log.running hc).2 fun q => ?_
      exact (owned_congr rfl rfl).le.trans
        ((hmark q).le.trans (hown q))
  · cases hs

theorem supplied_endOp (h : Supplied s) (hroom : Room s (.endOp p))
    (hs : s.endOp start p = some s') : Supplied s' := by
  have hinv := inv_endOp h.inv hs
  unfold State.endOp at hs
  split at hs
  · cases hs
  rename_i hc
  simp only [Bool.not_eq_true] at hc
  split at hs
  · rename_i hend
    have hidle := (h.inv.log.running hc).2
    have hzero : s.core.owned p = 0 := by
      rw [Core.owned, holders_eq_zero.mpr hend.2.2, hend.1.1]
      rfl
    have hown : ∀ q, q ≠ p → s.core.owned q ≤ if (s.thread q).op = true then 2 else 0 := fun q _ =>
      h.owns q (hidle q)
    simp only at hs
    split at hs
    · cases hs
      refine supplied_of_running hinv (hinv.log.running hc).2 fun q => ?_
      by_cases heq : q = p
      · subst heq
        exact hzero.le.trans (Nat.zero_le _)
      · simpa [State.setThread, heq] using hown q heq
    · rename_i hlast
      cases hs
      have houtstanding : 0 < s.outstanding := by
        rw [h.inv.log.count]
        exact holders_pos (i := p) (by simp [hend.2.1])
      have hlt : s.core.pins.length < NBUF := by
        have hlast : s.outstanding - 1 = 0 := not_not.mp hlast
        have hlen := hroom (by omega)
        rwa [← (h.inv.log.running hc).1, List.length_map] at hlen
      refine ⟨hinv, fun q hq => ?_, fun _ _ => hlt, fun q hq x hx => ?_⟩
      · by_cases heq : q = p
        · subst heq
          exact hzero.le.trans (Nat.zero_le _)
        · simpa [State.setThread, heq] using hown q heq
      · have heq : q = p := by
          by_contra hne
          exact hq (by simpa [State.setThread, hne] using hidle q)
        exact absurd (heq ▸ hx) (hend.2.2 x)
  · cases hs

/-- A process inside `commit` goes on. -/
theorem Supplied.go (h : Supplied s) {t : Thread} {i : Instr} {code : List Instr}
    (hcode : (s.thread p).code = i :: code) (hinv : Inv False s')
    (hthread : s'.thread = update s.thread p { t with code := code })
    (hown : ∀ q, q ≠ p → s'.core.owned q = s.core.owned q) (hne : code ≠ [])
    (hpins : s'.core.pins.length ≤ s.core.pins.length)
    (hregs : ∀ x, s'.core.holder x = some p → t.src = some x ∨ t.dst = some x) : Supplied s' := by
  have hp : (s.thread p).code ≠ [] := by simp [hcode]
  refine ⟨hinv, fun q hq => ?_, fun q hq => ?_, fun q hq x hx => ?_⟩
  · have heq : q ≠ p := by
      rintro rfl
      exact hne (by simpa [hthread] using hq)
    exact ((hown q heq).trans (h.owned_eq_zero hp heq)).le.trans (Nat.zero_le _)
  · exact lt_of_le_of_lt hpins (h.pins p hp)
  · have heq : q = p := by
      by_contra hqp
      refine hq ?_
      simpa [hthread, hqp] using (h.inv.log.commit p hp).1 q hqp
    subst heq
    simpa [hthread] using hregs x hx

theorem Check.code_ne_nil {f : Frame} {i : Instr} {code : List Instr} (h : Check f (i :: code))
    (hi : i ≠ .done) : code ≠ [] := by
  rintro rfl
  cases i with
  | done => exact hi rfl
  | bunpin => exact h.2.choose_spec.2.2
  | _ => simp [Check] at h

theorem supplied_instr (h : Supplied s) (hs : s.instr p = some s') : Supplied s' := by
  have hinv := inv_instr h.inv hs
  unfold State.instr at hs
  simp only at hs
  split at hs
  · cases hs
  rename_i i code hcode
  have hp : (s.thread p).code ≠ [] := by simp [hcode]
  obtain ⟨f, hheld, hwaits, hcheck⟩ := h.inv.frame hcode
  have hregs := h.regs p hp
  -- contents and marks do not matter
  have hsame : s'.core.holder = s.core.holder → s'.core.busy = s.core.busy →
      s'.core.pins.length ≤ s.core.pins.length → code ≠ [] →
      s'.thread = update s.thread p { s.thread p with code := code } → Supplied s' :=
    fun hholder hbusy hpins hne hthread => h.go hcode hinv hthread
      (fun _ _ => owned_congr hholder hbusy) hne hpins fun x hx => hregs x (hholder ▸ hx)
  cases i with
  | get b =>
    simp only at hs
    split at hs <;> cases hs
    rename_i hget
    obtain ⟨-, x, cache, rfl, -⟩ := h.inv.core.get
      (hwaits.not_busy hcheck.1 hcheck.2.1) hget
    exact h.go hcode hinv rfl (owned_busy s.core cache p (.want x)).1
      (hcheck.code_ne_nil (by rintro ⟨⟩)) le_rfl hregs
  | take r b =>
    obtain ⟨⟨x, c⟩, htake, rfl⟩ := Option.map_eq_some_iff.mp hs
    have ht := Core.takes_of_take htake
    refine h.go hcode hinv rfl (fun q _ => owned_take ht q) (hcheck.code_ne_nil (by rintro ⟨⟩))
      (congrArg List.length ht.pins).le fun y hy => ?_
    replace hy : c.holder y = some p := hy
    rw [holder_update ht.lock, update_apply] at hy
    have hr : f.reg r = none := hcheck.2.1
    split at hy
    · subst y
      cases r <;> simp [Thread.setReg]
    · -- the register is empty, so the buffers held are in the other one
      cases r with
      | src =>
        have hnone := Option.map_eq_none_iff.mp (hheld.src.symm.trans hr)
        exact .inr ((hregs y hy).resolve_left (by simp [hnone]))
      | dst =>
        have hnone := Option.map_eq_none_iff.mp (hheld.dst.symm.trans hr)
        exact .inl ((hregs y hy).resolve_right (by simp [hnone]))
  | copy =>
    simp only at hs
    split at hs <;> cases hs
    exact hsame (holder_mark _ _ _) rfl le_rfl (hcheck.code_ne_nil (by rintro ⟨⟩)) rfl
  | putHead | bwrite =>
    obtain ⟨y, -, rfl⟩ := Option.map_eq_some_iff.mp hs
    exact hsame (holder_mark _ _ _) rfl le_rfl (hcheck.code_ne_nil (by rintro ⟨⟩)) rfl
  | bunpin =>
    obtain ⟨y, -, rfl⟩ := Option.map_eq_some_iff.mp hs
    exact hsame rfl rfl List.length_erase_le (hcheck.code_ne_nil (by rintro ⟨⟩)) rfl
  | release r =>
    obtain ⟨x, hx, rfl⟩ := Option.map_eq_some_iff.mp hs
    have hbusy := hwaits.not_busy hcheck.1 hcheck.2.1
    have hlock : s.core.holder x = some p := by
      cases r with
      | src => simp [Core.holder, hheld.srcLock x hx]
      | dst => simp [Core.holder, hheld.dstLock x hx]
    refine h.go hcode hinv rfl (fun q _ => owned_release hbusy hlock q)
      (hcheck.code_ne_nil (by rintro ⟨⟩)) le_rfl fun y hy => ?_
    replace hy : (s.core.release p x).holder y = some p := hy
    rw [holder_update (l := none) rfl, update_apply] at hy
    split at hy
    · cases hy
    · rename_i hne
      cases r with
      | src =>
        have hx : (s.thread p).src = some x := hx
        exact .inr ((hregs y hy).resolve_left fun hy => hne (by simpa [hx] using hy.symm))
      | dst =>
        have hx : (s.thread p).dst = some x := hx
        exact .inl ((hregs y hy).resolve_right fun hy => hne (by simpa [hx] using hy.symm))
  | drop =>
    obtain ⟨c, hdrop, rfl⟩ := Option.map_eq_some_iff.mp hs
    obtain ⟨-, x, -, rfl⟩ := h.inv.core.drop hdrop
    exact h.go hcode hinv rfl (owned_busy s.core (s.core.cache.brelse x) p .no).1
      (hcheck.code_ne_nil (by rintro ⟨⟩)) le_rfl hregs
  | clear =>
    cases hs
    exact hsame rfl rfl le_rfl (hcheck.code_ne_nil (by rintro ⟨⟩)) rfl
  | done =>
    cases hs
    obtain ⟨-, rfl⟩ := hcheck
    refine supplied_of_running hinv (hinv.log.running rfl).2 fun q => ?_
    by_cases heq : q = p
    · subst heq
      have hnone : holders s.core.holder q = 0 := by
        refine holders_eq_zero.mpr fun x hx => ?_
        rcases hregs x hx with hr | hr
        · exact absurd (hheld.src.trans (congrArg _ hr)) (by rintro ⟨⟩)
        · exact absurd (hheld.dst.trans (congrArg _ hr)) (by rintro ⟨⟩)
      have hzero : s.core.owned q = 0 := by
        rw [Core.owned, hnone, hwaits.not_busy rfl rfl]
        rfl
      exact hzero.le.trans (Nat.zero_le _)
    · exact (h.owned_eq_zero hp heq).le.trans (Nat.zero_le _)

theorem supplied_step {e : Event} (h : Supplied s) (hadm : Admitted s e) (hroom : Room s e)
    (hs : Step start s e s') : Supplied s' := by
  have hinv := inv_step h.inv nofun hs
  unfold Step at hs
  cases e with
  | beginOp p => exact supplied_beginOp h hs
  | get p b =>
    simp only [step] at hs
    split at hs
    · rename_i hfree
      split at hs <;> cases hs
      exact supplied_get h hadm hfree.1 ‹_›
    · cases hs
  | take p =>
    simp only [step] at hs
    split at hs
    · obtain ⟨⟨x, c⟩, htake, rfl⟩ := Option.map_eq_some_iff.mp hs
      exact supplied_take h ‹_› (Core.takes_of_take htake)
    · cases hs
  | modify p x v =>
    simp only [step] at hs
    split at hs <;> cases hs
    exact h.change hinv (holder_mark _ _ _) rfl rfl
  | copyFail p x off bs =>
    simp only [step] at hs
    split at hs <;> cases hs
    exact h.change hinv rfl rfl rfl
  | logWrite p x => exact supplied_logWrite h hs
  | release p x =>
    simp only [step] at hs
    split at hs <;> cases hs
    rename_i hrel
    obtain ⟨m, hm⟩ := holder_eq hrel.2.1
    refine supplied_release h hrel.1 hm ?_
    rintro rfl
    exact hrel.2.2 hm
  | drop p =>
    simp only [step] at hs
    split at hs
    · obtain ⟨c, hdrop, rfl⟩ := Option.map_eq_some_iff.mp hs
      exact supplied_drop h ‹_› hdrop
    · cases hs
  | endOp p => exact supplied_endOp h hroom hs
  | instr p => exact supplied_instr h hs

theorem supplied_run {d : Disk} {data : Buf → Block} {es : List Event}
    (hrun : Run (Restrict (fun s e => Admitted s e ∧ Room s e) (Step start))
      (powerOn start d data) es s) : Supplied s := by
  refine hrun.invariant ⟨inv_powerOn start d data, fun p _ => ?_, fun _ _ => ?_,
    nofun⟩ fun _ _ _ h hs => supplied_step h hs.1.1 hs.1.2 hs.2
  · have hzero : (powerOn start d data).core.owned p = 0 := by
      simp [Core.owned, powerOn, Core.holder, holders_eq_zero, Busy.buf]
    exact hzero.le.trans (Nat.zero_le _)
  · show 0 < NBUF
    decide

/-- In every run of operations and of the commits they trigger in which

* operations hold at most two buffers at a time and name at most `MAXOPBLOCKS`
  blocks,
* an operation reads a block only while `log.lh.n + 2 * outstanding ≤ NBUF`, and the
  last one ends with `log.lh.n < NBUF`,

no step that keeps to this ends in "bget: no buffers". -/
theorem bget_has_buffer {start : Nat} {d : Disk} {data : Buf → Block} {es : List Event}
    (hrun : Run (Restrict (fun s e => Admitted s e ∧ Room s e) (Step start))
      (powerOn start d data) es s) (e : Event) (hadm : Admitted s e) (hroom : Room s e) :
    ¬ RunsDry s e := by
  have h := supplied_run hrun
  cases e with
  | get p b => exact h.not_dry_get hadm hroom
  | instr p => exact h.not_dry_instr
  | _ => exact id

/-- Process `p` changes and logs block `b`, which comes to be in buffer `x`. -/
def logBlock (p : Tid) (x : Buf) (b : Nat) : List Event :=
  [.get p b, .take p, .modify p x (fun _ => 7), .logWrite p x, .release p x, .drop p]

/-- Three operations begin and log `n` blocks, ten each as far as they go. -/
def logSome (n : Nat) : List Event :=
  List.replicate 16 (.instr 0) ++ [.beginOp 1, .beginOp 2, .beginOp 3] ++
    (List.range n).flatMap fun i => logBlock (Fin.ofNat NPROC (i / 10 + 1))
      (Fin.ofNat NBUF (i + 2)) (40 + i)

/-- Three operations log ten blocks each, and end. -/
def logAll : List Event := logSome 30 ++ [.endOp 1, .endOp 2, .endOp 3]

/-- With 24 blocks pinned and three operations going on, there is just room for a block that
is not in the cache. -/
theorem bget_has_buffer_pinned :
    ∃ s, exec (fun s e => if Admitted s e ∧ Room s e then step 2 s e else none)
        (powerOn 2 (fun _ _ => 0) fun _ _ => 0) (logSome 24) = some s ∧
      s.lh.length + 2 * s.outstanding = NBUF ∧ Admitted s (.get 3 64) ∧ Room s (.get 3 64) ∧
      ¬ RunsDry s (.get 3 64) := by
  have hsome : ((exec (fun s e => if Admitted s e ∧ Room s e then step 2 s e else none)
      (powerOn 2 (fun _ _ => 0) fun _ _ => 0) (logSome 24)).map
      fun s => (decide (Admitted s (.get 3 64)), s.lh.length + 2 * s.outstanding)) =
      some (true, NBUF) := by decide +kernel
  obtain ⟨s, hs, hval⟩ := Option.map_eq_some_iff.mp hsome
  simp only [Prod.mk.injEq, decide_eq_true_eq] at hval
  have hroom : Room s (.get 3 64) := hval.2.le
  exact ⟨s, hs, hval.2, hval.1, hroom, bget_has_buffer (run_restrict_of_exec hs) _ hval.1 hroom⟩

/-- All buffers are pinned, and the first `bread` of `write_log` panics. -/
theorem commit_runs_dry :
    ∃ s, Run (Restrict Admitted (Step 2)) (powerOn 2 (fun _ _ => 0) fun _ _ => 0) logAll s ∧
      s.lh.length = NBUF ∧ RunsDry s (.instr 3) := by
  have hsome : ((exec (fun s e => if Admitted s e then step 2 s e else none)
      (powerOn 2 (fun _ _ => 0) fun _ _ => 0) logAll).map fun s => (s.lh.length,
        (s.thread 3).code.head?, match s.core.get 3 3 with | .error e => some e | .ok _ => none)) =
      some (NBUF, some (.get 3), some .noBuffers) := by decide +kernel
  obtain ⟨s, hs, hval⟩ := Option.map_eq_some_iff.mp hsome
  simp only [Prod.mk.injEq] at hval
  obtain ⟨hlen, hhead, hget⟩ := hval
  obtain ⟨code, hcode⟩ := List.head?_eq_some_iff.mp hhead
  refine ⟨s, run_restrict_of_exec hs, hlen, 3, code, hcode, ?_⟩
  split at hget
  · rename_i e he
    rw [he, Option.some.inj hget]
  · cases hget

end Xv6.Bio
