import Xv6.Log.Recovery

/-!
# xv6 — operations are committed whole

`Xv6.Log.Recovery` shows what recovery leaves on the home blocks. This module
adds the history: which operations a transaction is made of. An operation
takes part in a transaction from its `begin_op` to its `end_op`, and `commit`
starts only when no operation is active, so all `log_write` calls of an
operation end up in one transaction or, after a crash, in none.

* `history_step`, `history_run` — the bookkeeping invariant.
* `log_crash_atomic`            — the log is crash atomic.
-/

namespace Xv6.Log

open ByteBuffer StoreWrites TransitionRun List

/-! ### The bookkeeping invariant -/

/-- The transaction `t` contains every call of each operation it contains. -/
def Whole (history calls : List (Nat × Nat)) : Prop :=
  ∀ c ∈ calls, ∀ c' ∈ history, c'.1 = c.1 → c' ∈ calls

/-- What the history says about the operations and transactions. -/
structure History (s : State) : Prop where
  fresh : ∀ c ∈ s.history, c.1 < s.nextOp
  opsFresh : ∀ o ∈ s.ops, o < s.nextOp
  /-- the calls of an active operation belong to the transaction being built -/
  current : ∀ c ∈ s.history, c.1 ∈ s.ops → c ∈ s.calls
  building : Whole s.history s.calls
  listed : ∀ c ∈ s.calls, c ∈ s.history ∧ c.2 ∈ s.lh
  collecting : s.calls ≠ [] → s.phase.collecting
  whole : ∀ t ∈ s.txns, Whole s.history t.calls
  written : ∀ t ∈ s.txns, ∀ c ∈ t.calls, c ∈ s.history ∧ c.2 ∈ t.writes.map Prod.fst
  /-- an operation of a committed transaction is over -/
  finished : ∀ t ∈ s.txns, ∀ c ∈ t.calls, c.1 ∉ s.ops

variable {start : Nat} {d0 : Disk} {s t : State}

theorem history_beginOp (h : History s) : History { s with
      outstanding := s.outstanding + 1, ops := s.nextOp :: s.ops, nextOp := s.nextOp + 1 } := by
  -- the new operation has a number that no call carries
  have hnew : ∀ c ∈ s.history, c.1 ≠ s.nextOp := fun c hc => Nat.ne_of_lt (h.fresh c hc)
  refine { h with fresh := ?_, opsFresh := ?_, current := ?_, finished := ?_ }
  · intro c hc
    exact Nat.lt_succ_of_lt (h.fresh c hc)
  · intro o ho
    rcases mem_cons.mp ho with rfl | ho
    · exact Nat.lt_succ_self _
    · exact Nat.lt_succ_of_lt (h.opsFresh o ho)
  · intro c hc ho
    rcases mem_cons.mp ho with ho | ho
    · exact absurd ho (hnew c hc)
    · exact h.current c hc ho
  · intro u hu c hc ho
    rcases mem_cons.mp ho with ho | ho
    · exact hnew c (h.written u hu c hc).1 ho
    · exact h.finished u hu c hc ho

/-- A call of `log_write`, which leaves the block in the log `lh`. -/
theorem history_call {op b : Nat} {lh : List Nat} {pin : Nat → Bool} (h : History s)
    (hop : op ∈ s.ops) (hcol : s.phase.collecting) (hsub : ∀ x ∈ s.lh, x ∈ lh) (hb : b ∈ lh) :
    History { s.call op b with lh := lh, pinned := pin } := by
  refine { h with fresh := ?_, current := ?_, building := ?_, listed := ?_
                  collecting := fun _ => hcol, whole := ?_, written := ?_ }
  · intro c hc
    rcases mem_append.mp hc with hc | hc
    · exact h.fresh c hc
    · obtain rfl := mem_singleton.mp hc
      exact h.opsFresh op hop
  · intro c hc ho
    rcases mem_append.mp hc with hc | hc
    · exact mem_append_left _ (h.current c hc ho)
    · exact mem_append_right _ hc
  · intro c hc c' hc' heq
    rcases mem_append.mp hc' with hc' | hc'
    · apply mem_append_left
      rcases mem_append.mp hc with hc | hc
      · exact h.building c hc c' hc' heq
      · obtain rfl := mem_singleton.mp hc
        exact h.current c' hc' (heq ▸ hop)
    · exact mem_append_right _ hc'
  · intro c hc
    rcases mem_append.mp hc with hc | hc
    · exact ⟨mem_append_left _ (h.listed c hc).1, hsub _ (h.listed c hc).2⟩
    · refine ⟨mem_append_right _ hc, ?_⟩
      obtain rfl := mem_singleton.mp hc
      exact hb
  · intro u hu c hc c' hc' heq
    rcases mem_append.mp hc' with hc' | hc'
    · exact h.whole u hu c hc c' hc' heq
    · obtain rfl := mem_singleton.mp hc'
      have hc1 : op = c.1 := heq
      exact absurd (hc1 ▸ hop) (h.finished u hu c hc)
  · intro u hu c hc
    exact ⟨mem_append_left _ (h.written u hu c hc).1, (h.written u hu c hc).2⟩

theorem history_leave {op : Nat} {c : Bool} {p : Phase} (h : History s) (hp : p.collecting) :
    History { s.leave op with committing := c, phase := p } :=
  have hmem : ∀ o, o ∈ s.ops.erase op → o ∈ s.ops := fun _ ho => mem_of_mem_erase ho
  { h with
    opsFresh := fun o ho => h.opsFresh o (hmem o ho)
    current := fun c hc ho => h.current c hc (hmem _ ho)
    collecting := fun _ => hp
    finished := fun u hu c hc ho => h.finished u hu c hc (hmem _ ho) }

/-- `write_head` of a commit closes the transaction being built. -/
theorem history_head {b : Nat} {v : Block} {p : Phase} (h : History s) (hops : s.ops = []) :
    History { s.bwrite b v with
      phase := p
      txns := s.txns ++ [⟨s.lh.map fun b => (b, s.bread b), s.calls⟩]
      calls := [] } := by
  refine { fresh := h.fresh, opsFresh := h.opsFresh
           current := fun c _ ho => by simp [State.bwrite, hops] at ho
           building := nofun, listed := nofun
           collecting := fun hne => absurd rfl hne
           whole := ?_, written := ?_, finished := ?_ }
  · intro u hu
    rcases mem_append.mp hu with hu | hu
    · exact h.whole u hu
    · obtain rfl := mem_singleton.mp hu
      exact h.building
  · intro u hu c hc
    rcases mem_append.mp hu with hu | hu
    · exact h.written u hu c hc
    · obtain rfl := mem_singleton.mp hu
      refine ⟨(h.listed c hc).1, ?_⟩
      simpa using (h.listed c hc).2
  · intro u _ c _
    simp [State.bwrite, hops]

theorem history_step {e : Event} (hinv : Inv start d0 s) (h : History s) (hs : Step start s e t) :
    History t := by
  have hcol : ∀ {op}, op ∈ s.ops → s.phase.collecting := by
    intro op hop
    rw [hinv.running hop]
    trivial
  -- after `write_head` there is no call left
  have hcalls : ¬ s.phase.collecting → s.calls = [] := by
    intro hp
    by_contra hne
    exact hp (h.collecting hne)
  cases step_move hs with
  | beginOp => exact history_beginOp h
  | modify | read | evict => exact { h with }
  | absorb op b hop hb => exact history_call h hop (hcol hop) (fun _ hx => hx) hb
  | logWrite op b _ hop =>
    exact history_call h hop (hcol hop) (fun _ hx => mem_append_left _ hx) (by simp)
  | endOp op hop => exact history_leave h (hcol hop)
  | commit => exact history_leave h trivial
  | copy =>
    refine { h with collecting := fun _ => ?_ }
    split <;> trivial
  | head hp => exact history_head h (hinv.idle (by simp [hp]))
  | install tail b pin p hp | installLast tail b pin p hp =>
    have hnone := hcalls (Phase.not_collecting (.inl (by simp [hp])))
    exact { h with listed := by simp [State.bwrite, hnone]
                   collecting := by simp [State.bwrite, hnone] }
  | clear => exact { h with collecting := fun _ => trivial }
  | readHead hp =>
    have hnone := hcalls (by rw [hp]; exact id)
    exact { h with listed := by simp [hnone], collecting := by simp [hnone] }
  | crash =>
    exact { fresh := h.fresh, opsFresh := by rintro _ ⟨⟩, current := by rintro _ _ ⟨⟩
            building := by rintro _ ⟨⟩, listed := by rintro _ ⟨⟩, whole := h.whole
            collecting := fun hne => absurd rfl hne, written := h.written
            finished := by rintro _ _ _ _ ⟨⟩ }

theorem history_run (hd : HeaderOk start (headBlocks (d0 start))) {es : List Event}
    (hrun : Run (Step start) (powerOn start d0) es s) : History s := by
  have hboth : Inv start d0 s ∧ History s := by
    refine hrun.invariant (P := fun s => Inv start d0 s ∧ History s) ⟨inv_powerOn hd, ?_⟩ ?_
    · have htxns : ∀ t ∈ (powerOn start d0).txns, t.calls = [] := by
        intro t ht
        simp only [powerOn, bootTxns] at ht
        split at ht <;> simp_all
      exact { fresh := by simp [powerOn], opsFresh := by simp [powerOn]
              current := by simp [powerOn], building := by simp [powerOn, Whole]
              listed := by simp [powerOn], collecting := by simp [powerOn]
              whole := fun t ht => by simp [Whole, htxns t ht]
              written := fun t ht => by simp [htxns t ht]
              finished := fun t ht => by simp [htxns t ht] }
    · rintro s e t ⟨hinv, hh⟩ hs
      exact ⟨inv_step hinv hs, history_step hinv hh hs⟩
  exact hboth.2

/-! ### Crash atomicity -/

/-- A step adds at most one transaction, at the end. -/
theorem txns_step {e : Event} (hs : Step start s e t) : s.txns <+: t.txns := by
  cases step_move hs with
  | head => exact prefix_append ..
  | _ => exact prefix_refl _

/--
**The log is crash atomic.** After every run of interleaved operations,
commits, crashes (also inside recovery) and recoveries, started on a disk `d0`
with a well-formed log header:

* once recovery is complete, every home block is that of `d0` with exactly the
  transactions whose header write reached the disk applied in commit order;
* a transaction that contains one `log_write` of an operation contains all of
  them, and writes all their blocks;
* whatever happens later, the committed transactions stay committed.
-/
theorem log_crash_atomic {start : Nat} {d0 : Disk} (hd : HeaderOk start (headBlocks (d0 start)))
    {es : List Event} {s : State} (hrun : Run (Step start) (powerOn start d0) es s) :
    (s.phase = .running → HomeEq start s.disk (applyTxns d0 s.txns)) ∧
    (∀ t ∈ s.txns, ∀ c ∈ t.calls, ∀ c' ∈ s.history, c'.1 = c.1 →
      c' ∈ t.calls ∧ c'.2 ∈ t.writes.map Prod.fst) ∧
    (∀ es' s', Run (Step start) s es' s' → s.txns <+: s'.txns) := by
  refine ⟨?_, ?_, ?_⟩
  · intro hp
    have hphase := (inv_run hd hrun).phase
    simp only [PhaseInv, hp] at hphase
    exact hphase.home
  · intro t ht c hc c' hc' heq
    have hh := history_run hd hrun
    have hmem := hh.whole t ht c hc c' hc' heq
    exact ⟨hmem, (hh.written t ht c' hmem).2⟩
  · intro es' s' hrun'
    exact hrun'.relates (R := fun a b => a.txns <+: b.txns) (fun _ => prefix_refl _)
      (fun _ _ _ => List.IsPrefix.trans) fun _ _ _ => txns_step

/-- One operation writes block 40, its commit is cut off right after the header
write, and recovery finishes it. -/
def cutCommit : List Event :=
  [.readHead, .diskWrite, .beginOp, .read 40, .modify 0 40 (fun _ => 7), .logWrite 0 40,
    .endOp 0, .diskWrite, .diskWrite, .crash, .readHead, .diskWrite, .diskWrite]

theorem log_crash_atomic_cutCommit :
    ∃ s, exec (step 2) (powerOn 2 fun _ _ => 0) cutCommit = some s ∧
      s.phase = .running ∧ s.txns.length = 1 ∧
      HomeEq 2 s.disk (applyTxns (fun _ _ => 0) s.txns) := by
  have hok : HeaderOk 2 (headBlocks ((fun _ _ => 0 : Disk) 2)) := headerOk_nil 2
  have hsome : ((exec (step 2) (powerOn 2 fun _ _ => 0) cutCommit).map fun s =>
      (s.phase, s.txns.length)) = some (.running, 1) := by decide
  obtain ⟨s, hs, hval⟩ := Option.map_eq_some_iff.mp hsome
  simp only [Prod.mk.injEq] at hval
  exact ⟨s, hs, hval.1, hval.2, (log_crash_atomic hok (run_of_exec hs)).1 hval.1⟩

end Xv6.Log
