import Mathlib.Algebra.Order.BigOperators.Group.List
import Mathlib.Data.Finset.Card
import Mathlib.Data.Finset.Dedup
import Xv6.Log.Atomicity

/-!
# xv6 — the space `begin_op` reserves

`begin_op` admits an operation only if the log can hold `MAXOPBLOCKS` blocks
for it and for every other operation in progress, on top of what is logged
already. What an operation may still add is `MAXOPBLOCKS` minus the blocks it
has named, so the sum of the logged blocks and of these rests stays within
`LOGBLOCKS` (`reserved_step`).

`log_write` makes its capacity test before it looks for the block in the log,
though. An operation that names a block again adds nothing, but is refused all
the same once the log is full; and this is the only way to be refused.

* `reserved_run`       — the reservation holds in every state.
* `logWrite_reserved`  — when exactly `log_write` panics, and the shape of the log.
-/

namespace Xv6.Log

open TransitionRun

variable {b op : Nat}

/-- The blocks that operation `op` has named so far. -/
def State.named (s : State) (op : Nat) : Finset Nat :=
  ((s.history.filter fun c => c.1 = op).map Prod.snd).toFinset

theorem State.mem_named {s : State} : b ∈ s.named op ↔ (op, b) ∈ s.history := by simp [State.named]

/-- An operation names at most `MAXOPBLOCKS` distinct blocks. -/
def Modest (s : State) : Event → Prop
  | .logWrite op b => (insert b (s.named op)).card ≤ MAXOPBLOCKS
  | _ => True

instance (s : State) (e : Event) : Decidable (Modest s e) :=
  match e with
  | .logWrite _ _ => inferInstanceAs (Decidable (_ ≤ _))
  | .beginOp | .modify _ _ _ | .endOp _ | .read _ | .evict _ | .diskWrite | .readHead | .crash =>
    isTrue trivial

/-- The test with which `log_write` panics: "too big a transaction". -/
def State.tooBig (s : State) : Prop := s.lh.length ≥ LOGBLOCKS

instance (s : State) : Decidable s.tooBig := inferInstanceAs (Decidable (_ ≤ _))

/-- How many blocks an operation may still add to the log. -/
def State.rest (s : State) (op : Nat) : Nat := MAXOPBLOCKS - (s.named op).card

/-- The log has room for what the operations in progress may still add. -/
def Reserved (s : State) : Prop := s.lh.length + (s.ops.map s.rest).sum ≤ LOGBLOCKS

variable {start : Nat} {d0 : Disk} {s t : State}

theorem reserved_of_idle (h : Inv start d0 s) (hops : s.ops = []) : Reserved s := by
  have hle := h.lhOk.length_le
  simp only [Reserved, hops, List.map_nil, List.sum_nil]
  omega

theorem sum_rest_le (s : State) : (s.ops.map s.rest).sum ≤ s.ops.length * MAXOPBLOCKS := by
  have h : ∀ r ∈ s.ops.map s.rest, r ≤ MAXOPBLOCKS := by
    intro r hr
    obtain ⟨op, -, rfl⟩ := List.mem_map.mp hr
    exact Nat.sub_le _ _
  simpa using List.sum_le_card_nsmul _ _ h

theorem reserved_beginOp (hinv : Inv start d0 s)
    (hroom : s.lh.length + (s.outstanding + 1) * MAXOPBLOCKS ≤ LOGBLOCKS) : Reserved { s with
      outstanding := s.outstanding + 1, ops := s.nextOp :: s.ops, nextOp := s.nextOp + 1 } := by
  rw [hinv.count] at hroom
  -- `begin_op` reckons with the full share of every operation in progress
  have hle := sum_rest_le { s with
    outstanding := s.outstanding + 1, ops := s.nextOp :: s.ops, nextOp := s.nextOp + 1 }
  simp only [List.length_cons] at hle
  unfold Reserved
  simp only at hle ⊢
  omega

/-- An operation that names a block again finds it in the log. -/
theorem mem_lh_of_named (h : History s) (hop : op ∈ s.ops) (hb : b ∈ s.named op) : b ∈ s.lh :=
  (h.listed _ (h.current _ (State.mem_named.mp hb) hop)).2

theorem named_append (h : t.history = s.history ++ [(op, b)]) (o : Nat) :
    t.named o = if o = op then insert b (s.named o) else s.named o := by
  ext x
  split <;> simp_all [State.mem_named, eq_comm, or_comm]

/-- A `log_write` after which the log is `t.lh`. -/
theorem reserved_call (hh : History s) (h : Reserved s) (hmodest : Modest s (.logWrite op b))
    (hop : op ∈ s.ops) (hops : t.ops = s.ops) (hhist : t.history = s.history ++ [(op, b)])
    (hlh : t.lh = if b ∈ s.lh then s.lh else s.lh ++ [b]) : Reserved t := by
  have hnamed := named_append hhist
  unfold Reserved at h ⊢
  rw [hops]
  by_cases hold : b ∈ s.named op
  · -- nothing new is named, and the block is absorbed
    have hrest : t.rest = s.rest := by
      funext o
      rw [State.rest, State.rest, hnamed]
      split
      · subst o
        rw [Finset.insert_eq_of_mem hold]
      · rfl
    rw [hlh, if_pos (mem_lh_of_named hh hop hold), hrest]
    exact h
  · -- the log grows by at most the block that the operation's share shrinks by
    have hlt : (s.ops.map t.rest).sum < (s.ops.map s.rest).sum := by
      refine List.sum_lt_sum _ _ (fun o _ => ?_) ⟨op, hop, ?_⟩
      · rw [State.rest, State.rest, hnamed]
        split
        · have := Finset.card_le_card (Finset.subset_insert b (s.named o))
          omega
        · exact le_rfl
      · rw [State.rest, State.rest, hnamed, if_pos rfl, Finset.card_insert_of_notMem hold]
        rw [Modest, Finset.card_insert_of_notMem hold] at hmodest
        omega
    have hlen : t.lh.length ≤ s.lh.length + 1 := by
      rw [hlh]
      split <;> simp
    omega

theorem reserved_leave (h : Reserved s) (op : Nat) : Reserved (s.leave op) := by
  have hle : ((s.ops.erase op).map s.rest).sum ≤ (s.ops.map s.rest).sum :=
    (List.erase_sublist.map _).sum_le_sum fun _ _ => Nat.zero_le _
  have hrest : (s.leave op).rest = s.rest := rfl
  unfold Reserved at h ⊢
  exact (Nat.add_le_add_left hle _).trans h

theorem reserved_step {e : Event} (hinv : Inv start d0 s) (hh : History s) (h : Reserved s)
    (hmodest : Modest s e) (hs : Step start s e t) : Reserved t := by
  have hinv' := inv_step hinv hs
  -- neither `commit` nor recovery runs while an operation is in progress
  have idle : s.phase ≠ .running → t.ops = s.ops → Reserved t :=
    fun hp hops => reserved_of_idle hinv' (hops.trans (hinv.idle hp))
  cases step_move hs with
  | beginOp _ _ hroom => exact reserved_beginOp hinv hroom
  | modify | read | evict => exact h
  | absorb op b hop hb => exact reserved_call hh h hmodest hop rfl rfl (if_pos hb).symm
  | logWrite op b _ hop _ _ _ hb =>
    exact reserved_call hh h hmodest hop rfl rfl (if_neg hb).symm
  | endOp op | commit op => exact reserved_leave h op
  | copy tail b hp | head hp | readHead hp => exact idle (by simp [hp]) rfl
  | install tail b pin p hp | installLast tail b pin p hp =>
    exact idle (by rintro hr; simp [hr, Phase.installs] at hp) rfl
  | clear c hp => exact idle (by rintro hr; simp [hr, Phase.clears] at hp) rfl
  | crash => exact reserved_of_idle hinv' rfl

theorem reserved_run (hd : HeaderOk start (headBlocks (d0 start))) {es : List Event}
    (hrun : Run (Restrict Modest (Step start)) (powerOn start d0) es s) : Reserved s := by
  induction hrun with
  | start => exact reserved_of_idle (inv_powerOn hd) rfl
  | snoc hrun hs ih =>
    exact reserved_step (inv_run hd hrun.of_restrict) (history_run hd hrun.of_restrict) ih
      hs.1 hs.2

/-- An operation that has not named all it may finds room. -/
theorem not_tooBig_of_new (h : Reserved s) (hop : op ∈ s.ops) (hmodest : Modest s (.logWrite op b))
    (hnew : b ∉ s.named op) : ¬ s.tooBig := by
  rw [Modest, Finset.card_insert_of_notMem hnew] at hmodest
  have hle : s.rest op ≤ (s.ops.map s.rest).sum :=
    List.single_le_sum (fun _ _ => Nat.zero_le _) _ (List.mem_map_of_mem hop)
  have hrest : 0 < s.rest op := Nat.sub_pos_of_lt hmodest
  unfold Reserved at h
  unfold State.tooBig
  omega

/-- Where each operation names at most `MAXOPBLOCKS` distinct blocks, in every
state that any interleaving reaches:

* a `log_write` panics with "too big a transaction" exactly if the operation has
  named the block before and the log is full;
* the log lists at most `LOGBLOCKS` blocks, no block twice;
* `commit` runs only when no operation is outstanding.
-/
theorem logWrite_reserved {start : Nat} {d0 : Disk}
    (hd : HeaderOk start (headBlocks (d0 start))) {es : List Event} {s : State}
    (hrun : Run (Restrict Modest (Step start)) (powerOn start d0) es s) :
    (∀ op b, op ∈ s.ops → Modest s (.logWrite op b) →
      (s.tooBig ↔ b ∈ s.named op ∧ s.lh.length = LOGBLOCKS)) ∧
    s.lh.length ≤ LOGBLOCKS ∧ s.lh.Nodup ∧
    (s.committing = true → s.outstanding = 0 ∧ s.ops = []) := by
  have hinv := inv_run hd hrun.of_restrict
  refine ⟨fun op b hop hmodest => ⟨fun hbig => ⟨?_, ?_⟩, fun h => h.2.ge⟩, hinv.lhOk.length_le,
    hinv.lhOk.nodup, fun hcommit => ?_⟩
  · by_contra hnew
    exact not_tooBig_of_new (reserved_run hd hrun) hop hmodest hnew hbig
  · exact le_antisymm hinv.lhOk.length_le hbig
  · have hops : s.ops = [] := by
      by_contra hne
      rw [hinv.committing, hinv.active hne] at hcommit
      simp [Phase.inCommit] at hcommit
    exact ⟨by rw [hinv.count, hops]; rfl, hops⟩

/-- Operation `op` logs `n` blocks from `b` on. -/
def logBlocks (op b n : Nat) : List Event :=
  (List.range n).flatMap fun i => [.read (b + i), .logWrite op (b + i)]

theorem logWrite_reserved_two :
    ∃ s, exec (fun s e => if Modest s e then step 2 s e else none) (powerOn 2 fun _ _ => 0)
        ([.readHead, .diskWrite, .beginOp] ++ logBlocks 0 40 2) = some s ∧
      0 ∈ s.ops ∧ Modest s (.logWrite 0 40) ∧ ¬ s.tooBig := by
  have hok : HeaderOk 2 (headBlocks ((fun _ _ => 0 : Disk) 2)) := headerOk_nil 2
  have hsome : ((exec (fun s e => if Modest s e then step 2 s e else none)
      (powerOn 2 fun _ _ => 0) ([.readHead, .diskWrite, .beginOp] ++ logBlocks 0 40 2)).map
      fun s => (decide (0 ∈ s.ops), decide (Modest s (.logWrite 0 40)), s.lh.length)) =
      some (true, true, 2) := by decide +kernel
  obtain ⟨s, hs, hval⟩ := Option.map_eq_some_iff.mp hsome
  simp only [Prod.mk.injEq, decide_eq_true_eq] at hval
  obtain ⟨hop, hmodest, hlen⟩ := hval
  refine ⟨s, hs, hop, hmodest, fun hbig => ?_⟩
  have hfull := ((logWrite_reserved hok (run_restrict_of_exec hs)).1 0 40 hop hmodest).mp hbig
  have h30 : LOGBLOCKS = 30 := rfl
  omega

/-- Three operations fill the log; then the first names one of its blocks
again. -/
def fillLog : List Event :=
  [.readHead, .diskWrite, .beginOp, .beginOp, .beginOp] ++
    logBlocks 0 40 10 ++ logBlocks 1 50 10 ++ logBlocks 2 60 10

/-- Every operation has named ten blocks, and naming one of them again is refused
with "too big a transaction". -/
theorem logWrite_tooBig : ∃ s, Run (Restrict Modest (Step 2)) (powerOn 2 fun _ _ => 0) fillLog s ∧
      0 ∈ s.ops ∧ 40 ∈ s.named 0 ∧ Modest s (.logWrite 0 40) ∧ s.tooBig := by
  have hsome : ((exec (fun s e => if Modest s e then step 2 s e else none)
      (powerOn 2 fun _ _ => 0) fillLog).map fun s => (decide (0 ∈ s.ops),
        decide (40 ∈ s.named 0), decide (Modest s (.logWrite 0 40)), decide s.tooBig)) =
      some (true, true, true, true) := by decide +kernel
  obtain ⟨s, hs, hval⟩ := Option.map_eq_some_iff.mp hsome
  simp only [Prod.mk.injEq, decide_eq_true_eq] at hval
  exact ⟨s, run_restrict_of_exec hs, hval.1, hval.2.1, hval.2.2.1, hval.2.2.2⟩

end Xv6.Log
