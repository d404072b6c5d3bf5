import Mathlib.Data.List.Nodup
import Xv6.Log.Model

/-!
# xv6 — crash atomicity of the log

The invariant of the log machine: in every phase of `commit` and of
`recover_from_log`, replaying whatever the log area lists over the home blocks
gives the disk with all committed transactions applied (`Recoverable`). A
crash keeps only the disk, so this is all recovery needs; that a replay can
itself be cut short is `replay_update`.

## Results

* `headBlocks_putHead` — the header reads back what `write_head` stored.
* `step_move`           — what each event does.
* `inv_step`, `inv_run` — the invariant is kept by every step.
-/

namespace Xv6.Log

open ByteBuffer StoreWrites TransitionRun Function List

variable {b op tail x i : Nat} {v : Block}

/-! ### The header block -/

theorem getInt_put32_of_ne {b : Block} {k k' v : Nat} (h : k ≠ k') :
    getInt (put32 b (4 * k) v) k' = getInt b k' :=
  le32_put32_of_disjoint (by omega)

theorem getInt_putInts_of_lt {k k' : Nat} (hk : k' < k) :
    ∀ (vs : List Nat) (b : Block), getInt (putInts b k vs) k' = getInt b k' := by
  intro vs
  induction vs generalizing k with
  | nil => intro b; rfl
  | cons v vs ih =>
    intro b
    rw [putInts, ih (by omega), getInt_put32_of_ne (by omega)]

theorem getInt_putInts {k : Nat} : ∀ (vs : List Nat) (b : Block) {i : Nat}
    (hi : i < vs.length), getInt (putInts b k vs) (k + i) = vs[i] % 4294967296 := by
  intro vs
  induction vs generalizing k with
  | nil => intro b i hi; simp at hi
  | cons v vs ih =>
    intro b i hi
    cases i with
    | zero =>
      rw [putInts, getInt_putInts_of_lt (by omega)]
      exact le32_put32 b (4 * k) v
    | succ i =>
      rw [show k + (i + 1) = k + 1 + i by omega]
      exact ih (put32 b (4 * k) v) (by simpa using hi)

/-- The header reads back what `write_head` stored. -/
theorem headBlocks_putHead {start : Nat} {lh : List Nat} (h : HeaderOk start lh)
    (b : Block) : headBlocks (putHead b lh) = lh := by
  have hn : getInt (putHead b lh) 0 = lh.length := by
    rw [putHead, getInt_putInts_of_lt (by omega)]
    have hlen := h.length_le
    have : LOGBLOCKS = 30 := rfl
    rw [getInt, le32_put32]
    omega
  unfold headBlocks
  rw [hn]
  apply ext_getElem
  · simp
  · intro i hi hi'
    rw [getElem_map, getElem_range, putHead, Nat.add_comm i 1,
      getInt_putInts lh _ hi']
    exact Nat.mod_eq_of_lt (h.fits _ (getElem_mem hi'))

theorem headerOk_nil (start : Nat) : HeaderOk start [] where
  length_le := Nat.zero_le _
  nodup := nodup_nil
  home := by simp
  fits := by simp

/-! ### What a step does -/

/-- The phases of `commit`. -/
def Phase.inCommit : Phase → Bool
  | .writeLog _ | .writeHead | .install _ | .clearHead => true
  | _ => false

/-- The phases of `install_trans`, block `tail` being next. -/
def Phase.installs : Phase → Option Nat
  | .install tail | .recover tail => some tail
  | _ => none

/-- The phases after `install_trans`: the header is to be cleared. -/
def Phase.clears : Phase → Bool
  | .clearHead | .recoverClear => true
  | _ => false

/-- A call of `log_write` is recorded. -/
def State.call (s : State) (op b : Nat) : State :=
  { s with calls := s.calls ++ [(op, b)], history := s.history ++ [(op, b)] }

/-- The operation `op` is over. -/
def State.leave (s : State) (op : Nat) : State :=
  { s with outstanding := s.outstanding - 1, ops := s.ops.erase op }

variable {start : Nat} {d0 d : Disk} {s t : State} {ts : List Txn} {lh : List Nat}

/-- What each event does to a state in which it can happen. `commit` and recovery
install blocks and clear the header in the same way. -/
inductive Move (start : Nat) (s : State) : Event → State → Prop
  | beginOp : s.up → s.committing = false →
      s.lh.length + (s.outstanding + 1) * MAXOPBLOCKS ≤ LOGBLOCKS →
      Move start s .beginOp { s with
        outstanding := s.outstanding + 1, ops := s.nextOp :: s.ops, nextOp := s.nextOp + 1 }
  | modify (op b : Nat) (v : Block) : op ∈ s.ops → ¬ InLog start b →
      Move start s (.modify op b v) { s with cache := update s.cache b (some v) }
  | absorb (op b : Nat) : op ∈ s.ops → b ∈ s.lh → Move start s (.logWrite op b) (s.call op b)
  | logWrite (op b : Nat) : s.lh.length < LOGBLOCKS → op ∈ s.ops → ¬ InLog start b →
      b < 4294967296 → (s.cache b).isSome → b ∉ s.lh →
      Move start s (.logWrite op b) { s.call op b with
        lh := s.lh ++ [b], pinned := update s.pinned b true }
  | endOp (op : Nat) : op ∈ s.ops → Move start s (.endOp op) (s.leave op)
  | commit (op : Nat) : op ∈ s.ops → s.outstanding - 1 = 0 → s.lh ≠ [] →
      Move start s (.endOp op) { s.leave op with committing := true, phase := .writeLog 0 }
  | read (b : Nat) :
      Move start s (.read b) { s with cache := update s.cache b (some (s.bread b)) }
  | evict (b : Nat) : ¬ s.pinned b = true →
      Move start s (.evict b) { s with cache := update s.cache b none }
  | copy (tail b : Nat) : s.phase = .writeLog tail → s.lh[tail]? = some b →
      Move start s .diskWrite { s.bwrite (start + tail + 1) (s.bread b) with
        phase := if tail + 1 < s.lh.length then .writeLog (tail + 1) else .writeHead }
  | head : s.phase = .writeHead →
      Move start s .diskWrite { s.bwrite start (putHead (s.bread start) s.lh) with
        phase := .install 0
        txns := s.txns ++ [⟨s.lh.map fun b => (b, s.bread b), s.calls⟩]
        calls := [] }
  | install (tail b : Nat) (pin : Nat → Bool) (p : Phase) : s.phase.installs = some tail →
      s.lh[tail]? = some b → tail + 1 < s.lh.length → p.installs = some (tail + 1) →
      p.inCommit = s.phase.inCommit →
      Move start s .diskWrite { s.bwrite b (s.bread (start + tail + 1)) with
        pinned := pin, phase := p }
  | installLast (tail b : Nat) (pin : Nat → Bool) (p : Phase) : s.phase.installs = some tail →
      s.lh[tail]? = some b → s.lh.length ≤ tail + 1 → p.clears = true →
      p.inCommit = s.phase.inCommit →
      Move start s .diskWrite { s.bwrite b (s.bread (start + tail + 1)) with
        pinned := pin, lh := [], phase := p }
  | clear (c : Bool) : s.phase.clears = true → (s.committing = s.phase.inCommit → c = false) →
      Move start s .diskWrite { s.bwrite start (putHead (s.bread start) []) with
        phase := .running, committing := c }
  | readHead : s.phase = .boot →
      Move start s .readHead { s with
        lh := headBlocks (s.bread start)
        cache := update s.cache start (some (s.bread start))
        phase := if headBlocks (s.bread start) = [] then .recoverClear else .recover 0 }
  | crash : Move start s .crash (crash s)

theorem move_logWrite (hs : logWrite start s op b = some t) : Move start s (.logWrite op b) t := by
  unfold logWrite at hs
  split at hs
  · cases hs
  rename_i hlen
  split at hs
  · cases hs
  split at hs
  · rename_i hg
    dsimp only at hs
    split at hs <;> rename_i hb <;> cases hs
    · exact .absorb op b hg.1 hb
    · exact .logWrite op b (not_le.mp hlen) hg.1 hg.2.1.1 hg.2.1.2 hg.2.2 hb
  · cases hs

theorem move_endOp (hs : endOp s op = some t) : Move start s (.endOp op) t := by
  unfold endOp at hs
  split at hs
  · cases hs
  split at hs
  · rename_i hop
    dsimp only at hs
    split at hs
    · cases hs
      exact .endOp op hop
    · rename_i hzero
      split at hs <;> rename_i hlh <;> cases hs
      · exact .endOp op hop
      · exact .commit op hop (not_not.mp hzero) hlh
  · cases hs

theorem move_diskWrite (hs : diskWrite start s = some t) : Move start s .diskWrite t := by
  unfold diskWrite at hs
  split at hs <;> rename_i hp
  · cases hs
  · split at hs <;> cases hs
    rename_i hb
    exact .copy _ _ hp hb
  · cases hs
    exact .head hp
  · rename_i tail
    split at hs <;> cases hs
    rename_i b hb
    by_cases hmore : tail + 1 < s.lh.length
    · rw [if_pos (by exact hmore)]
      exact .install tail b _ (.install (tail + 1)) (by rw [hp]; rfl) hb hmore rfl (by rw [hp]; rfl)
    · rw [if_neg (by exact hmore)]
      exact .installLast tail b _ .clearHead (by rw [hp]; rfl) hb (not_lt.mp hmore) rfl
        (by rw [hp]; rfl)
  · cases hs
    exact .clear false (by rw [hp]; rfl) fun _ => rfl
  · cases hs
  · rename_i tail
    split at hs <;> cases hs
    rename_i b hb
    by_cases hmore : tail + 1 < s.lh.length
    · rw [if_pos (by exact hmore)]
      exact .install tail b _ (.recover (tail + 1)) (by rw [hp]; rfl) hb hmore rfl (by rw [hp]; rfl)
    · rw [if_neg (by exact hmore)]
      exact .installLast tail b _ .recoverClear (by rw [hp]; rfl) hb (not_lt.mp hmore) rfl
        (by rw [hp]; rfl)
  · cases hs
    refine .clear s.committing (by rw [hp]; rfl) fun h => ?_
    rw [h, hp]
    rfl

/-- **What a step does.** -/
theorem step_move {e : Event} (hs : Step start s e t) : Move start s e t := by
  unfold Step at hs
  cases e with
  | beginOp =>
    simp only [step, beginOp] at hs
    split at hs
    · rename_i hup
      split at hs
      · cases hs
      rename_i hc
      split at hs <;> cases hs
      rename_i hroom
      exact .beginOp hup (Bool.not_eq_true _ ▸ hc) (not_lt.mp hroom)
    · cases hs
  | modify op b v =>
    simp only [step, modify] at hs
    split at hs <;> cases hs
    rename_i hg
    exact .modify op b v hg.1 hg.2
  | logWrite op b => exact move_logWrite hs
  | endOp op => exact move_endOp hs
  | read b =>
    cases hs
    exact .read b
  | evict b =>
    simp only [step] at hs
    split at hs <;> cases hs
    rename_i hb
    exact .evict b hb
  | diskWrite => exact move_diskWrite hs
  | readHead =>
    simp only [step, readHead] at hs
    split at hs <;> cases hs
    rename_i hp
    exact .readHead hp
  | crash =>
    cases hs
    exact .crash

/-! ### The invariant -/

/-- Two disks agree on all home blocks. -/
def HomeEq (start : Nat) (d d' : Disk) : Prop := ∀ b, ¬ InLog start b → d b = d' b

/-- Replaying the log of disk `d` gives the transactions `ts` applied to `d0`. -/
structure Recoverable (start : Nat) (d0 d : Disk) (ts : List Txn) : Prop where
  header : HeaderOk start (headBlocks (d start))
  replay : HomeEq start (applyWrites (loggedWrites start d) d) (applyTxns d0 ts)

/-- The home blocks hold the committed disk and the log lists nothing. -/
structure Settled (start : Nat) (d0 d : Disk) (ts : List Txn) : Prop where
  header : headBlocks (d start) = []
  home : HomeEq start d (applyTxns d0 ts)

/-- The log holds copies of the first `m` logged blocks. -/
def Copied (start m : Nat) (s : State) : Prop :=
  ∀ i b, i < m → s.lh[i]? = some b → s.disk (start + i + 1) = s.bread b

/-- `install_trans` has written the first `tail` home blocks of `lh`. -/
structure Installing (start : Nat) (d0 : Disk) (tail : Nat) (d : Disk) (lh : List Nat)
    (ts : List Txn) : Prop where
  header : headBlocks (d start) = lh
  recoverable : Recoverable start d0 d ts
  done : ∀ i b, i < tail → lh[i]? = some b → d b = d (start + i + 1)

/-- All home blocks are written, the header is still to be cleared. -/
structure Installed (start : Nat) (d0 d : Disk) (lh : List Nat) (ts : List Txn) : Prop where
  recoverable : Recoverable start d0 d ts
  home : HomeEq start d (applyTxns d0 ts)
  empty : lh = []

/-- What holds of the disk in each phase. -/
def PhaseInv (start : Nat) (d0 : Disk) (s : State) : Prop :=
  match s.phase with
  | .running => Settled start d0 s.disk s.txns
  | .writeLog tail =>
    Settled start d0 s.disk s.txns ∧ tail < s.lh.length ∧ Copied start tail s
  | .writeHead =>
    Settled start d0 s.disk s.txns ∧ s.lh ≠ [] ∧ Copied start s.lh.length s
  | .install tail => tail < s.lh.length ∧ Installing start d0 tail s.disk s.lh s.txns
  | .clearHead => Installed start d0 s.disk s.lh s.txns
  | .boot => Recoverable start d0 s.disk s.txns ∧ s.lh = []
  | .recover tail => tail < s.lh.length ∧ Installing start d0 tail s.disk s.lh s.txns
  | .recoverClear => Installed start d0 s.disk s.lh s.txns

/-- The phases in which `commit` still reads the logged blocks from the cache. -/
def Phase.collecting : Phase → Prop
  | .running | .writeLog _ | .writeHead => True
  | _ => False

/-- The invariant of the log machine. -/
structure Inv (start : Nat) (d0 : Disk) (s : State) : Prop where
  /-- cached blocks of the log area are clean -/
  clean : ∀ b v, InLog start b → s.cache b = some v → v = s.disk b
  lhOk : HeaderOk start s.lh
  /-- operations are active only outside `commit` and recovery -/
  active : s.ops ≠ [] → s.phase = .running
  committing : s.committing = s.phase.inCommit
  count : s.outstanding = s.ops.length
  /-- logged blocks stay in the cache until they have been copied -/
  held : s.phase.collecting → ∀ b ∈ s.lh, s.pinned b = true ∧ (s.cache b).isSome
  phase : PhaseInv start d0 s

theorem phaseInv_installs (hp : s.phase.installs = some tail) :
    PhaseInv start d0 s ↔ tail < s.lh.length ∧ Installing start d0 tail s.disk s.lh s.txns := by
  unfold PhaseInv
  cases h : s.phase <;> rw [h] at hp <;> cases hp <;> rfl

theorem phaseInv_clears (hp : s.phase.clears = true) :
    PhaseInv start d0 s ↔ Installed start d0 s.disk s.lh s.txns := by
  unfold PhaseInv
  cases h : s.phase <;> rw [h] at hp <;> cases hp

theorem Phase.not_collecting {p : Phase} (h : p.installs ≠ none ∨ p.clears = true) :
    ¬ p.collecting := by
  cases p <;> simp_all [Phase.installs, Phase.clears, Phase.collecting]

theorem Inv.running (h : Inv start d0 s) (hop : op ∈ s.ops) : s.phase = .running :=
  h.active (ne_nil_of_mem hop)

/-- Outside the running phase no operation is active. -/
theorem Inv.idle (h : Inv start d0 s) (hp : s.phase ≠ .running) : s.ops = [] := by
  by_contra hops
  exact hp (h.active hops)

theorem Inv.settled (h : Inv start d0 s) (hp : s.phase = .running) :
    Settled start d0 s.disk s.txns := by
  have hphase := h.phase
  simpa only [PhaseInv, hp] using hphase

/-! ### Replaying -/

theorem InLog.header (start : Nat) : InLog start start :=
  ⟨Nat.le_refl _, Nat.le_add_right _ _⟩

theorem InLog.copy (hi : i < LOGBLOCKS) : InLog start (start + i + 1) :=
  ⟨by omega, by omega⟩

/-- A write to a home block is not seen in the log area. -/
theorem update_inLog (hb : ¬ InLog start b) (hx : InLog start x) : update d b v x = d x := by
  have hxb : x ≠ b := by
    rintro rfl
    exact hb hx
  rw [update_of_ne hxb]

/-- A write to the log area is not seen in a home block. -/
theorem update_home (hb : InLog start b) (hx : ¬ InLog start x) : update d b v x = d x := by
  have hxb : x ≠ b := by
    rintro rfl
    exact hx hb
  rw [update_of_ne hxb]

theorem loggedWrites_fst (start : Nat) (d : Disk) :
    (loggedWrites start d).map Prod.fst = headBlocks (d start) := by
  unfold loggedWrites
  apply ext_getElem
  · simp
  · intro i _ _
    simp

theorem loggedWrites_nil (h : headBlocks (d start) = []) : loggedWrites start d = [] := by
  simp [loggedWrites, h]

theorem Settled.recoverable (h : Settled start d0 d ts) : Recoverable start d0 d ts where
  header := by rw [h.header]; exact headerOk_nil start
  replay := by rw [loggedWrites_nil h.header]; exact h.home

/-- Replaying a log whose every entry is already installed changes nothing. -/
theorem applyWrites_installed {ws : List (Nat × Block)} (h : ∀ w ∈ ws, d w.1 = w.2) :
    applyWrites ws d = d := by
  induction ws with
  | nil => rfl
  | cons w ws ih =>
    have hw : d w.1 = w.2 := h w (mem_cons_self ..)
    rw [applyWrites, ← hw, update_eq_self]
    exact ih fun v hv => h v (mem_cons_of_mem _ hv)

/-- Installing one home block from its copy in the log does not change what a
replay of the log gives. -/
theorem replay_update (hok : HeaderOk start (headBlocks (d start)))
    (hb : (headBlocks (d start))[i]? = some b) :
    loggedWrites start (update d b (d (start + i + 1))) = loggedWrites start d ∧
    applyWrites (loggedWrites start d) (update d b (d (start + i + 1))) =
      applyWrites (loggedWrites start d) d := by
  have hmem : b ∈ headBlocks (d start) := mem_of_getElem? hb
  have hhome := hok.home b hmem
  have hlen := hok.length_le
  constructor
  · unfold loggedWrites
    rw [update_inLog hhome (InLog.header start)]
    apply ext_getElem
    · simp
    · intro k hk _
      simp only [length_mapIdx] at hk
      simp only [getElem_mapIdx, Prod.mk.injEq, true_and]
      exact update_inLog hhome (InLog.copy (by omega))
  · funext x
    apply applyWrites_congr
    intro hx
    rw [loggedWrites_fst] at hx
    have hxb : x ≠ b := by
      rintro rfl
      exact hx hmem
    rw [update_of_ne hxb]

/-- Clearing the header of a settled disk. -/
theorem settled_putHead_nil (v : Block) (hhome : HomeEq start d (applyTxns d0 ts)) :
    Settled start d0 (update d start (putHead v [])) ts where
  header := by
    rw [update_self]
    exact headBlocks_putHead (headerOk_nil start) v
  home := by
    intro b hb
    rw [update_home (InLog.header start) hb]
    exact hhome b hb

/-! ### Cached blocks -/

/-- Reading a block into the cache changes no `bread`. -/
theorem bread_read (s : State) (b x : Nat) :
    State.bread { s with cache := update s.cache b (some (s.bread b)) } x = s.bread x := by
  by_cases hx : x = b
  · subst hx
    simp [State.bread]
  · simp [State.bread, update_of_ne hx]

/-- A clean log-area block reads as the disk has it. -/
theorem Inv.bread_log (h : Inv start d0 s) (hb : InLog start b) : s.bread b = s.disk b := by
  unfold State.bread
  cases hc : s.cache b with
  | none => rfl
  | some v => exact h.clean b v hb hc

theorem isSome_update {c : Nat → Option Block} (v : Block) (h : (c x).isSome) :
    (update c b (some v) x).isSome := by
  by_cases hxb : x = b
  · subst hxb
    simp
  · rwa [update_of_ne hxb]

/-- A `bwrite` keeps the log area clean. -/
theorem Inv.clean_bwrite (h : Inv start d0 s) :
    ∀ x w, InLog start x → (s.bwrite b v).cache x = some w → w = (s.bwrite b v).disk x := by
  intro x w hx hw
  simp only [State.bwrite] at hw ⊢
  by_cases hxb : x = b
  · subst hxb
    simpa using hw.symm
  · rw [update_of_ne hxb] at hw ⊢
    exact h.clean x w hx hw

/-- A step that changes only the cache keeps the phase's invariant when it
keeps what `bread` gives for the logged blocks. -/
theorem phaseInv_cache {c : Nat → Option Block} (h : PhaseInv start d0 s)
    (hb : s.phase.collecting → ∀ b ∈ s.lh, State.bread { s with cache := c } b = s.bread b) :
    PhaseInv start d0 { s with cache := c } := by
  have hcopied : ∀ m, s.phase.collecting → Copied start m s →
      Copied start m { s with cache := c } := by
    intro m hcol hc i b hi hib
    rw [hb hcol b (mem_of_getElem? hib)]
    exact hc i b hi hib
  unfold PhaseInv at h ⊢
  cases hp : s.phase with
  | writeLog tail | writeHead =>
    rw [hp] at h hcopied
    exact ⟨h.1, h.2.1, hcopied _ trivial h.2.2⟩
  | running | install _ | clearHead | boot | recover _ | recoverClear =>
    rwa [hp] at h

/-! ### Steps of operations -/

theorem inv_beginOp (h : Inv start d0 s) (hup : s.up) (hc : s.committing = false) :
    Inv start d0 { s with
      outstanding := s.outstanding + 1, ops := s.nextOp :: s.ops, nextOp := s.nextOp + 1 } := by
  have hrun : s.phase = .running := by
    rw [h.committing] at hc
    unfold State.up at hup
    cases hp : s.phase <;> simp_all [Phase.inCommit]
  exact { h with active := fun _ => hrun, count := by simp [h.count], phase := h.phase }

theorem inv_modify (h : Inv start d0 s) (v : Block) (hop : op ∈ s.ops) (hb : ¬ InLog start b) :
    Inv start d0 { s with cache := update s.cache b (some v) } := by
  refine { h with clean := ?_, held := ?_, phase := ?_ }
  · intro x w hx hw
    have hxb : x ≠ b := by
      rintro rfl
      exact hb hx
    simp only [update_of_ne hxb] at hw
    exact h.clean x w hx hw
  · intro hcol x hx
    obtain ⟨hp, hsome⟩ := h.held hcol x hx
    exact ⟨hp, isSome_update v hsome⟩
  · have hphase := h.phase
    simp only [PhaseInv, h.running hop] at hphase ⊢
    exact hphase

/-- The header of a log with one more block. -/
theorem HeaderOk.snoc (h : HeaderOk start lh) (hlen : lh.length < LOGBLOCKS) (hnew : b ∉ lh)
    (hhome : ¬ InLog start b) (hfits : b < 4294967296) : HeaderOk start (lh ++ [b]) where
  length_le := by
    rw [length_append]
    exact hlen
  nodup := by
    refine nodup_append.mpr ⟨h.nodup, by simp, ?_⟩
    rintro x hx _ hy rfl
    exact hnew (mem_singleton.mp hy ▸ hx)
  home := by
    intro x hx
    rcases mem_append.mp hx with hx | hx
    · exact h.home x hx
    · rwa [mem_singleton.mp hx]
  fits := by
    intro x hx
    rcases mem_append.mp hx with hx | hx
    · exact h.fits x hx
    · rwa [mem_singleton.mp hx]

theorem inv_logWrite (h : Inv start d0 s) (hlen : s.lh.length < LOGBLOCKS) (hop : op ∈ s.ops)
    (hhome : ¬ InLog start b) (hfits : b < 4294967296) (hsome : (s.cache b).isSome)
    (hnew : b ∉ s.lh) : Inv start d0 { s.call op b with
      lh := s.lh ++ [b], pinned := update s.pinned b true } := by
  refine { h with lhOk := h.lhOk.snoc hlen hnew hhome hfits, held := ?_, phase := ?_ }
  · intro hcol x hx
    by_cases hxb : x = b
    · subst hxb
      exact ⟨by simp, hsome⟩
    · rcases mem_append.mp hx with hx | hx
      · simpa [State.call, update_of_ne hxb] using h.held hcol x hx
      · exact absurd (mem_singleton.mp hx) hxb
  · have hphase := h.settled (h.running hop)
    simpa only [PhaseInv, State.call, h.running hop] using hphase

theorem inv_leave (h : Inv start d0 s) (hop : op ∈ s.ops) : Inv start d0 (s.leave op) := by
  refine { h with active := fun _ => h.running hop, count := ?_, phase := h.phase }
  change s.outstanding - 1 = (s.ops.erase op).length
  rw [length_erase_of_mem hop, h.count]

theorem inv_commit (h : Inv start d0 s) (hop : op ∈ s.ops) (hzero : s.outstanding - 1 = 0)
    (hlh : s.lh ≠ []) :
    Inv start d0 { s.leave op with committing := true, phase := .writeLog 0 } := by
  have hleft := inv_leave h hop
  have hrun := h.running hop
  have hnone : s.ops.erase op = [] := length_eq_zero_iff.mp (hleft.count.symm.trans hzero)
  exact { hleft with
    active := fun hops => absurd hnone hops
    committing := rfl
    held := fun _ => h.held (by rw [hrun]; trivial)
    phase := ⟨h.settled hrun, length_pos_of_ne_nil hlh, fun i b hi => absurd hi (by omega)⟩ }

/-! ### Steps of the buffer cache -/

theorem inv_read (h : Inv start d0 s) (b : Nat) :
    Inv start d0 { s with cache := update s.cache b (some (s.bread b)) } := by
  refine { h with clean := ?_, held := ?_
                  phase := phaseInv_cache h.phase fun _ x _ => bread_read s b x }
  · intro x v hx hv
    by_cases hxb : x = b
    · subst hxb
      simp only [update_self, Option.some.injEq] at hv
      rw [← hv, h.bread_log hx]
    · simp only [update_of_ne hxb] at hv
      exact h.clean x v hx hv
  · intro hcol x hx
    obtain ⟨hpin, hsome⟩ := h.held hcol x hx
    exact ⟨hpin, isSome_update _ hsome⟩

theorem inv_evict (h : Inv start d0 s) (hb : ¬ s.pinned b = true) :
    Inv start d0 { s with cache := update s.cache b none } := by
  -- a logged block is pinned, so it is not the one recycled
  have hne : s.phase.collecting → ∀ x ∈ s.lh, x ≠ b := by
    rintro hcol x hx rfl
    exact hb (h.held hcol x hx).1
  refine { h with clean := ?_, held := ?_, phase := phaseInv_cache h.phase ?_ }
  · intro x v hx hv
    by_cases hxb : x = b
    · subst hxb
      simp at hv
    · simp only [update_of_ne hxb] at hv
      exact h.clean x v hx hv
  · intro hcol x hx
    simpa [update_of_ne (hne hcol x hx)] using h.held hcol x hx
  · intro hcol x hx
    simp [State.bread, update_of_ne (hne hcol x hx)]

/-! ### Steps of commit and recovery -/

/-- Installing the block at `tail` leaves one block fewer to install; after the
last one all home blocks are written. -/
theorem Installing.write (h : Installing start d0 tail d lh ts) (hb : lh[tail]? = some b) :
    Installing start d0 (tail + 1) (update d b (d (start + tail + 1))) lh ts := by
  have hok := h.recoverable.header
  have hhead := h.header
  obtain ⟨hlist, hreplay⟩ := replay_update hok (by rw [hhead]; exact hb)
  rw [hhead] at hok
  have hlen := hok.length_le
  have hhome := hok.home b (mem_of_getElem? hb)
  have hstart := update_inLog (d := d) (v := d (start + tail + 1)) hhome (InLog.header start)
  refine ⟨hstart ▸ hhead, ⟨?_, ?_⟩, ?_⟩
  · rw [hstart, hhead]
    exact hok
  · rw [hlist, hreplay]
    exact h.recoverable.replay
  · intro i x hi hx
    have hilen : i < lh.length := (List.getElem?_eq_some_iff.mp hx).1
    rw [update_inLog hhome (InLog.copy (by omega))]
    by_cases hit : i = tail
    · subst hit
      obtain rfl := Option.some.inj (hx.symm.trans hb)
      rw [update_self]
    · have hxb : x ≠ b := by
        rintro rfl
        exact hit ((getElem?_inj hilen hok.nodup).mp (hx.trans hb.symm))
      rw [update_of_ne hxb]
      exact h.done i x (by omega) hx

theorem Installing.installed (h : Installing start d0 lh.length d lh ts) :
    Installed start d0 d [] ts where
  recoverable := h.recoverable
  home := by
    have hall : applyWrites (loggedWrites start d) d = d := by
      apply applyWrites_installed
      intro w hw
      obtain ⟨i, hi, rfl⟩ := mem_iff_getElem.mp hw
      simp only [loggedWrites, length_mapIdx, h.header] at hi
      simp only [loggedWrites, h.header, getElem_mapIdx]
      exact h.done i lh[i] hi (getElem?_eq_getElem hi)
    have := h.recoverable.replay
    rwa [hall] at this
  empty := rfl

theorem bread_bwrite_of_ne (v : Block) (h : x ≠ b) : (s.bwrite b v).bread x = s.bread x := by
  simp [State.bread, State.bwrite, update_of_ne h]

/-- Writing a copy into the log area leaves a settled disk settled. -/
theorem Settled.writeCopy (h : Settled start d0 d ts) (hi : i < LOGBLOCKS) (v : Block) :
    Settled start d0 (update d (start + i + 1) v) ts where
  header := by
    rw [update_of_ne (by omega)]
    exact h.header
  home := by
    intro b hb
    rw [update_home (InLog.copy hi) hb]
    exact h.home b hb

theorem Copied.write (hok : HeaderOk start s.lh) (h : Copied start tail s)
    (hb : s.lh[tail]? = some b) :
    Copied start (tail + 1) (s.bwrite (start + tail + 1) (s.bread b)) := by
  intro i x hi hx
  have hxlh : s.lh[i]? = some x := hx
  have htail : tail < s.lh.length := (List.getElem?_eq_some_iff.mp hb).1
  have hlen := hok.length_le
  have hxne : x ≠ start + tail + 1 := by
    rintro rfl
    exact hok.home _ (mem_of_getElem? hxlh) (InLog.copy (by omega))
  rw [bread_bwrite_of_ne _ hxne]
  by_cases hit : i = tail
  · subst hit
    rw [hb] at hxlh
    simp [State.bwrite, Option.some.inj hxlh]
  · simp only [State.bwrite]
    rw [update_of_ne (by omega)]
    exact h i x (by omega) hxlh

theorem inv_copy (h : Inv start d0 s) (hp : s.phase = .writeLog tail) (hb : s.lh[tail]? = some b) :
    Inv start d0 { s.bwrite (start + tail + 1) (s.bread b) with
      phase := if tail + 1 < s.lh.length then .writeLog (tail + 1) else .writeHead } := by
  have hphase := h.phase
  simp only [PhaseInv, hp] at hphase
  obtain ⟨hset, htail, hcop⟩ := hphase
  have hlen := h.lhOk.length_le
  have hheld := h.held (by rw [hp]; trivial)
  have hset' := hset.writeCopy (i := tail) (by omega) (s.bread b)
  have hcop' := hcop.write h.lhOk hb
  refine { h with
    clean := h.clean_bwrite
    active := fun hne => absurd (h.idle (by simp [hp])) hne
    committing := h.committing.trans (by rw [hp]; split <;> rfl)
    held := fun _ x hx => ⟨(hheld x hx).1, isSome_update _ (hheld x hx).2⟩
    phase := ?_ }
  by_cases hmore : tail + 1 < s.lh.length
  · simp only [if_pos hmore]
    exact ⟨hset', hmore, hcop'⟩
  · simp only [if_neg hmore]
    have hall : s.lh.length = tail + 1 := by omega
    refine ⟨hset', ne_nil_of_length_pos (by dsimp only [State.bwrite]; omega), ?_⟩
    show Copied start s.lh.length _
    rw [hall]
    exact hcop'

/-- Writing the header makes the copies the log's contents: the transaction
is committed and none of its home blocks is written yet. -/
theorem installing_writeHead (v : Block) (hok : HeaderOk start s.lh)
    (hset : Settled start d0 s.disk s.txns) (hcop : Copied start s.lh.length s) :
    Installing start d0 0 (update s.disk start (putHead v s.lh)) s.lh
      (s.txns ++ [⟨s.lh.map fun b => (b, s.bread b), s.calls⟩]) := by
  set d := update s.disk start (putHead v s.lh) with hd
  have hhead : headBlocks (d start) = s.lh := by
    rw [hd, update_self]
    exact headBlocks_putHead hok v
  have hlogged : loggedWrites start d = s.lh.map fun b => (b, s.bread b) := by
    unfold loggedWrites
    rw [hhead]
    apply ext_getElem
    · simp
    · intro i hi _
      simp only [length_mapIdx] at hi
      simp only [getElem_mapIdx, getElem_map, Prod.mk.injEq, true_and]
      rw [hd, update_of_ne (by omega)]
      exact hcop i s.lh[i] hi (getElem?_eq_getElem hi)
  refine ⟨hhead, ⟨hhead ▸ hok, ?_⟩, fun i b hi => absurd hi (Nat.not_lt_zero i)⟩
  intro b hb
  rw [hlogged, applyTxns, flatMap_append, applyWrites_append]
  simp only [flatMap_cons, flatMap_nil, append_nil]
  apply applyWrites_congr
  intro _
  rw [hd, update_home (InLog.header start) hb]
  exact hset.home b hb

/-- The block that `install_trans` writes next. -/
theorem Inv.install (h : Inv start d0 s) (hp : s.phase.installs = some tail)
    (hb : s.lh[tail]? = some b) :
    Installing start d0 (tail + 1) (s.bwrite b (s.bread (start + tail + 1))).disk s.lh s.txns := by
  obtain ⟨htail, hinst⟩ := (phaseInv_installs hp).mp h.phase
  have hlen := h.lhOk.length_le
  rw [h.bread_log (InLog.copy (by omega))]
  exact hinst.write hb

/-- In every phase the disk alone determines the committed state. -/
theorem Inv.recoverable (h : Inv start d0 s) : Recoverable start d0 s.disk s.txns := by
  have hphase := h.phase
  unfold PhaseInv at hphase
  split at hphase
  · exact hphase.recoverable
  · exact hphase.1.recoverable
  · exact hphase.1.recoverable
  · exact hphase.2.recoverable
  · exact hphase.recoverable
  · exact hphase.1
  · exact hphase.2.recoverable
  · exact hphase.recoverable

/-- Before the first step of recovery nothing is known but the disk. -/
theorem inv_boot (hrec : Recoverable start d0 d ts) {n : Nat} {hist : List (Nat × Nat)} :
    Inv start d0 ⟨d, fun _ => none, fun _ => false, [], 0, false, .boot, [], n, [], hist, ts⟩ where
  clean := nofun
  lhOk := headerOk_nil start
  active := fun h => absurd rfl h
  committing := rfl
  count := rfl
  held := fun hcol => hcol.elim
  phase := ⟨hrec, rfl⟩

theorem inv_readHead (h : Inv start d0 s) (hp : s.phase = .boot) :
    Inv start d0 { s with
      lh := headBlocks (s.bread start)
      cache := update s.cache start (some (s.bread start))
      phase := if headBlocks (s.bread start) = [] then .recoverClear else .recover 0 } := by
  have hrec := h.recoverable
  have hread := inv_read h start
  rw [h.bread_log (InLog.header start)] at hread ⊢
  refine { hread with
    lhOk := hrec.header
    active := fun hne => absurd (h.idle (by simp [hp])) hne
    committing := h.committing.trans (by rw [hp]; split <;> rfl)
    held := fun hcol => ?_
    phase := ?_ }
  · split at hcol <;> exact hcol.elim
  · by_cases hnil : headBlocks (s.disk start) = []
    · simp only [if_pos hnil]
      refine ⟨hrec, ?_, hnil⟩
      have := hrec.replay
      rwa [loggedWrites_nil hnil] at this
    · simp only [if_neg hnil]
      exact ⟨length_pos_of_ne_nil hnil, rfl, hrec, fun i b hi => absurd hi (by omega)⟩

/-! ### Runs -/

theorem inv_step {e : Event} (h : Inv start d0 s) (hs : Step start s e t) : Inv start d0 t := by
  -- `commit` and recovery run while no operation is active
  have hidle : s.phase ≠ .running → ∀ {p : Phase}, s.ops ≠ [] → p = .running :=
    fun hp _ hne => absurd (h.idle hp) hne
  cases step_move hs with
  | beginOp hup hc => exact inv_beginOp h hup hc
  | modify op b v hop hb => exact inv_modify h v hop hb
  | absorb op b hop hb => exact { h with phase := h.phase }
  | logWrite op b hlen hop hhome hfits hsome hnew =>
    exact inv_logWrite h hlen hop hhome hfits hsome hnew
  | endOp op hop => exact inv_leave h hop
  | commit op hop hzero hlh => exact inv_commit h hop hzero hlh
  | read b => exact inv_read h b
  | evict b hb => exact inv_evict h hb
  | copy tail b hp hb => exact inv_copy h hp hb
  | head hp =>
    have hphase := h.phase
    simp only [PhaseInv, hp] at hphase
    obtain ⟨hset, hne, hcop⟩ := hphase
    exact { h with
      clean := h.clean_bwrite
      active := hidle (by simp [hp])
      committing := h.committing.trans (by rw [hp]; rfl)
      held := fun hcol => hcol.elim
      phase := ⟨length_pos_of_ne_nil hne, installing_writeHead _ h.lhOk hset hcop⟩ }
  | install tail b pin p hp hb hmore hp' hc =>
    have hrun : s.phase ≠ .running := by
      intro heq
      rw [heq] at hp
      cases hp
    exact { h with
      clean := h.clean_bwrite
      active := hidle hrun
      committing := h.committing.trans hc.symm
      held := fun hcol => absurd hcol (Phase.not_collecting (.inl (by simp [hp'])))
      phase := (phaseInv_installs hp').mpr ⟨hmore, h.install hp hb⟩ }
  | installLast tail b pin p hp hb hlast hp' hc =>
    have hrun : s.phase ≠ .running := by
      intro heq
      rw [heq] at hp
      cases hp
    have hall : tail + 1 = s.lh.length := by
      have := (List.getElem?_eq_some_iff.mp hb).1
      omega
    have hinst := h.install hp hb
    rw [hall] at hinst
    exact { h with
      clean := h.clean_bwrite
      lhOk := headerOk_nil start
      active := hidle hrun
      committing := h.committing.trans hc.symm
      held := fun hcol => absurd hcol (Phase.not_collecting (.inr hp'))
      phase := (phaseInv_clears hp').mpr hinst.installed }
  | clear c hp hc =>
    have hdone := (phaseInv_clears hp).mp h.phase
    exact { h with
      clean := h.clean_bwrite
      active := fun _ => rfl
      committing := hc h.committing
      held := fun _ b hb => by simp [State.bwrite, hdone.empty] at hb
      phase := settled_putHead_nil _ hdone.home }
  | readHead hp => exact inv_readHead h hp
  | crash => exact inv_boot h.recoverable

theorem inv_powerOn (hd : HeaderOk start (headBlocks (d0 start))) :
    Inv start d0 (powerOn start d0) := by
  refine inv_boot ⟨hd, fun b _ => ?_⟩
  simp only [bootTxns, applyTxns]
  split
  · rename_i hnil
    rw [loggedWrites_nil hnil]
    rfl
  · simp

theorem inv_run (hd : HeaderOk start (headBlocks (d0 start))) {es : List Event}
    (hrun : Run (Step start) (powerOn start d0) es s) : Inv start d0 s :=
  hrun.invariant (inv_powerOn hd) fun _ _ _ h hs => inv_step h hs

end Xv6.Log
