import Xv6.Bio.Invariant

/-!
# xv6 — operations and commits keep the cache in order

`commit` and `recover_from_log` are lists of instructions; `Check` says what each
instruction relies on, and is established once for the two lists
(`check_commit`, `check_recover`). The invariant of the machine is `Core.Ok`, and
that whoever is inside such a list is where `Check` holds.

* `inv_step`, `inv_run` — the invariant is kept by every step; what it says about
  contents, as long as no failing copy from user memory changes the buffer it was
  copying to.
-/

namespace Xv6.Bio

open Holders TransitionRun Function List
open Log (Block Disk InLog putHead headBlocks)

variable {c c' : Core} {lh : List Nat} {src : Option Buf} {f : Frame} {b start : Nat} {t : Thread}
  {i : Instr} {cleared : Bool} {code : List Instr}

/-! ### What the instructions rely on -/

/-- What is known of the process that runs `commit`, by block number. -/
structure Frame where
  src : Option Nat
  dst : Option Nat
  /-- the mark on `dst` -/
  mark : Mark
  /-- the block it is about to lock -/
  want : Option Nat
  /-- it is inside `brelse` -/
  dropping : Bool
  pins : List Nat
  /-- `log.lh.n` is 0 -/
  cleared : Bool

namespace Frame

def reg (f : Frame) : Reg → Option Nat
  | .src => f.src
  | .dst => f.dst

def setReg (f : Frame) (r : Reg) (b : Option Nat) : Frame :=
  match r with
  | .src => { f with src := b }
  | .dst => { f with dst := b, mark := .clean }

/-- Between two rounds of a loop. -/
def idle (pins : List Nat) (cleared : Bool) : Frame :=
  ⟨none, none, .clean, none, false, pins, cleared⟩

end Frame

/-- Each instruction finds what it relies on. A block is read while another one
is held only if it is pinned, or nothing is. -/
def Check : Frame → List Instr → Prop
  | _, [] => False
  | f, .get b :: code => f.want = none ∧ f.dropping = false ∧
    (b ∈ f.pins ∨ f.src = none ∧ f.dst = none ∨ f.pins = []) ∧ Check { f with want := some b } code
  | f, .take r b :: code => f.want = some b ∧ f.reg r = none ∧
    Check ({ f with want := none }.setReg r (some b)) code
  | f, .copy :: code => f.src ≠ none ∧ f.dst ≠ none ∧ Check { f with mark := .dirty } code
  | f, .putHead :: code => f.dst ≠ none ∧ Check { f with mark := .dirty } code
  | f, .bwrite :: code => f.dst ≠ none ∧ Check { f with mark := .written } code
  | f, .bunpin :: code => f.mark = .written ∧
    ∃ b, f.dst = some b ∧ b ∈ f.pins ∧ Check { f with pins := f.pins.erase b } code
  | f, .release r :: code => f.want = none ∧ f.dropping = false ∧ f.reg r ≠ none ∧
    (r = .dst → f.mark ≠ .dirty) ∧ Check ({ f with dropping := true }.setReg r none) code
  | f, .drop :: code => f.dropping = true ∧ Check { f with dropping := false } code
  | f, .clear :: code => f.pins = [] ∧ Check { f with cleared := true } code
  | f, .done :: code => code = [] ∧ f = Frame.idle [] true

theorem check_writeLog (start : Nat) {pins : List Nat}
    (h : Check (.idle pins cleared) code) : ∀ (lh : List Nat) (tail : Nat), lh ⊆ pins →
      Check (.idle pins cleared) (writeLog start tail lh ++ code)
  | [], _, _ => h
  | b :: lh, tail, hsub => by
    have hb : b ∈ pins := hsub mem_cons_self
    have ih := check_writeLog start h lh (tail + 1) fun x hx => hsub (mem_cons_of_mem _ hx)
    simpa [writeLog, bread, brelse, Check, Frame.idle, Frame.reg, Frame.setReg, hb] using ih

theorem check_writeHead (start : Nat) {pins : List Nat}
    (h : Check (.idle pins cleared) code) :
    Check (.idle pins cleared) (writeHead start ++ code) := by
  simpa [writeHead, bread, brelse, Check, Frame.idle, Frame.reg, Frame.setReg] using h

theorem check_install (start : Nat)
    (h : Check (.idle [] cleared) code) : ∀ (lh : List Nat) (tail : Nat),
      Check (.idle lh cleared) (installTrans start false tail lh ++ code)
  | [], _ => h
  | b :: lh, tail => by
    have ih := check_install start h lh (tail + 1)
    simpa [installTrans, bread, brelse, Check, Frame.idle, Frame.reg, Frame.setReg] using ih

theorem check_install_recovering (start : Nat)
    (h : Check (.idle [] cleared) code) : ∀ (lh : List Nat) (tail : Nat),
      Check (.idle [] cleared) (installTrans start true tail lh ++ code)
  | [], _ => h
  | b :: lh, tail => by
    have ih := check_install_recovering start h lh (tail + 1)
    simpa [installTrans, bread, brelse, Check, Frame.idle, Frame.reg, Frame.setReg] using ih

theorem check_done : Check (.idle [] true) [.done] := ⟨rfl, rfl⟩

theorem check_cleared (start : Nat) (cleared : Bool) :
    Check (.idle [] cleared) ([.clear] ++ (writeHead start ++ [.done])) :=
  ⟨rfl, check_writeHead start check_done⟩

theorem check_commit (start : Nat) (lh : List Nat) :
    Check (.idle lh (lh = [])) (commit start lh) := by
  unfold commit
  split
  · simp [*, check_done]
  · simp only [append_assoc]
    refine check_writeLog start (check_writeHead start ?_) lh 0 fun _ h => h
    exact check_install start (check_cleared start _) lh 0

theorem check_recover (start : Nat) (lh : List Nat) :
    Check (.idle [] false) (recoverFromLog start lh) := by
  have h := check_install_recovering start (check_cleared start false) lh 0
  simpa [recoverFromLog, bread, brelse, Check, Frame.idle, Frame.reg, Frame.setReg] using h

/-! ### The invariant of the machine -/

/-- The registers, the pins and the log are as known. -/
structure Held (c : Core) (lh : List Nat) (p : Tid) (rs rd : Option Buf) (f : Frame) : Prop where
  src : f.src = rs.map fun x => (c.cache.buf x).blockno
  dst : f.dst = rd.map fun x => (c.cache.buf x).blockno
  srcLock : ∀ x, rs = some x → c.lock x = some (p, .clean)
  dstLock : ∀ x, rd = some x → c.lock x = some (p, f.mark)
  apart : ∀ x, rs = some x → rd ≠ some x
  pins : f.pins = c.pins.map fun x => (c.cache.buf x).blockno
  cleared : f.cleared = true → lh = []

/-- The buffer that the process is about to lock, or to drop, is as known. -/
def Waits (c : Core) (p : Tid) (f : Frame) : Prop :=
  match c.busy p with
  | .no => f.want = none ∧ f.dropping = false
  | .want x => f.want = some (c.cache.buf x).blockno ∧ f.dropping = false
  | .drop _ => f.want = none ∧ f.dropping = true

/-- What is known of the process fits the state. -/
structure Matches (s : State) (p : Tid) (f : Frame) : Prop where
  held : Held s.core s.lh p (s.thread p).src (s.thread p).dst f
  waits : Waits s.core p f

/-- The processes inside operations. -/
def State.ops (s : State) : Nat :=
  holders (fun p => if (s.thread p).op = true then some () else none) ()

/-- The log, and the process inside `commit` if there is one. -/
structure LogOk (s : State) : Prop where
  count : s.outstanding = s.ops
  quiet : s.committing = true → s.outstanding = 0
  running : s.committing = false → s.core.pins.map (fun x => (s.core.cache.buf x).blockno) = s.lh ∧
    ∀ p, (s.thread p).code = []
  regs : ∀ p, (s.thread p).code = [] → (s.thread p).src = none ∧ (s.thread p).dst = none
  commit : ∀ p, (s.thread p).code ≠ [] → (∀ q, q ≠ p → (s.thread q).code = []) ∧
    ∃ f, Matches s p f ∧ Check f (s.thread p).code

/-- The invariant. -/
structure Inv (clean : Prop) (s : State) : Prop where
  core : s.core.Ok clean
  log : LogOk s

variable {clean : Prop} {s s' : State} {p q : Tid} {x y : Buf}

theorem LogOk.committing_of_code (h : LogOk s) (hcode : (s.thread p).code ≠ []) :
    s.committing = true := by
  cases hc : s.committing with
  | true => rfl
  | false => exact absurd ((h.running hc).2 p) hcode

/-- No operation is in progress while someone commits. -/
theorem LogOk.not_committing_of_op (h : LogOk s) (hop : (s.thread p).op = true) :
    s.committing = false := by
  cases hc : s.committing with
  | false => rfl
  | true =>
    have hzero : s.ops = 0 := h.count ▸ h.quiet hc
    exact absurd (holders_eq_zero.mp hzero p) (by simp [hop])

/-- Registers and pins stay as known while buffers in use stay for their blocks. -/
theorem Held.frame {dst : Option Buf} (h : Held c lh p src dst f) (hpins : c'.pins = c.pins)
    (hlock : ∀ x m, c.lock x = some (p, m) → c'.lock x = some (p, m))
    (hblock : ∀ x, c.users x ≠ 0 → (c'.cache.buf x).blockno = (c.cache.buf x).blockno) :
    Held c' lh p src dst f := by
  have hheld : ∀ x m, c.lock x = some (p, m) →
      (c'.cache.buf x).blockno = (c.cache.buf x).blockno := fun x m hx =>
    hblock x (Core.users_ne_zero_of_lock (by simp [hx]))
  refine ⟨?_, ?_, fun x hx => hlock x _ (h.srcLock x hx), fun x hx => hlock x _ (h.dstLock x hx),
    h.apart, ?_, h.cleared⟩
  · rw [h.src]
    exact Option.map_congr fun x hx => (hheld x _ (h.srcLock x hx)).symm
  · rw [h.dst]
    exact Option.map_congr fun x hx => (hheld x _ (h.dstLock x hx)).symm
  · rw [h.pins, hpins]
    exact map_congr_left fun x hx => (hblock x (Core.users_ne_zero_of_mem hx)).symm

theorem Held.busy {dst : Option Buf} (h : Held c lh p src dst f) (want : Option Nat)
    (dropping : Bool) : Held c lh p src dst { f with want := want, dropping := dropping } :=
  ⟨h.src, h.dst, h.srcLock, h.dstLock, h.apart, h.pins, h.cleared⟩

theorem Waits.frame (h : Waits c p f) (hbusy : c'.busy p = c.busy p)
    (hblock : ∀ x, c.users x ≠ 0 → (c'.cache.buf x).blockno = (c.cache.buf x).blockno) :
    Waits c' p f := by
  unfold Waits at h ⊢
  rw [hbusy]
  cases hb : c.busy p with
  | no | drop x => simpa [hb] using h
  | want x =>
    rw [hb] at h
    simp only at h ⊢
    rw [hblock x (Core.users_ne_zero_of_busy (by rw [hb]; rfl))]
    exact h

theorem Waits.not_busy (h : Waits c p f) (hwant : f.want = none) (hdrop : f.dropping = false) :
    c.busy p = .no := by
  unfold Waits at h
  cases hb : c.busy p with
  | no => rfl
  | want x => simp [hb, hwant] at h
  | drop x => simp [hb, hdrop] at h

/-- A step of a process outside `commit` that changes the cache, but no pin. -/
theorem LogOk.core_step (h : LogOk s) (hcode : (s.thread q).code = [])
    (hpins : c.pins = s.core.pins) (hbusy : ∀ p, p ≠ q → c.busy p = s.core.busy p)
    (hlock : ∀ p x m, p ≠ q → s.core.lock x = some (p, m) → c.lock x = some (p, m))
    (hblock : ∀ x, s.core.users x ≠ 0 →
      (c.cache.buf x).blockno = (s.core.cache.buf x).blockno) : LogOk { s with core := c } where
  count := h.count
  quiet := h.quiet
  running hc := by
    refine ⟨?_, (h.running hc).2⟩
    rw [← (h.running hc).1]
    rw [hpins]
    exact map_congr_left fun x hx => hblock x (Core.users_ne_zero_of_mem hx)
  regs := h.regs
  commit p hp := by
    have hne : p ≠ q := fun heq => hp (heq ▸ hcode)
    obtain ⟨hothers, f, hf, hcheck⟩ := h.commit p hp
    exact ⟨hothers, f, ⟨hf.held.frame hpins (hlock p · · hne) hblock,
      hf.waits.frame (hbusy p hne) hblock⟩, hcheck⟩

/-! ### The file system's steps -/

theorem holder_eq (h : c.holder x = some p) : ∃ m, c.lock x = some (p, m) := by
  obtain ⟨⟨q, m⟩, hl, rfl⟩ := Option.map_eq_some_iff.mp h
  exact ⟨m, hl⟩

theorem inv_get (h : Inv clean s) (hfree : s.Free q) (hget : s.core.get q b = .ok c) :
    Inv clean { s with core := c } := by
  obtain ⟨hok, x, cache, rfl, -, -, hblock⟩ := h.core.get hfree.1 hget
  refine ⟨hok, h.log.core_step hfree.2 rfl (fun p hp => ?_) (fun _ _ _ _ hl => hl) hblock⟩
  exact update_of_ne hp _ _

theorem Takes.blockno (ht : c.Takes p x c') (y : Buf) :
    (c'.cache.buf y).blockno = (c.cache.buf y).blockno := by
  rw [ht.header]
  split
  · simp [*]
  · rfl

theorem inv_take (h : Inv clean s) (hcode : (s.thread q).code = []) (ht : s.core.Takes q x c) :
    Inv clean { s with core := c } := by
  refine ⟨h.core.take ht, h.log.core_step hcode ht.pins (fun p hp => ?_) (fun p y m _ hl => ?_)
    fun y _ => Takes.blockno ht y⟩
  · rw [ht.busy, update_of_ne hp]
  · have hne : y ≠ x := by
      rintro rfl
      simp [ht.free] at hl
    rw [ht.lock, update_of_ne hne, hl]

theorem inv_release (h : Inv clean s) (hfree : s.Free q) {m : Mark}
    (hx : s.core.lock x = some (q, m)) (hm : m ≠ .dirty) :
    Inv clean { s with core := s.core.release q x } := by
  refine ⟨h.core.release hfree.1 hx hm, h.log.core_step hfree.2 rfl
    (fun p hp => update_of_ne hp _ _) (fun p y m' hp hl => ?_) fun _ _ => rfl⟩
  have hne : y ≠ x := by
    rintro rfl
    rw [hx, Option.some.injEq, Prod.mk.injEq] at hl
    exact hp hl.1.symm
  simp [Core.release, update_of_ne hne, hl]

theorem inv_drop (h : Inv clean s) (hcode : (s.thread q).code = [])
    (hdrop : s.core.drop q = some c) : Inv clean { s with core := c } := by
  obtain ⟨hok, x, -, rfl⟩ := h.core.drop hdrop
  exact ⟨hok, h.log.core_step hcode rfl (fun p hp => update_of_ne hp _ _)
    (fun _ _ _ _ hl => hl) fun y _ => (brelse_same _ x y).2.2⟩

theorem lock_mark_of_ne (m : Mark) (hne : y ≠ x) : (c.mark x m).lock y = c.lock y :=
  update_of_ne hne _ _

theorem inv_modify (h : Inv clean s) (hx : s.CanChange start q x) (v : Block) :
    Inv clean { s with core := (s.core.store x v).mark x .dirty } := by
  obtain ⟨m, hl⟩ := holder_eq hx.2.2.1
  refine ⟨h.core.modify (by simp [hl]) v, h.log.core_step hx.1.2 rfl (fun _ _ => rfl)
    (fun p y m' hp hy => ?_) fun _ _ => rfl⟩
  have hne : y ≠ x := by
    rintro rfl
    rw [hl, Option.some.injEq, Prod.mk.injEq] at hy
    exact hp hy.1.symm
  rw [lock_mark_of_ne _ hne]
  exact hy

theorem ops_setThread (s : State) (p : Tid) (t : Thread) :
    (s.setThread p t).ops + (if (s.thread p).op = true then 1 else 0) =
      s.ops + (if t.op = true then 1 else 0) := by
  have h := holders_update (fun q => if (s.thread q).op = true then some () else none) p
    (if t.op = true then some () else none) ()
  have hcomp : (fun q => if ((s.setThread p t).thread q).op = true then some () else none) =
      update (fun q => if (s.thread q).op = true then some () else none) p
        (if t.op = true then some () else none) := by
    funext q
    by_cases hq : q = p
    · subst hq
      simp [State.setThread]
    · simp [State.setThread, hq]
  rw [← hcomp] at h
  simpa [State.ops, apply_ite (· = some ())] using h

theorem ops_setThread_of_op (ht : t.op = (s.thread p).op) : (s.setThread p t).ops = s.ops := by
  have h := ops_setThread s p t
  rw [ht] at h
  omega

/-- The process is at the same place of `commit`. -/
def Thread.SameCode (t t' : Thread) : Prop := t.code = t'.code ∧ t.src = t'.src ∧ t.dst = t'.dst

/-- While no one commits, a step that keeps it so only has to keep the pins. -/
theorem LogOk.of_running (h : LogOk s) (hc : s.committing = false) (hc' : s'.committing = false)
    (hcode : ∀ p, (s'.thread p).SameCode (s.thread p)) (hcount : s'.outstanding = s'.ops)
    (hpins : s'.core.pins.map (fun x => (s'.core.cache.buf x).blockno) = s'.lh) : LogOk s' where
  count := hcount
  quiet hq := by simp [hc'] at hq
  running _ := ⟨hpins, fun p => (hcode p).1 ▸ (h.running hc).2 p⟩
  regs p hp := by
    rw [(hcode p).2.1, (hcode p).2.2]
    exact h.regs p ((hcode p).1 ▸ hp)
  commit p hp := absurd ((h.running hc).2 p) ((hcode p).1 ▸ hp)

theorem sameCode_setThread (ht : t.SameCode (s.thread p)) (q : Tid) :
    ((s.setThread p t).thread q).SameCode (s.thread q) := by
  by_cases hq : q = p
  · subst hq
    simpa [State.setThread] using ht
  · simp [State.setThread, hq, Thread.SameCode]

theorem inv_beginOp (h : Inv clean s) (hs : s.beginOp p = some s') : Inv clean s' := by
  unfold State.beginOp at hs
  split at hs
  · cases hs
  rename_i hfree
  split at hs
  · cases hs
  rename_i hc
  split at hs <;> cases hs
  simp only [not_or, Bool.not_eq_true] at hfree hc
  refine ⟨h.core, h.log.of_running hc hc (sameCode_setThread ⟨rfl, rfl, rfl⟩) ?_
    (h.log.running hc).1⟩
  have hops := ops_setThread { s with outstanding := s.outstanding + 1 } p
    { s.thread p with op := true, named := ∅ }
  simp only [hfree.2, Bool.false_eq_true, if_false, Nat.add_zero] at hops
  rw [hops]
  exact congrArg (· + 1) h.log.count

/-- A block that is in the log is in a pinned buffer. -/
theorem Inv.mem_pins_iff (h : Inv clean s) (hc : s.committing = false)
    (hx : (s.core.lock x).isSome) : (s.core.cache.buf x).blockno ∈ s.lh ↔ x ∈ s.core.pins := by
  rw [← (h.log.running hc).1, mem_map]
  constructor
  · rintro ⟨y, hy, heq⟩
    have hdev := h.core.dev x (.inr (Core.users_ne_zero_of_lock hx))
    rwa [h.core.eq_of_blockno hdev (h.core.dev y (.inr (Core.users_ne_zero_of_mem hy))) heq]
  · exact fun hmem => ⟨x, hmem, rfl⟩

theorem inv_logWrite (h : Inv clean s) (hs : s.logWrite start p x = some s') : Inv clean s' := by
  unfold State.logWrite at hs
  simp only at hs
  split at hs
  · cases hs
  split at hs
  · cases hs
  split at hs
  · rename_i hx
    have hc := h.log.not_committing_of_op hx.2.1
    obtain ⟨m, hl⟩ := holder_eq hx.2.2.1
    have hsome : (s.core.lock x).isSome := by simp [hl]
    have hmem := h.mem_pins_iff hc hsome
    have hcount : ∀ c t, t.op = (s.thread p).op →
        s.outstanding = (({ s with core := c } : State).setThread p t).ops := fun c t ht =>
      h.log.count.trans (ops_setThread_of_op ht).symm
    split at hs <;> rename_i hb <;> cases hs
    · exact ⟨h.core.absorb (hmem.mp hb), h.log.of_running hc hc (sameCode_setThread ⟨rfl, rfl, rfl⟩)
        (hcount _ _ rfl) (h.log.running hc).1⟩
    · refine ⟨h.core.pin hsome fun hpin => hb (hmem.mpr hpin), h.log.of_running hc hc
        (sameCode_setThread ⟨rfl, rfl, rfl⟩) (hcount _ _ rfl) ?_⟩
      show (s.core.pins ++ [x]).map (fun y => ((s.core.cache.addRef x 1).buf y).blockno) = _
      simp only [fun y => (addRef_same s.core.cache x 1 y).2.2]
      rw [map_append, (h.log.running hc).1]
      rfl
  · cases hs

theorem inv_endOp (h : Inv clean s) (hs : s.endOp start p = some s') : Inv clean s' := by
  unfold State.endOp at hs
  split at hs
  · cases hs
  rename_i hc
  simp only [Bool.not_eq_true] at hc
  split at hs
  · rename_i hend
    have hops := ops_setThread { s with outstanding := s.outstanding - 1 } p
      { s.thread p with op := false }
    have hcount : s.outstanding - 1 = ({ s with outstanding := s.outstanding - 1 }.setThread p
        { s.thread p with op := false }).ops := by
      simp only [hend.2.1] at hops
      rw [h.log.count]
      exact (Nat.eq_sub_of_add_eq hops).symm
    simp only at hs
    split at hs
    · cases hs
      exact ⟨h.core, h.log.of_running hc hc (sameCode_setThread ⟨rfl, rfl, rfl⟩) hcount
        (h.log.running hc).1⟩
    · -- the last operation commits
      rename_i hzero
      cases hs
      have hidle := (h.log.running hc).2
      have hregs := h.log.regs p (hidle p)
      refine ⟨h.core, ?_, fun _ => not_not.mp hzero, (fun hrun => by cases hrun), fun q hq => ?_,
        fun q hq => ?_⟩
      · refine hcount.trans (ops_setThread_of_op ?_).symm
        rfl
      · by_cases heq : q = p
        · subst heq
          simpa [State.setThread] using hregs
        · simpa [State.setThread, heq] using h.log.regs q (hidle q)
      · have heq : q = p := by
          by_contra hne
          exact hq (by simpa [State.setThread, hne] using hidle q)
        subst heq
        refine ⟨fun r hr => by simpa [State.setThread, hr] using hidle r, .idle s.lh (s.lh = []),
          ⟨⟨?_, ?_, ?_, ?_, ?_, (h.log.running hc).1.symm, by simp [Frame.idle, State.setThread]⟩,
          ?_⟩, ?_⟩
        · simp [State.setThread, Frame.idle, hregs]
        · simp [State.setThread, Frame.idle, hregs]
        · simp [State.setThread, hregs]
        · simp [State.setThread, hregs]
        · simp [State.setThread, hregs]
        · simp [Waits, State.setThread, hend.1.1, Frame.idle]
        · simpa [State.setThread] using check_commit start s.lh
  · cases hs

/-! ### The steps of commit and recovery -/

/-- A process inside `commit` goes on. -/
theorem LogOk.go (h : LogOk s) (hcode : (s.thread p).code = i :: code)
    (hop : t.op = (s.thread p).op) (hcore : ∀ q, s'.thread q = if q = p then t else s.thread q)
    (hout : s'.outstanding = s.outstanding) (hc : s'.committing = s.committing)
    (hf : Matches s' p f) (hcheck : Check f t.code) : LogOk s' := by
  have hne : (s.thread p).code ≠ [] := by simp [hcode]
  have hothers := (h.commit p hne).1
  have hcommitting := h.committing_of_code hne
  have hthread : s'.thread p = t := by rw [hcore, if_pos rfl]
  have hrest : ∀ q, q ≠ p → s'.thread q = s.thread q := fun q hq => by rw [hcore, if_neg hq]
  refine ⟨?_, fun _ => ?_, fun hrun => ?_, fun q hq => ?_, fun q hq => ?_⟩
  · have hops : s'.ops = s.ops := by
      unfold State.ops
      congr 1
      funext q
      by_cases heq : q = p
      · rw [heq, hthread, hop]
      · rw [hrest q heq]
    rw [hout, hops, h.count]
  · rw [hout]
    exact h.quiet hcommitting
  · rw [hc, hcommitting] at hrun
    cases hrun
  · by_cases heq : q = p
    · subst heq
      rw [hthread] at hq
      rw [hq] at hcheck
      exact hcheck.elim
    · rw [hrest q heq] at hq ⊢
      exact h.regs q hq
  · have heq : q = p := by
      by_contra hqp
      rw [hrest q hqp] at hq
      exact hq (hothers q hqp)
    subst heq
    exact ⟨fun r hr => by rw [hrest r hr]; exact hothers r hr, f, hf, hthread ▸ hcheck⟩

theorem Inv.go (h : Inv clean s) (hcode : (s.thread p).code = i :: code)
    (hop : t.op = (s.thread p).op) (hc : c.Ok clean) (hheld : Held c s.lh p t.src t.dst f)
    (hwaits : Waits c p f) (hcheck : Check f code) :
    Inv clean ({ s with core := c }.setThread p { t with code := code }) := by
  refine ⟨hc, h.log.go (t := { t with code := code }) hcode hop (fun q => ?_) rfl rfl ⟨?_, hwaits⟩
    hcheck⟩
  · simp only [State.setThread, update_apply]
  · simpa [State.setThread] using hheld

/-- What is known when an instruction is next. -/
theorem Inv.frame (h : Inv clean s) (hcode : (s.thread p).code = i :: code) :
    ∃ f, Held s.core s.lh p (s.thread p).src (s.thread p).dst f ∧ Waits s.core p f ∧
      Check f (i :: code) := by
  obtain ⟨-, f, hf, hcheck⟩ := h.log.commit p (by simp [hcode])
  exact ⟨f, hf.held, hf.waits, hcode ▸ hcheck⟩

theorem inv_instr_get (h : Inv clean s) (hcode : (s.thread p).code = .get b :: code)
    (hget : s.core.get p b = .ok c) :
    Inv clean ({ s with core := c }.setThread p { s.thread p with code := code }) := by
  obtain ⟨f, hheld, hwaits, hwant, hdrop, -, hcheck⟩ := h.frame hcode
  obtain ⟨hok, x, cache, rfl, -, hb, hblock⟩ := h.core.get (hwaits.not_busy hwant hdrop) hget
  have hheld' : Held { s.core with
      cache := cache, busy := update s.core.busy p (.want x) } s.lh p (s.thread p).src
      (s.thread p).dst f := hheld.frame rfl (fun _ _ hl => hl) hblock
  refine h.go hcode rfl hok (hheld'.busy (some b) f.dropping) ?_ hcheck
  simp [Waits, hb, hdrop]

theorem Waits.want_eq (h : Waits c p f) (hb : c.busy p = .want x) :
    f.want = some (c.cache.buf x).blockno ∧ f.dropping = false := by
  simpa [Waits, hb] using h

/-- A buffer just locked goes to a register. -/
theorem Held.take (h : Held c lh p t.src t.dst f) (ht : c.Takes p x c') (r : Reg)
    (hr : f.reg r = none) : Held c' lh p (t.setReg r (some x)).src (t.setReg r (some x)).dst
      (f.setReg r (some (c.cache.buf x).blockno)) := by
  have hkeep : ∀ y m, c.lock y = some (p, m) → y ≠ x ∧ c'.lock y = some (p, m) := by
    intro y m hy
    have hne : y ≠ x := by
      rintro rfl
      simp [ht.free] at hy
    exact ⟨hne, by rw [ht.lock, update_of_ne hne, hy]⟩
  have hnew : c'.lock x = some (p, .clean) := by rw [ht.lock, update_self]
  have hold := h.frame ht.pins (fun y m hy => (hkeep y m hy).2) fun y _ => Takes.blockno ht y
  cases r with
  | src =>
    refine ⟨by simp [Frame.setReg, Thread.setReg, Takes.blockno ht], hold.dst, ?_, hold.dstLock, ?_,
      hold.pins, hold.cleared⟩
    · rintro y ⟨⟩
      exact hnew
    · rintro y ⟨⟩ hdst
      exact (hkeep x _ (h.dstLock x hdst)).1 rfl
  | dst =>
    refine ⟨hold.src, by simp [Frame.setReg, Thread.setReg, Takes.blockno ht], hold.srcLock, ?_, ?_,
      hold.pins, hold.cleared⟩
    · rintro y ⟨⟩
      exact hnew
    · rintro y hsrc ⟨⟩
      exact (hkeep x _ (h.srcLock x hsrc)).1 rfl

theorem op_setReg (t : Thread) (r : Reg) (v : Option Buf) : (t.setReg r v).op = t.op := by
  cases r <;> rfl

theorem inv_instr_take (h : Inv clean s) {r : Reg} (hcode : (s.thread p).code = .take r b :: code)
    (ht : s.core.Takes p x c) : Inv clean ({ s with core := c }.setThread p
      { (s.thread p).setReg r (some x) with code := code }) := by
  obtain ⟨f, hheld, hwaits, hwant, hr, hcheck⟩ := h.frame hcode
  obtain ⟨hblock, hdrop⟩ := hwaits.want_eq ht.want
  have hb : (s.core.cache.buf x).blockno = b := Option.some.inj (hblock.symm.trans hwant)
  refine h.go hcode (op_setReg _ _ _) (h.core.take ht)
    ((hheld.busy none f.dropping).take ht r (by cases r <;> exact hr)) ?_ (hb ▸ hcheck)
  have hbusy : c.busy p = .no := by rw [ht.busy, update_self]
  cases r <;> simp [Waits, hbusy, Frame.setReg, hdrop]

/-- The buffer in `dst` gets another mark. -/
theorem Held.mark {m : Mark} (h : Held c lh p src (some y) f) (hcache : c'.cache = c.cache)
    (hpins : c'.pins = c.pins) (hlock : c'.lock = (c.mark y m).lock) :
    Held c' lh p src (some y) { f with mark := m } := by
  refine ⟨hcache ▸ h.src, hcache ▸ h.dst, fun x hx => ?_, ?_, h.apart, hcache ▸ hpins ▸ h.pins,
    h.cleared⟩
  · have hne : x ≠ y := fun heq => h.apart x hx (by rw [heq])
    rw [hlock, lock_mark_of_ne m hne, h.srcLock x hx]
  · rintro x ⟨⟩
    simp [hlock, Core.mark, h.dstLock y rfl]

theorem Waits.mark (h : Waits c p f) (hcache : c'.cache = c.cache) (hbusy : c'.busy = c.busy)
    (m : Mark) : Waits c' p { f with mark := m } :=
  h.frame (congrFun hbusy p) fun _ _ => by rw [hcache]

/-- `copy` and `putHead`: the buffer in `dst` is changed. -/
theorem inv_instr_store (h : Inv clean s) (hcode : (s.thread p).code = i :: code)
    (hheld : Held s.core s.lh p (s.thread p).src (s.thread p).dst f) (hwaits : Waits s.core p f)
    (hdst : (s.thread p).dst = some y) (hcheck : Check { f with mark := .dirty } code) (v : Block) :
    Inv clean ({ s with core := (s.core.store y v).mark y .dirty }.setThread p
      { s.thread p with code := code }) := by
  rw [hdst] at hheld
  refine h.go hcode rfl (h.core.modify (by simp [hheld.dstLock y rfl]) v) ?_
    (hwaits.mark rfl rfl .dirty) hcheck
  rw [hdst]
  exact hheld.mark rfl rfl rfl

theorem inv_instr_bwrite (h : Inv clean s) (hcode : (s.thread p).code = .bwrite :: code)
    (hdst : (s.thread p).dst = some y) :
    Inv clean ({ s with core := (s.core.bwrite y).mark y .written }.setThread p
      { s.thread p with code := code }) := by
  obtain ⟨f, hheld, hwaits, -, hcheck⟩ := h.frame hcode
  rw [hdst] at hheld
  refine h.go hcode rfl (h.core.bwrite (h.core.held y (by simp [hheld.dstLock y rfl]))) ?_
    (hwaits.mark rfl rfl .written) hcheck
  rw [hdst]
  exact hheld.mark rfl rfl rfl

theorem map_erase_of_inj {α β : Type} [DecidableEq α] [DecidableEq β] {g : α → β} {a : α} :
    ∀ {l : List α}, (∀ b ∈ l, g b = g a → b = a) → (l.erase a).map g = (l.map g).erase (g a)
  | [], _ => rfl
  | b :: l, hinj => by
    by_cases heq : b = a
    · rw [heq, erase_cons_head, map_cons, erase_cons_head]
    · have hne : g b ≠ g a := fun h => heq (hinj b mem_cons_self h)
      rw [erase_cons_tail (by simpa using heq), map_cons, map_cons,
        erase_cons_tail (by simpa using hne),
        map_erase_of_inj fun c hc => hinj c (mem_cons_of_mem _ hc)]

theorem inv_instr_bunpin (h : Inv clean s) (hcode : (s.thread p).code = .bunpin :: code)
    (hdst : (s.thread p).dst = some y) : Inv clean
      ({ s with core := s.core.bunpin y }.setThread p { s.thread p with code := code }) := by
  obtain ⟨f, hheld, hwaits, hmark, b, hb, hmem, hcheck⟩ := h.frame hcode
  rw [hdst] at hheld
  have hlock := hheld.dstLock y rfl
  have hblock : (s.core.cache.buf y).blockno = b := Option.some.inj (hheld.dst.symm.trans hb)
  have hdev := h.core.dev y (.inr (Core.users_ne_zero_of_lock (by simp [hlock])))
  have hinj : ∀ x ∈ s.core.pins, (s.core.cache.buf x).blockno = (s.core.cache.buf y).blockno →
      x = y := fun x hx heq => (h.core.eq_of_blockno hdev
    (h.core.dev x (.inr (Core.users_ne_zero_of_mem hx))) heq).symm
  have hpin : y ∈ s.core.pins := by
    rw [hheld.pins, mem_map] at hmem
    obtain ⟨x, hx, heq⟩ := hmem
    rwa [← hinj x hx (heq.trans hblock.symm)]
  have hsame := fun x => (addRef_same s.core.cache y (-1) x).2.2
  refine h.go hcode rfl (h.core.bunpin hpin (by simp [Core.markOf, hlock, hmark])) ?_
    ?_ hcheck
  · rw [hdst]
    refine ⟨?_, ?_, hheld.srcLock, hheld.dstLock, hheld.apart, ?_, hheld.cleared⟩
    · simpa [Core.bunpin, Cache.bunpin, hsame] using hheld.src
    · simpa [Core.bunpin, Cache.bunpin, hsame] using hheld.dst
    · simp only [Core.bunpin, Cache.bunpin, hsame]
      rw [map_erase_of_inj hinj, ← hheld.pins, hblock]
  · exact hwaits.frame rfl fun x _ => hsame x

theorem inv_instr_release (h : Inv clean s) {r : Reg}
    (hcode : (s.thread p).code = .release r :: code) (hreg : (s.thread p).reg r = some x) :
    Inv clean ({ s with core := s.core.release p x }.setThread p
      { (s.thread p).setReg r none with code := code }) := by
  obtain ⟨f, hheld, hwaits, hwant, hdrop, -, hmark, hcheck⟩ := h.frame hcode
  have hbusy := hwaits.not_busy hwant hdrop
  have hkeep : ∀ z, z ≠ x → (s.core.release p x).lock z = s.core.lock z := fun z hz =>
    update_of_ne hz _ _
  have hw : ∀ f', f'.want = none → f'.dropping = true → Waits (s.core.release p x) p f' := by
    intro f' h1 h2
    simp [Waits, Core.release, h1, h2]
  cases r with
  | src =>
    have hx : (s.thread p).src = some x := hreg
    refine h.go (f := { f with dropping := true }.setReg .src none) hcode rfl
      (h.core.release hbusy (hheld.srcLock x hx) (by decide)) ?_ (hw _ hwant rfl) hcheck
    refine ⟨rfl, hheld.dst, by intros; contradiction, fun z hz => ?_,
      by intros; contradiction, hheld.pins, hheld.cleared⟩
    have hne : z ≠ x := by
      rintro rfl
      exact hheld.apart z hx hz
    exact (hkeep z hne).trans (hheld.dstLock z hz)
  | dst =>
    have hx : (s.thread p).dst = some x := hreg
    refine h.go (f := { f with dropping := true }.setReg .dst none) hcode rfl
      (h.core.release hbusy (hheld.dstLock x hx) (hmark rfl)) ?_ (hw _ hwant rfl) hcheck
    refine ⟨hheld.src, rfl, fun z hz => ?_, by intros; contradiction,
      by rintro _ _ ⟨⟩, hheld.pins, hheld.cleared⟩
    have hne : z ≠ x := by
      rintro rfl
      exact hheld.apart z hz hx
    exact (hkeep z hne).trans (hheld.srcLock z hz)

theorem inv_instr_drop (h : Inv clean s) (hcode : (s.thread p).code = .drop :: code)
    (hdrop : s.core.drop p = some c) :
    Inv clean ({ s with core := c }.setThread p { s.thread p with code := code }) := by
  obtain ⟨f, hheld, hwaits, hdropping, hcheck⟩ := h.frame hcode
  obtain ⟨hok, x, hx, rfl⟩ := h.core.drop hdrop
  have hblock := fun y => (brelse_same s.core.cache x y).2.2
  have hwant : f.want = none := by simpa [Waits, hx, hdropping] using hwaits
  have hheld' : Held { s.core with
      cache := s.core.cache.brelse x, busy := update s.core.busy p .no } s.lh p
      (s.thread p).src (s.thread p).dst f := hheld.frame rfl (fun _ _ hl => hl) fun y _ => hblock y
  refine h.go hcode rfl hok (hheld'.busy f.want false) ?_ hcheck
  simp [Waits, hwant]

theorem inv_instr_clear (h : Inv clean s) (hcode : (s.thread p).code = .clear :: code) :
    Inv clean { s.setThread p { s.thread p with code := code } with lh := [] } := by
  obtain ⟨f, hheld, hwaits, -, hcheck⟩ := h.frame hcode
  refine ⟨h.core, h.log.go (t := { s.thread p with code := code }) hcode rfl (fun q => ?_) rfl rfl
    (f := { f with cleared := true }) ⟨?_, hwaits.frame rfl fun _ _ => rfl⟩ hcheck⟩
  · simp only [State.setThread, update_apply]
  · simp only [State.setThread, update_self]
    exact ⟨hheld.src, hheld.dst, hheld.srcLock, hheld.dstLock, hheld.apart, hheld.pins,
      fun _ => rfl⟩

theorem inv_instr_done (h : Inv clean s) (hcode : (s.thread p).code = .done :: code) :
    Inv clean { s.setThread p { s.thread p with code := code } with committing := false } := by
  obtain ⟨f, hheld, hwaits, rfl, rfl⟩ := h.frame hcode
  have hne : (s.thread p).code ≠ [] := by simp [hcode]
  have hothers := (h.log.commit p hne).1
  have hidle : ∀ q, ((s.setThread p { s.thread p with code := [] }).thread q).code = [] := by
    intro q
    by_cases hq : q = p
    · simp [State.setThread, hq]
    · simpa [State.setThread, hq] using hothers q hq
  have hlh : s.lh = [] := hheld.cleared rfl
  refine ⟨h.core, ?_, nofun, fun _ => ⟨?_, hidle⟩, fun q _ => ?_, fun q hq => absurd (hidle q) hq⟩
  · exact h.log.count.trans (ops_setThread_of_op (t := { s.thread p with code := [] }) rfl).symm
  · show s.core.pins.map (fun x => (s.core.cache.buf x).blockno) = s.lh
    rw [hlh, ← hheld.pins]
    rfl
  · by_cases hq : q = p
    · subst hq
      simp only [State.setThread, update_self]
      exact ⟨Option.map_eq_none_iff.mp hheld.src.symm, Option.map_eq_none_iff.mp hheld.dst.symm⟩
    · simpa [State.setThread, hq] using h.log.regs q (hothers q hq)

theorem inv_instr (h : Inv clean s) (hs : s.instr p = some s') : Inv clean s' := by
  unfold State.instr at hs
  simp only at hs
  split at hs
  · cases hs
  rename_i i code hcode
  cases i with
  | get b =>
    simp only at hs
    split at hs <;> cases hs
    exact inv_instr_get h hcode ‹_›
  | take r b =>
    obtain ⟨⟨x, c⟩, htake, rfl⟩ := Option.map_eq_some_iff.mp hs
    exact inv_instr_take h hcode (Core.takes_of_take htake)
  | copy =>
    simp only at hs
    split at hs <;> cases hs
    rename_i hdst
    obtain ⟨f, hheld, hwaits, -, -, hcheck⟩ := h.frame hcode
    exact inv_instr_store h hcode hheld hwaits hdst hcheck _
  | putHead =>
    obtain ⟨y, hdst, rfl⟩ := Option.map_eq_some_iff.mp hs
    obtain ⟨f, hheld, hwaits, -, hcheck⟩ := h.frame hcode
    exact inv_instr_store h hcode hheld hwaits hdst hcheck _
  | bwrite =>
    obtain ⟨y, hdst, rfl⟩ := Option.map_eq_some_iff.mp hs
    exact inv_instr_bwrite h hcode hdst
  | bunpin =>
    obtain ⟨y, hdst, rfl⟩ := Option.map_eq_some_iff.mp hs
    exact inv_instr_bunpin h hcode hdst
  | release r =>
    obtain ⟨x, hreg, rfl⟩ := Option.map_eq_some_iff.mp hs
    exact inv_instr_release h hcode hreg
  | drop =>
    obtain ⟨c, hdrop, rfl⟩ := Option.map_eq_some_iff.mp hs
    exact inv_instr_drop h hcode hdrop
  | clear =>
    cases hs
    exact inv_instr_clear h hcode
  | done =>
    cases hs
    exact inv_instr_done h hcode

/-! ### Every run -/

/-- A copy from user memory that fails leaves the buffer as it was. -/
def CleanFail (s : State) : Event → Prop
  | .copyFail _ x off bs => ByteBuffer.store (s.core.data x) off bs = s.core.data x
  | _ => True

theorem inv_step {e : Event} (h : Inv clean s) (he : clean → CleanFail s e)
    (hs : Step start s e s') : Inv clean s' := by
  unfold Step at hs
  cases e with
  | beginOp p => exact inv_beginOp h hs
  | get p b =>
    simp only [step] at hs
    split at hs
    · rename_i hfree
      split at hs <;> cases hs
      exact inv_get h hfree.1 ‹_›
    · cases hs
  | take p =>
    simp only [step] at hs
    split at hs
    · obtain ⟨⟨x, c⟩, htake, rfl⟩ := Option.map_eq_some_iff.mp hs
      exact inv_take h ‹_› (Core.takes_of_take htake)
    · cases hs
  | modify p x v =>
    simp only [step] at hs
    split at hs <;> cases hs
    exact inv_modify h ‹_› v
  | copyFail p x off bs =>
    simp only [step] at hs
    split at hs <;> cases hs
    refine ⟨h.core.change rfl (fun _ => rfl) rfl rfl fun hc y hy hsync => ?_, ?_⟩
    · show update s.core.data x _ y = _
      rw [he hc, update_eq_self]
      exact h.core.data hc y hy hsync
    · exact h.log.core_step (‹s.CanChange start p x›).1.2 rfl (fun _ _ => rfl)
        (fun _ _ _ _ hl => hl) fun _ _ => rfl
  | logWrite p x => exact inv_logWrite h hs
  | release p x =>
    simp only [step] at hs
    split at hs <;> cases hs
    rename_i hrel
    obtain ⟨m, hm⟩ := holder_eq hrel.2.1
    refine inv_release h hrel.1 hm ?_
    rintro rfl
    exact hrel.2.2 hm
  | drop p =>
    simp only [step] at hs
    split at hs
    · obtain ⟨c, hdrop, rfl⟩ := Option.map_eq_some_iff.mp hs
      exact inv_drop h ‹_› hdrop
    · cases hs
  | endOp p => exact inv_endOp h hs
  | instr p => exact inv_instr h hs

theorem ok_powerOn (start : Nat) (d : Disk) (data : Buf → Block) :
    (powerOn start d data).core.Ok clean := by
  have husers : ∀ x, (powerOn start d data).core.users x = 0 := by
    intro x
    simp [Core.users, powerOn, holders_eq_zero, Busy.buf]
  refine ⟨⟨_, ordered_binit⟩, fun b b' hdev => absurd hdev (by simp [powerOn, binit]), fun x => ?_,
    nodup_nil, fun x hx => ?_, by intros; contradiction, fun _ x hx => ?_⟩
  · rfl
  · rcases hx with hx | hx
    · cases hx
    · exact absurd (husers x) hx
  · exact absurd hx (by simp [powerOn, binit])

theorem inv_powerOn (start : Nat) (d : Disk) (data : Buf → Block) :
    Inv clean (powerOn start d data) := by
  refine ⟨ok_powerOn start d data, ?_, fun _ => rfl, by rintro ⟨⟩,
    fun _ _ => ⟨rfl, rfl⟩, fun p hp => ?_⟩
  · symm
    simp [State.ops, powerOn, holders_eq_zero]
  · have hp0 : p = 0 := by
      by_contra hne
      exact hp (by simp [powerOn, hne])
    subst hp0
    refine ⟨fun q hq => by simp [powerOn, hq], .idle [] false, ⟨⟨rfl, rfl, by rintro _ ⟨⟩,
      by rintro _ ⟨⟩, by rintro _ ⟨⟩, rfl,
      (by rintro ⟨⟩)⟩, ⟨rfl, rfl⟩⟩, ?_⟩
    exact check_recover start _

theorem inv_run {d : Disk} {data : Buf → Block} {es : List Event}
    (hrun : Run (Restrict (fun s e => clean → CleanFail s e) (Step start))
      (powerOn start d data) es s) : Inv clean s :=
  hrun.invariant (P := Inv clean) (inv_powerOn start d data) fun _ _ _ h hs =>
    inv_step h hs.1 hs.2

end Xv6.Bio
