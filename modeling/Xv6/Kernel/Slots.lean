import Xv6.Kernel.Boot

/-!
# xv6 — slots of the process table are recycled clean

`allocproc` takes an UNUSED slot and sets some of its fields; the others it
expects as `freeproc` left them. `killed` is one of those. `kkill` compares
process ids without looking at the state of the slot, and an UNUSED slot has
process id 0: `kill(0)` marks one, and the next process to get it starts killed.

## Results

* `Idle`, `CoreClean`   — what the code expects of a slot.
* `slots_clean`         — without `kill(0)`, every UNUSED slot is clean, so a
  new process is not killed, and `kkill` only answers 0 if it marked a process.
* `killed_before_birth` — with it, none of this holds.
-/

namespace Xv6.Kernel

open Prog TransitionRun

variable {c : Core} {q : Pid}

/-! ### The invariant -/

/-- A slot that is not in use, or whose process has exited, holds nothing; `freeproc`
relies on it. -/
def Idle (c : Core) : Prop :=
  c.state = .unused ∨ c.state = .zombie → (∀ fd, c.ofile fd = none) ∧ c.cwd = none

theorem Idle.of_live (h : c.state ≠ .unused) (h' : c.state ≠ .zombie) : Idle c :=
  fun hs => (hs.elim h h').elim

/-- Every change of one entry keeps this. -/
theorem idle_change {T : Table} {e : Event} (h : Idle (T.proc q)) (hc : Change T e q c) :
    Idle c := by
  cases hc with
  | parent par => exact h
  | wake par hs => exact .of_live (by simp) (by simp)
  | forkFail pid hs => exact fun _ => h (.inl hs)
  | born p pid hs hp => exact .of_live (by simp [Core.child]) (by simp [Core.child])
  | exit par status fails he hs => exact fun _ => ⟨fun _ => rfl, rfl⟩
  | reaped hs => exact fun _ => h (.inr hs)
  | sleep ch b hs => exact .of_live (by simp [Core.sleep]) (by simp [Core.sleep])
  | dispatch he hs => exact .of_live (by simp [Core.dispatched]) (by simp [Core.dispatched])
  | resume he hs =>
    exact .of_live (by simp [Core.dispatched, Core.awake]) (by simp [Core.dispatched, Core.awake])
  | timer user he hs => exact .of_live (by simp [Core.timer]) (by simp [Core.timer])
  | fault va fails he hs => exact .of_live (by simp [hs]) (by simp [hs])
  | kill p pid fails he hpid =>
    intro hs
    simp only [Core.kill] at hs
    split at hs
    · simp at hs
    · exact h hs
  | own call fails c' he hs ho =>
    have hstate : c.state = .running := by cases ho <;> exact hs
    exact .of_live (by simp [hstate]) (by simp [hstate])

/-- An UNUSED entry of the table is as `allocproc` expects it. -/
structure CoreClean (c : Core) : Prop where
  pid : c.state = .unused → c.pid = 0
  killed : c.state = .unused → c.killed = false
  chan : c.state = .unused → c.chan = none
  table : c.state = .unused → c.hasTable = false

theorem CoreClean.of_live (h : c.state ≠ .unused) : CoreClean c :=
  ⟨fun hs => absurd hs h, fun hs => absurd hs h, fun hs => absurd hs h, fun hs => absurd hs h⟩

theorem coreClean_freed (c : Core) : CoreClean c.freed :=
  ⟨fun _ => rfl, fun _ => rfl, fun _ => rfl, fun _ => rfl⟩

/-- The event is `kill(0)`. -/
def Event.isKillZero : Event → Bool
  | .call _ (.kill pid) _ => pid = 0
  | _ => false

/-- The event is not `kill(0)`. -/
def NoKillZero (_ : State) (e : Event) : Prop := e.isKillZero = false

instance (k : State) (e : Event) : Decidable (NoKillZero k e) :=
  inferInstanceAs (Decidable (_ = _))

/-- A change of one entry keeps it clean, unless it is `kill(0)`. -/
theorem coreClean_change {k : State} {T : Table} {e : Event} (hC : NoKillZero k e)
    (h : CoreClean (T.proc q)) (hc : Change T e q c) : CoreClean c := by
  cases hc with
  | parent par => exact ⟨h.pid, h.killed, h.chan, h.table⟩
  | wake par hs | exit par status fails he hs => exact .of_live (by simp)
  | forkFail pid hs | reaped hs => exact coreClean_freed _
  | born p pid hs hp => exact .of_live (by simp [Core.child])
  | sleep ch b hs => exact .of_live (by simp [Core.sleep])
  | dispatch he hs => exact .of_live (by simp [Core.dispatched])
  | resume he hs => exact .of_live (by simp [Core.dispatched, Core.awake])
  | timer user he hs => exact .of_live (by simp [Core.timer])
  | fault va fails he hs => exact .of_live (by simp [hs])
  | kill p pid fails he hpid =>
    subst he
    -- the slot found has a process id other than 0, so it is in use
    have hne : pid ≠ 0 := by simpa [NoKillZero, Event.isKillZero] using hC
    have hlive : (T.proc q).state ≠ .unused := fun hs => hne (hpid ▸ h.pid hs)
    refine .of_live ?_
    simp only [Core.kill]
    split
    · simp
    · exact hlive
  | own call fails c' he hs ho =>
    have hstate : c.state = .running := by cases ho <;> exact hs
    exact .of_live (by simp [hstate])

variable {k s : State} {es : List Event}

theorem idle_first (pid : Int) (cwd : Option Fs.IPtr) : Idle (Core.first pid cwd) :=
  .of_live nofun nofun

theorem idle_run (hk : Booted k) (hrun : Run Step k es s) (p : Pid) : Idle (s.proc p).core :=
  core_invariant (P := Idle) hk (fun _ => ⟨fun _ => rfl, rfl⟩) idle_first
    (fun _ h hc => idle_change (h _) hc) hrun.restrict_true p

theorem coreClean_run (hk : Booted k) (hrun : Run (Restrict NoKillZero Step) k es s) (p : Pid) :
    CoreClean (s.proc p).core :=
  core_invariant (P := CoreClean) hk ⟨fun _ => rfl, fun _ => rfl, fun _ => rfl, fun _ => rfl⟩
    (fun _ _ => .of_live (by simp [Core.first]))
    (fun hC h hc => coreClean_change hC (h _) hc) hrun p

/-! ### What follows for allocproc and kkill -/

/-- A slot is as a new process needs it. -/
def CleanSlot (pr : Proc) : Prop :=
  pr.pid = 0 ∧ pr.killed = false ∧ pr.chan = none ∧ (∀ fd, pr.ofile fd = none) ∧
    pr.pagetable = none

theorem CoreClean.cleanSlot {pr : Proc} (h : CoreClean pr.core) (hf : Idle pr.core)
    (hs : pr.state = .unused) : CleanSlot pr := by
  refine ⟨h.pid hs, h.killed hs, h.chan hs, (hf (.inl hs)).1, ?_⟩
  simpa [Proc.core] using h.table hs

/-- `allocproc` does not touch `killed`. -/
theorem allocproc_killed {k k' : State} (h : allocproc k = .ok (some q, k')) :
    (k.proc q).state = .unused ∧ (k'.proc q).killed = (k.proc q).killed := by
  obtain ⟨hs, pid, hT⟩ := wp_ok (wp_allocproc rfl) h
  refine ⟨hs, ?_⟩
  have hcore : (k'.proc q).core = (k.proc q).core.started pid := by
    rw [← State.table_proc, hT, Table.set_same, State.table_proc]
  exact congrArg Core.killed hcore

/-- `kkill` marks the first slot with the process id, whatever its state. -/
theorem kkill_zero {k k' : State} {pid : Int} (h : kkill pid k = .ok (0, k')) :
    ∃ q, (k.proc q).pid = pid ∧ (k'.proc q).killed = true := by
  have hwp : wp (kkill pid) (fun r k' => r = 0 →
      ∃ q, (k.proc q).pid = pid ∧ (k'.proc q).killed = true) (fun _ => True) k := by
    simp only [kkill, wp_bind, wp_gets]
    split
    · exact wp_pure.mpr fun h => absurd h (by decide)
    · rename_i q hq
      have hpid : (k.proc q).pid = pid := by simpa using List.find?_some hq
      simp only [wp_bind, wp_updProc, wp_pure]
      refine fun _ => ⟨q, hpid, ?_⟩
      rw [State.setProc_proc_same]
      split <;> rfl
  exact wp_ok hwp h rfl

/--
**A new process starts clean, if nobody calls `kill(0)`.** Then every UNUSED slot
has process id 0, is not killed, waits for nothing and has neither files nor
memory; what `allocproc` returns is not killed; and `kkill` of any process id but
0 answers 0 only if it marked a process that is not UNUSED.
-/
theorem slots_clean (hk : Booted k) (hrun : Run (Restrict NoKillZero Step) k es s) :
    (∀ p, (s.proc p).state = .unused → CleanSlot (s.proc p)) ∧
    (∀ q s', allocproc s = .ok (some q, s') → (s'.proc q).killed = false) ∧
    (∀ pid s', pid ≠ 0 → kkill pid s = .ok (0, s') →
      ∃ q, (s.proc q).state ≠ .unused ∧ (s.proc q).pid = pid ∧ (s'.proc q).killed = true) := by
  have hclean := coreClean_run hk hrun
  have hfiles := idle_run hk hrun.of_restrict
  refine ⟨fun p hs => (hclean p).cleanSlot (hfiles p) hs, fun q s' h => ?_, fun pid s' hpid h => ?_⟩
  · obtain ⟨hs, hkilled⟩ := allocproc_killed h
    rw [hkilled]
    exact (hclean q).killed hs
  · obtain ⟨q, hq, hkilled⟩ := kkill_zero h
    refine ⟨q, fun hs => hpid ?_, hq, hkilled⟩
    rw [← hq]
    exact (hclean q).pid hs

/-- init runs and makes a child, which is killed, exits and is waited for. -/
def childLife : List Event :=
  [.dispatch 0 [], .call 0 .fork [], .dispatch 1 [], .call 0 (.kill 2) [],
    .call 1 (.exit (-1)) [], .call 0 (.wait 0) []]

theorem slots_clean_childLife : ∃ k s, Booted k ∧ Run (Restrict NoKillZero Step) k childLife s ∧
    (s.proc 1).state = .unused ∧ CleanSlot (s.proc 1) := by
  obtain ⟨k, s, hk, hrun, hs⟩ := run_of_bootRun childLife (C := NoKillZero)
    (f := fun s => (s.proc 1).state) (b := .unused) fresh_small (by decide +kernel)
  exact ⟨k, s, hk, hrun, hs, (slots_clean hk hrun).1 1 hs⟩

/-- **A process is killed before it is born.** `kkill(0)` answers 0 although every
slot it marked is UNUSED, and `allocproc` returns that slot with `killed` set. -/
theorem killed_before_birth : ∃ k s s' s'', Booted k ∧ Run Step k [.dispatch 0 []] s ∧
    kkill 0 s = .ok (0, s') ∧ (∀ q, (s'.proc q).killed = true → (s'.proc q).state = .unused) ∧
    allocproc s' = .ok (some 1, s'') ∧ (s''.proc 1).killed = true := by
  obtain ⟨k, s, hk, hrun, hs⟩ := run_of_bootRun [.dispatch 0 []] (C := fun _ _ => True)
    (f := fun s => (kkill 0 s).toOption.bind fun x => (allocproc x.2).toOption.map fun y =>
      (x.1, decide (∀ q, (x.2.proc q).killed = true → (x.2.proc q).state = .unused), y.1,
        (y.2.proc 1).killed))
    (b := some (0, true, some 1, true)) fresh_small (by decide +kernel)
  obtain ⟨⟨r, s'⟩, hkill, hs⟩ := Option.bind_eq_some_iff.mp hs
  obtain ⟨⟨o, s''⟩, halloc, hs⟩ := Option.map_eq_some_iff.mp hs
  simp only [Prod.mk.injEq, decide_eq_true_eq] at hs
  obtain ⟨rfl, hunused, rfl, hkilled⟩ := hs
  exact ⟨k, s, s', s'', hk, hrun.of_restrict, ok_of_toOption hkill, hunused,
    ok_of_toOption halloc, hkilled⟩

end Xv6.Kernel
