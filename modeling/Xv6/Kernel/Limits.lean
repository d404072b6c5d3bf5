import Mathlib.Data.Fintype.Card
import Xv6.Kernel.Slots

/-!
# xv6 — resource limits

`setrlimit` lowers or raises `nofile_max` and `cpu_ticks_max`; the first is
tested by `sys_open` only, and the second is stored after a test that a negative
number passes.

## Results

* `nofileBounded_run`  — `nofile_max` always lies between 1 and `NOFILE`.
* `openFiles_within`   — a process stays below `nofile_max` as long as nobody
  calls `dup` or `pipe` at the limit.
* `openFiles_exceeded` — with `dup` it does not.
* `limits_bounded`     — both limits stay within the system's maxima, as long as
  nobody passes a negative CPU limit.
* `cpuLimit_negative`  — with one, `cpu_ticks_max` exceeds the maximum.
-/

namespace Xv6.Kernel

open Prog TransitionRun Function

variable {e : Event} {q : Pid} {c : Core}

/-! ### Counting descriptors -/

theorem countFiles_eq_card (o : Fin NOFILE → Option FPtr) :
    countFiles o = (Finset.univ.filter fun fd => (o fd).isSome = true).card := by
  unfold countFiles
  congr 1
  ext fd
  simp

/-- A descriptor that was free and is used. -/
theorem countFiles_set {o : Fin NOFILE → Option FPtr} {fd : Fin NOFILE} (h : o fd = none)
    (f : FPtr) : countFiles (update o fd (some f)) = countFiles o + 1 := by
  rw [countFiles_eq_card, countFiles_eq_card]
  have hins : (Finset.univ.filter fun i => (update o fd (some f) i).isSome = true) =
      insert fd (Finset.univ.filter fun i => (o i).isSome = true) := by
    ext i
    by_cases hi : i = fd <;> simp [hi]
  rw [hins, Finset.card_insert_of_notMem (by simp [h])]

/-- A descriptor that is closed. -/
theorem countFiles_clear_le (o : Fin NOFILE → Option FPtr) (fd : Fin NOFILE) :
    countFiles (update o fd none) ≤ countFiles o := by
  rw [countFiles_eq_card, countFiles_eq_card]
  refine Finset.card_le_card fun i => ?_
  by_cases hi : i = fd <;> simp [hi]

theorem countFiles_none : countFiles (fun _ => none) = 0 := by simp [countFiles]

theorem countFiles_le (o : Fin NOFILE → Option FPtr) : countFiles o ≤ NOFILE := by
  rw [countFiles_eq_card]
  exact (Finset.card_le_univ _).trans (by simp)

/-- There is a free descriptor. -/
theorem countFiles_lt {o : Fin NOFILE → Option FPtr} {fd : Fin NOFILE} (h : o fd = none) :
    countFiles o < NOFILE := by
  have hset := countFiles_set h 0
  have hle := countFiles_le (update o fd (some 0))
  omega

/-- A child has the descriptors of its parent, its slot having had none. -/
theorem inheritFiles_none (parent : Fin NOFILE → Option FPtr) {slot : Fin NOFILE → Option FPtr}
    (h : ∀ fd, slot fd = none) : inheritFiles parent slot = parent := by
  funext fd
  simp [inheritFiles, h]

/-! ### The limit on open files -/

/-- `nofile_max` of a process in use is a positive number of descriptors. -/
def NofileBounded (c : Core) : Prop :=
  c.state ≠ .unused → 1 ≤ c.nofileMax ∧ c.nofileMax ≤ NOFILE

/-- Where the limits of a process in use come from: it had them before, or its parent has
them, or its own call has set one. -/
theorem Change.limits {T : Table} (hc : Change T e q c) (hs : c.state ≠ .unused) :
    (∃ p, (T.proc p).state ≠ .unused ∧ c.nofileMax = (T.proc p).nofileMax ∧
      c.cpuTicksMax = (T.proc p).cpuTicksMax ∧
      (c.nofileCur = NOFILE ∨ c.nofileCur = (T.proc p).nofileCur)) ∨
    ∃ call fails, e = .call q call fails ∧ (T.proc q).state = .running ∧ Own (T.proc q) call c := by
  cases hc with
  | parent par => exact .inl ⟨q, hs, rfl, rfl, .inr rfl⟩
  | wake par hs' | exit par status fails he hs' | dispatch he hs' | resume he hs'
  | timer user he hs' | fault va fails he hs' => exact .inl ⟨q, by simp [hs'], rfl, rfl, .inr rfl⟩
  | forkFail pid hs' | reaped hs' => exact absurd rfl hs
  | born p pid hs' hp => exact .inl ⟨p, by simp [hp], rfl, rfl, .inl rfl⟩
  | sleep ch b hs' =>
    refine .inl ⟨q, ?_, rfl, rfl, .inr rfl⟩
    rcases hs' with ⟨-, hs'⟩ | ⟨-, hs', -⟩ <;> simp [hs']
  | kill p pid fails he hpid =>
    exact .inl ⟨q, fun hs' => hs (by simp [Core.kill, hs']), rfl, rfl, .inr rfl⟩
  | own call fails c' he hs' ho => exact .inr ⟨call, fails, he, hs', ho⟩

theorem nofileBounded_change {T : Table} (h : ∀ p, NofileBounded (T.proc p)) (hc : Change T e q c) :
    NofileBounded c := by
  intro hs
  obtain ⟨p, hp, hmax, -⟩ | ⟨call, fails, -, hrun, ho⟩ := hc.limits hs
  · rw [hmax]
    exact h p hp
  · have hold := h q (by simp [hrun])
    cases ho with
    | nofileLimit n h0 hmax hlt => exact ⟨h0, hmax⟩
    | _ => exact hold

/-- A process in use has at most `nofile_max` descriptors. -/
def FilesWithin (c : Core) : Prop :=
  c.state ≠ .unused → (countFiles c.ofile : Int) ≤ c.nofileMax

/-- The process that calls `dup` or `pipe`, and the number of descriptors the
call makes. -/
def Event.newFds : Event → Option (Pid × Nat)
  | .call p (.dup _) _ => some (p, 1)
  | .call p (.pipe _) _ => some (p, 2)
  | _ => none

/-- Nobody calls `dup` or `pipe` where the limit, and not the size of the
descriptor table, would forbid it. -/
def WithinLimit (k : State) (e : Event) : Prop :=
  ∀ x ∈ e.newFds, (openFiles (k.proc x.1) + x.2 : Int) ≤ (k.proc x.1).nofileMax ∨
    NOFILE < openFiles (k.proc x.1) + x.2

instance (k : State) (e : Event) : Decidable (WithinLimit k e) :=
  inferInstanceAs (Decidable (∀ x ∈ e.newFds, _))

theorem filesWithin_change {k : State} (hC : WithinLimit k e)
    (hclosed : Idle (k.table.proc q)) (hmax : NofileBounded (k.table.proc q))
    (h : ∀ p, FilesWithin (k.table.proc p)) (hc : Change k.table e q c) : FilesWithin c := by
  cases hc with
  | parent par => exact h q
  | wake par hs | dispatch he hs | resume he hs | timer user he hs | fault va fails he hs =>
    exact fun _ => h q (by simp only [hs]; decide)
  | forkFail pid hs | reaped hs => exact fun hs' => absurd rfl hs'
  | born p pid hs hp =>
    intro _
    have hfiles := inheritFiles_none (k.table.proc p).ofile (hclosed (.inl hs)).1
    simp only [Core.child, Core.started, hfiles]
    exact h p (by simp only [hp]; decide)
  | exit par status fails he hs =>
    intro _
    have := (hmax (by simp only [hs]; decide)).1
    simp only [Core.setFiles, countFiles_none]
    omega
  | sleep ch b hs =>
    exact fun _ => h q (by rcases hs with ⟨-, hs⟩ | ⟨-, hs, -⟩ <;> simp only [hs] <;> decide)
  | kill p pid fails he hpid =>
    intro hs
    refine h q fun hs' => hs ?_
    simp only [Core.kill, hs']
    decide
  | own call fails c' he hs ho =>
    have hold := h q (by simp only [hs]; decide)
    intro _
    subst he
    cases ho with
    | dup arg fd f hfd =>
      -- there is a free descriptor, so the limit must allow one more
      have hlt := countFiles_lt hfd
      simp only [Core.setFd, countFiles_set hfd]
      rcases hC (q, 1) rfl with hC | hC
      · exact hC
      · exact absurd hlt (not_lt.mpr (Nat.le_of_lt_succ hC))
    | close arg fd =>
      have := countFiles_clear_le (k.table.proc q).ofile fd
      simp only [Core.setFd]
      omega
    | opn path omode fd f hlt hfd =>
      simp only [Core.setFd, countFiles_set hfd]
      omega
    | pipe fdarray fd0 fd1 f0 f1 hne h0 h1 =>
      have hfree : update (k.table.proc q).ofile fd0 (some f0) fd1 = none := by
        rw [update_of_ne hne.symm, h1]
      have hlt := countFiles_lt hfree
      rw [countFiles_set h0] at hlt
      simp only [Core.setFd, countFiles_set hfree, countFiles_set h0]
      rcases hC (q, 2) rfl with hC | hC
      · exact hC
      · exact absurd hlt (not_lt.mpr (Nat.le_of_lt_succ hC))
    | chdir path ip | cpuLimit n h0 hmax hlt => exact hold
    | nofileLimit n h0 hmax hlt => exact hlt.le

variable {k s : State} {es : List Event}

theorem nofileBounded_first (pid : Int) (cwd : Option Fs.IPtr) :
    NofileBounded (Core.first pid cwd) :=
  fun _ => ⟨by simp [Core.first, Core.started, NOFILE], le_rfl⟩

theorem nofileBounded_run (hk : Booted k) (hrun : Run Step k es s) (p : Pid) :
    NofileBounded (s.proc p).core :=
  core_invariant (P := NofileBounded) hk (fun hs => absurd rfl hs) nofileBounded_first
    (fun _ h hc => nofileBounded_change h hc) hrun.restrict_true p

/-- The invariant of the limit on open files. -/
structure FilesLimited (c : Core) : Prop where
  closed : Idle c
  bounded : NofileBounded c
  within : FilesWithin c

theorem filesLimited_first (pid : Int) (cwd : Option Fs.IPtr) :
    FilesLimited (Core.first pid cwd) where
  closed := idle_first pid cwd
  bounded := nofileBounded_first pid cwd
  within _ := by
    have hnone : (Core.first pid cwd).ofile = fun _ => none := rfl
    exact Int.natCast_nonneg _

theorem filesLimited_change (hC : WithinLimit k e) (h : ∀ p, FilesLimited (k.table.proc p))
    (hc : Change k.table e q c) : FilesLimited c where
  closed := idle_change (h q).closed hc
  bounded := nofileBounded_change (fun p => (h p).bounded) hc
  within := filesWithin_change hC (h q).closed (h q).bounded (fun p => (h p).within) hc

/--
**The limit on open files holds, if nobody calls `dup` or `pipe` at it.** In every
run in which these calls are only made where the limit leaves room for the new
descriptors (or the descriptor table does not), every process in use has at most
`nofile_max` open files.
-/
theorem openFiles_within (hk : Booted k) (hrun : Run (Restrict WithinLimit Step) k es s) (p : Pid)
    (hp : (s.proc p).state ≠ .unused) : (openFiles (s.proc p) : Int) ≤ (s.proc p).nofileMax := by
  have hzero : FilesLimited Proc.zero.core :=
    ⟨fun _ => ⟨fun _ => rfl, rfl⟩, fun hs => absurd rfl hs, fun hs => absurd rfl hs⟩
  exact (core_invariant hk hzero filesLimited_first filesLimited_change hrun p).within hp

/-- init opens the root directory and sets its limit to two files. -/
def limitTwo : List Event :=
  [.dispatch 0 [], .call 0 (.opn (some [Fs.slash]) 0) [], .call 0 (.setrlimit RLIMIT_NOFILE 2) []]

/-- Then it calls `dup` `n` times. -/
def limitTwoDups (n : Nat) : List Event := limitTwo ++ List.replicate n (.call 0 (.dup 0) [])

/-- The limit leaves room for one `dup`. -/
theorem openFiles_within_dup : ∃ k s, Booted k ∧
    Run (Restrict WithinLimit Step) k (limitTwoDups 1) s ∧
    openFiles (s.proc 0) = 2 ∧ (openFiles (s.proc 0) : Int) ≤ (s.proc 0).nofileMax := by
  obtain ⟨k, s, hk, hrun, hs⟩ := run_of_bootRun (limitTwoDups 1) (C := WithinLimit)
    (f := fun s => ((s.proc 0).state, openFiles (s.proc 0))) (b := (.running, 2)) fresh_small
    (by decide +kernel)
  simp only [Prod.mk.injEq] at hs
  exact ⟨k, s, hk, hrun, hs.2, openFiles_within hk hrun 0 (by rw [hs.1]; decide)⟩

/-- **`dup` does not look at the limit.** After a second one there are three open
files. -/
theorem openFiles_exceeded : ∃ k s, Booted k ∧ Run Step k (limitTwoDups 2) s ∧
    (s.proc 0).state = .running ∧ (s.proc 0).nofileMax < (openFiles (s.proc 0) : Int) := by
  obtain ⟨k, s, hk, hrun, hs⟩ := run_of_bootRun (limitTwoDups 2) (C := fun _ _ => True)
    (f := fun s => ((s.proc 0).state, openFiles (s.proc 0), (s.proc 0).nofileMax))
    (b := (.running, 3, 2)) fresh_small (by decide +kernel)
  simp only [Prod.mk.injEq] at hs
  refine ⟨k, s, hk, hrun.of_restrict, hs.1, ?_⟩
  rw [hs.2.1, hs.2.2]
  decide

/-! ### The system's maxima -/

/-- `cpu_ticks_max` of a process in use lies within the system's maximum. -/
def CpuBounded (c : Core) : Prop :=
  c.state ≠ .unused → 1 ≤ c.cpuTicksMax ∧ c.cpuTicksMax ≤ MAX_CPU_TICKS

/-- The CPU limit that a call asks for. -/
def Call.cpuLimit : Call → Option Int
  | .setrlimit resource n => if resource = RLIMIT_CPU then some n else none
  | _ => none

/-- The same for an event. -/
def Event.cpuLimit : Event → Option Int
  | .call _ c _ => c.cpuLimit
  | _ => none

/-- No negative number is passed as a CPU limit. -/
def CpuLimitNonneg (_ : State) (e : Event) : Prop := ∀ n ∈ e.cpuLimit, 0 ≤ n

instance (k : State) (e : Event) : Decidable (CpuLimitNonneg k e) :=
  inferInstanceAs (Decidable (∀ n ∈ e.cpuLimit, 0 ≤ n))

theorem u64_of_nonneg {n : Int} (h : 0 ≤ n) (hmax : n ≤ MAX_CPU_TICKS) : (u64 n : Int) = n := by
  have hlt : n < 2 ^ 64 := lt_of_le_of_lt hmax (by decide)
  rw [u64, Int.emod_eq_of_lt h hlt, Int.toNat_of_nonneg h]

theorem cpuBounded_change {T : Table} (hC : CpuLimitNonneg k e) (h : ∀ p, CpuBounded (T.proc p))
    (hc : Change T e q c) : CpuBounded c := by
  intro hs
  obtain ⟨p, hp, -, hmax, -⟩ | ⟨call, fails, rfl, hrun, ho⟩ := hc.limits hs
  · rw [hmax]
    exact h p hp
  · have hold := h q (by simp [hrun])
    cases ho with
    | cpuLimit n h0 hmax hlt =>
      have hn : 0 ≤ n := hC n rfl
      have hu := u64_of_nonneg hn hmax
      dsimp only
      omega
    | _ => exact hold

/--
**Limits stay within the system's maxima, if no CPU limit asked for is
negative.** Then for every process in use `nofile_max` lies between 1 and
`NOFILE` and `cpu_ticks_max` between 1 and `MAX_CPU_TICKS`.
-/
theorem limits_bounded (hk : Booted k) (hrun : Run (Restrict CpuLimitNonneg Step) k es s)
    (p : Pid) (hp : (s.proc p).state ≠ .unused) :
    (1 ≤ (s.proc p).nofileMax ∧ (s.proc p).nofileMax ≤ NOFILE) ∧
    (1 ≤ (s.proc p).cpuTicksMax ∧ (s.proc p).cpuTicksMax ≤ MAX_CPU_TICKS) := by
  have hfirst : ∀ pid cwd, CpuBounded (Core.first pid cwd) := by
    intro pid cwd _
    simp [Core.first, Core.started, MAX_CPU_TICKS]
  have hcpu := core_invariant hk (fun hs => absurd rfl hs) hfirst
    cpuBounded_change hrun p
  exact ⟨nofileBounded_run hk hrun.of_restrict p hp, hcpu hp⟩

/-- init lowers its limits, and a child inherits them. -/
def lowerLimits : List Event :=
  [.dispatch 0 [], .call 0 (.setrlimit RLIMIT_CPU 7) [], .call 0 (.setrlimit RLIMIT_NOFILE 3) [],
    .call 0 .fork []]

theorem limits_bounded_child : ∃ k s, Booted k ∧
    Run (Restrict CpuLimitNonneg Step) k lowerLimits s ∧
    (s.proc 1).cpuTicksMax = 7 ∧ (s.proc 1).nofileMax = 3 ∧
    (1 ≤ (s.proc 1).nofileMax ∧ (s.proc 1).nofileMax ≤ NOFILE) ∧
    (1 ≤ (s.proc 1).cpuTicksMax ∧ (s.proc 1).cpuTicksMax ≤ MAX_CPU_TICKS) := by
  obtain ⟨k, s, hk, hrun, hs⟩ := run_of_bootRun lowerLimits (C := CpuLimitNonneg)
    (f := fun s => ((s.proc 1).state, (s.proc 1).cpuTicksMax, (s.proc 1).nofileMax))
    (b := (.runnable, 7, 3)) fresh_small (by decide +kernel)
  simp only [Prod.mk.injEq] at hs
  exact ⟨k, s, hk, hrun, hs.2.1, hs.2.2, limits_bounded hk hrun 1 (by rw [hs.1]; decide)⟩

/-- init sets its CPU limit to -1. -/
def negativeLimit : List Event :=
  [.dispatch 0 [], .call 0 (.setrlimit RLIMIT_CPU (-1)) []]

/-- **A negative CPU limit passes the tests.** Stored in an unsigned field it is
far above the maximum. -/
theorem cpuLimit_negative : ∃ k s, Booted k ∧ Run Step k negativeLimit s ∧
    (s.proc 0).state = .running ∧ MAX_CPU_TICKS < (s.proc 0).cpuTicksMax := by
  obtain ⟨k, s, hk, hrun, hs⟩ := run_of_bootRun negativeLimit (C := fun _ _ => True)
    (f := fun s => ((s.proc 0).state, (s.proc 0).cpuTicksMax))
    (b := (.running, 2 ^ 64 - 1)) fresh_small (by decide +kernel)
  simp only [Prod.mk.injEq] at hs
  refine ⟨k, s, hk, hrun.of_restrict, hs.1, ?_⟩
  rw [hs.2]
  decide

end Xv6.Kernel
