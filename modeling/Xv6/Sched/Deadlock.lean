import Xv6.Sched.Reaping

/-!
# xv6 — the order in which locks are taken

`wait_lock` and the locks of conditions come before the locks of processes, of which nobody
has two.

* `fits_codeOf` — every function keeps to this order.
* `no_deadlock` — a CPU that spins for a lock does not spin in vain.
-/

namespace Xv6.Sched

open Kernel (Pid ProcState)
open TransitionRun Threads

variable {s : State} {c : Cpu} {l next : Loc} {e : Event} {es : List Event}

/-- The locks of processes are taken last. -/
def Lock.rank : Lock → Nat
  | .proc _ => 1
  | _ => 0

/-- What a function does next is in order. -/
def Fits (l : Loc) : Except Panic Code → Prop
  | .ok i => Ordered Lock.rank l.holds i
  | .error _ => True

theorem fits_sched : Fits l (schedCode s c next) := by
  unfold schedCode
  repeat' split
  all_goals trivial

theorem fits_exit {d : Data} {p : Pid} {status : Int} : Fits l (exitCode d p status) := by
  unfold exitCode
  split <;> trivial

/-- The next statement of a function is in order. -/
theorem fits_next (h : Inv s) (hf : Family s) {ok : Bool} {r : Except Panic Code}
    (hcode : codeOf s ⟨c, .next ok⟩ = some r) : Fits (s.loc (s.cur c)) r := by
  have hok := h.ok (s.cur c)
  have hform := hf.form (s.cur c)
  have hcproc := h.cproc_eq (c := c)
  rw [codeOf] at hcode
  generalize s.loc (s.cur c) = l at *
  cases l with
  | user | held x => cases hcode
  | sched pc | kill pid pc | fork p pc | exit p status pc | wait p pc | clock pc ret
  | yield p pc ret =>
    cases hcode
    cases pc <;> simp only [SchedPc.code, KillPc.code, ForkPc.code, ExitPc.code, WaitPc.code,
      ClockPc.code, YieldPc.code, forProc, fits_sched] <;> (repeat' split) <;>
      simp [Fits, Ordered, Loc.holds, SchedPc.holds, KillPc.holds, ForkPc.holds, ExitPc.holds,
        WaitPc.holds, ClockPc.holds, YieldPc.holds, Lock.rank]
  | wake ch pc ret =>
    cases hcode
    -- nobody calls `wakeup` with the lock of a process
    have hret : ∀ lk ∈ ret.holds, lk.rank = 0 := by
      have hwakes := hform.2
      unfold Loc.Wakes at hwakes
      split at hwakes <;> simp_all [Loc.holds, ClockPc.holds, ExitPc.holds, Lock.rank]
    cases pc <;> simp only [WakePc.code, forProc] <;> (repeat' split) <;>
      simp [Fits, Ordered, Loc.holds, WakePc.holds]
    intro lk hlk
    rw [hret lk hlk]
    exact Nat.one_pos
  | sleep p ch lk pc ret =>
    obtain rfl := Option.some.inj hcode
    -- nor `sleep`
    have hlk : lk.rank = 0 := by
      obtain ⟨rfl, -⟩ | ⟨-, x, rfl⟩ := hform
      · rfl
      · obtain ⟨rfl⟩ := hok.2.2.2
        rfl
    cases pc <;> simp only [SleepPc.code, fits_sched] <;>
      simp [Fits, Ordered, Loc.holds, SleepPc.holds, hlk]
    exact Nat.one_pos
  | forkret p =>
    cases hcode
    split
    · trivial
    · rename_i q hq
      obtain rfl := Option.some.inj (hq.symm.trans ((hcproc rfl).trans hok))
      exact List.mem_singleton_self _

/-- **Locks are taken in order**: nobody has the lock of a process and takes another one. -/
theorem fits_codeOf (h : Inv s) (hf : Family s) {r : Except Panic Code}
    (hcode : codeOf s e = some r) : Fits (s.loc (s.cur e.cpu)) r := by
  obtain ⟨c, act⟩ := e
  cases act with
  | next ok => exact fits_next h hf hcode
  | trap dev =>
    simp only [codeOf, code] at hcode
    split at hcode <;> cases hcode
    trivial
  | _ =>
    simp only [codeOf] at hcode
    generalize s.loc (s.cur c) = l at *
    unfold code at hcode
    split at hcode
    all_goals first | contradiction | cases hcode
    all_goals repeat' split
    all_goals first | exact fits_exit | simp [Fits, Ordered, Loc.holds]

/-- A CPU with a lock has something to do. -/
theorem exists_code (h : Inv s) (hheld : s.held Loc.holds c ≠ []) :
    ∃ i act, codeOf s ⟨c, act⟩ = some (.ok i) := by
  have hok := h.ok (s.cur c)
  have hcproc := h.cproc_eq (c := c)
  simp only [codeOf]
  generalize hl : s.loc (s.cur c) = l at hok hcproc
  cases l with
  | user => exact absurd (congrArg Loc.holds hl) hheld
  | held x => exact ⟨_, .unlock, rfl⟩
  | sched | wake | kill | fork | wait | clock => exact ⟨_, .next true, rfl⟩
  | forkret p =>
    refine ⟨.release (.proc p) .user, .next true, ?_⟩
    simp only [code, withProc, (hcproc rfl).trans hok]
  | exit p status pc =>
    cases pc with
    | sched =>
      exact ⟨_, .next true, congrArg some (h.sched _ hl hok rfl (by simp [Loc.onState])).2.2⟩
    | dead =>
      have hon := (h.on c p (Tid.eq_of_me hok)).2.2
      rw [← Tid.eq_of_me hok, hl] at hon
      cases hon
    | _ => exact ⟨_, .next true, rfl⟩
  | sleep p ch lk pc ret | yield p pc ret =>
    cases pc with
    | sched =>
      exact ⟨_, .next true, congrArg some (h.sched _ hl hok.1 rfl (by simp [Loc.onState])).2.2⟩
    | _ => exact ⟨_, .next true, rfl⟩

/--
**No deadlock.** In every state of every run, a CPU that spins for a lock does not own it, so
`acquire` cannot panic; and another CPU can take a step, which owns this lock or the lock of
a process. What is released is owned, so that `release` cannot panic.
-/
theorem no_deadlock (hrun : Run Step boot es s) :
    (∀ e lk next, codeOf s e = some (.ok (.acquire lk next)) → s.owner lk ≠ some e.cpu ∧
      ∀ c, s.owner lk = some c → ∃ e' s' lk', Step s e' s' ∧ e'.cpu ≠ e.cpu ∧
        s.owner lk' = some e'.cpu ∧ (lk' = lk ∨ ∃ q, lk' = .proc q)) ∧
    ∀ e lk next, codeOf s e = some (.ok (.release lk next)) → s.owner lk = some e.cpu := by
  obtain ⟨h, hf⟩ := family_run hrun
  refine ⟨fun e lk next hcode => ?_, fun e lk next hcode =>
    (h.disc.own _ _).mpr (fits_codeOf h hf hcode)⟩
  -- a lock of the rank or more is not owned
  have hnot : ∀ lk', s.owner lk' = some e.cpu → lk'.rank < lk.rank := by
    intro lk' hown
    exact fits_codeOf h hf hcode lk' ((h.disc.own _ _).mp hown)
  refine ⟨fun hown => lt_irrefl _ (hnot lk hown), fun c hown => ?_⟩
  obtain ⟨c', lk', i, s', hown', hlk, ⟨act, hi⟩, he⟩ := h.disc.exists_exec (n := 1) Lock.rank
    (fun c i => ∃ act, codeOf s ⟨c, act⟩ = some (.ok i))
    (fun lk => by cases lk <;> simp [Lock.rank])
    (fun c i hi => hi.elim fun act hi => fits_codeOf h hf hi) (fun c => exists_code h) hown
  refine ⟨⟨c', act⟩, s', lk', step_iff.mpr ⟨i, hi, he⟩, ?_, hown', hlk.imp_right fun hlt => ?_⟩
  · rintro rfl
    have := hnot lk' hown'
    rcases hlk with rfl | hlt <;> omega
  · cases lk' with
    | proc q => exact ⟨q, rfl⟩
    | _ => exact absurd hlt (Nat.not_lt_zero _)

/-- Both schedulers come to the first process. -/
def bothScan : List Event :=
  [⟨0, .next true⟩, ⟨0, .next true⟩, ⟨1, .next true⟩, ⟨1, .next true⟩, ⟨0, .next true⟩]

/-- CPU 1 spins for the lock that CPU 0 has taken. -/
theorem no_deadlock_bothScan : ∃ s, Run Step boot bothScan s ∧
    codeOf s ⟨1, .next true⟩ = some (.ok (.acquire (.proc 0) (.sched (.look 0)))) ∧
    s.owner (.proc 0) = some 0 ∧ ∃ e' s', Step s e' s' ∧ e'.cpu ≠ 1 := by
  obtain ⟨s, hs, heq⟩ := Option.map_eq_some_iff.mp
    (show (exec stepFn boot bothScan).map (fun s => (codeOf s ⟨1, .next true⟩, s.owner (.proc 0))) =
      some (some (.ok (.acquire (.proc 0) (.sched (.look 0)))), some 0) from rfl)
  obtain ⟨hcode, hown⟩ := Prod.mk.inj heq
  have hrun : Run Step boot bothScan s := run_of_exec hs
  obtain ⟨e', s', -, hstep, hne, -⟩ := ((no_deadlock hrun).1 _ _ _ hcode).2 0 hown
  exact ⟨s, hrun, hcode, hown, e', s', hstep, hne⟩

end Xv6.Sched
