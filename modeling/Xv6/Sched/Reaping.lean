import Xv6.Sched.WaitLock

/-!
# xv6 — every exit is reaped once

* `family_run`     — `Family` holds in every run.
* `exits`, `reaps` — the processes that exited and the ones that `kwait` returned.
* `reaped_once`    — the result.
-/

namespace Xv6.Sched

open Kernel (Pid ProcState)
open TransitionRun Threads

variable {s s' : State} {c : Cpu} {p q j : Pid} {e : Event} {es : List Event} {ch : Chan}
  {lk : Lock} {pc : SleepPc} {ret : Loc}

/-! ### Steps and runs -/

theorem form_step (h : Inv s) (hf : Family s) (hs : Step s e s') (t : Tid) :
    (s'.loc t).Form s'.data.initproc := by
  rw [step_initproc hs]
  by_cases ht : t = s.cur e.cpu
  · rw [ht]
    exact (step_flow h hf hs).form
  · rcases step_loc_of_ne hs ht with heq | ⟨q, -, -, heq⟩
    · rw [heq]
      exact hf.form t
    · rw [heq]
      trivial

theorem facts_step (h : Inv s) (hf : Family s) (hs : Step s e s') (c : Cpu) :
    (s'.loc (s'.cur c)).Facts s' := by
  by_cases hc : c = e.cpu
  · rw [hc]
    by_cases hcur : s'.cur e.cpu = s.cur e.cpu
    · rw [hcur]
      exact facts_own h hf hs
    · exact facts_resumed h (inv_step h hs) hs hcur
  · exact facts_other h hf hs hc

/-- A process that has not exited still has not, unless this is its exit. -/
theorem live_kept (h : Inv s) (hs : Step s e s') (hlive : Live (stateOf s q))
    (hl : ∀ status, s.loc (s.cur e.cpu) ≠ .exit q status .zombie) : Live (stateOf s' q) := by
  cases proc_step h hs q with
  | same _ heq => exact live_of_eq heq hlive
  | live _ _ hlive' _ => exact hlive'
  | alloc hst _ _ _ | ready _ hst _ | fork p _ _ hst _ _ =>
    rw [hst] at hlive
    cases hlive
  | free hst _ _ _ =>
    rcases hst with hst | ⟨hst, -⟩
    · rw [hst] at hlive
      cases hlive
    · rw [hst] at hlive
      cases hlive
  | reparent p status _ _ _ _ heq =>
    rw [stateOf, heq]
    exact hlive
  | zombie status hl' _ _ _ => exact absurd hl' (hl status)

theorem live_step (h : Inv s) (hf : Family s) (hs : Step s e s') (hp : parentOf s' j = some q) :
    Live (stateOf s' q) := by
  rcases parent_step h hs hp with hold | ⟨hl, -⟩ | ⟨rfl, p, status, -, hl, -⟩
  · refine live_kept h hs (hf.live j q hold) fun status hl => ?_
    have hfacts := hf.facts e.cpu
    rw [hl] at hfacts
    exact hfacts.1 j hold
  · have hok := h.ok (s.cur e.cpu)
    rw [hl] at hok
    obtain ⟨-, hst⟩ := h.running_of_me hok (by rw [hl]; rfl)
    exact live_kept h hs (live_of_eq hst trivial) (by rw [hl]; nofun)
  · exact live_kept h hs hf.init (by rw [hl]; nofun)

theorem init_step (h : Inv s) (hf : Family s) (hs : Step s e s') :
    Live (stateOf s' s'.data.initproc) := by
  rw [step_initproc hs]
  refine live_kept h hs hf.init fun status hl => ?_
  have hform := hf.form (s.cur e.cpu)
  rw [hl] at hform
  exact hform rfl

/-- A process that is not yet runnable, or that has exited, is not in `sleep`. -/
theorem Inv.not_asleep (h : Inv s) (hst : stateOf s q = .used ∨ stateOf s q = .zombie) :
    s.loc (.proc q) ≠ .sleep p ch lk pc ret := by
  intro hloc
  by_cases hoff : Off s q
  · rcases h.off q hoff with hw | ⟨hrun, -⟩
    · rcases hst with hst | hst
      · rw [hst] at hw
        obtain ⟨p', hl⟩ := hw
        rw [hloc] at hl
        cases hl
      · rw [hst] at hw
        obtain ⟨p', status, hl⟩ := hw
        rw [hloc] at hl
        cases hl
    · rw [hrun] at hst
      rcases hst with hst | hst
      · cases hst
      · cases hst
  · obtain ⟨c, hc⟩ := not_forall_not.mp hoff
    have hon := (h.on c q hc).2.2
    rw [hloc] at hon
    rcases hst with hst | hst
    · rw [hst] at hon
      exact Inv.onState_ne_used.1 hon
    · rw [hst] at hon
      cases pc <;> cases hon

theorem chan_step (h : Inv s) (hf : Family s) (hs : Step s e s')
    (hloc : s'.loc (.proc p) = .sleep p ch lk pc ret) (hpc : pc = .sched ∨ pc = .tidy) :
    (s'.data.proc p).chan = some ch := by
  by_cases hcur : Tid.proc p = s.cur e.cpu
  · rw [hcur] at hloc
    have hfl := step_flow h hf hs
    rcases hpc with rfl | rfl
    · have hl := hfl.asleep _ _ _ _ _ _ hloc rfl
      obtain ⟨-, hpc⟩ | ⟨i, hi, he⟩ := step_sleep hl hs
      · cases hpc
      · cases hi
        rw [(Sys.exec_result rfl he).2.2, Data.upd_same]
    · have hl := hfl.asleep _ _ _ _ _ _ hloc rfl
      obtain ⟨-, hpc⟩ | ⟨i, hi, he⟩ := step_sleep hl hs
      · cases hpc
      · obtain rfl := schedCode_ok hi
        rw [(Sys.exec_swtch he).2.2]
        exact hf.chan p ch lk .sched ret (by rw [hcur]; exact hl) (.inl rfl)
  · rcases step_loc_of_ne hs hcur with heq | ⟨q, -, -, heq⟩
    · have hold := heq.symm.trans hloc
      have hch := hf.chan p ch lk pc ret hold hpc
      have hne : s.cur e.cpu ≠ .proc p := fun heq => hcur heq.symm
      cases proc_step h hs p with
      | same hk _ | live hk _ _ _ | ready hk _ _ => exact (hk.chan.resolve_left hne).trans hch
      | alloc _ _ _ heq | fork q _ _ _ _ heq => exact heq.trans hch
      | free hst _ _ _ => exact absurd hold (h.not_asleep (hst.imp_right fun hst => hst.1))
      | reparent q status _ _ _ _ heq =>
        rw [heq]
        exact hch
      | zombie status _ hc _ _ => exact absurd hc hne
    · rw [hloc] at heq
      cases heq

theorem stale_step (h : Inv s) (hf : Family s) (hs : Step s e s') (hst : stateOf s' q = .unused) :
    s'.loc (.proc q) ≠ .sleep p ch lk pc ret := by
  intro hloc
  -- the process was not used before, or it is freed now
  have hold : s.loc (.proc q) ≠ .sleep p ch lk pc ret ∧ ∀ c, s.cur c = .proc q →
      ∃ p', s.loc (s.cur e.cpu) = .wait p' (.test q) ∧ stateOf s q = .zombie := by
    cases proc_step h hs q with
    | same _ heq =>
      have hun := heq.symm.trans hst
      refine ⟨hf.stale q p ch lk pc ret hun, fun c hc => ?_⟩
      have hon := (h.on c q hc).2.2
      rw [hun] at hon
      exact absurd hon Inv.onState_ne_used.2
    | live _ _ hlive _ =>
      rw [hst] at hlive
      cases hlive
    | alloc _ heq _ _ | ready _ _ heq | fork p _ _ _ heq _ =>
      rw [hst] at heq
      cases heq
    | free hfree _ _ _ =>
      refine ⟨h.not_asleep (hfree.imp_right fun hst => hst.1), fun c hc => ?_⟩
      rcases hfree with hused | ⟨hz, p', hl⟩
      · have hon := (h.on c q hc).2.2
        rw [hused] at hon
        exact absurd hon Inv.onState_ne_used.1
      · exact ⟨p', hl, hz⟩
    | reparent p' status hl hp _ _ heq =>
      have hun : stateOf s q = .unused := by rwa [stateOf, heq] at hst
      refine ⟨hf.stale q p ch lk pc ret hun, fun c hc => ?_⟩
      have hon := (h.on c q hc).2.2
      rw [hun] at hon
      exact absurd hon Inv.onState_ne_used.2
    | zombie status _ _ _ heq =>
      rw [stateOf, heq] at hst
      cases hst
  by_cases hcur : Tid.proc q = s.cur e.cpu
  · obtain ⟨p', hl, hz⟩ := hold.2 e.cpu hcur.symm
    have hon := (h.on e.cpu q hcur.symm).2.2
    rw [hcur, hl, hz] at hon
    cases hon
  · rcases step_loc_of_ne hs hcur with heq | ⟨_, -, -, heq⟩
    · exact hold.1 (heq.symm.trans hloc)
    · rw [hloc] at heq
      cases heq

theorem cur_wake {ch : Option Chan} {pc : WakePc} (hl : s.loc (s.cur e.cpu) = .wake ch pc ret)
    (hs : Step s e s') : s'.cur = s.cur := by
  have he := step_wake hl hs
  cases pc with
  | scan k =>
    simp only [WakePc.code, forProc] at he
    split at he
    · split at he <;> exact (Sys.exec_result rfl he).1
    · exact (Sys.exec_result rfl he).1
  | test i =>
    simp only [WakePc.code] at he
    split at he <;> exact (Sys.exec_result rfl he).1
  | stamp i | release i => exact (Sys.exec_result rfl he).1

/-- **No wakeup is lost.** -/
theorem woken_step (h : Inv s) (hf : Family s) (hs : Step s e s') (hp : parentOf s' j = some q)
    (hz : stateOf s' j = .zombie) (hw : Waiting s' q) : ∃ c x status k pc, s'.loc (s'.cur c) =
      .wake (some (.proc q)) pc (.exit x status (.reparent k)) ∧ pc.todo q := by
  have hfacts := hf.facts e.cpu
  have hform := hf.form (s.cur e.cpu)
  rcases parent_step h hs hp with hold | ⟨-, hused⟩ | ⟨rfl, p, status, hpar, hl, hnext⟩
  · rcases waiting_step h hf hs hw with hwold | ⟨-, ret, hl⟩
    · rcases zombie_step h hs hz with hzold | ⟨status, hl⟩
      · obtain ⟨c, x, status, k, pc, hl, htodo⟩ := hf.woken j q hold hzold hwold
        by_cases hc : c = e.cpu
        · subst hc
          obtain ⟨pc', hnext, htodo'⟩ := todo_step h hf hs hl hwold hw htodo
          refine ⟨e.cpu, x, status, k, pc', ?_, htodo'⟩
          rw [cur_wake hl hs]
          exact hnext
        · obtain ⟨hcur, hloc⟩ := h.step_other hs hc
          refine ⟨c, x, status, k, pc, ?_, htodo⟩
          rw [hcur, hloc]
          exact hl
      · -- it exits after `wakeup` of its parent has come to an end
        rw [hl] at hfacts
        exact absurd hwold (hfacts.2 q hold)
    · -- its parent has looked at all children before it waits
      rw [hl] at hfacts
      rcases zombie_step h hs hz with hzold | ⟨status, hl'⟩
      · exact absurd hzold (hfacts rfl j j.isLt hold)
      · rw [hl] at hl'
        cases hl'
  · rw [hz] at hused
    cases hused
  · -- it is given to the first process, which is woken next
    obtain ⟨i, -, he⟩ := step_iff.mp hs
    refine ⟨e.cpu, p, status, j.val + 1, .scan 0, ?_, Nat.zero_le _⟩
    rcases Sys.exec_cur_or he with hcur | hdata
    · rw [hcur]
      exact hnext
    · rw [parentOf, hdata] at hp
      rw [hl] at hform
      exact absurd (Option.some.inj (hpar.symm.trans hp)) hform

/-- **One step** keeps the family in order. -/
theorem family_step (h : Inv s) (hf : Family s) (hs : Step s e s') : Family s' :=
  { form := form_step h hf hs
    facts := facts_step h hf hs
    live := fun _ _ hp => live_step h hf hs hp
    init := init_step h hf hs
    chan := fun _ _ _ _ _ hloc hpc => chan_step h hf hs hloc hpc
    stale := fun _ _ _ _ _ _ hst => stale_step h hf hs hst
    woken := fun _ _ hp hz hw => woken_step h hf hs hp hz hw }

theorem family_boot : Family boot := by
  have hparent : ∀ j, parentOf boot j = none := by
    intro j
    by_cases hj : j = 0
    · rw [hj]
      rfl
    · rw [parentOf]
      simp [boot, Function.update_of_ne hj, Proc.zero]
  have hloc : ∀ q, boot.loc (.proc q) = .forkret q := fun _ => rfl
  refine ⟨fun t => ?_, fun c => trivial, fun j q hp => ?_, trivial, fun p ch lk pc ret hl => ?_,
    fun q p ch lk pc ret _ hl => ?_, fun j q hp => ?_⟩
  · cases t with
    | sched c | proc p => trivial
  · rw [hparent] at hp
    cases hp
  · cases hl
  · cases hl
  · rw [hparent] at hp
    cases hp

/-- **Every run** keeps the family in order. -/
theorem family_run (hrun : Run Step boot es s) : Inv s ∧ Family s :=
  hrun.invariant (P := fun s => Inv s ∧ Family s) ⟨inv_boot, family_boot⟩
    fun _ _ _ h hs => ⟨inv_step h.1 hs, family_step h.1 h.2 hs⟩

/-! ### Exits and what `kwait` returns -/

/-- What slot `j` exits with in a step: `pid` and status. -/
def exited (j : Pid) (s : State) (e : Event) : List (Int × Int) :=
  match s.loc (s.cur e.cpu) with
  | .exit p status .zombie => if p = j then [((s.data.proc p).pid, status)] else []
  | _ => []

/-- What `kwait` finds in slot `j` in a step, to return it. -/
def reaped (j : Pid) (s : State) (e : Event) : List (Int × Int) :=
  match s.loc (s.cur e.cpu), e.act with
  | .wait _ (.test q), .next true =>
    if q = j ∧ (s.data.proc q).state = .zombie then
      [((s.data.proc q).pid, (s.data.proc q).xstate)] else []
  | _, _ => []

/-- The exits of slot `j` in a run. -/
def exits (j : Pid) (es : List Event) : List (Int × Int) := record stepFn (exited j) boot es

/-- What calls of `kwait` have returned for slot `j` in a run. -/
def reaps (j : Pid) (es : List Event) : List (Int × Int) := record stepFn (reaped j) boot es

/-- The exit of slot `j` that nobody has waited for. -/
def unreaped (j : Pid) (s : State) : List (Int × Int) :=
  if (s.data.proc j).state = .zombie then [((s.data.proc j).pid, (s.data.proc j).xstate)] else []

/-- The thread of process `q` is in `sleep`, called by `kwait`. -/
def InKwait (s : State) (q : Pid) : Prop :=
  ∃ p ch lk pc k havekids, s.loc (.proc q) = .sleep p ch lk pc (.wait p (.scan k havekids))

theorem unreaped_of_ne (h : stateOf s j ≠ .zombie) : unreaped j s = [] := if_neg h

/-- The last step of `kexit` that needs `wait_lock`. -/
theorem step_zombie {status : Int} (hl : s.loc (s.cur e.cpu) = .exit j status .zombie)
    (hs : Step s e s') :
    s'.data = s.data.upd j fun pr => { pr with xstate := status, state := .zombie } := by
  obtain ⟨-, hpc⟩ | ⟨i, hi, he⟩ := step_exit hl hs
  · cases hpc
  · cases hi
    exact (Sys.exec_result rfl he).2.2

/-- `kwait` looks at a child: a zombie is freed if its status can be copied. -/
theorem step_test (hl : s.loc (s.cur e.cpu) = .wait p (.test q)) (hs : Step s e s') :
    ∃ ok, e.act = .next ok ∧
      s'.data = if stateOf s q = .zombie ∧ ok = true then s.data.free q else s.data := by
  obtain ⟨-, hpc⟩ | ⟨ok, ha, he⟩ := step_wait hl hs
  · cases hpc
  · refine ⟨ok, ha, ?_⟩
    simp only [WaitPc.code] at he
    split at he
    · rename_i hz
      split at he
      · rename_i hok
        rw [if_pos ⟨hz, hok⟩]
        exact (Sys.exec_result rfl he).2.2
      · rename_i hok
        rw [if_neg fun h => hok h.2]
        exact (Sys.exec_result rfl he).2.2
    · rename_i hz
      rw [if_neg fun h => hz h.1]
      exact (Sys.exec_result rfl he).2.2

/-- A step that is neither the exit of slot `j` nor finds it leaves its exit alone. -/
theorem unreaped_kept (h : Inv s) (hs : Step s e s')
    (hexit : ∀ status, s.loc (s.cur e.cpu) ≠ .exit j status .zombie)
    (htest : ∀ p, s.loc (s.cur e.cpu) = .wait p (.test j) → stateOf s j ≠ .zombie) :
    unreaped j s' = unreaped j s := by
  have hneither : stateOf s j ≠ .zombie → stateOf s' j ≠ .zombie →
      unreaped j s' = unreaped j s := by
    intro hst hst'
    rw [unreaped_of_ne hst, unreaped_of_ne hst']
  have hlive : ∀ {st}, Live st → st ≠ .zombie := by
    rintro st hst rfl
    cases hst
  cases proc_step h hs j with
  | same hk heq =>
    have heq : (s'.data.proc j).state = (s.data.proc j).state := heq
    rw [unreaped, unreaped, hk.pid, hk.xstate, heq]
  | live _ hst hst' _ => exact hneither (hlive hst) (hlive hst')
  | alloc hst hst' _ _ | ready _ hst hst' | fork p _ _ hst hst' _ =>
    exact hneither (by rw [hst]; nofun) (by rw [hst']; nofun)
  | free hst hst' _ _ =>
    rcases hst with hst | ⟨hst, p, hl⟩
    · exact hneither (by rw [hst]; nofun) (by rw [hst']; nofun)
    · exact absurd hst (htest p hl)
  | reparent p status _ _ _ _ heq => rw [unreaped, heq, unreaped]
  | zombie status hl _ _ _ => exact absurd hl (hexit status)

/-- **One step**: what exits or waits to be reaped is what is reaped or waits then. -/
theorem reaped_step (h : Inv s) (hs : Step s e s') (j : Pid) :
    unreaped j s ++ exited j s e = reaped j s e ++ unreaped j s' := by
  by_cases hexit : ∃ status, s.loc (s.cur e.cpu) = .exit j status .zombie
  · obtain ⟨status, hl⟩ := hexit
    have hok := h.ok (s.cur e.cpu)
    rw [hl] at hok
    obtain ⟨-, hst⟩ := h.running_of_me hok (by rw [hl]; rfl)
    have hd := step_zombie hl hs
    have hpr : s'.data.proc j = { s.data.proc j with xstate := status, state := .zombie } := by
      rw [hd, Data.upd_same]
    rw [unreaped_of_ne (by rw [hst]; rintro ⟨⟩), exited, reaped, hl, unreaped, hpr]
    simp
  · have hexit : ∀ status, s.loc (s.cur e.cpu) ≠ .exit j status .zombie := not_exists.mp hexit
    have hno : exited j s e = [] := by
      unfold exited
      split
      · rename_i p status hl
        rw [if_neg]
        rintro rfl
        exact hexit status hl
      · rfl
    rw [hno, List.append_nil]
    by_cases htest : ∃ p, s.loc (s.cur e.cpu) = .wait p (.test j) ∧ stateOf s j = .zombie
    · obtain ⟨p, hl, hz⟩ := htest
      obtain ⟨ok, ha, hd⟩ := step_test hl hs
      cases ok with
      | true =>
        rw [if_pos ⟨hz, rfl⟩] at hd
        have hst' : stateOf s' j = .unused := by rw [stateOf, hd, Data.free, Data.upd_same]
        have hnone : unreaped j s' = [] := unreaped_of_ne (by rw [hst']; rintro ⟨⟩)
        rw [hnone, unreaped, reaped, hl, ha]
        simp
      | false =>
        rw [if_neg (by simp)] at hd
        rw [reaped, hl, ha, unreaped, unreaped, hd]
        rfl
    · have htest : ∀ p, s.loc (s.cur e.cpu) = .wait p (.test j) → stateOf s j ≠ .zombie :=
        fun p hl hz => htest ⟨p, hl, hz⟩
      have hno' : reaped j s e = [] := by
        unfold reaped
        split
        · rename_i p q hl _
          rw [if_neg]
          rintro ⟨rfl, hz⟩
          exact htest p hl hz
        · rfl
      rw [hno', List.nil_append, unreaped_kept h hs hexit htest]

/-- **Every run**: each exit of a slot has been returned by one call of `kwait`, in
order, or it waits for one. -/
theorem reaped_run (hrun : Run Step boot es s) (j : Pid) :
    exits j es = reaps j es ++ unreaped j s := by
  induction hrun with
  | start =>
    by_cases hj : j = 0
    · subst hj
      rfl
    · have hst : stateOf boot j = .unused := by
        rw [stateOf]
        simp [boot, Function.update_of_ne hj, Proc.zero]
      rw [unreaped_of_ne (by rw [hst]; rintro ⟨⟩)]
      rfl
  | @snoc es s t e hrun hs ih =>
    rw [exits, reaps, Run.record_snoc hrun, Run.record_snoc hrun]
    rw [exits, reaps] at ih
    rw [ih, List.append_assoc, List.append_assoc, reaped_step (inv_run hrun) hs]

/-- A process that sleeps in `kwait` waits. -/
theorem Family.waiting_of_sleeping (hf : Family s) (h : Inv s) (hst : stateOf s q = .sleeping)
    (hin : InKwait s q) : Waiting s q := by
  obtain ⟨p, ch, lk, pc, k, havekids, hl⟩ := hin
  have hform := hf.form (.proc q)
  have hok := h.ok (.proc q)
  rw [hl] at hform hok
  obtain rfl := Option.some.inj hok.1
  obtain ⟨rfl, rfl, -⟩ | ⟨-, x, hret⟩ := hform
  · refine ⟨pc, _, hl, ?_⟩
    by_cases hoff : Off s q
    · rcases h.off q hoff with hw | ⟨hrun, -⟩
      · rw [hst] at hw
        obtain ⟨p', ch, lk, ret, hl'⟩ := hw
        rw [hl] at hl'
        exact .inr (.inr ⟨(Loc.sleep.inj hl').2.2.2.1, hst⟩)
      · rw [hst] at hrun
        cases hrun
    · obtain ⟨c, hc⟩ := not_forall_not.mp hoff
      have hon := (h.on c q hc).2.2
      rw [hl, hst] at hon
      cases pc with
      | sched => exact .inr (.inl rfl)
      | _ => cases hon
  · cases hret

/-- A parent is not replaced by another process. -/
theorem Family.parent_pid (hf : Family s) (h : Inv s) (hs : Step s e s')
    (hp : parentOf s j = some q) : (s'.data.proc q).pid = (s.data.proc q).pid := by
  have hlive := hf.live j q hp
  cases proc_step h hs q with
  | same hk _ | live hk _ _ _ | ready hk _ _ => exact hk.pid
  | alloc hst _ _ _ | fork p _ _ hst _ _ =>
    rw [hst] at hlive
    cases hlive
  | free hst _ _ _ =>
    rcases hst with hst | ⟨hst, -⟩
    · rw [hst] at hlive
      cases hlive
    · rw [hst] at hlive
      cases hlive
  | reparent p status _ _ _ _ heq | zombie status _ _ _ heq => rw [heq]

/--
**Every exit is reaped once and the process tree stays rooted.** In every run:

* where `wait_lock` is free, a parent is neither UNUSED nor a zombie, and no process
  sleeps in `kwait` while a child is a zombie;
* a slot that is somebody's parent is not given to another process;
* the exits of each slot, as `pid` and status, are what calls of `kwait` have returned
  for it, in the same order, followed by the one that is still a zombie;
* a call of `kwait` looks only at children of the process that made it, and one that
  cannot copy the status changes nothing.
-/
theorem reaped_once (hrun : Run Step boot es s) :
    (s.owner .wait = none → ∀ j q, (s.data.proc j).parent = some q →
      (s.data.proc q).state ≠ .unused ∧ (s.data.proc q).state ≠ .zombie ∧
      ((s.data.proc j).state = .zombie → ¬ ((s.data.proc q).state = .sleeping ∧ InKwait s q))) ∧
    (∀ e s' j q, Step s e s' → (s.data.proc j).parent = some q →
      (s'.data.proc q).pid = (s.data.proc q).pid) ∧ (∀ j, exits j es = reaps j es ++ unreaped j s) ∧
    ∀ e s' p q, Step s e s' → s.loc (s.cur e.cpu) = .wait p (.test q) →
      s.cur e.cpu = .proc p ∧ (s.data.proc q).parent = some p ∧
      (e.act = .next false → s'.data = s.data) := by
  obtain ⟨h, hf⟩ := family_run hrun
  refine ⟨fun hfree j q hp => ?_, fun e s' j q hs hp => hf.parent_pid h hs hp, reaped_run hrun,
    fun e s' p q hs hl => ?_⟩
  · have hlive := hf.live j q hp
    refine ⟨fun hst => ?_, fun hst => ?_, fun hz ⟨hst, hin⟩ => ?_⟩
    · rw [show stateOf s q = .unused from hst] at hlive
      cases hlive
    · rw [show stateOf s q = .zombie from hst] at hlive
      cases hlive
    · -- the CPU that is about to wake it has `wait_lock`
      obtain ⟨c, x, status, k, pc, hl, -⟩ := hf.woken j q hp hz (hf.waiting_of_sleeping h hst hin)
      have hown : s.owner .wait = some c := by
        rw [h.disc.own, Sys.held, hl]
        exact List.mem_append_right _ List.mem_cons_self
      rw [hfree] at hown
      cases hown
  · have hok := h.ok (s.cur e.cpu)
    have hfacts := hf.facts e.cpu
    rw [hl] at hok hfacts
    refine ⟨Tid.eq_of_me hok, hfacts.1, fun ha => ?_⟩
    obtain ⟨ok, ha', hd⟩ := step_test hl hs
    obtain rfl := Act.next.inj (ha.symm.trans ha')
    rw [hd]
    simp

/-- Statements without a choice on CPU `c`. -/
def nexts (c : Cpu) (n : Nat) : List Event := List.replicate n ⟨c, .next true⟩

/-- The first process forks on CPU 0, its child exits with status 7 on CPU 1, and then
the first process waits. -/
def forkExitWait : List Event :=
  nexts 0 6 ++ [⟨0, .fork⟩] ++ nexts 0 13 ++
  nexts 1 9 ++ [⟨1, .exit 7⟩] ++ nexts 1 263 ++
  [⟨0, .wait⟩] ++ nexts 0 6

theorem reaped_once_forkExitWait : ∃ s, Run Step boot forkExitWait s ∧ s.owner .wait = none ∧
    reaps 1 forkExitWait = [(2, 7)] ∧ (s.data.proc 1).state = .unused ∧
    exits 1 forkExitWait = reaps 1 forkExitWait ++ unreaped 1 s := by
  have hexec : (exec stepFn boot forkExitWait).map (fun s =>
      (s.owner .wait, (s.data.proc 1).state)) = some (none, .unused) := by decide +kernel
  obtain ⟨s, hs, heq⟩ := Option.map_eq_some_iff.mp hexec
  obtain ⟨hfree, hst⟩ := Prod.mk.inj heq
  have hrun : Run Step boot forkExitWait s := run_of_exec hs
  have hreaps : reaps 1 forkExitWait = [(2, 7)] := by decide +kernel
  exact ⟨s, hrun, hfree, hreaps, hst, (reaped_once hrun).2.2.1 1⟩

end Xv6.Sched
