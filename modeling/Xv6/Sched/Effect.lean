import Xv6.Sched.OneCpu

/-!
# xv6 — what a step of the scheduling model changes

One lemma, `step_effect`, says for every step what becomes of the shared data, with
the place the thread was at and the place it goes to. Invariants about the data are
derived from it without looking at the code again.
-/

namespace Xv6.Sched

open Kernel (Pid ProcState u32 u64)
open TransitionRun Threads

variable {p : Pid} {ret : Loc}

/-- The scheduler takes a process that waits. -/
def Data.pick (d : Data) (i : Pid) : Data := d.upd i fun pr =>
  { pr with state := .running, waitTicks := u64 (pr.waitTicks + d.since pr.waitStart) }

/-- `allocproc` takes a slot. -/
def Data.alloc (d : Data) (i : Pid) : Data := d.upd i fun pr =>
  { pr with pid := d.nextpid, state := .used, startTime := d.ticks, sleepTicks := 0
            waitTicks := 0, sleepStart := 0 }

/-- A process is made runnable, with its stamp. -/
def Data.ready (d : Data) (i : Pid) : Data := d.upd i fun pr =>
  { pr with state := .runnable, waitStart := d.ticks }

/-- A thread waits to write the stamp of process `i`, which it has woken. -/
def Loc.stamping : Loc → Option Pid
  | .wake _ (.stamp i) _ | .kill _ (.stamp i) => some i
  | _ => none

/-- What a step from `l` to `next` makes of the data. -/
inductive Effect (d : Data) (l next : Loc) : Data → Prop
  | none : l.stamping = none → Effect d l next d
  | cproc (f : Cpu → Option Pid) : l.stamping = none → Effect d l next { d with cproc := f }
  | pick (i : Pid) (f : Cpu → Option Pid) : l = .sched (.look i) →
      (d.proc i).state = .runnable → Effect d l next { d.pick i with cproc := f }
  | wake (ch : Option Chan) (i : Pid) (ret : Loc) : l = .wake ch (.test i) ret →
      next = .wake ch (.stamp i) ret → (d.proc i).state = .sleeping → (d.proc i).chan = ch →
      Effect d l next (d.wake i)
  | stamp (i : Pid) : l.stamping = some i ∨ (∃ p, l = .fork p (.stamp i)) →
      Effect d l next (d.stamp i)
  | killed (pid : Int) (i : Pid) : l = .kill pid (.test i) →
      Effect d l next (d.upd i fun pr => { pr with killed := true })
  | killedWake (pid : Int) (i : Pid) : l = .kill pid (.test i) → next = .kill pid (.stamp i) →
      (d.proc i).state = .sleeping →
      Effect d l next ((d.upd i fun pr => { pr with killed := true }).wake i)
  | alloc (p i : Pid) : l = .fork p (.test i) → (d.proc i).state = .unused →
      Effect d l next { d.alloc i with nextpid := Kernel.toInt (d.nextpid + 1) }
  | forkFail (p np : Pid) : l = .fork p (.fill np) → Effect d l next (d.free np)
  | forkParent (p np : Pid) : l = .fork p (.parent np) →
      Effect d l next (d.upd np fun pr => { pr with parent := some p })
  | forkReady (p np : Pid) : l = .fork p (.runnable np) → Effect d l next (d.ready np)
  | reparent (p q : Pid) (status : Int) : l = .exit p status (.reparent q.val) →
      (d.proc q).parent = some p →
      next = .wake (some (.proc d.initproc)) (.scan 0) (.exit p status (.reparent (q.val + 1))) →
      Effect d l next (d.upd q fun pr => { pr with parent := some d.initproc })
  | zombie (p : Pid) (status : Int) : l = .exit p status .zombie →
      Effect d l next (d.upd p fun pr => { pr with xstate := status, state := .zombie })
  | reap (p q : Pid) : l = .wait p (.test q) → (d.proc q).state = .zombie →
      Effect d l next (d.free q)
  | doze (p : Pid) (ch : Chan) (lk : Lock) (ret : Loc) : l = .sleep p ch lk .doze ret →
      Effect d l next (d.upd p fun pr =>
        { pr with chan := some ch, state := .sleeping, sleepStart := d.ticks })
  | tidy (p : Pid) (ch : Chan) (lk : Lock) (ret : Loc) : l = .sleep p ch lk .tidy ret →
      Effect d l next (d.upd p fun pr => { pr with chan := none })
  | tick (ret : Loc) : l = .clock .tick ret → Effect d l next { d with ticks := u32 (d.ticks + 1) }
  | yield (p : Pid) (ret : Loc) : l = .yield p .runnable ret → Effect d l next (d.ready p)

variable {s s' : State} {c : Cpu} {l next : Loc} {d : Data} {i : Code} {e : Event}

/-- The effect of a step that concerns no other thread. -/
theorem effect_of_result (hr : i.result s.data = some (next, d)) (he : s.exec c i = some s')
    (heff : Effect s.data l next d) : Effect s.data l (s'.loc (s.cur c)) s'.data := by
  obtain ⟨-, hloc, hdata⟩ := Sys.exec_result hr he
  rw [hloc, Function.update_self, hdata]
  exact heff

/-- A switch leaves the data alone. -/
theorem effect_of_swtch {t : Tid} (he : s.exec c (.swtch t next) = some s')
    (hl : l.stamping = none) : Effect s.data l (s'.loc (s.cur c)) s'.data := by
  obtain ⟨-, -, hdata⟩ := Sys.exec_swtch he
  rw [hdata]
  exact .none hl

/-- If `sched` does not panic, it switches to the scheduler. -/
theorem schedCode_ok (hi : schedCode s c next = .ok i) : i = .swtch (.sched c) next := by
  unfold schedCode at hi
  split at hi
  · cases hi
  · split at hi
    · cases hi
    · split at hi
      · cases hi
      · split at hi
        · cases hi
        · exact (Except.ok.inj hi).symm

theorem effect_of_sched (hi : schedCode s c next = .ok i) (he : s.exec c i = some s')
    (hl : l.stamping = none) : Effect s.data l (s'.loc (s.cur c)) s'.data := by
  obtain rfl := schedCode_ok hi
  exact effect_of_swtch he hl

/-- A call leaves the data alone. -/
theorem effect_of_withProc {f : Pid → Except Panic Code}
    (hf : ∀ p j, f p = .ok j → ∃ next, j.result s.data = some (next, s.data))
    (hi : withProc c s.data f = some (.ok i)) (he : s.exec c i = some s')
    (hl : l.stamping = none) : Effect s.data l (s'.loc (s.cur c)) s'.data := by
  have hi := Option.some.inj hi
  split at hi
  · cases hi
  · obtain ⟨next, hr⟩ := hf _ i hi
    exact effect_of_result hr he (.none hl)

theorem result_of_ok {j : Code} (hj : (.ok j : Except Panic Code) = .ok i)
    (hr : j.result d = some (next, d)) : ∃ next, i.result d = some (next, d) := by
  cases hj
  exact ⟨next, hr⟩

theorem result_exitCode {status : Int} (hi : exitCode d p status = .ok i) :
    ∃ next, i.result d = some (next, d) := by
  rw [exitCode] at hi
  split at hi
  · cases hi
  · cases hi
    exact ⟨_, rfl⟩

theorem effect_sched {pc : SchedPc} (he : s.exec c (pc.code c s.data) = some s') :
    Effect s.data (.sched pc) (s'.loc (s.cur c)) s'.data := by
  cases pc with
  | look q =>
    simp only [SchedPc.code] at he
    split at he
    · rename_i hq
      exact effect_of_result rfl he (.pick q _ rfl hq)
    · exact effect_of_result rfl he (.none rfl)
  | go q => exact effect_of_swtch he rfl
  | drop q =>
    simp only [SchedPc.code] at he
    split at he <;> exact effect_of_result rfl he (.none rfl)
  | start | back q => exact effect_of_result rfl he (.cproc _ rfl)
  | idle | scan q => exact effect_of_result rfl he (.none rfl)

theorem effect_wake {ch : Option Chan} {pc : WakePc}
    (he : s.exec c (pc.code c s.data ch ret) = some s') :
    Effect s.data (.wake ch pc ret) (s'.loc (s.cur c)) s'.data := by
  cases pc with
  | scan k =>
    simp only [WakePc.code, forProc] at he
    split at he
    · split at he <;> exact effect_of_result rfl he (.none rfl)
    · exact effect_of_result rfl he (.none rfl)
  | test q =>
    simp only [WakePc.code] at he
    split at he
    · rename_i hq
      exact effect_of_result rfl he (.wake ch q ret rfl rfl hq.1 hq.2)
    · exact effect_of_result rfl he (.none rfl)
  | stamp q => exact effect_of_result rfl he (.stamp q (.inl rfl))
  | release q => exact effect_of_result rfl he (.none rfl)

theorem effect_kill {pid : Int} {pc : KillPc} (he : s.exec c (pc.code s.data pid) = some s') :
    Effect s.data (.kill pid pc) (s'.loc (s.cur c)) s'.data := by
  cases pc with
  | scan k =>
    simp only [KillPc.code, forProc] at he
    split at he <;> exact effect_of_result rfl he (.none rfl)
  | test q =>
    simp only [KillPc.code] at he
    split at he
    · split at he
      · rename_i hq
        exact effect_of_result rfl he (.killedWake pid q rfl rfl hq)
      · exact effect_of_result rfl he (.killed pid q rfl)
    · exact effect_of_result rfl he (.none rfl)
  | stamp q => exact effect_of_result rfl he (.stamp q (.inl rfl))
  | found q | next q => exact effect_of_result rfl he (.none rfl)

theorem effect_fork {ok : Bool} {pc : ForkPc} (he : s.exec c (pc.code s.data p ok) = some s') :
    Effect s.data (.fork p pc) (s'.loc (s.cur c)) s'.data := by
  cases pc with
  | scan k =>
    simp only [ForkPc.code, forProc] at he
    split at he <;> exact effect_of_result rfl he (.none rfl)
  | test q =>
    simp only [ForkPc.code] at he
    split at he
    · rename_i hq
      cases he
      exact .alloc p q rfl hq
    · exact effect_of_result rfl he (.none rfl)
  | stamp q => exact effect_of_result rfl he (.stamp q (.inr ⟨p, rfl⟩))
  | fill q =>
    simp only [ForkPc.code] at he
    split at he
    · exact effect_of_result rfl he (.none rfl)
    · exact effect_of_result rfl he (.forkFail p q rfl)
  | parent q => exact effect_of_result rfl he (.forkParent p q rfl)
  | runnable q => exact effect_of_result rfl he (.forkReady p q rfl)
  | next q | fail q | lockWait q | unlockWait q | relock q | unlock q =>
    exact effect_of_result rfl he (.none rfl)

theorem effect_exit {status : Int} {pc : ExitPc} (hi : pc.code s c p status = .ok i)
    (he : s.exec c i = some s') : Effect s.data (.exit p status pc) (s'.loc (s.cur c)) s'.data := by
  cases pc with
  | reparent k =>
    cases hi
    simp only [forProc] at he
    split at he
    · rename_i hk
      split at he
      · rename_i hq
        exact effect_of_result rfl he (.reparent p ⟨k, hk⟩ status rfl hq rfl)
      · exact effect_of_result rfl he (.none rfl)
    · exact effect_of_result rfl he (.none rfl)
  | zombie =>
    cases hi
    exact effect_of_result rfl he (.zombie p status rfl)
  | sched => exact effect_of_sched hi he rfl
  | dead => cases hi
  | lockWait | lock | unlockWait =>
    cases hi
    exact effect_of_result rfl he (.none rfl)

theorem effect_wait {ok : Bool} {pc : WaitPc} (he : s.exec c (pc.code s.data p ok) = some s') :
    Effect s.data (.wait p pc) (s'.loc (s.cur c)) s'.data := by
  cases pc with
  | scan k havekids =>
    simp only [WaitPc.code, forProc] at he
    split at he <;> split at he <;> exact effect_of_result rfl he (.none rfl)
  | test q =>
    simp only [WaitPc.code] at he
    split at he
    · rename_i hq
      split at he
      · exact effect_of_result rfl he (.reap p q rfl hq)
      · exact effect_of_result rfl he (.none rfl)
    · exact effect_of_result rfl he (.none rfl)
  | lockWait | next q | done q | unlockWait | killed | killedRead | killedRet k =>
    exact effect_of_result rfl he (.none rfl)

theorem effect_sleep {ch : Chan} {lk : Lock} {pc : SleepPc} (hi : pc.code s c p ch lk ret = .ok i)
    (he : s.exec c i = some s') :
    Effect s.data (.sleep p ch lk pc ret) (s'.loc (s.cur c)) s'.data := by
  cases pc with
  | doze =>
    cases hi
    exact effect_of_result rfl he (.doze p ch lk ret rfl)
  | sched => exact effect_of_sched hi he rfl
  | tidy =>
    cases hi
    exact effect_of_result rfl he (.tidy p ch lk ret rfl)
  | lock | drop | unlock | relock =>
    cases hi
    exact effect_of_result rfl he (.none rfl)

theorem effect_yield {pc : YieldPc} (hi : pc.code s c p ret = .ok i) (he : s.exec c i = some s') :
    Effect s.data (.yield p pc ret) (s'.loc (s.cur c)) s'.data := by
  cases pc with
  | runnable =>
    cases hi
    exact effect_of_result rfl he (.yield p ret rfl)
  | sched => exact effect_of_sched hi he rfl
  | tail | lock | unlock =>
    cases hi
    exact effect_of_result rfl he (.none rfl)

/-- **What a step changes.** -/
theorem step_effect (hs : Step s e s') :
    Effect s.data (s.loc (s.cur e.cpu)) (s'.loc (s.cur e.cpu)) s'.data := by
  obtain ⟨i, hcode, he⟩ := step_iff.mp hs
  rw [codeOf] at hcode
  generalize hl : s.loc (s.cur e.cpu) = l at hcode
  generalize e.act = a at hcode
  have hrun : ∀ {next}, l.stamping = none → s.exec e.cpu (.run s.data next) = some s' →
      Effect s.data l (s'.loc (s.cur e.cpu)) s'.data :=
    fun hstamp he => effect_of_result rfl he (.none hstamp)
  unfold code at hcode
  split at hcode
  · split at hcode
    · obtain rfl := code_inj hcode
      rename_i hintr
      refine hrun ?_ he
      unfold Loc.intr at hintr
      split at hintr
      all_goals first | rfl | cases hintr
    · cases hcode
  · exact effect_of_withProc (fun p j hj => result_of_ok hj rfl) hcode he rfl
  · exact effect_of_withProc (fun p j hj => result_exitCode hj) hcode he rfl
  · exact effect_of_withProc (fun p j hj => result_of_ok hj rfl) hcode he rfl
  · obtain rfl := code_inj hcode
    exact hrun rfl he
  · obtain rfl := code_inj hcode
    exact effect_of_result rfl he (.none rfl)
  · obtain rfl := code_inj hcode
    exact hrun rfl he
  · exact effect_of_withProc (fun p j hj => result_of_ok hj rfl) hcode he rfl
  · obtain rfl := code_inj hcode
    exact hrun rfl he
  · obtain rfl := code_inj hcode
    exact effect_of_result rfl he (.none rfl)
  · obtain ⟨next, hr⟩ := result_exitCode (Option.some.inj hcode)
    exact effect_of_result hr he (.none rfl)
  · obtain rfl := code_inj hcode
    exact effect_sched he
  · obtain rfl := code_inj hcode
    exact effect_wake he
  · obtain rfl := code_inj hcode
    exact effect_kill he
  · obtain rfl := code_inj hcode
    exact effect_fork he
  · exact effect_exit (Option.some.inj hcode) he
  · obtain rfl := code_inj hcode
    exact effect_wait he
  · exact effect_sleep (Option.some.inj hcode) he
  · exact effect_of_withProc (fun p j hj => result_of_ok hj rfl) hcode he rfl
  · rename_i pc ret _
    obtain rfl := code_inj hcode
    cases pc with
    | tick => exact effect_of_result rfl he (.tick ret rfl)
    | _ => exact effect_of_result rfl he (.none rfl)
  · exact effect_yield (Option.some.inj hcode) he
  · cases hcode

/-! ### What a step leaves alone -/

theorem spawned_forProc {k : Nat} {body : Pid → Code} {done : Code}
    (hbody : ∀ q, (body q).spawned = none) (hdone : done.spawned = none) :
    (forProc k body done).spawned = none := by
  unfold forProc
  split
  · exact hbody _
  · exact hdone

theorem spawned_schedCode (hi : schedCode s c next = .ok i) : i.spawned = none := by
  rw [schedCode_ok hi]
  rfl

theorem spawned_exitCode {status : Int} (hi : exitCode d p status = .ok i) : i.spawned = none := by
  unfold exitCode at hi
  split at hi <;> cases hi
  rfl

theorem SchedPc.spawned (pc : SchedPc) : (pc.code c d).spawned = none := by
  cases pc with
  | look q =>
    simp only [code]
    split <;> rfl
  | _ => rfl

theorem WakePc.spawned {ch : Option Chan} {ret : Loc} (pc : WakePc) :
    (pc.code c d ch ret).spawned = none := by
  cases pc with
  | scan k =>
    simp only [code]
    refine spawned_forProc (fun q => ?_) rfl
    split <;> rfl
  | test q =>
    simp only [code]
    split <;> rfl
  | _ => rfl

theorem KillPc.spawned {pid : Int} (pc : KillPc) : (pc.code d pid).spawned = none := by
  cases pc with
  | scan k =>
    simp only [code]
    exact spawned_forProc (fun _ => rfl) rfl
  | test q =>
    simp only [code]
    split
    · split <;> rfl
    · rfl
  | _ => rfl

theorem WaitPc.spawned {ok : Bool} (pc : WaitPc) : (pc.code d p ok).spawned = none := by
  cases pc with
  | scan k havekids =>
    simp only [code]
    refine spawned_forProc (fun q => ?_) ?_ <;> split <;> rfl
  | test q =>
    simp only [code]
    split
    · split <;> rfl
    · rfl
  | _ => rfl

theorem ExitPc.spawned {status : Int} {pc : ExitPc} (hi : pc.code s c p status = .ok i) :
    i.spawned = none := by
  cases pc with
  | reparent k =>
    cases hi
    refine spawned_forProc (fun q => ?_) rfl
    split <;> rfl
  | sched => exact spawned_schedCode hi
  | dead => cases hi
  | _ =>
    cases hi
    rfl

theorem SleepPc.spawned {ch : Chan} {lk : Lock} {ret : Loc} {pc : SleepPc}
    (hi : pc.code s c p ch lk ret = .ok i) : i.spawned = none := by
  cases pc with
  | sched => exact spawned_schedCode hi
  | _ =>
    cases hi
    rfl

theorem YieldPc.spawned {ret : Loc} {pc : YieldPc} (hi : pc.code s c p ret = .ok i) :
    i.spawned = none := by
  cases pc with
  | sched => exact spawned_schedCode hi
  | _ =>
    cases hi
    rfl

/-- `allocproc` sets the context of the slot it has found. -/
theorem ForkPc.spawned {ok : Bool} {pc : ForkPc} {t : Tid × Loc}
    (ht : (pc.code d p ok).spawned = some t) :
    ∃ q, t = (.proc q, .forkret q) ∧ (d.proc q).state = .unused := by
  cases pc with
  | test q =>
    simp only [code] at ht
    split at ht
    · rename_i hq
      exact ⟨q, (Option.some.inj ht).symm, hq⟩
    · cases ht
  | scan k =>
    simp only [code] at ht
    rw [spawned_forProc (fun _ => rfl) rfl] at ht
    cases ht
  | fill q =>
    simp only [code] at ht
    split at ht <;> cases ht
  | _ => cases ht

/-- Only `allocproc` sets the context of another process, which is then unused. -/
theorem spawned_codeOf {t : Tid × Loc} (hcode : codeOf s e = some (.ok i))
    (ht : i.spawned = some t) : ∃ q, t = (.proc q, .forkret q) ∧ stateOf s q = .unused := by
  rw [codeOf] at hcode
  generalize s.loc (s.cur e.cpu) = l at hcode
  generalize e.act = a at hcode
  have hno : i.spawned ≠ none := by
    rw [ht]
    rintro ⟨⟩
  have hok : ∀ {j : Code}, j.spawned = none → some (.ok j : Except Panic Code) = some (.ok i) →
      False := by
    intro j hj heq
    obtain rfl := code_inj heq
    exact hno hj
  have hwith : ∀ {f : Pid → Except Panic Code}, (∀ p j, f p = .ok j → j.spawned = none) →
      withProc e.cpu s.data f = some (.ok i) → False := by
    intro f hf hi
    have hi := Option.some.inj hi
    split at hi
    · cases hi
    · exact hno (hf _ i hi)
  unfold code at hcode
  split at hcode
  · split at hcode
    · exact (hok rfl hcode).elim
    · cases hcode
  · exact (hwith (fun p j hj => Except.ok.inj hj ▸ rfl) hcode).elim
  · exact (hwith (fun p j hj => spawned_exitCode hj) hcode).elim
  · exact (hwith (fun p j hj => Except.ok.inj hj ▸ rfl) hcode).elim
  · exact (hok rfl hcode).elim
  · exact (hok rfl hcode).elim
  · exact (hok rfl hcode).elim
  · exact (hwith (fun p j hj => Except.ok.inj hj ▸ rfl) hcode).elim
  · exact (hok rfl hcode).elim
  · exact (hok rfl hcode).elim
  · exact (hno (spawned_exitCode (Option.some.inj hcode))).elim
  · exact (hok (SchedPc.spawned _) hcode).elim
  · exact (hok (WakePc.spawned _) hcode).elim
  · exact (hok (KillPc.spawned _) hcode).elim
  · obtain rfl := code_inj hcode
    exact ForkPc.spawned ht
  · exact (hno (ExitPc.spawned (Option.some.inj hcode))).elim
  · exact (hok (WaitPc.spawned _) hcode).elim
  · exact (hno (SleepPc.spawned (Option.some.inj hcode))).elim
  · exact (hwith (fun p j hj => Except.ok.inj hj ▸ rfl) hcode).elim
  · rename_i pc ret _
    refine (hok ?_ hcode).elim
    cases pc <;> rfl
  · exact (hno (YieldPc.spawned (Option.some.inj hcode))).elim
  · cases hcode

/-- Another thread stays where it is, unless it belongs to a slot that is allocated. -/
theorem step_loc_of_ne {t : Tid} (hs : Step s e s') (ht : t ≠ s.cur e.cpu) :
    s'.loc t = s.loc t ∨ ∃ q, t = .proc q ∧ stateOf s q = .unused ∧ s'.loc t = .forkret q := by
  obtain ⟨i, hcode, he⟩ := step_iff.mp hs
  rcases Sys.exec_loc_of_ne he ht with heq | hspawn
  · exact .inl heq
  · obtain ⟨q, heq, hq⟩ := spawned_codeOf hcode hspawn
    obtain ⟨ht, hl⟩ := Prod.mk.inj heq
    exact .inr ⟨q, ht, hq, hl⟩

/-- The thread of another CPU stays where it is. -/
theorem Inv.step_other (h : Inv s) (hs : Step s e s') (hc : c ≠ e.cpu) :
    s'.cur c = s.cur c ∧ s'.loc (s.cur c) = s.loc (s.cur c) := by
  obtain ⟨i, hcode, he⟩ := step_iff.mp hs
  refine ⟨Sys.exec_cur_of_ne he hc, ?_⟩
  rcases step_loc_of_ne hs fun heq => hc (h.disc.alone c e.cpu heq) with heq | ⟨q, hq, hst, -⟩
  · exact heq
  · have hon := (h.on c q hq).2.2
    rw [hst] at hon
    exact absurd hon Inv.onState_ne_used.2

end Xv6.Sched
