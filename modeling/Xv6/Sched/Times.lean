import Xv6.Sched.Effect

/-!
# xv6 — time accounting

`wait_ticks` and `sleep_ticks` grow by the time since the last stamp, which is taken
whenever a process becomes RUNNABLE or goes to sleep. What has been counted, with the
interval that is still open, never exceeds the life of the process.

* `OnTime`         — what holds of the times of one process.
* `Timely`         — this, for every process; while a thread that has woken a process
  is about to write its stamp, the stamp is not used.
* `timely_step`    — every step keeps this, as long as `ticks` does not overflow.
* `time_adds_up`   — the result.
-/

namespace Xv6.Sched

open Kernel (Pid ProcState u32 u64)
open TransitionRun Threads

variable {pr' : Proc}

/-- The time a process was born at, plus what has been counted. -/
def Proc.spent (pr : Proc) : Nat := pr.waitTicks + pr.sleepTicks + pr.startTime

/-- The times of a process; `stamped` says that its stamp is the one of its state. -/
structure OnTime (ticks : Nat) (pr : Proc) (stamped : Prop) : Prop where
  spent : pr.state ≠ .unused → pr.spent ≤ ticks
  waits : pr.state = .runnable → stamped → pr.spent ≤ pr.waitStart ∧ pr.waitStart ≤ ticks
  sleeps : pr.state = .sleeping → pr.spent ≤ pr.sleepStart ∧ pr.sleepStart ≤ ticks

/-- No thread is about to write the stamp of `p`. -/
def Stamped (s : State) (p : Pid) : Prop := ∀ c, (s.loc (s.cur c)).stamping ≠ some p

def Timely (s : State) : Prop := ∀ p, OnTime s.data.ticks (s.data.proc p) (Stamped s p)

variable {s s' : State} {c : Cpu} {p q : Pid} {l : Loc} {d : Data} {e : Event} {es : List Event}
  {pr : Proc} {ticks : Nat} {stamped stamped' : Prop}

theorem OnTime.mono (h : OnTime ticks pr stamped) (hst : stamped' → stamped) :
    OnTime ticks pr stamped' := { h with waits := fun hs hs' => h.waits hs (hst hs') }

theorem u64_of_lt {n : Nat} (h : n < 2 ^ 64) : u64 n = n := by
  unfold u64
  omega

theorem Data.since_eq {start : Nat} (h : start ≤ d.ticks) (ht : d.ticks < 2 ^ 32) :
    d.since start = d.ticks - start := by
  rw [Data.since, ← Int.ofNat_sub h]
  exact u64_of_lt (by omega)

/-- A process that was asleep is woken: its sleep is counted. -/
theorem OnTime.woken (h : OnTime d.ticks pr stamped) (ht : d.ticks < 2 ^ 32)
    (hs : pr.state = .sleeping) (hstate : pr'.state = .runnable)
    (hstart : pr'.startTime = pr.startTime) (hwait : pr'.waitTicks = pr.waitTicks)
    (hsleep : pr'.sleepTicks = u64 (pr.sleepTicks + d.since pr.sleepStart)) (hno : ¬ stamped') :
    OnTime d.ticks pr' stamped' := by
  obtain ⟨hspent, hstamp⟩ := h.sleeps hs
  have hsum : pr'.spent = pr.spent + (d.ticks - pr.sleepStart) := by
    rw [Proc.spent, hsleep, Data.since_eq hstamp ht]
    have hlt : pr.sleepTicks + (d.ticks - pr.sleepStart) < 2 ^ 64 := by
      rw [Proc.spent] at hspent
      omega
    rw [← Int.natCast_add, u64_of_lt hlt, Proc.spent]
    omega
  refine ⟨fun _ => ?_, fun _ hst => absurd hst hno, fun hs' => ?_⟩
  · omega
  · rw [hstate] at hs'
    cases hs'

/-- A process becomes RUNNABLE with its stamp. -/
theorem OnTime.ready (h : OnTime ticks pr stamped) (hs : pr.state ≠ .unused)
    (hstate : pr'.state = .runnable) (hspent : pr'.spent = pr.spent)
    (hstamp : pr'.waitStart = ticks) : OnTime ticks pr' stamped' := by
  refine ⟨fun _ => hspent ▸ h.spent hs, fun _ _ => ⟨?_, le_of_eq hstamp⟩, fun hs' => ?_⟩
  · rw [hspent, hstamp]
    exact h.spent hs
  · rw [hstate] at hs'
    cases hs'

/-- A RUNNABLE process is picked: its wait is counted. -/
theorem OnTime.picked (h : OnTime d.ticks pr stamped) (ht : d.ticks < 2 ^ 32)
    (hs : pr.state = .runnable) (hst : stamped) (hstate : pr'.state = .running)
    (hstart : pr'.startTime = pr.startTime) (hsleep : pr'.sleepTicks = pr.sleepTicks)
    (hwait : pr'.waitTicks = u64 (pr.waitTicks + d.since pr.waitStart)) :
    OnTime d.ticks pr' stamped' := by
  obtain ⟨hspent, hstamp⟩ := h.waits hs hst
  have hsum : pr'.spent = pr.spent + (d.ticks - pr.waitStart) := by
    rw [Proc.spent, hwait, Data.since_eq hstamp ht]
    have hlt : pr.waitTicks + (d.ticks - pr.waitStart) < 2 ^ 64 := by
      rw [Proc.spent] at hspent
      omega
    rw [← Int.natCast_add, u64_of_lt hlt, Proc.spent]
    omega
  refine ⟨fun _ => by omega, fun hs' => ?_, fun hs' => ?_⟩
  · rw [hstate] at hs'
    cases hs'
  · rw [hstate] at hs'
    cases hs'

/-- A process in a state without an open interval. -/
theorem OnTime.settled (hstate : pr.state ≠ .runnable) (hstate' : pr.state ≠ .sleeping)
    (hspent : pr.state ≠ .unused → pr.spent ≤ ticks) : OnTime ticks pr stamped :=
  ⟨hspent, fun hs => absurd hs hstate, fun hs => absurd hs hstate'⟩

theorem Loc.mem_holds_of_stamping (h : l.stamping = some p) : Lock.proc p ∈ l.holds := by
  unfold Loc.stamping at h
  split at h
  · cases h
    exact List.mem_cons_self
  · cases h
    exact List.mem_cons_self
  · cases h

/-- Nobody writes the stamp of a process whose lock another CPU has. -/
theorem Inv.stamped_of_locked (h : Inv s) (hmem : Lock.proc p ∈ s.held Loc.holds c)
    (hl : (s.loc (s.cur c)).stamping ≠ some p) : Stamped s p := by
  intro c' hst
  have hmem' : Lock.proc p ∈ s.held Loc.holds c' := Loc.mem_holds_of_stamping hst
  obtain rfl := h.disc.excl hmem hmem'
  exact hl hst

/-- A stamp that is due after a step was due before it. -/
theorem Inv.stamped_of_step (h : Inv s) (hs : Step s e s')
    (hl : (s.loc (s.cur e.cpu)).stamping ≠ some p) (hst : Stamped s' p) : Stamped s p := by
  intro c
  by_cases hc : c = e.cpu
  · rw [hc]
    exact hl
  · obtain ⟨hcur, hloc⟩ := h.step_other hs hc
    rw [← hloc, ← hcur]
    exact hst c

/-- A step that changes the process in one slot only. -/
theorem Timely.upd (ht : Timely s) (h : Inv s) (hs : Step s e s') {i : Pid} {f : Proc → Proc}
    (d : Data) (hupd : d = s.data.upd i f) (hproc : s'.data.proc = d.proc)
    (hticks : s'.data.ticks = s.data.ticks)
    (hl : ∀ p, (s.loc (s.cur e.cpu)).stamping = some p → p = i)
    (hi : OnTime s.data.ticks (f (s.data.proc i)) (Stamped s' i)) : Timely s' := by
  intro p
  rw [hticks, hproc, hupd]
  by_cases hp : p = i
  · rw [hp, Data.upd_same]
    exact hi
  · rw [Data.upd_of_ne _ _ hp]
    exact (ht p).mono (h.stamped_of_step hs fun hst => hp (hl p hst))

/-- A step that changes fields which hold no times. -/
theorem Timely.sameTimes (ht : Timely s) (h : Inv s) (hs : Step s e s') {i : Pid}
    {f : Proc → Proc} (hupd : s'.data = s.data.upd i f) (hl : (s.loc (s.cur e.cpu)).stamping = none)
    (hstate : (f (s.data.proc i)).state = (s.data.proc i).state)
    (hspent : (f (s.data.proc i)).spent = (s.data.proc i).spent)
    (hwait : (f (s.data.proc i)).waitStart = (s.data.proc i).waitStart)
    (hsleep : (f (s.data.proc i)).sleepStart = (s.data.proc i).sleepStart) : Timely s' := by
  have hnone : ∀ p, (s.loc (s.cur e.cpu)).stamping ≠ some p := by
    rw [hl]
    nofun
  have hi := (ht i).mono (h.stamped_of_step hs (hnone i))
  refine ht.upd h hs _ hupd rfl (by rw [hupd]; rfl) (fun p hp => absurd hp (hnone p)) ?_
  refine ⟨fun hst => ?_, fun hst hsp => ?_, fun hst => ?_⟩
  · rw [hspent]
    exact hi.spent (hstate ▸ hst)
  · rw [hspent, hwait]
    exact hi.waits (hstate ▸ hst) hsp
  · rw [hspent, hsleep]
    exact hi.sleeps (hstate ▸ hst)

/-- A step that changes no times of a process. -/
theorem Timely.quiet (ht : Timely s) (h : Inv s) (hs : Step s e s')
    (hticks : s'.data.ticks = s.data.ticks) (hproc : s'.data.proc = s.data.proc)
    (hl : (s.loc (s.cur e.cpu)).stamping = none) : Timely s' := by
  intro p
  rw [hticks, hproc]
  exact (ht p).mono (h.stamped_of_step hs (by rw [hl]; nofun))

/-- The thread that has woken a process writes its stamp next. -/
theorem not_stamped_of_woken (hs : Step s e s') (hne : s'.data ≠ s.data)
    (hl : (s'.loc (s.cur e.cpu)).stamping = some p) : ¬ Stamped s' p := by
  intro hst
  obtain ⟨i, -, he⟩ := step_iff.mp hs
  have hcur := (Sys.exec_cur_or he).resolve_right hne
  exact hst e.cpu (hcur ▸ hl)

/-- `clockintr` advances the clock in this step. -/
def clocked (s : State) (e : Event) : List Unit :=
  match s.loc (s.cur e.cpu) with
  | .clock .tick _ => [()]
  | _ => []

/-- **One step** keeps the times in order, if the clock does not overflow. -/
theorem timely_step (h : Inv s) (ht : Timely s) (hs : Step s e s')
    (hlt : s.data.ticks + (clocked s e).length < 2 ^ 32) : Timely s' := by
  have hlt' : s.data.ticks < 2 ^ 32 := by omega
  have heff := step_effect hs
  generalize hd : s'.data = d' at heff
  -- the state of the process whose thread is executed
  have hmine : ∀ {p}, (s.cur e.cpu).me = some p → stateOf s p ≠ .unused := by
    intro p hme hst
    have hon := (h.on e.cpu p (Tid.eq_of_me hme)).2.2
    rw [hst] at hon
    exact Inv.onState_ne_used.2 hon
  have hok := h.ok (s.cur e.cpu)
  have hticks : ∀ {i f}, s'.data = s.data.upd i f → s'.data.ticks = s.data.ticks := by
    intro i f heq
    rw [heq]
    rfl
  cases heff with
  | none hl | cproc f hl => exact ht.quiet h hs (by rw [hd]) (by rw [hd]) hl
  | pick i f hl hst =>
    refine ht.upd h hs (s.data.pick i) rfl (by rw [hd]) (by rw [hd]; rfl)
      (by rw [hl]; rintro _ ⟨⟩) ?_
    have hstamped : Stamped s i := by
      refine h.stamped_of_locked ?_ (by rw [hl]; rintro ⟨⟩)
      rw [Sys.held, hl]
      exact List.mem_singleton_self _
    exact (ht i).picked hlt' hst hstamped rfl rfl rfl rfl
  | wake ch i ret hl hnext hst hch =>
    refine ht.upd h hs _ hd rfl (hticks hd) (by rw [hl]; rintro _ ⟨⟩) ?_
    refine (ht i).woken hlt' hst rfl rfl rfl rfl (not_stamped_of_woken hs (fun heq => ?_) ?_)
    · have hst' : (s'.data.proc i).state = .runnable := by rw [hd, Data.wake, Data.upd_same]
      rw [heq, hst] at hst'
      cases hst'
    · rw [hnext]
      rfl
  | stamp i hl =>
    refine ht.upd h hs _ hd rfl (hticks hd) (fun p hp => ?_) ?_
    · rcases hl with hl | ⟨q, hl⟩
      · rw [hl] at hp
        exact (Option.some.inj hp).symm
      · rw [hl] at hp
        cases hp
    · have hspent := (ht i).spent
      exact ⟨hspent, fun hst _ => ⟨hspent (by rw [hst]; rintro ⟨⟩), le_rfl⟩,
        (ht i).sleeps⟩
  | killed pid i hl | forkParent p np hl | reparent p q status hl hq hnext | tidy p ch lk ret hl =>
    exact ht.sameTimes h hs hd (by rw [hl]; rfl) rfl rfl rfl rfl
  | killedWake pid i hl hnext hst =>
    rw [Data.wake, Data.upd_upd] at hd
    refine ht.upd h hs _ hd rfl (hticks hd) (by rw [hl]; rintro _ ⟨⟩) ?_
    refine (ht i).woken hlt' hst rfl rfl rfl rfl (not_stamped_of_woken hs (fun heq => ?_) ?_)
    · have hst' : (s'.data.proc i).state = .runnable := by rw [hd, Data.upd_same]
      rw [heq, hst] at hst'
      cases hst'
    · rw [hnext]
      rfl
  | alloc p i hl hst =>
    refine ht.upd h hs (s.data.alloc i) rfl (by rw [hd]) (by rw [hd]; rfl)
      (by rw [hl]; rintro _ ⟨⟩) ?_
    refine .settled (by rintro ⟨⟩) (by rintro ⟨⟩) fun _ => ?_
    show 0 + 0 + s.data.ticks ≤ s.data.ticks
    omega
  | forkFail p np hl | reap p q hl hst =>
    refine ht.upd h hs _ hd rfl (hticks hd) (by rw [hl]; rintro _ ⟨⟩) ?_
    exact .settled (by rintro ⟨⟩) (by rintro ⟨⟩) fun hne => absurd rfl hne
  | forkReady p np hl =>
    refine ht.upd h hs _ hd rfl (hticks hd) (by rw [hl]; rintro _ ⟨⟩) ?_
    have hst := h.forked (s.cur e.cpu) np (by rw [hl]; rfl)
    exact (ht np).ready (by rw [stateOf] at hst; rw [hst]; rintro ⟨⟩) rfl rfl rfl
  | zombie p status hl =>
    rw [hl] at hok
    refine ht.upd h hs _ hd rfl (hticks hd) (by rw [hl]; rintro _ ⟨⟩) ?_
    exact .settled (by rintro ⟨⟩) (by rintro ⟨⟩) fun _ => (ht p).spent (hmine hok)
  | doze p ch lk ret hl =>
    rw [hl] at hok
    have hspent := (ht p).spent (hmine hok.1)
    refine ht.upd h hs _ hd rfl (hticks hd) (by rw [hl]; rintro _ ⟨⟩) ?_
    exact ⟨fun _ => hspent, (by rintro ⟨⟩), fun _ => ⟨hspent, le_rfl⟩⟩
  | tick ret hl =>
    intro p
    have hp := (ht p).mono (h.stamped_of_step hs (by rw [hl]; rintro ⟨⟩))
    -- without overflow, no stamp is ahead of the new time
    have hsucc : s'.data.ticks = s.data.ticks + 1 := by
      rw [hd]
      show u32 (s.data.ticks + 1) = s.data.ticks + 1
      rw [clocked, hl] at hlt
      unfold u32
      simp only [List.length_singleton] at hlt
      omega
    rw [hsucc, hd]
    refine ⟨fun hst => (hp.spent hst).trans (Nat.le_succ _), fun hst hsp => ?_, fun hst => ?_⟩
    · exact ⟨(hp.waits hst hsp).1, (hp.waits hst hsp).2.trans (Nat.le_succ _)⟩
    · exact ⟨(hp.sleeps hst).1, (hp.sleeps hst).2.trans (Nat.le_succ _)⟩
  | yield p ret hl =>
    rw [hl] at hok
    refine ht.upd h hs _ hd rfl (hticks hd) (by rw [hl]; rintro _ ⟨⟩) ?_
    exact (ht p).ready (hmine hok.1) rfl rfl rfl

/-- The clock ticks of a run. -/
def clockTicks (es : List Event) : Nat := (record stepFn clocked boot es).length

theorem ticks_step (hs : Step s e s') : s'.data.ticks ≤ s.data.ticks + (clocked s e).length := by
  have heff := step_effect hs
  generalize hd : s'.data = d' at heff
  cases heff with
  | tick ret hl =>
    rw [clocked, hl]
    show u32 (s.data.ticks + 1) ≤ s.data.ticks + 1
    unfold u32
    omega
  | _ => exact Nat.le_add_right _ _

/-- **Every run** keeps the times in order. -/
theorem timely_run (hrun : Run Step boot es s) (hclock : clockTicks es < 2 ^ 32) :
    Timely s ∧ s.data.ticks ≤ clockTicks es := by
  induction hrun with
  | start =>
    have hzero : ∀ p, (boot.data.proc p).spent = 0 ∧ (boot.data.proc p).waitStart = 0 ∧
        (boot.data.proc p).sleepStart = 0 := by
      intro p
      by_cases hp : p = 0
      · rw [hp]
        exact ⟨rfl, rfl, rfl⟩
      · simp [boot, Function.update_of_ne hp, Proc.zero, Proc.spent]
    refine ⟨fun p => ?_, le_rfl⟩
    obtain ⟨hspent, hwait, hsleep⟩ := hzero p
    refine ⟨fun _ => hspent.le, fun _ _ => ?_, fun _ => ?_⟩
    · rw [hspent, hwait]
      exact ⟨le_rfl, le_rfl⟩
    · rw [hspent, hsleep]
      exact ⟨le_rfl, le_rfl⟩
  | @snoc es s t e hrun hs ih =>
    have hlen : clockTicks (es ++ [e]) = clockTicks es + (clocked s e).length := by
      rw [clockTicks, Run.record_snoc hrun, List.length_append, clockTicks]
    obtain ⟨ht, hle⟩ := ih (by omega)
    have hticks := ticks_step hs
    exact ⟨timely_step (inv_run hrun) ht hs (by omega), by omega⟩

/-- A process whose lock is free has its stamp. -/
theorem Inv.stamped_of_free (h : Inv s) (hfree : s.owner (.proc p) = none) : Stamped s p := by
  intro c hst
  have hown := (h.disc.own c (.proc p)).mpr (Loc.mem_holds_of_stamping hst)
  rw [hfree] at hown
  cases hown

/--
**Time accounting adds up.** In every run with fewer than 2³² clock ticks, the time
counted for a process whose lock is free, with the interval that is still open, is at
most its age; no interval begins before the process or ends after now.
-/
theorem time_adds_up (hrun : Run Step boot es s) (hclock : clockTicks es < 2 ^ 32)
    (hfree : s.owner (.proc p) = none) (hused : (s.data.proc p).state ≠ .unused) :
    let pr := s.data.proc p
    pr.waitTicks + pr.sleepTicks +
        (if pr.state = .runnable then s.data.ticks - pr.waitStart else 0) +
        (if pr.state = .sleeping then s.data.ticks - pr.sleepStart else 0) ≤
      s.data.ticks - pr.startTime ∧ pr.startTime ≤ s.data.ticks ∧
    (pr.state = .runnable → pr.startTime ≤ pr.waitStart ∧ pr.waitStart ≤ s.data.ticks) ∧
    (pr.state = .sleeping → pr.startTime ≤ pr.sleepStart ∧ pr.sleepStart ≤ s.data.ticks) := by
  intro pr
  have hp : OnTime s.data.ticks pr (Stamped s p) := (timely_run hrun hclock).1 p
  have hst := (inv_run hrun).stamped_of_free hfree
  have hspent := hp.spent hused
  rw [Proc.spent] at hspent
  have hwaits : pr.state = .runnable → pr.waitTicks + pr.sleepTicks + pr.startTime ≤ pr.waitStart ∧
      pr.waitStart ≤ s.data.ticks := fun hs => hp.waits hs hst
  have hsleeps : pr.state = .sleeping →
      pr.waitTicks + pr.sleepTicks + pr.startTime ≤ pr.sleepStart ∧ pr.sleepStart ≤ s.data.ticks :=
    hp.sleeps
  refine ⟨?_, by omega, fun hs => ?_, fun hs => ?_⟩
  · split
    · rename_i hs
      have hne : pr.state ≠ .sleeping := by
        rw [hs]
        nofun
      rw [if_neg hne]
      have := hwaits hs
      omega
    · split
      · rename_i hs
        have := hsleeps hs
        omega
      · omega
  · have := hwaits hs
    omega
  · have := hsleeps hs
    omega

/-- The clock ticks on CPU 0; then CPU 1 runs the first process, which yields. -/
def tickAndYield : List Event :=
  [⟨0, .next true⟩, ⟨0, .trap none⟩, ⟨0, .next true⟩, ⟨0, .next true⟩] ++
  [⟨1, .next true⟩, ⟨1, .next true⟩, ⟨1, .next true⟩, ⟨1, .next true⟩, ⟨1, .next true⟩,
    ⟨1, .next true⟩, ⟨1, .trap none⟩, ⟨1, .next true⟩, ⟨1, .next true⟩, ⟨1, .next true⟩,
    ⟨1, .next true⟩, ⟨1, .next true⟩, ⟨1, .next true⟩]

theorem time_adds_up_tickAndYield : ∃ s, Run Step boot tickAndYield s ∧
    (s.data.proc 0).state = .runnable ∧ s.data.ticks = 1 ∧ (s.data.proc 0).waitTicks = 1 ∧
    (s.data.proc 0).waitTicks + (s.data.proc 0).sleepTicks +
        (if (s.data.proc 0).state = .runnable then
          s.data.ticks - (s.data.proc 0).waitStart else 0) +
        (if (s.data.proc 0).state = .sleeping then
          s.data.ticks - (s.data.proc 0).sleepStart else 0) ≤
      s.data.ticks - (s.data.proc 0).startTime := by
  have hexec : (exec stepFn boot tickAndYield).map (fun s => (s.owner (.proc 0),
      (s.data.proc 0).state, s.data.ticks, (s.data.proc 0).waitTicks)) =
        some (none, .runnable, 1, 1) := by decide +kernel
  obtain ⟨s, hs, heq⟩ := Option.map_eq_some_iff.mp hexec
  simp only [Prod.mk.injEq] at heq
  obtain ⟨hfree, hst, hticks, hwait⟩ := heq
  have hrun : Run Step boot tickAndYield s := run_of_exec hs
  have hclock : clockTicks tickAndYield < 2 ^ 32 := by decide +kernel
  exact ⟨s, hrun, hst, hticks, hwait, (time_adds_up hrun hclock hfree (by rw [hst]; nofun)).1⟩

end Xv6.Sched
