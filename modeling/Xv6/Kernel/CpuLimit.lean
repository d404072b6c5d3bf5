import Xv6.Kernel.Trap

/-!
# xv6 — the limit on CPU time

`usertrap` tests `killed` before it charges the tick that may set it, and then
returns to user mode; `kerneltrap` charges ticks without looking at the limit;
and `setrlimit` compares the ticks used with the new limit before it stores it,
with interrupts enabled. The limit therefore only holds as long as no timer
interrupt reaches it. The first process has one as well.

## Results

* `ret_below_limit`       — as long as no timer interrupt reaches the limit, a
  process that returns to user mode is below it.
* `ret_at_limit`          — a process at its limit returns to user mode.
* `init_never_exits`      — as long as no timer interrupt in user mode brings the
  first process to its limit, it does not exit.
* `init_exits_at_limit`   — after 100 of them, it does.
-/

namespace Xv6.Kernel

open Prog TransitionRun

variable {T : Table} {c : Core} {e' : Event} {i p : Pid} {f : State → Pid → Phase}

/-! ### Below the limit -/

/-- A process in use has used less than its limit. -/
def CpuBelow (c : Core) : Prop := c.state ≠ .unused → c.cpuTicks < c.cpuTicksMax

/-- A timer interrupt leaves the process below its limit. -/
def TicksBelow (T : Table) (e : Event) : Prop :=
  ∀ p user, e = .timer p user → (T.proc p).cpuTicks + 1 < (T.proc p).cpuTicksMax

theorem u64_succ_le (n : Nat) : u64 ((n : Int) + 1) ≤ n + 1 := by
  unfold u64
  omega

theorem cpuBelow_change {e : Event} {q : Pid} (hC : TicksBelow T e) (h : ∀ p, CpuBelow (T.proc p))
    (hc : Change T e q c) : CpuBelow c := by
  cases hc with
  | parent par => exact h q
  | wake par hs | exit par status fails he hs | dispatch he hs | resume he hs
  | fault va fails he hs => exact fun _ => h q (by simp [hs])
  | forkFail pid hs | reaped hs => exact fun hs' => absurd rfl hs'
  | born p pid hs hp => exact fun _ => Nat.zero_lt_of_lt (h p (by simp [hp]))
  | sleep ch b hs => exact fun _ => h q (by rcases hs with ⟨-, hs⟩ | ⟨-, hs, -⟩ <;> simp [hs])
  | timer user he hs => exact fun _ => lt_of_le_of_lt (u64_succ_le _) (hC q user he)
  | kill p pid fails he hpid =>
    intro hs
    refine h q fun hs' => hs ?_
    simp [Core.kill, hs']
  | own call fails c' he hs ho =>
    have hold := h q (by simp [hs])
    cases ho with
    | cpuLimit n h0 hmax hlt => exact fun _ => hlt
    | _ => exact fun _ => hold

/-- The process that a timer interrupt charges. -/
def TEvent.charged : TEvent → Option Pid
  | .act p .timer | .act p .ktimer => some p
  | _ => none

/-- The limit that a process is about to store. -/
def Phase.pending : Phase → Option Int
  | .checked n => some n
  | _ => none

/-- A timer interrupt leaves the process below its limit, and below the one it is
about to store. -/
def InTime (s : TState) (e : TEvent) : Prop :=
  ∀ p ∈ e.charged, (s.kern.proc p).cpuTicks + 1 < (s.kern.proc p).cpuTicksMax ∧
    ∀ n ∈ (s.phase p).pending, (s.kern.proc p).cpuTicks + 1 < u64 n

/-- A process that is about to store a limit has used less. -/
def PendingBelow (s : TState) : Prop :=
  ∀ p n, s.phase p = .checked n →
    ((s.kern.proc p).state = .running ∨ (s.kern.proc p).state = .runnable) ∧
      (s.kern.proc p).cpuTicks < u64 n

variable {s s' : TState} {e : TEvent}

/-- A step of the kernel: what is left to show is about the process that moves. -/
theorem pendingBelow_step (h : PendingBelow s) (hstep : Step s.kern e' s'.kern)
    (hphase : ∀ q n, s'.phase q = .checked n → s.phase q = .checked n)
    (hactor : ∀ q n, e'.actor = some q → s'.phase q = .checked n →
      ((s'.kern.proc q).state = .running ∨ (s'.kern.proc q).state = .runnable) ∧
        (s'.kern.proc q).cpuTicks < u64 n) : PendingBelow s' := by
  intro q n hq
  by_cases ha : e'.actor = some q
  · exact hactor q n ha hq
  · obtain ⟨hs, hlt⟩ := h q n (hphase q n hq)
    obtain ⟨hstate, hticks⟩ := (step_change hstep q).passive ha hs
    have hstate' : (s'.kern.proc q).state = (s.kern.proc q).state := hstate
    have hticks' : (s'.kern.proc q).cpuTicks = (s.kern.proc q).cpuTicks := hticks
    rw [hstate', hticks']
    exact ⟨hs, hlt⟩

/-- The process moves on to a phase without a limit to store. -/
theorem pendingBelow_goto {ph : Phase} (h : PendingBelow s) (hstep : Step s.kern e' s'.kern)
    (ha : e'.actor = some p) (hph : s'.phase = s.goto p ph) (hnot : ph.pending = none) :
    PendingBelow s' := by
  have hp : ∀ n, s'.phase p ≠ .checked n := by
    intro n hn
    rw [hph, TState.goto_same] at hn
    simp [hn, Phase.pending] at hnot
  refine pendingBelow_step h hstep (fun q n hq => ?_) fun q n hq hn => ?_
  · have hne : q ≠ p := fun heq => hp n (heq ▸ hq)
    rwa [hph, TState.goto_of_ne _ _ hne] at hq
  · have heq : q = p := by
      rw [ha] at hq
      exact (Option.some.inj hq).symm
    exact absurd (heq ▸ hn) (hp n)

theorem pending_after (pr : Proc) : (Phase.after pr).pending = none := by
  unfold Phase.after
  split <;> rfl

/-- Nothing happens in the kernel, and the process moves on to a phase without a
limit to store. -/
theorem pendingBelow_idle {ph : Phase} (h : PendingBelow s) (hk : s'.kern = s.kern)
    (hph : s'.phase = s.goto p ph) (hp : ∀ n, ph = .checked n → ((s.kern.proc p).state = .running ∨
      (s.kern.proc p).state = .runnable) ∧ (s.kern.proc p).cpuTicks < u64 n) : PendingBelow s' := by
  intro q n hq
  rw [hph] at hq
  rw [hk]
  by_cases hne : q = p
  · subst hne
    rw [TState.goto_same] at hq
    exact hp n hq
  · rw [TState.goto_of_ne _ _ hne] at hq
    exact h q n hq

/-- The invariant: everybody is below its limit, and below the one it is about to
store. -/
structure Below (s : TState) : Prop where
  limit : ∀ p, CpuBelow (s.kern.table.proc p)
  pending : PendingBelow s

/-- A timer interrupt, seen in the entry of the process it interrupts. -/
theorem Change.timer_self {user : Bool} (h : Change T (.timer p user) p c)
    (hs : (T.proc p).state = .running) :
    (c.state = .running ∨ c.state = .runnable) ∧ c.cpuTicks ≤ (T.proc p).cpuTicks + 1 := by
  cases h with
  | parent par => exact ⟨.inl hs, Nat.le_succ _⟩
  | timer user' he _ => exact ⟨.inr rfl, u64_succ_le _⟩
  | wake par hw | forkFail pid hw | born p pid hw hp | reaped hw | dispatch he hw | resume he hw =>
    simp [hs] at hw
  | sleep ch b hw =>
    rcases hw with ⟨⟨_, _, he⟩, -⟩ | ⟨⟨_, he⟩, -⟩ <;> cases he
  | exit par status fails he hw | fault va fails he hw | kill p pid fails he hpid
  | own call fails c' he hw ho => cases he

/-- The scheduler's choice of a process that is not asleep in a call, seen in its
entry. -/
theorem Change.dispatch_self {fails : List Bool} (h : Change T (.dispatch p fails) p c)
    (hs : (T.proc p).state = .runnable) (hb : (T.proc p).blocked = none) :
    (c.state = .running ∨ c.state = .runnable) ∧ c.cpuTicks = (T.proc p).cpuTicks := by
  cases h with
  | parent par => exact ⟨.inr hs, rfl⟩
  | dispatch he _ | resume he _ => exact ⟨.inl rfl, rfl⟩
  | wake par hw | forkFail pid hw | born p pid hw hp | reaped hw => simp [hs] at hw
  | sleep ch b hw => simp [hb] at hw
  | timer user he hw | exit par status fails he hw | fault va fails he hw
  | kill p pid fails he hpid | own call fails c' he hw ho => cases he

theorem pendingBelow_tstep (hC : InTime s e) (h : PendingBelow s) (hstep : TStep s e s') :
    PendingBelow s' := by
  obtain ⟨w, f, hplan, hw, hphase⟩ := tstep_cases hstep
  cases hplan with
  | die p a _ hp hkilled | timer p hp hph hkilled | fault p va fails hp | store p va v hp =>
    cases hw with
    | event _ hk => exact pendingBelow_goto h hk rfl hphase rfl
  | enter p c hp | pass p intr hp hkilled | ret p hp | device p hp hkilled =>
    cases hw with
    | idle hk => exact pendingBelow_idle h hk hphase (by rintro _ ⟨⟩)
  | check p c n fails hp hph hok =>
    cases hw with
    | idle hk =>
      refine pendingBelow_idle h hk hphase fun m hm => ⟨.inl hp, ?_⟩
      cases hm
      simp only [cpuLimitOk, decide_eq_true_eq, not_or, not_le] at hok
      exact hok.2.2
  | call p c fails hp hph | resume p fails hp hb =>
    cases hw with
    | event _ hk => exact pendingBelow_goto h hk rfl hphase (pending_after _)
  | setMax p n hp hph =>
    cases hw with
    | setMax _ _ hk =>
      have hphase : s'.phase = s.goto p (.leaving true) := hphase
      intro q m hq
      rw [hphase] at hq
      have hne : q ≠ p := by
        rintro rfl
        rw [TState.goto_same] at hq
        cases hq
      rw [TState.goto_of_ne _ _ hne] at hq
      have hcore : (s'.kern.proc q).core = (s.kern.proc q).core := by
        rw [← State.table_proc, hk, Table.set_of_ne _ _ hne, State.table_proc]
      have hold := h q m hq
      have hstate : (s'.kern.proc q).state = (s.kern.proc q).state := congrArg Core.state hcore
      have hticks : (s'.kern.proc q).cpuTicks = (s.kern.proc q).cpuTicks :=
        congrArg Core.cpuTicks hcore
      rwa [hstate, hticks]
  | ktimer p hp hintr =>
    cases hw with
    | event _ hk =>
      have hphase : s'.phase = s.phase := hphase
      refine pendingBelow_step h hk (fun q n hq => hphase ▸ hq) fun q n hq hn => ?_
      cases hq
      obtain ⟨hs, hle⟩ := (step_change hk p).timer_self hp
      refine ⟨hs, lt_of_le_of_lt hle ((hC p rfl).2 n ?_)⟩
      rw [← hphase, hn]
      rfl
  | dispatch p fails hp hb =>
    cases hw with
    | event _ hk =>
      have hphase : s'.phase = s.phase := hphase
      refine pendingBelow_step h hk (fun q n hq => hphase ▸ hq) fun q n hq hn => ?_
      cases hq
      obtain ⟨hs, heq⟩ := (step_change hk p).dispatch_self hp hb
      refine ⟨hs, lt_of_eq_of_lt heq (h p n ?_).2⟩
      rw [← hphase, hn]
  | tick =>
    cases hw with
    | event _ hk =>
      have hphase : s'.phase = s.phase := hphase
      exact pendingBelow_step h hk (fun q n hq => hphase ▸ hq) fun q n hq _ => by cases hq

/-- The events of the kernel that an event in time causes leave everybody below
its limit. -/
theorem ticksBelow_of_plan (hC : InTime s e) (h : Plan s e (.event e') f) :
    TicksBelow s.kern.table e' := by
  rintro p user rfl
  cases h with
  | timer | ktimer => exact (hC p rfl).1

theorem below_tstep (hC : InTime s e) (h : Below s) (hstep : TStep s e s') : Below s' where
  pending := pendingBelow_tstep hC h.pending hstep
  limit := by
    obtain ⟨w, f, hplan, hw, -⟩ := tstep_cases hstep
    cases hw with
    | idle hk =>
      rw [hk]
      exact h.limit
    | event e' hk =>
      exact fun q => cpuBelow_change (ticksBelow_of_plan hC hplan) h.limit (step_change hk q)
    | setMax p n hk =>
      intro q
      rw [hk]
      by_cases hq : q = p
      · subst hq
        rw [Table.set_same]
        cases hplan with
        | setMax _ _ hp hph => exact fun _ => (h.pending q n hph).2
      · rw [Table.set_of_ne _ _ hq]
        exact h.limit q

/--
**The limit holds as long as no timer interrupt reaches it.** In every run in
which each timer interrupt, in user mode or in the kernel, leaves the process
below its limit (and below the one it is about to store), a process that returns
to user mode has used less than its limit.
-/
theorem ret_below_limit {k : State} {es : List TEvent} {p : Pid} (hk : Booted k)
    (hrun : Run (Restrict InTime TStep) (.init k) es s) (hret : TStep s (.act p .ret) s') :
    (s'.kern.proc p).cpuTicks < (s'.kern.proc p).cpuTicksMax := by
  have hfirst : ∀ pid cwd, CpuBelow (Core.first pid cwd) := by
    intro pid cwd _
    simp [Core.first, Core.started]
  have hbelow : Below s := hrun.invariant (P := Below)
    ⟨hk.forall_core (fun hs => absurd rfl hs) hfirst, by rintro _ _ ⟨⟩⟩
    fun _ _ _ h hs => below_tstep hs.1 h hs.2
  obtain ⟨w, f, hplan, hw, -⟩ := tstep_cases hret
  cases hplan with
  | die _ _ hne => exact absurd rfl hne
  | ret _ hp =>
    cases hw with
    | idle hkern =>
      rw [hkern]
      exact hbelow.limit p (by simp [Proc.core, hp])

instance (s : TState) (e : TEvent) : Decidable (InTime s e) :=
  inferInstanceAs (Decidable (∀ p ∈ e.charged, _ ∧ ∀ n ∈ (s.phase p).pending, _))

/-- init sets its CPU limit to `n` ticks, and a timer interrupt comes. -/
def limitAndTick (n : Int) : List TEvent :=
  [.dispatch 0 [], .act 0 (.ecall (.setrlimit RLIMIT_CPU n)), .act 0 (.body []), .act 0 .setMax,
    .act 0 .test, .act 0 .ret, .act 0 .timer, .dispatch 0 []]

theorem ret_below_limit_tick : ∃ k s s', Booted k ∧
    Run (Restrict InTime TStep) (.init k) (limitAndTick 2) s ∧ TStep s (.act 0 .ret) s' ∧
    (s'.kern.proc 0).cpuTicks = 1 ∧ (s'.kern.proc 0).cpuTicks < (s'.kern.proc 0).cpuTicksMax := by
  obtain ⟨k, s, hk, hrun, hs⟩ := run_of_trapRun (limitAndTick 2) (C := InTime)
    (g := fun s => (s.next (.act 0 .ret)).map fun s' => (s'.kern.proc 0).cpuTicks) (b := some 1)
    fresh_small (by decide +kernel)
  obtain ⟨s', hnext, hticks⟩ := Option.map_eq_some_iff.mp hs
  have hret := tstep_of_next hnext
  exact ⟨k, s, s', hk, hrun, hret, hticks, ret_below_limit hk hrun hret⟩

/-- **A process at its limit returns to user mode.** The tick that reaches the
limit is charged after the test of `killed`. -/
theorem ret_at_limit : ∃ k s s', Booted k ∧ Run TStep (.init k) (limitAndTick 1) s ∧
    TStep s (.act 0 .ret) s' ∧ (s'.kern.proc 0).cpuTicksMax ≤ (s'.kern.proc 0).cpuTicks := by
  obtain ⟨k, s, hk, hrun, hs⟩ := run_of_trapRun (limitAndTick 1) (C := fun _ _ => True)
    (g := fun s => (s.next (.act 0 .ret)).map fun s' =>
      ((s'.kern.proc 0).cpuTicksMax, (s'.kern.proc 0).cpuTicks)) (b := some (1, 1))
    fresh_small (by decide +kernel)
  obtain ⟨s', hnext, hticks⟩ := Option.map_eq_some_iff.mp hs
  simp only [Prod.mk.injEq] at hticks
  exact ⟨k, s, s', hk, hrun.of_restrict, tstep_of_next hnext, by rw [hticks.1, hticks.2]⟩

/-! ### The first process -/

/-- The process id that somebody is to be killed by. -/
def TEvent.killArg : TEvent → Option Int
  | .act _ (.ecall (.kill pid)) => some pid
  | _ => none

/-- The process that calls `exit` or faults. -/
def TEvent.exitOrFault : TEvent → Option Pid
  | .act p (.ecall (.exit _)) | .act p (.fault _ _) => some p
  | _ => none

/-- The process that a timer interrupt in user mode charges. -/
def TEvent.userTimer : TEvent → Option Pid
  | .act p .timer => some p
  | _ => none

/-- Nobody calls `kill` for the first process, which neither calls `exit` nor
faults. -/
def InitBehaves (s : TState) (e : TEvent) : Prop :=
  (∀ pid ∈ e.killArg, ∀ q ∈ s.kern.initproc, (s.kern.proc q).pid ≠ pid) ∧
    ∀ p ∈ e.exitOrFault, s.kern.initproc ≠ some p

/-- A timer interrupt in user mode leaves the first process below its limit. -/
def InitInTime (s : TState) (e : TEvent) : Prop :=
  ∀ p ∈ e.userTimer, s.kern.initproc = some p →
    (s.kern.proc p).cpuTicks + 1 < (s.kern.proc p).cpuTicksMax

/-- An event of the kernel that leaves process `i` alive. -/
structure Spares (T : Table) (i : Pid) (e : Event) : Prop where
  kill : ∀ p pid fails, e = .call p (.kill pid) fails → (T.proc i).pid ≠ pid
  exit : ∀ status fails, e ≠ .call i (.exit status) fails
  fault : ∀ va fails, e ≠ .fault i va fails
  timer : e = .timer i true → (T.proc i).cpuTicks + 1 < (T.proc i).cpuTicksMax

/-- A process is alive and will stay so. -/
structure Alive (c : Core) : Prop where
  used : c.state ≠ .unused
  noZombie : c.state ≠ .zombie
  killed : c.killed = false

theorem alive_change {e : Event} (hC : Spares T i e) (h : Alive (T.proc i)) (hc : Change T e i c) :
    Alive c ∧ c.pid = (T.proc i).pid := by
  cases hc with
  | parent par => exact ⟨⟨h.used, h.noZombie, h.killed⟩, rfl⟩
  | wake par hs | sleep ch b hs | dispatch he hs | resume he hs =>
    exact ⟨⟨nofun, nofun, h.killed⟩, rfl⟩
  | forkFail pid hs | born p pid hs hp => exact absurd hs h.used
  | exit par status fails he hs => exact absurd he (hC.exit status fails)
  | reaped hs => exact absurd hs h.noZombie
  | timer user he hs =>
    refine ⟨⟨nofun, nofun, ?_⟩, rfl⟩
    simp only [Core.timer, h.killed, Bool.false_or, Bool.and_eq_false_iff, decide_eq_false_iff_not]
    cases user with
    | false => exact .inl rfl
    | true =>
      refine .inr fun hle => ?_
      exact absurd (hC.timer he) (not_lt.mpr (hle.2.trans (u64_succ_le _)))
  | fault va fails he hs => exact absurd he (hC.fault va fails)
  | kill p pid fails he hpid => exact absurd hpid (hC.kill p pid fails he)
  | own call fails c' he hs ho =>
    cases ho <;> exact ⟨⟨h.used, h.noZombie, h.killed⟩, rfl⟩

/-- A system call that was admitted: it does not kill the process with id `pid`. -/
def Call.spares (pid : Int) (c : Call) : Prop := ∀ pid', c = .kill pid' → pid ≠ pid'

/-- The invariant of the first process. -/
structure InitAlive (i : Pid) (s : TState) : Prop where
  init : s.kern.initproc = some i
  alive : Alive (s.kern.table.proc i)
  /-- nobody is in a `kill` for it -/
  kills : ∀ p c, s.phase p = .entered c → c.spares (s.kern.proc i).pid
  /-- nor is it in `exit` -/
  exits : ∀ status, s.phase i ≠ .entered (.exit status)

/-- The events of the kernel that the machine causes spare the first process. -/
theorem spares_of_plan (hB : InitBehaves s e) (hT : InitInTime s e) (h : InitAlive i s)
    (hplan : Plan s e (.event e') f) : Spares s.kern.table i e' := by
  cases hplan with
  | die p a _ hp hkilled =>
    refine ⟨nofun, ?_, nofun, nofun⟩
    rintro status fails heq
    cases heq
    have hfalse : (s.kern.proc i).killed = false := h.alive.killed
    simp [hfalse] at hkilled
  | call p c fails hp hph =>
    refine ⟨?_, ?_, nofun, nofun⟩
    · rintro _ pid _ heq
      cases heq
      exact h.kills p _ hph pid rfl
    · rintro status _ heq
      cases heq
      exact h.exits status hph
  | timer p hp hph hkilled =>
    refine ⟨nofun, nofun, nofun, ?_⟩
    intro heq
    cases heq
    exact hT i rfl h.init
  | ktimer p hp hintr | store p va v hp | dispatch p fails hp hb | resume p fails hp hb | tick =>
    exact ⟨nofun, nofun, nofun, nofun⟩
  | fault p va fails hp =>
    refine ⟨nofun, nofun, ?_, nofun⟩
    intro va' fails' heq
    cases heq
    exact hB.2 i rfl h.init

/-- The kernel's part of a step keeps the first process alive. -/
theorem alive_worked {w : Work} (hB : InitBehaves s e) (hT : InitInTime s e) (h : InitAlive i s)
    (hplan : Plan s e w f) (hw : Worked s.kern s'.kern w) :
    s'.kern.initproc = some i ∧ Alive (s'.kern.table.proc i) ∧
      (s'.kern.proc i).pid = (s.kern.proc i).pid := by
  cases hw with
  | idle hk =>
    rw [hk]
    exact ⟨h.init, h.alive, rfl⟩
  | event e' hk =>
    have hc := alive_change (spares_of_plan hB hT h hplan) h.alive (step_change hk i)
    exact ⟨(step_initproc hk).trans h.init, hc⟩
  | setMax p n hk =>
    have hinit : s'.kern.initproc = some i := by
      rw [← State.table_initproc, hk]
      exact h.init
    refine ⟨hinit, ?_⟩
    have hpid : (s'.kern.proc i).pid = (s'.kern.table.proc i).pid := rfl
    rw [hpid, hk]
    by_cases hi : i = p
    · subst hi
      rw [Table.set_same]
      exact ⟨⟨h.alive.used, h.alive.noZombie, h.alive.killed⟩, rfl⟩
    · rw [Table.set_of_ne _ _ hi]
      exact ⟨h.alive, rfl⟩

theorem initAlive_tstep (hB : InitBehaves s e) (hT : InitInTime s e) (h : InitAlive i s)
    (hstep : TStep s e s') : InitAlive i s' := by
  obtain ⟨w, f, hplan, hw, hphase⟩ := tstep_cases hstep
  obtain ⟨hinit, halive, hpid⟩ := alive_worked hB hT h hplan hw
  refine ⟨hinit, halive, fun p c hc => ?_, fun status hc => ?_⟩
  · rw [hphase] at hc
    rw [hpid]
    rcases hplan.entered hc with hc | rfl
    · exact h.kills p c hc
    · rintro pid rfl
      exact hB.1 pid rfl i h.init
  · rw [hphase] at hc
    rcases hplan.entered hc with hc | rfl
    · exact h.exits status hc
    · exact hB.2 i rfl h.init

/-- A step of the machine makes the first process exit only if it was killed or
has called `exit`. -/
theorem not_tstops_of_initAlive (h : InitAlive i s) : ¬ TStops s e (.kern .initExiting) := by
  rintro ⟨w, f, hplan, hbody⟩
  have hcases := plan_cases hplan
  cases w with
  | idle => cases hbody
  | setMax p n => exact wp_error wp_setMax hbody rfl
  | event e' =>
    obtain ⟨p, status, fails, rfl, hp⟩ := stops_initExiting ⟨hcases.enabled, hbody⟩
    have hi : p = i := Option.some.inj (hp.symm.trans h.init)
    subst hi
    cases hcases with
    | die _ _ _ hrun hkilled =>
      have hfalse : (s.kern.proc p).killed = false := h.alive.killed
      simp [hfalse] at hkilled
    | call _ _ _ hrun hph => exact h.exits status hph

/--
**The first process does not exit, as long as its limit is not reached in user
mode.** In every run in which nobody calls `kill` for it, it neither calls `exit`
nor faults, and each timer interrupt in user mode leaves it below its limit, the
kernel never panics with "init exiting".
-/
theorem init_never_exits {k : State} {es : List TEvent} (hk : Booted k)
    (hrun : Run (Restrict (fun s e => InitBehaves s e ∧ InitInTime s e) TStep) (.init k) es s)
    (e : TEvent) : ¬ TStops s e (.kern .initExiting) := by
  obtain ⟨i, hinit, ⟨pid, cwd, hi⟩, -⟩ := hk.core
  have halive : Alive ((TState.init k).kern.table.proc i) := by
    rw [TState.init, State.table_proc, hi]
    exact ⟨nofun, nofun, rfl⟩
  have hs : InitAlive i s := hrun.invariant
    ⟨hinit, halive, nofun, nofun⟩ fun _ _ _ h hs => initAlive_tstep hs.1.1 hs.1.2 h hs.2
  exact not_tstops_of_initAlive hs

instance (s : TState) (e : TEvent) : Decidable (InitBehaves s e) :=
  inferInstanceAs (Decidable ((∀ pid ∈ e.killArg, ∀ q ∈ s.kern.initproc, _) ∧
    ∀ p ∈ e.exitOrFault, _))

instance (s : TState) (e : TEvent) : Decidable (InitInTime s e) :=
  inferInstanceAs (Decidable (∀ p ∈ e.userTimer, _ → _))

/-- init runs in user mode through `n` timer interrupts. -/
def initTicks (n : Nat) : List TEvent :=
  .dispatch 0 [] :: (List.replicate n [.act 0 .timer, .dispatch 0 [], .act 0 .ret]).flatten

/-- Before its last tick, init makes a system call and lives. -/
theorem init_never_exits_early : ∃ k s, Booted k ∧
    Run (Restrict (fun s e => InitBehaves s e ∧ InitInTime s e) TStep) (.init k) (initTicks 3) s ∧
    (s.kern.proc 0).cpuTicks = 3 ∧ ¬ TStops s (.act 0 (.ecall .getpid)) (.kern .initExiting) := by
  obtain ⟨k, s, hk, hrun, hs⟩ := run_of_trapRun (initTicks 3)
    (C := fun s e => InitBehaves s e ∧ InitInTime s e)
    (g := fun s => (s.kern.proc 0).cpuTicks) (b := 3) fresh_small (by decide +kernel)
  exact ⟨k, s, hk, hrun, hs, init_never_exits hk hrun _⟩

/-- **The CPU limit brings the system down.** With the limit that `allocproc` gave
it, init is killed by its 100th tick in user mode, and its next system call ends
in "init exiting". -/
theorem init_exits_at_limit : ∃ k s, Booted k ∧
    Run (Restrict InitBehaves TStep) (.init k) (initTicks 100) s ∧
    TStops s (.act 0 (.ecall .getpid)) (.kern .initExiting) := by
  obtain ⟨k, s, hk, hrun, hs⟩ := run_of_trapRun (initTicks 100) (C := InitBehaves)
    (g := fun s => s.stop (.act 0 (.ecall .getpid))) (b := some (.kern .initExiting))
    fresh_small (by decide +kernel)
  exact ⟨k, s, hk, hrun, tstops_of_stop hs⟩

end Xv6.Kernel
