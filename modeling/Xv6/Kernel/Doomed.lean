import Xv6.Kernel.CpuLimit

/-!
# xv6 — after the limit on CPU time

A timer interrupt in user mode that finds the limit reached marks the process
killed and lets it return to user mode. Nothing takes the mark back while the
process lives, and every way into the kernel tests it.

* `Doomed`           — the process is marked, and not in a system call.
* `doomed_tstep`     — it stays so until it calls `kexit(-1)`.
* `limit_is_final`   — it does so on its next way into the kernel, and no system
  call of it does anything before.
-/

namespace Xv6.Kernel

open Prog TransitionRun

variable {q : Pid} {w : Work} {f : State → Pid → Phase}

/-- The process comes into `usertrap`. -/
def Act.traps : Act → Prop
  | .ecall _ | .timer | .device | .fault _ _ => True
  | _ => False

/-- The process does the work of a system call. -/
def Act.works : Act → Prop
  | .body _ | .setMax => True
  | _ => False

/-- Process `p` calls `kexit(-1)` in this step. -/
def TState.Exits (p : Pid) (s : TState) (e : TEvent) : Prop := ∃ f, s.plan e = some (.die p, f)

/-- A timer interrupt in `usertrap` finds that process `p` has reached its limit. -/
structure FindsLimit (p : Pid) (s s' : TState) : Prop where
  step : TStep s (.act p .timer) s'
  /-- the interrupt gets past the test of `killed` -/
  alive : (s.kern.proc p).killed = false
  limited : 0 < (s'.kern.proc p).cpuTicksMax
  reached : (s'.kern.proc p).cpuTicksMax ≤ (s'.kern.proc p).cpuTicks

/-! ### A process that runs does not sleep in a call -/

/-- A process that runs has nothing to go on with. -/
def Core.Awake (c : Core) : Prop := c.state = .running → c.blocked = none

theorem awake_change {T : Table} {e : Event} {c : Core} (h : (T.proc q).Awake)
    (hc : Change T e q c) : c.Awake := by
  cases hc with
  | parent par | fault va fails he hs => exact h
  | dispatch he hs hb => exact fun _ => hb
  | resume he hs => exact fun _ => rfl
  | timer user he hs | wake | forkFail | born | exit | reaped | sleep => rintro ⟨⟩
  | kill p pid fails he hpid =>
    intro hs
    refine h ?_
    simp only [Core.kill] at hs
    split at hs
    · cases hs
    · exact hs
  | own call fails c' he hs ho =>
    cases ho <;> exact h

variable {s s' : TState} {e : TEvent} {p : Pid}

theorem awake_tstep (h : ∀ q, (s.kern.table.proc q).Awake) (hstep : TStep s e s') (q : Pid) :
    (s'.kern.table.proc q).Awake := by
  obtain ⟨w, f, -, hw, -⟩ := tstep_cases hstep
  cases hw with
  | idle hk =>
    rw [hk]
    exact h q
  | event e' hk => exact awake_change (h q) (step_change hk q)
  | setMax p n hk =>
    rw [hk]
    by_cases hq : q = p
    · subst hq
      rw [Table.set_same]
      exact h q
    · rw [Table.set_of_ne _ _ hq]
      exact h q

/-! ### A process that is marked -/

/-- The process is marked killed; it has the CPU or waits for it. -/
structure Core.Marked (c : Core) : Prop where
  killed : c.killed = true
  ready : c.state = .running ∨ c.state = .runnable
  awake : c.blocked = none

/-- Nothing takes the mark from a process that makes no system call. -/
theorem marked_change {T : Table} {e : Event} {c : Core} (h : (T.proc q).Marked)
    (hcall : ∀ call fails, e ≠ .call q call fails) (hc : Change T e q c) : c.Marked := by
  have hready : ∀ {st : ProcState}, (T.proc q).state = st → st = .running ∨ st = .runnable :=
    fun hs => hs ▸ h.ready
  cases hc with
  | parent par => exact ⟨h.killed, h.ready, h.awake⟩
  | wake par hs | forkFail pid hs | born p pid hs hp | reaped hs => simpa using hready hs
  | exit par status fails he hs | own call fails c' he hs ho => exact absurd he (hcall _ _)
  | sleep ch b hs =>
    rcases hs with ⟨⟨_, _, he⟩, -⟩ | ⟨-, -, hb⟩
    · exact absurd he (hcall _ _)
    · exact absurd h.awake hb
  | dispatch he hs hb => exact ⟨h.killed, .inl rfl, h.awake⟩
  | resume he hs => exact ⟨h.killed, .inl rfl, rfl⟩
  | timer user he hs =>
    refine ⟨?_, .inr rfl, h.awake⟩
    simp only [Core.timer, h.killed, Bool.true_or]
  | fault va fails he hs => exact ⟨rfl, h.ready, h.awake⟩
  | kill p pid fails he hpid =>
    refine ⟨rfl, ?_, h.awake⟩
    rcases h.ready with hs | hs <;> simp [Core.kill, hs]

/-- The process is outside any system call. -/
def Phase.Outside (ph : Phase) : Prop := ph = .user ∨ ph = .returning false ∨ ph = .leaving false

/-- The process is marked killed, and not in a system call. -/
structure Doomed (p : Pid) (s : TState) : Prop where
  marked : (s.kern.table.proc p).Marked
  outside : (s.phase p).Outside

theorem Doomed.killed (h : Doomed p s) : (s.kern.proc p).killed = true := h.marked.killed

theorem Doomed.ne_entered (h : Doomed p s) (c : Call) : s.phase p ≠ .entered c := by
  intro hph
  rcases h.outside with h | h | h <;> rw [hph] at h <;> cases h

theorem Doomed.ne_checked (h : Doomed p s) (n : Int) : s.phase p ≠ .checked n := by
  intro hph
  rcases h.outside with h | h | h <;> rw [hph] at h <;> cases h

theorem Doomed.not_intr (h : Doomed p s) : (s.phase p).intr = false := by
  rcases h.outside with h | h | h <;> rw [h] <;> rfl

/-- The kernel's part of a step, unless it is the end of the process. -/
theorem Doomed.marked_worked (h : Doomed p s) (hplan : Plan s e w f) (hexit : w ≠ .die p)
    (hw : Worked s.kern s'.kern w) : (s'.kern.table.proc p).Marked := by
  cases hw with
  | idle hk =>
    rw [hk]
    exact h.marked
  | event e' hk =>
    refine marked_change h.marked (fun call fails => ?_) (step_change hk p)
    rintro rfl
    cases hplan with
    | die => exact hexit rfl
    | call _ _ _ _ hph => exact h.ne_entered _ hph
  | setMax q n hk =>
    have hq : p ≠ q := by
      rintro rfl
      cases hplan with
      | setMax _ _ _ hph => exact h.ne_checked _ hph
    rw [hk, Table.set_of_ne _ _ hq]
    exact h.marked

theorem Doomed.outside_goto {ph : Phase} (h : Doomed p s) (hph : q = p → ph.Outside) :
    (s.goto q ph p).Outside := by
  by_cases hq : p = q
  · subst hq
    rw [TState.goto_same]
    exact hph rfl
  · rw [TState.goto_of_ne _ _ hq]
    exact h.outside

/-- Where the process is after the step. -/
theorem Doomed.outside_plan {k' : State} (h : Doomed p s) (hplan : Plan s e w f) :
    (f k' p).Outside := by
  have hkilled := h.killed
  cases hplan with
  | die | ret | store => exact h.outside_goto fun _ => .inl rfl
  | enter q c hq hfree | pass q intr hq hfree =>
    refine h.outside_goto ?_
    rintro rfl
    simp [hkilled] at hfree
  | check q c n fails hq hph | call q c fails hq hph =>
    refine h.outside_goto ?_
    rintro rfl
    exact absurd hph (h.ne_entered c)
  | setMax q n hq hph =>
    refine h.outside_goto ?_
    rintro rfl
    exact absurd hph (h.ne_checked n)
  | timer | device => exact h.outside_goto fun _ => .inr (.inl rfl)
  | fault => exact h.outside_goto fun _ => .inr (.inr rfl)
  | resume q fails hq hb =>
    refine h.outside_goto ?_
    rintro rfl
    exact absurd h.marked.awake hb
  | ktimer | dispatch | tick => exact h.outside

/-- **A process that is marked stays so until it calls `kexit(-1)`.** -/
theorem doomed_tstep (h : Doomed p s) (hstep : TStep s e s') (hexit : ¬ s.Exits p e) :
    Doomed p s' := by
  obtain ⟨w, f, hsome, hbody, hphase⟩ := hstep
  have hplan := plan_cases hsome
  have hne : w ≠ .die p := by
    rintro rfl
    exact hexit ⟨f, hsome⟩
  refine ⟨h.marked_worked hplan hne (worked_of_body hplan hbody), ?_⟩
  rw [hphase]
  exact h.outside_plan hplan

/-- What a marked process does: if it is not on its way to user code, it exits. -/
theorem Doomed.act_cases {a : Act} (h : Doomed p s) (hstep : TStep s (.act p a) s') :
    s.Exits p (.act p a) ∨ a = .ret ∨ (∃ va v, a = .store va v) ∨
      ∃ va fails, a = .fault va fails ∧ s'.phase p = .leaving false := by
  obtain ⟨w, f, hsome, hbody, hphase⟩ := hstep
  have hkilled := h.killed
  cases plan_cases hsome with
  | die => exact .inl ⟨_, hsome⟩
  | enter _ c hq hfree | pass _ intr hq hfree | timer _ hq hph hfree | device _ hq hfree =>
    simp [hkilled] at hfree
  | check _ c n fails hq hph | call _ c fails hq hph => exact absurd hph (h.ne_entered c)
  | setMax _ n hq hph => exact absurd hph (h.ne_checked n)
  | ktimer _ hq hintr => simp [h.not_intr] at hintr
  | ret => exact .inr (.inl rfl)
  | store _ va v => exact .inr (.inr (.inl ⟨va, v, rfl⟩))
  | fault _ va fails =>
    refine .inr (.inr (.inr ⟨va, fails, rfl, ?_⟩))
    rw [hphase]
    exact s.goto_same p _

/-- The others do not move the process. -/
theorem Doomed.phase_of_others {k' : State} (h : Doomed p s) (hplan : Plan s e w f)
    (he : ∀ a, e ≠ .act p a) : f k' p = s.phase p := by
  have hother : ∀ {q : Pid} {a : Act} {ph : Phase}, e = .act q a → s.goto q ph p = s.phase p := by
    rintro q a ph rfl
    refine s.goto_of_ne ph ?_
    rintro rfl
    exact he a rfl
  cases hplan with
  | ktimer | dispatch | tick => rfl
  | resume q fails hq hb =>
    refine s.goto_of_ne _ ?_
    rintro rfl
    exact hb h.marked.awake
  | _ => exact hother rfl

/-- In `usertrap` after a fault, the process tests `killed` and nothing else. -/
theorem Doomed.exits_of_leaving {a : Act} (h : Doomed p s) (hph : s.phase p = .leaving false)
    (hstep : TStep s (.act p a) s') : s.Exits p (.act p a) := by
  obtain ⟨w, f, hsome, -, -⟩ := hstep
  have hkilled := h.killed
  cases a with
  | test =>
    refine ⟨fun _ => Function.update s.phase p .user, ?_⟩
    simp only [TState.plan, Option.ite_none_right_eq_some] at hsome ⊢
    refine ⟨hsome.1, ?_⟩
    simp [act, hph, hkilled]
  | _ => simp [TState.plan, act, hph, Phase.intr] at hsome

/-- A run in which process `p` does not call `kexit(-1)`. -/
abbrev RunBeforeExit (p : Pid) : TState → List TEvent → TState → Prop :=
  Run (Restrict (fun s e => ¬ s.Exits p e) TStep)

variable {es : List TEvent}

theorem Doomed.run (h : Doomed p s) (hrun : RunBeforeExit p s es s') :
    Doomed p s' ∧ ∀ a, .act p a ∈ es → ¬ a.works := by
  induction hrun with
  | start => exact ⟨h, nofun⟩
  | snoc _ hs ih =>
    obtain ⟨hexit, hstep⟩ := hs
    refine ⟨doomed_tstep ih.1 hstep hexit, fun a ha => ?_⟩
    rcases List.mem_append.mp ha with ha | ha
    · exact ih.2 a ha
    · obtain rfl := List.mem_singleton.mp ha
      rcases ih.1.act_cases hstep with hexit' | rfl | ⟨va, v, rfl⟩ | ⟨va, fails, rfl, -⟩
      · exact absurd hexit' hexit
      · exact id
      · exact id
      · exact id

theorem Doomed.run_leaving (h : Doomed p s) (hph : s.phase p = .leaving false)
    (hrun : RunBeforeExit p s es s') : Doomed p s' ∧ s'.phase p = .leaving false := by
  refine hrun.invariant (P := fun s => Doomed p s ∧ s.phase p = .leaving false) ⟨h, hph⟩ ?_
  rintro s e s' ⟨h, hph⟩ ⟨hexit, hstep⟩
  refine ⟨doomed_tstep h hstep hexit, ?_⟩
  have hothers : ∀ a, e ≠ .act p a := by
    rintro a rfl
    exact hexit (h.exits_of_leaving hph hstep)
  obtain ⟨w, f, hplan, -, hphase⟩ := tstep_cases hstep
  rw [hphase, h.phase_of_others hplan hothers]
  exact hph

/-! ### The limit is reached -/

/-- A timer interrupt that finds the limit reached marks the process. -/
theorem FindsLimit.doomed (h : FindsLimit p s s') (hawake : (s.kern.table.proc p).Awake) :
    Doomed p s' := by
  obtain ⟨w, f, hsome, hbody, hphase⟩ := h.step
  cases plan_cases hsome with
  | die _ _ _ _ hkilled => simp [h.alive] at hkilled
  | timer _ hrun =>
    have htable : s'.kern.table = s.kern.table.set p ((s.kern.table.proc p).timer true) := by
      have hmove := step_move ⟨(plan_cases hsome).enabled, hbody⟩
      generalize s'.kern.table = T' at hmove ⊢
      cases hmove
      rfl
    have hcore : s'.kern.table.proc p = (s.kern.table.proc p).timer true := by
      rw [htable, Table.set_same]
    have hlimited : 0 < (s'.kern.table.proc p).cpuTicksMax := h.limited
    have hreached : (s'.kern.table.proc p).cpuTicksMax ≤ (s'.kern.table.proc p).cpuTicks :=
      h.reached
    rw [hcore] at hlimited hreached
    refine ⟨?_, ?_⟩
    · rw [hcore]
      refine ⟨?_, .inr rfl, hawake hrun⟩
      simp only [Core.timer, Bool.true_and, Bool.or_eq_true, decide_eq_true_eq]
      exact .inr ⟨hlimited, hreached⟩
    · rw [hphase]
      refine .inr (.inl ?_)
      exact s.goto_same p _

theorem tstep_initproc (h : TStep s e s') : s'.kern.initproc = s.kern.initproc := by
  obtain ⟨w, f, -, hw, -⟩ := tstep_cases h
  cases hw with
  | idle hk => rw [hk]
  | event e' hk => exact step_initproc hk
  | setMax p n hk =>
    rw [← State.table_initproc, hk]
    rfl

theorem run_initproc (h : Run TStep s es s') : s'.kern.initproc = s.kern.initproc :=
  h.invariant (P := fun t => t.kern.initproc = s.kern.initproc) rfl
    fun _ _ _ h hs => (tstep_initproc hs).trans h

/-- Only the first process takes the system down when it exits. -/
theorem ne_initExiting_of_exits {x : Stop} (hp : s.kern.initproc ≠ some p) (he : s.Exits p e)
    (hstops : TStops s e x) : x ≠ .kern .initExiting := by
  rintro rfl
  obtain ⟨w, f, hplan, hbody⟩ := hstops
  obtain ⟨f', hplan'⟩ := he
  obtain ⟨rfl, -⟩ := Prod.mk.inj (Option.some.inj (hplan.symm.trans hplan'))
  obtain ⟨q, status, fails, heq, hq⟩ := stops_initExiting ⟨(plan_cases hplan).enabled, hbody⟩
  cases heq
  exact hp hq

/--
**Reaching the limit in user mode is final.** Once a timer interrupt in
`usertrap` has found that process `p`, which is not the first process, has reached
its limit, the process does no work of any system call before it calls
`kexit(-1)`; and when it next comes into `usertrap`, by a system call, an interrupt
or a fault, it calls `kexit(-1)`, after a fault with nothing else in between.
-/
theorem limit_is_final {k : State} {es' : List TEvent} {s1 s2 : TState} (hk : Booted k)
    (hrun : Run TStep (.init k) es s) (hp : s.kern.initproc ≠ some p)
    (hfound : FindsLimit p s s1) (hrest : RunBeforeExit p s1 es' s2) :
    (∀ a, .act p a ∈ es' → ¬ a.works) ∧
    (∀ a t, a.traps → TStep s2 (.act p a) t → s2.Exits p (.act p a) ∨
      (∃ va fails, a = .fault va fails) ∧ ∀ es'' t', RunBeforeExit p t es'' t' →
        ∀ b t'', TStep t' (.act p b) t'' → t'.Exits p (.act p b)) ∧
    ∀ e x, s2.Exits p e → TStops s2 e x → x ≠ .kern .initExiting := by
  have hawake : ∀ q, (s.kern.table.proc q).Awake :=
    hrun.invariant
      (hk.forall_core (fun hs => nomatch hs) fun _ _ hs => nomatch hs)
      fun _ _ _ h hs => awake_tstep h hs
  obtain ⟨hdoomed, hidle⟩ := (hfound.doomed (hawake p)).run hrest
  refine ⟨hidle, fun a t htraps hstep => ?_, fun e x he hstops => ?_⟩
  · rcases hdoomed.act_cases hstep with hexit | rfl | ⟨va, v, rfl⟩ | ⟨va, fails, rfl, hph⟩
    · exact .inl hexit
    · exact htraps.elim
    · exact htraps.elim
    · refine or_iff_not_imp_left.mpr fun hexit =>
        ⟨⟨va, fails, rfl⟩, fun es'' t' hrun' b t'' hb => ?_⟩
      obtain ⟨hdoomed', hph'⟩ := (doomed_tstep hdoomed hstep hexit).run_leaving hph hrun'
      exact hdoomed'.exits_of_leaving hph' hb
  · refine ne_initExiting_of_exits ?_ he hstops
    rw [run_initproc hrest.of_restrict, tstep_initproc hfound.step]
    exact hp

theorem not_exits_dispatch {fails : List Bool} : ¬ s.Exits p (.dispatch p fails) := by
  rintro ⟨f, hf⟩
  cases plan_cases hf

theorem not_exits_ret : ¬ s.Exits p (.act p .ret) := by
  rintro ⟨f, hf⟩
  cases plan_cases hf with
  | die _ _ hne => exact hne rfl

/-- init forks, and the child limits itself to one tick. -/
def childLimit : List TEvent :=
  [.dispatch 0 [], .act 0 (.ecall .fork), .act 0 (.body []), .act 0 .test, .act 0 .ret,
    .act 0 .timer, .dispatch 1 [], .act 1 (.ecall (.setrlimit RLIMIT_CPU 1)), .act 1 (.body []),
    .act 1 .setMax, .act 1 .test, .act 1 .ret]

/-- The next tick is the last: the child returns to user mode, and the device interrupt that
takes it out of there is where it exits. -/
theorem limit_is_final_child : ∃ k s s1 s2, Booted k ∧ Run TStep (.init k) childLimit s ∧
    FindsLimit 1 s s1 ∧ RunBeforeExit 1 s1 [.dispatch 1 [], .act 1 .ret] s2 ∧
    ∃ t, TStep s2 (.act 1 .device) t ∧ s2.Exits 1 (.act 1 .device) := by
  obtain ⟨k, s, hk, hrun, hs⟩ := run_of_trapRun childLimit (C := fun _ _ => True)
    (g := fun s => (s.next (.act 1 .timer)).bind fun s1 => (s1.next (.dispatch 1 [])).bind fun s2 =>
      (s2.next (.act 1 .ret)).bind fun s3 => (s3.next (.act 1 .device)).map fun _ =>
        (s.kern.initproc, (s.kern.proc 1).killed, (s1.kern.proc 1).cpuTicksMax,
          (s1.kern.proc 1).cpuTicks))
    (b := some (some 0, false, 1, 1)) fresh_small (by decide +kernel)
  simp only [Option.bind_eq_some_iff, Option.map_eq_some_iff, Prod.mk.injEq] at hs
  obtain ⟨s1, h1, s2, h2, s3, h3, t, h4, hinit, halive, hmax, hticks⟩ := hs
  have hfound : FindsLimit 1 s s1 :=
    ⟨tstep_of_next h1, halive, by rw [hmax]; decide, by rw [hmax, hticks]⟩
  have hrest : RunBeforeExit 1 s1 [.dispatch 1 [], .act 1 .ret] s3 :=
    .snoc (.snoc .start ⟨not_exits_dispatch, tstep_of_next h2⟩) ⟨not_exits_ret, tstep_of_next h3⟩
  have hfinal := limit_is_final hk hrun.of_restrict (by rw [hinit]; decide) hfound hrest
  refine ⟨k, s, s1, s3, hk, hrun.of_restrict, hfound, hrest, t, tstep_of_next h4, ?_⟩
  rcases hfinal.2.1 .device t trivial (tstep_of_next h4) with hexit | ⟨⟨va, fails, heq⟩, -⟩
  · exact hexit
  · cases heq

end Xv6.Kernel
