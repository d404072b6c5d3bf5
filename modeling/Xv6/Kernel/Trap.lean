import Xv6.Kernel.Limits

/-!
# xv6 — traps (`kernel/trap.c`)

The way of a process through `usertrap`, step by step: where the `killed` flag
is tested, where a tick is charged, and where interrupts are enabled, so that a
timer interrupt can be taken in the kernel. What happens at each step is an
event of `Xv6.Kernel.Machine`.

* `Phase`         — where a process is on its way.
* `Act`, `act`    — what it can do there.
* `TStep`         — the machine: acts of running processes, the scheduler's
  choices and clock interrupts, in any order.
* `Plan`, `plan_cases` — what a step can do.
-/

namespace Xv6.Kernel

open Prog TransitionRun Function

variable {p q : Pid} {k' : State}

/-- Where a process is. `intr` says whether interrupts are enabled: `usertrap`
enables them for system calls only. -/
inductive Phase where
  /-- in user code, or on its first way there -/
  | user
  /-- in `syscall`, before the call's work -/
  | entered (c : Call)
  /-- in `setrlimit(RLIMIT_CPU, n)`, between the tests and the store -/
  | checked (n : Int)
  /-- asleep in a system call -/
  | waiting
  /-- the work is done, `killed` is still to be tested -/
  | leaving (intr : Bool)
  /-- past the test -/
  | returning (intr : Bool)

/-- Interrupts are enabled in the kernel. -/
def Phase.intr : Phase → Bool
  | .entered _ | .checked _ => true
  | .leaving intr | .returning intr => intr
  | .user | .waiting => false

/-- Where a process is after the work of a system call. -/
def Phase.after (pr : Proc) : Phase :=
  match pr.state with
  | .sleeping => .waiting
  | .zombie => .user
  | _ => .leaving true

/-- What a running process does next. -/
inductive Act where
  /-- user code makes a system call -/
  | ecall (c : Call)
  /-- the work of the call -/
  | body (fails : List Bool)
  /-- `p->cpu_ticks_max = rlim_max` -/
  | setMax
  /-- `if(killed(p)) kexit(-1)` after the work -/
  | test
  /-- `usertrap` completes -/
  | ret
  /-- a timer interrupt in user mode -/
  | timer
  /-- a timer interrupt in the kernel -/
  | ktimer
  /-- user code touches a page it has no mapping for, or does something else it
  may not, which is like touching a page beyond its memory -/
  | fault (va : Nat) (fails : List Bool)
  /-- user code stores a byte -/
  | store (va : Nat) (v : UInt8)
  /-- a device other than the clock interrupts user code -/
  | device

/-- What an act makes the kernel do. -/
inductive Work where
  | idle
  | event (e : Event)
  /-- the store at the end of `setrlimit(RLIMIT_CPU, n)` -/
  | setMax (p : Pid) (n : Int)

/-- `kexit(-1)`. -/
abbrev Work.die (p : Pid) : Work := .event (.call p (.exit (-1)) [])

/-- The work of a system call. `setrlimit` of the CPU limit is cut in two. -/
def callWork (k : State) (p : Pid) (fails : List Bool) (c : Call) : Work × (State → Phase) :=
  match c.cpuLimit.filter (cpuLimitOk (k.proc p)) with
  | some n => (.idle, fun _ => .checked n)
  | none => (.event (.call p c fails), fun k' => .after (k'.proc p))

/-- What process `p` can do in a phase: the kernel's work, and the phase after
it. -/
def act (k : State) (p : Pid) : Phase → Act → Option (Work × (State → Phase))
  | .user, .ecall c => some <|
    if (k.proc p).killed then (.die p, fun _ => .user) else (.idle, fun _ => .entered c)
  | .entered c, .body fails => some (callWork k p fails c)
  | .checked n, .setMax => some (.setMax p n, fun _ => .leaving true)
  | .leaving intr, .test => some <|
    if (k.proc p).killed then (.die p, fun _ => .user) else (.idle, fun _ => .returning intr)
  | .returning _, .ret => some (.idle, fun _ => .user)
  | .user, .timer => some <|
    -- `killed` is tested before the tick is charged
    if (k.proc p).killed then (.die p, fun _ => .user)
    else (.event (.timer p true), fun _ => .returning false)
  | .user, .fault va fails => some (.event (.fault p va fails), fun _ => .leaving false)
  | .user, .store va v => some (.event (.store p va v), fun _ => .user)
  | .user, .device => some <|
    if (k.proc p).killed then (.die p, fun _ => .user) else (.idle, fun _ => .returning false)
  | ph, .ktimer => if ph.intr then some (.event (.timer p false), fun _ => ph) else none
  | _, _ => none

/-- The kernel, and where each process is. -/
structure TState where
  kern : State
  phase : Pid → Phase

/-- What happens next. -/
inductive TEvent where
  | act (p : Pid) (a : Act)
  | dispatch (p : Pid) (fails : List Bool)
  | tick

/-- The kernel's work for an event, and the phases after it. A process that is
picked again goes on where it was; one that slept in a system call first makes
another round of it. -/
def TState.plan (s : TState) : TEvent → Option (Work × (State → Pid → Phase))
  | .act p a =>
    if (s.kern.proc p).state = .running then
      (act s.kern p (s.phase p) a).map fun x =>
        (x.1, fun k' => update s.phase p (x.2 k'))
    else none
  | .dispatch p fails =>
    if (s.kern.proc p).state = .runnable then
      some (.event (.dispatch p fails), fun k' =>
        if (s.kern.proc p).blocked = none then s.phase
        else update s.phase p (.after (k'.proc p)))
    else none
  | .tick => some (.event .tick, fun _ => s.phase)

/-- The program of a piece of work. -/
def Work.body : Work → KM Unit
  | .idle => pure ()
  | .event e => e.body
  | .setMax p n => do
    updProc p fun pr => { pr with cpuTicksMax := u64 n }
    setA0 p (some 0)

/-- The machine takes a step. -/
def TStep (s : TState) (e : TEvent) (s' : TState) : Prop :=
  ∃ w f, s.plan e = some (w, f) ∧ w.body s.kern = .ok ((), s'.kern) ∧ s'.phase = f s'.kern

/-- The kernel stops in a step. -/
def TStops (s : TState) (e : TEvent) (x : Stop) : Prop :=
  ∃ w f, s.plan e = some (w, f) ∧ w.body s.kern = .error x

/-- The machine after boot. -/
def TState.init (k : State) : TState := { kern := k, phase := fun _ => .user }

/-! ### What a step can do -/

/-- The phases after process `p` has moved to `ph`. -/
def TState.goto (s : TState) (p : Pid) (ph : Phase) : Pid → Phase := update s.phase p ph

@[simp] theorem TState.goto_same (s : TState) (p : Pid) (ph : Phase) : s.goto p ph p = ph := by
  simp [TState.goto]

theorem TState.goto_of_ne (s : TState) (ph : Phase) (h : q ≠ p) : s.goto p ph q = s.phase q := by
  simp [TState.goto, h]

/-- The kernel's work for an event and the phases after it, case by case. -/
inductive Plan (s : TState) : TEvent → Work → (State → Pid → Phase) → Prop
  | die (p : Pid) (a : Act) : a ≠ .ret → (s.kern.proc p).state = .running →
      (s.kern.proc p).killed = true → Plan s (.act p a) (.die p) (fun _ => s.goto p .user)
  | enter (p : Pid) (c : Call) : (s.kern.proc p).state = .running →
      (s.kern.proc p).killed = false →
      Plan s (.act p (.ecall c)) .idle (fun _ => s.goto p (.entered c))
  | check (p : Pid) (c : Call) (n : Int) (fails : List Bool) :
      (s.kern.proc p).state = .running → s.phase p = .entered c →
      cpuLimitOk (s.kern.proc p) n = true →
      Plan s (.act p (.body fails)) .idle (fun _ => s.goto p (.checked n))
  | call (p : Pid) (c : Call) (fails : List Bool) : (s.kern.proc p).state = .running →
      s.phase p = .entered c →
      Plan s (.act p (.body fails)) (.event (.call p c fails))
        (fun k' => s.goto p (.after (k'.proc p)))
  | setMax (p : Pid) (n : Int) : (s.kern.proc p).state = .running → s.phase p = .checked n →
      Plan s (.act p .setMax) (.setMax p n) (fun _ => s.goto p (.leaving true))
  | pass (p : Pid) (intr : Bool) : (s.kern.proc p).state = .running →
      (s.kern.proc p).killed = false →
      Plan s (.act p .test) .idle (fun _ => s.goto p (.returning intr))
  | ret (p : Pid) : (s.kern.proc p).state = .running →
      Plan s (.act p .ret) .idle (fun _ => s.goto p .user)
  | timer (p : Pid) : (s.kern.proc p).state = .running → s.phase p = .user →
      (s.kern.proc p).killed = false →
      Plan s (.act p .timer) (.event (.timer p true)) (fun _ => s.goto p (.returning false))
  | ktimer (p : Pid) : (s.kern.proc p).state = .running → (s.phase p).intr = true →
      Plan s (.act p .ktimer) (.event (.timer p false)) (fun _ => s.phase)
  | fault (p : Pid) (va : Nat) (fails : List Bool) : (s.kern.proc p).state = .running →
      Plan s (.act p (.fault va fails)) (.event (.fault p va fails))
        (fun _ => s.goto p (.leaving false))
  | store (p : Pid) (va : Nat) (v : UInt8) : (s.kern.proc p).state = .running →
      Plan s (.act p (.store va v)) (.event (.store p va v)) (fun _ => s.goto p .user)
  | device (p : Pid) : (s.kern.proc p).state = .running → (s.kern.proc p).killed = false →
      Plan s (.act p .device) .idle (fun _ => s.goto p (.returning false))
  | dispatch (p : Pid) (fails : List Bool) : (s.kern.proc p).state = .runnable →
      (s.kern.proc p).blocked = none →
      Plan s (.dispatch p fails) (.event (.dispatch p fails)) (fun _ => s.phase)
  | resume (p : Pid) (fails : List Bool) : (s.kern.proc p).state = .runnable →
      (s.kern.proc p).blocked ≠ none →
      Plan s (.dispatch p fails) (.event (.dispatch p fails))
        (fun k' => s.goto p (.after (k'.proc p)))
  | tick : Plan s .tick (.event .tick) (fun _ => s.phase)

variable {s s' : TState} {e : TEvent} {w : Work} {f : State → Pid → Phase}

theorem plan_act {a : Act} {g : State → Phase} (hp : (s.kern.proc p).state = .running)
    (h : act s.kern p (s.phase p) a = some (w, g)) :
    Plan s (.act p a) w (fun k' => s.goto p (g k')) := by
  unfold act at h
  split at h
  case h_1 c hph =>
    split at h <;> rename_i hk <;> cases h
    · exact .die p _ nofun hp hk
    · exact .enter p c hp (by simpa using hk)
  case h_2 c fails hph =>
    unfold callWork at h
    split at h
    · rename_i n hn
      cases h
      exact .check p c n fails hp hph (Option.filter_eq_some_iff.mp hn).2
    · cases h
      exact .call p c fails hp hph
  case h_3 n hph =>
    cases h
    exact .setMax p n hp hph
  case h_4 intr hph =>
    split at h <;> rename_i hk <;> cases h
    · exact .die p _ nofun hp hk
    · exact .pass p intr hp (by simpa using hk)
  case h_5 hph =>
    cases h
    exact .ret p hp
  case h_6 hph =>
    split at h <;> rename_i hk <;> cases h
    · exact .die p _ nofun hp hk
    · exact .timer p hp hph (by simpa using hk)
  case h_7 va fails hph =>
    cases h
    exact .fault p va fails hp
  case h_8 va v hph =>
    cases h
    exact .store p va v hp
  case h_9 hph =>
    split at h <;> rename_i hk <;> cases h
    · exact .die p _ nofun hp hk
    · exact .device p hp (by simpa using hk)
  case h_10 =>
    split at h
    · rename_i hintr
      cases h
      have hsame : s.goto p (s.phase p) = s.phase := by simp [TState.goto]
      simp only [hsame]
      exact .ktimer p hp hintr
    · simp at h
  case h_11 => simp at h

/-- **What a step of the trap machine can do.** -/
theorem plan_cases (h : s.plan e = some (w, f)) : Plan s e w f := by
  cases e with
  | act p a =>
    simp only [TState.plan, Option.ite_none_right_eq_some, Option.map_eq_some_iff] at h
    obtain ⟨hp, ⟨w', g⟩, hact, heq⟩ := h
    cases heq
    exact plan_act hp hact
  | dispatch p fails =>
    simp only [TState.plan, Option.ite_none_right_eq_some, Option.some.injEq] at h
    obtain ⟨hs, heq⟩ := h
    cases heq
    by_cases hb : (s.kern.proc p).blocked = none
    · simp only [hb]
      exact .dispatch p fails hs hb
    · simp only [hb, if_false]
      exact .resume p fails hs hb
  | tick =>
    cases h
    exact .tick

theorem Plan.enabled {e' : Event} (h : Plan s e (.event e') f) : e'.enabled s.kern := by
  cases h <;> first | assumption | trivial

theorem work_idle {k : State} (h : Work.idle.body k = .ok ((), k')) : k' = k := by
  cases h
  rfl

theorem wp_setMax {k : State} {n : Int} : wp (Work.setMax p n).body
    (fun _ k' => k'.table = k.table.set p { k.table.proc p with cpuTicksMax := u64 n })
    NotInitExiting k := by
  simp only [Work.body, wp_bind]
  refine wp_imp (wp_updProc_table rfl (fun c => { c with cpuTicksMax := u64 n }) fun _ => rfl)
    fun _ k1 h1 => ?_
  exact keeps_setA0.to h1

/-- The kernel after a piece of work: as before, after a step of its own, or with
one limit set. -/
inductive Worked (k k' : State) : Work → Prop
  | idle : k' = k → Worked k k' .idle
  | event (e : Event) : Step k e k' → Worked k k' (.event e)
  | setMax (p : Pid) (n : Int) :
      k'.table = k.table.set p { k.table.proc p with cpuTicksMax := u64 n } →
      Worked k k' (.setMax p n)

theorem worked_of_body (hplan : Plan s e w f) (hbody : w.body s.kern = .ok ((), k')) :
    Worked s.kern k' w := by
  cases w with
  | idle => exact .idle (work_idle hbody)
  | event e' => exact .event e' ⟨hplan.enabled, hbody⟩
  | setMax p n =>
    have hset := wp_ok wp_setMax hbody
    exact .setMax p n hset

/-- **What a step of the trap machine does.** -/
theorem tstep_cases (h : TStep s e s') :
    ∃ w f, Plan s e w f ∧ Worked s.kern s'.kern w ∧ s'.phase = f s'.kern := by
  obtain ⟨w, f, hplan, hbody, hphase⟩ := h
  exact ⟨w, f, plan_cases hplan, worked_of_body (plan_cases hplan) hbody, hphase⟩

theorem TState.goto_eq {ph ph' : Phase} (h : s.goto p ph q = ph') :
    s.phase q = ph' ∨ q = p ∧ ph = ph' := by
  by_cases hq : q = p
  · subst hq
    rw [TState.goto_same] at h
    exact .inr ⟨rfl, h⟩
  · rw [TState.goto_of_ne _ _ hq] at h
    exact .inl h

theorem Phase.after_ne_entered (pr : Proc) (c : Call) : Phase.after pr ≠ .entered c := by
  unfold Phase.after
  split <;> nofun

/-- A process is in a system call because it was, or because it makes it now. -/
theorem Plan.entered {c : Call} (h : Plan s e w f) (hq : f k' q = .entered c) :
    s.phase q = .entered c ∨ e = .act q (.ecall c) := by
  cases h with
  | enter p c' hp =>
    rcases s.goto_eq hq with h | ⟨rfl, h⟩
    · exact .inl h
    · cases h
      exact .inr rfl
  | ktimer | dispatch | tick => exact .inl hq
  | call | resume =>
    rcases s.goto_eq hq with h | ⟨-, h⟩
    · exact .inl h
    · exact absurd h (Phase.after_ne_entered _ _)
  | _ =>
    rcases s.goto_eq hq with h | ⟨-, h⟩
    · exact .inl h
    · cases h

/-! ### Computed runs -/

/-- A step as a function. -/
def TState.next (s : TState) (e : TEvent) : Option TState :=
  (s.plan e).bind fun x => (x.1.body s.kern).toOption.map fun y => ⟨y.2, x.2 y.2⟩

theorem tstep_of_next (h : s.next e = some s') : TStep s e s' := by
  obtain ⟨⟨w, f⟩, hplan, h⟩ := Option.bind_eq_some_iff.mp h
  obtain ⟨⟨_, k'⟩, hbody, rfl⟩ := Option.map_eq_some_iff.mp h
  exact ⟨w, f, hplan, ok_of_toOption hbody, rfl⟩

/-- Why the kernel stops in a step, if it does. -/
def TState.stop (s : TState) (e : TEvent) : Option Stop :=
  (s.plan e).bind fun x =>
    match x.1.body s.kern with
    | .ok _ => none
    | .error x => some x

theorem tstops_of_stop {x : Stop} (h : s.stop e = some x) : TStops s e x := by
  obtain ⟨⟨w, f⟩, hplan, h⟩ := Option.bind_eq_some_iff.mp h
  refine ⟨w, f, hplan, ?_⟩
  split at h
  · cases h
  · rename_i hbody
    cases h
    exact hbody

/-- A run computed from boot whose steps all meet `C`. -/
def trapRun (C : TState → TEvent → Prop) [∀ s e, Decidable (C s e)] (k0 : State)
    (es : List TEvent) : Option TState :=
  (boot k0).bind fun k => exec (fun s e => if C s e then s.next e else none) (.init k) es

theorem run_of_trapRun (es : List TEvent) {C : TState → TEvent → Prop}
    [∀ s e, Decidable (C s e)] {k0 : State} {β : Type} {g : TState → β} {b : β} (h0 : Fresh k0)
    (h : (trapRun C k0 es).map g = some b) :
    ∃ k s, Booted k ∧ Run (Restrict C TStep) (.init k) es s ∧ g s = b := by
  obtain ⟨s, hs, hb⟩ := Option.map_eq_some_iff.mp h
  obtain ⟨k, hk, hrun⟩ := Option.bind_eq_some_iff.mp hs
  refine ⟨k, s, booted_of_boot h0 hk, ?_, hb⟩
  exact (run_restrict_of_exec hrun).mono fun _ _ _ h => ⟨h.1, tstep_of_next h.2⟩

end Xv6.Kernel
