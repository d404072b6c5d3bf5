import Xv6.Sched.Model

/-!
# xv6 — lock ownership across `swtch`

`p->lock` is taken by one thread and released by another: `yield`, `sleep` and
`kexit` take it and the scheduler they switch to releases it; the scheduler takes it
and `yield`, `sleep` or `forkret` of the process it switches to release it. This
module says which locks are held at each place of the code, and what a process that
is not executed waits for.

* `Loc.holds`   — the locks held at a place.
* `Loc.onState` — the state of a process that is executed there.
* `Loc.Waits`   — where the thread of a process that is not executed can be.
* `Inv`         — all of this together.
* `Inv.move`, `Inv.swtchTo`, `Inv.swtchBack` — what a step has to respect to keep it.
-/

namespace Xv6.Sched

open Kernel (Pid ProcState)
open TransitionRun Threads
open Function (update update_of_ne update_self)

/-! ### Locks held -/

def SchedPc.holds : SchedPc → List Lock
  | .start | .idle | .scan _ => []
  | .look i | .go i | .back i | .drop i => [.proc i]

def WakePc.holds : WakePc → List Lock
  | .scan _ => []
  | .test i | .stamp i | .release i => [.proc i]

def KillPc.holds : KillPc → List Lock
  | .scan _ => []
  | .test i | .stamp i | .found i | .next i => [.proc i]

def ForkPc.holds : ForkPc → List Lock
  | .scan _ | .lockWait _ | .relock _ => []
  | .test i | .next i | .stamp i | .fill i | .fail i | .runnable i | .unlock i => [.proc i]
  | .parent _ | .unlockWait _ => [.wait]

def ExitPc.holds (p : Pid) : ExitPc → List Lock
  | .lockWait => []
  | .reparent _ | .lock => [.wait]
  | .zombie | .unlockWait => [.proc p, .wait]
  | .sched | .dead => [.proc p]

def WaitPc.holds (p : Pid) : WaitPc → List Lock
  | .lockWait => []
  | .scan _ _ | .unlockWait | .killed => [.wait]
  | .test i | .next i | .done i => [.proc i, .wait]
  | .killedRead | .killedRet _ => [.proc p, .wait]

def SleepPc.holds (p : Pid) (lk : Lock) : SleepPc → List Lock
  | .lock => [lk]
  | .drop => [.proc p, lk]
  | .doze | .sched | .tidy | .unlock => [.proc p]
  | .relock => []

def ClockPc.holds : ClockPc → List Lock
  | .lock | .devLock _ => []
  | .tick | .unlock => [.cond .ticks]
  | .dev n => [.cond (.other n)]

def YieldPc.holds (p : Pid) : YieldPc → List Lock
  | .tail | .lock => []
  | .runnable | .sched | .unlock => [.proc p]

/-- The locks held at a place. -/
def Loc.holds : Loc → List Lock
  | .sched pc => pc.holds
  | .user => []
  | .held x => [.cond x]
  | .wake _ pc ret => pc.holds ++ ret.holds
  | .kill _ pc => pc.holds
  | .fork _ pc => pc.holds
  | .exit p _ pc => pc.holds p
  | .wait p pc => pc.holds p
  | .sleep p _ lk pc _ => pc.holds p lk
  | .forkret p => [.proc p]
  | .clock pc _ => pc.holds
  | .yield p pc _ => pc.holds p

/-- The process whose thread it is. -/
def Tid.me : Tid → Option Pid
  | .sched _ => none
  | .proc p => some p

theorem Tid.eq_of_me {t : Tid} {p : Pid} (h : t.me = some p) : t = .proc p := by
  cases t with
  | sched c => cases h
  | proc q => exact congrArg Tid.proc (Option.some.inj h)

/-! ### States -/

/-- The state of a process that is executed at a place. -/
def Loc.onState : Loc → Option ProcState
  | .yield _ .sched _ => some .runnable
  | .sleep _ _ _ .sched _ => some .sleeping
  | .exit _ _ .unlockWait | .exit _ _ .sched => some .zombie
  | .exit _ _ .dead => none
  | _ => some .running

/-- A thread that was switched out here goes on when it is switched to. -/
def Loc.Resumable : Loc → Prop
  | .forkret _ | .yield _ .unlock _ | .sleep _ _ _ .tidy _ => True
  | _ => False

/-- The thread of a process in a state that is not executed can be here. -/
def Loc.Waits (l : Loc) : ProcState → Prop
  | .unused => True
  | .used => ∃ p, l = .forkret p
  | .runnable => l.Resumable
  | .sleeping => ∃ p ch lk ret, l = .sleep p ch lk .tidy ret
  | .zombie => ∃ p status, l = .exit p status .dead
  | .running => False

/-- The process that a scheduler has picked. -/
def Loc.picked : Loc → Option Pid
  | .sched (.go i) | .sched (.back i) => some i
  | _ => none

/-- A place where a process that is executed is RUNNING, and no scheduler has picked
one. -/
def Loc.Plain (l : Loc) : Prop := l.onState = some .running ∧ l.picked = none

/-- The thread of process `me`, or of a scheduler, can be here: `p` in the code is
`me`, and functions return to where the locks are as they leave them. -/
def Loc.Ok (me : Option Pid) : Loc → Prop
  | .sched _ => me = none
  | .user | .held _ | .kill _ _ => me ≠ none
  | .wake _ _ ret => ret.Ok me ∧ ret.Plain
  | .fork p _ | .exit p _ _ | .wait p _ | .forkret p => me = some p
  | .sleep p _ lk _ ret => me = some p ∧ ret.Ok me ∧ ret.Plain ∧ ret.holds = [lk]
  | .clock _ ret => ret.Ok me ∧ ret.Plain ∧ ret.holds = []
  | .yield p _ ret => me = some p ∧ ret.Ok me ∧ ret.Plain ∧ ret.holds = []

def ForkPc.child : ForkPc → Option Pid
  | .scan _ | .test _ | .next _ | .fail _ | .unlock _ => none
  | .stamp np | .fill np | .lockWait np | .parent np | .unlockWait np | .relock np
  | .runnable np => some np

/-- The child that a thread in `kfork` has not made runnable yet. -/
def Loc.forks : Loc → Option Pid
  | .fork _ pc => pc.child
  | .wake _ _ ret | .sleep _ _ _ _ ret | .clock _ ret | .yield _ _ ret => ret.forks
  | _ => none

/-- Nobody executes process `p`. -/
def Off (s : State) (p : Pid) : Prop := ∀ c, s.cur c ≠ .proc p

/-- The state of a process. -/
abbrev stateOf (s : State) (p : Pid) : ProcState := (s.data.proc p).state

/-- Who runs where, and who waits for what. -/
structure Inv (s : State) : Prop where
  disc : Disciplined Loc.holds s
  ok : ∀ t, (s.loc t).Ok t.me
  own : ∀ c c', s.cur c = .sched c' → c' = c
  /-- a process that is executed -/
  on : ∀ c p, s.cur c = .proc p → s.data.cproc c = some p ∧
    s.loc (.sched c) = .sched (.back p) ∧ (s.loc (.proc p)).onState = some (stateOf s p)
  /-- a scheduler that is executed -/
  home : ∀ c, s.cur c = .sched c → s.data.cproc c = (s.loc (.sched c)).picked
  go : ∀ c p, s.cur c = .sched c → s.loc (.sched c) = .sched (.go p) →
    Off s p ∧ stateOf s p = .running
  back : ∀ c p, s.cur c = .sched c → s.loc (.sched c) = .sched (.back p) →
    Off s p ∧ stateOf s p ≠ .running
  /-- a process that is not executed -/
  off : ∀ p, Off s p → (s.loc (.proc p)).Waits (stateOf s p) ∨
    stateOf s p = .running ∧ (s.loc (.proc p)).Resumable ∧
      ∃ c, s.cur c = .sched c ∧ s.loc (.sched c) = .sched (.go p)
  forked : ∀ t np, (s.loc t).forks = some np → stateOf s np = .used
  forkedOnce : ∀ t t' np, (s.loc t).forks = some np → (s.loc t').forks = some np → t = t'

variable {s s' : State} {c : Cpu} {p np : Pid} {l next : Loc} {d : Data} {i : Code} {e : Event}

/-- A process that is executed in another state than RUNNING holds its lock. -/
theorem Loc.mem_holds_of_onState {st : ProcState} (hok : l.Ok (some p)) (h : l.onState = some st)
    (hst : st ≠ .running) : .proc p ∈ l.holds := by
  unfold Loc.onState at h
  split at h
  · obtain ⟨hp, -⟩ := hok
    cases hp
    simp [Loc.holds, YieldPc.holds]
  · obtain ⟨hp, -⟩ := hok
    cases hp
    simp [Loc.holds, SleepPc.holds]
  · cases hok
    simp [Loc.holds, ExitPc.holds]
  · cases hok
    simp [Loc.holds, ExitPc.holds]
  · cases h
  · exact absurd (Option.some.inj h).symm hst

/-- A thread that can be resumed holds the lock of its process then. -/
theorem Loc.Resumable.holds (h : l.Resumable) (hok : l.Ok (some p)) : l.holds = [.proc p] := by
  unfold Loc.Resumable at h
  split at h
  · cases hok
    rfl
  · obtain rfl := Option.some.inj hok.1
    rfl
  · obtain rfl := Option.some.inj hok.1
    rfl
  · cases h

theorem Loc.Resumable.onState (h : l.Resumable) : l.onState = some .running := by
  unfold Loc.Resumable at h
  split at h
  · rfl
  · rfl
  · rfl
  · cases h

namespace Inv

theorem onState_ne_used {l : Loc} : l.onState ≠ some .used ∧ l.onState ≠ some .unused := by
  unfold Loc.onState
  split <;> simp

/-- A process whose lock is held elsewhere and that is not RUNNING is not executed. -/
theorem off_of_locked (h : Inv s) (hmem : .proc p ∈ s.held Loc.holds c) (hcur : s.cur c ≠ .proc p)
    (hst : stateOf s p ≠ .running) : Off s p := by
  intro c' hc'
  obtain ⟨-, -, hon⟩ := h.on c' p hc'
  have hlock := Loc.mem_holds_of_onState (h.ok (.proc p)) hon hst
  have heq : c = c' := h.disc.excl hmem (by rw [Sys.held, hc']; exact hlock)
  rw [heq] at hcur
  exact hcur hc'

/-- A scheduler that has picked a process holds its lock. -/
theorem eq_of_picked (h : Inv s) {c' : Cpu} (hmem : .proc p ∈ s.held Loc.holds c)
    (hc' : s.cur c' = .sched c') (hp : (s.loc (.sched c')).picked = some p) : c = c' := by
  refine h.disc.excl hmem ?_
  rw [Sys.held, hc']
  unfold Loc.picked at hp
  split at hp
  · rename_i heq
    cases hp
    rw [heq]
    exact List.mem_singleton_self _
  · rename_i heq
    cases hp
    rw [heq]
    exact List.mem_singleton_self _
  · cases hp

/-- A change of state that a CPU can make to a process it does not execute: it has
the lock, and the thread of the process waits as the new state says, or the scheduler
has picked it. -/
structure Change (s : State) (c : Cpu) (next : Loc) (p : Pid) (st : ProcState) : Prop where
  mem : .proc p ∈ s.held Loc.holds c
  old : stateOf s p ≠ .running
  used : stateOf s p = .used → (s.loc (s.cur c)).forks = some p
  waits : (s.loc (.proc p)).Waits st ∨
    stateOf s p = .runnable ∧ st = .running ∧ next = .sched (.go p)

/-- What `Inv` says of one CPU. -/
structure At (s : State) (c : Cpu) : Prop where
  own : ∀ c', s.cur c = .sched c' → c' = c
  on : ∀ p, s.cur c = .proc p → s.data.cproc c = some p ∧
    s.loc (.sched c) = .sched (.back p) ∧ (s.loc (.proc p)).onState = some (stateOf s p)
  home : s.cur c = .sched c → s.data.cproc c = (s.loc (.sched c)).picked
  go : ∀ p, s.cur c = .sched c → s.loc (.sched c) = .sched (.go p) →
    Off s p ∧ stateOf s p = .running
  back : ∀ p, s.cur c = .sched c → s.loc (.sched c) = .sched (.back p) →
    Off s p ∧ stateOf s p ≠ .running

/-- `Inv` from what it says of each thread, each CPU, each process that is not executed,
and the children of `kfork`. -/
theorem of_at (hdisc : Disciplined Loc.holds s) (hok : ∀ t, (s.loc t).Ok t.me) (hat : ∀ c, At s c)
    (hoff : ∀ p, Off s p → (s.loc (.proc p)).Waits (stateOf s p) ∨
      stateOf s p = .running ∧ (s.loc (.proc p)).Resumable ∧
        ∃ c, s.cur c = .sched c ∧ s.loc (.sched c) = .sched (.go p))
    (hforks : (∀ t np, (s.loc t).forks = some np → stateOf s np = .used) ∧
      ∀ t t' np, (s.loc t).forks = some np → (s.loc t').forks = some np → t = t') : Inv s :=
  ⟨hdisc, hok, fun c => (hat c).own, fun c => (hat c).on, fun c => (hat c).home,
    fun c => (hat c).go, fun c => (hat c).back, hoff, hforks.1, hforks.2⟩

/-- Only thread `t0` has moved. -/
theorem ok_of (h : Inv s) {t0 : Tid} (hloc : ∀ {t}, t ≠ t0 → s'.loc t = s.loc t)
    (hok : (s'.loc t0).Ok t0.me) (t : Tid) : (s'.loc t).Ok t.me := by
  by_cases ht : t = t0
  · rw [ht]
    exact hok
  · rw [hloc ht]
    exact h.ok t

/-- A CPU is as it was if its thread, its scheduler and the process it executes or has
picked are. -/
theorem at_of_same (h : Inv s) (hcur : s'.cur c = s.cur c)
    (hcproc : s'.data.cproc c = s.data.cproc c) (hsched : s'.loc (.sched c) = s.loc (.sched c))
    (hon : ∀ p, s.cur c = .proc p →
      s'.loc (.proc p) = s.loc (.proc p) ∧ stateOf s' p = stateOf s p)
    (hpick : ∀ p, s.cur c = .sched c → (s.loc (.sched c)).picked = some p → Off s p →
      Off s' p ∧ stateOf s' p = stateOf s p) : At s' c := by
  refine ⟨fun c' hc => ?_, fun p hc => ?_, fun hc => ?_, fun p hc hl => ?_, fun p hc hl => ?_⟩ <;>
    rw [hcur] at hc
  · exact h.own c c' hc
  · obtain ⟨hloc, hst⟩ := hon p hc
    rw [hcproc, hsched, hloc, hst]
    exact h.on c p hc
  · rw [hcproc, hsched]
    exact h.home c hc
  · rw [hsched] at hl
    obtain ⟨hp, hrun⟩ := h.go c p hc hl
    obtain ⟨hp', hst⟩ := hpick p hc (by rw [hl]; rfl) hp
    exact ⟨hp', hst.trans hrun⟩
  · rw [hsched] at hl
    obtain ⟨hp, hrun⟩ := h.back c p hc hl
    obtain ⟨hp', hst⟩ := hpick p hc (by rw [hl]; rfl) hp
    exact ⟨hp', hst ▸ hrun⟩

/-- A process that was not executed waits as it did, if the scheduler that may have picked
it is where it was. -/
theorem off_of_same (h : Inv s) (hp : Off s p) (hst : stateOf s' p = stateOf s p)
    (hloc : s'.loc (.proc p) = s.loc (.proc p))
    (hgo : ∀ c, s.cur c = .sched c → s.loc (.sched c) = .sched (.go p) →
      s'.cur c = .sched c ∧ s'.loc (.sched c) = s.loc (.sched c)) :
    (s'.loc (.proc p)).Waits (stateOf s' p) ∨
      stateOf s' p = .running ∧ (s'.loc (.proc p)).Resumable ∧
        ∃ c, s'.cur c = .sched c ∧ s'.loc (.sched c) = .sched (.go p) := by
  rw [hst, hloc]
  rcases h.off p hp with hw | ⟨hrun, hres, c, hc, hl⟩
  · exact .inl hw
  · obtain ⟨hcur, hsched⟩ := hgo c hc hl
    exact .inr ⟨hrun, hres, c, hcur, hsched.trans hl⟩

/-- Thread `t0` has moved, and has the child it had or one that was not USED. -/
theorem forks_of (h : Inv s) {t0 : Tid} (hloc : ∀ {t}, t ≠ t0 → s'.loc t = s.loc t)
    (hmine : ∀ np, (s'.loc t0).forks = some np → stateOf s' np = .used ∧
      ((s.loc t0).forks = some np ∨ stateOf s np ≠ .used))
    (hothers : ∀ t np, t ≠ t0 → (s.loc t).forks = some np → stateOf s' np = .used) :
    (∀ t np, (s'.loc t).forks = some np → stateOf s' np = .used) ∧
      ∀ t t' np, (s'.loc t).forks = some np → (s'.loc t').forks = some np → t = t' := by
  have hold : ∀ {t np}, (s'.loc t).forks = some np →
      (s.loc t).forks = some np ∨ t = t0 ∧ stateOf s np ≠ .used := by
    intro t np ht
    by_cases ht0 : t = t0
    · rw [ht0] at ht ⊢
      exact (hmine np ht).2.imp_right fun hne => ⟨rfl, hne⟩
    · exact .inl (hloc ht0 ▸ ht)
  refine ⟨fun t np ht => ?_, fun t t' np ht ht' => ?_⟩
  · by_cases ht0 : t = t0
    · rw [ht0] at ht
      exact (hmine np ht).1
    · exact hothers t np ht0 (hloc ht0 ▸ ht)
  · rcases hold ht with ht | ⟨rfl, hne⟩ <;> rcases hold ht' with ht' | ⟨rfl, hne'⟩
    · exact h.forkedOnce t t' np ht ht'
    · exact absurd (h.forked t np ht) hne'
    · exact absurd (h.forked t' np ht') hne
    · rfl

/-- The scheduler of another CPU is not the thread that CPU `c` executes. -/
theorem sched_ne_cur (h : Inv s) {c' : Cpu} (hne : c' ≠ c) : Tid.sched c' ≠ s.cur c :=
  fun heq => hne (h.own c c' heq.symm)

/-- **Steps that concern no other thread.** -/
theorem move (h : Inv s) (he : s.exec c i = some s') (hr : i.result s.data = some (next, d))
    (hty : Typed Loc.holds (s.held Loc.holds c) i) (hok : next.Ok (s.cur c).me)
    (hcproc : ∀ c', c' ≠ c ∨ s.cur c ≠ .sched c → d.cproc c' = s.data.cproc c')
    (hhome : s.cur c = .sched c → d.cproc c = next.picked)
    (hmine : ∀ p, s.cur c = .proc p → next.onState = some (d.proc p).state)
    (hothers : ∀ p, s.cur c ≠ .proc p → (d.proc p).state = stateOf s p ∨
      Change s c next p (d.proc p).state) (hgo : ∀ p, s.loc (s.cur c) ≠ .sched (.go p))
    (hback : ∀ p, next ≠ .sched (.back p))
    (hgo' : ∀ p, next = .sched (.go p) → s.cur c = .sched c ∧ .proc p ∈ s.held Loc.holds c ∧
      stateOf s p = .runnable ∧ (d.proc p).state = .running)
    (hforks : ∀ np, next.forks = some np → (d.proc np).state = .used ∧
      ((s.loc (s.cur c)).forks = some np ∨ stateOf s np ≠ .used)) : Inv s' := by
  have hdisc := h.disc.exec_plain hty hr he
  obtain ⟨hcur, hloc, rfl⟩ := Sys.exec_result hr he
  have hsame : s'.loc (s.cur c) = next := by rw [hloc, update_self]
  have hother : ∀ {t}, t ≠ s.cur c → s'.loc t = s.loc t := by
    intro t ht
    rw [hloc, update_of_ne ht]
  have hoff : ∀ {p}, Off s' p ↔ Off s p := by
    intro p
    rw [Off, hcur, Off]
  refine .of_at hdisc (h.ok_of hother (hsame ▸ hok)) (fun c' => ?_) (fun p hp => ?_)
    (h.forks_of hother (hsame ▸ hforks) fun t np ht hfork => ?_)
  · by_cases hc : c' = c
    · subst hc
      refine ⟨hcur ▸ h.own c', fun p hc' => ?_, fun hc' => ?_, fun p hc' hl => ?_,
        fun p hc' hl => ?_⟩ <;> rw [hcur] at hc'
      · have hne : Tid.sched c' ≠ s.cur c' := by
          rw [hc']
          rintro ⟨⟩
        obtain ⟨hcp, hb, -⟩ := h.on c' p hc'
        refine ⟨(hcproc c' (.inr hne.symm)).trans hcp, (hother hne).trans hb, ?_⟩
        rw [← hc', hsame]
        exact hmine p hc'
      · rw [hhome hc', ← hsame, hc']
      · rw [← hc', hsame] at hl
        obtain ⟨-, hmem, hst, hrun⟩ := hgo' p hl
        refine ⟨hoff.mpr (h.off_of_locked hmem ?_ ?_), hrun⟩
        · rw [hc']
          rintro ⟨⟩
        · rw [hst]
          rintro ⟨⟩
      · rw [← hc', hsame] at hl
        exact absurd hl (hback p)
    · refine h.at_of_same (congrFun hcur c') (hcproc c' (.inl hc)) (hother (h.sched_ne_cur hc))
        (fun p hc' => ?_) fun p hc' hp hpoff => ⟨hoff.mpr hpoff, ?_⟩
      · have hcp : s.cur c ≠ .proc p := fun heq => hc (h.disc.alone c' c (hc'.trans heq.symm))
        refine ⟨hother hcp.symm, (hothers p hcp).resolve_right fun hch => ?_⟩
        exact h.off_of_locked hch.mem hcp hch.old c' hc'
      · -- the process of another scheduler that has picked one does not change
        refine (hothers p (hpoff c)).resolve_right fun hch => ?_
        exact hc (h.eq_of_picked hch.mem hc' hp).symm
  · have hp' := hoff.mp hp
    rcases hothers p (hp' c) with heq | hch
    · refine h.off_of_same hp' heq (hother (hp' c).symm) fun c' hc' hl => ⟨hcur ▸ hc', hother ?_⟩
      exact fun heq' => hgo p (by rw [← heq', hl])
    · rw [hother (hp' c).symm]
      refine hch.waits.imp_right fun hpicked => ?_
      obtain ⟨hst, hrun, hnext⟩ := hpicked
      have hc' := (hgo' p hnext).1
      refine ⟨hrun, ?_, c, hcur ▸ hc', by rw [← hc', hsame, hnext]⟩
      rcases h.off p hp' with hw | ⟨hrun', -⟩
      · rwa [hst] at hw
      · rw [hst] at hrun'
        cases hrun'
  · have hused := h.forked t np hfork
    by_cases hcp : s.cur c = .proc np
    · -- a process that is executed is not USED
      obtain ⟨-, -, hon⟩ := h.on c np hcp
      rw [hused] at hon
      exact absurd hon onState_ne_used.1
    · rcases hothers np hcp with heq | hch
      · exact heq.trans hused
      · exact absurd (h.forkedOnce t _ np hfork (hch.used hused)) ht

/-- What `swtch` from the thread of CPU `c` to `t` changes. -/
theorem swtch_eq {t : Tid} (he : s.exec c (.swtch t next) = some s') :
    s'.cur c = t ∧ (∀ {c'}, c' ≠ c → s'.cur c' = s.cur c') ∧ s'.loc (s.cur c) = next ∧
      (∀ {t}, t ≠ s.cur c → s'.loc t = s.loc t) ∧ s'.data = s.data := by
  obtain ⟨hcur, hloc, hdata⟩ := Sys.exec_swtch he
  rw [hcur, hloc]
  exact ⟨update_self .., fun hne => update_of_ne hne .., update_self ..,
    fun hne => update_of_ne hne .., hdata⟩

/-- The scheduler switches to the process it has picked. -/
theorem swtchTo (h : Inv s) (hc : s.cur c = .sched c) (hl : s.loc (.sched c) = .sched (.go p))
    (he : s.exec c (.swtch (.proc p) (.sched (.back p))) = some s') : Inv s' := by
  obtain ⟨hp, hrun⟩ := h.go c p hc hl
  have hres : (s.loc (.proc p)).Resumable := by
    rcases h.off p hp with hw | ⟨-, hres, -⟩
    · rw [hrun] at hw
      cases hw
    · exact hres
  have hheld : s.held Loc.holds c = [.proc p] := by
    rw [Sys.held, hc, hl]
    rfl
  have hdisc : Disciplined Loc.holds s' := by
    refine h.disc.exec (i := .swtch (.proc p) (.sched (.back p))) trivial
      (fun t next ht => ?_) (fun _ _ _ _ ht => by cases ht) he
    obtain ⟨rfl, -⟩ := Instr.swtch.inj ht
    exact ⟨hp, (hres.holds (h.ok (.proc p))).trans hheld.symm⟩
  obtain ⟨hmine, hcur, hsame, hloc, hdata⟩ := swtch_eq he
  have hstate : ∀ q, stateOf s' q = stateOf s q := fun q => by rw [stateOf, hdata]
  have hproc : ∀ q, s'.loc (.proc q) = s.loc (.proc q) := fun q => hloc (hc ▸ by rintro ⟨⟩)
  refine .of_at hdisc (h.ok_of hloc ?_) (fun c' => ?_) (fun q hq => ?_)
    (h.forks_of hloc ?_ fun t np _ ht => (hstate np).trans (h.forked t np ht))
  · rw [hsame, hc]
    rfl
  · by_cases hcc : c' = c
    · subst hcc
      refine ⟨fun c'' hc' => ?_, fun q hc' => ?_, fun hc' => ?_, fun q hc' => ?_,
        fun q hc' => ?_⟩ <;> rw [hmine] at hc' <;> cases hc'
      rw [hstate, hdata, hproc, hrun]
      exact ⟨(h.home c' hc).trans (by rw [hl]; rfl), hc ▸ hsame, hres.onState⟩
    · refine h.at_of_same (hcur hcc) (by rw [hdata]) (hloc (h.sched_ne_cur hcc))
        (fun q _ => ⟨hproc q, hstate q⟩) fun q hc' hq hqoff => ⟨fun c'' => ?_, hstate q⟩
      by_cases hcc' : c'' = c
      · -- the process that `c` has picked is not that of another scheduler
        rw [hcc', hmine]
        rintro ⟨⟩
        exact hcc (h.eq_of_picked (hheld ▸ List.mem_singleton_self _) hc' hq).symm
      · rw [hcur hcc']
        exact hqoff c''
  · have hq' : Off s q := by
      intro c' hc'
      by_cases hcc : c' = c
      · rw [hcc, hc] at hc'
        cases hc'
      · exact hq c' ((hcur hcc).trans hc')
    refine h.off_of_same hq' (hstate q) (hproc q) fun c' hc' hl' => ?_
    have hcc : c' ≠ c := by
      rintro rfl
      rw [hl] at hl'
      cases hl'
      exact hq c' hmine
    exact ⟨(hcur hcc).trans hc', hloc (h.sched_ne_cur hcc)⟩
  · rw [hsame]
    rintro _ ⟨⟩

/-- A process switches to the scheduler. -/
theorem swtchBack (h : Inv s) (next : Loc) (hc : s.cur c = .proc p)
    (hheld : s.held Loc.holds c = [.proc p]) (hst : stateOf s p ≠ .running)
    (hok : next.Ok (some p)) (hwaits : next.Waits (stateOf s p))
    (hforks : ∀ np, next.forks = some np → (s.loc (.proc p)).forks = some np)
    (he : s.exec c (.swtch (.sched c) next) = some s') : Inv s' := by
  obtain ⟨hcp, hb, -⟩ := h.on c p hc
  have hdisc : Disciplined Loc.holds s' := by
    refine h.disc.exec (i := .swtch (.sched c) next) trivial
      (fun t next' ht => ?_) (fun _ _ _ _ ht => by cases ht) he
    obtain ⟨rfl, -⟩ := Instr.swtch.inj ht
    refine ⟨fun c' hc' => ?_, ?_⟩
    · obtain rfl := h.own c' c hc'
      rw [hc] at hc'
      cases hc'
    · rw [hb, hheld]
      rfl
  obtain ⟨hmine, hcur, hsame, hloc, hdata⟩ := swtch_eq he
  have hstate : ∀ q, stateOf s' q = stateOf s q := fun q => by rw [stateOf, hdata]
  have hsched : ∀ c', s'.loc (.sched c') = s.loc (.sched c') :=
    fun c' => hloc (hc ▸ by rintro ⟨⟩)
  have hproc : ∀ {q}, q ≠ p → s'.loc (.proc q) = s.loc (.proc q) :=
    fun hne => hloc (hc ▸ fun heq => hne (Tid.proc.inj heq))
  have hoff : ∀ {q}, (q = p ∨ Off s q) → Off s' q := by
    intro q hq c'
    by_cases hcc : c' = c
    · rw [hcc, hmine]
      rintro ⟨⟩
    · rw [hcur hcc]
      rcases hq with rfl | hq
      · exact fun heq => hcc (h.disc.alone c' c (heq.trans hc.symm))
      · exact hq c'
  refine .of_at hdisc (h.ok_of hloc ?_) (fun c' => ?_) (fun q hq => ?_)
    (h.forks_of hloc (fun np hnp => ?_) fun t np _ ht => (hstate np).trans (h.forked t np ht))
  · rw [hsame, hc]
    exact hok
  · by_cases hcc : c' = c
    · subst hcc
      refine ⟨fun c'' hc' => ?_, fun q hc' => ?_, fun _ => ?_, fun q _ hl' => ?_, fun q _ hl' => ?_⟩
      · exact (Tid.sched.inj (hmine.symm.trans hc')).symm
      · rw [hmine] at hc'
        cases hc'
      · rw [hdata, hsched, hb]
        exact hcp
      · rw [hsched, hb] at hl'
        cases hl'
      · rw [hsched, hb] at hl'
        cases hl'
        exact ⟨hoff (.inl rfl), hstate p ▸ hst⟩
    · refine h.at_of_same (hcur hcc) (by rw [hdata]) (hsched c') (fun q hc' => ?_)
        fun q _ _ hq => ⟨hoff (.inr hq), hstate q⟩
      refine ⟨hproc ?_, hstate q⟩
      rintro rfl
      exact hcc (h.disc.alone c' c (hc'.trans hc.symm))
  · by_cases hqp : q = p
    · rw [hqp, hstate, ← hc, hsame]
      exact .inl hwaits
    · have hq' : Off s q := by
        intro c' hc'
        by_cases hcc : c' = c
        · rw [hcc, hc] at hc'
          exact hqp (Tid.proc.inj hc').symm
        · exact hq c' ((hcur hcc).trans hc')
      refine h.off_of_same hq' (hstate q) (hproc hqp) fun c' hc' _ => ⟨?_, hsched c'⟩
      refine (hcur ?_).trans hc'
      rintro rfl
      rw [hc] at hc'
      cases hc'
  · rw [hsame] at hnp
    rw [hc]
    exact ⟨(hstate np).trans (h.forked _ np (hforks np hnp)), .inl (hforks np hnp)⟩

/-- The context of an unused process is set. -/
theorem reset (h : Inv s) (hst : stateOf s p = .unused) :
    Inv { s with loc := update s.loc (.proc p) (.forkret p) } := by
  have hp : Off s p := by
    intro c hc
    obtain ⟨-, -, hon⟩ := h.on c p hc
    rw [hst] at hon
    exact absurd hon onState_ne_used.2
  generalize hs' : { s with loc := update s.loc (.proc p) (.forkret p) } = s'
  have hsame : s'.loc (.proc p) = .forkret p := hs' ▸ update_self ..
  have hloc : ∀ {t}, t ≠ .proc p → s'.loc t = s.loc t := fun ht => hs' ▸ update_of_ne ht ..
  have hcur : s'.cur = s.cur := by rw [← hs']
  have hstate : ∀ q, stateOf s' q = stateOf s q := fun q => by rw [← hs']
  have hsched : ∀ c, s'.loc (.sched c) = s.loc (.sched c) := fun c => hloc (by rintro ⟨⟩)
  have hoff : ∀ {q}, Off s' q ↔ Off s q := by
    intro q
    rw [Off, hcur, Off]
  have hheld : ∀ c, s'.held Loc.holds c = s.held Loc.holds c := by
    intro c
    rw [Sys.held, hcur, hloc (hp c), Sys.held]
  refine .of_at ⟨fun c lk => ?_, fun c => ?_, fun c => ?_, hcur ▸ h.disc.alone⟩ (h.ok_of hloc ?_)
    (fun c => ?_) (fun q hq => ?_)
    (h.forks_of hloc ?_ fun t np _ ht => (hstate np).trans (h.forked t np ht))
  · rw [hheld, ← hs']
    exact h.disc.own c lk
  · rw [hheld]
    exact h.disc.nodup c
  · rw [hheld, ← hs']
    exact h.disc.noff c
  · rw [hsame]
    rfl
  · refine h.at_of_same (congrFun hcur c) (by rw [← hs']) (hsched c) (fun q hc => ?_)
      fun q _ _ hq => ⟨hoff.mpr hq, hstate q⟩
    exact ⟨hloc fun heq => hp c (hc.trans heq), hstate q⟩
  · by_cases hqp : q = p
    · rw [hqp, hstate, hst]
      exact .inl trivial
    · refine h.off_of_same (hoff.mp hq) (hstate q) (hloc fun heq => hqp (Tid.proc.inj heq))
        fun c hc _ => ⟨hcur ▸ hc, hsched c⟩
  · rw [hsame]
    rintro _ ⟨⟩

/-- Steps that do not concern `c->proc`. -/
theorem quiet (h : Inv s) (hl : s.loc (s.cur c) = l) (he : s.exec c i = some s')
    (hr : i.result s.data = some (next, d)) (hty : Typed Loc.holds l.holds i)
    (hok : next.Ok (s.cur c).me) (hp : l.picked = none) (hp' : next.picked = none)
    (hcproc : d.cproc = s.data.cproc)
    (hmine : ∀ p, s.cur c = .proc p → next.onState = some (d.proc p).state)
    (hothers : ∀ p, s.cur c ≠ .proc p → (d.proc p).state = stateOf s p ∨
      Change s c next p (d.proc p).state)
    (hforks : ∀ np, next.forks = some np → (d.proc np).state = .used ∧
      (l.forks = some np ∨ stateOf s np ≠ .used)) : Inv s' := by
  subst hl
  refine h.move he hr hty hok (fun c' _ => congrFun hcproc c') (fun hc => ?_) hmine hothers
    (fun p heq => ?_) (fun p heq => ?_) (fun p heq => ?_) hforks
  · rw [hcproc, h.home c hc, hp', ← hp, hc]
  · rw [heq] at hp
    cases hp
  · rw [heq] at hp'
    cases hp'
  · rw [heq] at hp'
    cases hp'

/-- Steps after which every process is in the state it was in. -/
theorem same (h : Inv s) (hl : s.loc (s.cur c) = l) (he : s.exec c i = some s')
    (hr : i.result s.data = some (next, d)) (hty : Typed Loc.holds l.holds i)
    (hok : next.Ok (s.cur c).me) (hp : l.picked = none) (hp' : next.picked = none)
    (hcproc : d.cproc = s.data.cproc) (hstate : ∀ p, (d.proc p).state = stateOf s p)
    (hon : next.onState = l.onState) (hforks : ∀ np, next.forks = some np → l.forks = some np) :
    Inv s' := by
  refine h.quiet hl he hr hty hok hp hp' hcproc (fun p hc => ?_) (fun p _ => .inl (hstate p))
    fun np hnp => ⟨(hstate np).trans (h.forked _ np (hl ▸ hforks np hnp)), .inl (hforks np hnp)⟩
  rw [hon, ← hl, hc, hstate]
  exact (h.on c p hc).2.2

end Inv

end Xv6.Sched
