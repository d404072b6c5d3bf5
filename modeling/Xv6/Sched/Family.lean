import Xv6.Sched.Effect

/-!
# xv6 — parents and children

`wait_lock` protects the `parent` fields and the hand-over between a child that exits
and a parent that waits. This module says what the thread that has the lock knows at
each place, and that nobody else can make it untrue.

* `Waiting`     — a process is in `sleep` in `kwait`, or about to be, and nobody has
  woken it.
* `Loc.Facts`   — what is known at a place that `wait_lock` protects.
* `Family`      — with what holds always: parents are alive, and a process that waits
  and has a zombie child is about to be woken.

That every run keeps this is `family_run` in `Xv6.Sched.Reaping`.
-/

namespace Xv6.Sched

open Kernel (Pid ProcState u32 u64)
open TransitionRun Threads

variable {ret : Loc}

/-! ### Definitions -/

abbrev parentOf (s : State) (p : Pid) : Option Pid := (s.data.proc p).parent

/-- A process in this state has not exited. -/
def Live : ProcState → Prop
  | .runnable | .running | .sleeping => True
  | _ => False

/-- Process `q` is in `sleep` in `kwait`, `wait_lock` released, and nobody has woken
it. -/
def Waiting (s : State) (q : Pid) : Prop :=
  ∃ pc ret, s.loc (.proc q) = .sleep q (.proc q) .wait pc ret ∧
    (pc = .doze ∨ pc = .sched ∨ pc = .tidy ∧ stateOf s q = .sleeping)

/-- `wakeup` has not come past process `q`. -/
def WakePc.todo (q : Pid) : WakePc → Prop
  | .scan i => i ≤ q.val
  | .test i => i.val ≤ q.val
  | .stamp i | .release i => i.val < q.val

/-- No process below `k` is a zombie child of `p`. -/
def Clear (s : State) (p : Pid) (k : Nat) : Prop :=
  ∀ j : Pid, j.val < k → parentOf s j = some p → stateOf s j ≠ .zombie

/-- What the thread that has `wait_lock` knows. -/
def Loc.Facts (s : State) : Loc → Prop
  | .exit p _ (.reparent k) => ∀ j : Pid, j.val < k → parentOf s j ≠ some p
  | .wake _ _ (.exit p _ (.reparent k)) => ∀ j : Pid, j.val < k → parentOf s j ≠ some p
  | .wake ch pc (.exit p _ .lock) => (∀ j, parentOf s j ≠ some p) ∧
    ∀ q, parentOf s p = some q → ch = some (.proc q) ∧ (Waiting s q → pc.todo q)
  | .exit p _ .lock | .exit p _ .zombie => (∀ j, parentOf s j ≠ some p) ∧
    ∀ q, parentOf s p = some q → ¬ Waiting s q
  | .wait p (.scan k _) => Clear s p k
  | .wait p (.test q) => parentOf s q = some p ∧ Clear s p q.val
  | .wait p (.next q) => Clear s p (q.val + 1)
  | .wait p .killed | .wait p .killedRead | .wait p (.killedRet _) => Clear s p NPROC
  | .sleep p _ lk .lock _ | .sleep p _ lk .drop _ => lk = .wait → Clear s p NPROC
  | _ => True

/-- A place that `wakeup` returns to. -/
def Loc.Wakes : Loc → Prop
  | .held _ | .clock .unlock _ | .clock (.dev _) _ | .exit _ _ (.reparent _)
  | .exit _ _ .lock => True
  | _ => False

/-- Who calls `sleep` and `wakeup`, and that the first process does not exit. -/
def Loc.Form (init : Pid) : Loc → Prop
  | .exit p _ _ => p ≠ init
  | .wake _ _ ret => ret.Form init ∧ ret.Wakes
  | .sleep p ch lk _ ret => lk = .wait ∧ ch = .proc p ∧ ret = .wait p (.scan 0 false) ∨
    lk ≠ .wait ∧ ∃ x, ret = .held x
  | .clock _ ret | .yield _ _ ret => ret.Form init
  | _ => True

/-- The place in `sleep` before one between `release(lk)` and `p->chan = 0`. -/
def SleepPc.before : SleepPc → Option SleepPc
  | .doze => some .drop
  | .sched => some .doze
  | .tidy => some .sched
  | _ => none

/-- A place in that part of `sleep`. -/
def Loc.asleep : Loc → Bool
  | .sleep _ _ _ pc _ => pc.before.isSome
  | _ => false

/-- A place that nothing has to be known at, outside of that part of `sleep`. -/
structure Loc.Idle (l : Loc) : Prop where
  facts : ∀ s, l.Facts s
  awake : l.asleep = false

/-- A place in a function that uses `wait_lock`. -/
def Loc.family : Loc → Bool
  | .wake .. | .exit .. | .wait .. | .sleep .. => true
  | _ => false

/-- A step can lead from `l` to `next`. -/
structure Flow (init : Pid) (l next : Loc) : Prop where
  form : next.Form init
  asleep : ∀ p ch lk pc pc' ret, next = .sleep p ch lk pc ret → pc.before = some pc' →
    l = .sleep p ch lk pc' ret
  idle : l.family = false → ∀ s, next.Facts s

structure Family (s : State) : Prop where
  form : ∀ t, (s.loc t).Form s.data.initproc
  facts : ∀ c, (s.loc (s.cur c)).Facts s
  live : ∀ j q, parentOf s j = some q → Live (stateOf s q)
  init : Live (stateOf s s.data.initproc)
  chan : ∀ p ch lk pc ret, s.loc (.proc p) = .sleep p ch lk pc ret → pc = .sched ∨ pc = .tidy →
    (s.data.proc p).chan = some ch
  /-- the thread of a slot that is not used is not left in `sleep` -/
  stale : ∀ q p ch lk pc ret, stateOf s q = .unused → s.loc (.proc q) ≠ .sleep p ch lk pc ret
  /-- a process that waits and has a zombie child is about to be woken -/
  woken : ∀ j q, parentOf s j = some q → stateOf s j = .zombie → Waiting s q →
    ∃ c x status k pc, s.loc (s.cur c) =
      .wake (some (.proc q)) pc (.exit x status (.reparent k)) ∧ pc.todo q

variable {s s' : State} {c : Cpu} {p q j init : Pid} {l next : Loc} {d : Data} {i : Code}
  {e : Event}

/-! ### Control flow -/

/-- Nothing has to be known where no lock is held. -/
theorem Loc.idle_of_holds (h : l.holds = []) : l.Idle := by
  refine ⟨fun s => ?_, ?_⟩
  · unfold Loc.Facts
    split
    all_goals first | trivial | cases h | skip
    all_goals simp [Loc.holds, ExitPc.holds] at h
  · unfold Loc.asleep
    split
    · rename_i pc _
      cases pc with
      | doze | sched | tidy => cases h
      | _ => rfl
    · rfl

/-- Nor in other functions. -/
theorem Loc.idle_of_family (h : l.family = false) : l.Idle := by
  cases l with
  | wake | exit | wait | sleep => cases h
  | _ => exact ⟨fun _ => trivial, rfl⟩

theorem Loc.before_of_awake {ch : Chan} {lk : Lock} {pc pc' : SleepPc}
    (h : (Loc.sleep p ch lk pc ret).asleep = false) : pc.before ≠ some pc' := by
  intro hb
  rw [Loc.asleep, hb] at h
  cases h

theorem Flow.of_idle (hform : next.Form init) (h : next.Idle) : Flow init l next := by
  refine ⟨hform, ?_, fun _ => h.facts⟩
  rintro p ch lk pc pc' ret rfl hb
  exact absurd hb (Loc.before_of_awake h.awake)

/-- A step to a function that does not use `wait_lock`. -/
theorem Flow.plain (hform : next.Form init) (h : next.family = false) : Flow init l next :=
  .of_idle hform (Loc.idle_of_family h)

/-- A step of a function that uses `wait_lock`. -/
theorem Flow.of_family (hl : l.family = true) (hform : next.Form init)
    (hawake : next.asleep = false) : Flow init l next := by
  refine ⟨hform, ?_, fun hno => ?_⟩
  · rintro p ch lk pc pc' ret rfl hb
    exact absurd hb (Loc.before_of_awake hawake)
  · rw [hl] at hno
    cases hno

theorem Loc.Wakes.awake (h : l.Wakes) : l.asleep = false := by
  unfold Loc.Wakes at h
  split at h
  all_goals first | rfl | cases h

theorem flow_forProc {k : Nat} {body : Pid → Code} {done : Code}
    (hbody : ∀ q, Flow init l (body q).next) (hdone : Flow init l done.next) :
    Flow init l (forProc k body done).next := by
  unfold forProc
  split
  · exact hbody _
  · exact hdone

theorem schedCode_next (hi : schedCode s c next = .ok i) : i.next = next := by
  rw [schedCode_ok hi]
  rfl

theorem flow_sched {pc : SchedPc} : Flow init l (pc.code c d).next := by
  have hplain : ∀ pc, Flow init l (.sched pc) := fun _ => .plain trivial rfl
  cases pc with
  | look q =>
    simp only [SchedPc.code]
    split <;> exact hplain _
  | drop q =>
    simp only [SchedPc.code]
    split <;> exact hplain _
  | _ => exact hplain _

theorem flow_wake {ch : Option Chan} {pc : WakePc} (hret : ret.Form init ∧ ret.Wakes) :
    Flow init (.wake ch pc ret) (pc.code c d ch ret).next := by
  have hwake : ∀ pc', Flow init (.wake ch pc ret) (.wake ch pc' ret) :=
    fun _ => .of_family rfl hret rfl
  cases pc with
  | scan k =>
    simp only [WakePc.code]
    refine flow_forProc (fun _ => ?_) ?_
    · split <;> exact hwake _
    · exact .of_family rfl hret.1 hret.2.awake
  | test q =>
    simp only [WakePc.code]
    split <;> exact hwake _
  | stamp q | release q => exact hwake _

theorem flow_kill {pid : Int} {pc : KillPc} : Flow init l (pc.code d pid).next := by
  have hkill : ∀ pc, Flow init l (.kill pid pc) := fun _ => .plain trivial rfl
  have huser : Flow init l .user := .plain trivial rfl
  cases pc with
  | scan k =>
    simp only [KillPc.code]
    refine flow_forProc (fun _ => ?_) ?_
    · exact hkill _
    · exact huser
  | test q =>
    simp only [KillPc.code]
    split
    · split <;> exact hkill _
    · exact hkill _
  | stamp q | next q => exact hkill _
  | found q => exact huser

theorem flow_fork {ok : Bool} {pc : ForkPc} : Flow init l (pc.code d p ok).next := by
  have hfork : ∀ pc, Flow init l (.fork p pc) := fun _ => .plain trivial rfl
  have huser : Flow init l .user := .plain trivial rfl
  cases pc with
  | scan k =>
    simp only [ForkPc.code]
    refine flow_forProc (fun _ => ?_) ?_
    · exact hfork _
    · exact huser
  | test q | fill q =>
    simp only [ForkPc.code]
    split <;> exact hfork _
  | fail q | unlock q => exact huser
  | _ => exact hfork _

theorem flow_exit {status : Int} {pc : ExitPc} (hp : p ≠ init)
    (hi : pc.code s c p status = .ok i) : Flow init (.exit p status pc) i.next := by
  have hexit : ∀ pc', Flow init (.exit p status pc) (.exit p status pc') :=
    fun _ => .of_family rfl hp rfl
  cases pc with
  | reparent k =>
    cases hi
    refine flow_forProc (fun _ => ?_) (.of_family rfl ⟨hp, trivial⟩ rfl)
    split
    · exact .of_family rfl ⟨hp, trivial⟩ rfl
    · exact hexit _
  | sched =>
    rw [schedCode_next hi]
    exact hexit _
  | dead => cases hi
  | _ =>
    cases hi
    exact hexit _

theorem flow_wait {ok : Bool} {pc : WaitPc} : Flow init (.wait p pc) (pc.code d p ok).next := by
  have hwait : ∀ pc', Flow init (.wait p pc) (.wait p pc') := fun _ => .of_family rfl trivial rfl
  cases pc with
  | scan k havekids =>
    simp only [WaitPc.code]
    refine flow_forProc (fun _ => ?_) ?_
    · split <;> exact hwait _
    · split <;> exact hwait _
  | test q =>
    simp only [WaitPc.code]
    split
    · split <;> exact hwait _
    · exact hwait _
  | unlockWait => exact .of_family rfl trivial rfl
  | killedRet k =>
    simp only [WaitPc.code]
    split
    · exact hwait _
    · exact .of_family rfl (.inl ⟨rfl, rfl, rfl⟩) rfl
  | _ => exact hwait _

theorem flow_sleep {ch : Chan} {lk : Lock} {pc : SleepPc}
    (hform : (Loc.sleep p ch lk pc ret).Form init) (hi : pc.code s c p ch lk ret = .ok i) :
    Flow init (.sleep p ch lk pc ret) i.next := by
  have hsleep : ∀ {pc'}, (∀ pc'', pc'.before = some pc'' → pc'' = pc) →
      Flow init (.sleep p ch lk pc ret) (.sleep p ch lk pc' ret) := by
    intro pc' hpc
    refine ⟨hform, fun p ch lk pc1 pc2 ret heq hb => ?_, nofun⟩
    obtain ⟨rfl, rfl, rfl, rfl, rfl⟩ := Loc.sleep.inj heq
    rw [hpc _ hb]
  cases pc with
  | lock | tidy | unlock =>
    cases hi
    exact hsleep nofun
  | drop | doze =>
    cases hi
    exact hsleep fun _ hb => (Option.some.inj hb).symm
  | sched =>
    rw [schedCode_next hi]
    exact hsleep fun _ hb => (Option.some.inj hb).symm
  | relock =>
    cases hi
    rcases hform with ⟨-, -, rfl⟩ | ⟨-, x, rfl⟩ <;> exact .of_family rfl trivial rfl

theorem flow_trapped {dev : Option Nat} (hform : l.Form init) (hintr : l.intr = true) :
    Flow init l (trapped dev c d l) := by
  have hidle := Loc.idle_of_holds (Loc.plain_of_intr hintr).2
  unfold trapped
  simp only
  split
  · exact .plain hform rfl
  · split
    · split <;> exact .plain hform rfl
    · split
      · exact .of_idle hform hidle
      · exact .plain hform rfl

theorem flow_exitCode {status : Int} (hi : exitCode d p status = .ok i) :
    Flow d.initproc l i.next := by
  rw [exitCode] at hi
  split at hi
  · cases hi
  · rename_i hp
    cases hi
    exact .of_idle hp ⟨fun _ => trivial, rfl⟩

theorem flow_withProc {f : Pid → Except Panic Code} (hf : ∀ p j, f p = .ok j → Flow init l j.next)
    (hi : withProc c d f = some (.ok i)) : Flow init l i.next := by
  have hi := Option.some.inj hi
  split at hi
  · cases hi
  · exact hf _ i hi

/-- **Where a step can lead.** -/
theorem flow_codeOf (h : Inv s) (hform : (s.loc (s.cur e.cpu)).Form s.data.initproc)
    (hcode : codeOf s e = some (.ok i)) : Flow s.data.initproc (s.loc (s.cur e.cpu)) i.next := by
  rw [codeOf] at hcode
  have hok := h.ok (s.cur e.cpu)
  generalize s.loc (s.cur e.cpu) = l at hcode hok hform
  generalize e.act = a at hcode
  have hplain : ∀ {j : Code}, some (.ok j : Except Panic Code) = some (.ok i) →
      j.next.Form s.data.initproc → j.next.Idle → Flow s.data.initproc l i.next := by
    intro j heq hj hidle
    obtain rfl := code_inj heq
    exact .of_idle hj hidle
  unfold code at hcode
  split at hcode
  · split at hcode
    · rename_i hintr
      obtain rfl := code_inj hcode
      exact flow_trapped hform hintr
    · cases hcode
  · refine flow_withProc (fun p j hj => ?_) hcode
    cases hj
    exact .plain trivial rfl
  · exact flow_withProc (fun p j hj => flow_exitCode hj) hcode
  · refine flow_withProc (fun p j hj => ?_) hcode
    cases hj
    exact .of_idle trivial (Loc.idle_of_holds rfl)
  · exact hplain hcode trivial ⟨fun _ => trivial, rfl⟩
  · exact hplain hcode trivial ⟨fun _ => trivial, rfl⟩
  · exact hplain hcode ⟨trivial, trivial⟩ ⟨fun _ => trivial, rfl⟩
  · rename_i x y
    refine flow_withProc (fun p j hj => ?_) hcode
    cases hj
    exact .of_idle (.inr ⟨by rintro ⟨⟩, x, rfl⟩) ⟨by rintro _ ⟨⟩, rfl⟩
  · exact hplain hcode ⟨hform, trivial⟩ ⟨fun _ => trivial, rfl⟩
  · exact hplain hcode trivial ⟨fun _ => trivial, rfl⟩
  · exact flow_exitCode (Option.some.inj hcode)
  · obtain rfl := code_inj hcode
    exact flow_sched
  · obtain rfl := code_inj hcode
    exact flow_wake hform
  · obtain rfl := code_inj hcode
    exact flow_kill
  · obtain rfl := code_inj hcode
    exact flow_fork
  · exact flow_exit hform (Option.some.inj hcode)
  · obtain rfl := code_inj hcode
    exact flow_wait
  · exact flow_sleep hform (Option.some.inj hcode)
  · refine flow_withProc (fun p j hj => ?_) hcode
    cases hj
    exact .plain trivial rfl
  · rename_i pc ret _
    cases pc with
    | lock | devLock n => exact hplain hcode hform ⟨fun _ => trivial, rfl⟩
    | tick => exact hplain hcode ⟨hform, trivial⟩ ⟨fun _ => trivial, rfl⟩
    | unlock | dev n => exact hplain hcode hform (Loc.idle_of_holds hok.2.2)
  · rename_i p pc ret _
    have hcode := Option.some.inj hcode
    have hyield : ∀ pc', Flow s.data.initproc (.yield p pc ret) (.yield p pc' ret) :=
      fun _ => .plain hform rfl
    cases pc with
    | sched =>
      rw [schedCode_next hcode]
      exact hyield _
    | unlock =>
      cases hcode
      exact .of_idle hform (Loc.idle_of_holds hok.2.2.2)
    | _ =>
      cases hcode
      exact hyield _
  · cases hcode

end Xv6.Sched
