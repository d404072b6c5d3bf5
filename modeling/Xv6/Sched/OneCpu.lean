import Xv6.Sched.Discipline

/-!
# xv6 — a process runs on at most one CPU

Each function of the model keeps `Inv`, and with it every step and every run.

* `inv_step`, `inv_run` — `Inv` in every state.
* `one_cpu` — what follows for `c->proc`, for RUNNING processes and for `sched`.
-/

namespace Xv6.Sched

open Kernel (Pid ProcState)
open TransitionRun Threads List
open Function (update update_of_ne update_self)

variable {s s' : State} {c : Cpu} {p q np : Pid} {l next ret : Loc} {d : Data} {i : Code}
  {e : Event} {lk : Lock}

/-! ### Function by function -/

@[simp] theorem Data.upd_same (d : Data) (q : Pid) (f : Proc → Proc) :
    (d.upd q f).proc q = f (d.proc q) := update_self ..

theorem Data.upd_of_ne (d : Data) (f : Proc → Proc) (hp : p ≠ q) :
    (d.upd q f).proc p = d.proc p := update_of_ne hp ..

theorem Data.upd_upd (d : Data) (q : Pid) (f g : Proc → Proc) :
    (d.upd q g).upd q f = d.upd q fun pr => f (g pr) := by
  simp [Data.upd]

theorem Data.upd_state {f : Proc → Proc} (hf : (f (d.proc q)).state = (d.proc q).state) (p : Pid) :
    ((d.upd q f).proc p).state = (d.proc p).state := by
  by_cases hp : p = q
  · rw [hp, Data.upd_same, hf]
  · rw [Data.upd_of_ne _ _ hp]

/-- The only lock held is released. -/
theorem typed_release (h : next.holds = []) : Typed Loc.holds [lk] (.release lk next : Code) := by
  simp [Typed, h]

/-- The second of two locks is released first. -/
theorem typed_releaseSecond {lk' : Lock} (hne : lk' ≠ lk) (h : next.holds = [lk']) :
    Typed Loc.holds [lk', lk] (.release lk next : Code) := by
  simp [Typed, h, hne]

/-- The last lock taken is released. -/
theorem typed_releaseLast {H : List Lock} (h : next.holds = H) :
    Typed Loc.holds (lk :: H) (.release lk next : Code) := by
  simp [Typed, h]

/-- The thread that is executed. -/
theorem Inv.ok_at (h : Inv s) (hl : s.loc (s.cur c) = l) : l.Ok (s.cur c).me := hl ▸ h.ok _

/-- The thread goes on, and no process changes. -/
theorem Inv.goOn (h : Inv s) (hl : s.loc (s.cur c) = l) (he : s.exec c i = some s')
    (hr : i.result s.data = some (next, s.data)) (hty : Typed Loc.holds l.holds i)
    (hok : next.Ok (s.cur c).me) (hp : l.picked = none) (hp' : next.picked = none)
    (hon : next.onState = l.onState) (hforks : next.forks = l.forks) : Inv s' :=
  h.same hl he hr hty hok hp hp' rfl (fun _ => rfl) hon fun _ hnp => hforks ▸ hnp

/-- A change of one process that the CPU does not execute. -/
theorem Inv.setOther (h : Inv s) {pr : Proc} (hl : s.loc (s.cur c) = l)
    (he : s.exec c (.run d next) = some s') (hproc : d.proc = update s.data.proc q pr)
    (hcproc : d.cproc = s.data.cproc) (hty : next.holds = l.holds) (hok : next.Ok (s.cur c).me)
    (hp : l.picked = none) (hp' : next.picked = none) (hon : l.onState = some .running)
    (hon' : next.onState = some .running) (hmem : .proc q ∈ l.holds) (hold : stateOf s q ≠ .running)
    (hwaits : (s.loc (.proc q)).Waits pr.state) (hused : stateOf s q = .used → l.forks = some q)
    (hforks : ∀ np, next.forks = some np → l.forks = some np ∧ np ≠ q ∨
      np = q ∧ pr.state = .used ∧ (l.forks = some q ∨ stateOf s q ≠ .used)) : Inv s' := by
  have hcur : s.cur c ≠ .proc q := by
    intro hc
    have := (h.on c q hc).2.2
    rw [← hc, hl, hon] at this
    exact hold (Option.some.inj this).symm
  have hsame : d.proc q = pr := by rw [hproc, update_self]
  have hother : ∀ {p}, p ≠ q → d.proc p = s.data.proc p := by
    intro p hne
    rw [hproc, update_of_ne hne]
  refine h.quiet hl he rfl hty hok hp hp' hcproc (fun p hc => ?_) (fun p _ => ?_) fun np hnp => ?_
  · have hpq : p ≠ q := by
      rintro rfl
      exact hcur hc
    rw [hother hpq, hon', ← (h.on c p hc).2.2, ← hc, hl, hon]
  · by_cases hpq : p = q
    · subst hpq
      rw [hsame]
      refine .inr ⟨?_, hold, ?_, .inl hwaits⟩
      · rw [Sys.held, hl]
        exact hmem
      · rw [hl]
        exact hused
    · rw [hother hpq]
      exact .inl rfl
  · rcases hforks np hnp with ⟨hf, hne⟩ | ⟨rfl, hst, hf⟩
    · rw [hother hne]
      exact ⟨h.forked _ np (hl ▸ hf), .inl hf⟩
    · rw [hsame]
      exact ⟨hst, hf⟩

/-- A new process waits in `forkret`. -/
theorem Inv.waits_used (h : Inv s) (hst : stateOf s p = .used) :
    (s.loc (.proc p)).Waits .runnable := by
  have hoff : Off s p := by
    intro c hc
    have := (h.on c p hc).2.2
    rw [hst] at this
    exact absurd this Inv.onState_ne_used.1
  rcases h.off p hoff with hw | ⟨hrun, -⟩
  · rw [hst] at hw
    obtain ⟨_, hw⟩ := hw
    rw [hw]
    trivial
  · rw [hst] at hrun
    cases hrun

/-- A process that sleeps is made runnable. -/
theorem Inv.waits_woken (h : Inv s) (hl : s.loc (s.cur c) = l) (hmem : .proc p ∈ l.holds)
    (hon : l.onState = some .running) (hst : stateOf s p = .sleeping) :
    (s.loc (.proc p)).Waits .runnable := by
  have hcur : s.cur c ≠ .proc p := by
    intro hc
    have := (h.on c p hc).2.2
    rw [← hc, hl, hon, hst] at this
    cases this
  have hoff := h.off_of_locked (by rw [Sys.held, hl]; exact hmem) hcur
    (by rw [hst]; rintro ⟨⟩)
  rcases h.off p hoff with hw | ⟨hrun, -⟩
  · rw [hst] at hw
    obtain ⟨_, _, _, _, hw⟩ := hw
    rw [hw]
    trivial
  · rw [hst] at hrun
    cases hrun

theorem Inv.wake (h : Inv s) {ch : Option Chan} {pc : WakePc}
    (hl : s.loc (s.cur c) = .wake ch pc ret) (he : s.exec c (pc.code c s.data ch ret) = some s') :
    Inv s' := by
  obtain ⟨hret, hon, hpick⟩ : ret.Ok (s.cur c).me ∧ ret.Plain := h.ok_at hl
  cases pc with
  | scan k =>
    simp only [WakePc.code, forProc] at he
    split at he
    · split at he <;>
        exact h.goOn hl he rfl rfl ⟨hret, hon, hpick⟩ rfl rfl rfl rfl
    · exact h.goOn hl he rfl rfl hret rfl hpick hon rfl
  | test q =>
    simp only [WakePc.code] at he
    split at he
    · rename_i hq
      have hmem : Lock.proc q ∈ (Loc.wake ch (.test q) ret).holds := mem_cons_self
      refine h.setOther hl he rfl rfl rfl ⟨hret, hon, hpick⟩ rfl rfl rfl rfl hmem ?_
        (h.waits_woken hl hmem rfl hq.1) ?_ fun np hnp => .inl ⟨hnp, ?_⟩
      · rw [stateOf, hq.1]
        rintro ⟨⟩
      · rw [stateOf, hq.1]
        rintro ⟨⟩
      · rintro rfl
        have := h.forked (s.cur c) np (by rw [hl]; exact hnp)
        rw [stateOf, hq.1] at this
        cases this
    · exact h.goOn hl he rfl rfl ⟨hret, hon, hpick⟩ rfl rfl rfl rfl
  | stamp q =>
    exact h.same hl he rfl rfl ⟨hret, hon, hpick⟩ rfl rfl rfl (Data.upd_state rfl) rfl fun _ h => h
  | release q =>
    exact h.goOn hl he rfl (typed_releaseLast rfl) ⟨hret, hon, hpick⟩ rfl rfl rfl rfl

theorem Inv.kill (h : Inv s) {pid : Int} {pc : KillPc} (hl : s.loc (s.cur c) = .kill pid pc)
    (he : s.exec c (pc.code s.data pid) = some s') : Inv s' := by
  have hme : (s.cur c).me ≠ none := h.ok_at hl
  cases pc with
  | scan k =>
    simp only [KillPc.code, forProc] at he
    split at he <;> exact h.goOn hl he rfl rfl hme rfl rfl rfl rfl
  | test q =>
    simp only [KillPc.code] at he
    split at he
    · split at he
      · rename_i hq
        have hmem : Lock.proc q ∈ (Loc.kill pid (.test q)).holds := mem_cons_self
        -- two updates of the same slot are one
        have hupd : (s.data.upd q fun pr => { pr with killed := true }).wake q =
            s.data.upd q fun pr => { pr with
              killed := true, state := .runnable
              sleepTicks := Kernel.u64 (pr.sleepTicks + s.data.since pr.sleepStart) } := by
          simp [Data.wake, Data.upd, Data.since]
        rw [hupd] at he
        refine h.setOther hl he rfl rfl rfl hme rfl rfl rfl rfl hmem ?_
          (h.waits_woken hl hmem rfl hq) ?_ (by rintro _ ⟨⟩)
        · rw [stateOf, hq]
          rintro ⟨⟩
        · rw [stateOf, hq]
          rintro ⟨⟩
      · exact h.same hl he rfl rfl hme rfl rfl rfl (Data.upd_state rfl) rfl fun _ h => h
    · exact h.goOn hl he rfl rfl hme rfl rfl rfl rfl
  | stamp q => exact h.same hl he rfl rfl hme rfl rfl rfl (Data.upd_state rfl) rfl fun _ h => h
  | found q | next q =>
    exact h.goOn hl he rfl (typed_release rfl) hme rfl rfl rfl rfl

/-- `kfork`: the new process is USED until it is ready, and nobody picks it. -/
theorem Inv.fork (h : Inv s) {ok : Bool} {pc : ForkPc} (hl : s.loc (s.cur c) = .fork p pc)
    (he : s.exec c (pc.code s.data p ok) = some s') : Inv s' := by
  have hme : (s.cur c).me = some p := h.ok_at hl
  have hsome : (s.cur c).me ≠ none := by
    rw [hme]
    rintro ⟨⟩
  have hchild : ∀ np, pc.child = some np → stateOf s np = .used := by
    intro np hnp
    exact h.forked (s.cur c) np (by rw [hl]; exact hnp)
  cases pc with
  | scan k =>
    simp only [ForkPc.code, forProc] at he
    split at he
    · exact h.goOn hl he rfl rfl hme rfl rfl rfl rfl
    · exact h.goOn hl he rfl rfl hsome rfl rfl rfl rfl
  | test q =>
    simp only [ForkPc.code] at he
    split at he
    · rename_i hq
      -- the context is set, then the process is USED
      have hcur : s.cur c ≠ .proc q := by
        intro hc
        have := (h.on c q hc).2.2
        rw [stateOf, hq] at this
        exact absurd this Inv.onState_ne_used.2
      have h1 := h.reset hq
      have hl1 : update s.loc (.proc q) (.forkret q) (s.cur c) = .fork p (.test q) := by
        rw [update_of_ne hcur, hl]
      refine h1.setOther hl1 he rfl rfl rfl hme rfl rfl rfl rfl mem_cons_self ?_ ?_ ?_
        fun np hnp => .inr ⟨(Option.some.inj hnp).symm, rfl, .inr ?_⟩
      · rw [show stateOf _ q = .unused from hq]
        rintro ⟨⟩
      · exact ⟨q, update_self ..⟩
      · rw [show stateOf _ q = .unused from hq]
        rintro ⟨⟩
      · rw [show stateOf _ q = .unused from hq]
        rintro ⟨⟩
    · exact h.goOn hl he rfl rfl hme rfl rfl rfl rfl
  | next q | unlockWait q =>
    exact h.goOn hl he rfl (typed_release rfl) hme rfl rfl rfl rfl
  | stamp q | parent q =>
    exact h.same hl he rfl rfl hme rfl rfl rfl (Data.upd_state rfl) rfl fun _ h => h
  | fill q =>
    simp only [ForkPc.code] at he
    split at he
    · exact h.goOn hl he rfl (typed_release rfl) hme rfl rfl rfl rfl
    · refine h.setOther hl he rfl rfl rfl hme rfl rfl rfl rfl mem_cons_self ?_ trivial
        (fun _ => rfl) (by rintro _ ⟨⟩)
      rw [hchild q rfl]
      rintro ⟨⟩
  | fail q | unlock q =>
    exact h.goOn hl he rfl (typed_release rfl) hsome rfl rfl rfl rfl
  | lockWait q | relock q =>
    exact h.goOn hl he rfl rfl hme rfl rfl rfl rfl
  | runnable q =>
    have hq := hchild q rfl
    refine h.setOther hl he rfl rfl rfl hme rfl rfl rfl rfl mem_cons_self ?_
      (h.waits_used hq) (fun _ => rfl) (by rintro _ ⟨⟩)
    rw [hq]
    rintro ⟨⟩

/-- A process changes its own state. -/
theorem Inv.setOwn (h : Inv s) {f : Proc → Proc} (hl : s.loc (s.cur c) = l)
    (hme : (s.cur c).me = some p) (he : s.exec c (.run (s.data.upd p f) next) = some s')
    (hty : next.holds = l.holds) (hok : next.Ok (s.cur c).me) (hp : l.picked = none)
    (hp' : next.picked = none) (hon : next.onState = some (f (s.data.proc p)).state)
    (hforks : ∀ np, next.forks = some np → l.forks = some np) : Inv s' := by
  have hcur := Tid.eq_of_me hme
  refine h.quiet hl he rfl hty hok hp hp' rfl (fun q hq => ?_) (fun q hq => .inl ?_)
    fun np hnp => ?_
  · obtain rfl : q = p := Tid.proc.inj (hq.symm.trans hcur)
    rw [Data.upd_same]
    exact hon
  · have hne : q ≠ p := by
      rintro rfl
      exact hq hcur
    rw [Data.upd_of_ne _ _ hne]
  · have hf := hforks np hnp
    have hst := h.forked (s.cur c) np (by rw [hl]; exact hf)
    have hne : np ≠ p := by
      rintro rfl
      have := (h.on c np hcur).2.2
      rw [hst] at this
      exact absurd this Inv.onState_ne_used.1
    rw [Data.upd_of_ne _ _ hne]
    exact ⟨hst, .inl hf⟩

/-- `sched` does not panic where it is called, and switches to the scheduler. -/
theorem Inv.sched (h : Inv s) (next : Loc) (hl : s.loc (s.cur c) = l) (hme : (s.cur c).me = some p)
    (hheld : l.holds = [.proc p]) (hon : l.onState ≠ some .running) :
    s.cur c = .proc p ∧ stateOf s p ≠ .running ∧
      schedCode s c next = .ok (.swtch (.sched c) next) := by
  have hcur := Tid.eq_of_me hme
  obtain ⟨hcp, -, hst⟩ := h.on c p hcur
  have hheld' : s.held Loc.holds c = [.proc p] := by rw [Sys.held, hl, hheld]
  have hown : s.owner (.proc p) = some c := by
    rw [h.disc.own, hheld']
    exact mem_singleton_self _
  have hnoff : s.noff c = 1 := by
    rw [h.disc.noff, hheld']
    rfl
  have hne : stateOf s p ≠ .running := by
    intro heq
    rw [← hcur, hl, heq] at hst
    exact hon hst
  refine ⟨hcur, hne, ?_⟩
  rw [schedCode, hcp]
  simp only [hown, hnoff, ne_eq, not_true_eq_false, if_false]
  rw [if_neg hne]

/-- A thread that holds its lock only and is not RUNNING calls `sched`. -/
theorem Inv.giveUp (h : Inv s) {st : ProcState} (hl : s.loc (s.cur c) = l)
    (hi : schedCode s c next = .ok i) (he : s.exec c i = some s') (hme : (s.cur c).me = some p)
    (hheld : l.holds = [.proc p]) (hon : l.onState = some st) (hst : st ≠ .running)
    (hok : next.Ok (some p)) (hwaits : next.Waits st) (hforks : next.forks = l.forks) :
    Inv s' := by
  obtain ⟨hcur, hne, hcode⟩ := h.sched next hl hme hheld (by simpa [hon] using hst)
  obtain rfl : Instr.swtch _ _ = i := Except.ok.inj (hcode.symm.trans hi)
  have hstate := (h.on c p hcur).2.2
  rw [← hcur, hl, hon] at hstate
  rw [Option.some.inj hstate] at hwaits
  refine h.swtchBack next hcur (by rw [Sys.held, hl, hheld]) hne hok hwaits (fun np hnp => ?_) he
  rwa [← hcur, hl, ← hforks]

theorem Inv.exit (h : Inv s) {status : Int} {pc : ExitPc}
    (hl : s.loc (s.cur c) = .exit p status pc) (hi : pc.code s c p status = .ok i)
    (he : s.exec c i = some s') : Inv s' := by
  have hme : (s.cur c).me = some p := h.ok_at hl
  cases pc with
  | lockWait | lock =>
    cases hi
    exact h.goOn hl he rfl rfl hme rfl rfl rfl rfl
  | reparent k =>
    cases hi
    simp only [forProc] at he
    split at he
    · split at he
      · exact h.same hl he rfl rfl ⟨hme, rfl, rfl⟩ rfl rfl rfl (Data.upd_state rfl) rfl
          fun _ h => h
      · exact h.goOn hl he rfl rfl hme rfl rfl rfl rfl
    · exact h.goOn hl he rfl rfl ⟨hme, rfl, rfl⟩ rfl rfl rfl rfl
  | zombie =>
    cases hi
    exact h.setOwn hl hme he rfl hme rfl rfl rfl fun _ h => h
  | unlockWait =>
    cases hi
    exact h.goOn hl he rfl (typed_releaseSecond nofun rfl) hme rfl rfl rfl rfl
  | sched =>
    exact h.giveUp hl hi he hme rfl rfl nofun rfl ⟨p, status, rfl⟩ rfl
  | dead => cases hi

theorem Inv.wait (h : Inv s) {ok : Bool} {pc : WaitPc} (hl : s.loc (s.cur c) = .wait p pc)
    (he : s.exec c (pc.code s.data p ok) = some s') : Inv s' := by
  have hme : (s.cur c).me = some p := h.ok_at hl
  have hsome : (s.cur c).me ≠ none := by
    rw [hme]
    rintro ⟨⟩
  cases pc with
  | lockWait | killed | killedRead =>
    exact h.goOn hl he rfl rfl hme rfl rfl rfl rfl
  | scan k havekids =>
    simp only [WaitPc.code, forProc] at he
    split at he
    · split at he <;> exact h.goOn hl he rfl rfl hme rfl rfl rfl rfl
    · split at he <;> exact h.goOn hl he rfl rfl hme rfl rfl rfl rfl
  | test q =>
    simp only [WaitPc.code] at he
    split at he
    · split at he
      · rename_i hq _
        refine h.setOther hl he rfl rfl rfl hme rfl rfl rfl rfl mem_cons_self ?_ trivial ?_
          (by rintro _ ⟨⟩)
        · rw [stateOf, hq]
          rintro ⟨⟩
        · rw [stateOf, hq]
          rintro ⟨⟩
      · exact h.goOn hl he rfl rfl hme rfl rfl rfl rfl
    · exact h.goOn hl he rfl rfl hme rfl rfl rfl rfl
  | next q | done q =>
    exact h.goOn hl he rfl (typed_releaseLast rfl) hme rfl rfl rfl rfl
  | unlockWait =>
    exact h.goOn hl he rfl (typed_release rfl) hsome rfl rfl rfl rfl
  | killedRet k =>
    cases k with
    | false =>
      exact h.goOn hl he rfl (typed_releaseLast rfl) ⟨hme, hme, ⟨rfl, rfl⟩, rfl⟩ rfl rfl rfl rfl
    | true =>
      exact h.goOn hl he rfl (typed_releaseLast rfl) hme rfl rfl rfl rfl

theorem Inv.sleep (h : Inv s) {ch : Chan} {pc : SleepPc}
    (hl : s.loc (s.cur c) = .sleep p ch lk pc ret) (hi : pc.code s c p ch lk ret = .ok i)
    (he : s.exec c i = some s') : Inv s' := by
  obtain ⟨hme, hret, ⟨hon, hpick⟩, hholds⟩ := h.ok_at hl
  have hok : ∀ pc, (Loc.sleep p ch lk pc ret).Ok (s.cur c).me :=
    fun _ => ⟨hme, hret, ⟨hon, hpick⟩, hholds⟩
  cases pc with
  | lock =>
    cases hi
    exact h.goOn hl he rfl rfl (hok _) rfl rfl rfl rfl
  | drop =>
    cases hi
    refine h.goOn hl he rfl (typed_releaseSecond ?_ rfl) (hok _) rfl rfl rfl rfl
    -- the two locks are different, as both are held
    have hnodup := h.disc.nodup c
    rw [Sys.held, hl] at hnodup
    rintro rfl
    simp [Loc.holds, SleepPc.holds] at hnodup
  | doze =>
    cases hi
    exact h.setOwn hl hme he rfl (hok _) rfl rfl rfl fun _ h => h
  | sched =>
    exact h.giveUp hl hi he hme rfl rfl (by rintro ⟨⟩) (hme ▸ hok _) ⟨p, ch, lk, ret, rfl⟩ rfl
  | tidy =>
    cases hi
    exact h.same hl he rfl rfl (hok _) rfl rfl rfl (Data.upd_state rfl) rfl fun _ h => h
  | unlock =>
    cases hi
    exact h.goOn hl he rfl (typed_release rfl) (hok _) rfl rfl rfl rfl
  | relock =>
    cases hi
    exact h.goOn hl he rfl hholds hret rfl hpick hon rfl

theorem Inv.clock (h : Inv s) {pc : ClockPc} (hl : s.loc (s.cur c) = .clock pc ret)
    (he : s.exec c (pc.code s.data ret) = some s') : Inv s' := by
  obtain ⟨hret, ⟨hon, hpick⟩, hholds⟩ := h.ok_at hl
  have hok : ∀ pc, (Loc.clock pc ret).Ok (s.cur c).me := fun _ => ⟨hret, ⟨hon, hpick⟩, hholds⟩
  cases pc with
  | lock | devLock n => exact h.goOn hl he rfl rfl (hok _) rfl rfl rfl rfl
  | tick =>
    exact h.same hl he rfl rfl ⟨hok _, rfl, rfl⟩ rfl rfl rfl (fun _ => rfl) rfl fun _ h => h
  | unlock | dev n =>
    exact h.goOn hl he rfl (typed_release hholds) hret rfl hpick hon rfl

theorem Inv.yield (h : Inv s) {pc : YieldPc} (hl : s.loc (s.cur c) = .yield p pc ret)
    (hi : pc.code s c p ret = .ok i) (he : s.exec c i = some s') : Inv s' := by
  obtain ⟨hme, hret, ⟨hon, hpick⟩, hholds⟩ := h.ok_at hl
  have hok : ∀ pc, (Loc.yield p pc ret).Ok (s.cur c).me :=
    fun _ => ⟨hme, hret, ⟨hon, hpick⟩, hholds⟩
  cases pc with
  | tail | lock =>
    cases hi
    exact h.goOn hl he rfl rfl (hok _) rfl rfl rfl rfl
  | runnable =>
    cases hi
    exact h.setOwn hl hme he rfl (hok _) rfl rfl rfl fun _ h => h
  | sched =>
    exact h.giveUp hl hi he hme rfl rfl nofun (hme ▸ hok _) trivial rfl
  | unlock =>
    cases hi
    exact h.goOn hl he rfl (typed_release hholds) hret rfl hpick hon rfl

/-- The loop of `scheduler`, on a CPU that executes no process. -/
theorem Inv.scheduler (h : Inv s) {pc : SchedPc} (hl : s.loc (s.cur c) = .sched pc)
    (he : s.exec c (pc.code c s.data) = some s') : Inv s' := by
  have hme : (s.cur c).me = none := h.ok_at hl
  have hcur : s.cur c = .sched c := by
    cases hc : s.cur c with
    | sched c' => rw [h.own c c' hc]
    | proc q =>
      rw [hc] at hme
      cases hme
  have hnot : ∀ p, s.cur c ≠ .proc p := by
    intro p hp
    rw [hcur] at hp
    cases hp
  -- `c->proc` is set to null
  have hnull : ∀ (pc' : SchedPc), (∀ p, pc ≠ .go p) → (∀ p, pc' ≠ .go p ∧ pc' ≠ .back p) →
      (Loc.sched pc').holds = (Loc.sched pc).holds →
      s.exec c (.run { s.data with cproc := update s.data.cproc c none }
        (.sched pc')) = some s' → Inv s' := by
    intro pc' hgo hnext hholds he
    have hpicked : (Loc.sched pc').picked = none := by
      cases pc' with
      | go p => exact absurd rfl (hnext p).1
      | back p => exact absurd rfl (hnext p).2
      | _ => rfl
    refine h.move he rfl ?_ hme (fun c' hc' => ?_) (fun _ => ?_)
      (fun p hp => absurd hp (hnot p)) (fun p _ => .inl rfl) (fun p heq => ?_) (fun p heq => ?_)
      (fun p heq => ?_) (by rintro _ ⟨⟩)
    · rw [Sys.held, hl]
      exact hholds
    · rcases hc' with hc' | hc'
      · exact update_of_ne hc' ..
      · exact absurd hcur hc'
    · rw [hpicked]
      exact update_self ..
    · rw [hl] at heq
      exact hgo p (Loc.sched.inj heq)
    · exact (hnext p).2 (Loc.sched.inj heq)
    · exact absurd (Loc.sched.inj heq) (hnext p).1
  cases pc with
  | start => exact hnull .idle (by simp) (fun _ => ⟨by rintro ⟨⟩, by rintro ⟨⟩⟩) rfl he
  | idle | scan q => exact h.goOn hl he rfl rfl hme rfl rfl rfl rfl
  | look q =>
    simp only [SchedPc.code] at he
    split at he
    · rename_i hq
      -- RUNNABLE: the process is this CPU's from here on
      have hmem : Lock.proc q ∈ s.held Loc.holds c := by
        rw [Sys.held, hl]
        exact mem_cons_self
      refine h.move he rfl (by rw [Sys.held, hl]; rfl) hme (fun c' hc' => ?_)
        (fun _ => update_self ..) (fun p hp => absurd hp (hnot p)) (fun p _ => ?_)
        (fun p heq => ?_) (by rintro _ ⟨⟩) (fun p heq => ?_) (by rintro _ ⟨⟩)
      · rcases hc' with hc' | hc'
        · exact update_of_ne hc' ..
        · exact absurd hcur hc'
      · by_cases hp : p = q
        · subst hp
          refine .inr ⟨hmem, ?_, ?_, .inr ⟨hq, ?_, rfl⟩⟩
          · rw [stateOf, hq]
            rintro ⟨⟩
          · rw [stateOf, hq]
            rintro ⟨⟩
          · rw [Data.upd_same]
        · refine .inl ?_
          rw [Data.upd_of_ne _ _ hp]
      · rw [hl] at heq
        cases heq
      · obtain rfl := SchedPc.go.inj (Loc.sched.inj heq)
        refine ⟨hcur, hmem, hq, ?_⟩
        rw [Data.upd_same]
    · exact h.goOn hl he rfl rfl hme rfl rfl rfl rfl
  | go q =>
    rw [hcur] at hl
    exact h.swtchTo hcur hl he
  | back q => exact hnull (.drop q) (by simp) (fun _ => ⟨by rintro ⟨⟩, by rintro ⟨⟩⟩) rfl he
  | drop q =>
    simp only [SchedPc.code] at he
    split at he <;>
      exact h.goOn hl he rfl (typed_release rfl) hme rfl rfl rfl rfl

/-! ### Every step -/

theorem Loc.plain_of_intr (h : l.intr = true) : l.Plain ∧ l.holds = [] := by
  unfold Loc.intr at h
  split at h
  all_goals first | exact ⟨⟨rfl, rfl⟩, rfl⟩ | cases h

/-- `myproc()` is the process whose thread is executed. -/
theorem Inv.cproc_eq (h : Inv s) (hp : (s.loc (s.cur c)).picked = none) :
    s.data.cproc c = (s.cur c).me := by
  cases hc : s.cur c with
  | sched c' =>
    obtain rfl := h.own c c' hc
    rw [h.home c' hc, ← hc, hp, hc]
    rfl
  | proc p => exact (h.on c p hc).1

theorem Inv.trapped {dev : Option Nat} (h : Inv s) (hl : s.loc (s.cur c) = l)
    (hintr : l.intr = true) (he : s.exec c (.run s.data (trapped dev c s.data l)) = some s') :
    Inv s' := by
  obtain ⟨hplain, hholds⟩ := Loc.plain_of_intr hintr
  have hok : l.Ok (s.cur c).me := hl ▸ h.ok (s.cur c)
  rcases dev with _ | n
  swap
  · exact h.goOn hl he rfl hholds.symm ⟨hok, hplain, hholds⟩ hplain.2 rfl hplain.1.symm rfl
  have hcproc : s.data.cproc c = (s.cur c).me := h.cproc_eq (by rw [hl]; exact hplain.2)
  -- where the interrupt returns to
  have hret : ∃ ret, Sched.trapped none c s.data l = (if c = 0 then .clock .lock ret else ret) ∧
      ret.Ok (s.cur c).me ∧ ret.Plain ∧ ret.holds = [] ∧ ret.forks = l.forks := by
    cases hc : s.data.cproc c with
    | none => exact ⟨l, by simp only [Sched.trapped, hc], hok, hplain, hholds, rfl⟩
    | some p =>
      refine ⟨.yield p .tail l, by simp only [Sched.trapped, hc], ⟨?_, hok, hplain, hholds⟩,
        ⟨rfl, rfl⟩, rfl, rfl⟩
      rw [← hcproc, hc]
  obtain ⟨ret, htrap, hret, hrplain, hrholds, hforks⟩ := hret
  rw [htrap] at he
  split at he
  · exact h.goOn hl he rfl hholds.symm ⟨hret, hrplain, hrholds⟩ hplain.2 rfl hplain.1.symm hforks
  · exact h.goOn hl he rfl (hrholds.trans hholds.symm) hret hplain.2 hrplain.2
      (hrplain.1.trans hplain.1.symm) hforks

/-- `kexit` is called. -/
theorem Inv.exitCall (h : Inv s) {status : Int} (hl : s.loc (s.cur c) = l) (hplain : l.Plain)
    (hholds : l.holds = []) (hme : (s.cur c).me = some p)
    (hi : exitCode s.data p status = .ok i) (he : s.exec c i = some s') : Inv s' := by
  rw [exitCode] at hi
  split at hi
  · cases hi
  · cases hi
    exact h.same hl he rfl hholds.symm hme hplain.2 rfl rfl (fun _ => rfl) hplain.1.symm nofun

/-- **Every step** keeps who runs where. -/
theorem inv_step (h : Inv s) (hs : Step s e s') : Inv s' := by
  obtain ⟨i, hcode, he⟩ := step_iff.mp hs
  rw [codeOf] at hcode
  generalize hl : s.loc (s.cur e.cpu) = l at hcode
  generalize e.act = a at hcode
  have hok := h.ok (s.cur e.cpu)
  rw [hl] at hok
  have hcproc : l.picked = none → s.data.cproc e.cpu = (s.cur e.cpu).me := by
    intro hp
    exact h.cproc_eq (by rw [hl]; exact hp)
  -- what `withProc` calls is called for the process that is executed
  have hproc : ∀ {f : Pid → Except Panic Code}, l.picked = none →
      withProc e.cpu s.data f = some (.ok i) → ∃ p, (s.cur e.cpu).me = some p ∧ f p = .ok i := by
    intro f hp hf
    have hf := Option.some.inj hf
    split at hf
    · cases hf
    · rename_i p hp'
      exact ⟨p, by rw [← hcproc hp, hp'], hf⟩
  have hsome : ∀ {p}, (s.cur e.cpu).me = some p → (s.cur e.cpu).me ≠ none := by
    intro p hp
    rw [hp]
    nofun
  unfold code at hcode
  split at hcode
  · split at hcode
    · obtain rfl := code_inj hcode
      rename_i hintr
      exact h.trapped hl hintr he
    · cases hcode
  · obtain ⟨p, hme, hf⟩ := hproc rfl hcode
    cases hf
    exact h.goOn hl he rfl rfl hme rfl rfl rfl rfl
  · obtain ⟨p, hme, hf⟩ := hproc rfl hcode
    exact h.exitCall hl ⟨rfl, rfl⟩ rfl hme hf he
  · obtain ⟨p, hme, hf⟩ := hproc rfl hcode
    cases hf
    exact h.goOn hl he rfl rfl hme rfl rfl rfl rfl
  · obtain rfl := code_inj hcode
    exact h.goOn hl he rfl rfl hok rfl rfl rfl rfl
  · obtain rfl := code_inj hcode
    exact h.goOn hl he rfl rfl hok rfl rfl rfl rfl
  · obtain rfl := code_inj hcode
    exact h.goOn hl he rfl rfl ⟨hok, rfl, rfl⟩ rfl rfl rfl rfl
  · obtain ⟨p, hme, hf⟩ := hproc rfl hcode
    cases hf
    exact h.goOn hl he rfl rfl ⟨hme, hok, ⟨rfl, rfl⟩, rfl⟩ rfl rfl rfl rfl
  · obtain rfl := code_inj hcode
    exact h.goOn hl he rfl rfl ⟨hok, rfl, rfl⟩ rfl rfl rfl rfl
  · obtain rfl := code_inj hcode
    exact h.goOn hl he rfl (typed_release rfl) hok rfl rfl rfl rfl
  · exact h.exitCall hl ⟨rfl, rfl⟩ rfl hok.1 (Option.some.inj hcode) he
  · obtain rfl := code_inj hcode
    exact h.scheduler hl he
  · obtain rfl := code_inj hcode
    exact h.wake hl he
  · obtain rfl := code_inj hcode
    exact h.kill hl he
  · obtain rfl := code_inj hcode
    exact h.fork hl he
  · exact h.exit hl (Option.some.inj hcode) he
  · obtain rfl := code_inj hcode
    exact h.wait hl he
  · exact h.sleep hl (Option.some.inj hcode) he
  · obtain ⟨p, hme, hf⟩ := hproc rfl hcode
    cases hf
    obtain rfl := Option.some.inj (hok.symm.trans hme)
    exact h.goOn hl he rfl (typed_release rfl) (hsome hme) rfl rfl rfl rfl
  · obtain rfl := code_inj hcode
    exact h.clock hl he
  · exact h.yield hl (Option.some.inj hcode) he
  · cases hcode

theorem inv_boot : Inv boot := by
  have hoff : ∀ c p, boot.cur c ≠ .proc p := fun _ _ => nofun
  refine ⟨⟨fun _ _ => ⟨nofun, nofun⟩, fun _ => nodup_nil, fun _ => rfl,
    fun c c' h => Tid.sched.inj h⟩, fun t => ?_, fun c c' h => (Tid.sched.inj h).symm,
    fun c p h => absurd h (hoff c p), fun _ _ => rfl, fun _ _ _ => nofun, fun _ _ _ => nofun,
    fun p _ => ?_, fun t np ht => ?_, fun t t' np ht => ?_⟩
  · cases t <;> rfl
  · by_cases hp : p = 0
    · subst hp
      exact .inl trivial
    · refine .inl ?_
      rw [show stateOf boot p = .unused by simp [stateOf, boot, hp, Proc.zero]]
      trivial
  · cases t <;> cases ht
  · cases t <;> cases ht

theorem inv_run {es : List Event} (hrun : Run Step boot es s) : Inv s :=
  hrun.invariant (P := Inv) inv_boot fun _ _ _ h hs => inv_step h hs

/-- `sched` is called with the lock of the process, no other lock, and a new state. -/
theorem Inv.sched_ok (h : Inv s) {x : Panic} (hx : Panics s e x) :
    x ≠ .schedLock ∧ x ≠ .schedLocks ∧ x ≠ .schedRunning := by
  rw [Panics, codeOf] at hx
  generalize hl : s.loc (s.cur e.cpu) = l at hx
  generalize e.act = a at hx
  have hok := h.ok (s.cur e.cpu)
  rw [hl] at hok
  have hproc : ∀ {f : Pid → Except Panic Code}, withProc e.cpu s.data f = some (.error x) →
      x = .wild ∨ ∃ p, f p = .error x := by
    intro f hf
    have hf := Option.some.inj hf
    split at hf
    · exact .inl (Except.error.inj hf).symm
    · rename_i p _
      exact .inr ⟨p, hf⟩
  have hexit : ∀ {p status}, exitCode s.data p status = .error x → x = .initExiting := by
    intro p status hf
    rw [exitCode] at hf
    split at hf
    · exact (Except.error.inj hf).symm
    · cases hf
  have hno : x = .wild ∨ x = .initExiting ∨ x = .zombieExit → x ≠ .schedLock ∧
      x ≠ .schedLocks ∧ x ≠ .schedRunning := by
    rintro (rfl | rfl | rfl) <;> exact ⟨nofun, nofun, nofun⟩
  -- a call that cannot panic itself
  have hcall : ∀ {g : Pid → Code}, withProc e.cpu s.data (fun p => .ok (g p)) = some (.error x) →
      x ≠ .schedLock ∧ x ≠ .schedLocks ∧ x ≠ .schedRunning := by
    intro g hf
    rcases hproc hf with hw | ⟨p, hf⟩
    · exact hno (.inl hw)
    · cases hf
  unfold code at hx
  split at hx
  · split at hx <;> cases hx
  · exact hcall hx
  · rcases hproc hx with hw | ⟨p, hf⟩
    · exact hno (.inl hw)
    · exact hno (.inr (.inl (hexit hf)))
  · exact hcall hx
  · cases hx
  · cases hx
  · cases hx
  · exact hcall hx
  · cases hx
  · cases hx
  · exact hno (.inr (.inl (hexit (Option.some.inj hx))))
  · cases hx
  · cases hx
  · cases hx
  · cases hx
  · rename_i p status pc _
    have hx := Option.some.inj hx
    cases pc with
    | sched =>
      rw [ExitPc.code, (h.sched _ hl hok rfl nofun).2.2] at hx
      cases hx
    | dead => exact hno (.inr (.inr (Except.error.inj hx).symm))
    | _ => cases hx
  · cases hx
  · rename_i p ch lk pc ret _
    cases pc with
    | sched =>
      rw [SleepPc.code, (h.sched _ hl hok.1 rfl nofun).2.2] at hx
      cases hx
    | _ => cases hx
  · exact hcall hx
  · cases hx
  · rename_i p pc ret _
    cases pc with
    | sched =>
      rw [YieldPc.code, (h.sched _ hl hok.1 rfl nofun).2.2] at hx
      cases hx
    | _ => cases hx
  · cases hx

/-- The CPU that has picked a process, or executes it. -/
theorem Inv.cproc_cases (h : Inv s) (hc : s.data.cproc c = some p) : s.cur c = .proc p ∨
    s.cur c = .sched c ∧
      (s.loc (.sched c) = .sched (.go p) ∨ s.loc (.sched c) = .sched (.back p)) := by
  cases hcur : s.cur c with
  | proc q =>
    rw [(h.on c q hcur).1] at hc
    exact .inl (congrArg Tid.proc (Option.some.inj hc))
  | sched c' =>
    obtain rfl := h.own c c' hcur
    rw [h.home c' hcur] at hc
    refine .inr ⟨rfl, ?_⟩
    unfold Loc.picked at hc
    split at hc
    · rename_i heq
      rw [heq, Option.some.inj hc]
      exact .inl rfl
    · rename_i heq
      rw [heq, Option.some.inj hc]
      exact .inr rfl
    · cases hc

/-- Such a CPU owns the lock of the process, or the process is executed on it. -/
theorem Inv.cproc_unique (h : Inv s) {c' : Cpu} (hc : s.data.cproc c = some p)
    (hc' : s.data.cproc c' = some p) : c = c' := by
  have hmem : ∀ {c}, s.cur c = .sched c → (s.loc (.sched c) = .sched (.go p) ∨
      s.loc (.sched c) = .sched (.back p)) → Off s p ∧ Lock.proc p ∈ s.held Loc.holds c := by
    rintro c hcur (hl | hl)
    · refine ⟨(h.go c p hcur hl).1, ?_⟩
      rw [Sys.held, hcur, hl]
      exact mem_cons_self
    · refine ⟨(h.back c p hcur hl).1, ?_⟩
      rw [Sys.held, hcur, hl]
      exact mem_cons_self
  rcases h.cproc_cases hc with hcur | ⟨hcur, hl⟩ <;>
    rcases h.cproc_cases hc' with hcur' | ⟨hcur', hl'⟩
  · exact h.disc.alone c c' (hcur.trans hcur'.symm)
  · exact absurd hcur ((hmem hcur' hl').1 c)
  · exact absurd hcur' ((hmem hcur hl).1 c')
  · exact h.disc.excl (hmem hcur hl).2 (hmem hcur' hl').2

/--
**A process runs on at most one CPU.** In every state of every run no two CPUs have
the same `c->proc`, a RUNNING process is `c->proc` of exactly one CPU, a CPU whose
`c->proc` is not RUNNING owns its lock, and `sched` cannot panic for a lock that is
missing, a lock too many, or a RUNNING process.
-/
theorem one_cpu {es : List Event} (hrun : Run Step boot es s) :
    (∀ c c' p, s.data.cproc c = some p → s.data.cproc c' = some p → c = c') ∧
    (∀ p, (s.data.proc p).state = .running → ∃! c, s.data.cproc c = some p) ∧
    (∀ c p, s.data.cproc c = some p → (s.data.proc p).state ≠ .running →
      s.owner (.proc p) = some c) ∧
    ∀ e x, Panics s e x → x ≠ .schedLock ∧ x ≠ .schedLocks ∧ x ≠ .schedRunning := by
  have h := inv_run hrun
  refine ⟨fun c c' p => h.cproc_unique, fun p hp => ?_, fun c p hc hp => ?_,
    fun e x => h.sched_ok⟩
  · suffices ∃ c, s.data.cproc c = some p by
      obtain ⟨c, hc⟩ := this
      exact ⟨c, hc, fun c' hc' => h.cproc_unique hc' hc⟩
    by_cases hoff : Off s p
    · rcases h.off p hoff with hw | ⟨-, -, c, hc, hl⟩
      · rw [show stateOf s p = .running from hp] at hw
        cases hw
      · exact ⟨c, (h.home c hc).trans (by rw [hl]; rfl)⟩
    · obtain ⟨c, hc⟩ := not_forall_not.mp hoff
      exact ⟨c, (h.on c p hc).1⟩
  · rw [h.disc.own, Sys.held]
    rcases h.cproc_cases hc with hcur | ⟨hcur, hl | hl⟩
    · rw [hcur]
      exact Loc.mem_holds_of_onState (h.ok (.proc p)) (h.on c p hcur).2.2 hp
    · exact absurd (h.go c p hcur hl).2 hp
    · rw [hcur, hl]
      exact mem_cons_self

/-- CPU 0 enters `scheduler` and switches to the first process, CPU 1 finds nothing. -/
def firstSwitch : List Event :=
  [⟨0, .next true⟩, ⟨0, .next true⟩, ⟨0, .next true⟩, ⟨0, .next true⟩, ⟨0, .next true⟩,
    ⟨1, .next true⟩, ⟨0, .next true⟩, ⟨1, .next true⟩, ⟨1, .next true⟩, ⟨1, .next true⟩]

theorem one_cpu_firstSwitch : ∃ s, Run Step boot firstSwitch s ∧ s.data.cproc 0 = some 0 ∧
    (s.data.proc 0).state = .running ∧ ∃! c, s.data.cproc c = some 0 := by
  have hexec : (exec stepFn boot firstSwitch).map (fun s =>
      (s.data.cproc 0, (s.data.proc 0).state)) = some (some 0, .running) := by decide +kernel
  obtain ⟨s, hs, heq⟩ := Option.map_eq_some_iff.mp hexec
  obtain ⟨hc, hst⟩ := Prod.mk.inj heq
  have hrun : Run Step boot firstSwitch s := run_of_exec hs
  exact ⟨s, hrun, hc, hst, (one_cpu hrun).2.1 0 hst⟩

end Xv6.Sched
