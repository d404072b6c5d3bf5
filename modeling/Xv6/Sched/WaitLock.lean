import Xv6.Sched.Family

/-!
# xv6 — what `wait_lock` protects

* `proc_step`     — what a step makes of one process; `parent_step`, `zombie_step` and
  `waiting_step` say who can change what `Loc.Facts` is about.
* `Calm`          — a step that leaves it alone; every step of a CPU without `wait_lock` is.
* `facts_other`, `facts_resumed`, `facts_own` — what threads know after a step.
-/

namespace Xv6.Sched

open Kernel (Pid ProcState u32 u64)
open TransitionRun Threads List

variable {s s' : State} {c : Cpu} {p q j : Pid} {l next ret : Loc} {d : Data} {i : Code} {e : Event}
  {ch : Option Chan} {pc : WakePc}

/-! ### What a step changes -/

theorem step_flow (h : Inv s) (hf : Family s) (hs : Step s e s') :
    Flow s.data.initproc (s.loc (s.cur e.cpu)) (s'.loc (s.cur e.cpu)) := by
  obtain ⟨i, hcode, he⟩ := step_iff.mp hs
  rw [Sys.exec_next he]
  exact flow_codeOf h (hf.form _) hcode

theorem step_initproc (hs : Step s e s') : s'.data.initproc = s.data.initproc := by
  have heff := step_effect hs
  generalize s'.data = d' at heff
  cases heff <;> rfl

/-- A step leaves a process its parent, its `pid` and its exit status, and its
channel if it is not its own step. -/
structure Kept (s s' : State) (e : Event) (j : Pid) : Prop where
  parent : parentOf s' j = parentOf s j
  pid : (s'.data.proc j).pid = (s.data.proc j).pid
  xstate : (s'.data.proc j).xstate = (s.data.proc j).xstate
  chan : s.cur e.cpu = .proc j ∨ (s'.data.proc j).chan = (s.data.proc j).chan

/-- What a step makes of one process. -/
inductive ProcStep (s s' : State) (e : Event) (j : Pid) : Prop
  | same : Kept s s' e j → stateOf s' j = stateOf s j → ProcStep s s' e j
  | live : Kept s s' e j → Live (stateOf s j) → Live (stateOf s' j) →
      (stateOf s' j = .sleeping → s.cur e.cpu = .proc j) → ProcStep s s' e j
  | alloc : stateOf s j = .unused → stateOf s' j = .used → parentOf s' j = parentOf s j →
      (s'.data.proc j).chan = (s.data.proc j).chan → ProcStep s s' e j
  | ready : Kept s s' e j → stateOf s j = .used → stateOf s' j = .runnable → ProcStep s s' e j
  | free : stateOf s j = .used ∨ stateOf s j = .zombie ∧
        (∃ p, s.loc (s.cur e.cpu) = .wait p (.test j)) → stateOf s' j = .unused →
      parentOf s' j = none → .proc j ∈ s.held Loc.holds e.cpu → ProcStep s s' e j
  | fork (p : Pid) : s.loc (s.cur e.cpu) = .fork p (.parent j) → parentOf s' j = some p →
      stateOf s j = .used → stateOf s' j = .used →
      (s'.data.proc j).chan = (s.data.proc j).chan → ProcStep s s' e j
  | reparent (p : Pid) (status : Int) : s.loc (s.cur e.cpu) = .exit p status (.reparent j.val) →
      parentOf s j = some p → parentOf s' j = some s.data.initproc →
      s'.loc (s.cur e.cpu) = .wake (some (.proc s.data.initproc)) (.scan 0)
        (.exit p status (.reparent (j.val + 1))) →
      s'.data.proc j = { s.data.proc j with parent := some s.data.initproc } → ProcStep s s' e j
  | zombie (status : Int) : s.loc (s.cur e.cpu) = .exit j status .zombie →
      s.cur e.cpu = .proc j → stateOf s j = .running →
      s'.data.proc j = { s.data.proc j with xstate := status, state := .zombie } →
      ProcStep s s' e j

theorem Kept.of_eq {pr : Proc} (h : s'.data.proc j = pr) (hparent : pr.parent = parentOf s j)
    (hpid : pr.pid = (s.data.proc j).pid) (hxstate : pr.xstate = (s.data.proc j).xstate)
    (hchan : s.cur e.cpu = .proc j ∨ pr.chan = (s.data.proc j).chan) : Kept s s' e j := by
  subst h
  exact ⟨hparent, hpid, hxstate, hchan⟩

theorem live_of_eq {st st' : ProcState} (h : st = st') (hlive : Live st') : Live st := h ▸ hlive

/-- A live process is picked or woken by another. -/
theorem ProcStep.awake {pr : Proc} (heq : s'.data.proc j = pr) (hkept : Kept s s' e j)
    (hlive : Live (stateOf s j)) (hlive' : Live pr.state) (hne : pr.state ≠ .sleeping) :
    ProcStep s s' e j := by
  subst heq
  exact .live hkept hlive hlive' fun hst => absurd hst hne

/-- The process of a thread that is executed where processes are RUNNING. -/
theorem Inv.running_of_me (h : Inv s) (hme : (s.cur c).me = some p)
    (hon : (s.loc (s.cur c)).onState = some .running) :
    s.cur c = .proc p ∧ stateOf s p = .running := by
  have hcur := Tid.eq_of_me hme
  refine ⟨hcur, ?_⟩
  have hst := (h.on c p hcur).2.2
  rw [← hcur, hon] at hst
  exact (Option.some.inj hst).symm

/-- What one step does to process `j`, by the effect of the step on the table. -/
theorem proc_step (h : Inv s) (hs : Step s e s') (j : Pid) : ProcStep s s' e j := by
  have heff := step_effect hs
  have hok := h.ok (s.cur e.cpu)
  generalize hd : s'.data = d' at heff
  -- the step changes one slot, and only this one needs a look
  have hupd : ∀ {i f} (d1 : Data), d1 = s.data.upd i f → s'.data.proc = d1.proc →
      (j = i → s'.data.proc j = f (s.data.proc j) → ProcStep s s' e j) → ProcStep s s' e j := by
    rintro i f d1 rfl hd hi
    by_cases hji : j = i
    · refine hi hji ?_
      rw [hd, hji, Data.upd_same]
    · have heq : s'.data.proc j = s.data.proc j := by rw [hd, Data.upd_of_ne _ _ hji]
      exact .same (.of_eq heq rfl rfl rfl (.inr rfl)) (by rw [stateOf, heq])
  have hquiet : s'.data.proc = s.data.proc → ProcStep s s' e j := by
    intro heq
    exact .same (.of_eq (congrFun heq j) rfl rfl rfl (.inr rfl)) (by rw [stateOf, heq])
  cases heff with
  | none hl | cproc f hl | tick ret hl => exact hquiet (by rw [hd])
  | pick i f hl hst =>
    refine hupd (s.data.pick i) rfl (by rw [hd]) ?_
    rintro rfl heq
    exact .awake heq (.of_eq heq rfl rfl rfl (.inr rfl)) (live_of_eq hst trivial) trivial
      (by rintro ⟨⟩)
  | wake ch i ret hl hnext hst hch =>
    refine hupd _ hd rfl ?_
    rintro rfl heq
    exact .awake heq (.of_eq heq rfl rfl rfl (.inr rfl)) (live_of_eq hst trivial) trivial
      (by rintro ⟨⟩)
  | stamp i hl | killed pid i hl =>
    refine hupd _ hd rfl ?_
    rintro rfl heq
    exact .same (.of_eq heq rfl rfl rfl (.inr rfl)) (by rw [stateOf, heq])
  | killedWake pid i hl hnext hst =>
    rw [Data.wake, Data.upd_upd] at hd
    refine hupd _ hd rfl ?_
    rintro rfl heq
    exact .awake heq (.of_eq heq rfl rfl rfl (.inr rfl)) (live_of_eq hst trivial) trivial
      (by rintro ⟨⟩)
  | alloc p i hl hst =>
    refine hupd (s.data.alloc i) rfl (by rw [hd]) ?_
    rintro rfl heq
    exact .alloc hst (by rw [stateOf, heq]) (by rw [parentOf, heq]) (by rw [heq])
  | forkFail p np hl =>
    refine hupd _ hd rfl ?_
    rintro rfl heq
    refine .free (.inl (h.forked (s.cur e.cpu) _ (by rw [hl]; rfl))) (by rw [stateOf, heq])
      (by rw [parentOf, heq]) ?_
    rw [Sys.held, hl]
    exact mem_cons_self
  | forkParent p np hl =>
    refine hupd _ hd rfl ?_
    rintro rfl heq
    have hst := h.forked (s.cur e.cpu) j (by rw [hl]; rfl)
    exact .fork p hl (by rw [parentOf, heq]) hst (by rw [stateOf, heq]; exact hst) (by rw [heq])
  | forkReady p np hl =>
    refine hupd _ hd rfl ?_
    rintro rfl heq
    exact .ready (.of_eq heq rfl rfl rfl (.inr rfl)) (h.forked (s.cur e.cpu) _ (by rw [hl]; rfl))
      (by rw [stateOf, heq])
  | reparent p q status hl hq hnext =>
    refine hupd _ hd rfl ?_
    rintro rfl heq
    exact .reparent p status hl hq (by rw [parentOf, heq]) hnext heq
  | zombie p status hl =>
    refine hupd _ hd rfl ?_
    rintro rfl heq
    rw [hl] at hok
    obtain ⟨hcur, hst⟩ := h.running_of_me hok (by rw [hl]; rfl)
    exact .zombie status hl hcur hst heq
  | reap p q hl hst =>
    refine hupd _ hd rfl ?_
    rintro rfl heq
    refine .free (.inr ⟨hst, p, hl⟩) (by rw [stateOf, heq]) (by rw [parentOf, heq]) ?_
    rw [Sys.held, hl]
    exact mem_cons_self
  | doze p ch lk ret hl =>
    refine hupd _ hd rfl ?_
    rintro rfl heq
    rw [hl] at hok
    obtain ⟨hcur, hst⟩ := h.running_of_me hok.1 (by rw [hl]; rfl)
    refine .live (.of_eq heq rfl rfl rfl (.inl hcur)) (live_of_eq hst trivial) ?_ fun _ => hcur
    rw [stateOf, heq]
    trivial
  | tidy p ch lk ret hl =>
    refine hupd _ hd rfl ?_
    rintro rfl heq
    rw [hl] at hok
    exact .same (.of_eq heq rfl rfl rfl (.inl (Tid.eq_of_me hok.1))) (by rw [stateOf, heq])
  | yield p ret hl =>
    refine hupd _ hd rfl ?_
    rintro rfl heq
    rw [hl] at hok
    obtain ⟨hcur, hst⟩ := h.running_of_me hok.1 (by rw [hl]; rfl)
    refine .live (.of_eq heq rfl rfl rfl (.inr rfl)) (live_of_eq hst trivial) ?_ fun _ => hcur
    rw [stateOf, heq]
    trivial

/-- Only a process that exits becomes a zombie. -/
theorem zombie_step (h : Inv s) (hs : Step s e s') (hst : stateOf s' j = .zombie) :
    stateOf s j = .zombie ∨ ∃ status, s.loc (s.cur e.cpu) = .exit j status .zombie := by
  cases proc_step h hs j with
  | same _ heq => exact .inl (heq.symm.trans hst)
  | live _ _ hlive _ =>
    rw [hst] at hlive
    cases hlive
  | alloc _ heq _ _ | ready _ _ heq | free _ heq _ _ | fork p _ _ _ heq _ =>
    rw [hst] at heq
    cases heq
  | reparent p status _ _ _ _ heq =>
    rw [stateOf, heq] at hst
    exact .inl hst
  | zombie status hl _ _ _ => exact .inr ⟨status, hl⟩

/-- Only the process itself goes to sleep. -/
theorem sleeping_step (h : Inv s) (hs : Step s e s') (hst : stateOf s' j = .sleeping) :
    stateOf s j = .sleeping ∨ s.cur e.cpu = .proc j := by
  cases proc_step h hs j with
  | same _ heq => exact .inl (heq.symm.trans hst)
  | live _ _ _ hcur => exact .inr (hcur hst)
  | alloc _ heq _ _ | ready _ _ heq | free _ heq _ _ | fork p _ _ _ heq _ =>
    rw [hst] at heq
    cases heq
  | reparent p status _ _ _ _ heq =>
    rw [stateOf, heq] at hst
    exact .inl hst
  | zombie status _ hcur _ _ => exact .inr hcur

/-- Only the process itself, in `sleep`, begins to wait. -/
theorem waiting_step (h : Inv s) (hf : Family s) (hs : Step s e s') (hw : Waiting s' q) :
    Waiting s q ∨ s.cur e.cpu = .proc q ∧
      ∃ ret, s.loc (s.cur e.cpu) = .sleep q (.proc q) .wait .drop ret := by
  obtain ⟨pc, ret, hloc, hpc⟩ := hw
  by_cases hcur : Tid.proc q = s.cur e.cpu
  · have hfl := step_flow h hf hs
    rw [hcur] at hloc
    rcases hpc with rfl | rfl | ⟨rfl, -⟩
    · exact .inr ⟨hcur.symm, ret, hfl.asleep _ _ _ _ _ _ hloc rfl⟩
    · refine .inl ⟨.doze, ret, ?_, .inl rfl⟩
      rw [hcur]
      exact hfl.asleep _ _ _ _ _ _ hloc rfl
    · refine .inl ⟨.sched, ret, ?_, .inr (.inl rfl)⟩
      rw [hcur]
      exact hfl.asleep _ _ _ _ _ _ hloc rfl
  · rcases step_loc_of_ne hs hcur with heq | ⟨q', -, -, heq⟩
    · refine .inl ⟨pc, ret, heq.symm.trans hloc, ?_⟩
      rcases hpc with hpc | hpc | ⟨hpc, hst⟩
      · exact .inl hpc
      · exact .inr (.inl hpc)
      · refine .inr (.inr ⟨hpc, (sleeping_step h hs hst).resolve_right fun hc => hcur hc.symm⟩)
    · rw [hloc] at heq
      cases heq

/-- How a parent changes. -/
theorem parent_step (h : Inv s) (hs : Step s e s') (hp : parentOf s' j = some q) :
    parentOf s j = some q ∨ s.loc (s.cur e.cpu) = .fork q (.parent j) ∧ stateOf s' j = .used ∨
      q = s.data.initproc ∧ ∃ p status, parentOf s j = some p ∧
        s.loc (s.cur e.cpu) = .exit p status (.reparent j.val) ∧
        s'.loc (s.cur e.cpu) = .wake (some (.proc s.data.initproc)) (.scan 0)
          (.exit p status (.reparent (j.val + 1))) := by
  cases proc_step h hs j with
  | same hk _ | live hk _ _ _ | ready hk _ _ => exact .inl (hk.parent.symm.trans hp)
  | alloc _ _ heq _ => exact .inl (heq.symm.trans hp)
  | free _ _ heq _ =>
    rw [hp] at heq
    cases heq
  | fork p hl heq _ hst _ =>
    obtain rfl := Option.some.inj (hp.symm.trans heq)
    exact .inr (.inl ⟨hl, hst⟩)
  | reparent p status hl hold heq hnext _ =>
    obtain rfl := Option.some.inj (hp.symm.trans heq)
    exact .inr (.inr ⟨rfl, p, status, hold, hl, hnext⟩)
  | zombie status _ _ _ heq =>
    rw [parentOf, heq] at hp
    exact .inl hp

/-! ### Steps that change nothing `wait_lock` protects -/

/-- A step that gives nobody a parent, a zombie or a reason to wait. -/
structure Calm (s s' : State) : Prop where
  parent : ∀ j q, parentOf s' j = some q → parentOf s j = some q
  zombie : ∀ j, stateOf s' j = .zombie → stateOf s j = .zombie
  waiting : ∀ q, Waiting s' q → Waiting s q

theorem Clear.calm {k : Nat} (h : Clear s p k) (hc : Calm s s') : Clear s' p k :=
  fun j hj hp hz => h j hj (hc.parent j p hp) (hc.zombie j hz)

theorem Loc.Facts.calm (h : l.Facts s) (hc : Calm s s')
    (htest : ∀ p q, l = .wait p (.test q) → parentOf s' q = parentOf s q) : l.Facts s' := by
  unfold Loc.Facts at h ⊢
  split at h
  · exact fun j hj hp => h j hj (hc.parent j _ hp)
  · exact fun j hj hp => h j hj (hc.parent j _ hp)
  · refine ⟨fun j hp => h.1 j (hc.parent j _ hp), fun q hq => ?_⟩
    obtain ⟨hch, hw⟩ := h.2 q (hc.parent _ q hq)
    exact ⟨hch, fun hw' => hw (hc.waiting q hw')⟩
  · exact ⟨fun j hp => h.1 j (hc.parent j _ hp),
      fun q hq hw => h.2 q (hc.parent _ q hq) (hc.waiting q hw)⟩
  · exact ⟨fun j hp => h.1 j (hc.parent j _ hp),
      fun q hq hw => h.2 q (hc.parent _ q hq) (hc.waiting q hw)⟩
  · exact Clear.calm h hc
  · exact ⟨(htest _ _ rfl).trans h.1, Clear.calm h.2 hc⟩
  · exact Clear.calm h hc
  · exact Clear.calm h hc
  · exact Clear.calm h hc
  · exact Clear.calm h hc
  · exact fun hlk => Clear.calm (h hlk) hc
  · exact fun hlk => Clear.calm (h hlk) hc
  · trivial

/-- Nothing has to be known without `wait_lock`. -/
theorem Loc.facts_of_notMem (h : Lock.wait ∉ l.holds) : l.Facts s := by
  unfold Loc.Facts
  split
  all_goals first
    | trivial
    | (refine absurd ?_ h; simp [Loc.holds, ExitPc.holds, WaitPc.holds]; done)
    | (intro hlk; refine absurd ?_ h; simp [Loc.holds, SleepPc.holds, hlk])

/-- **A CPU without `wait_lock`** changes nothing that it protects. -/
theorem calm_step (h : Inv s) (hf : Family s) (hs : Step s e s')
    (hno : Lock.wait ∉ s.held Loc.holds e.cpu) : Calm s s' := by
  rw [Sys.held] at hno
  refine ⟨fun j q hp => ?_, fun j hz => ?_, fun q hw => ?_⟩
  · rcases parent_step h hs hp with hold | ⟨hl, -⟩ | ⟨-, p, status, -, hl, -⟩
    · exact hold
    · rw [hl] at hno
      exact absurd mem_cons_self hno
    · rw [hl] at hno
      exact absurd mem_cons_self hno
  · rcases zombie_step h hs hz with hold | ⟨status, hl⟩
    · exact hold
    · rw [hl] at hno
      exact absurd (mem_cons_of_mem _ mem_cons_self) hno
  · rcases waiting_step h hf hs hw with hold | ⟨-, ret, hl⟩
    · exact hold
    · rw [hl] at hno
      exact absurd (mem_cons_of_mem _ mem_cons_self) hno

/-- A step that leaves the data alone is calm, unless it begins to wait. -/
theorem calm_of_data (h : Inv s) (hf : Family s) (hs : Step s e s') (hd : s'.data = s.data)
    (hl : ∀ p ret, s.loc (s.cur e.cpu) ≠ .sleep p (.proc p) .wait .drop ret) : Calm s s' := by
  refine ⟨fun j q hp => ?_, fun j hz => ?_, fun q hw => ?_⟩
  · rwa [parentOf, hd] at hp
  · rwa [stateOf, hd] at hz
  · rcases waiting_step h hf hs hw with hold | ⟨-, ret, heq⟩
    · exact hold
    · exact absurd heq (hl q ret)

/-- What another CPU knows stays true. -/
theorem facts_other (h : Inv s) (hf : Family s) (hs : Step s e s') (hc : c ≠ e.cpu) :
    (s'.loc (s'.cur c)).Facts s' := by
  obtain ⟨hcur, hloc⟩ := h.step_other hs hc
  rw [hcur, hloc]
  by_cases hw : Lock.wait ∈ (s.loc (s.cur c)).holds
  · have hno : Lock.wait ∉ s.held Loc.holds e.cpu := fun hmem => hc (h.disc.excl hw hmem)
    refine (hf.facts c).calm (calm_step h hf hs hno) fun p q hl => ?_
    have hlock : Lock.proc q ∈ s.held Loc.holds c := by
      rw [Sys.held, hl]
      exact mem_cons_self
    cases proc_step h hs q with
    | same hk _ | live hk _ _ _ | ready hk _ _ => exact hk.parent
    | alloc _ _ heq _ => exact heq
    | free _ _ _ hmem => exact absurd (h.disc.excl hlock hmem) hc
    | fork p hl' _ _ _ _ | reparent p status hl' _ _ _ _ =>
      rw [Sys.held, hl'] at hno
      exact absurd mem_cons_self hno
    | zombie status hl' _ _ _ =>
      rw [Sys.held, hl'] at hno
      exact absurd (mem_cons_of_mem _ mem_cons_self) hno
  · exact Loc.facts_of_notMem hw

/-- A thread that is switched to has nothing to know. -/
theorem facts_resumed (h : Inv s) (h' : Inv s') (hs : Step s e s')
    (hne : s'.cur e.cpu ≠ s.cur e.cpu) : (s'.loc (s'.cur e.cpu)).Facts s' := by
  have hoff : ∀ {q}, s'.cur e.cpu = .proc q → Off s q := by
    intro q hq c hc
    by_cases hcc : c = e.cpu
    · rw [hcc] at hc
      exact hne (hq.trans hc.symm)
    · have hcur := (h.step_other hs hcc).1
      exact hcc (h'.disc.alone c e.cpu (by rw [hcur, hc, hq]))
  cases hcur' : s'.cur e.cpu with
  | sched c' =>
    obtain rfl := h'.own _ _ hcur'
    cases hcur : s.cur e.cpu with
    | sched c'' =>
      obtain rfl := h.own _ _ hcur
      exact absurd (hcur'.trans hcur.symm) hne
    | proc q =>
      have hback := (h.on e.cpu q hcur).2.1
      rcases step_loc_of_ne hs (t := .sched e.cpu) (by rw [hcur]; nofun) with heq | ⟨_, hq, _⟩
      · rw [heq, hback]
        trivial
      · cases hq
  | proc q =>
    have hq := hoff hcur'
    have hon := (h'.on e.cpu q hcur').2.2
    rcases step_loc_of_ne hs (fun heq => hq e.cpu heq.symm) with heq | ⟨_, -, -, heq⟩
    · rw [heq]
      have hres : (s.loc (.proc q)).Resumable → (s.loc (.proc q)).Facts s' := by
        intro hres
        refine Loc.facts_of_notMem ?_
        rw [hres.holds (h.ok (.proc q))]
        simp
      rcases h.off q hq with hw | ⟨-, hr, -⟩
      · obtain ⟨i, -, he⟩ := step_iff.mp hs
        have hdata := (Sys.exec_cur_or he).resolve_left hne
        rw [stateOf, hdata] at hon
        cases hst : stateOf s q with
        | unused => exact absurd (hon.trans (congrArg some hst)) Inv.onState_ne_used.2
        | used => exact absurd (hon.trans (congrArg some hst)) Inv.onState_ne_used.1
        | runnable =>
          rw [hst] at hw
          exact hres hw
        | sleeping =>
          rw [hst] at hw
          obtain ⟨p, ch, lk, ret, hl⟩ := hw
          rw [hl]
          trivial
        | zombie =>
          rw [hst] at hw
          obtain ⟨p, status, hl⟩ := hw
          rw [hl]
          trivial
        | running =>
          rw [hst] at hw
          cases hw
      · exact hres hr
    · rw [heq]
      trivial

/-! ### What the thread itself gets to know -/

/-- Nothing has to be known when an interrupt comes. -/
theorem facts_trapped {dev : Option Nat} (hcode : code s c l (.trap dev) = some (.ok i))
    (he : s.exec c i = some s') : (s'.loc (s.cur c)).Facts s' := by
  rw [Sys.exec_next he]
  rw [code] at hcode
  split at hcode
  · rename_i hintr
    obtain rfl := code_inj hcode
    have hidle := Loc.idle_of_holds (Loc.plain_of_intr hintr).2
    simp only [trapped]
    split
    · trivial
    · split
      · trivial
      · split
        · exact hidle.facts s'
        · trivial
  · cases hcode

theorem step_wake (hl : s.loc (s.cur e.cpu) = .wake ch pc ret) (hs : Step s e s') :
    s.exec e.cpu (pc.code e.cpu s.data ch ret) = some s' := by
  obtain ⟨i, hcode, he⟩ := step_iff.mp hs
  rw [codeOf, hl] at hcode
  cases ha : e.act with
  | next ok =>
    rw [ha] at hcode
    obtain rfl := code_inj hcode
    exact he
  | _ =>
    rw [ha] at hcode
    cases hcode

/-- A step of `kexit`, or an interrupt. -/
theorem step_exit {status : Int} {pc : ExitPc} (hl : s.loc (s.cur e.cpu) = .exit p status pc)
    (hs : Step s e s') : (s'.loc (s.cur e.cpu)).Facts s' ∧ pc = .lockWait ∨
      ∃ i, pc.code s e.cpu p status = .ok i ∧ s.exec e.cpu i = some s' := by
  obtain ⟨i, hcode, he⟩ := step_iff.mp hs
  rw [codeOf, hl] at hcode
  cases ha : e.act with
  | next ok =>
    rw [ha] at hcode
    exact .inr ⟨i, Option.some.inj hcode, he⟩
  | trap dev =>
    rw [ha] at hcode
    refine .inl ⟨facts_trapped hcode he, ?_⟩
    cases pc with
    | lockWait => rfl
    | _ => cases hcode
  | _ =>
    rw [ha] at hcode
    cases hcode

/-- A step of `kwait`, or an interrupt. -/
theorem step_wait {pc : WaitPc} (hl : s.loc (s.cur e.cpu) = .wait p pc) (hs : Step s e s') :
    (s'.loc (s.cur e.cpu)).Facts s' ∧ pc = .lockWait ∨
      ∃ ok, e.act = .next ok ∧ s.exec e.cpu (pc.code s.data p ok) = some s' := by
  obtain ⟨i, hcode, he⟩ := step_iff.mp hs
  rw [codeOf, hl] at hcode
  cases ha : e.act with
  | next ok =>
    rw [ha] at hcode
    obtain rfl := code_inj hcode
    exact .inr ⟨ok, rfl, he⟩
  | trap dev =>
    rw [ha] at hcode
    refine .inl ⟨facts_trapped hcode he, ?_⟩
    cases pc with
    | lockWait => rfl
    | _ => cases hcode
  | _ =>
    rw [ha] at hcode
    cases hcode

/-- A step of `sleep`, or an interrupt. -/
theorem step_sleep {ch : Chan} {lk : Lock} {pc : SleepPc}
    (hl : s.loc (s.cur e.cpu) = .sleep p ch lk pc ret) (hs : Step s e s') :
    (s'.loc (s.cur e.cpu)).Facts s' ∧ pc = .relock ∨
      ∃ i, pc.code s e.cpu p ch lk ret = .ok i ∧ s.exec e.cpu i = some s' := by
  obtain ⟨i, hcode, he⟩ := step_iff.mp hs
  rw [codeOf, hl] at hcode
  cases ha : e.act with
  | next ok =>
    rw [ha] at hcode
    exact .inr ⟨i, Option.some.inj hcode, he⟩
  | trap dev =>
    rw [ha] at hcode
    refine .inl ⟨facts_trapped hcode he, ?_⟩
    cases pc with
    | relock => rfl
    | _ => cases hcode
  | _ =>
    rw [ha] at hcode
    cases hcode

/-- A process that waits and whose lock another CPU has is asleep. -/
theorem Family.asleep_of_locked (hf : Family s) (h : Inv s) (hw : Waiting s q)
    (hmem : Lock.proc q ∈ s.held Loc.holds c) (hcur : s.cur c ≠ .proc q) :
    stateOf s q = .sleeping ∧ (s.data.proc q).chan = some (.proc q) ∧
      ∃ ret, s.loc (.proc q) = .sleep q (.proc q) .wait .tidy ret := by
  obtain ⟨pc, ret, hloc, hpc⟩ := hw
  by_cases hoff : Off s q
  · -- a thread that is not executed waits in `sched`
    have htidy : (s.loc (.proc q)).Resumable → pc = .tidy := by
      intro hres
      rw [hloc] at hres
      cases pc with
      | tidy => rfl
      | _ => cases hres
    have hsleep : pc = .tidy → stateOf s q = .sleeping := by
      rintro rfl
      rcases hpc with hpc | hpc | ⟨-, hst⟩
      · cases hpc
      · cases hpc
      · exact hst
    suffices hpc : pc = .tidy by
      refine ⟨hsleep hpc, hf.chan q _ _ pc ret hloc (.inr hpc), ret, ?_⟩
      rw [hloc, hpc]
    rcases h.off q hoff with hwaits | ⟨-, hres, -⟩
    · cases hst : stateOf s q with
      | unused => exact absurd hloc (hf.stale q _ _ _ _ _ hst)
      | used =>
        rw [hst] at hwaits
        obtain ⟨p, hl⟩ := hwaits
        rw [hloc] at hl
        cases hl
      | runnable =>
        rw [hst] at hwaits
        exact htidy hwaits
      | sleeping =>
        rw [hst] at hwaits
        obtain ⟨p, ch, lk, ret', hl⟩ := hwaits
        rw [hloc] at hl
        exact (Loc.sleep.inj hl).2.2.2.1
      | zombie =>
        rw [hst] at hwaits
        obtain ⟨p, status, hl⟩ := hwaits
        rw [hloc] at hl
        cases hl
      | running =>
        rw [hst] at hwaits
        cases hwaits
    · exact htidy hres
  · -- a thread that is executed has the lock itself
    obtain ⟨c', hc'⟩ := not_forall_not.mp hoff
    have hown : Lock.proc q ∈ s.held Loc.holds c' := by
      rw [Sys.held, hc', hloc]
      rcases hpc with rfl | rfl | ⟨rfl, -⟩ <;> exact mem_cons_self
    obtain rfl := h.disc.excl hmem hown
    exact absurd hc' hcur

/-- `wakeup` does not come past a process that goes on waiting. -/
theorem todo_step (h : Inv s) (hf : Family s) (hs : Step s e s')
    (hl : s.loc (s.cur e.cpu) = .wake (some (.proc q)) pc ret) (hw : Waiting s q)
    (hw' : Waiting s' q) (htodo : pc.todo q) :
    ∃ pc', s'.loc (s.cur e.cpu) = .wake (some (.proc q)) pc' ret ∧ pc'.todo q := by
  have he := step_wake hl hs
  have hnext := Sys.exec_next he
  -- the process that waits is not the one that wakes it
  have hcur : s.cur e.cpu ≠ .proc q := by
    intro hcur
    obtain ⟨pc', ret', hloc, -⟩ := hw
    rw [← hcur, hl] at hloc
    cases hloc
  cases pc with
  | scan k =>
    simp only [WakePc.code, forProc] at hnext
    have hk : k < NPROC := lt_of_le_of_lt htodo q.isLt
    rw [dif_pos hk] at hnext
    split at hnext
    · rename_i hcp
      refine ⟨_, hnext, ?_⟩
      have hne : k ≠ q.val := by
        rintro rfl
        rw [h.cproc_eq (by rw [hl]; rfl)] at hcp
        exact hcur (Tid.eq_of_me hcp)
      have hle : k ≤ q.val := htodo
      show k + 1 ≤ q.val
      omega
    · exact ⟨_, hnext, htodo⟩
  | test i =>
    have hle : i.val ≤ q.val := htodo
    -- its own turn: it is asleep on this channel, so it is woken
    have hne : i ≠ q := by
      rintro rfl
      obtain ⟨hst, hch, ret', hloc⟩ := hf.asleep_of_locked h hw
        (by rw [Sys.held, hl]; exact mem_cons_self) hcur
      rw [WakePc.code, if_pos ⟨hst, hch⟩] at he
      obtain ⟨-, hlocs, hdata⟩ := Sys.exec_result rfl he
      obtain ⟨pc', ret'', hloc', hpc'⟩ := hw'
      rw [hlocs, Function.update_of_ne (Ne.symm hcur), hloc] at hloc'
      obtain ⟨-, -, -, rfl, -⟩ := Loc.sleep.inj hloc'
      rcases hpc' with hpc' | hpc' | ⟨-, hst'⟩
      · cases hpc'
      · cases hpc'
      · rw [stateOf, hdata, Data.wake, Data.upd_same] at hst'
        cases hst'
    have hlt : i.val < q.val := lt_of_le_of_ne hle fun heq => hne (Fin.ext heq)
    simp only [WakePc.code] at hnext
    split at hnext <;> exact ⟨_, hnext, hlt⟩
  | stamp i | release i => exact ⟨_, hnext, htodo⟩

/-- `wakeup` changes no parent and makes no zombie. -/
theorem calm_wake (h : Inv s) (hf : Family s) (hs : Step s e s')
    (hl : s.loc (s.cur e.cpu) = .wake ch pc ret) : Calm s s' := by
  refine ⟨fun j q hp => ?_, fun j hz => ?_, fun q hw => ?_⟩
  · rcases parent_step h hs hp with hold | ⟨hl', -⟩ | ⟨-, p, status, -, hl', -⟩
    · exact hold
    · rw [hl] at hl'
      cases hl'
    · rw [hl] at hl'
      cases hl'
  · rcases zombie_step h hs hz with hold | ⟨status, hl'⟩
    · exact hold
    · rw [hl] at hl'
      cases hl'
  · rcases waiting_step h hf hs hw with hold | ⟨-, ret, hl'⟩
    · exact hold
    · rw [hl] at hl'
      cases hl'

/-- In the `wakeup` of `kexit`, a parent that waits is still ahead. -/
theorem facts_wake (h : Inv s) (hf : Family s) (hs : Step s e s')
    (hl : s.loc (s.cur e.cpu) = .wake ch pc ret) : (s'.loc (s.cur e.cpu)).Facts s' := by
  have hcalm := calm_wake h hf hs hl
  have hfacts := hf.facts e.cpu
  have hform := hf.form (s.cur e.cpu)
  have hnext := Sys.exec_next (step_wake hl hs)
  rw [hl] at hfacts hform
  -- the next place is in `wakeup`, or it is where `wakeup` returns to
  have hcases : (∃ pc', s'.loc (s.cur e.cpu) = .wake ch pc' ret) ∨
      s'.loc (s.cur e.cpu) = ret ∧ ∃ k, pc = .scan k ∧ NPROC ≤ k := by
    cases pc with
    | scan k =>
      simp only [WakePc.code, forProc] at hnext
      split at hnext
      · split at hnext <;> exact .inl ⟨_, hnext⟩
      · exact .inr ⟨hnext, k, rfl, by omega⟩
    | test i =>
      simp only [WakePc.code] at hnext
      split at hnext <;> exact .inl ⟨_, hnext⟩
    | stamp i | release i => exact .inl ⟨_, hnext⟩
  obtain ⟨-, hret⟩ := hform
  unfold Loc.Wakes at hret
  split at hret
  -- outside of `kexit`, nothing has to be known
  iterate 3
    · rcases hcases with ⟨pc', heq⟩ | ⟨heq, -⟩ <;> (rw [heq]; trivial)
  · rename_i p status k
    have hpar : ∀ j : Pid, j.val < k → parentOf s' j ≠ some p :=
      fun j hj hp => hfacts j hj (hcalm.parent j p hp)
    rcases hcases with ⟨pc', heq⟩ | ⟨heq, -⟩
    · rw [heq]
      exact hpar
    · rw [heq]
      exact hpar
  · rename_i p status
    obtain ⟨hkids, hparent⟩ := hfacts
    have hkids' : ∀ j, parentOf s' j ≠ some p := fun j hp => hkids j (hcalm.parent j p hp)
    rcases hcases with ⟨pc', heq⟩ | ⟨heq, k, rfl, hk⟩
    · rw [heq]
      refine ⟨hkids', fun q hq => ?_⟩
      obtain ⟨hch, htodo⟩ := hparent q (hcalm.parent p q hq)
      refine ⟨hch, fun hw' => ?_⟩
      have hw := hcalm.waiting q hw'
      subst hch
      obtain ⟨pc'', heq', htodo'⟩ := todo_step h hf hs hl hw hw' (htodo hw)
      rw [heq] at heq'
      obtain ⟨-, rfl, -⟩ := Loc.wake.inj heq'
      exact htodo'
    · rw [heq]
      refine ⟨hkids', fun q hq hw' => ?_⟩
      have hle : k ≤ q.val := (hparent q (hcalm.parent p q hq)).2 (hcalm.waiting q hw')
      omega
  · cases hret

/-- In `kexit`, no process behind the cursor is a child any more. -/
theorem facts_exit {status : Int} {pc : ExitPc} (h : Inv s) (hf : Family s) (hs : Step s e s')
    (hl : s.loc (s.cur e.cpu) = .exit p status pc) : (s'.loc (s.cur e.cpu)).Facts s' := by
  have hfacts := hf.facts e.cpu
  have hinit := hf.form (s.cur e.cpu)
  rw [hl] at hfacts hinit
  rcases step_exit hl hs with ⟨hnext, -⟩ | ⟨i, hi, he⟩
  · exact hnext
  have hnext := Sys.exec_next he
  have hcalm : s'.data = s.data → Calm s s' :=
    fun hd => calm_of_data h hf hs hd (by rw [hl]; rintro _ _ ⟨⟩)
  cases pc with
  | lockWait =>
    cases hi
    rw [hnext]
    exact fun j hj => absurd hj (Nat.not_lt_zero _)
  | reparent k =>
    cases hi
    simp only [forProc] at he hnext
    split at he
    · rename_i hk
      rw [dif_pos hk] at hnext
      split at he
      · rename_i hq
        rw [if_pos hq] at hnext
        obtain ⟨-, -, hdata⟩ := Sys.exec_result rfl he
        rw [hnext]
        intro j hj
        rw [parentOf, hdata]
        by_cases hjk : j = ⟨k, hk⟩
        · rw [hjk, Data.upd_same]
          exact fun heq => hinit (Option.some.inj heq).symm
        · rw [Data.upd_of_ne _ _ hjk]
          refine hfacts j (lt_of_le_of_ne (Nat.lt_succ_iff.mp hj) fun heq => hjk (Fin.ext heq))
      · rename_i hq
        rw [if_neg hq] at hnext
        obtain ⟨-, -, hdata⟩ := Sys.exec_result rfl he
        rw [hnext]
        intro j hj
        rw [parentOf, hdata]
        by_cases hjk : j = ⟨k, hk⟩
        · rw [hjk]
          exact hq
        · refine hfacts j (lt_of_le_of_ne (Nat.lt_succ_iff.mp hj) fun heq => hjk (Fin.ext heq))
    · rename_i hk
      rw [dif_neg hk] at hnext
      obtain ⟨-, -, hdata⟩ := Sys.exec_result rfl he
      rw [hnext]
      refine ⟨fun j => ?_, fun q hq => ?_⟩
      · rw [parentOf, hdata]
        exact hfacts j (lt_of_lt_of_le j.isLt (Nat.le_of_not_lt hk))
      · rw [parentOf, hdata] at hq
        exact ⟨by rw [hq]; rfl, fun _ => Nat.zero_le _⟩
  | lock =>
    cases hi
    obtain ⟨-, -, hdata⟩ := Sys.exec_result rfl he
    rw [hnext]
    have hkept := hfacts.calm (hcalm hdata) (by rintro _ _ ⟨⟩)
    exact hkept
  | zombie | unlockWait =>
    cases hi
    rw [hnext]
    trivial
  | sched =>
    rw [hnext, schedCode_next hi]
    trivial
  | dead => cases hi

/-- In `kwait`, no child behind the cursor is a zombie. -/
theorem facts_wait {pc : WaitPc} (h : Inv s) (hf : Family s) (hs : Step s e s')
    (hl : s.loc (s.cur e.cpu) = .wait p pc) : (s'.loc (s.cur e.cpu)).Facts s' := by
  have hfacts := hf.facts e.cpu
  rw [hl] at hfacts
  rcases step_wait hl hs with ⟨hnext, -⟩ | ⟨ok, -, he⟩
  · exact hnext
  have hnext := Sys.exec_next he
  have hcalm : s'.data = s.data → Calm s s' :=
    fun hd => calm_of_data h hf hs hd (by rw [hl]; nofun)
  cases pc with
  | lockWait =>
    rw [hnext]
    exact fun j hj => absurd hj (Nat.not_lt_zero _)
  | scan k havekids =>
    simp only [WaitPc.code, forProc] at he hnext
    split at he
    · rename_i hk
      rw [dif_pos hk] at hnext
      split at he
      · rename_i hq
        rw [if_pos hq] at hnext
        obtain ⟨-, -, hdata⟩ := Sys.exec_result rfl he
        rw [hnext]
        refine ⟨?_, Clear.calm hfacts (hcalm hdata)⟩
        rw [parentOf, hdata]
        exact hq
      · rename_i hq
        rw [if_neg hq] at hnext
        obtain ⟨-, -, hdata⟩ := Sys.exec_result rfl he
        rw [hnext]
        refine Clear.calm (s := s) (fun j hj hp => ?_) (hcalm hdata)
        refine hfacts j (lt_of_le_of_ne (Nat.lt_succ_iff.mp hj) fun heq => ?_) hp
        obtain rfl : j = ⟨k, hk⟩ := Fin.ext heq
        exact hq hp
    · rename_i hk
      rw [dif_neg hk] at hnext
      split at he
      · rename_i hkids
        rw [if_pos hkids] at hnext
        obtain ⟨-, -, hdata⟩ := Sys.exec_result rfl he
        rw [hnext]
        refine Clear.calm (s := s) (fun j hj hp => ?_) (hcalm hdata)
        exact hfacts j (lt_of_lt_of_le hj (Nat.le_of_not_lt hk)) hp
      · rename_i hkids
        rw [if_neg hkids] at hnext
        rw [hnext]
        trivial
  | test q =>
    simp only [WaitPc.code] at he hnext
    split at he
    · rename_i hz
      rw [if_pos hz] at hnext
      split at hnext
      · rw [hnext]
        trivial
      · rw [hnext]
        trivial
    · rename_i hz
      rw [if_neg hz] at hnext
      obtain ⟨-, -, hdata⟩ := Sys.exec_result rfl he
      rw [hnext]
      refine Clear.calm (s := s) (fun j hj hp => ?_) (hcalm hdata)
      by_cases hjq : j = q
      · rw [hjq]
        exact hz
      · exact hfacts.2 j (lt_of_le_of_ne (Nat.lt_succ_iff.mp hj) fun heq => hjq (Fin.ext heq)) hp
  | next q | killed | killedRead =>
    obtain ⟨-, -, hdata⟩ := Sys.exec_result rfl he
    rw [hnext]
    exact Clear.calm hfacts (hcalm hdata)
  | done q | unlockWait =>
    rw [hnext]
    trivial
  | killedRet k =>
    obtain ⟨-, -, hdata⟩ := Sys.exec_result rfl he
    simp only [WaitPc.code, Instr.next] at hnext
    split at hnext
    · rw [hnext]
      trivial
    · rw [hnext]
      exact fun _ => Clear.calm hfacts (hcalm hdata)

theorem facts_sleep {ch : Chan} {lk : Lock} {pc : SleepPc} (h : Inv s) (hf : Family s)
    (hs : Step s e s') (hl : s.loc (s.cur e.cpu) = .sleep p ch lk pc ret) :
    (s'.loc (s.cur e.cpu)).Facts s' := by
  have hfacts := hf.facts e.cpu
  have hform := hf.form (s.cur e.cpu)
  rw [hl] at hfacts hform
  rcases step_sleep hl hs with ⟨hnext, -⟩ | ⟨i, hi, he⟩
  · exact hnext
  have hnext := Sys.exec_next he
  cases pc with
  | lock =>
    cases hi
    obtain ⟨-, -, hdata⟩ := Sys.exec_result rfl he
    rw [hnext]
    exact fun hlk => Clear.calm (hfacts hlk) (calm_of_data h hf hs hdata (by rw [hl]; nofun))
  | sched =>
    rw [hnext, schedCode_next hi]
    trivial
  | relock =>
    cases hi
    rw [hnext]
    rcases hform with ⟨-, -, rfl⟩ | ⟨-, x, rfl⟩
    · exact fun j hj => absurd hj (Nat.not_lt_zero _)
    · trivial
  | unlock | _ =>
    cases hi
    rw [hnext]
    trivial

/-- **What a thread knows after a step of its own.** -/
theorem facts_own (h : Inv s) (hf : Family s) (hs : Step s e s') :
    (s'.loc (s.cur e.cpu)).Facts s' := by
  cases hl : s.loc (s.cur e.cpu) with
  | wake ch pc ret => exact facts_wake h hf hs hl
  | exit p status pc => exact facts_exit h hf hs hl
  | wait p pc => exact facts_wait h hf hs hl
  | sleep p ch lk pc ret => exact facts_sleep h hf hs hl
  | _ => exact (step_flow h hf hs).idle (by rw [hl]; rfl) s'

end Xv6.Sched
