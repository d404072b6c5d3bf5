import Xv6.Pipe.Model

/-!
# xv6 — no lost wakeup on pipes

A process must not stay asleep on a pipe whose state lets it go on. Whoever
changes the pipe holds its lock, so the argument is about the lock holder: at
each point of `pipewrite`, `piperead` and `pipeclose` it says which sleepers may
be out of date there, and that every exit wakes them before it drops the lock.

One exit does not. A `pipewrite` that finds itself killed at the head of its
loop returns at once, although it may have stored bytes since it took the
lock; a reader that went to sleep on the empty pipe is then left asleep.

* `inv_step`               — the invariant, step by step.
* `noLostWakeup`           — runs in which no killed writer leaves bytes
  behind a sleeping reader lose no wakeup.
* `lostWakeup_writerKilled` — a run that loses one.
-/

namespace Xv6.Pipes

open TransitionRun Function

variable {pc : Pc} {c : Chan} {pi : Pipe} {A : Pid → Chan → Prop} {i : Nat} {pr : Proc}
  {s t : State} {p : Pid} {n : Int}

/-! ### Sleepers and the states that should wake them -/

/-- The channel a process is about to sleep on, having dropped the pipe lock. -/
def Pc.dozesOn : Pc → Option Chan
  | .sleep c .doze _ => some c
  | _ => none

/-- The process sleeps on `c`, or has dropped the pipe lock to do so. -/
def Asleep (pr : Proc) (c : Chan) : Prop :=
  (pr.state = .sleeping ∧ pr.chan = some c) ∨ pr.pc.dozesOn = some c

instance (pr : Proc) (c : Chan) : Decidable (Asleep pr c) :=
  inferInstanceAs (Decidable (_ ∨ _))

theorem Pc.dozesOn_eq_some (h : pc.dozesOn = some c) : ∃ k, pc = .sleep c .doze k := by
  unfold Pc.dozesOn at h
  split at h
  · cases h
    exact ⟨_, rfl⟩
  · simp at h

/-- The pipe lets a process waiting on the channel go on. -/
def Ready (pi : Pipe) : Chan → Prop
  | .nread => ¬ pi.empty ∨ pi.writeopen = false
  | .nwrite => ¬ pi.full ∨ pi.readopen = false

/-- Nobody in `A` waits on `c` for something that has happened. -/
def Quiet (pi : Pipe) (A : Pid → Chan → Prop) (c : Chan) : Prop :=
  ∀ q, A q c → ¬ Ready pi c

/-- Those who do are in slot `i` or later. -/
def Late (pi : Pipe) (A : Pid → Chan → Prop) (c : Chan) (i : Nat) : Prop :=
  ∀ q, A q c → Ready pi c → i ≤ q.val

/-- Who is asleep on what. -/
def State.sleepers (s : State) (q : Pid) (c : Chan) : Prop := Asleep (s.proc q) c

theorem Late.quiet (h : Late pi A c i) (hi : NPROC ≤ i) : Quiet pi A c := by
  intro q hq hr
  have := h q hq hr
  omega

theorem Late.succ (h : Late pi A c i) (hi : ∀ q, A q c → q.val ≠ i) : Late pi A c (i + 1) := by
  intro q hq hr
  have := h q hq hr
  have := hi q hq
  omega

theorem late_zero (pi : Pipe) (A : Pid → Chan → Prop) (c : Chan) : Late pi A c 0 :=
  fun _ _ _ => Nat.zero_le _

/-! ### The lock holder -/

/-- The points at which a process holds the pipe lock. -/
def Pc.holds : Pc → Bool
  | .writeHead .. | .writeCopy .. | .readHead .. | .readCopy .. | .close .. | .wakeup .. => true
  | .sleep _ .lockSelf _ | .sleep _ .unlock _ => true
  | _ => false

/-- A process that holds the pipe lock is neither about to sleep nor asleep. -/
theorem Pc.awake_of_holds (h : pc.holds = true) (c : Chan) (k : Resume) :
    pc ≠ .sleep c .asleep k ∧ pc ≠ .sleep c .doze k := by
  constructor <;> rintro rfl <;> simp [Pc.holds] at h

/-- The points of `sleep` before `sched` at which a process holds its own lock. -/
def Pc.locksSelf : Pc → Bool
  | .sleep _ .unlock _ | .sleep _ .doze _ => true
  | _ => false

/-- What is true of the pipe and the sleepers `A` while the lock holder is at
the given point. -/
def HolderOk (pi : Pipe) (A : Pid → Chan → Prop) : Pc → Prop
  -- bytes may have been stored since the lock was taken, but not if the read
  -- end is closed
  | .writeHead .. => Quiet pi A .nwrite ∧ (pi.readopen = false → Quiet pi A .nread) ∧
      ∀ q, A q .nread → pi.writeopen = true
  | .writeCopy .. => Quiet pi A .nwrite ∧ pi.readopen = true ∧ ¬ pi.full ∧
      ∀ q, A q .nread → pi.writeopen = true
  | .readHead .. | .close .. => ∀ c, Quiet pi A c
  | .readCopy .. => Quiet pi A .nread
  -- slots below `i` have been woken
  | .wakeup c i k => (∀ c', c' ≠ c → Quiet pi A c') ∧ Late pi A c i ∧
      ∀ n j, k = .full n j → ¬ Ready pi .nwrite
  | .sleep c .lockSelf _ | .sleep c .unlock _ => (∀ c', Quiet pi A c') ∧ ¬ Ready pi c
  | _ => False

theorem HolderOk.holds (h : HolderOk pi A pc) : pc.holds = true := by
  unfold HolderOk at h
  split at h <;> first | rfl | exact h.elim

theorem HolderOk.mono {A' : Pid → Chan → Prop} (hsub : ∀ q c, A' q c → A q c)
    (h : HolderOk pi A pc) : HolderOk pi A' pc := by
  have hquiet : ∀ c, Quiet pi A c → Quiet pi A' c := fun c hq q ha => hq q (hsub q c ha)
  have hlate : ∀ c i, Late pi A c i → Late pi A' c i := fun c i hl q ha => hl q (hsub q c ha)
  unfold HolderOk at h ⊢
  split at h
  · exact ⟨hquiet _ h.1, fun hr => hquiet _ (h.2.1 hr), fun q ha => h.2.2 q (hsub q _ ha)⟩
  · exact ⟨hquiet _ h.1, h.2.1, h.2.2.1, fun q ha => h.2.2.2 q (hsub q _ ha)⟩
  · exact fun c => hquiet c (h c)
  · exact fun c => hquiet c (h c)
  · exact hquiet _ h
  · exact ⟨fun c' hc => hquiet c' (h.1 c' hc), hlate _ _ h.2.1, h.2.2⟩
  · exact ⟨fun c => hquiet c (h.1 c), h.2⟩
  · exact ⟨fun c => hquiet c (h.1 c), h.2⟩
  · exact h.elim

/-! ### The invariant -/

/-- A process is SLEEPING only inside `sched`, and holds its own lock while it
is about to be. -/
structure ProcOk (pr : Proc) : Prop where
  sleeping : pr.state = .sleeping → ∃ c k, pr.pc = .sleep c .asleep k
  locked : pr.pc.locksSelf = true → pr.locked = true

/-- The invariant of the machine. -/
structure Inv (s : State) : Prop where
  free : s.pi.lock = none → ∀ c, Quiet s.pi s.sleepers c
  held : ∀ p, s.pi.lock = some p → HolderOk s.pi s.sleepers (s.proc p).pc
  holds : ∀ p, (s.proc p).pc.holds = true → s.pi.lock = some p
  procs : ∀ p, ProcOk (s.proc p)

/-- What is known at a point `pc` where the lock is held. -/
theorem Inv.holder (h : Inv s) (hp : (s.proc p).pc = pc) (hpc : pc.holds = true) :
    (s.proc p).pc.holds = true ∧ HolderOk s.pi s.sleepers pc := by
  subst hp
  exact ⟨hpc, h.held p (h.holds p hpc)⟩

/-- A process at a point other than `doze` and `asleep` is not asleep. -/
theorem ProcOk.not_asleep (h : ProcOk pr)
    (hpc : ∀ c k, pr.pc ≠ .sleep c .asleep k ∧ pr.pc ≠ .sleep c .doze k) (c : Chan) :
    ¬ Asleep pr c := by
  rintro (⟨hs, _⟩ | hdoze)
  · obtain ⟨c', k, hk⟩ := h.sleeping hs
    exact (hpc c' k).1 hk
  · obtain ⟨k, hk⟩ := Pc.dozesOn_eq_some hdoze
    exact (hpc c k).2 hk

theorem ProcOk.not_asleep_of_holds (h : ProcOk pr) (hpc : pr.pc.holds = true) (c : Chan) :
    ¬ Asleep pr c :=
  h.not_asleep (Pc.awake_of_holds hpc) c

/-- A process that is not in `sched` stays consistent when it moves on. -/
theorem ProcOk.moved {pr' : Proc} (h : ProcOk pr) (hpc : ∀ c k, pr.pc ≠ .sleep c .asleep k)
    (hstate : pr'.state = pr.state) (hlocked : pr'.pc.locksSelf = true → pr'.locked = true) :
    ProcOk pr' where
  sleeping hs := by
    obtain ⟨c, k, hk⟩ := h.sleeping (hstate ▸ hs)
    exact absurd hk (hpc c k)
  locked := hlocked

/-- Whoever is asleep after process `p` was replaced was so before, or is `p`. -/
theorem sleepers_set {q : Pid} (h : Asleep (update s.proc p pr q) c) :
    s.sleepers q c ∨ (q = p ∧ Asleep pr c) := by
  by_cases hq : q = p
  · subst hq
    rw [update_self] at h
    exact .inr ⟨rfl, h⟩
  · rw [update_of_ne hq] at h
    exact .inl h

/-- A step of a process that has the lock or takes it. -/
theorem inv_own {pi' : Pipe} {f : Bool} (h : Inv s) (hl : s.pi.lock = none ∨ s.pi.lock = some p)
    (hok : ProcOk pr)
    (hnew : (pi'.lock = none ∧ pr.pc.holds = false ∧ (∀ c, Quiet pi' s.sleepers c) ∧
        ∀ c, Asleep pr c → ¬ Ready pi' c) ∨ (pi'.lock = some p ∧ HolderOk pi' s.sleepers pr.pc)) :
    Inv { pi := pi', proc := update s.proc p pr, freed := f } := by
  -- nobody else is at a point that needs the lock
  have hothers : ∀ q, q ≠ p → (s.proc q).pc.holds = false := by
    intro q hq
    by_contra hh
    have hlq := h.holds q (by simpa using hh)
    rcases hl with hl | hl
    · simp [hl] at hlq
    · rw [hl, Option.some.injEq] at hlq
      exact hq hlq.symm
  have hprocs : ∀ q, ProcOk (update s.proc p pr q) := by
    intro q
    by_cases hq : q = p
    · subst hq
      rwa [update_self]
    · rw [update_of_ne hq]
      exact h.procs q
  rcases hnew with ⟨hnone, hnot, hquiet, hself⟩ | ⟨hsome, hholder⟩
  · refine { free := ?_, held := ?_, holds := ?_, procs := hprocs }
    · intro _ c q hq
      rcases sleepers_set hq with hq | ⟨_, hq⟩
      · exact hquiet c q hq
      · exact hself c hq
    · intro q hq
      simp [hnone] at hq
    · intro q hq
      by_cases hqp : q = p
      · subst hqp
        simp [hnot] at hq
      · simp [update_of_ne hqp, hothers q hqp] at hq
  · have hawake : ∀ c, ¬ Asleep pr c := hok.not_asleep_of_holds hholder.holds
    refine { free := ?_, held := ?_, holds := ?_, procs := hprocs }
    · intro hn
      simp [hsome] at hn
    · intro q hq
      have hqp : p = q := by simpa [hsome] using hq
      subst hqp
      simp only [update_self]
      refine hholder.mono ?_
      intro r c hr
      rcases sleepers_set hr with hr | ⟨_, hr⟩
      · exact hr
      · exact absurd hr (hawake c)
    · intro q hq
      by_cases hqp : q = p
      · rw [hqp]
        exact hsome
      · simp [update_of_ne hqp, hothers q hqp] at hq

/-- A step that leaves the pipe alone and puts nobody to sleep who was not. -/
theorem inv_outside (h : Inv s) (hok : ProcOk pr)
    (hpc : pr.pc = (s.proc p).pc ∨ ((s.proc p).pc.holds = false ∧ pr.pc.holds = false))
    (hsub : ∀ c, Asleep pr c → Asleep (s.proc p) c) : Inv (s.set p pr) := by
  have hsleep : ∀ q c, (s.set p pr).sleepers q c → s.sleepers q c := by
    intro q c hq
    rcases sleepers_set hq with hq | ⟨rfl, hq'⟩
    · exact hq
    · exact hsub c hq'
  have hholds : ∀ q, ((s.set p pr).proc q).pc.holds = (s.proc q).pc.holds := by
    intro q
    by_cases hq : q = p
    · subst hq
      simp only [State.set, update_self]
      rcases hpc with hpc | ⟨h1, h2⟩
      · rw [hpc]
      · rw [h1, h2]
    · simp only [State.set, update_of_ne hq]
  refine { free := ?_, held := ?_, holds := ?_, procs := ?_ }
  · intro hn c q hq
    exact h.free hn c q (hsleep q c hq)
  · intro q hq
    have hold := h.held q hq
    have hsame : ((s.set p pr).proc q).pc = (s.proc q).pc := by
      by_cases hqp : q = p
      · subst hqp
        simp only [State.set, update_self]
        rcases hpc with hpc | ⟨h1, _⟩
        · exact hpc
        · rw [hold.holds] at h1
          simp at h1
      · simp only [State.set, update_of_ne hqp]
    rw [hsame]
    exact hold.mono hsleep
  · intro q hq
    rw [hholds] at hq
    exact h.holds q hq
  · intro q
    by_cases hq : q = p
    · subst hq
      simpa [State.set] using hok
    · simpa [State.set, update_of_ne hq] using h.procs q

/-! ### The steps of the lock holder -/

/-- The lock holder goes on at a point where it still holds the lock. -/
theorem inv_goto (pi' : Pipe) (h : Inv s) (hp : (s.proc p).pc.holds = true)
    (hself : pc.locksSelf = false) (hlock : pi'.lock = s.pi.lock)
    (hholder : HolderOk pi' s.sleepers pc) : Inv { s.goto p pc with pi := pi' } := by
  have hl := h.holds p hp
  refine inv_own h (.inr hl) ?_ (.inr ⟨hlock.trans hl, hholder⟩)
  exact (h.procs p).moved (fun c k => (Pc.awake_of_holds hp c k).1) rfl (by simp [hself])

/-- The lock holder releases the lock and returns: nobody may be left asleep. -/
theorem inv_finish {r : Int} {f : Bool} (h : Inv s) (hp : (s.proc p).pc.holds = true)
    (hquiet : ∀ c, Quiet s.pi s.sleepers c) : Inv { s.finish p r with freed := f } := by
  have hok : ProcOk { s.proc p with pc := .idle, ret := r } :=
    (h.procs p).moved (fun c k => (Pc.awake_of_holds hp c k).1) rfl (by simp [Pc.locksSelf])
  refine inv_own h (.inr (h.holds p hp)) hok (.inl ⟨rfl, rfl, hquiet, ?_⟩)
  intro c hc
  exact absurd hc (hok.not_asleep (by simp) c)

theorem inv_acquire (pc : Pc) (h : Inv s) (hp : ∀ c k, (s.proc p).pc ≠ .sleep c .asleep k)
    (hself : pc.locksSelf = false)
    (hpc : (∀ c, Quiet s.pi s.sleepers c) → HolderOk s.pi s.sleepers pc)
    (hs : s.acquire p pc = some t) : Inv t := by
  unfold State.acquire at hs
  split at hs
  swap
  · simp at hs
  rename_i hfree
  cases hs
  have hholder := hpc (h.free hfree.1)
  have hok : ProcOk { s.proc p with pc := pc } :=
    (h.procs p).moved hp rfl (by simp [hself])
  refine inv_own h (.inl hfree.1) hok (.inr ⟨rfl, ?_⟩)
  -- the lock field plays no part in what the holder relies on
  exact hholder

/-- Taking the lock starts the writer's loop with every sleeper up to date. -/
theorem holderOk_writeHead (h : ∀ c, Quiet pi A c) : HolderOk pi A (.writeHead n i) := by
  refine ⟨h .nwrite, fun _ => h .nread, ?_⟩
  intro q hq
  by_contra hw
  exact h .nread q hq (.inr (by simpa using hw))

theorem inv_sleepStep {k : Resume} {pt : SleepPc} (h : Inv s) (hp : (s.proc p).pc = .sleep c pt k)
    (hs : sleepStep s p c k pt = some t) : Inv t := by
  have hok := h.procs p
  cases pt with
  | lockSelf =>
    simp only [sleepStep, Option.some.injEq] at hs
    subst hs
    have hl := h.holds p (by simp [hp, Pc.holds])
    have hholder := h.held p hl
    rw [hp] at hholder
    exact inv_own h (.inr hl) (hok.moved (by simp [hp]) rfl fun _ => rfl) (.inr ⟨hl, hholder⟩)
  | unlock =>
    simp only [sleepStep, Option.some.injEq] at hs
    subst hs
    have hl := h.holds p (by simp [hp, Pc.holds])
    have hholder := h.held p hl
    rw [hp] at hholder
    have hlocked := hok.locked (by simp [hp, Pc.locksSelf])
    have hok' : ProcOk { s.proc p with pc := .sleep c .doze k } :=
      hok.moved (by simp [hp]) rfl fun _ => hlocked
    refine inv_own h (.inr hl) hok' (.inl ⟨rfl, rfl, hholder.1, ?_⟩)
    -- the process itself falls asleep on a pipe it has just tested
    rintro c' (⟨hst, _⟩ | hdoze)
    · obtain ⟨c'', k'', hk''⟩ := hok'.sleeping hst
      simp at hk''
    · simp only [Pc.dozesOn, Option.some.injEq] at hdoze
      rw [← hdoze]
      exact hholder.2
  | doze =>
    simp only [sleepStep, Option.some.injEq] at hs
    subst hs
    refine inv_outside h ⟨fun _ => ⟨c, k, rfl⟩, by simp [Pc.locksSelf]⟩
      (.inr ⟨by simp [hp, Pc.holds], rfl⟩) ?_
    rintro c' (⟨_, hc⟩ | hdoze)
    · cases hc
      exact .inr (by simp [hp, Pc.dozesOn])
    · simp [Pc.dozesOn] at hdoze
  | asleep => simp [sleepStep] at hs
  | tidy =>
    simp only [sleepStep, Option.some.injEq] at hs
    subst hs
    have hok' : ProcOk { s.proc p with pc := .sleep c .relock k, chan := none, locked := false } :=
      hok.moved (by simp [hp]) rfl (by simp [Pc.locksSelf])
    refine inv_outside h hok' (.inr ⟨by simp [hp, Pc.holds], rfl⟩) ?_
    intro c' hc'
    exact absurd hc' (hok'.not_asleep (by simp) c')
  | relock =>
    cases k with
    | write n i =>
      exact inv_acquire _ h (by simp [hp]) rfl (fun hq => holderOk_writeHead hq) hs
    | read n =>
      exact inv_acquire (.readHead n) h (by simp [hp]) rfl (fun hq => hq) hs

/-- `wakeup` looks at one slot after another: below `i` nobody sleeps on `c` now. -/
theorem inv_wakeupStep {k : After} (h : Inv s) (hp : (s.proc p).pc = .wakeup c i k)
    (hs : wakeupStep s p c i k = some t) : Inv t := by
  obtain ⟨hholds, hothers, hlate, hfull⟩ := h.holder hp rfl
  unfold wakeupStep at hs
  split at hs
  · rename_i hi
    dsimp only at hs
    -- once slot `i` is not asleep on `c`, the loop can go on
    have hnext : ∀ s' : State, Inv s' → s'.pi = s.pi → (s'.proc p).pc = (s.proc p).pc →
        (∀ q c', s'.sleepers q c' → s.sleepers q c') → ¬ s'.sleepers ⟨i, hi⟩ c →
        Inv (s'.goto p (.wakeup c (i + 1) k)) := by
      intro s' h' hpi hpc hsub hawake
      refine inv_goto s'.pi h' (hpc ▸ hholds) rfl rfl ?_
      rw [hpi]
      refine ⟨fun c' hc' q hq => hothers c' hc' q (hsub q c' hq), ?_, hfull⟩
      refine Late.succ (fun q hq => hlate q (hsub q c hq)) ?_
      rintro q hq rfl
      exact hawake hq
    split at hs
    · rename_i hq
      cases hs
      refine hnext s h rfl rfl (fun _ _ hq => hq) ?_
      rw [hq]
      exact (h.procs p).not_asleep_of_holds hholds c
    · rename_i hqp
      split at hs
      · simp at hs
      rename_i hunlocked
      -- a process about to sleep holds its lock, so slot `i` is not one
      have hnodoze : (s.proc ⟨i, hi⟩).pc.dozesOn ≠ some c := by
        intro hdoze
        obtain ⟨k', hk'⟩ := Pc.dozesOn_eq_some hdoze
        exact hunlocked ((h.procs ⟨i, hi⟩).locked (by simp [hk', Pc.locksSelf]))
      split at hs
      · cases hs
        have hwake : Inv (s.set ⟨i, hi⟩ { s.proc ⟨i, hi⟩ with state := .runnable }) := by
          refine inv_outside h ⟨by simp, (h.procs _).locked⟩ (.inl rfl) ?_
          rintro c' (⟨hst, _⟩ | hk)
          · simp at hst
          · exact .inr hk
        refine hnext _ hwake rfl ?_ ?_ ?_
        · simp [State.set, update_of_ne (Ne.symm hqp)]
        · intro q c' hq
          rcases sleepers_set hq with hq | ⟨rfl, ⟨hst, _⟩ | hk⟩
          · exact hq
          · simp at hst
          · exact .inr hk
        · rintro (⟨hst, _⟩ | hdoze)
          · simp [State.set] at hst
          · exact hnodoze (by simpa [State.set] using hdoze)
      · rename_i hnot
        simp only [Option.some.injEq] at hs
        subst hs
        refine hnext s h rfl rfl (fun _ _ hq => hq) ?_
        rintro (hst | hdoze)
        · exact hnot hst
        · exact hnodoze hdoze
  · -- past the last slot, nobody does
    have hquiet : ∀ c', Quiet s.pi s.sleepers c' := by
      intro c'
      by_cases hc : c' = c
      · rw [hc]
        exact hlate.quiet (by omega)
      · exact hothers c' hc
    cases k with
    | full n j =>
      cases hs
      exact inv_goto s.pi h hholds rfl rfl ⟨hquiet, hfull n j rfl⟩
    | ret r =>
      simp only [Option.some.injEq] at hs
      subst hs
      exact inv_finish h hholds hquiet
    | closed =>
      simp only at hs
      split at hs
      · cases hs
        exact inv_finish h hholds hquiet
      · simp only [Option.some.injEq] at hs
        subst hs
        exact inv_finish h hholds hquiet

theorem inv_writeCopy {ch : Option UInt8} (h : Inv s) (hp : (s.proc p).pc = .writeCopy n i) :
    Inv (writeCopy s p n i ch) := by
  obtain ⟨hholds, hquiet, hread, hroom, hwopen⟩ := h.holder hp rfl
  have hnone : ∀ q, ¬ s.sleepers q .nwrite := fun q hq => hquiet q hq (.inl hroom)
  cases ch with
  | none =>
    refine inv_goto s.pi h hholds rfl rfl ⟨?_, late_zero _ _ _, by simp⟩
    intro c hc
    cases c with
    | nread => exact absurd rfl hc
    | nwrite => exact hquiet
  | some ch =>
    refine inv_goto (s.pi.store ch) h hholds rfl rfl ⟨?_, ?_, hwopen⟩
    · intro q hq
      exact absurd hq (hnone q)
    · intro hclosed
      have : s.pi.readopen = false := hclosed
      simp [hread] at this

theorem inv_readHead (h : Inv s) (hp : (s.proc p).pc = .readHead n) : Inv (readHead s p n) := by
  obtain ⟨hholds, hquiet⟩ := h.holder hp rfl
  unfold readHead
  split
  · rename_i hwait
    split
    · exact inv_finish h hholds hquiet
    · refine inv_goto s.pi h hholds rfl rfl ⟨hquiet, ?_⟩
      rintro (hne | hclosed)
      · exact hne hwait.1
      · simp [hwait.2] at hclosed
  · exact inv_goto s.pi h hholds rfl rfl (hquiet .nread)

theorem inv_readCopy {ok : Bool} (h : Inv s) (hp : (s.proc p).pc = .readCopy n i) :
    Inv (readCopy s p n i ok) := by
  have hholds : (s.proc p).pc.holds = true := by simp [hp, Pc.holds]
  have hl := h.holds p hholds
  have hholder := h.held p hl
  rw [hp] at hholder
  have hquiet : Quiet s.pi s.sleepers .nread := hholder
  have hwake : ∀ r, Inv (s.goto p (.wakeup .nwrite 0 (.ret r))) := by
    intro r
    refine inv_goto s.pi h hholds rfl rfl ⟨?_, late_zero _ _ _, by simp⟩
    intro c hc
    cases c with
    | nread => exact hquiet
    | nwrite => exact absurd rfl hc
  unfold readCopy
  split
  · rename_i hmore
    split
    · refine inv_own h (.inr hl) ?_ (.inr ⟨hl, ?_⟩)
      · exact (h.procs p).moved (by simp [hp]) rfl (by simp [Pc.locksSelf])
      · -- there are bytes, so no reader was asleep
        intro q hq
        exact absurd (.inl hmore.2) (hquiet q hq)
    · exact hwake _
  · exact hwake _

theorem inv_close {w : Bool} (h : Inv s) (hp : (s.proc p).pc = .close w) : Inv (close s p w) := by
  obtain ⟨hholds, hquiet⟩ := h.holder hp rfl
  unfold close
  split
  · refine inv_goto _ h hholds rfl rfl ⟨?_, late_zero _ _ _, by simp⟩
    intro c hc
    cases c with
    | nread => exact absurd rfl hc
    | nwrite => exact hquiet .nwrite
  · refine inv_goto _ h hholds rfl rfl ⟨?_, late_zero _ _ _, by simp⟩
    intro c hc
    cases c with
    | nread => exact hquiet .nread
    | nwrite => exact absurd rfl hc

/-! ### The killed writer -/

/-- A writer at the head of its loop with bytes left to write. -/
def Pc.unfinished : Pc → Bool
  | .writeHead n i => (i : Int) < n
  | _ => false

/-- No writer that finds itself killed at the head of its loop, the read end
being open, leaves bytes in the pipe behind a reader that is asleep. -/
def KillsCleanly (s : State) : Event → Prop
  | .run p _ => (s.proc p).pc.unfinished = true ∧ s.pi.readopen = true ∧
      (s.proc p).killed = true → s.pi.empty ∨ ∀ q, ¬ Asleep (s.proc q) .nread
  | _ => True

instance (s : State) : (e : Event) → Decidable (KillsCleanly s e)
  | .run _ _ => inferInstanceAs (Decidable (_ → _ ∨ ∀ _, _))
  | .call _ _ | .schedule _ | .kill _ => isTrue trivial

theorem inv_writeHead {inp : Input} (h : Inv s) (hp : (s.proc p).pc = .writeHead n i)
    (hkill : KillsCleanly s (.run p inp)) : Inv (writeHead s p n i) := by
  simp only [KillsCleanly, hp, Pc.unfinished, decide_eq_true_eq] at hkill
  obtain ⟨hholds, hquietW, hquietR, hwopen⟩ := h.holder hp rfl
  have hothers : ∀ c, c ≠ .nread → Quiet s.pi s.sleepers c := by
    intro c hc
    cases c with
    | nread => exact absurd rfl hc
    | nwrite => exact hquietW
  unfold writeHead
  split
  swap
  · exact inv_goto s.pi h hholds rfl rfl ⟨hothers, late_zero _ _ _, by simp⟩
  rename_i hlt
  split
  · rename_i hexit
    -- the two ways to give up: the read end is closed, or the writer is killed
    have hread : Quiet s.pi s.sleepers .nread := by
      by_cases hopen : s.pi.readopen = true
      · have hk : (s.proc p).killed = true := by
          rcases hexit with hx | hx
          · simp [hopen] at hx
          · exact hx
        rcases hkill ⟨hlt, hopen, hk⟩ with hempty | hnone
        · rintro q hq (hne | hclosed)
          · exact hne hempty
          · simp [hwopen q hq] at hclosed
        · exact fun q hq => absurd hq (hnone q)
      · exact hquietR (by simpa using hopen)
    refine inv_finish h hholds ?_
    intro c
    cases c with
    | nread => exact hread
    | nwrite => exact hquietW
  rename_i hgo
  split
  · rename_i hfull
    refine inv_goto s.pi h hholds rfl rfl ⟨hothers, late_zero _ _ _, ?_⟩
    rintro _ _ _ (hroom | hclosed)
    · exact hroom hfull
    · exact hgo (.inl hclosed)
  · rename_i hroom
    exact inv_goto s.pi h hholds rfl rfl
      ⟨hquietW, by simpa using fun hc => hgo (.inl hc), hroom, hwopen⟩

/-! ### Every run -/

theorem inv_run {inp : Input} (h : Inv s) (hkill : KillsCleanly s (.run p inp))
    (hs : run s p inp = some t) : Inv t := by
  unfold run at hs
  cases hp : (s.proc p).pc with
  | idle => simp [hp] at hs
  | writeLock n =>
    simp only [hp] at hs
    exact inv_acquire _ h (by simp [hp]) rfl (fun hq => holderOk_writeHead hq) hs
  | writeHead n i =>
    simp only [hp, Option.some.injEq] at hs
    subst hs
    exact inv_writeHead h hp hkill
  | writeCopy n i =>
    simp only [hp, Option.some.injEq] at hs
    subst hs
    exact inv_writeCopy h hp
  | readLock n =>
    simp only [hp] at hs
    exact inv_acquire (.readHead n) h (by simp [hp]) rfl (fun hq => hq) hs
  | readHead n =>
    simp only [hp, Option.some.injEq] at hs
    subst hs
    exact inv_readHead h hp
  | readCopy n i =>
    simp only [hp, Option.some.injEq] at hs
    subst hs
    exact inv_readCopy h hp
  | closeLock w =>
    simp only [hp] at hs
    exact inv_acquire (.close w) h (by simp [hp]) rfl (fun hq => hq) hs
  | close w =>
    simp only [hp, Option.some.injEq] at hs
    subst hs
    exact inv_close h hp
  | sleep c pt k =>
    simp only [hp] at hs
    exact inv_sleepStep h hp hs
  | wakeup c i k =>
    simp only [hp] at hs
    exact inv_wakeupStep h hp hs

theorem inv_kkill (h : Inv s) (hs : kkill s p = some t) : Inv t := by
  unfold kkill at hs
  split at hs
  · simp at hs
  cases hs
  refine inv_outside h ⟨?_, (h.procs p).locked⟩ (.inl rfl) ?_
  · intro hst
    split at hst
    · simp at hst
    · exact (h.procs p).sleeping hst
  · rintro c (⟨hst, hc⟩ | hk)
    · split at hst
      · simp at hst
      · exact .inl ⟨hst, hc⟩
    · exact .inr hk

theorem inv_schedule (h : Inv s) (hs : schedule s p = some t) : Inv t := by
  unfold schedule at hs
  split at hs
  swap
  · simp at hs
  rename_i c k hp
  split at hs
  swap
  · simp at hs
  cases hs
  refine inv_outside h ⟨by simp, by simp [Pc.locksSelf]⟩ (.inr ⟨by simp [hp, Pc.holds], rfl⟩) ?_
  rintro c' (⟨hst, _⟩ | hdoze)
  · simp at hst
  · simp [Pc.dozesOn] at hdoze

theorem inv_step {e : Event} (h : Inv s) (hc : KillsCleanly s e) (hs : Step s e t) : Inv t := by
  unfold Step at hs
  cases e with
  | call p c =>
    simp only [step] at hs
    split at hs
    swap
    · simp at hs
    rename_i hp
    cases hs
    have hok : ProcOk { s.proc p with pc := c.entry } := by
      refine (h.procs p).moved (by simp [hp]) rfl ?_
      cases c <;> simp [Call.entry, Pc.locksSelf]
    refine inv_outside h hok (.inr ⟨by simp [hp, Pc.holds], by cases c <;> rfl⟩) ?_
    intro c' hc'
    exact absurd hc' (hok.not_asleep (by cases c <;> simp [Call.entry]) c')
  | run p inp => exact inv_run h hc hs
  | schedule p => exact inv_schedule h hs
  | kill p => exact inv_kkill h hs

theorem inv_pipealloc (junk : Nat → UInt8) : Inv (pipealloc junk) where
  free := by
    rintro _ c q (⟨hst, _⟩ | hdoze)
    · simp [pipealloc, idleProc] at hst
    · simp [pipealloc, idleProc, Pc.dozesOn] at hdoze
  held := by simp [pipealloc]
  holds := by simp [pipealloc, idleProc, Pc.holds]
  procs _ := ⟨by simp [pipealloc, idleProc], by simp [pipealloc, idleProc, Pc.locksSelf]⟩

/-- Nobody is asleep on a pipe that would let it go on. -/
def NoLostWakeup (s : State) : Prop :=
  ∀ p, (s.proc p).state = .sleeping →
    ((s.proc p).chan = some .nread → s.pi.nread = s.pi.nwrite ∧ s.pi.writeopen = true) ∧
    ((s.proc p).chan = some .nwrite →
      s.pi.nwrite = s.pi.nread + UInt32.ofNat PIPESIZE ∧ s.pi.readopen = true)

/--
**No wakeup is lost unless a killed writer abandons its bytes.** In every
interleaving of calls, kills and schedulings in which no writer found killed at
its loop head leaves bytes behind a sleeping reader, whenever the pipe lock is
free nobody sleeps on a pipe that would let it go on.
-/
theorem noLostWakeup {junk : Nat → UInt8} {es : List Event} {s : State}
    (hrun : Run (Restrict KillsCleanly Step) (pipealloc junk) es s)
    (hlock : s.pi.lock = none) : NoLostWakeup s := by
  have hinv : Inv s := hrun.invariant (inv_pipealloc junk)
    fun _ _ _ h hs => inv_step h hs.1 hs.2
  intro p hst
  refine ⟨fun hc => ?_, fun hc => ?_⟩
  · have hq := hinv.free hlock .nread p (.inl ⟨hst, hc⟩)
    simpa [Ready, Pipe.empty] using hq
  · have hq := hinv.free hlock .nwrite p (.inl ⟨hst, hc⟩)
    simpa [Ready, Pipe.full] using hq

/-- A reader finds the pipe empty and falls asleep. -/
def readerSleeps : List Event :=
  [.call 0 (.read 1), .run 0 ⟨none, true⟩, .run 0 ⟨none, true⟩, .run 0 ⟨none, true⟩,
    .run 0 ⟨none, true⟩, .run 0 ⟨none, true⟩]

/-- A writer of two bytes stores the first one and is killed. -/
def writerKilled : List Event :=
  [.call 1 (.write 2), .run 1 ⟨none, true⟩, .run 1 ⟨none, true⟩, .run 1 ⟨some 65, true⟩,
    .kill 1, .run 1 ⟨none, true⟩]

theorem noLostWakeup_readerSleeps :
    ∃ s, Run (Restrict KillsCleanly Step) (pipealloc fun _ => 0) readerSleeps s ∧
      s.pi.lock = none ∧ (s.proc 0).state = .sleeping ∧ NoLostWakeup s := by
  have hsome : ((exec (fun s e => if KillsCleanly s e then step s e else none)
      (pipealloc fun _ => 0) readerSleeps).map fun s => (s.pi.lock, (s.proc 0).state)) =
      some (none, .sleeping) := by decide
  obtain ⟨s, hs, hval⟩ := Option.map_eq_some_iff.mp hsome
  simp only [Prod.mk.injEq] at hval
  have hrun := run_restrict_of_exec hs
  exact ⟨s, hrun, hval.1, hval.2, noLostWakeup hrun hval.1⟩

/-- **A wakeup is lost.** The killed writer drops the lock with its byte in the
pipe; the reader sleeps on, the pipe lock free and both ends open. -/
theorem lostWakeup_writerKilled :
    ∃ s, Run Step (pipealloc fun _ => 0) (readerSleeps ++ writerKilled) s ∧
      s.pi.lock = none ∧ ¬ NoLostWakeup s := by
  have hsome : ((exec step (pipealloc fun _ => 0) (readerSleeps ++ writerKilled)).map fun s =>
      (s.pi.lock, (s.proc 0).state, (s.proc 0).chan, s.pi.nread, s.pi.nwrite)) =
      some (none, .sleeping, some .nread, 0, 1) := by decide
  obtain ⟨s, hs, hval⟩ := Option.map_eq_some_iff.mp hsome
  simp only [Prod.mk.injEq] at hval
  obtain ⟨hlock, hst, hchan, hr, hw⟩ := hval
  refine ⟨s, run_of_exec hs, hlock, ?_⟩
  intro h
  have hempty := ((h 0 hst).1 hchan).1
  rw [hr, hw] at hempty
  exact absurd hempty (by decide)

end Xv6.Pipes
