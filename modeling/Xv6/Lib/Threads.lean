import Mathlib.Data.List.Nodup
import Mathlib.Logic.Function.Basic

/-!
# Threads on processors, with spin locks

A processor executes one thread at a time, and a thread that is not executed waits
at the place where it was switched out. A spin lock belongs to the processor that
took it, so a thread can take a lock and, after a switch, another thread on the
same processor releases it.

* `Sys`         — who owns each lock, which thread each processor executes, where
  each thread is, and the data they share.
* `Instr`       — what a thread does next; `Sys.exec` does it.
* `Typed`       — an instruction agrees with a function that says which locks are
  held at each place.
* `Disciplined` — every processor owns exactly the locks its thread holds, and no
  thread is executed twice. Typed instructions keep this (`Disciplined.exec`).
* `Ordered`     — locks are taken in order, so that nobody waits forever
  (`Disciplined.exists_exec`).
-/

namespace Threads

open Function

variable {Cpu Tid Lock Loc D : Type} {t : Tid}

/-- Threads on processors. -/
structure Sys (Cpu Tid Lock Loc D : Type) where
  owner : Lock → Option Cpu
  /-- locks the processor has taken and not released -/
  noff : Cpu → Nat
  cur : Cpu → Tid
  loc : Tid → Loc
  data : D

/-- What a thread does next, and where it is afterwards. -/
inductive Instr (Tid Lock Loc D : Type) where
  | acquire (lk : Lock) (next : Loc)
  | release (lk : Lock) (next : Loc)
  /-- straight-line code that leaves the data `d` -/
  | run (d : D) (next : Loc)
  /-- the same, and the thread `t` is made to start at `l` -/
  | spawn (d : D) (t : Tid) (l next : Loc)
  /-- the processor goes on with the thread `t` -/
  | swtch (t : Tid) (next : Loc)

variable [DecidableEq Cpu] [DecidableEq Tid] [DecidableEq Lock]

/-- The executed thread is at `l`. -/
def Sys.moveTo (s : Sys Cpu Tid Lock Loc D) (c : Cpu) (l : Loc) : Sys Cpu Tid Lock Loc D :=
  { s with loc := update s.loc (s.cur c) l }

/-- Processor `c` does `i`; it cannot take a lock that is taken, or release one that
it does not own. -/
def Sys.exec (s : Sys Cpu Tid Lock Loc D) (c : Cpu) :
    Instr Tid Lock Loc D → Option (Sys Cpu Tid Lock Loc D)
  | .acquire lk next =>
    if s.owner lk = none then
      some { s.moveTo c next with
        owner := update s.owner lk (some c)
        noff := update s.noff c (s.noff c + 1) }
    else none
  | .release lk next =>
    if s.owner lk = some c then
      some { s.moveTo c next with
        owner := update s.owner lk none
        noff := update s.noff c (s.noff c - 1) }
    else none
  | .run d next => some { s.moveTo c next with data := d }
  | .spawn d t l next =>
    some { s with
      loc := update (update s.loc t l) (s.cur c) next
      data := d }
  | .swtch t next => some { s.moveTo c next with cur := update s.cur c t }

/-- Where the thread is and what the data are after an instruction that concerns no
other thread. -/
def Instr.result (d : D) : Instr Tid Lock Loc D → Option (Loc × D)
  | .acquire _ next | .release _ next => some (next, d)
  | .run d next => some (next, d)
  | .spawn .. | .swtch .. => none

/-- Where the thread is after an instruction. -/
def Instr.next : Instr Tid Lock Loc D → Loc
  | .acquire _ next | .release _ next | .run _ next | .spawn _ _ _ next | .swtch _ next => next

/-- The thread that is made to start anew, and where. -/
def Instr.spawned : Instr Tid Lock Loc D → Option (Tid × Loc)
  | .spawn _ t l _ => some (t, l)
  | _ => none

variable {holds : Loc → List Lock} {s s' : Sys Cpu Tid Lock Loc D} {c c' : Cpu}
  {i : Instr Tid Lock Loc D} {lk : Lock}

omit [DecidableEq Cpu] [DecidableEq Lock] in

omit [DecidableEq Cpu] [DecidableEq Lock] in

omit [DecidableEq Cpu] [DecidableEq Lock] in

omit [DecidableEq Cpu] [DecidableEq Lock] in

omit [DecidableEq Cpu] [DecidableEq Lock] in
@[simp] theorem Sys.moveTo_loc_same (l : Loc) : (s.moveTo c l).loc (s.cur c) = l :=
  update_self ..

omit [DecidableEq Cpu] [DecidableEq Lock] in
theorem Sys.moveTo_loc_of_ne (l : Loc) (h : t ≠ s.cur c) : (s.moveTo c l).loc t = s.loc t :=
  update_of_ne h ..

theorem Sys.exec_result {next : Loc} {d : D} (hr : i.result s.data = some (next, d))
    (he : s.exec c i = some s') :
    s'.cur = s.cur ∧ s'.loc = update s.loc (s.cur c) next ∧ s'.data = d := by
  cases i with
  | acquire lk l | release lk l =>
    obtain ⟨rfl, rfl⟩ := Prod.mk.inj (Option.some.inj hr)
    simp only [Sys.exec] at he
    split at he
    · cases he
      exact ⟨rfl, rfl, rfl⟩
    · cases he
  | run d' l =>
    obtain ⟨rfl, rfl⟩ := Prod.mk.inj (Option.some.inj hr)
    cases he
    exact ⟨rfl, rfl, rfl⟩
  | spawn d' t l l' | swtch t l => cases hr

theorem Sys.exec_swtch {next : Loc} (he : s.exec c (.swtch t next) = some s') :
    s'.cur = update s.cur c t ∧ s'.loc = update s.loc (s.cur c) next ∧ s'.data = s.data := by
  cases he
  exact ⟨rfl, rfl, rfl⟩

theorem Sys.exec_next (he : s.exec c i = some s') : s'.loc (s.cur c) = i.next := by
  cases i with
  | swtch t next => rw [(Sys.exec_swtch he).2.1, update_self]; rfl
  | spawn d t l next =>
    cases he
    exact update_self ..
  | acquire lk next | release lk next | run d next =>
    rw [(Sys.exec_result rfl he).2.1, update_self]; rfl

/-- A processor goes on with the same thread, or the data do not change. -/
theorem Sys.exec_cur_or (he : s.exec c i = some s') : s'.cur c = s.cur c ∨ s'.data = s.data := by
  cases i with
  | swtch t next => exact .inr (Sys.exec_swtch he).2.2
  | spawn d t l next =>
    cases he
    exact .inl rfl
  | acquire lk next | release lk next | run d next =>
    exact .inl (by rw [(Sys.exec_result rfl he).1])

/-- Another processor executes the thread that it executed. -/
theorem Sys.exec_cur_of_ne (he : s.exec c i = some s') (hc : c' ≠ c) : s'.cur c' = s.cur c' := by
  cases i with
  | swtch t next => rw [(Sys.exec_swtch he).1, update_of_ne hc]
  | spawn d t l next =>
    cases he
    rfl
  | acquire lk next | release lk next | run d next => rw [(Sys.exec_result rfl he).1]

/-- Another thread stays where it is, unless it starts anew. -/
theorem Sys.exec_loc_of_ne (he : s.exec c i = some s') (ht : t ≠ s.cur c) :
    s'.loc t = s.loc t ∨ i.spawned = some (t, s'.loc t) := by
  cases i with
  | swtch t' next => exact .inl (by rw [(Sys.exec_swtch he).2.1, update_of_ne ht])
  | spawn d t' l next =>
    cases he
    dsimp only
    rw [update_of_ne ht]
    by_cases heq : t = t'
    · subst heq
      rw [update_self]
      exact .inr rfl
    · rw [update_of_ne heq]
      exact .inl rfl
  | acquire lk next | release lk next | run d next =>
    exact .inl (by rw [(Sys.exec_result rfl he).2.1, update_of_ne ht])

/-- The locks processor `c` holds by the place its thread is at. -/
def Sys.held (holds : Loc → List Lock) (s : Sys Cpu Tid Lock Loc D) (c : Cpu) : List Lock :=
  holds (s.loc (s.cur c))

/-- The instruction changes the locks held from `H` as its next place says. -/
def Typed (holds : Loc → List Lock) (H : List Lock) : Instr Tid Lock Loc D → Prop
  | .acquire lk next => holds next = lk :: H
  | .release lk next => holds next = H.erase lk
  | .run _ next => holds next = H
  | .spawn _ _ _ next => holds next = H
  | .swtch _ _ => True

/-- Every processor owns exactly the locks its thread holds, and no thread is
executed twice. -/
structure Disciplined (holds : Loc → List Lock) (s : Sys Cpu Tid Lock Loc D) : Prop where
  own : ∀ c lk, s.owner lk = some c ↔ lk ∈ s.held holds c
  nodup : ∀ c, (s.held holds c).Nodup
  noff : ∀ c, s.noff c = (s.held holds c).length
  alone : ∀ c c', s.cur c = s.cur c' → c = c'

namespace Disciplined

omit [DecidableEq Cpu] [DecidableEq Tid] [DecidableEq Lock] in
/-- A lock is held on one processor only. -/
theorem excl (h : Disciplined holds s) (hc : lk ∈ s.held holds c) (hc' : lk ∈ s.held holds c') :
    c = c' :=
  Option.some.inj (((h.own c lk).mpr hc).symm.trans ((h.own c' lk).mpr hc'))

omit [DecidableEq Cpu] [DecidableEq Tid] [DecidableEq Lock] in
/-- A lock that nobody owns is held by no thread that is executed. -/
theorem notMem_of_free (h : Disciplined holds s) (hfree : s.owner lk = none) :
    lk ∉ s.held holds c := by
  intro hmem
  rw [(h.own c lk).mpr hmem] at hfree
  cases hfree

omit [DecidableEq Cpu] [DecidableEq Lock] in
/-- Another processor's thread stays where it is. -/
theorem moveTo_of_ne (h : Disciplined holds s) (l : Loc) (hc : c' ≠ c) :
    (s.moveTo c l).loc (s.cur c') = s.loc (s.cur c') :=
  s.moveTo_loc_of_ne l fun heq => hc (h.alone c' c heq)

omit [DecidableEq Tid] [DecidableEq Lock] in
/-- What a step needs to keep the discipline: the processor that moves, the locks it
holds then, and nothing changes for the others. -/
theorem of_step {L : List Lock} (h : Disciplined holds s) (hsame : s'.held holds c = L)
    (hother : ∀ c', c' ≠ c → s'.held holds c' = s.held holds c')
    (hown : ∀ c' lk, c' ≠ c → (s'.owner lk = some c' ↔ s.owner lk = some c'))
    (hmine : ∀ lk, s'.owner lk = some c ↔ lk ∈ L) (hnodup : L.Nodup)
    (hnoff : s'.noff = update s.noff c L.length)
    (halone : ∀ c c', s'.cur c = s'.cur c' → c = c') : Disciplined holds s' := by
  refine ⟨fun c' lk => ?_, fun c' => ?_, fun c' => ?_, halone⟩ <;> by_cases hc : c' = c
  · rw [hc, hsame]
    exact hmine lk
  · rw [hother c' hc, hown c' lk hc]
    exact h.own c' lk
  · rw [hc, hsame]
    exact hnodup
  · rw [hother c' hc]
    exact h.nodup c'
  · rw [hc, hsame, hnoff, update_self]
  · rw [hother c' hc, hnoff, update_of_ne hc]
    exact h.noff c'

/-- **Typed instructions keep the discipline**, given that a switch goes to a thread
that is not executed and waits with the same locks, and that only such a thread is
made to start anew. -/
theorem exec (h : Disciplined holds s) (hi : Typed holds (s.held holds c) i)
    (hswtch : ∀ t next, i = .swtch t next → (∀ c', s.cur c' ≠ t) ∧ holds (s.loc t) = s.held holds c)
    (hspawn : ∀ d t l next, i = .spawn d t l next → ∀ c', s.cur c' ≠ t)
    (he : s.exec c i = some s') : Disciplined holds s' := by
  cases i with
  | acquire lk next =>
    simp only [Sys.exec] at he
    split at he
    · -- a free lock joins those that are held
      rename_i hfree
      cases he
      have hmem : lk ∉ s.held holds c := h.notMem_of_free hfree
      refine h.of_step (c := c) ?_ (fun c' hc => ?_)
        (fun c' lk' hc => ?_) (fun lk' => ?_) (List.nodup_cons.mpr ⟨hmem, h.nodup c⟩) ?_ h.alone
      · exact (congrArg holds (s.moveTo_loc_same next)).trans hi
      · exact congrArg holds (h.moveTo_of_ne next hc)
      · by_cases hlk : lk' = lk
        · subst hlk
          simp [hfree, Ne.symm hc]
        · simp [update_of_ne hlk]
      · by_cases hlk : lk' = lk
        · simp [hlk]
        · simp [hlk, h.own]
      · rw [List.length_cons, ← h.noff]
    · cases he
  | release lk next =>
    simp only [Sys.exec] at he
    split at he
    · -- a lock that is held leaves them
      rename_i hown
      cases he
      have hmem : lk ∈ s.held holds c := (h.own c lk).mp hown
      refine h.of_step (c := c) ?_ (fun c' hc => ?_)
        (fun c' lk' hc => ?_) (fun lk' => ?_) ((h.nodup c).erase lk) ?_ h.alone
      · exact (congrArg holds (s.moveTo_loc_same next)).trans hi
      · exact congrArg holds (h.moveTo_of_ne next hc)
      · by_cases hlk : lk' = lk
        · subst hlk
          simp [hown, Ne.symm hc]
        · simp [update_of_ne hlk]
      · rw [(h.nodup c).mem_erase_iff]
        by_cases hlk : lk' = lk
        · simp [hlk]
        · simp [hlk, h.own]
      · rw [List.length_erase_of_mem hmem, ← h.noff]
    · cases he
  | run d next =>
    cases he
    refine h.of_step ?_ (fun c' hc => ?_) (fun _ _ _ => Iff.rfl)
      (h.own c) (h.nodup c) ?_ h.alone
    · exact (congrArg holds (s.moveTo_loc_same next)).trans hi
    · exact congrArg holds (h.moveTo_of_ne next hc)
    · rw [← h.noff, update_eq_self]
      rfl
  | spawn d t l next =>
    cases he
    have hne := hspawn d t l next rfl
    refine h.of_step (c := c) ?_ (fun c' hc => ?_) (fun _ _ _ => Iff.rfl)
      (h.own c) (h.nodup c) ?_ h.alone
    · exact (congrArg holds (update_self ..)).trans hi
    · refine congrArg holds ?_
      dsimp only
      rw [update_of_ne fun heq => hc (h.alone c' c heq), update_of_ne (hne c')]
    · rw [← h.noff, update_eq_self]
  | swtch t next =>
    cases he
    obtain ⟨hne, hsame⟩ := hswtch t next rfl
    refine h.of_step ?_ (fun c' hc => ?_) (fun _ _ _ => Iff.rfl)
      (h.own c) (h.nodup c) ?_ fun a b hab => ?_
    · refine (congrArg holds ?_).trans hsame
      dsimp only
      rw [update_self, s.moveTo_loc_of_ne _ (Ne.symm (hne c))]
    · refine congrArg holds ?_
      dsimp only
      rw [update_of_ne hc]
      exact h.moveTo_of_ne next hc
    · rw [← h.noff, update_eq_self]
      rfl
    · dsimp only at hab
      by_cases ha : a = c <;> by_cases hb : b = c
      · rw [ha, hb]
      · rw [ha, update_self, update_of_ne hb] at hab
        exact absurd hab.symm (hne b)
      · rw [hb, update_self, update_of_ne ha] at hab
        exact absurd hab (hne a)
      · rw [update_of_ne ha, update_of_ne hb] at hab
        exact h.alone a b hab

/-- The same for an instruction that concerns no other thread. -/
theorem exec_plain (h : Disciplined holds s) (hi : Typed holds (s.held holds c) i)
    {r : Loc × D} (hr : i.result s.data = some r) (he : s.exec c i = some s') :
    Disciplined holds s' := by
  refine h.exec hi (fun t next hi => ?_) (fun d t l next hi => ?_) he <;>
  · subst hi
    cases hr

end Disciplined

/-- Locks are taken in the order of their rank, and released if they are held. -/
def Ordered (rank : Lock → Nat) (H : List Lock) : Instr Tid Lock Loc D → Prop
  | .acquire lk _ => ∀ lk' ∈ H, rank lk' < rank lk
  | .release lk _ => lk ∈ H
  | _ => True

/-- **No deadlock.** If a processor that owns a lock has something to do, and all that can be
done is in order, then the owner of a lock, or of one of a higher rank, can go on. -/
theorem Disciplined.exists_exec (h : Disciplined holds s) (rank : Lock → Nat) {n : Nat}
    (can : Cpu → Instr Tid Lock Loc D → Prop) (hn : ∀ lk, rank lk ≤ n)
    (hord : ∀ c i, can c i → Ordered rank (s.held holds c) i)
    (hcan : ∀ c, s.held holds c ≠ [] → ∃ i, can c i) (hown : s.owner lk = some c) :
    ∃ c' lk' i s', s.owner lk' = some c' ∧ (lk' = lk ∨ rank lk < rank lk') ∧ can c' i ∧
      s.exec c' i = some s' := by
  -- on how many ranks are above that of the lock
  induction hk : n - rank lk using Nat.strongRecOn generalizing lk c with
  | _ k ih =>
    have hmem := (h.own c lk).mp hown
    obtain ⟨i, hi⟩ := hcan c (List.ne_nil_of_mem hmem)
    have hup := hord c i hi
    cases i with
    | acquire lk' next =>
      cases hown' : s.owner lk' with
      | none => exact ⟨c, lk, _, _, hown, .inl rfl, hi, if_pos hown'⟩
      | some c' =>
        have hup : rank lk < rank lk' := hup lk hmem
        have := hn lk'
        obtain ⟨c'', lk'', i, s', hown'', hle, hdone⟩ := ih _ (by omega) hown' rfl
        refine ⟨c'', lk'', i, s', hown'', .inr ?_, hdone⟩
        rcases hle with rfl | hlt <;> omega
    | release lk' next => exact ⟨c, lk, _, _, hown, .inl rfl, hi, if_pos ((h.own c lk').mpr hup)⟩
    | run | spawn | swtch => exact ⟨c, lk, _, _, hown, .inl rfl, hi, rfl⟩

end Threads
