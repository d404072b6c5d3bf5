import Xv6.Pipe.Wakeup

/-!
# xv6 — pipes are first in, first out

What writers have put into the pipe is what readers have got out of it followed by
what the buffer holds, in every state. The counters `nread` and `nwrite` wrap, but
the size of the buffer divides their range, so the slot a wrapped counter selects
is that of the true one.

* `taken`, `given`          — the bytes that go in and out along a run.
* `step_cases`              — what a step does to the pipe: nothing to its
  contents, one byte in, or one byte out.
* `Fifo`, `fifo_step`       — the invariant.
* `pipe_fifo`               — the result.
* `read_bytes`              — how much one call of `piperead` gets.
-/

namespace Xv6.Pipes

open TransitionRun Function List

variable {pi : Pipe} {pc : Pc} {i : Nat} {e : Event} {pr : Proc} {c : Chan}

/-! ### The buffer -/

/-- How many bytes the buffer holds. -/
def Pipe.size (pi : Pipe) : Nat := (pi.nwrite - pi.nread).toNat

/-- The bytes the buffer holds, in the order in which they will be read. -/
def Pipe.buffered (pi : Pipe) : List UInt8 :=
  (List.range pi.size).map fun k => pi.data ((pi.nread.toNat + k) % PIPESIZE)

theorem Pipe.full_iff (pi : Pipe) : pi.full ↔ pi.size = PIPESIZE := by
  have hw := pi.nwrite.toNat_lt
  have hr := pi.nread.toNat_lt
  have hsize : (UInt32.ofNat 512).toNat = 512 := by decide
  simp only [Pipe.full, Pipe.size, PIPESIZE, ← UInt32.toNat_inj, UInt32.toNat_add,
    UInt32.toNat_sub]
  omega

theorem Pipe.empty_iff (pi : Pipe) : pi.empty ↔ pi.size = 0 := by
  have hw := pi.nwrite.toNat_lt
  have hr := pi.nread.toNat_lt
  simp only [Pipe.empty, Pipe.size, ← UInt32.toNat_inj, UInt32.toNat_sub]
  omega

/-- The slot of the next byte to be written, counted from the next to be read. -/
theorem Pipe.nwrite_mod (pi : Pipe) :
    pi.nwrite.toNat % PIPESIZE = (pi.nread.toNat + pi.size) % PIPESIZE := by
  have hr := pi.nread.toNat_lt
  simp only [Pipe.size, PIPESIZE, UInt32.toNat_sub]
  omega

theorem Pipe.size_store (h : pi.size < PIPESIZE) (ch : UInt8) :
    (pi.store ch).size = pi.size + 1 := by
  simp only [Pipe.size, Pipe.store, PIPESIZE, UInt32.toNat_sub, UInt32.toNat_add,
    UInt32.toNat_one] at h ⊢
  omega

theorem Pipe.buffered_store (h : pi.size < PIPESIZE) (ch : UInt8) :
    (pi.store ch).buffered = pi.buffered ++ [ch] := by
  unfold Pipe.buffered
  rw [Pipe.size_store h, range_succ, map_append]
  congr 1
  · refine map_congr_left fun k hk => ?_
    -- the slots in use are not the one written to
    have hk := mem_range.mp hk
    have hne : (pi.nread.toNat + k) % PIPESIZE ≠ pi.nwrite.toNat % PIPESIZE := by
      rw [pi.nwrite_mod]
      unfold PIPESIZE at h ⊢
      omega
    exact update_of_ne hne _ _
  · simp only [map_cons, map_nil, Pipe.store]
    rw [← pi.nwrite_mod, update_self]

/-- The byte at the front is taken out. -/
def Pipe.fetch (pi : Pipe) : Pipe := { pi with nread := pi.nread + 1 }

theorem Pipe.size_fetch (h : ¬ pi.empty) : pi.size = pi.fetch.size + 1 := by
  have hr := pi.nread.toNat_lt
  rw [Pipe.empty_iff] at h
  simp only [Pipe.size, Pipe.fetch, UInt32.toNat_sub, UInt32.toNat_add, UInt32.toNat_one] at h ⊢
  omega

theorem Pipe.buffered_fetch (h : ¬ pi.empty) :
    pi.buffered = pi.data (pi.nread.toNat % PIPESIZE) :: pi.fetch.buffered := by
  have hslot : ∀ k, (pi.fetch.nread.toNat + k) % PIPESIZE =
      (pi.nread.toNat + (k + 1)) % PIPESIZE := by
    intro k
    simp only [Pipe.fetch, PIPESIZE, UInt32.toNat_add, UInt32.toNat_one]
    omega
  unfold Pipe.buffered
  rw [Pipe.size_fetch h, range_succ_eq_map, map_cons, map_map]
  congr 1
  refine map_congr_left fun k _ => ?_
  rw [hslot]
  rfl

theorem Pipe.buffered_congr {pi' : Pipe} (hdata : pi'.data = pi.data) (hr : pi'.nread = pi.nread)
    (hw : pi'.nwrite = pi.nwrite) : pi'.size = pi.size ∧ pi'.buffered = pi.buffered := by
  simp only [Pipe.buffered, Pipe.size, hdata, hr, hw, and_self]

/-! ### What a step does to the pipe -/

/-- How many bytes of its current call a writer has put into the pipe. -/
def Pc.written : Pc → Nat
  | .writeHead _ i | .writeCopy _ i | .sleep _ _ (.write _ i) | .wakeup _ _ (.full _ i) => i
  | _ => 0

/-- The byte a writer puts into the pipe: the writer, its place in the call and the
byte. -/
def taken (s : State) : Event → List (Pid × Nat × UInt8)
  | .run p inp =>
    match (s.proc p).pc, inp.copyin with
    | .writeCopy _ i, some ch => [(p, i, ch)]
    | _, _ => []
  | _ => []

/-- The byte a reader gets out of the pipe. -/
def given (s : State) : Event → List (Pid × UInt8)
  | .run p inp =>
    match (s.proc p).pc with
    | .readCopy n i =>
      if ((i : Int) < n ∧ ¬ s.pi.empty) ∧ inp.copyout = true then
        [(p, s.pi.data (s.pi.nread.toNat % PIPESIZE))]
      else []
    | _ => []
  | _ => []

/-- The other processes stay where they are. -/
def Others (s t : State) (p : Pid) : Prop :=
  ∀ q, q ≠ p → (t.proc q).pc = (s.proc q).pc ∧ (t.proc q).got = (s.proc q).got

/-- Process `p` moves on and no byte goes in or out. -/
structure Moves (s t : State) (p : Pid) : Prop where
  others : Others s t p
  got : (t.proc p).got = (s.proc p).got
  data : t.pi.data = s.pi.data
  nread : t.pi.nread = s.pi.nread
  nwrite : t.pi.nwrite = s.pi.nwrite
  /-- the lock is left alone, taken or released -/
  lock : t.pi.lock = s.pi.lock ∧ ((t.proc p).pc.holds = true → (s.proc p).pc.holds = true) ∨
    s.pi.lock = none ∧ t.pi.lock = some p ∨
    (s.proc p).pc.holds = true ∧ (t.proc p).pc.holds = false
  room : ∀ n i, (t.proc p).pc = .writeCopy n i → (s.proc p).pc = .writeCopy n i ∨ ¬ t.pi.full
  written : (t.proc p).pc.written = (s.proc p).pc.written ∨ (t.proc p).pc.written = 0

theorem others_set (s : State) (p : Pid) (pr : Proc) : Others s (s.set p pr) p := by
  intro q hq
  simp [State.set, hq]

variable {s t : State} {p : Pid}

/-- The process only changes where it is. -/
theorem moves_goto (hholds : pc.holds = true → (s.proc p).pc.holds = true)
    (hroom : ∀ n i, pc = .writeCopy n i → ¬ s.pi.full)
    (hwritten : pc.written = (s.proc p).pc.written ∨ pc.written = 0) : Moves s (s.goto p pc) p := by
  refine ⟨others_set s p _, ?_, rfl, rfl, rfl, .inl ⟨rfl, ?_⟩, ?_, ?_⟩ <;>
    simp only [State.goto, State.set, update_self]
  · exact hholds
  · exact fun n i hpc => .inr (hroom n i hpc)
  · exact hwritten

theorem moves_acquire (hs : s.acquire p pc = some t) (hroom : ∀ n i, pc ≠ .writeCopy n i)
    (hwritten : pc.written = (s.proc p).pc.written ∨ pc.written = 0) : Moves s t p := by
  unfold State.acquire at hs
  split at hs
  · rename_i hlock
    cases hs
    refine ⟨others_set s p _, ?_, rfl, rfl, rfl, .inr (.inl ⟨hlock.1, rfl⟩), ?_, ?_⟩ <;>
      simp only [State.goto, State.set, update_self]
    · exact fun n i hpc => absurd hpc (hroom n i)
    · exact hwritten
  · cases hs

theorem moves_finish (r : Int) (hholds : (s.proc p).pc.holds = true) :
    Moves s (s.finish p r) p := by
  refine ⟨others_set s p _, ?_, rfl, rfl, rfl, .inr (.inr ⟨hholds, ?_⟩), ?_, .inr ?_⟩ <;>
    simp [State.finish, State.set, Pc.holds, Pc.written]

/-- The process changes where it is and fields that do not matter here. -/
theorem moves_set (hgot : pr.got = (s.proc p).got)
    (hholds : pr.pc.holds = true → (s.proc p).pc.holds = true)
    (hroom : ∀ n i, pr.pc = .writeCopy n i → (s.proc p).pc = .writeCopy n i)
    (hwritten : pr.pc.written = (s.proc p).pc.written) : Moves s (s.set p pr) p := by
  refine ⟨others_set s p _, ?_, rfl, rfl, rfl, .inl ⟨rfl, ?_⟩, ?_, .inl ?_⟩ <;>
    simp only [State.set, update_self]
  · exact hgot
  · exact hholds
  · exact fun n i hpc => .inl (hroom n i hpc)
  · exact hwritten

theorem moves_sleepStep {k : Resume} {pt : SleepPc} (hp : (s.proc p).pc = .sleep c pt k)
    (hs : sleepStep s p c k pt = some t) : Moves s t p := by
  cases pt with
  | lockSelf | doze | tidy =>
    cases hs
    refine moves_set rfl ?_ (by simp) ?_ <;> rw [hp]
    · simp [Pc.holds]
    · cases k <;> rfl
  | unlock =>
    cases hs
    refine ⟨others_set s p _, ?_, rfl, rfl, rfl, .inr (.inr ⟨by rw [hp]; rfl, ?_⟩), ?_, .inl ?_⟩ <;>
      simp only [State.goto, State.set, update_self]
    · rfl
    · simp
    · rw [hp]
      cases k <;> rfl
  | asleep => cases hs
  | relock =>
    cases k with
    | write n i | read n => exact moves_acquire hs (by simp) (.inl (by rw [hp]; rfl))

/-- Waking another process up leaves it where it is. -/
theorem Moves.wake {q : Pid} (h : Moves s t p) (hq : q ≠ p) (st : ProcState) :
    Moves s (t.set q { t.proc q with state := st }) p := by
  have hproc : ∀ r, ((t.set q { t.proc q with state := st }).proc r).pc = (t.proc r).pc ∧
      ((t.set q { t.proc q with state := st }).proc r).got = (t.proc r).got := by
    intro r
    by_cases hr : r = q
    · subst hr
      simp [State.set]
    · simp [State.set, hr]
  refine ⟨fun r hr => ?_, ?_, h.data, h.nread, h.nwrite, ?_, ?_, ?_⟩
  · rw [(hproc r).1, (hproc r).2]
    exact h.others r hr
  · rw [(hproc p).2]
    exact h.got
  · rw [(hproc p).1]
    exact h.lock
  · rw [(hproc p).1]
    exact h.room
  · rw [(hproc p).1]
    exact h.written

theorem moves_wakeupStep {k : After} (hp : (s.proc p).pc = .wakeup c i k)
    (hs : wakeupStep s p c i k = some t) : Moves s t p := by
  have hholds : (s.proc p).pc.holds = true := by rw [hp]; rfl
  have hnext : Moves s (s.goto p (.wakeup c (i + 1) k)) p :=
    moves_goto (fun _ => hholds) (by simp) (.inl (by rw [hp]; cases k <;> rfl))
  unfold wakeupStep at hs
  split at hs
  · simp only at hs
    split at hs
    · cases hs
      exact hnext
    rename_i hq
    split at hs
    · cases hs
    split at hs
    · cases hs
      have hcomm : (s.set ⟨i, ‹_›⟩ { s.proc ⟨i, ‹_›⟩ with state := .runnable }).goto p
          (.wakeup c (i + 1) k) = (s.goto p (.wakeup c (i + 1) k)).set ⟨i, ‹_›⟩
            { (s.goto p (.wakeup c (i + 1) k)).proc ⟨i, ‹_›⟩ with state := .runnable } := by
        simp only [State.goto, State.set, update_of_ne hq,
          update_of_ne (Ne.symm hq), update_comm hq]
      rw [hcomm]
      exact hnext.wake hq _
    · cases hs
      exact hnext
  · cases k with
    | full n j =>
      cases hs
      exact moves_goto (fun _ => hholds) (by simp) (.inl (by rw [hp]; rfl))
    | ret r =>
      cases hs
      exact moves_finish r hholds
    | closed =>
      simp only at hs
      split at hs <;> cases hs
      · exact { moves_finish 0 hholds with }
      · exact moves_finish 0 hholds

theorem moves_writeHead {n : Int} (hp : (s.proc p).pc = .writeHead n i) :
    Moves s (writeHead s p n i) p := by
  have hholds : (s.proc p).pc.holds = true := by rw [hp]; rfl
  unfold writeHead
  split
  · split
    · exact moves_finish _ hholds
    · split
      · exact moves_goto (fun _ => hholds) nofun (.inl (by rw [hp]; rfl))
      · rename_i hfull
        exact moves_goto (fun _ => hholds) (fun _ _ _ => hfull) (.inl (by rw [hp]; rfl))
  · exact moves_goto (fun _ => hholds) nofun (.inr rfl)

theorem moves_readHead {n : Int} (hp : (s.proc p).pc = .readHead n) :
    Moves s (readHead s p n) p := by
  have hholds : (s.proc p).pc.holds = true := by rw [hp]; rfl
  unfold readHead
  split
  · split
    · exact moves_finish _ hholds
    · exact moves_goto (fun _ => hholds) nofun (.inr rfl)
  · exact moves_goto (fun _ => hholds) nofun (.inr rfl)

theorem moves_close {w : Bool} (hp : (s.proc p).pc = .close w) : Moves s (close s p w) p := by
  have hholds : (s.proc p).pc.holds = true := by rw [hp]; rfl
  have hmove : ∀ c, Moves s (s.goto p (.wakeup c 0 .closed)) p := fun c =>
    moves_goto (fun _ => hholds) nofun (.inr rfl)
  have hroom : ∀ (f : State) c n i, (f.proc p).pc = .wakeup c 0 .closed →
      (f.proc p).pc = .writeCopy n i → (s.proc p).pc = .writeCopy n i ∨ ¬ f.pi.full := by
    intro f c n i h h'
    rw [h] at h'
    cases h'
  unfold close
  split
  · exact { hmove .nread with
      room := fun n i => hroom _ .nread n i (by simp [State.goto, State.set]) }
  · exact { hmove .nwrite with
      room := fun n i => hroom _ .nwrite n i (by simp [State.goto, State.set]) }

/-- The process that moves. -/
def Event.pid : Event → Pid
  | .call p _ | .run p _ | .schedule p | .kill p => p

/-- What a step does to the pipe: nothing to its contents, one byte in, or one byte
out. -/
theorem step_cases (hs : step s e = some t) : (Moves s t e.pid ∧ taken s e = [] ∧ given s e = []) ∨
    (∃ n i ch, (s.proc e.pid).pc = .writeCopy n i ∧
      t = { s.goto e.pid (.writeHead n (i + 1)) with pi := s.pi.store ch } ∧
      taken s e = [(e.pid, i, ch)] ∧ given s e = []) ∨
    (∃ n i, (s.proc e.pid).pc = .readCopy n i ∧ ¬ s.pi.empty ∧
      t = { s.set e.pid { s.proc e.pid with pc := .readCopy n (i + 1), got :=
        (s.proc e.pid).got ++ [s.pi.data (s.pi.nread.toNat % PIPESIZE)] } with
        pi := s.pi.fetch } ∧
      taken s e = [] ∧ given s e = [(e.pid, s.pi.data (s.pi.nread.toNat % PIPESIZE))]) := by
  cases e with
  | call p c =>
    simp only [step] at hs
    split at hs <;> cases hs
    refine .inl ⟨moves_goto ?_ ?_ (.inr ?_), rfl, rfl⟩ <;> cases c <;>
      simp [Call.entry, Pc.holds, Pc.written]
  | schedule p =>
    simp only [step, schedule] at hs
    split at hs
    · rename_i c k hp
      split at hs <;> cases hs
      refine .inl ⟨moves_set rfl (by rintro ⟨⟩) (by simp) ?_, rfl, rfl⟩
      rw [hp]
      cases k <;> rfl
    · cases hs
  | kill p =>
    simp only [step, kkill] at hs
    split at hs <;> cases hs
    exact .inl ⟨moves_set rfl id (fun _ _ h => h) rfl, rfl, rfl⟩
  | run p inp =>
    simp only [step, run] at hs
    split at hs <;> rename_i hp
    · cases hs
    · exact .inl ⟨moves_acquire hs (by simp) (.inr rfl), by simp [taken, hp], by simp [given, hp]⟩
    · cases hs
      exact .inl ⟨moves_writeHead hp, by simp [taken, hp], by simp [given, hp]⟩
    · cases hs
      rename_i n i
      cases hcopy : inp.copyin with
      | none =>
        refine .inl ⟨moves_goto (fun _ => by rw [hp]; rfl) (by simp) (.inr rfl), ?_, ?_⟩
        · simp [taken, hcopy]
        · simp [given, hp]
      | some ch =>
        refine .inr (.inl ⟨n, i, ch, hp, rfl, ?_, ?_⟩)
        · simp [taken, hp, hcopy, Event.pid]
        · simp [given, hp]
    · exact .inl ⟨moves_acquire hs (by simp) (.inr rfl), by simp [taken, hp], by simp [given, hp]⟩
    · cases hs
      exact .inl ⟨moves_readHead hp, by simp [taken, hp], by simp [given, hp]⟩
    · cases hs
      rename_i n i
      have hgoto : ∀ c k, Moves s (s.goto p (.wakeup c 0 (.ret k))) p := fun c k =>
        moves_goto (fun _ => by rw [hp]; rfl) (by simp) (.inr rfl)
      unfold readCopy
      split
      · rename_i hmore
        split
        · rename_i hcopy
          refine .inr (.inr ⟨n, i, hp, hmore.2, rfl, by simp [taken, hp], ?_⟩)
          simp only [given, hp]
          rw [if_pos ⟨hmore, hcopy⟩]
          rfl
        · rename_i hcopy
          exact .inl ⟨hgoto _ _, by simp [taken, hp], by simp [given, hp, hcopy]⟩
      · rename_i hmore
        refine .inl ⟨hgoto _ _, by simp [taken, hp], ?_⟩
        simp only [given, hp]
        rw [if_neg fun h => hmore h.1]
    · exact .inl ⟨moves_acquire hs (by simp) (.inr rfl), by simp [taken, hp], by simp [given, hp]⟩
    · cases hs
      exact .inl ⟨moves_close hp, by simp [taken, hp], by simp [given, hp]⟩
    · exact .inl ⟨moves_sleepStep hp hs, by simp [taken, hp], by simp [given, hp]⟩
    · exact .inl ⟨moves_wakeupStep hp hs, by simp [taken, hp], by simp [given, hp]⟩

/-! ### The invariant -/

/-- The bytes on record, in order. -/
def inBytes (ws : List (Pid × Nat × UInt8)) : List UInt8 := ws.map fun w => w.2.2

/-- The bytes reader `p` got, in order. -/
def readBy (p : Pid) (rs : List (Pid × UInt8)) : List UInt8 := (rs.filter (·.1 = p)).map Prod.snd

/-- The places within its calls of the bytes writer `p` put in, in order. -/
def places (p : Pid) (ws : List (Pid × Nat × UInt8)) : List Nat :=
  (ws.filter (·.1 = p)).map fun w => w.2.1

theorem readBy_append (p q : Pid) (rs : List (Pid × UInt8)) (ch : UInt8) :
    readBy p (rs ++ [(q, ch)]) = if q = p then readBy p rs ++ [ch] else readBy p rs := by
  by_cases hq : q = p <;> simp [readBy, hq]

theorem places_append (p q : Pid) (ws : List (Pid × Nat × UInt8)) (i : Nat) (ch : UInt8) :
    places p (ws ++ [(q, i, ch)]) = if q = p then places p ws ++ [i] else places p ws := by
  by_cases hq : q = p <;> simp [places, hq]

/-- The places of a writer's bytes: those of its earlier calls, each from 0 on
without a gap, and the first `k` of the current one. -/
def InOrder (is : List Nat) (k : Nat) : Prop :=
  ∃ ks : List Nat, is = (ks.map List.range).flatten ++ List.range k

theorem InOrder.snoc {is : List Nat} {k : Nat} (h : InOrder is k) :
    InOrder (is ++ [k]) (k + 1) := by
  obtain ⟨ks, rfl⟩ := h
  exact ⟨ks, by rw [range_succ, append_assoc]⟩

/-- The call ends, with what it has written. -/
theorem InOrder.zero {is : List Nat} {k : Nat} (h : InOrder is k) : InOrder is 0 := by
  obtain ⟨ks, rfl⟩ := h
  exact ⟨ks ++ [k], by simp⟩

/-- The pipe after the bytes `ws` went in and `rs` came out. -/
structure Fifo (ws : List (Pid × Nat × UInt8)) (rs : List (Pid × UInt8)) (s : State) : Prop where
  lock : ∀ p, (s.proc p).pc.holds = true → s.pi.lock = some p
  room : ∀ p n i, (s.proc p).pc = .writeCopy n i → ¬ s.pi.full
  size : s.pi.size ≤ PIPESIZE
  contents : inBytes ws = rs.map Prod.snd ++ s.pi.buffered
  got : ∀ p, (s.proc p).got = readBy p rs
  order : ∀ p, InOrder (places p ws) (s.proc p).pc.written

theorem fifo_pipealloc (junk : Nat → UInt8) : Fifo [] [] (pipealloc junk) where
  lock := fun p h => by simp [pipealloc, idleProc, Pc.holds] at h
  room := fun p n i h => by simp [pipealloc, idleProc] at h
  size := by simp [Pipe.size, pipealloc]
  contents := by simp [inBytes, Pipe.buffered, Pipe.size, pipealloc]
  got := fun _ => rfl
  order := fun _ => ⟨[], rfl⟩

variable {ws : List (Pid × Nat × UInt8)} {rs : List (Pid × UInt8)}

/-- Only one process holds the lock. -/
theorem Fifo.alone (h : Fifo ws rs s) {q : Pid} (hp : (s.proc p).pc.holds = true) (hq : q ≠ p) :
    (s.proc q).pc.holds = false := by
  by_contra hholds
  have hlock := h.lock q (by simpa using hholds)
  rw [h.lock p hp, Option.some.injEq] at hlock
  exact hq hlock.symm

/-- A writer about to store a byte holds the lock. -/
theorem holds_of_writeCopy {n : Int} (h : pc = .writeCopy n i) : pc.holds = true := by rw [h]; rfl

theorem Fifo.moves (h : Fifo ws rs s) (hm : Moves s t p) : Fifo ws rs t := by
  obtain ⟨hsize, hbuffered⟩ := Pipe.buffered_congr hm.data hm.nread hm.nwrite
  have hfull : t.pi.full ↔ s.pi.full := by rw [Pipe.full_iff, Pipe.full_iff, hsize]
  refine ⟨fun q hq => ?_, fun q n i hq => ?_, hsize ▸ h.size, hbuffered ▸ h.contents,
    fun q => ?_, fun q => ?_⟩
  · by_cases hqp : q = p
    · subst hqp
      obtain ⟨hlock, hholds⟩ | ⟨-, hlock⟩ | ⟨-, hholds⟩ := hm.lock
      · rw [hlock]
        exact h.lock q (hholds hq)
      · exact hlock
      · rw [hholds] at hq
        cases hq
    · rw [(hm.others q hqp).1] at hq
      have hlock := h.lock q hq
      obtain ⟨hsame, -⟩ | ⟨hfree, -⟩ | ⟨hp, -⟩ := hm.lock
      · rw [hsame]
        exact hlock
      · rw [hfree] at hlock
        cases hlock
      · rw [h.alone hp hqp] at hq
        cases hq
  · by_cases hqp : q = p
    · subst hqp
      obtain hs | hroom := hm.room n i hq
      · rw [hfull]
        exact h.room q n i hs
      · exact hroom
    · rw [(hm.others q hqp).1] at hq
      rw [hfull]
      exact h.room q n i hq
  · by_cases hqp : q = p
    · subst hqp
      rw [hm.got]
      exact h.got q
    · rw [(hm.others q hqp).2]
      exact h.got q
  · by_cases hqp : q = p
    · subst hqp
      obtain hw | hw := hm.written
      · rw [hw]
        exact h.order q
      · rw [hw]
        exact (h.order q).zero
    · rw [(hm.others q hqp).1]
      exact h.order q

/-- The process that holds the lock changes the pipe and the record. -/
theorem Fifo.hold {ws' : List (Pid × Nat × UInt8)} {rs' : List (Pid × UInt8)} (h : Fifo ws rs s)
    (hp : (s.proc p).pc.holds = true) (hlock : pi.lock = s.pi.lock)
    (hpc : ∀ n i, pr.pc ≠ .writeCopy n i) (hsize : pi.size ≤ PIPESIZE)
    (hcontents : inBytes ws' = rs'.map Prod.snd ++ pi.buffered) (hgot : pr.got = readBy p rs')
    (hgot' : ∀ q, q ≠ p → readBy q rs' = readBy q rs)
    (horder : InOrder (places p ws') pr.pc.written)
    (horder' : ∀ q, q ≠ p → places q ws' = places q ws) :
    Fifo ws' rs' { s.set p pr with pi := pi } := by
  have hsame : ({ s.set p pr with pi := pi } : State).proc p = pr := update_self ..
  have hother : ∀ q, q ≠ p → ({ s.set p pr with pi := pi } : State).proc q = s.proc q :=
    fun q hq => update_of_ne hq _ _
  refine ⟨fun q hq => ?_, fun q n i hq => ?_, hsize, hcontents, fun q => ?_, fun q => ?_⟩
  all_goals by_cases hqp : q = p
  · subst hqp
    exact hlock.trans (h.lock q hp)
  · rw [hother q hqp, h.alone hp hqp] at hq
    cases hq
  · subst hqp
    rw [hsame] at hq
    exact absurd hq (hpc n i)
  · have hidle := h.alone hp hqp
    rw [hother q hqp] at hq
    rw [holds_of_writeCopy hq] at hidle
    cases hidle
  · subst hqp
    rw [hsame]
    exact hgot
  · rw [hother q hqp, hgot' q hqp]
    exact h.got q
  · subst hqp
    rw [hsame]
    exact horder
  · rw [hother q hqp, horder' q hqp]
    exact h.order q

theorem Fifo.store (h : Fifo ws rs s) {n : Int} (hp : (s.proc p).pc = .writeCopy n i) (ch : UInt8) :
    Fifo (ws ++ [(p, i, ch)]) rs { s.goto p (.writeHead n (i + 1)) with pi := s.pi.store ch } := by
  have hroom : s.pi.size < PIPESIZE := by
    have hfull := h.room p n i hp
    rw [Pipe.full_iff] at hfull
    have := h.size
    omega
  refine h.hold (holds_of_writeCopy hp) rfl nofun ?_ ?_ (h.got p) (fun _ _ => rfl) ?_ fun q hq => ?_
  · rw [Pipe.size_store hroom]
    omega
  · rw [Pipe.buffered_store hroom, ← append_assoc, ← h.contents]
    simp [inBytes]
  · have horder := h.order p
    rw [hp] at horder
    rw [places_append, if_pos rfl]
    exact horder.snoc
  · rw [places_append, if_neg (Ne.symm hq)]

theorem Fifo.fetch (h : Fifo ws rs s) {n : Int} (hp : (s.proc p).pc = .readCopy n i)
    (hmore : ¬ s.pi.empty) : Fifo ws (rs ++ [(p, s.pi.data (s.pi.nread.toNat % PIPESIZE))])
      { s.set p { s.proc p with pc := .readCopy n (i + 1), got := (s.proc p).got ++
        [s.pi.data (s.pi.nread.toNat % PIPESIZE)] } with pi := s.pi.fetch } := by
  refine h.hold (by rw [hp]; rfl) rfl nofun ?_ ?_ ?_ (fun q hq => ?_) ?_ fun _ _ => rfl
  · have hsize := Pipe.size_fetch hmore
    have := h.size
    omega
  · rw [h.contents, Pipe.buffered_fetch hmore]
    simp
  · rw [readBy_append, if_pos rfl, h.got]
  · rw [readBy_append, if_neg (Ne.symm hq)]
  · have horder := h.order p
    rwa [hp] at horder

/-- One step, with what it puts on record. -/
theorem fifo_step (h : Fifo ws rs s) (hs : step s e = some t) :
    Fifo (ws ++ taken s e) (rs ++ given s e) t := by
  obtain ⟨hm, ht, hg⟩ | ⟨n, i, ch, hp, rfl, ht, hg⟩ | ⟨n, i, hp, hmore, rfl, ht, hg⟩ :=
    step_cases hs
  · rw [ht, hg, append_nil, append_nil]
    exact h.moves hm
  · rw [ht, hg, append_nil]
    exact h.store hp ch
  · rw [ht, hg, append_nil]
    exact h.fetch hp hmore

theorem fifo_run {junk : Nat → UInt8} {es : List Event} (hrun : Run Step (pipealloc junk) es s) :
    Fifo (record step taken (pipealloc junk) es) (record step given (pipealloc junk) es) s := by
  induction hrun with
  | start => exact fifo_pipealloc junk
  | @snoc es s t e hrun hs ih =>
    rw [hrun.record_snoc, hrun.record_snoc]
    exact fifo_step ih hs

/-- A failed `copyout` leaves the pipe alone. -/
theorem copyout_fails {n : Int} {inp : Input} (hp : (s.proc p).pc = .readCopy n i)
    (hfail : inp.copyout = false) (hs : step s (.run p inp) = some t) : t.pi = s.pi := by
  simp only [step, run, hp, readCopy, hfail] at hs
  split at hs <;> cases hs <;> rfl

/-- Pipes are first in, first out: in every state of every run from a new pipe, the
bytes taken from writers, in the order in which they were buffered, are those
delivered to readers followed by those in the buffer; the buffer holds at most
`PIPESIZE` of them; each reader got what was delivered to it, and each writer's bytes
are the first ones of each of its calls in their own order; and a failed `copyout`
leaves the pipe as it is. -/
theorem pipe_fifo {junk : Nat → UInt8} {es : List Event} {s : State}
    (hrun : Run Step (pipealloc junk) es s) :
    let ws := record step taken (pipealloc junk) es
    let rs := record step given (pipealloc junk) es
    rs.map Prod.snd <+: inBytes ws ∧ inBytes ws = rs.map Prod.snd ++ s.pi.buffered ∧
    (s.pi.nwrite - s.pi.nread).toNat ≤ PIPESIZE ∧ (∀ p, (s.proc p).got = readBy p rs) ∧
    (∀ p, ∃ ks : List Nat, places p ws = (ks.map range).flatten) ∧
    ∀ p n i inp t, (s.proc p).pc = .readCopy n i → inp.copyout = false →
      Step s (.run p inp) t → t.pi = s.pi := by
  have h := fifo_run hrun
  refine ⟨⟨_, h.contents.symm⟩, h.contents, h.size, h.got, fun p => ?_, ?_⟩
  · obtain ⟨ks, hks⟩ := (h.order p).zero
    exact ⟨ks, by simpa using hks⟩
  · exact fun p n i inp t hp hfail hs => copyout_fails hp hfail hs

/-- Two writers and a reader, the reader getting one byte of two. -/
def twoWriters : List Event :=
  let go (p : Pid) (k : Nat) (ch : UInt8) : List Event := List.replicate k (.run p ⟨some ch, true⟩)
  -- pipewrite(1): lock, head, store, head, wakeup over the table, unlock
  .call 0 (.write 1) :: go 0 (4 + NPROC + 1) 7 ++
    .call 1 (.write 1) :: go 1 (4 + NPROC + 1) 9 ++
    -- piperead(2): lock, head, one byte; the second copyout fails
    .call 2 (.read 2) :: go 2 3 0 ++ [.run 2 ⟨none, false⟩]

theorem pipe_fifo_twoWriters : ∃ s, Run Step (pipealloc fun _ => 0) twoWriters s ∧
      record step given (pipealloc fun _ => 0) twoWriters = [(2, 7)] ∧ s.pi.buffered = [9] ∧
      inBytes (record step taken (pipealloc fun _ => 0) twoWriters) = [7] ++ s.pi.buffered := by
  have hrun : ((exec step (pipealloc fun _ => 0) twoWriters).map fun s => s.pi.buffered) =
      some [9] := by decide +kernel
  have hgiven : record step given (pipealloc fun _ => 0) twoWriters = [(2, 7)] := by decide +kernel
  obtain ⟨s, hs, hb⟩ := Option.map_eq_some_iff.mp hrun
  have hs : Run Step (pipealloc fun _ => 0) twoWriters s := run_of_exec hs
  have h := (pipe_fifo hs).2.1
  rw [hgiven] at h
  exact ⟨s, hs, hgiven, hb, h⟩

/-! ### One call of `piperead` -/

/-- A step of one process leaves the others where they are. -/
theorem others_step (hs : step s e = some t) : Others s t e.pid := by
  obtain ⟨hm, -⟩ | ⟨n, i, ch, -, rfl, -⟩ | ⟨n, i, -, -, rfl, -⟩ := step_cases hs
  · exact hm.others
  · exact others_set s _ _
  · exact others_set s _ _

/-- The bytes `bs` came after `g`, no more than the `n` asked for, and the call that got
them returns `r`. -/
structure ReadBytes (n : Int) (g got : List UInt8) (r : Int) (bs : List UInt8) : Prop where
  got : got = g ++ bs
  le : bs.length ≤ n.toNat
  ret : r = bs.length ∨ r = -1

/-- A call of `piperead` for `n` bytes, by a process that had got `g` before: how far
it is, or what it has returned. -/
def Reading (n : Int) (g : List UInt8) (pr : Proc) : Prop :=
  match pr.pc with
  | .readLock m | .readHead m | .sleep _ _ (.read m) => m = n ∧ pr.got = g
  | .readCopy m i => m = n ∧ ∃ bs, pr.got = g ++ bs ∧ bs.length = i ∧ i ≤ n.toNat
  | .wakeup _ _ (.ret r) => ∃ bs, ReadBytes n g pr.got r bs
  | .idle => ∃ bs, ReadBytes n g pr.got pr.ret bs
  | _ => False

variable {n : Int} {g : List UInt8}

/-- Before the end, it matters where the process is and what it has got. -/
theorem Reading.congr {pr' : Proc} (h : Reading n g pr) (hbusy : pr.pc ≠ .idle)
    (hpc : pr'.pc = pr.pc) (hgot : pr'.got = pr.got) : Reading n g pr' := by
  unfold Reading at h ⊢
  rw [hpc, hgot]
  cases hp : pr.pc with
  | idle => exact absurd hp hbusy
  | sleep c pt k | wakeup c i k =>
    rw [hp] at h
    cases k <;> exact h
  | _ =>
    rwa [hp] at h

theorem reading_acquire (hs : s.acquire p pc = some t)
    (h : Reading n g { s.proc p with pc := pc }) : Reading n g (t.proc p) := by
  unfold State.acquire at hs
  split at hs <;> cases hs
  simpa [State.goto, State.set] using h

theorem reading_finish {r : Int} (bs : List UInt8) (h : ReadBytes n g (s.proc p).got r bs) :
    Reading n g ((s.finish p r).proc p) := by
  simpa [State.finish, State.set, Reading] using ⟨bs, h⟩

theorem reading_readHead (hgot : (s.proc p).got = g) : Reading n g ((readHead s p n).proc p) := by
  unfold readHead
  split
  · split
    · refine reading_finish [] ⟨?_, Nat.zero_le _, .inr rfl⟩
      rw [hgot, append_nil]
    · simpa [State.goto, State.set, Reading] using hgot
  · simpa [State.goto, State.set, Reading] using hgot

/-- A turn of the copy loop: one more byte, or the end. -/
theorem reading_readCopy {ok : Bool} {bs : List UInt8} (hgot : (s.proc p).got = g ++ bs)
    (hlen : bs.length = i) (hi : i ≤ n.toNat) : Reading n g ((readCopy s p n i ok).proc p) := by
  -- the loop is left
  have hend : ∀ r : Int, r = bs.length ∨ r = -1 →
      Reading n g ((s.goto p (.wakeup .nwrite 0 (.ret r))).proc p) := by
    intro r hr
    have hbytes : ReadBytes n g (s.proc p).got r bs := ⟨hgot, hlen ▸ hi, hr⟩
    simpa [State.goto, State.set, Reading] using ⟨bs, hbytes⟩
  unfold readCopy
  split
  · rename_i hmore
    split
    · simp only [State.set, update_self, Reading]
      refine ⟨trivial, bs ++ [_], by rw [hgot, append_assoc], ?_, ?_⟩
      · rw [length_append, hlen, length_singleton]
      · omega
    · refine hend _ ?_
      split
      · exact .inr rfl
      · exact .inl (by rw [hlen])
  · exact hend _ (.inl (by rw [hlen]))

theorem reading_sleepStep {pt : SleepPc} (hgot : (s.proc p).got = g)
    (hs : sleepStep s p c (.read n) pt = some t) : Reading n g (t.proc p) := by
  cases pt with
  | asleep => cases hs
  | relock => exact reading_acquire hs ⟨rfl, hgot⟩
  | _ =>
    cases hs
    simpa [State.goto, State.set, Reading] using hgot

theorem reading_wakeupStep {r : Int} {bs : List UInt8} (h : ReadBytes n g (s.proc p).got r bs)
    (hs : wakeupStep s p c i (.ret r) = some t) : Reading n g (t.proc p) := by
  unfold wakeupStep at hs
  split at hs
  · have hnext : ∀ s' : State, (s'.proc p).got = (s.proc p).got →
        Reading n g ((s'.goto p (.wakeup c (i + 1) (.ret r))).proc p) := by
      intro s' hgot
      simp only [State.goto, State.set, update_self, Reading, hgot]
      exact ⟨bs, h⟩
    simp only at hs
    split at hs
    · cases hs
      exact hnext s rfl
    rename_i hq
    split at hs
    · cases hs
    split at hs <;> cases hs
    · exact hnext _ (others_set s _ _ p (Ne.symm hq)).2
    · exact hnext s rfl
  · cases hs
    exact reading_finish bs h

/-- One step of anybody, while the call lasts. -/
theorem reading_step (h : Reading n g (s.proc p)) (hbusy : (s.proc p).pc ≠ .idle)
    (hs : step s e = some t) : Reading n g (t.proc p) := by
  by_cases hp : p = e.pid
  · subst hp
    cases e with
    | call q c =>
      simp only [step, Event.pid] at hs hbusy
      rw [if_neg hbusy] at hs
      cases hs
    | schedule q =>
      simp only [step, schedule, Event.pid] at hs h ⊢
      split at hs
      · rename_i c k hpc
        split at hs <;> cases hs
        simp only [State.set, update_self]
        unfold Reading at h ⊢
        rw [hpc] at h
        cases k with
        | write m i | read m => exact h
      · cases hs
    | kill q =>
      simp only [step, kkill, Event.pid] at hs h hbusy ⊢
      split at hs <;> cases hs
      refine h.congr hbusy ?_ ?_ <;> simp [State.set]
    | run q inp =>
      simp only [step, run, Event.pid] at hs h ⊢
      unfold Reading at h
      split at hs <;> rename_i hpc <;> rw [hpc] at h
      · cases hs
      · exact h.elim
      · exact h.elim
      · exact h.elim
      · obtain ⟨rfl, hgot⟩ := h
        exact reading_acquire hs ⟨rfl, hgot⟩
      · obtain ⟨rfl, hgot⟩ := h
        cases hs
        exact reading_readHead hgot
      · obtain ⟨rfl, bs, hgot, hlen, hi⟩ := h
        cases hs
        exact reading_readCopy hgot hlen hi
      · exact h.elim
      · exact h.elim
      · rename_i c pt k
        cases k with
        | write m i => exact h.elim
        | read m =>
          obtain ⟨rfl, hgot⟩ := h
          exact reading_sleepStep hgot hs
      · rename_i c i k
        cases k with
        | full m j | closed => exact h.elim
        | ret r =>
          obtain ⟨bs, h⟩ := h
          exact reading_wakeupStep h hs
  · obtain ⟨hpc, hgot⟩ := others_step hs p hp
    exact h.congr hbusy hpc hgot

/-- Process `p` is in a call. -/
def Busy (p : Pid) (s : State) (_ : Event) : Prop := (s.proc p).pc ≠ .idle

/-- **A read gets what it asks for, at most**, whatever others do meanwhile, and returns
how much that was or -1. -/
theorem read_bytes {es : List Event} (hcall : (s.proc p).pc = .readLock n)
    (hrun : Run (Restrict (Busy p) Step) s es t) (hret : (t.proc p).pc = .idle) :
    ∃ bs, ReadBytes n (s.proc p).got (t.proc p).got (t.proc p).ret bs := by
  have hstart : Reading n (s.proc p).got (s.proc p) := by
    rw [Reading, hcall]
    exact ⟨rfl, rfl⟩
  have h := hrun.invariant hstart
    fun _ _ _ h hs => reading_step h hs.1 hs.2
  rwa [Reading, hret] at h

end Xv6.Pipes
