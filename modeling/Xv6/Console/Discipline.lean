import Xv6.Console.Model
import Xv6.Lib.Wrapped

/-!
# xv6 — the line discipline of the console

What the console is for: typed bytes are edited a line at a time, and a line is
committed as a whole by a newline, by control-D or when the buffer is full. Readers
consume the committed bytes.

* `Line`, `Line.input`          — this purpose, over two lists: the committed bytes
  not yet consumed, and the line being edited.
* `Cons.view`, `view_consoleintr` — the circular buffer with its three wrapping
  indices is such a pair of lists, and the handler does to it what `Line.input` says.
* `Counting`                    — the count of a read in progress.
* `Disciplined`, `Disciplined.turn` — the invariant of the machine: what was committed is
  what readers were shown followed by what they can still read.
* `line_discipline`             — the result.
* `read_bytes`                  — how much one call of `consoleread` gets.
-/

namespace Xv6.Console

open TransitionRun WrappedRing List
open Function (update_idem update_of_ne update_self)

variable {v : Int32} {pc : Pc} {r : State × List Out} {q : Pid} {e : Event}

/-! ### The purpose -/

/-- The committed bytes no reader has consumed, and the line being edited. -/
structure Line where
  queue : List UInt8
  line : List UInt8
  deriving DecidableEq

/-- A carriage return counts as a newline. -/
def cooked (c : UInt8) : UInt8 := if c = RETURN then NEWLINE else c

/-- How many bytes are held. -/
def Line.size (d : Line) : Nat := d.queue.length + d.line.length

/-- The byte `c` ends the line it is put on. -/
def Line.Ends (d : Line) (c : UInt8) : Prop :=
  cooked c = NEWLINE ∨ cooked c = C 'D' ∨ d.size + 1 = INPUT_BUF_SIZE

instance (d : Line) (c : UInt8) : Decidable (d.Ends c) := inferInstanceAs (Decidable (_ ∨ _ ∨ _))

/-- What typing `c` does, and the bytes it commits: control-P nothing, control-U
drops the line, control-H and delete drop its last byte, anything else is put on the
line if it is no NUL and there is room. -/
def Line.input (d : Line) (c : UInt8) : Line × List UInt8 :=
  if c = C 'P' then (d, [])
  else if c = C 'U' then ({ d with line := [] }, [])
  else if c = C 'H' ∨ c = DEL then ({ d with line := d.line.dropLast }, [])
  else if c ≠ 0 ∧ d.size < INPUT_BUF_SIZE then
    let line := d.line ++ [cooked c]
    if d.Ends c then (⟨d.queue ++ line, []⟩, line) else ({ d with line := line }, [])
  else (d, [])

/-- Typing never takes a committed byte back. -/
theorem queue_input (d : Line) (c : UInt8) : (d.input c).1.queue = d.queue ++ (d.input c).2 := by
  unfold Line.input
  split_ifs <;> simp

/-! ### The circular buffer -/

/-- What the buffer holds. -/
def Cons.view (k : Cons) : Line where
  queue := window INPUT_BUF_SIZE k.buf k.r k.w
  line := window INPUT_BUF_SIZE k.buf k.w k.e

/-- The indices are in order, and a line being edited has not been ended. -/
structure Cons.Ok (k : Cons) : Prop where
  room : dist k.r k.w + dist k.w k.e ≤ INPUT_BUF_SIZE
  line : NEWLINE ∉ k.view.line

theorem size_dvd : INPUT_BUF_SIZE ∣ 2 ^ 32 := by decide

variable {k : Cons}

theorem Cons.Ok.dist_eq (h : k.Ok) : dist k.r k.e = dist k.r k.w + dist k.w k.e := by
  have hroom := h.room
  unfold INPUT_BUF_SIZE at hroom
  exact dist_add (by omega)

theorem Cons.size_view (k : Cons) : k.view.size = dist k.r k.w + dist k.w k.e := by
  simp [Line.size, Cons.view]

theorem Cons.Ok.size (h : k.Ok) : k.view.size = (k.e - k.r).toNat := by
  rw [k.size_view, ← h.dist_eq]
  rfl

/-- Taking the last byte off the line. -/
theorem view_back (h : k.e ≠ k.w) : k.view.line = ({ k with e := k.e - 1 } : Cons).view.line ++
      [k.buf ((k.e - 1).toNat % INPUT_BUF_SIZE)] :=
  window_pred size_dvd (Ne.symm h)

theorem view_back_dropLast : (if k.e ≠ k.w then { k with e := k.e - 1 } else k).view =
      { k.view with line := k.view.line.dropLast } := by
  split
  · rename_i he
    rw [view_back he, dropLast_concat]
    rfl
  · rename_i he
    have he : k.e = k.w := not_not.mp he
    simp [Cons.view, he]

/-- The edit index moves towards the write index. -/
theorem Cons.Ok.back (h : k.Ok) (he : k.e ≠ k.w) : ({ k with e := k.e - 1 } : Cons).Ok := by
  refine ⟨?_, fun hmem => h.line ?_⟩
  · have hdist := dist_sub_one (Ne.symm he)
    have hroom := h.room
    show dist k.r k.w + dist k.w (k.e - 1) ≤ _
    omega
  · rw [view_back he]
    exact mem_append_left _ hmem

theorem killLine_spec (h : k.Ok) {turns : Nat} (hturns : dist k.w k.e = turns) :
    (killLine turns k).view = { k.view with line := [] } ∧ (killLine turns k).Ok := by
  induction turns generalizing k with
  | zero =>
    have he := dist_eq_zero_iff.mp hturns
    refine ⟨?_, h⟩
    simp [killLine, Cons.view, ← he]
  | succ turns ih =>
    have he : k.e ≠ k.w := by
      intro heq
      rw [heq, dist_self] at hturns
      cases hturns
    -- no byte of the line is a newline, so the loop goes on
    have hbyte : k.buf ((k.e - 1).toNat % INPUT_BUF_SIZE) ≠ NEWLINE := by
      intro heq
      refine h.line ?_
      rw [view_back he, heq]
      simp
    rw [killLine, if_pos ⟨he, hbyte⟩]
    have hdist := dist_sub_one (Ne.symm he)
    exact ih (h.back he) (by show dist k.w (k.e - 1) = turns; omega)

section Store

variable (h : k.Ok) (hroom : k.view.size < INPUT_BUF_SIZE) (c : UInt8)

include h hroom

theorem view_store : (k.store c).view = { k.view with line := k.view.line ++ [c] } := by
  have hdist := k.size_view
  have hlt : dist k.w k.e < INPUT_BUF_SIZE := by omega
  have hline : (k.store c).view.line = k.view.line ++ [c] := by
    show window _ (k.store c).buf k.w (k.e + 1) = _
    rw [window_snoc size_dvd (by unfold INPUT_BUF_SIZE at hlt; omega), Cons.store,
      window_update size_dvd hlt]
    exact congrArg (_ ++ [·]) (update_self ..)
  have hall : window INPUT_BUF_SIZE (k.store c).buf k.r k.e =
      window INPUT_BUF_SIZE k.buf k.r k.e :=
    window_update size_dvd (by rw [h.dist_eq]; omega) c
  have hsmall : dist k.r k.w + dist k.w k.e < 2 ^ 32 := by
    unfold INPUT_BUF_SIZE at hroom
    omega
  rw [window_append size_dvd hsmall, window_append size_dvd hsmall] at hall
  have hqueue : (k.store c).view.queue = k.view.queue :=
    (append_inj hall (by rw [length_window, length_window])).1
  exact congrArg₂ Line.mk hqueue hline

omit h in
theorem dist_store : dist k.w (k.store c).e = dist k.w k.e + 1 := by
  have hdist := k.size_view
  unfold INPUT_BUF_SIZE at hroom
  exact dist_add_one (by omega)

theorem size_store : ((k.store c).e - k.r).toNat = k.view.size + 1 := by
  have hsize := h.size
  rw [hsize] at hroom ⊢
  have hdist : dist k.r k.e < 128 := hroom
  exact dist_add_one (by omega)

/-- The line goes on. -/
theorem Cons.Ok.store (hc : c ≠ NEWLINE) : (k.store c).Ok := by
  refine ⟨?_, ?_⟩
  · show dist k.r k.w + dist k.w (k.store c).e ≤ _
    have hsize := k.size_view
    rw [dist_store hroom]
    omega
  · rw [view_store h hroom]
    simpa using ⟨h.line, Ne.symm hc⟩

/-- The line is committed. -/
theorem Cons.Ok.commit : ({ k.store c with w := (k.store c).e } : Cons).Ok ∧
    ({ k.store c with w := (k.store c).e } : Cons).view =
      ⟨k.view.queue ++ (k.view.line ++ [c]), []⟩ := by
  have hsize := k.size_view
  have hstore := view_store h hroom c
  have hdist := dist_store hroom c
  have hsmall : dist k.r k.w + dist k.w (k.store c).e < 2 ^ 32 := by
    unfold INPUT_BUF_SIZE at hroom
    omega
  have hnil : ({ k.store c with w := (k.store c).e } : Cons).view.line = [] := window_self
  refine ⟨⟨?_, ?_⟩, ?_⟩
  · show dist k.r (k.store c).e + dist (k.store c).e (k.store c).e ≤ _
    rw [dist_self, dist_add hsmall]
    omega
  · rw [hnil]
    exact not_mem_nil
  · have hqueue : ({ k.store c with w := (k.store c).e } : Cons).view.queue =
        (k.store c).view.queue ++ (k.store c).view.line := window_append size_dvd hsmall
    rw [hstore] at hqueue
    exact congrArg₂ Line.mk hqueue hnil

end Store

/-- The handler does what the line discipline says. -/
theorem view_consoleintr (h : k.Ok) (c : UInt8) :
    (consoleintr k c).1.view = (k.view.input c).1 ∧ (consoleintr k c).1.Ok := by
  unfold consoleintr Line.input
  by_cases hP : c = C 'P'
  · rw [if_pos hP, if_pos hP]
    exact ⟨rfl, h⟩
  rw [if_neg hP, if_neg hP]
  by_cases hU : c = C 'U'
  · rw [if_pos hU, if_pos hU]
    exact killLine_spec h rfl
  rw [if_neg hU, if_neg hU]
  by_cases hH : c = C 'H' ∨ c = DEL
  · rw [if_pos hH, if_pos hH]
    refine ⟨view_back_dropLast, ?_⟩
    by_cases he : k.e ≠ k.w
    · simp only [if_pos he]
      exact h.back he
    · simp only [if_neg he]
      exact h
  rw [if_neg hH, if_neg hH, ← h.size]
  by_cases hroom : c ≠ 0 ∧ k.view.size < INPUT_BUF_SIZE
  · rw [if_pos hroom, if_pos hroom, show (if c = RETURN then NEWLINE else c) = cooked c from rfl,
      append]
    have hends : (cooked c = NEWLINE ∨ cooked c = C 'D' ∨
        ((k.store (cooked c)).e - (k.store (cooked c)).r).toNat = INPUT_BUF_SIZE) ↔
        k.view.Ends c := by
      rw [show (k.store (cooked c)).r = k.r from rfl, size_store h hroom.2]
      rfl
    by_cases hend : k.view.Ends c
    · rw [if_pos (hends.mpr hend), if_pos hend]
      obtain ⟨hok, hview⟩ := h.commit hroom.2 (cooked c)
      exact ⟨hview, hok⟩
    · rw [if_neg (hends.not.mpr hend), if_neg hend]
      exact ⟨view_store h hroom.2 _, h.store hroom.2 _ fun hc => hend (.inl hc)⟩
  · rw [if_neg hroom, if_neg hroom]
    exact ⟨rfl, h⟩

/-- A reader takes a byte out. -/
theorem view_fetch (h : k.Ok) (hr : k.r ≠ k.w) :
    k.view.queue = k.buf (k.r.toNat % INPUT_BUF_SIZE) ::
        ({ k with r := k.r + 1 } : Cons).view.queue ∧ ({ k with r := k.r + 1 } : Cons).Ok := by
  refine ⟨window_cons size_dvd hr, ?_, h.line⟩
  have hdist := dist_succ_left hr
  have hroom := h.room
  show dist (k.r + 1) k.w + dist k.w k.e ≤ _
  omega

/-! ### Counting down -/

/-- A read of `target` bytes has got `got` of them and `n` are left. -/
structure Counting (target : UInt32) (n : Int32) (got : Nat) : Prop where
  left : 0 ≤ n.toInt
  sum : n.toInt + got = target.toNat
  pos : 0 < target.toNat
  small : target.toNat < 2147483648

theorem toInt_eq (n : Int32) : n.toInt = if n.toUInt32.toNat < 2147483648 then
    (n.toUInt32.toNat : Int) else n.toUInt32.toNat - 4294967296 := by
  have h := BitVec.toInt_eq_toNat_cond n.toBitVec
  rw [← Int32.toInt_toBitVec]
  show _ = if n.toBitVec.toNat < _ then (n.toBitVec.toNat : Int) else n.toBitVec.toNat - _
  split_ifs <;> omega

theorem toInt_pos {n : Int32} : 0 < n ↔ 0 < n.toInt := Int32.lt_iff_toInt_lt

variable {target : UInt32} {n : Int32} {got : Nat}

theorem Counting.start (hn : 0 < n) : Counting n.toUInt32 n 0 := by
  have hpos := toInt_pos.mp hn
  have heq := toInt_eq n
  have hlt := n.toUInt32.toNat_lt
  split_ifs at heq with hsmall
  · exact ⟨by omega, by omega, by omega, hsmall⟩
  · omega

theorem Counting.toNat_left (h : Counting target n got) :
    n.toUInt32.toNat + got = target.toNat := by
  have hleft := h.left
  have hsum := h.sum
  have heq := toInt_eq n
  have hlt := n.toUInt32.toNat_lt
  split_ifs at heq <;> omega

/-- What the call would return now. -/
theorem Counting.answer (h : Counting target n got) : (answer target n).toInt = got := by
  have hsum := h.toNat_left
  have hsmall := h.small
  have hsub : (target - n.toUInt32).toNat = got := by
    rw [UInt32.toNat_sub]
    omega
  rw [Console.answer, toInt_eq, UInt32.toUInt32_toInt32, hsub, if_pos (by omega)]

theorem Counting.lt_iff (h : Counting target n got) : n.toUInt32 < target ↔ 0 < got := by
  have hsum := h.toNat_left
  rw [UInt32.lt_iff_toNat_lt]
  omega

theorem Counting.next (h : Counting target n got) (hn : 0 < n) :
    Counting target (n - 1) (got + 1) := by
  have hpos := toInt_pos.mp hn
  have hsum := h.sum
  have hsmall := h.small
  have hsub : (n - 1).toInt = n.toInt - 1 := by
    rw [Int32.toInt_sub, Int32.toInt_one, Int.bmod_eq_of_le (by omega) (by omega)]
  exact ⟨by omega, by omega, h.pos, hsmall⟩

/-- A reader's count agrees with the bytes in its buffer. -/
def Proc.Ok (pr : Proc) : Prop :=
  match pr.pc with
  | .idle => pr.dst = []
  | .enter n => 0 < n ∧ pr.dst = []
  | .loop target n | .asleep target n | .woken target n => Counting target n pr.dst.length

/-! ### What readers are shown -/

/-- The process an entry is about. -/
def Out.pid : Out → Pid
  | .byte p _ | .ret p _ _ => p

/-- What an entry takes from the committed bytes: a byte that is delivered, and a ^D
for a read that returns 0. -/
def Out.taken : Out → List UInt8
  | .byte _ b => [b]
  | .ret _ v _ => if v = 0 then [C 'D'] else []

/-- The bytes delivered to `p`. -/
def Out.delivered (p : Pid) : Out → List UInt8
  | .byte q b => if q = p then [b] else []
  | .ret _ _ _ => []

/-- The bytes a finished read of `p` leaves in its buffer. -/
def Out.returned (p : Pid) : Out → List UInt8
  | .byte _ _ => []
  | .ret q _ bs => if q = p then bs else []

/-- No ^D is delivered, and a read returns the number of bytes it got, or -1. -/
def Out.Proper : Out → Prop
  | .byte _ b => b ≠ C 'D'
  | .ret _ v bs => v = -1 ∨ v.toInt = bs.length

theorem delivered_of_ne {p : Pid} {o : Out} (h : o.pid ≠ p) :
    o.delivered p = [] ∧ o.returned p = [] := by
  cases o <;> exact ⟨by simp_all [Out.delivered, Out.pid], by simp_all [Out.returned, Out.pid]⟩

/-! ### The invariant -/

/-- The console after the bytes `cs` were committed and readers were shown `os`. -/
structure Disciplined (cs : List UInt8) (os : List Out) (s : State) : Prop where
  cons : s.cons.Ok
  stream : cs = os.flatMap Out.taken ++ s.cons.view.queue
  proper : ∀ o ∈ os, o.Proper
  buffers : ∀ p, os.flatMap (Out.delivered p) = os.flatMap (Out.returned p) ++ (s.proc p).dst
  procs : ∀ p, (s.proc p).Ok

variable {cs cs' : List UInt8} {os os' : List Out} {s t : State} {p : Pid} {pr : Proc}

theorem disciplined_initial (junk : Nat → UInt8) (i : BitVec 32) :
    Disciplined [] [] (initial junk i) where
  cons := by
    refine ⟨?_, ?_⟩
    · simp [initial]
    · simp [initial, Cons.view]
  stream := by simp [initial, Cons.view]
  proper := by simp
  buffers := fun _ => rfl
  procs := fun _ => rfl

/-- One process moves, readers are shown `os'` about it, and `cs'` is committed. -/
theorem Disciplined.update (h : Disciplined cs os s) (hcons : k.Ok)
    (hstream : s.cons.view.queue ++ cs' = os'.flatMap Out.taken ++ k.view.queue)
    (hproper : ∀ o ∈ os', o.pid = p ∧ o.Proper)
    (hbuffer : (s.proc p).dst ++ os'.flatMap (Out.delivered p) =
      os'.flatMap (Out.returned p) ++ pr.dst)
    (hproc : pr.Ok) : Disciplined (cs ++ cs') (os ++ os') { s.set p pr with cons := k } := by
  have hself : ({ s.set p pr with cons := k } : State).proc p = pr := update_self ..
  have hother : ∀ q, q ≠ p → ({ s.set p pr with cons := k } : State).proc q = s.proc q :=
    fun q hq => update_of_ne hq _ _
  refine ⟨hcons, ?_, ?_, fun q => ?_, fun q => ?_⟩
  · rw [h.stream, append_assoc, hstream, flatMap_append, append_assoc]
  · intro o ho
    obtain ho | ho := mem_append.mp ho
    · exact h.proper o ho
    · exact (hproper o ho).2
  · rw [flatMap_append, flatMap_append, h.buffers q]
    by_cases hq : q = p
    · subst hq
      rw [hself, append_assoc, hbuffer, append_assoc]
    · have hne : ∀ o ∈ os', o.delivered q = [] ∧ o.returned q = [] := fun o ho =>
        delivered_of_ne (by rw [(hproper o ho).1]; exact Ne.symm hq)
      rw [hother q hq, flatMap_eq_nil_iff.mpr fun o ho => (hne o ho).1,
        flatMap_eq_nil_iff.mpr fun o ho => (hne o ho).2, append_nil, append_nil]
  · by_cases hq : q = p
    · subst hq
      rw [hself]
      exact hproc
    · rw [hother q hq]
      exact h.procs q

/-- The lock does not matter. -/
theorem Cons.Ok.relock (h : k.Ok) (lock : Option Pid) : ({ k with lock := lock } : Cons).Ok :=
  ⟨h.room, h.line⟩

/-- The call of `p` returns `v`, and takes a ^D if that is 0. -/
theorem Disciplined.finish (h : Disciplined cs os s) (hcons : k.Ok)
    (hstream : s.cons.view.queue = (if v = 0 then [C 'D'] else []) ++ k.view.queue)
    (hproper : v = -1 ∨ v.toInt = (s.proc p).dst.length) :
    Disciplined cs (os ++ [.ret p v (s.proc p).dst])
      { s.set p { s.proc p with pc := .idle, dst := [] } with
        cons := { k with lock := none } } := by
  rw [← append_nil cs]
  refine h.update (hcons.relock none) ?_ ?_ ?_ rfl
  · rw [append_nil, flatMap_singleton]
    exact hstream
  · simpa [Out.pid, Out.Proper] using hproper
  · simp [Out.delivered, Out.returned]

/-- The reader `p` only changes where it is. -/
theorem Disciplined.goto (h : Disciplined cs os s) {killed : Bool} {lock : Option Pid}
    (hproc : Proc.Ok ⟨pc, killed, (s.proc p).dst⟩) :
    Disciplined cs os { s.set p ⟨pc, killed, (s.proc p).dst⟩ with
      cons := { s.cons with lock := lock } } := by
  have hupd : Disciplined (cs ++ []) (os ++ []) { s.set p ⟨pc, killed, (s.proc p).dst⟩ with
      cons := { s.cons with lock := lock } } :=
    h.update (h.cons.relock lock) (append_nil _) (by simp) (append_nil _) hproc
  rwa [append_nil, append_nil] at hupd

/-- The reader `p` is handed the byte `c`, and perhaps returns. -/
theorem Disciplined.byte (h : Disciplined cs os s) (hr : s.cons.r ≠ s.cons.w) {c : UInt8}
    (hbuf : s.cons.buf (s.cons.r.toNat % INPUT_BUF_SIZE) = c) (hc : c ≠ C 'D')
    {lock : Option Pid} (hnone : os'.flatMap Out.taken = [])
    (hproper : ∀ o ∈ os', o.pid = p ∧ o.Proper)
    (hbuffer : (s.proc p).dst ++ ([c] ++ os'.flatMap (Out.delivered p)) =
      os'.flatMap (Out.returned p) ++ pr.dst) (hproc : pr.Ok) :
    Disciplined cs (os ++ .byte p c :: os')
      { s.set p pr with cons := { s.cons with r := s.cons.r + 1, lock := lock } } := by
  obtain ⟨hqueue, hok⟩ := view_fetch h.cons hr
  rw [hbuf] at hqueue
  rw [← append_nil cs]
  refine h.update (hok.relock lock) ?_ ?_ ?_ hproc
  · rw [hqueue, flatMap_cons, hnone, append_nil]
    rfl
  · intro o ho
    obtain rfl | ho := mem_cons.mp ho
    · exact ⟨rfl, hc⟩
    · exact hproper o ho
  · rw [flatMap_cons, Out.delivered, if_pos rfl, hbuffer]
    rfl

/-- One turn of a reader's loop, copying out when it has to. -/
theorem Disciplined.turn (h : Disciplined cs os s) (hp : (s.proc p).pc = .loop target n) :
    Disciplined cs (os ++ (readTurn s p target n true).2) (readTurn s p target n true).1 := by
  have hcount : Counting target n (s.proc p).dst.length := by
    have hproc := h.procs p
    rwa [Proc.Ok, hp] at hproc
  have hanswer := hcount.answer
  -- a read that has got bytes takes no ^D when it returns
  have hsome : ∀ v : Int32, 0 < v.toInt → s.cons.view.queue =
      (if v = 0 then [C 'D'] else []) ++ s.cons.view.queue := by
    intro v hv
    rw [if_neg (by rintro rfl; simp at hv), nil_append]
  unfold readTurn
  split
  · rename_i hn
    split
    · split
      · exact h.finish h.cons rfl (.inl rfl)
      · rw [append_nil]
        exact h.goto hcount
    · rename_i hr
      obtain ⟨hqueue, hok⟩ := view_fetch h.cons hr
      by_cases hc : s.cons.buf (s.cons.r.toNat % INPUT_BUF_SIZE) = C 'D'
      · simp only [if_pos hc]
        by_cases hlt : n.toUInt32 < target
        · rw [if_pos hlt]
          have hgot := hcount.lt_iff.mp hlt
          exact h.finish h.cons (hsome _ (by omega)) (.inr hanswer)
        · rw [if_neg hlt]
          have hgot := hcount.lt_iff.not.mp hlt
          have hzero : answer target n = 0 := by
            rw [← Int32.toInt_inj, hanswer, Nat.eq_zero_of_not_pos hgot]
            rfl
          refine h.finish hok ?_ (.inr hanswer)
          rw [hqueue, hc, if_pos hzero]
          rfl
      · simp only [if_neg hc, if_true]
        have hnext := hcount.next hn
        split
        · -- a newline ends the read
          have hgot : (answer target (n - 1)).toInt = ((s.proc p).dst ++
              [s.cons.buf (s.cons.r.toNat % INPUT_BUF_SIZE)]).length := by
            rw [hnext.answer, length_append, length_singleton]
          have hne : answer target (n - 1) ≠ 0 := by
            intro hzero
            rw [hzero, length_append, length_singleton, Int32.toInt_zero] at hgot
            omega
          rw [State.finish]
          simp only [State.set, update_self, update_idem]
          refine h.byte hr rfl hc ?_ ?_ ?_ rfl
          · simp [Out.taken, hne]
          · exact forall_mem_singleton.mpr ⟨rfl, .inr hgot⟩
          · simp [Out.delivered, Out.returned]
        · simp only [State.goto, State.set, update_self, update_idem]
          refine h.byte hr rfl hc rfl (by simp) (by simp) ?_
          rw [Proc.Ok, length_append]
          exact hnext
  · rename_i hn
    have hpos := hcount.pos
    have hsum := hcount.sum
    have hleft := toInt_pos.not.mp hn
    exact h.finish h.cons (hsome _ (by omega)) (.inr hanswer)

/-! ### Whole runs -/

/-- The bytes an event commits, by the line discipline. -/
def committed (s : State) : Event → List UInt8
  | .intr c => (s.cons.view.input c).2
  | _ => []

/-- Readers ask for a positive number of bytes and have accessible buffers. -/
def Sane (_ : State) : Event → Prop
  | .call _ n => 0 < n
  | .run _ copyout => copyout = true
  | _ => True

instance (s : State) (e : Event) : Decidable (Sane s e) :=
  match e with
  | .call _ n => inferInstanceAs (Decidable (0 < n))
  | .run _ copyout => inferInstanceAs (Decidable (copyout = true))
  | .intr _ => inferInstanceAs (Decidable True)
  | .kill _ => inferInstanceAs (Decidable True)

/-- Waking readers up leaves their buffers and counts alone. -/
theorem wakeup_proc (s : State) (p : Pid) :
    (s.wakeup.proc p).dst = (s.proc p).dst ∧ ((s.proc p).Ok → (s.wakeup.proc p).Ok) := by
  simp only [State.wakeup]
  split
  · rename_i target n hp
    refine ⟨rfl, fun hok => ?_⟩
    rwa [Proc.Ok, hp] at hok
  · exact ⟨rfl, id⟩

theorem Disciplined.wakeup (h : Disciplined cs os s) : Disciplined cs os s.wakeup where
  cons := h.cons
  stream := h.stream
  proper := h.proper
  buffers := fun p => by rw [(wakeup_proc s p).1, h.buffers p]
  procs := fun p => (wakeup_proc s p).2 (h.procs p)

/-- A byte is typed. -/
theorem Disciplined.intr (h : Disciplined cs os s) (c : UInt8) :
    Disciplined (cs ++ (s.cons.view.input c).2) os { s with cons := (consoleintr s.cons c).1 } := by
  obtain ⟨hview, hok⟩ := view_consoleintr h.cons c
  refine ⟨hok, ?_, h.proper, h.buffers, h.procs⟩
  rw [h.stream, hview, queue_input, append_assoc]

theorem Disciplined.acquire (h : Disciplined cs os s) (hacq : s.acquire p pc = some r)
    (hproc : Proc.Ok { s.proc p with pc := pc }) : Disciplined cs (os ++ r.2) r.1 := by
  unfold State.acquire at hacq
  split at hacq <;> cases hacq
  rw [append_nil]
  exact h.goto hproc

theorem Disciplined.kill (h : Disciplined cs os s) (p : Pid) : Disciplined cs os (kill s p) := by
  have hproc := h.procs p
  rw [Proc.Ok] at hproc
  unfold Console.kill
  split
  · rename_i target n hp
    rw [hp] at hproc
    exact h.goto hproc
  · exact h.goto hproc

theorem disciplined_step (h : Disciplined cs os s) (hsane : Sane s e) (hs : step s e = some t) :
    Disciplined (cs ++ committed s e) (os ++ shown s e) t := by
  obtain ⟨⟨t, out⟩, hr, rfl⟩ := Option.map_eq_some_iff.mp hs
  rw [shown, hr]
  show Disciplined _ (os ++ out) t
  cases e with
  | intr c =>
    simp only [react] at hr
    split at hr <;> cases hr
    rw [append_nil]
    split
    · exact (h.intr c).wakeup
    · exact h.intr c
  | call p n =>
    simp only [react] at hr
    split at hr <;> cases hr
    rename_i hp
    have hidle := h.procs p
    rw [Proc.Ok, hp] at hidle
    simp only [committed, append_nil]
    rw [← hidle]
    exact h.goto ⟨hsane, hidle⟩
  | run p copyout =>
    cases show copyout = true from hsane
    have hproc := h.procs p
    simp only [committed, append_nil]
    simp only [react] at hr
    split at hr <;> rename_i hp
    · cases hr
    · cases hr
    · rw [Proc.Ok, hp] at hproc
      refine h.acquire hr ?_
      rw [Proc.Ok, hproc.2]
      exact .start hproc.1
    · rw [Proc.Ok, hp] at hproc
      exact h.acquire hr hproc
    · have hturn := h.turn hp
      rwa [Option.some.inj hr] at hturn
  | kill p =>
    cases hr
    simp only [committed, append_nil]
    exact h.kill p

theorem disciplined_run {junk : Nat → UInt8} {i : BitVec 32} {es : List Event}
    (hrun : Run (Restrict Sane fun s e t => step s e = some t) (initial junk i) es s) :
    Disciplined (record step committed (initial junk i) es) (record step shown (initial junk i) es)
      s := by
  induction hrun with
  | start => exact disciplined_initial junk i
  | snoc hrun hs ih =>
    rw [hrun.of_restrict.record_snoc, hrun.of_restrict.record_snoc]
    exact disciplined_step ih hs.1 hs.2

/-- A read returns 0 bytes. -/
def Out.isEof : Out → Bool
  | .byte _ _ => false
  | .ret _ v _ => decide (v = 0)

/-- Each ^D that is taken made one read return 0. -/
theorem count_taken (hproper : ∀ o ∈ os, o.Proper) :
    (os.flatMap Out.taken).count (C 'D') = os.countP Out.isEof := by
  induction os with
  | nil => rfl
  | cons o os ih =>
    obtain ⟨ho, hos⟩ := forall_mem_cons.mp hproper
    rw [flatMap_cons, count_append, ih hos, countP_cons, Nat.add_comm]
    congr 1
    cases o with
    | byte p b => exact count_eq_zero.mpr fun hmem => ho (mem_singleton.mp hmem).symm
    | ret p v bs =>
      by_cases hv : v = 0 <;> simp [Out.taken, Out.isEof, hv]

/-- The line discipline of the console, in every state of every run: the indices are
in order and at most the size of the buffer apart, however often they have wrapped; a
typed byte does to the buffer what `Line.input` says and takes back no committed byte;
what was committed is, in order and once each, what readers have taken (delivered
bytes, and one ^D for each read that returned 0) followed by what they can still
read; no ^D is delivered; a read that is not killed returns the number of bytes it was
handed; and the bytes handed to a process are those of its finished reads and of the
current one. -/
theorem line_discipline {junk : Nat → UInt8} {i : BitVec 32} {es : List Event} {s : State}
    (hrun : Run (Restrict Sane fun s e t => step s e = some t) (initial junk i) es s) :
    let cs := record step committed (initial junk i) es
    let os := record step shown (initial junk i) es
    (dist s.cons.r s.cons.w ≤ dist s.cons.r s.cons.e ∧ dist s.cons.r s.cons.e ≤ INPUT_BUF_SIZE) ∧
    (∀ c t, step s (.intr c) = some t → t.cons.view = (s.cons.view.input c).1 ∧
      s.cons.view.queue <+: t.cons.view.queue) ∧ cs = os.flatMap Out.taken ++ s.cons.view.queue ∧
    (os.flatMap Out.taken).count (C 'D') = os.countP Out.isEof ∧ (∀ p, Out.byte p (C 'D') ∉ os) ∧
    (∀ p v bs, Out.ret p v bs ∈ os → v = -1 ∨ v.toInt = bs.length) ∧
    ∀ p, os.flatMap (Out.delivered p) = os.flatMap (Out.returned p) ++ (s.proc p).dst := by
  have h := disciplined_run hrun
  have hroom := h.cons.room
  refine ⟨?_, fun c t hs => ?_, h.stream, count_taken h.proper,
    fun p hmem => h.proper _ hmem rfl, fun p v bs hmem => h.proper _ hmem, h.buffers⟩
  · rw [h.cons.dist_eq]
    exact ⟨Nat.le_add_right _ _, hroom⟩
  · obtain ⟨hview, -⟩ := view_consoleintr h.cons c
    have hcons : t.cons = (consoleintr s.cons c).1 := by
      obtain ⟨⟨t, out⟩, hr, rfl⟩ := Option.map_eq_some_iff.mp hs
      simp only [react] at hr
      split at hr <;> cases hr
      split <;> rfl
    rw [hcons, hview]
    exact ⟨rfl, by rw [queue_input]; exact prefix_append _ _⟩

/-- `xy`, a backspace, a carriage return and a ^D are typed while the indices wrap, and
then read twice. -/
def typedLine : List Event :=
  [.intr 120, .intr 121, .intr (C 'H'), .intr RETURN, .intr (C 'D'),
    .call 0 9, .run 0 true, .run 0 true, .run 0 true,
    .call 0 9, .run 0 true, .run 0 true]

theorem line_discipline_typedLine :
    ∃ s, Run (Restrict Sane fun s e t => step s e = some t) (initial (fun _ => 0) 4294967295)
        typedLine s ∧ s.cons.r = 2 ∧ record step shown (initial (fun _ => 0) 4294967295) typedLine =
        [.byte 0 120, .byte 0 NEWLINE, .ret 0 2 [120, NEWLINE], .ret 0 0 []] ∧
      record step committed (initial (fun _ => 0) 4294967295) typedLine =
        [120, NEWLINE, C 'D'] ++ s.cons.view.queue := by
  have hexec : ((exec (fun s e => if Sane s e then step s e else none)
      (initial (fun _ => 0) 4294967295) typedLine).map fun s => s.cons.r) = some 2 := by
    decide +kernel
  have hshown : record step shown (initial (fun _ => 0) 4294967295) typedLine =
      [.byte 0 120, .byte 0 NEWLINE, .ret 0 2 [120, NEWLINE], .ret 0 0 []] := by
    decide +kernel
  obtain ⟨s, hs, hr⟩ := Option.map_eq_some_iff.mp hexec
  have hrun := run_restrict_of_exec hs
  have h := (line_discipline hrun).2.2.1
  exact ⟨s, hrun, hr, hshown, h⟩

/-! ### One call of `consoleread` -/

/-- A read of `m` bytes may return `v` with `bs` in its buffer. -/
structure ReadBytes (m v : Int32) (bs : List UInt8) : Prop where
  le : bs.length ≤ m.toInt.toNat
  ret : v.toInt = bs.length ∨ v = -1

/-- A read of `m` bytes has `n` left and `dst` in its buffer. A read of no bytes, or of a
negative number of them, does not begin to count. -/
structure Left (m : Int32) (target : UInt32) (n : Int32) (dst : List UInt8) : Prop where
  asked : target = m.toUInt32
  count : ¬ 0 < m ∧ n = m ∧ dst = [] ∨ Counting target n dst.length

variable {m : Int32} {dst : List UInt8}

theorem Left.start (m : Int32) : Left m m.toUInt32 m [] := by
  refine ⟨rfl, ?_⟩
  by_cases hm : 0 < m
  · exact .inr (.start hm)
  · exact .inl ⟨hm, rfl, rfl⟩

theorem Left.le (h : Left m target n dst) : dst.length ≤ m.toInt.toNat := by
  rcases h.count with ⟨-, -, rfl⟩ | hcount
  · exact Nat.zero_le _
  · have hsum := hcount.sum
    have hleft := hcount.left
    have hsmall := hcount.small
    have heq := toInt_eq m
    rw [h.asked] at hsum hsmall
    omega

theorem Left.counting (h : Left m target n dst) (hn : 0 < n) : Counting target n dst.length := by
  rcases h.count with ⟨hm, rfl, -⟩ | hcount
  · exact absurd hn hm
  · exact hcount

/-- What the call returns when it leaves its loop. -/
theorem Left.readBytes (h : Left m target n dst) : ReadBytes m (answer target n) dst := by
  refine ⟨h.le, .inl ?_⟩
  rcases h.count with ⟨-, rfl, rfl⟩ | hcount
  · rw [h.asked, answer, UInt32.sub_self]
    rfl
  · exact hcount.answer

theorem Left.next (h : Left m target n dst) (hn : 0 < n) (c : UInt8) :
    Left m target (n - 1) (dst ++ [c]) := by
  refine ⟨h.asked, .inr ?_⟩
  rw [length_append]
  exact (h.counting hn).next hn

/-- A call for `m` bytes is under way. -/
def Proc.Reads (m : Int32) (pr : Proc) : Prop :=
  match pr.pc with
  | .idle => False
  | .enter n => n = m ∧ pr.dst = []
  | .loop target n | .asleep target n | .woken target n => Left m target n pr.dst

/-- What a step leaves of a call for `m` bytes: it goes on, or it has returned. -/
structure Goes (p : Pid) (m : Int32) (r : State × List Out) : Prop where
  on : (r.1.proc p).pc ≠ .idle → (r.1.proc p).Reads m
  ret : ∀ v bs, Out.ret p v bs ∈ r.2 → ReadBytes m v bs

theorem goes_finish (h : ReadBytes m v (s.proc p).dst) : Goes p m (s.finish p v) := by
  refine ⟨fun hbusy => absurd ?_ hbusy, fun v' bs hmem => ?_⟩
  · simp [State.finish, State.set]
  · obtain ⟨-, rfl, rfl⟩ : p = p ∧ v' = v ∧ bs = (s.proc p).dst := by
      simpa [State.finish] using hmem
    exact h

theorem goes_readTurn {copyout : Bool} (h : Left m target n (s.proc p).dst) :
    Goes p m (readTurn s p target n copyout) := by
  unfold readTurn
  split
  · rename_i hn
    split
    · split
      · exact goes_finish ⟨h.le, .inr rfl⟩
      · refine ⟨fun _ => ?_, nofun⟩
        simpa [State.sleep, State.goto, State.set, Proc.Reads] using h
    · dsimp only
      split
      · split <;> exact goes_finish h.readBytes
      · split
        · have hnext := h.next hn (s.cons.buf (s.cons.r.toNat % INPUT_BUF_SIZE))
          split
          · obtain ⟨hon, hret⟩ := goes_finish (p := p)
              (s := State.set { s with cons := { s.cons with r := s.cons.r + 1 } } p
                { s.proc p with dst :=
                  (s.proc p).dst ++ [s.cons.buf (s.cons.r.toNat % INPUT_BUF_SIZE)] })
              (by simpa [State.set] using hnext.readBytes)
            refine ⟨hon, fun v bs hmem => hret v bs ?_⟩
            simpa using hmem
          · refine ⟨fun _ => ?_, fun v bs hmem => ?_⟩
            · simpa [State.goto, State.set, Proc.Reads] using hnext
            · simp at hmem
        · exact goes_finish h.readBytes
  · exact goes_finish h.readBytes

theorem goes_acquire (hr : s.acquire p pc = some r)
    (h : ({ s.proc p with pc := pc } : Proc).Reads m) : Goes p m r := by
  unfold State.acquire at hr
  split at hr <;> cases hr
  refine ⟨fun _ => ?_, nofun⟩
  simpa [State.goto, State.set] using h

/-- What another process does does not concern `p`. -/
theorem goes_other (hproc : r.1.proc p = s.proc p) (hq : q ≠ p) (hout : ∀ o ∈ r.2, o.pid = q)
    (h : (s.proc p).Reads m) : Goes p m r := by
  refine ⟨fun _ => by rwa [hproc], fun v bs hmem => ?_⟩
  have hpid := hout _ hmem
  exact absurd hpid.symm hq

theorem finish_other (hq : p ≠ q) (hproc : t.proc p = s.proc p) :
    (t.finish q v).1.proc p = s.proc p ∧ ∀ o ∈ (t.finish q v).2, o.pid = q := by
  refine ⟨?_, forall_mem_singleton.mpr rfl⟩
  rw [← hproc]
  exact update_of_ne hq ..

theorem readTurn_other (copyout : Bool) (hq : p ≠ q) :
    (readTurn s q target n copyout).1.proc p = s.proc p ∧
      ∀ o ∈ (readTurn s q target n copyout).2, o.pid = q := by
  unfold readTurn
  split
  · split
    · split
      · exact finish_other hq rfl
      · exact ⟨update_of_ne hq .., nofun⟩
    · dsimp only
      split
      · split <;> exact finish_other hq rfl
      · split
        · split
          · obtain ⟨hproc, hout⟩ := finish_other (s := s) (v := answer target (n - 1)) hq
              (t := State.set { s with cons := { s.cons with r := s.cons.r + 1 } } q
                { s.proc q with dst :=
                  (s.proc q).dst ++ [s.cons.buf (s.cons.r.toNat % INPUT_BUF_SIZE)] })
              (update_of_ne hq ..)
            exact ⟨hproc, forall_mem_cons.mpr ⟨rfl, hout⟩⟩
          · refine ⟨?_, forall_mem_singleton.mpr rfl⟩
            simp [State.goto, State.set, hq]
        · exact finish_other hq rfl
  · exact finish_other hq rfl

/-- One step of anybody, while the call lasts. -/
theorem goes_react (h : (s.proc p).Reads m) (hr : react s e = some r) : Goes p m r := by
  cases e with
  | intr c =>
    simp only [react] at hr
    split at hr <;> cases hr
    refine ⟨fun _ => ?_, nofun⟩
    split
    · unfold Proc.Reads at h ⊢
      simp only [State.wakeup]
      cases hpc : (s.proc p).pc with
      | asleep target n =>
        rwa [hpc] at h
      | _ =>
        exact h
    · exact h
  | call q n =>
    simp only [react] at hr
    split at hr <;> cases hr
    rename_i hidle
    have hne : p ≠ q := by
      rintro rfl
      rwa [Proc.Reads, hidle] at h
    refine goes_other (q := q) ?_ hne.symm nofun h
    simp [State.set, hne]
  | run q copyout =>
    simp only [react] at hr
    by_cases hne : p = q
    · subst hne
      unfold Proc.Reads at h
      split at hr <;> rename_i hpc <;> rw [hpc] at h
      · cases hr
      · cases hr
      · obtain ⟨rfl, hdst⟩ := h
        refine goes_acquire hr ?_
        dsimp only
        rw [hdst]
        exact .start _
      · exact goes_acquire hr h
      · cases hr
        exact goes_readTurn h
    · have hacquire : ∀ {pc : Pc}, s.acquire q pc = some r → Goes p m r := by
        intro pc hacq
        unfold State.acquire at hacq
        split at hacq <;> cases hacq
        refine goes_other (q := q) ?_ (Ne.symm hne) nofun h
        simp [State.goto, State.set, hne]
      split at hr
      · cases hr
      · cases hr
      · exact hacquire hr
      · exact hacquire hr
      · cases hr
        obtain ⟨hproc, hout⟩ := readTurn_other copyout hne
        exact goes_other hproc (Ne.symm hne) hout h
  | kill q =>
    cases hr
    refine ⟨fun _ => ?_, nofun⟩
    by_cases hne : p = q
    · subst hne
      unfold Console.kill Proc.Reads at *
      cases hpc : (s.proc p).pc with
      | idle =>
        rw [hpc] at h
        exact h.elim
      | _ =>
        simpa [State.set, hpc] using h
    · have hproc : (Console.kill s q).proc p = s.proc p := by
        unfold Console.kill
        split <;> simp [State.set, hne]
      rw [hproc]
      exact h

/-- Process `p` is in a call. -/
def Busy (p : Pid) (s : State) (_ : Event) : Prop := (s.proc p).pc ≠ .idle

/-- **A read gets what it asks for, at most**, whatever is typed and whatever others do
meanwhile, and returns how much that was or -1. -/
theorem read_bytes {es : List Event} {bs : List UInt8} (hcall : (s.proc p).pc = .enter m)
    (hdst : (s.proc p).dst = [])
    (hrun : Run (Restrict (Busy p) fun s e t => step s e = some t) s es t)
    (hbusy : (t.proc p).pc ≠ .idle) (hret : Out.ret p v bs ∈ shown t e) : ReadBytes m v bs := by
  have hstart : (s.proc p).pc ≠ .idle → (s.proc p).Reads m := by
    intro _
    rw [Proc.Reads, hcall]
    exact ⟨rfl, hdst⟩
  have h := hrun.invariant (P := fun t => (t.proc p).pc ≠ .idle → (t.proc p).Reads m) hstart
    fun _ _ _ h hs => by
      obtain ⟨r, hr, rfl⟩ := Option.map_eq_some_iff.mp hs.2
      exact (goes_react (h hs.1) hr).on
  rw [shown] at hret
  cases hr : react t e with
  | none =>
    rw [hr] at hret
    cases hret
  | some r =>
    rw [hr] at hret
    exact (goes_react (h hbusy) hr).ret v bs hret

end Xv6.Console
