import Xv6.Kernel.Conservation
import Xv6.Kernel.RefProc

/-!
# xv6 — which open files share an inode (`sys_inodepairs`)

The call goes through all pairs of entries of the file table. For a pair with the
same inode it drops the lock of the table, looks for descriptors that point to
the entries, takes the lock again, and stores a record if the pair still has the
same inode.

* `Scan`, `Scan.step`   — the two loops, one iteration at a time; while it looks for
  descriptors, the lock is not held.
* `scanAll`, `sysInodepairs` — the whole call, if nobody else moves.
* `PStep`               — the call, and whatever the other processes do while the
  lock is not held.
* `inodepairs_complete` — what the call reports if nobody else moves.
* `inodepairs_same`     — user memory does not depend on what was on the kernel stack if
  64 pairs of entries or more have the same inode, and not otherwise.
* `owners_right`        — if nobody closes a file or exits while the lock is not
  held, a record names descriptors that do point to its entries.
-/

namespace Xv6.Kernel

open Prog ByteBuffer TransitionRun Function List

/-- `MAX_INODE_PAIRS`. -/
def MAX_INODE_PAIRS : Nat := 64
/-- The device number of all inodes. -/
def ROOTDEV : Int := 1

/-- `struct inode_pair`. -/
structure InodePair where
  inum : Int
  dev : Int
  offset_a : Int
  offset_b : Int
  pid_a : Int
  fd_a : Int
  pid_b : Int
  fd_b : Int
  deriving DecidableEq, Repr

/-- A record, and the entries of the file table it is about. -/
structure Record where
  i : FPtr
  j : FPtr
  pair : InodePair
  deriving DecidableEq, Repr

/-- A process id and a descriptor. -/
structure Owner where
  pid : Int
  fd : Int
  deriving DecidableEq, Repr

/-- `pid = -1, fd = -1`. -/
def Owner.none : Owner := ⟨-1, -1⟩

/-- Where the call is. -/
inductive Pc where
  /-- at the head of the outer loop -/
  | outer (i : Nat)
  /-- at the head of the inner loop -/
  | inner (f : FPtr) (j : Nat)
  /-- about to look at process slot `q`; `ftable.lock` is not held -/
  | owners (f g : FPtr) (q : Nat) (a b : Owner)
  | done
  /-- a null pointer was followed -/
  | wild
  deriving DecidableEq, Repr

/-- The local variables of `sys_inodepairs`. -/
structure Scan where
  pc : Pc
  /-- `out.pairs[0..n)` -/
  out : List Record
  deriving DecidableEq, Repr

/-- The loop over the descriptors of one process. -/
def lookAt (pr : Proc) (f g : FPtr) (a b : Owner) : Owner × Owner :=
  if pr.state ≠ .unused then
    (List.finRange NOFILE).foldl (fun o fd =>
      let o := if pr.ofile fd = some f then (⟨pr.pid, fd⟩, o.2) else o
      if pr.ofile fd = some g then (o.1, ⟨pr.pid, fd⟩) else o) (a, b)
  else (a, b)

/-- The record for a pair. -/
def pairRecord (k : State) (f g : FPtr) (ip : Fs.IPtr) (a b : Owner) : Record where
  i := f
  j := g
  pair :=
    { inum := toInt (k.fs.inode ip).inum, dev := ROOTDEV
      offset_a := toInt (k.file f).off, offset_b := toInt (k.file g).off
      pid_a := a.pid, fd_a := a.fd, pid_b := b.pid, fd_b := b.fd }

/-- What is done once the lock is held again. -/
def Scan.store (k : State) (s : Scan) (f g : FPtr) (a b : Owner) : Scan :=
  if (k.file f).ref ≤ 0 ∨ (k.file g).ref ≤ 0 ∨ (k.file f).ip ≠ (k.file g).ip then
    { s with pc := .inner f (g + 1) }
  else
    match (k.file f).ip with
    | none => { s with pc := .wild }
    | some ip => { pc := .inner f (g + 1), out := s.out ++ [pairRecord k f g ip a b] }

/-- One iteration of a loop. -/
def Scan.step (k : State) (s : Scan) : Scan :=
  match s.pc with
  | .outer i =>
    if h : i < NFILE then
      if (k.file ⟨i, h⟩).ref ≤ 0 ∨ (k.file ⟨i, h⟩).ip = none then { s with pc := .outer (i + 1) }
      else { s with pc := .inner ⟨i, h⟩ (i + 1) }
    else { s with pc := .done }
  | .inner f j =>
    if h : j < NFILE then
      if (k.file ⟨j, h⟩).ref ≤ 0 ∨ (k.file ⟨j, h⟩).ip = none then { s with pc := .inner f (j + 1) }
      else if (k.file f).ip ≠ (k.file ⟨j, h⟩).ip then { s with pc := .inner f (j + 1) }
      else if MAX_INODE_PAIRS ≤ s.out.length then { s with pc := .outer (f + 1) }
      else { s with pc := .owners f ⟨j, h⟩ 0 .none .none }
    else { s with pc := .outer (f + 1) }
  | .owners f g q a b =>
    if h : q < NPROC then
      let (a, b) := lookAt (k.proc ⟨q, h⟩) f g a b
      { s with pc := .owners f g (q + 1) a b }
    else s.store k f g a b
  | .done | .wild => s

/-- The call begins. -/
def Scan.start : Scan := ⟨.outer 0, []⟩

/-- The number of iterations of the inner loop that may be left, each with its
search. -/
def Pc.left : Pc → Nat
  | .outer i => (NFILE - i) * (NFILE * (NPROC + 2) + 2) + 1
  | .inner f j => (NFILE - (f + 1)) * (NFILE * (NPROC + 2) + 2) + 2 + (NFILE - j) * (NPROC + 2)
  | .owners f g q _ _ => (NFILE - (f + 1)) * (NFILE * (NPROC + 2) + 2) + 2 +
      (NFILE - (g + 1)) * (NPROC + 2) + (NPROC - q) + 1
  | .done | .wild => 0

/-- The loops of `sys_inodepairs`, if nobody else moves. -/
def scanAll (k : State) : Scan := (Scan.step k)^[Pc.left (.outer 0)] .start

/-- The bytes of a record. -/
def InodePair.bytes (r : InodePair) : List UInt8 :=
  [r.inum, r.dev, r.offset_a, r.offset_b, r.pid_a, r.fd_a, r.pid_b, r.fd_b].flatMap fun x =>
    leBytes 4 (u32 x)

/-- `sizeof(struct inode_pairs)`. -/
def PAIRS_SIZE : Nat := 4 + 32 * MAX_INODE_PAIRS

/-- `struct inode_pairs out`, in a part of the stack that held `stack` before. -/
def outBytes (stack : Buffer) (out : List Record) : List UInt8 :=
  load (store (store stack 4 (out.flatMap fun r => r.pair.bytes)) 0 (leBytes 4 out.length)) 0
    PAIRS_SIZE

/-- `sys_inodepairs`, if nobody else moves. -/
def sysInodepairs (p : Pid) (uout : Nat) (stack : Buffer) : KM Int := do
  let k ← .gets id
  if ← copyout p uout (outBytes stack (scanAll k).out) then pure 0 else pure (-1)

/-! ### The loops end -/

variable {k k' : State} {s s' : Scan} {f g : FPtr} {a b : Owner}

theorem Scan.store_left (k : State) (s : Scan) (f g : FPtr) (a b : Owner) :
    (s.store k f g a b).pc.left ≤ (Pc.inner f (g + 1)).left := by
  unfold Scan.store
  split
  · exact le_rfl
  · split
    · exact Nat.zero_le _
    · exact le_rfl

/-- Every iteration leaves less to do. -/
theorem Scan.step_left (k : State) (s : Scan) (h : s.pc.left ≠ 0) :
    (s.step k).pc.left < s.pc.left := by
  unfold Scan.step
  split
  · rename_i i hpc
    rw [hpc]
    split
    · rename_i hi
      have hsplit : NFILE - i = NFILE - (i + 1) + 1 := by omega
      have hle : (NFILE - (i + 1)) * (NPROC + 2) ≤ NFILE * (NPROC + 2) :=
        Nat.mul_le_mul_right _ (by omega)
      split <;> simp only [Pc.left] <;> rw [hsplit, Nat.add_mul] <;> omega
    · simp [Pc.left]
  · rename_i f j hpc
    rw [hpc]
    split
    · have hsplit : NFILE - j = NFILE - (j + 1) + 1 := by omega
      split
      · simp only [Pc.left]
        rw [hsplit, Nat.add_mul]
        omega
      · split
        · simp only [Pc.left]
          rw [hsplit, Nat.add_mul]
          omega
        · split
          · simp only [Pc.left]
            omega
          · simp only [Pc.left]
            rw [hsplit, Nat.add_mul]
            omega
    · simp only [Pc.left]
      omega
  · rename_i f g q a b hpc
    rw [hpc]
    split
    · simp only [Pc.left]
      omega
    · refine lt_of_le_of_lt (s.store_left k f g a b) ?_
      simp only [Pc.left]
      omega
  · rename_i hpc
    exact absurd (by rw [hpc]; rfl) h
  · rename_i hpc
    exact absurd (by rw [hpc]; rfl) h

theorem Scan.step_of_left (k : State) (s : Scan) (h : s.pc.left = 0) : s.step k = s := by
  unfold Scan.step
  split
  · rename_i hpc
    simp [hpc, Pc.left] at h
  · rename_i hpc
    simp [hpc, Pc.left] at h
  · rename_i hpc
    simp [hpc, Pc.left] at h
  · rfl
  · rfl

/-- Enough iterations finish the call. -/
theorem Scan.iterate_left (k : State) (n : Nat) (s : Scan) (h : s.pc.left ≤ n) :
    ((Scan.step k)^[n] s).pc.left = 0 := by
  induction n generalizing s with
  | zero => exact Nat.le_zero.mp h
  | succ n ih =>
    refine ih _ ?_
    by_cases h0 : s.pc.left = 0
    · rw [s.step_of_left k h0, h0]
      exact Nat.zero_le _
    · have := s.step_left k h0
      omega

/-- What is so at the beginning and is kept by each iteration is so at the end. -/
theorem scanAll_invariant {P : Scan → Prop} (h0 : P .start) (hstep : ∀ s, P s → P (s.step k)) :
    P (scanAll k) := by
  have hall : ∀ n s, P s → P ((Scan.step k)^[n] s) := by
    intro n
    induction n with
    | zero => exact fun s hs => hs
    | succ n ih =>
      intro s hs
      exact ih _ (hstep s hs)
  exact hall _ _ h0

/-- The lock of the file table is not held. -/
def Pc.unlocked : Pc → Bool
  | .owners .. => true
  | _ => false

/-! ### What the loops find -/

/-- The inode that two open entries share. -/
def sharedInode (k : State) (f g : FPtr) : Option Fs.IPtr :=
  if 0 < (k.file f).ref ∧ 0 < (k.file g).ref ∧ (k.file f).ip = (k.file g).ip then (k.file f).ip
  else none

/-- The descriptors of a process that refer to entry `f`, in table order. -/
def ownersAt (pr : Proc) (f : FPtr) : List Owner :=
  if pr.state ≠ .unused then
    ((List.finRange NOFILE).filter fun fd => pr.ofile fd = some f).map fun fd : Fin NOFILE =>
      ⟨pr.pid, fd⟩
  else []

/-- The last descriptor that refers to `f`, of the processes from slot `q` on; `a` if
there is none. -/
def lastOwnerFrom (k : State) (q : Nat) (a : Owner) (f : FPtr) : Owner :=
  (((List.finRange NPROC).drop q).flatMap fun q => ownersAt (k.proc q) f).getLastD a

/-- The last descriptor that refers to `f`, or `(-1, -1)`. -/
def lastOwner (k : State) (f : FPtr) : Owner := lastOwnerFrom k 0 .none f

/-- The record of a pair of entries that share an inode. -/
def sharedRecord (k : State) (f g : FPtr) : Option Record :=
  (sharedInode k f g).map fun ip => pairRecord k f g ip (lastOwner k f) (lastOwner k g)

/-- The records of `f` with the entries from `j` on. -/
def recordsWith (k : State) (f : FPtr) (j : Nat) : List Record :=
  ((List.finRange NFILE).drop j).filterMap (sharedRecord k f)

/-- The records of the entries from `i` on, each with those behind it. -/
def recordsFrom (k : State) (i : Nat) : List Record :=
  ((List.finRange NFILE).drop i).flatMap fun f => recordsWith k f (f + 1)

theorem getLastD_append {α : Type} (l l' : List α) (a : α) :
    (l ++ l').getLastD a = l'.getLastD (l.getLastD a) := by
  induction l generalizing a with
  | nil => rfl
  | cons b l ih => rw [cons_append, getLastD_cons, ih, getLastD_cons]

theorem drop_finRange {n i : Nat} (h : i < n) :
    (finRange n).drop i = ⟨i, h⟩ :: (finRange n).drop (i + 1) := by
  rw [drop_eq_getElem_cons (by simpa using h), getElem_finRange]
  rfl

/-- The loop over the descriptors finds the last one. -/
theorem lookAt_eq (pr : Proc) (f g : FPtr) (a b : Owner) :
    lookAt pr f g a b = ((ownersAt pr f).getLastD a, (ownersAt pr g).getLastD b) := by
  unfold lookAt ownersAt
  split
  · generalize finRange NOFILE = fds
    induction fds generalizing a b with
    | nil => rfl
    | cons fd fds ih =>
      rw [foldl_cons, ih]
      simp only [filter_cons, decide_eq_true_eq]
      split_ifs <;> simp only [map_cons, getLastD_cons]
  · rfl

/-- One process further. -/
theorem lastOwnerFrom_step {q : Nat} (h : q < NPROC) :
    lastOwnerFrom k (q + 1) ((ownersAt (k.proc ⟨q, h⟩) f).getLastD a) f =
      lastOwnerFrom k q a f := by
  rw [lastOwnerFrom, lastOwnerFrom, drop_finRange h, flatMap_cons, getLastD_append]

theorem lastOwnerFrom_end {q : Nat} (h : ¬ q < NPROC) : lastOwnerFrom k q a f = a := by
  rw [lastOwnerFrom, drop_eq_nil_of_le (by simpa using h)]
  rfl

/-- What is still to be reported. -/
def Pc.todo (k : State) : Pc → List Record
  | .outer i => recordsFrom k i
  | .inner f j => recordsWith k f j ++ recordsFrom k (f + 1)
  | .owners f g q a b =>
    (sharedInode k f g).toList.map (fun ip =>
      pairRecord k f g ip (lastOwnerFrom k q a f) (lastOwnerFrom k q b g)) ++
      (recordsWith k f (g + 1) ++ recordsFrom k (f + 1))
  | .done | .wild => []

/-- The entries that the loops are at are open, with an inode. -/
def Pc.Open (k : State) : Pc → Prop
  | .inner f _ => 0 < (k.file f).ref ∧ (k.file f).ip ≠ none
  | .owners f g _ _ _ => (sharedInode k f g).isSome ∧ 0 < (k.file f).ref ∧ (k.file f).ip ≠ none
  | .wild => False
  | .outer _ | .done => True

/-- What the loops keep: the records so far and those to come are all there are, up to
the size of the array. -/
structure Scan.Finds (k : State) (s : Scan) : Prop where
  opened : s.pc.Open k
  all : (s.out ++ s.pc.todo k).take MAX_INODE_PAIRS = (recordsFrom k 0).take MAX_INODE_PAIRS
  length_le : s.out.length ≤ MAX_INODE_PAIRS
  room : s.pc.unlocked = true → s.out.length < MAX_INODE_PAIRS

/-- A loop goes on. -/
theorem Scan.Finds.goto {pc : Pc} (h : s.Finds k) (hopen : pc.Open k)
    (htodo : pc.todo k = s.pc.todo k)
    (hroom : pc.unlocked = true → s.out.length < MAX_INODE_PAIRS) : Finds k { s with pc := pc } :=
  ⟨hopen, by rw [← h.all, ← htodo], h.length_le, hroom⟩

theorem recordsFrom_step {i : Nat} (h : i < NFILE) :
    recordsFrom k i = recordsWith k ⟨i, h⟩ (i + 1) ++ recordsFrom k (i + 1) := by
  rw [recordsFrom, drop_finRange h]
  rfl

theorem recordsWith_step {j : Nat} (h : j < NFILE) :
    recordsWith k f j = (sharedRecord k f ⟨j, h⟩).toList ++ recordsWith k f (j + 1) := by
  rw [recordsWith, drop_finRange h, filterMap_cons]
  cases sharedRecord k f ⟨j, h⟩ <;> rfl

/-- A pair that does not share an inode. -/
theorem recordsWith_skip {j : Nat} (h : j < NFILE) (hno : sharedInode k f ⟨j, h⟩ = none) :
    recordsWith k f (j + 1) = recordsWith k f j := by
  rw [recordsWith_step h, sharedRecord, hno]
  rfl

theorem sharedInode_eq_some {ip : Fs.IPtr} : sharedInode k f g = some ip ↔
    0 < (k.file f).ref ∧ 0 < (k.file g).ref ∧ (k.file f).ip = some ip ∧
      (k.file g).ip = some ip := by
  unfold sharedInode
  split
  · rename_i h
    exact ⟨fun hip => ⟨h.1, h.2.1, hip, h.2.2 ▸ hip⟩, fun h => h.2.2.1⟩
  · rename_i h
    refine ⟨by rintro ⟨⟩, ?_⟩
    rintro ⟨hf, hg, hipf, hipg⟩
    exact absurd ⟨hf, hg, hipf.trans hipg.symm⟩ h

/-- An entry that is not open shares nothing. -/
theorem sharedInode_of_closed {x : FPtr} (hx : x = f ∨ x = g)
    (h : (k.file x).ref ≤ 0 ∨ (k.file x).ip = none) : sharedInode k f g = none := by
  refine Option.eq_none_iff_forall_ne_some.mpr fun ip hip => ?_
  obtain ⟨hf, hg, hipf, hipg⟩ := sharedInode_eq_some.mp hip
  rcases hx with rfl | rfl <;> rcases h with h | h
  · omega
  · cases h.symm.trans hipf
  · omega
  · cases h.symm.trans hipg

theorem recordsWith_closed {j : Nat} (h : (k.file f).ref ≤ 0 ∨ (k.file f).ip = none) :
    recordsWith k f j = [] := by
  refine filterMap_eq_nil_iff.mpr fun g _ => ?_
  rw [sharedRecord, sharedInode_of_closed (.inl rfl) h]
  rfl

/-- One turn of the three loops: what was found and what is still to be found stay the
whole list. -/
theorem Scan.Finds.step (h : s.Finds k) : (s.step k).Finds k := by
  have hopen := h.opened
  unfold Scan.step
  split
  · -- the outer loop
    rename_i i hpc
    split
    · rename_i hi
      have htodo : s.pc.todo k = recordsWith k ⟨i, hi⟩ (i + 1) ++ recordsFrom k (i + 1) := by
        rw [hpc]
        exact recordsFrom_step hi
      split
      · rename_i hclosed
        refine h.goto trivial ?_ (by rintro ⟨⟩)
        rw [htodo, recordsWith_closed hclosed]
        rfl
      · rename_i hno
        push Not at hno
        exact h.goto hno htodo.symm (by rintro ⟨⟩)
    · rename_i hi
      refine h.goto trivial ?_ (by rintro ⟨⟩)
      rw [hpc, Pc.todo, recordsFrom, drop_eq_nil_of_le (by simpa using hi)]
      rfl
  · -- the inner loop
    rename_i f j hpc
    rw [hpc] at hopen
    split
    · rename_i hj
      have hskip : sharedInode k f ⟨j, hj⟩ = none → Finds k { s with pc := .inner f (j + 1) } := by
        intro hno
        refine h.goto hopen ?_ (by rintro ⟨⟩)
        rw [hpc, Pc.todo, Pc.todo, recordsWith_skip hj hno]
      split
      · rename_i hclosed
        exact hskip (sharedInode_of_closed (.inr rfl) hclosed)
      · rename_i hno
        push Not at hno
        split
        · rename_i hne
          refine hskip (if_neg fun hall => hne hall.2.2)
        · rename_i heq
          push Not at heq
          have hshared : sharedInode k f ⟨j, hj⟩ = (k.file f).ip := if_pos ⟨hopen.1, hno.1, heq⟩
          split
          · rename_i hfull
            refine ⟨trivial, ?_, h.length_le, by rintro ⟨⟩⟩
            rw [← h.all, take_append_of_le_length hfull, take_append_of_le_length hfull]
          · rename_i hroom
            refine h.goto ⟨?_, hopen⟩ ?_ fun _ => not_le.mp hroom
            · rw [hshared]
              exact Option.isSome_iff_ne_none.mpr hopen.2
            · rw [hpc]
              change _ ++ (recordsWith k f (j + 1) ++ _) = recordsWith k f j ++ _
              rw [recordsWith_step hj, sharedRecord]
              cases sharedInode k f ⟨j, hj⟩ <;> rfl
    · rename_i hj
      refine h.goto trivial ?_ (by rintro ⟨⟩)
      rw [hpc, Pc.todo, Pc.todo, recordsWith, drop_eq_nil_of_le (by simpa using hj)]
      rfl
  · -- the search for owners
    rename_i f g q a b hpc
    rw [hpc] at hopen
    have hroom := h.room (by rw [hpc]; rfl)
    split
    · rename_i hq
      dsimp only
      refine h.goto hopen ?_ fun _ => hroom
      rw [hpc, lookAt_eq, Pc.todo, Pc.todo, lastOwnerFrom_step hq, lastOwnerFrom_step hq]
    · rename_i hq
      obtain ⟨hsome, hf, hip⟩ := hopen
      have hall := h.all
      rw [hpc, Pc.todo, lastOwnerFrom_end hq, lastOwnerFrom_end hq] at hall
      have hsame : 0 < (k.file f).ref ∧ 0 < (k.file g).ref ∧ (k.file f).ip = (k.file g).ip := by
        by_contra hno
        rw [sharedInode, if_neg hno] at hsome
        cases hsome
      rw [sharedInode, if_pos hsame] at hall
      rw [Scan.store, if_neg (by push Not; exact hsame)]
      split
      · rename_i hnone
        exact absurd hnone hip
      · rename_i ip hsomeip
        rw [hsomeip] at hall
        refine ⟨⟨hf, hip⟩, ?_, ?_, by rintro ⟨⟩⟩
        · rw [← hall, append_assoc]
          rfl
        · rw [length_append]
          exact hroom
  · exact h
  · exact h

theorem scanAll_finds (k : State) : (scanAll k).Finds k :=
  scanAll_invariant ⟨trivial, rfl, Nat.zero_le _, by rintro ⟨⟩⟩ fun _ h => h.step

/-- At the end everything is reported that there is room for. -/
theorem Scan.Finds.out_eq (h : s.Finds k) (hleft : s.pc.left = 0) :
    s.pc = .done ∧ s.out = (recordsFrom k 0).take MAX_INODE_PAIRS := by
  obtain ⟨pc, out⟩ := s
  cases pc with
  | outer i | inner f j | owners f g q a b => simp [Pc.left] at hleft
  | done =>
    have hall : (out ++ []).take MAX_INODE_PAIRS = _ := h.all
    rw [append_nil, take_of_length_le h.length_le] at hall
    exact ⟨rfl, hall⟩
  | wild => exact h.opened.elim

theorem scanAll_eq (k : State) :
    (scanAll k).pc = .done ∧ (scanAll k).out = (recordsFrom k 0).take MAX_INODE_PAIRS :=
  (scanAll_finds k).out_eq (Scan.iterate_left k _ _ (Nat.le_of_eq rfl))

theorem mem_drop_finRange {n i : Nat} {f : Fin n} : f ∈ (finRange n).drop i ↔ i ≤ f := by
  rw [mem_drop_iff_getElem]
  constructor
  · rintro ⟨j, hj, rfl⟩
    simp
  · intro hle
    refine ⟨f - i, ?_, ?_⟩
    · rw [length_finRange]
      omega
    · rw [getElem_finRange]
      exact Fin.ext (Nat.add_sub_cancel' hle)

/-- A record names the entries it is about. -/
theorem sharedRecord_entries {r : Record} (h : sharedRecord k f g = some r) :
    r.i = f ∧ r.j = g := by
  obtain ⟨ip, -, rfl⟩ := Option.map_eq_some_iff.mp h
  exact ⟨rfl, rfl⟩

/-- The records there are: one for each two entries that share an inode. -/
theorem mem_recordsFrom {i : Nat} {r : Record} :
    r ∈ recordsFrom k i ↔ i ≤ r.i ∧ r.i < r.j ∧ sharedRecord k r.i r.j = some r := by
  simp only [recordsFrom, recordsWith, mem_flatMap, mem_filterMap, mem_drop_finRange]
  constructor
  · rintro ⟨f, hf, g, hg, hr⟩
    obtain ⟨rfl, rfl⟩ := sharedRecord_entries hr
    exact ⟨hf, hg, hr⟩
  · rintro ⟨hi, hlt, hr⟩
    exact ⟨r.i, hi, r.j, hlt, hr⟩

/-- What an iteration does. -/
inductive Iterates (k : State) (s : Scan) : Scan → Prop
  /-- the pair is passed over, or a loop is left -/
  | pass (pc : Pc) : pc.unlocked = false → Iterates k s { s with pc := pc }
  | release (f g : FPtr) : s.out.length < MAX_INODE_PAIRS → 0 < (k.file g).ref →
      Iterates k s { s with pc := .owners f g 0 .none .none }
  | look (f g : FPtr) (q : Pid) (a b : Owner) : s.pc = .owners f g q a b →
      Iterates k s ⟨.owners f g (q + 1) (lookAt (k.proc q) f g a b).1
        (lookAt (k.proc q) f g a b).2, s.out⟩
  | store (f g : FPtr) (q : Nat) (a b : Owner) (ip : Fs.IPtr) : s.pc = .owners f g q a b →
      0 < (k.file f).ref → 0 < (k.file g).ref → (k.file f).ip = some ip →
      (k.file g).ip = some ip →
      Iterates k s ⟨.inner f (g + 1), s.out ++ [pairRecord k f g ip a b]⟩

/-- **What an iteration can do.** -/
theorem Scan.step_cases (k : State) (s : Scan) : Iterates k s (s.step k) := by
  have hself : ∀ {pc : Pc}, s.pc = pc → pc.unlocked = false → Iterates k s s := by
    rintro _ rfl hpc
    exact .pass s.pc hpc
  unfold Scan.step
  split
  · split
    · split <;> exact .pass _ rfl
    · exact .pass _ rfl
  · split
    · split
      · exact .pass _ rfl
      · rename_i hopen
        push Not at hopen
        split
        · exact .pass _ rfl
        · split
          · exact .pass _ rfl
          · rename_i hroom
            exact .release _ _ (not_le.mp hroom) hopen.1
    · exact .pass _ rfl
  · rename_i f g q a b hpc
    split
    · rename_i hq
      exact .look f g ⟨q, hq⟩ a b hpc
    · unfold Scan.store
      split
      · exact .pass _ rfl
      · rename_i hno
        push Not at hno
        split
        · exact .pass _ rfl
        · rename_i ip hip
          exact .store f g q a b ip hpc hno.1 hno.2.1 hip (hno.2.2 ▸ hip)
  · rename_i hpc
    exact hself hpc rfl
  · rename_i hpc
    exact hself hpc rfl

/-! ### The bytes that are copied out -/

theorem InodePair.length_bytes (r : InodePair) : r.bytes.length = 32 := by
  simp [InodePair.bytes, length_leBytes]

theorem length_records (out : List Record) :
    (out.flatMap fun r => r.pair.bytes).length = 32 * out.length := by
  induction out with
  | nil => rfl
  | cons r out ih =>
    rw [flatMap_cons, length_append, InodePair.length_bytes, length_cons]
    omega

/-- A byte past the records is what was on the stack. -/
theorem outBytes_rest (stack : Buffer) {out : List Record} {i : Nat}
    (hi : 4 + 32 * out.length ≤ i) (hsize : i < PAIRS_SIZE) :
    (outBytes stack out)[i]? = some (stack i) := by
  have hload : ∀ (b : Buffer), (load b 0 PAIRS_SIZE)[i]? = some (b i) := by
    intro b
    simp [load, hsize]
  rw [outBytes, hload, store_of_outside, store_of_outside]
  · rw [length_records]
    omega
  · rw [length_leBytes]
    omega

theorem outBytes_full {out : List Record} (hfull : out.length = MAX_INODE_PAIRS)
    (stack stack' : Buffer) : outBytes stack out = outBytes stack' out := by
  refine load_congr fun i hi => ?_
  refine store_congr fun hi' => store_congr fun hi'' => ?_
  rw [length_leBytes] at hi'
  rw [length_records] at hi''
  rw [PAIRS_SIZE] at hi
  omega

/-! ### User memory after the call -/

section Memory

variable {L : Layout} {A : Multiset Nat} {u : Pid → Bool} {p : Pid} {uout : Nat}

/-- If the process may write to all of the structure, and memory is not short of pages for
it, all of it is stored. -/
theorem Good.inodepairs_view (h : Good L A u k) (hp : u p = false)
    (hwritable : ∀ i, i < PAIRS_SIZE → (k.view p).writable (k.proc p).sz (uout + i) = true)
    (hmem : ¬ k.mem.Short (k.faults p uout PAIRS_SIZE)) (stack : Buffer) :
    ∃ k', sysInodepairs p uout stack k = .ok (0, k') ∧
      k'.view p = (k.view p).store uout (outBytes stack (scanAll k).out) := by
  have hlength : (outBytes stack (scanAll k).out).length = PAIRS_SIZE := length_load ..
  have hwp : wp (sysInodepairs p uout stack) (fun r k' => r = 0 ∧
      k'.view p = (k.view p).store uout (outBytes stack (scanAll k).out)) (fun _ => False) k := by
    rw [sysInodepairs, wp_bind, wp_gets, id]
    refine wp_then (wp_copyout_reach h hp) ?_
    rintro ok k' ⟨-, -, -, hr⟩
    rw [hlength] at hr
    obtain ⟨hok, hview⟩ := hr.resolve_left hmem
    rw [Vm.reach_add hwritable le_rfl, Nat.sub_self, Vm.reach, Nat.add_zero] at hok hview
    rw [decide_eq_true rfl] at hok
    rw [← hlength, take_length] at hview
    rw [hok]
    exact wp_pure.mpr ⟨rfl, hview⟩
  obtain ⟨_, k', hrun, rfl, hview⟩ := exists_ok_of_wp hwp
  exact ⟨k', hrun, hview⟩

/--
**The stack shows in user memory unless 64 pairs share an inode.** If 64 pairs of entries of
the file table or more have the same inode, a call of `inodepairs` has the same outcome, user
memory included, whatever the part of the kernel stack held that `out` lies in. If there are
fewer, and the process may write to all of the structure it has passed, and memory is not
short of pages for it, then there are two contents of the stack after which the call leaves
different memories.
-/
theorem inodepairs_same (h : Good L A u k) (hp : u p = false) (uout : Nat) :
    (MAX_INODE_PAIRS ≤ (recordsFrom k 0).length →
      ∀ stack stack', sysInodepairs p uout stack k = sysInodepairs p uout stack' k) ∧
    ((∀ i, i < PAIRS_SIZE → (k.view p).writable (k.proc p).sz (uout + i) = true) →
      ¬ k.mem.Short (k.faults p uout PAIRS_SIZE) → (recordsFrom k 0).length < MAX_INODE_PAIRS →
      ∃ stack stack' k1 k2, sysInodepairs p uout stack k = .ok (0, k1) ∧
        sysInodepairs p uout stack' k = .ok (0, k2) ∧ k1.view p ≠ k2.view p) := by
  have hout := (scanAll_eq k).2
  refine ⟨fun hfull stack stack' => ?_, fun hwritable hmem hfew => ?_⟩
  · have hlen : (scanAll k).out.length = MAX_INODE_PAIRS := by
      rw [hout, length_take, Nat.min_eq_left hfull]
    simp only [sysInodepairs, Bind.bind, gets, id]
    rw [outBytes_full hlen stack stack']
  · have hsize : 4 + 32 * (scanAll k).out.length < PAIRS_SIZE := by
      rw [hout, length_take, PAIRS_SIZE]
      omega
    obtain ⟨k1, hrun1, hview1⟩ := h.inodepairs_view hp hwritable hmem fun _ => 0
    obtain ⟨k2, hrun2, hview2⟩ := h.inodepairs_view hp hwritable hmem fun _ => 1
    refine ⟨_, _, k1, k2, hrun1, hrun2, fun hsame => ?_⟩
    -- the byte after the records is one of the stack
    have hbyte : ∀ v : UInt8, ((k.view p).store uout (outBytes (fun _ => v) (scanAll k).out)).byte
        (uout + (4 + 32 * (scanAll k).out.length)) = v := by
      intro v
      have hlt : 4 + 32 * (scanAll k).out.length <
          (outBytes (fun _ => v) (scanAll k).out).length := hsize.trans_eq (length_load ..).symm
      have hrest := outBytes_rest (fun _ => v) le_rfl hsize
      rw [getElem?_eq_getElem hlt, Option.some.injEq] at hrest
      exact (store_of_inside hlt).trans hrest
    have hzero := hbyte 0
    rw [← hview1, hsame, hview2, hbyte 1] at hzero
    exact absurd hzero (by decide)

/-- Init opens its program twelve times. -/
def openTwelve : List Event :=
  .dispatch 0 [] :: List.replicate 12 (.call 0 (.opn (some [47, 105, 110, 105, 116]) 0) [])

/-- Then 66 pairs of entries share its inode. -/
theorem inodepairs_same_openTwelve : ∃ k s, userinit small = .ok ((), k) ∧
    Run Step k openTwelve s ∧ (recordsFrom s 0).length = 66 ∧
    ∀ stack stack', sysInodepairs 0 4096 stack s = sysInodepairs 0 4096 stack' s := by
  obtain ⟨k, s, hboot, hrun, hs⟩ := userinit_of_bootRun small openTwelve (C := fun _ _ => True)
    (f := fun s => (decide ((s.proc 0).state = .running), (recordsFrom s 0).length))
    (b := (true, 66)) (by decide +kernel)
  simp only [Prod.mk.injEq, decide_eq_true_eq] at hs
  obtain ⟨u1, h1⟩ := wp_ok (wp_userinit_pages (fresh_small.good bootMem_small)) hboot
  obtain ⟨u, h⟩ := good_run h1 hrun.of_restrict
  have hused : u 0 = false := h.used (by rw [hs.1]; decide)
  exact ⟨k, s, hboot, hrun.of_restrict, hs.2,
    (inodepairs_same h hused 4096).1 (by rw [hs.2]; decide)⟩

end Memory

/-- Without open files there are no records. -/
theorem scanAll_of_closed (h : ∀ f, (k.file f).ref ≤ 0) : (scanAll k).out = [] := by
  have hnone : recordsFrom k 0 = [] := by
    refine eq_nil_iff_forall_not_mem.mpr fun r hr => ?_
    obtain ⟨-, -, hr⟩ := mem_recordsFrom.mp hr
    rw [sharedRecord, sharedInode_of_closed (.inl rfl) (.inl (h _))] at hr
    cases hr
  rw [(scanAll_eq k).2, hnone, take_nil]

/-- The byte after `npairs` that process 0 finds at address 4096 when no pair was
found and the stack was filled with `v`. -/
def byteAfterCount (v : UInt8) (s : State) : Option (Bool × List UInt8 × Bool) :=
  (copyout 0 4096 (outBytes (fun _ => v) []) s).toOption.bind fun x =>
    (copyin 0 4100 1 x.2).toOption.map fun y => (x.1, y.1)

/-- **What was on the kernel stack reaches user memory.** The first process calls
`inodepairs` with no file open; the byte after `npairs` that it then finds in its
memory is what the stack held. -/
theorem stack_shows : ∃ k s k0 k1, Booted k ∧ Run Step k [.dispatch 0 []] s ∧
    sysInodepairs 0 4096 (fun _ => 0) s = .ok (0, k0) ∧
    sysInodepairs 0 4096 (fun _ => 1) s = .ok (0, k1) ∧
    (copyin 0 4100 1 k0).toOption.map Prod.fst = some ([0], true) ∧
    (copyin 0 4100 1 k1).toOption.map Prod.fst = some ([1], true) := by
  have hcall : ∀ (s : State) (stack : Buffer) (k' : State), (scanAll s).out = [] →
      (copyout 0 4096 (outBytes stack []) s).toOption = some (true, k') →
      sysInodepairs 0 4096 stack s = .ok (0, k') := by
    intro s stack k' hnone hcopy
    simp only [sysInodepairs, bind, Prog.gets, id, hnone, ok_of_toOption hcopy]
    rfl
  obtain ⟨k, s, hk, hrun, hs⟩ := run_of_bootRun [.dispatch 0 []] (C := fun _ _ => True)
    (f := fun s => (decide (∀ f, (s.file f).ref ≤ 0),
      decide (byteAfterCount 0 s = some (true, [0], true)),
      decide (byteAfterCount 1 s = some (true, [1], true))))
    (b := (true, true, true)) fresh_small (by decide +kernel)
  simp only [Prod.mk.injEq, decide_eq_true_eq, byteAfterCount, Option.bind_eq_some_iff,
    Option.map_eq_some_iff] at hs
  obtain ⟨hclosed, ⟨⟨ok0, k0⟩, hcopy0, y0, hread0, rfl, hy0⟩, ⟨ok1, k1⟩, hcopy1, y1, hread1, rfl,
    hy1⟩ := hs
  have hnone := scanAll_of_closed hclosed
  refine ⟨k, s, k0, k1, hk, hrun.of_restrict, hcall s _ k0 hnone hcopy0,
    hcall s _ k1 hnone hcopy1, ?_, ?_⟩
  · rw [hread0, ← hy0]
    rfl
  · rw [hread1, ← hy1]
    rfl

/-! ### Other processes -/

/-- The kernel while process `me` is in `sys_inodepairs`. -/
structure PState where
  kern : State
  scan : Scan

/-- What happens next: an iteration of the call, or something another process does. -/
inductive PEvent where
  | scan
  | other (e : Event)

/-- The others move while the lock of the file table is not held. -/
inductive PStep (me : Pid) (s : PState) : PEvent → PState → Prop
  | scan : PStep me s .scan { s with scan := s.scan.step s.kern }
  | other {e : Event} {k' : State} : s.scan.pc.unlocked = true → e.actor ≠ some me →
      Step s.kern e k' → PStep me s (.other e) { s with kern := k' }

/-- A process that has not exited. -/
def Core.Live (c : Core) : Prop := c.state ≠ .unused ∧ c.state ≠ .zombie

/-- Some live process with id `o.pid` has `f` as descriptor `o.fd`. -/
def Owns (k : State) (o : Owner) (f : FPtr) : Prop :=
  ∃ (q : Pid) (fd : Fin NOFILE), (k.proc q).core.Live ∧ (k.proc q).pid = o.pid ∧
    (fd : Int) = o.fd ∧ (k.proc q).ofile fd = some f

/-- What a record says of the owner of an entry is so, if it says anything. -/
def OwnerRight (k : State) (o : Owner) (f : FPtr) : Prop := o.pid ≠ -1 → o.fd ≠ -1 → Owns k o f

/-- What a record says of its owners is so. -/
structure Record.Right (k : State) (r : Record) : Prop where
  a : OwnerRight k ⟨r.pair.pid_a, r.pair.fd_a⟩ r.i
  b : OwnerRight k ⟨r.pair.pid_b, r.pair.fd_b⟩ r.j

/-- The call closes a file or ends the process. -/
def Call.closes : Call → Bool
  | .close _ | .exit _ => true
  | _ => false

/-- The event is such a call. -/
def Event.closes : Event → Bool
  | .call _ c _ => c.closes
  | _ => false

/-- Nobody closes a file or exits while `sys_inodepairs` looks for owners. -/
def NoClose (_ : PState) : PEvent → Prop
  | .scan => True
  | .other e => e.closes = false

/-- A process that closes nothing keeps its descriptors. -/
theorem keepsFd_change {T : Table} {e : Event} {q : Pid} {c : Core} {fd : Fin NOFILE}
    (hclose : e.closes = false) (hlive : (T.proc q).Live)
    (hfd : (T.proc q).ofile fd = some f) (hc : Change T e q c) :
    c.Live ∧ c.pid = (T.proc q).pid ∧ c.ofile fd = some f := by
  have hset : ∀ {c : Core} {fd' : Fin NOFILE} {o : Option FPtr}, c.ofile fd = some f →
      c.ofile fd' = none → (c.setFd fd' o).ofile fd = some f := by
    intro c fd' o h h'
    have hne : fd ≠ fd' := by
      rintro rfl
      cases h.symm.trans h'
    exact (update_of_ne hne ..).trans h
  cases hc with
  | parent par | fault va fails he hs => exact ⟨hlive, rfl, hfd⟩
  | wake par hs | sleep ch b hs | dispatch he hs hb | resume he hs | timer user he hs =>
    exact ⟨⟨by rintro ⟨⟩, by rintro ⟨⟩⟩, rfl, hfd⟩
  | forkFail pid hs | born p pid hs hp => exact absurd hs hlive.1
  | reaped hs => exact absurd hs hlive.2
  | exit par status fails he hs =>
    rw [he] at hclose
    cases hclose
  | kill p pid fails he hpid =>
    refine ⟨?_, rfl, hfd⟩
    simp only [Core.kill]
    split
    · exact ⟨by rintro ⟨⟩, by rintro ⟨⟩⟩
    · exact hlive
  | own call fails c' he hs ho =>
    rw [he] at hclose
    cases ho with
    | dup arg fd' f' hfree | opn path omode fd' f' hlt hfree => exact ⟨hlive, rfl, hset hfd hfree⟩
    | close arg fd' => cases hclose
    | pipe fdarray fd0 fd1 f0 f1 hne h0 h1 =>
      refine ⟨hlive, rfl, hset (hset hfd h0) ?_⟩
      exact (update_of_ne hne.symm ..).trans h1
    | chdir path ip | cpuLimit n h0 hmax hlt | nofileLimit n h0 hmax hlt => exact ⟨hlive, rfl, hfd⟩

theorem Owns.step {e : Event} (h : Owns k a f) (hclose : e.closes = false) (hstep : Step k e k') :
    Owns k' a f := by
  obtain ⟨q, fd, hlive, hpid, hfd, hofile⟩ := h
  obtain ⟨hlive', hpid', hofile'⟩ := keepsFd_change hclose hlive hofile (step_change hstep q)
  exact ⟨q, fd, hlive', hpid'.trans hpid, hfd, hofile'⟩

/-- The owner found so far. -/
def OwnerSoFar (k : State) (o : Owner) (f : FPtr) : Prop := o = .none ∨ Owns k o f

/-- What is found at a process that holds descriptors is right. -/
theorem lookAt_soFar {q : Pid} (hidle : Idle (k.proc q).core) (ha : OwnerSoFar k a f)
    (hb : OwnerSoFar k b g) : OwnerSoFar k (lookAt (k.proc q) f g a b).1 f ∧
      OwnerSoFar k (lookAt (k.proc q) f g a b).2 g := by
  have hlast : ∀ {a f}, OwnerSoFar k a f →
      OwnerSoFar k ((ownersAt (k.proc q) f).getLastD a) f := by
    intro a f ha
    have hlast : (ownersAt (k.proc q) f).getLastD a ∈ a :: ownersAt (k.proc q) f :=
      getLastD_mem_cons
    rcases mem_cons.mp hlast with heq | hmem
    · rwa [heq]
    · unfold ownersAt at hmem ⊢
      split at hmem
      · rename_i hused
        rw [if_pos hused]
        obtain ⟨fd, hfd, heq⟩ := mem_map.mp hmem
        have hofile : (k.proc q).ofile fd = some f := by simpa using (mem_filter.mp hfd).2
        refine .inr ⟨q, fd, ⟨hused, fun hz => ?_⟩, congrArg Owner.pid heq, congrArg Owner.fd heq,
          hofile⟩
        cases hofile.symm.trans ((hidle (.inr hz)).1 fd)
      · cases hmem
  rw [lookAt_eq]
  exact ⟨hlast ha, hlast hb⟩

/-- The owners found are right, as long as the search goes on. -/
structure Searching (s : PState) : Prop where
  idle : ∀ q, Idle (s.kern.proc q).core
  found : ∀ f g q a b, s.scan.pc = .owners f g q a b → OwnerSoFar s.kern a f ∧
    OwnerSoFar s.kern b g

theorem Searching.step {me : Pid} {s s' : PState} {e : PEvent} (h : Searching s)
    (hC : NoClose s e) (hstep : PStep me s e s') : Searching s' := by
  cases hstep with
  | scan =>
    refine ⟨h.idle, fun f g q a b hpc => ?_⟩
    have hs := s.scan.step_cases s.kern
    generalize s.scan.step s.kern = s' at hs hpc ⊢
    cases hs with
    | pass pc hlocked =>
      have hpc : pc = .owners f g q a b := hpc
      rw [hpc] at hlocked
      cases hlocked
    | release f' g' hroom hopen =>
      cases hpc
      exact ⟨.inl rfl, .inl rfl⟩
    | look f' g' q' a' b' hpc' =>
      cases hpc
      obtain ⟨ha, hb⟩ := h.found _ _ _ _ _ hpc'
      exact lookAt_soFar (h.idle q') ha hb
    | store => cases hpc
  | other hun hactor hk =>
    refine ⟨fun q => idle_change (h.idle q) (step_change hk q), fun f g q a b hpc => ?_⟩
    obtain ⟨ha, hb⟩ := h.found f g q a b hpc
    exact ⟨ha.imp_right fun ha => ha.step hC hk, hb.imp_right fun hb => hb.step hC hk⟩

theorem OwnerSoFar.right (h : OwnerSoFar k a f) : OwnerRight k a f := by
  rcases h with rfl | h
  · exact fun hpid => absurd rfl hpid
  · exact fun _ _ => h

/--
**A record names the right owners, if nobody closes a file meanwhile.** In every
run of `sys_inodepairs` with other processes in which nobody calls `close` or exits
while it has dropped the lock of the file table, each record is right when it is
stored.
-/
theorem owners_right {k0 : State} {me : Pid} {es0 : List Event} {es : List PEvent} {s s' : PState}
    {r : Record} (hk : Booted k0) (hrun0 : Run Step k0 es0 k)
    (hrun : Run (Restrict NoClose (PStep me)) ⟨k, .start⟩ es s) (hstep : PStep me s .scan s')
    (hr : s'.scan.out = s.scan.out ++ [r]) : r.Right s'.kern := by
  have hs : Searching s := hrun.invariant ⟨idle_run hk hrun0, fun _ _ _ _ _ h => nomatch h⟩
    fun _ _ _ h hs => h.step hs.1 hs.2
  cases hstep with
  | scan =>
    have hi := s.scan.step_cases s.kern
    generalize s.scan.step s.kern = t at hi hr ⊢
    cases hi with
    | store f g q a b ip hpc =>
      obtain rfl : pairRecord s.kern f g ip a b = r := by simpa using hr
      obtain ⟨ha, hb⟩ := hs.found f g q a b hpc
      exact ⟨ha.right, hb.right⟩
    | pass | release | look => simp at hr

instance : ∀ (s : PState) (e : PEvent), Decidable (NoClose s e)
  | _, .scan => .isTrue trivial
  | _, .other e => inferInstanceAs (Decidable (e.closes = false))

/-- The next state, computed. -/
def PState.next (me : Pid) (s : PState) : PEvent → Option PState
  | .scan => some { s with scan := s.scan.step s.kern }
  | .other e =>
    if s.scan.pc.unlocked = true ∧ e.actor ≠ some me then
      (stepFn s.kern e).map fun k' => { s with kern := k' }
    else none

theorem pstep_of_next {me : Pid} {s s' : PState} {e : PEvent} (h : s.next me e = some s') :
    PStep me s e s' := by
  cases e with
  | scan =>
    cases h
    exact .scan
  | other e =>
    simp only [PState.next] at h
    split at h
    · rename_i hfree
      obtain ⟨k', hk', rfl⟩ := Option.map_eq_some_iff.mp h
      exact .other hfree.1 hfree.2 (step_of_stepFn hk')
    · cases h

/-- Init opens `/init` twice and forks. -/
def openTwice : List Event :=
  [.dispatch 0 [], .call 0 (.opn (some [47, 105, 110, 105, 116]) 0) [],
    .call 0 (.opn (some [47, 105, 110, 105, 116]) 0) [], .call 0 .fork []]

/-- The search passes the child, which then runs and does `c`. -/
def childDuring (c : Call) : List PEvent :=
  List.replicate 4 .scan ++ [.other (.dispatch 1 []), .other (.call 1 c [])] ++
    List.replicate 62 .scan

/-- `/init` is open in entries 0 and 1, as descriptors 0 and 1 of the child. -/
def childPair : Record where
  i := 0
  j := 1
  pair := { inum := 2, dev := 1, offset_a := 0, offset_b := 0
            pid_a := 2, fd_a := 0, pid_b := 2, fd_b := 1 }

/-- The child runs but closes nothing: it is named as the owner, and it is. -/
theorem owners_right_openTwice : ∃ k k' s s', Booted k ∧ Run Step k openTwice k' ∧
    Run (Restrict NoClose (PStep 0)) ⟨k', .start⟩ (childDuring .getpid) s ∧ PStep 0 s .scan s' ∧
    s'.scan.out = s.scan.out ++ [childPair] ∧ childPair.Right s'.kern := by
  obtain ⟨k, k', hk, hrun0, hrun⟩ := run_of_bootRun openTwice (C := fun _ _ => True)
    (f := fun k => (exec (fun s e => if NoClose s e then s.next 0 e else none) ⟨k, .start⟩
      (childDuring .getpid)).map fun s : PState =>
        decide (s.scan.out = [] ∧ (s.scan.step s.kern).out = [childPair]))
    (b := some true) fresh_small (by decide +kernel)
  obtain ⟨s, hs, hout⟩ := Option.map_eq_some_iff.mp hrun
  obtain ⟨hout, hstored⟩ := of_decide_eq_true hout
  have hruns : Run (Restrict NoClose (PStep 0)) ⟨k', .start⟩ (childDuring .getpid) s :=
    (run_restrict_of_exec hs).mono fun _ _ _ h => ⟨h.1, pstep_of_next h.2⟩
  have hnew : (s.scan.step s.kern).out = s.scan.out ++ [childPair] := by
    rw [hstored, hout]
    rfl
  exact ⟨k, k', s, _, hk, hrun0.of_restrict, hruns, .scan, hnew,
    owners_right hk hrun0.of_restrict hruns .scan hnew⟩

/-- **A record can name a process that has closed the file.** The search has passed
the child when the child closes descriptor 0; entry 0 is still open in init, so the
record is stored and names the child. -/
theorem owner_gone : ∃ k k' s s', Booted k ∧ Run Step k openTwice k' ∧
    Run (PStep 0) ⟨k', .start⟩ (childDuring (.close 0)) s ∧ PStep 0 s .scan s' ∧
    s'.scan.out = s.scan.out ++ [childPair] ∧ ¬ childPair.Right s'.kern := by
  obtain ⟨k, k', hk, hrun0, hrun⟩ := run_of_bootRun openTwice (C := fun _ _ => True)
    (f := fun k => (exec (PState.next 0) ⟨k, .start⟩ (childDuring (.close 0))).map fun s : PState =>
      decide (s.scan.out = [] ∧ (s.scan.step s.kern).out = [childPair] ∧
        ∀ q : Pid, (s.kern.proc q).pid = 2 → (s.kern.proc q).ofile 0 ≠ some 0))
    (b := some true) fresh_small (by decide +kernel)
  obtain ⟨s, hs, hout⟩ := Option.map_eq_some_iff.mp hrun
  obtain ⟨hout, hstored, hclosed⟩ := of_decide_eq_true hout
  have hruns := (run_of_exec hs).mono fun _ _ _ h => pstep_of_next h
  have hnew : (s.scan.step s.kern).out = s.scan.out ++ [childPair] := by
    rw [hstored, hout]
    rfl
  refine ⟨k, k', s, _, hk, hrun0.of_restrict, hruns, .scan, hnew, fun hright => ?_⟩
  obtain ⟨q, fd, -, hpid, hfd, hofile⟩ := hright.a (by decide) (by decide)
  obtain rfl : fd = 0 := Fin.ext (Int.natCast_inj.mp hfd)
  exact hclosed q hpid hofile

end Xv6.Kernel
