import Xv6.Kernel.Conservation
import Xv6.Kernel.Limits

/-!
# xv6 — `getrlimit` predicts `open`

`sys_getrlimit` reports how many more files a process may open. Three pieces of code
are behind that: the count of all used descriptors, the test at the start of
`sys_open`, and the search of `fdalloc` among the first `nofile_cur` descriptors.

* `wp_sysOpen_opened`, `wp_sysOpen_refused` — what an `open` does that gets as far as
  the descriptor, below the limit and at it.
* `getrlimit_predicts_open`      — the number reported is the number of opens that
  succeed.
-/

namespace Xv6.Kernel

open Prog TransitionRun ByteBuffer Function

variable {T : Table} {c : Core} {e : Event}

/-- What `getrlimit(RLIMIT_NOFILE)` reports as `rlim_cur`. -/
def Proc.rlimCur (pr : Proc) : Nat :=
  if pr.nofileMax ≤ openFiles pr then 0 else u64 (pr.nofileMax - openFiles pr)

/-- `sys_open` up to the point where it asks for a descriptor: the inode is found, and
an entry of the file table. -/
def openFile (p : Pid) (path : Fs.Path) (omode : Nat) : KM (Option (Fs.IPtr × FPtr)) := do
  onFs Fs.beginOp
  let k ← .gets id
  match ← onFs (openInode (k.proc p).cwd path omode) with
  | none => pure none
  | some ip => do
    let d ← onFs (Fs.dinodeOf ip)
    if d.type = .device ∧ (d.major < 0 ∨ (NDEV : Int) ≤ d.major) then pure none
    else do
      match ← filealloc with
      | none => pure none
      | some f => pure (some (ip, f))

/-- An `open` resolves: there is such an inode and a free entry of the file table. -/
def resolves (p : Pid) (path : Fs.Path) (omode : Nat) (k : State) : Bool :=
  match openFile p path omode k with
  | .ok (some _, _) => true
  | _ => false

/-- `sys_open` once the inode and the entry are found. -/
def openFd (p : Pid) (omode : Nat) (ip : Fs.IPtr) (f : FPtr) : KM Int := do
  match ← fdalloc p f with
  | none => do
    fileclose f
    openFail ip
  | some fd => do
    openInstall f ip omode
    pure fd

variable {k k' k1 s t t' : State} {p : Pid} {path : Fs.Path} {omode : Nat} {fails : List Bool}

/-! ### An open that resolves -/

/-- An `open` that resolves goes on with the descriptor. -/
theorem openOp_of_openFile {ip : Fs.IPtr} {f : FPtr}
    (h : openFile p path omode k = .ok (some (ip, f), k1)) :
    openOp p path omode k = openFd p omode ip f k1 := by
  obtain ⟨_, s1, h1, h⟩ := bind_eq_ok h
  obtain ⟨_, _, h2, h⟩ := bind_eq_ok h
  obtain ⟨r, s3, h3, h⟩ := bind_eq_ok h
  rw [openOp, bind_of_ok h1, bind_of_ok h2, bind_of_ok h3]
  cases r with
  | none => cases h
  | some ip' =>
    obtain ⟨d, s4, h4, h⟩ := bind_eq_ok h
    dsimp only
    rw [bind_of_ok h4]
    split at h
    · cases h
    · rename_i hd
      rw [if_neg hd]
      obtain ⟨r, s5, h5, h⟩ := bind_eq_ok h
      rw [bind_of_ok h5]
      cases r with
      | none => cases h
      | some f' =>
        obtain ⟨heq, rfl⟩ := Prod.mk.inj (Except.ok.inj h)
        obtain ⟨rfl, rfl⟩ := Prod.mk.inj (Option.some.inj heq)
        rfl

theorem keeps_openFile : KeepsTable (openFile p path omode) := by
  refine .bind keeps_onFs fun _ => .bind (.gets _) fun k => .bind keeps_onFs fun r => ?_
  cases r with
  | none => exact .pure _
  | some ip =>
    refine .bind keeps_onFs fun d => .ite (.pure _) (.bind keeps_filealloc fun r => ?_)
    cases r with
    | none | some f => exact .pure _

/-- With a free descriptor and no bound on the search, `fdalloc` finds one. -/
theorem wp_fdalloc_free {f : FPtr} (hT : k.table = T) (hcur : (T.proc p).nofileCur = NOFILE)
    (hfree : ∃ fd, (T.proc p).ofile fd = none) :
    wp (fdalloc p f) (fun r k' => ∃ fd, r = some fd ∧ (T.proc p).ofile fd = none ∧
      k'.table = T.set p ((T.proc p).setFd fd (some f))) NotInitExiting k := by
  have hsome : ((List.finRange NOFILE).find? fun fd =>
      ((fd.val : Int) < (k.proc p).nofileCur ∧ (k.proc p).ofile fd = none)).isSome := by
    subst hT
    obtain ⟨fd, hfd⟩ := hfree
    rw [List.find?_isSome]
    refine ⟨fd, List.mem_finRange fd, decide_eq_true ⟨?_, hfd⟩⟩
    rw [show (k.proc p).nofileCur = NOFILE from hcur]
    exact_mod_cast fd.isLt
  obtain ⟨fd, hfd⟩ := Option.isSome_iff_exists.mp hsome
  have hfound : wp (fdalloc p f) (fun r _ => r = some fd) (fun _ => True) k := by
    rw [fdalloc, wp_bind, wp_gets, id, hfd]
    rw [wp_bind, setFd, wp_updProc]
    exact wp_pure.mpr rfl
  refine wp_imp (wp_and (wp_fdalloc hT) hfound) ?_
  rintro _ k' ⟨hr, rfl⟩
  exact ⟨fd, rfl, hr⟩

theorem exists_free_fd {o : Fin NOFILE → Option FPtr} (h : countFiles o < NOFILE) :
    ∃ fd, o fd = none := by
  by_contra hno
  push Not at hno
  have hall : (Finset.univ.filter fun fd => (o fd).isSome = true) = Finset.univ :=
    Finset.filter_true_of_mem fun fd _ => Option.isSome_iff_ne_none.mpr (hno fd)
  rw [countFiles_eq_card, hall] at h
  exact lt_irrefl _ h

/-- The process got the new descriptor `fd`. -/
def NewFd (p : Pid) (k : State) (r : Int) (k' : State) : Prop :=
  ∃ fd f, (k.proc p).ofile fd = none ∧ r = fd ∧
    k'.table = k.table.set p ((k.table.proc p).setFd fd (some f))

/-- Below the limit, an open that resolves succeeds. -/
theorem wp_sysOpen_opened (hres : resolves p path omode k = true)
    (hcur : (k.proc p).nofileCur = NOFILE) (hmax : (k.proc p).nofileMax ≤ NOFILE)
    (hlt : (openFiles (k.proc p) : Int) < (k.proc p).nofileMax) :
    wp (sysOpen p (some path) omode) (NewFd p k) NotInitExiting k := by
  rw [sysOpen, wp_bind, wp_gets, wp_ite]
  refine ⟨fun hle => absurd hle (not_le.mpr hlt), fun _ => ?_⟩
  rw [resolves] at hres
  split at hres
  · rename_i x k1 hopen
    obtain ⟨ip, f⟩ := x
    have htable : k1.table = k.table :=
      wp_ok (Q := fun _ k' => k'.table = k.table) (keeps_openFile.wp k) hopen
    have hrest : wp (openFd p omode ip f) (NewFd p k) NotInitExiting k1 := by
      refine wp_then (wp_fdalloc_free htable hcur (exists_free_fd ?_)) ?_
      · have hcount : (countFiles (k.table.proc p).ofile : Int) < NOFILE := hlt.trans_le hmax
        exact_mod_cast hcount
      · rintro _ k2 ⟨fd, rfl, hfd, h2⟩
        refine wp_then (keeps_openInstall.to h2) fun _ k3 h3 => ?_
        exact wp_pure.mpr ⟨fd, f, hfd, rfl, h3⟩
    exact wp_of_eq (openOp_of_openFile hopen) hrest
  · cases hres

/-- At the limit, every open is refused. -/
theorem wp_sysOpen_refused (hle : (k.proc p).nofileMax ≤ (openFiles (k.proc p) : Int)) :
    wp (sysOpen p (some path) omode) (fun r k' => r = -1 ∧ k' = k) NotInitExiting k := by
  rw [sysOpen, wp_bind, wp_gets, wp_ite]
  exact ⟨fun _ => wp_pure.mpr ⟨rfl, rfl⟩, fun hlt => absurd hle hlt⟩

/-- A `close` that succeeds. -/
theorem wp_sysClose {fd : Int} :
    wp (sysClose p fd) (fun r k' => r = -1 ∨ ∃ i, (k.proc p).ofile i ≠ none ∧
      k'.table = k.table.set p ((k.table.proc p).setFd i none)) NotInitExiting k := by
  rw [sysClose, wp_bind, argfd, wp_gets]
  by_cases h : 0 ≤ fd ∧ fd < NOFILE
  · rw [dif_pos h]
    dsimp only
    cases hf : (k.proc p).ofile ⟨fd.toNat, by omega⟩ with
    | none => exact wp_pure.mpr (.inl rfl)
    | some f =>
      rw [Option.map_some]
      refine wp_then (wp_setFd rfl) fun _ k1 h1 => ?_
      refine wp_then (keeps_fileclose.to h1) fun _ k2 h2 => wp_pure.mpr (.inr ⟨_, ?_, h2⟩)
      rw [hf]
      exact Option.some_ne_none f
  · rw [dif_neg h]
    exact wp_pure.mpr (.inl rfl)

/-! ### Steps of the machine -/

/-- The state in which a call is served. -/
def State.withFails (k : State) (fails : List Bool) : State :=
  { k with mem := { k.mem with fails := fails } }

/-- A call that returns at once: its value is where user code finds it. -/
theorem step_returns {c : Call} {m : KM Int} (hc : syscall p c = returns m)
    (h : Step k (.call p c fails) k') : ∃ r k1, m (k.withFails fails) = .ok (r, k1) ∧
      k'.table = k1.table ∧ (k'.proc p).tf.a0 = u64 r ∧ k'.view p = k1.view p := by
  obtain ⟨_, k0, h0, h⟩ := bind_eq_ok h.2
  obtain ⟨r, k1, h1, h⟩ := bind_eq_ok h
  obtain ⟨-, rfl⟩ := Prod.mk.inj (Except.ok.inj h0)
  rw [hc] at h1
  obtain ⟨v, k2, h2, h1⟩ := bind_eq_ok h1
  obtain ⟨rfl, rfl⟩ := Prod.mk.inj (Except.ok.inj h1)
  have htable : k'.table = k2.table :=
    wp_ok (Q := fun _ k' => k'.table = k2.table) (keeps_setA0.wp k2) h
  obtain ⟨-, rfl⟩ := Prod.mk.inj (Except.ok.inj h)
  refine ⟨v, k2, h2, htable, ?_, ?_⟩
  · rw [State.setProc_proc_same]
  · rw [State.view, State.setProc_proc_same]
    rfl

/-- How many descriptors the limit leaves. -/
def Core.room (c : Core) : Nat := (c.nofileMax - countFiles c.ofile).toNat

/-- What is reported is what is left. -/
theorem rlimCur_eq {pr : Proc} (h : pr.nofileMax ≤ NOFILE) : pr.rlimCur = pr.core.room := by
  have hmax : pr.nofileMax ≤ 16 := h
  change (if pr.nofileMax ≤ (countFiles pr.ofile : Int) then 0
    else u64 (pr.nofileMax - countFiles pr.ofile)) = (pr.nofileMax - countFiles pr.ofile).toNat
  split
  · omega
  · rw [u64]
    omega

theorem room_setFd {fd : Fin NOFILE} (hfd : c.ofile fd = none) (f : FPtr) :
    (c.setFd fd (some f)).room = c.room - 1 := by
  simp only [Core.room, Core.setFd, countFiles_set hfd]
  omega

/-- A process of the run: the search of `fdalloc` is not bounded by anything but the
size of the table. -/
structure FdBounds (c : Core) : Prop where
  cur : c.state ≠ .unused → c.nofileCur = NOFILE
  max : NofileBounded c

theorem nofileCur_change {q : Pid}
    (h : ∀ p, (T.proc p).state ≠ .unused → (T.proc p).nofileCur = NOFILE) (hc : Change T e q c) :
    c.state ≠ .unused → c.nofileCur = NOFILE := by
  intro hs
  obtain ⟨p, hp, -, -, hcur | hcur⟩ | ⟨call, fails, -, hrun, ho⟩ := hc.limits hs
  · exact hcur
  · rw [hcur]
    exact h p hp
  · have hold := h q (by simp [hrun])
    cases ho <;> exact hold

theorem fdBounds_run {es : List Event} (hk : Booted k) (hrun : Run Step k es s) (p : Pid) :
    FdBounds (s.proc p).core where
  cur := core_invariant (P := fun c => c.state ≠ .unused → c.nofileCur = NOFILE) hk
    (fun hs => absurd rfl hs) (fun _ _ _ => rfl) (fun _ h hc => nofileCur_change h hc)
    hrun.restrict_true p
  max := nofileBounded_run hk hrun p

/-- The process has not exited. -/
def Core.live (c : Core) : Prop := c.state ≠ .unused ∧ c.state ≠ .zombie

/-- **An open that resolves** takes a new descriptor, or is refused for the limit. -/
theorem step_open (h : Step t (.call p (.opn (some path) omode) fails) t')
    (hres : resolves p path omode (t.withFails fails) = true) (hlive : (t.proc p).core.live)
    (hb : FdBounds (t.proc p).core) :
    if 0 < (t.proc p).core.room then ∃ fd f, (t.proc p).ofile fd = none ∧
        (t'.proc p).tf.a0 = fd ∧ t'.table = t.table.set p ((t.proc p).core.setFd fd (some f))
    else (t'.proc p).tf.a0 = u64 (-1) ∧ t'.table = t.table := by
  obtain ⟨r, k1, hrun, htable, ha0, -⟩ := step_returns rfl h
  split
  · rename_i hroom
    have hlt : (openFiles (t.proc p) : Int) < (t.proc p).nofileMax := by
      change 0 < ((t.proc p).nofileMax - (openFiles (t.proc p) : Int)).toNat at hroom
      omega
    obtain ⟨fd, f, hfd, rfl, h1⟩ := wp_ok (wp_sysOpen_opened hres
      (hb.cur hlive.1) (hb.max hlive.1).2 hlt) hrun
    refine ⟨fd, f, hfd, ?_, htable.trans h1⟩
    rw [ha0, u64]
    have hlt : fd.val < 16 := fd.isLt
    omega
  · rename_i hroom
    have hle : (t.proc p).nofileMax ≤ (openFiles (t.proc p) : Int) := by
      change ¬ 0 < ((t.proc p).nofileMax - (openFiles (t.proc p) : Int)).toNat at hroom
      omega
    obtain ⟨rfl, rfl⟩ := wp_ok (wp_sysOpen_refused (k := t.withFails fails) hle) hrun
    exact ⟨ha0, htable⟩

/-! ### Runs of opens -/

/-- The call changes the descriptors of the process, or their limit. -/
def Call.touchesFds : Call → Bool
  | .dup _ | .pipe _ | .close _ | .opn _ _ | .exit _ => true
  | .setrlimit resource _ => resource = RLIMIT_NOFILE
  | _ => false

/-- Opens that resolve, and calls that do not touch descriptors. -/
def Call.opensOnly (p : Pid) (k : State) : Call → Bool
  | .opn (some path) omode => resolves p path omode k
  | c => ! c.touchesFds

/-- Process `p` makes no descriptor operation but opens that resolve. What others do is
free. -/
def OpensOnly (p : Pid) (k : State) : Event → Prop
  | .call q c fails => q = p → c.opensOnly p (k.withFails fails) = true
  | _ => True

instance (p : Pid) (k : State) : (e : Event) → Decidable (OpensOnly p k e)
  | .call .. => inferInstanceAs (Decidable (_ → _))
  | .dispatch .. | .timer .. | .fault .. | .store .. | .tick => isTrue trivial

/-- The event is an open of process `p`. -/
def Event.opensBy (p : Pid) : Event → Bool
  | .call q (.opn _ _) _ => q = p
  | _ => false

/-- What no descriptor operation of the process changes. -/
theorem Change.keeps_fds (h : Change T e p c) (hlive : (T.proc p).live)
    (hno : ∀ call fails, e = .call p call fails → call.touchesFds = false) :
    c.live ∧ c.room = (T.proc p).room := by
  cases h with
  | parent par | fault va fails he hs => exact ⟨hlive, rfl⟩
  | wake par hs | sleep ch b hs | dispatch he hs | resume he hs | timer user he hs =>
    exact ⟨⟨by rintro ⟨⟩, by rintro ⟨⟩⟩, rfl⟩
  | forkFail pid hs | born q pid hs hq => exact absurd hs hlive.1
  | exit par status fails he hs => exact absurd (hno _ _ he) (by simp [Call.touchesFds])
  | reaped hs => exact absurd hs hlive.2
  | kill q pid fails he hpid =>
    refine ⟨?_, rfl⟩
    rw [Core.kill]
    split
    · exact ⟨by rintro ⟨⟩, by rintro ⟨⟩⟩
    · exact hlive
  | own call fails c' he hs ho =>
    have htouch := hno _ _ he
    cases ho with
    | chdir path ip | cpuLimit n h0 hmax hlt => exact ⟨hlive, rfl⟩
    | dup arg fd f hfd | close arg fd | opn path omode fd f hlt hfd
    | pipe fdarray fd0 fd1 f0 f1 hne h0 h1 | nofileLimit n h0 hmax hlt => cases htouch

/-- What a call of such a run is. -/
theorem Call.opensOnly_cases {c : Call} (h : c.opensOnly p k = true) :
    (∃ path omode, c = .opn (some path) omode ∧ resolves p path omode k = true) ∨
      c.touchesFds = false ∧ ∀ q fails, (Event.call q c fails).opensBy p = false := by
  cases c with
  | opn path omode =>
    rcases path with _ | path
    · cases h
    · exact .inl ⟨path, omode, rfl, h⟩
  | _ => exact .inr ⟨by simpa [Call.opensOnly] using h, fun _ _ => rfl⟩

/-- One event: an open that resolves takes one of what is left. -/
theorem step_room (hC : OpensOnly p t e) (hs : Step t e t') (hlive : (t.proc p).core.live)
    (hb : FdBounds (t.proc p).core) : (t'.proc p).core.live ∧
      (t'.proc p).core.room = (t.proc p).core.room - if e.opensBy p then 1 else 0 := by
  have hquiet : e.opensBy p = false →
      (∀ call fails, e = .call p call fails → call.touchesFds = false) →
      (t'.proc p).core.live ∧
        (t'.proc p).core.room = (t.proc p).core.room - if e.opensBy p then 1 else 0 := by
    intro hopens hno
    rw [hopens]
    exact (step_change hs p).keeps_fds hlive hno
  cases e with
  | call q c fails =>
    by_cases hq : q = p
    · subst hq
      rcases Call.opensOnly_cases (hC rfl) with ⟨path, omode, rfl, hres⟩ | ⟨htouch, hopens⟩
      · have hopens : (Event.call q (.opn (some path) omode) fails).opensBy q = true :=
          decide_eq_true rfl
        rw [hopens]
        have hopen := step_open hs hres hlive hb
        split at hopen
        · obtain ⟨fd, f, hfd, -, htable⟩ := hopen
          rw [← State.table_proc, htable, Table.set_same]
          exact ⟨hlive, room_setFd hfd f⟩
        · rw [← State.table_proc, hopen.2, State.table_proc]
          exact ⟨hlive, by omega⟩
      · refine hquiet (hopens q fails) ?_
        rintro _ _ ⟨rfl, rfl⟩
        exact htouch
    · refine hquiet ?_ ?_
      · cases c <;> first | rfl | exact decide_eq_false hq
      · rintro _ _ ⟨rfl, rfl⟩
        exact absurd rfl hq
  | dispatch q fails | timer q user | fault q va fails | store q va v | tick =>
    exact hquiet rfl nofun

/-- A run of opens that resolve. -/
theorem run_room {es es' : List Event} (hk : Booted k) (hrun : Run Step k es s)
    (hlive : (s.proc p).core.live) (hopens : Run (Restrict (OpensOnly p) Step) s es' t) :
    (t.proc p).core.live ∧
      (t.proc p).core.room = (s.proc p).core.room - es'.countP (Event.opensBy p) := by
  induction hopens with
  | start => exact ⟨hlive, rfl⟩
  | @snoc es1 t1 t2 e hrun1 hs ih =>
    have hb := fdBounds_run hk (hrun.append hrun1.of_restrict) p
    obtain ⟨hlive2, hroom⟩ := step_room hs.1 hs.2 ih.1 hb
    refine ⟨hlive2, ?_⟩
    rw [hroom, ih.2, List.countP_append, List.countP_singleton]
    omega

/-! ### The report -/

theorem wp_copyout_view {L : Layout} {A : Multiset Nat} {u : Pid → Bool} {va : Nat}
    {bs : List UInt8} (h : Good L A u k) (hp : u p = false) :
    wp (copyout p va bs) (fun ok k' => ok = true → k'.view p = (k.view p).store va bs) NotVm k := by
  refine wp_imp (wp_onUser h hp (R := fun s ok s' => ok = true → s'.view = s.view.store va bs)
    fun hs => ?_) ?_
  · rw [Vm.copyout_eq_count]
    refine wp_then (Vm.wp_copyoutCount va bs hs) fun n s' h' =>
      wp_pure.mpr ⟨h'.apart, fun hok => ?_⟩
    rw [h'.view, of_decide_eq_true hok, List.take_length]
  · rintro ok k' ⟨-, -, pt, s', hpt, rfl, hview⟩ hok
    rw [State.view_putUser, hview hok, State.view_user hpt]

theorem wp_sysGetrlimit {L : Layout} {A : Multiset Nat} {u : Pid → Bool} {addr : Nat}
    (h : Good L A u k) (hp : u p = false) :
    wp (sysGetrlimit p RLIMIT_NOFILE addr) (fun r k' => r = -1 ∨
      leField (k'.view p).byte addr 8 = (k.proc p).rlimCur) NotVm k := by
  rw [sysGetrlimit, wp_bind, wp_gets]
  dsimp only
  rw [if_pos rfl]
  refine wp_then (wp_copyout_view h hp) fun ok k' hview => ?_
  rw [wp_ite]
  refine ⟨fun hok => wp_pure.mpr (.inr ?_), fun _ => wp_pure.mpr (.inl rfl)⟩
  rw [hview hok, Vm.View.store]
  rw [← store_append, length_leBytes]
  have hcongr : ∀ b : Buffer, ∀ bs, leField (store b (addr + 8) bs) addr 8 = leField b addr 8 :=
    fun b bs => leField_congr fun i _ hi => store_of_outside (by omega)
  rw [hcongr, leField_store_leBytes]
  refine Nat.mod_eq_of_lt ?_
  change Proc.rlimCur _ < _
  rw [Proc.rlimCur, u64]
  split <;> omega

/-- A used descriptor becomes free. -/
theorem countFiles_clear {o : Fin NOFILE → Option FPtr} {fd : Fin NOFILE} (h : o fd ≠ none) :
    countFiles (update o fd none) + 1 = countFiles o := by
  obtain ⟨f, hf⟩ := Option.ne_none_iff_exists'.mp h
  have hfree : update o fd none fd = none := update_self ..
  have hset := countFiles_set hfree f
  rw [update_idem, ← hf, update_eq_self] at hset
  exact hset.symm

/--
**`getrlimit(RLIMIT_NOFILE)` predicts `open`.** In every state of every run, for a
process that has not exited: `getrlimit` that succeeds stores `rlim_cur`; of the opens
that follow, resolve and have no other descriptor operation of the process between them,
the first `rlim_cur` return a new descriptor and lower it by one, and all later ones are
refused; and a `close` by a process within its limit raises it by one.
-/
theorem getrlimit_predicts_open {k0 : State} {boot : Multiset Nat} {es : List Event}
    (h0 : Fresh k0) (hmem : BootMem boot k0.mem) (hboot : userinit k0 = .ok ((), k))
    (hrun : Run Step k es s) (hlive : (s.proc p).state ≠ .unused ∧ (s.proc p).state ≠ .zombie) :
    (∀ addr fails s', Step s (.call p (.getrlimit RLIMIT_NOFILE addr) fails) s' →
      (s'.proc p).tf.a0 = 0 → leField (s'.view p).byte addr 8 = (s.proc p).rlimCur) ∧
    (∀ es' t path omode fails t', Run (Restrict (OpensOnly p) Step) s es' t →
      Step t (.call p (.opn (some path) omode) fails) t' →
      resolves p path omode (t.withFails fails) = true →
      if es'.countP (Event.opensBy p) < (s.proc p).rlimCur then
        ∃ fd f, (t.proc p).ofile fd = none ∧ (t'.proc p).tf.a0 = fd ∧
          (t'.proc p).ofile = update (t.proc p).ofile fd (some f) ∧
          (t'.proc p).rlimCur + 1 = (t.proc p).rlimCur
      else (t'.proc p).tf.a0 = u64 (-1) ∧ (t'.proc p).ofile = (t.proc p).ofile) ∧
    (∀ fd fails s', Step s (.call p (.close fd) fails) s' → (s'.proc p).tf.a0 = 0 →
      (openFiles (s.proc p) : Int) ≤ (s.proc p).nofileMax →
      (s'.proc p).rlimCur = (s.proc p).rlimCur + 1) := by
  have hk : Booted k := ⟨k0, h0, hboot⟩
  have hb := fdBounds_run hk hrun p
  have hcur : (s.proc p).rlimCur = (s.proc p).core.room := rlimCur_eq (hb.max hlive.1).2
  refine ⟨fun addr fails s' hs ha0 => ?_, fun es' t path omode fails t' hopens hs hres => ?_,
    fun fd fails s' hs ha0 hle => ?_⟩
  · obtain ⟨r, k1, hr, -, hret, hview⟩ := step_returns rfl hs
    obtain ⟨u1, h1⟩ := wp_ok (wp_userinit_pages (h0.good hmem)) hboot
    obtain ⟨u, h⟩ := good_run h1 hrun
    have h' := wp_ok (flows_setFails.wp s h)
      (rfl : setFails fails s = .ok ((), s.withFails fails))
    obtain rfl | hfield := wp_ok (wp_sysGetrlimit h' (h.used hlive.1)) hr
    · rw [hret] at ha0
      exact absurd ha0 (by decide)
    · rw [hview]
      exact hfield
  · have hb' := fdBounds_run hk (hrun.append hopens.of_restrict) p
    obtain ⟨hlive', hroom⟩ := run_room hk hrun hlive hopens
    have hopen := step_open hs hres hlive' hb'
    have hcur' : (t.proc p).rlimCur = (t.proc p).core.room := rlimCur_eq (hb'.max hlive'.1).2
    by_cases hlt : es'.countP (Event.opensBy p) < (s.proc p).rlimCur
    · rw [if_pos hlt]
      rw [if_pos (by omega)] at hopen
      obtain ⟨fd, f, hfd, ha0, htable⟩ := hopen
      have hcore : (t'.proc p).core = (t.proc p).core.setFd fd (some f) := by
        rw [← State.table_proc, htable, Table.set_same]
      have hmax : (t'.proc p).nofileMax = (t.proc p).nofileMax := congrArg Core.nofileMax hcore
      refine ⟨fd, f, hfd, ha0, congrArg Core.ofile hcore, ?_⟩
      rw [rlimCur_eq (hmax ▸ (hb'.max hlive'.1).2), hcore, room_setFd hfd]
      omega
    · rw [if_neg hlt]
      rw [if_neg (by omega)] at hopen
      refine ⟨hopen.1, ?_⟩
      have hcore : (t'.proc p).core = (t.proc p).core := by
        rw [← State.table_proc, hopen.2, State.table_proc]
      exact congrArg Core.ofile hcore
  · obtain ⟨r, k1, hr, htable, hret, -⟩ := step_returns rfl hs
    obtain rfl | ⟨i, hi, h1⟩ := wp_ok (wp_sysClose) hr
    · rw [hret] at ha0
      exact absurd ha0 (by decide)
    · have hcore : (s'.proc p).core = (s.proc p).core.setFd i none := by
        rw [← State.table_proc, htable, h1, Table.set_same]
        rfl
      have hmax : (s'.proc p).nofileMax = (s.proc p).nofileMax := congrArg Core.nofileMax hcore
      rw [rlimCur_eq (hmax ▸ (hb.max hlive.1).2), hcore, hcur]
      have hcount := countFiles_clear hi
      change _ = ((s.proc p).nofileMax - (countFiles (s.proc p).ofile : Int)).toNat + 1
      change ((s.proc p).nofileMax -
        (countFiles (update (s.proc p).ofile i none) : Int)).toNat = _
      change countFiles (update (s.proc p).ofile i none) + 1 =
        countFiles (s.proc p).ofile at hcount
      change (countFiles (s.proc p).ofile : Int) ≤ (s.proc p).nofileMax at hle
      omega

/-- init opens the root directory again. -/
def openRoot : Event := .call 0 (.opn (some [Fs.slash]) 0) []

/-- With a limit of two files and one of them open, one more can be opened. -/
theorem getrlimit_predicts_open_limitTwo : ∃ k s t t', userinit small = .ok ((), k) ∧
    Run Step k limitTwo s ∧ (s.proc 0).rlimCur = 1 ∧
    Run (Restrict (OpensOnly 0) Step) s [openRoot] t ∧ Step t openRoot t' ∧
    (t'.proc 0).tf.a0 = u64 (-1) ∧ (t'.proc 0).ofile = (t.proc 0).ofile := by
  obtain ⟨k, s, hboot, hrun, hs⟩ := userinit_of_bootRun small limitTwo (C := fun _ _ => True)
    (f := fun s => ((s.proc 0).state == .running && (s.proc 0).rlimCur == 1 &&
      ((exec (fun s e => if OpensOnly 0 s e then stepFn s e else none) s [openRoot]).any fun t =>
        resolves 0 [Fs.slash] 0 (t.withFails []) && (stepFn t openRoot).isSome)))
    (b := true) (by decide +kernel)
  simp only [Bool.and_eq_true, Option.any_eq_true, beq_iff_eq] at hs
  obtain ⟨⟨hstate, hcur⟩, t, ht, hres, ht'⟩ := hs
  obtain ⟨t', ht'⟩ := Option.isSome_iff_exists.mp ht'
  have hopens : Run (Restrict (OpensOnly 0) Step) s [openRoot] t :=
    (run_restrict_of_exec ht).mono fun _ _ _ h => ⟨h.1, step_of_stepFn h.2⟩
  have hstep := step_of_stepFn ht'
  have hnext := (getrlimit_predicts_open fresh_small bootMem_small hboot hrun.of_restrict
    (by rw [hstate]; decide)).2.1 _ _ _ _ _ _ hopens hstep hres
  rw [if_neg (by rw [hcur]; decide)] at hnext
  exact ⟨k, s, t, t', hboot, hrun.of_restrict, hcur, hopens, hstep, hnext⟩

end Xv6.Kernel
