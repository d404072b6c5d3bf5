import Xv6.Console.Discipline
import Xv6.Kernel.DiskOrder
import Xv6.Kernel.Lazy
import Xv6.Pipe.Fifo

/-!
# xv6 — what `read` stores

`fileread` hands a signed count to three back ends. `piperead` and `consoleread` count
up to it; `readi` takes it as an unsigned number and cuts it off at the end of the file.

* `filereadTraced`       — `fileread`, with the bytes it stores as part of its result.
* `Delivered`            — a copy to user memory in pieces.
* `fileread_bounds`      — what a read stores and returns; of an inode it stores at most
  what was asked for exactly if the count is not a small enough negative number.
-/

namespace Xv6.Kernel

open Prog Vm ByteBuffer TransitionRun

variable {α ε : Type} {ip : Fs.IPtr}

/-! ### Recording what is stored -/

/-- `copyout`, with a record of the bytes it stores. -/
def copyoutTraced (dstva : Nat) (src : List UInt8) : Prog Vm.Panic (User × List UInt8) Bool := do
  let n ← (copyoutCount dstva src).zoom ⟨Prod.fst, fun s u => (u, s.2)⟩ id
  .modify fun s => (s.1, s.2 ++ src.take n)
  pure (decide (n = src.length))

theorem forgets_copyoutTraced (dstva : Nat) (src : List UInt8) :
    Forgets Prod.fst (copyoutTraced dstva src) (Vm.copyout dstva src) := by
  refine ⟨fun s => ?_⟩
  rw [copyout_eq_count]
  simp only [copyoutTraced, Bind.bind, zoom]
  cases copyoutCount dstva src s.1 <;> rfl

/-- Run a program that keeps a record, from the empty one, and return it. -/
def recorded (m : Fs.IoM ε (User × List UInt8) α) : Fs.IoM ε User (α × List UInt8) :=
  withLocal [] id (m.zoom ⟨fun s => (s.1.1, s.1.2, s.2), fun _ t => ((t.1, t.2.1), t.2.2)⟩ id)

theorem wp_recorded {m : Fs.IoM ε (User × List UInt8) α}
    {Q : α × List UInt8 → Fs.State × User → Prop} {E : Fs.Panic ⊕ ε → Prop} {s : Fs.State × User} :
    wp (recorded m) Q E s ↔ wp m (fun a t => Q (a, t.2.2) (t.1, t.2.1)) E (s.1, s.2, []) := by
  rw [recorded, wp_withLocal, wp_zoom]
  rfl

/-- Without the record it is the program that keeps none. -/
theorem recorded_fst {m' : Fs.IoM ε (User × List UInt8) α} {m : Fs.IoM ε User α}
    (h : Forgets (Prod.map id Prod.fst) m' m) :
    (do
      let x ← recorded m'
      pure x.1) = m := by
  funext s
  have hs := h.eq (s.1, s.2, [])
  simp only [recorded, Bind.bind, withLocal, zoom]
  cases hm : m' (s.1, s.2, []) with
  | error e | ok r =>
    rwa [hm] at hs

/-- `fileread`, with the bytes it stores as part of its result. -/
def filereadTraced (p : Pid) (f : FPtr) (addr : Nat) (n : Int) (tr : Transfer) :
    KM (Int × List UInt8) := do
  let k ← .gets id
  let x := k.file f
  if x.readable = false then pure (-1, [])
  else
    match x.type with
    | .pipe => do
      let m ← onUser p none (copyoutCount addr tr.bytes)
      pure (tr.ret, tr.bytes.take m)
    | .device =>
      if x.major ≠ CONSOLE then pure (-1, [])
      else do
        let m ← onUser p none (copyoutCount addr tr.bytes)
        pure (tr.ret, tr.bytes.take m)
    | .inode => do
      let ip ← onFs (ptr x.ip)
      onFs (Fs.ilock ip)
      let y ← onIo p (recorded (Fs.readi ip (fun tot bs => copyoutTraced (u64 (addr + tot)) bs)
        x.off (u32 n)))
      Prog.when (0 < y.1) (updFile f fun x => { x with off := u32 (x.off + y.1) })
      onFs (Fs.iunlock ip)
      pure y
    | .none => .stop (.kern .fileread)

variable {L : Layout} {A : Multiset Nat} {u : Pid → Bool} {k s : State} {p : Pid} {f : FPtr}
  {addr : Nat} {n : Int} {tr : Transfer}

theorem onUser_bind_pure {β γ : Type} {m : UserM β} {m' : UserM γ} {g : β → γ}
    (h : m' = m >>= fun b => pure (g b)) :
    onUser p none m' = onUser p none m >>= fun b => pure (g b) := by
  subst h
  funext k
  simp only [onUser, Bind.bind, gets, id]
  cases (k.proc p).pagetable with
  | none => rfl
  | some pt =>
    simp only [zoom]
    cases m (k.user p pt none) <;> rfl

theorem onIo_bind_pure {β γ : Type} {m : Fs.IoM Vm.Panic User β} {m' : Fs.IoM Vm.Panic User γ}
    {g : β → γ} (h : m' = m >>= fun b => pure (g b)) :
    onIo p m' = onIo p m >>= fun b => pure (g b) := by
  subst h
  funext k
  simp only [onIo, Bind.bind, gets, id]
  cases (k.proc p).pagetable with
  | none => rfl
  | some pt =>
    simp only [zoom]
    cases m (k.fs, k.user p pt none) <;> rfl

/-- The record is only a record. -/
theorem fileread_eq_traced (p : Pid) (f : FPtr) (addr : Nat) (n : Int) (tr : Transfer) :
    fileread p f addr n tr = (do
      let x ← filereadTraced p f addr n tr
      pure x.1) := by
  have hout : (do
      let _ ← copyout p addr tr.bytes
      pure tr.ret : KM Int) = (do
        let m ← onUser p none (copyoutCount addr tr.bytes)
        let x ← (pure (tr.ret, tr.bytes.take m) : KM (Int × List UInt8))
        pure x.1) := by
    rw [copyout, onUser_bind_pure (copyout_eq_count addr tr.bytes), bind_assoc]
    rfl
  have hin : ∀ ip off, onIo p (Fs.readi ip (fun tot bs => Vm.copyout (u64 (addr + tot)) bs) off
      (u32 n)) = (do
        let y ← onIo p (recorded (Fs.readi ip (fun tot bs => copyoutTraced (u64 (addr + tot)) bs)
          off (u32 n)))
        pure y.1) := fun ip off =>
    onIo_bind_pure (recorded_fst (Fs.forgets_readi (fun _ _ => forgets_copyoutTraced _ _) off)).symm
  rw [fileread, filereadTraced, bind_assoc]
  refine bind_congr fun k => ?_
  dsimp only
  by_cases hr : (k.file f).readable = false
  · rw [if_pos hr, if_pos hr]
    rfl
  rw [if_neg hr, if_neg hr]
  cases (k.file f).type with
  | none => rfl
  | pipe =>
    rw [hout, bind_assoc]
  | device =>
    dsimp only
    by_cases hmajor : (k.file f).major ≠ CONSOLE
    · rw [if_pos hmajor, if_pos hmajor]
      rfl
    · rw [if_neg hmajor, if_neg hmajor, hout, bind_assoc]
  | inode =>
    rw [bind_assoc]
    refine bind_congr fun ip => ?_
    rw [bind_assoc]
    refine bind_congr fun _ => ?_
    rw [hin, bind_assoc, bind_assoc]
    refine bind_congr fun y => ?_
    rw [pure_bind, bind_assoc]
    refine bind_congr fun _ => ?_
    rw [bind_assoc]
    rfl

/-! ### A copy in pieces -/

/-- The first `m` of the bytes `data` from `off` on were stored at `addr`, and recorded. -/
structure Delivered (kend total : Nat) (B : Multiset Nat) (sz addr : Nat) (data : Buffer)
    (off : Nat) (u : User) (m : Nat) (s : User × List UInt8) : Prop where
  ok : UserOk kend total B sz s.1
  bytes : s.2 = load data off m
  view : s.1.view = u.view.store addr s.2
  pass : ∀ i, i < m → u.view.writable sz (addr + i) = true

section Delivered

variable {kend total sz off tot m : Nat} {B : Multiset Nat} {data : Buffer} {v : User}
  {d : User × List UInt8}

theorem Delivered.start (h : UserOk kend total B sz v) :
    Delivered kend total B sz addr data off v 0 (v, []) where
  ok := h
  bytes := rfl
  view := (View.store_nil _ _).symm
  pass := nofun

/-- Addresses do not wrap where something was stored before. -/
theorem Delivered.next_addr (hv : UserOk kend total B sz v) (haddr : addr < 2 ^ 64)
    (h : Delivered kend total B sz addr data off v tot d) : u64 (addr + tot) = addr + tot := by
  have hlt : addr + tot < 2 ^ 64 := by
    rcases Nat.eq_zero_or_pos tot with rfl | hpos
    · exact haddr
    · have hw := h.pass (tot - 1) (by omega)
      by_contra hge
      rw [not_writable_of_MAXVA hv] at hw
      · cases hw
      · rw [pgRoundDown_eq, PGSIZE_eq, MAXVA]
        omega
  rw [u64]
  omega

/-- What a piece that could not be stored as a whole leaves. -/
def Cut (kend total : Nat) (B : Multiset Nat) (sz addr : Nat) (data : Buffer) (off len : Nat)
    (v : User) (d : User × List UInt8) : Prop :=
  ∃ m, m ≤ len ∧ Delivered kend total B sz addr data off v m d ∧
    (m = 0 → v.view.writable sz addr = false ∨ v.mem.Short (faultPages sz v.pt addr 1))

/-- The next piece. As long as nothing is stored, nothing has changed. -/
theorem Delivered.next {len : Nat} (hv : UserOk kend total B sz v) (haddr : addr < 2 ^ 64)
    (hlen : tot + m ≤ len) (h : Delivered kend total B sz addr data off v tot d)
    (hfirst : tot = 0 → d.1 = v) :
    wp (copyoutTraced (u64 (addr + tot)) (load data (off + tot) m)) (fun ok d' => if ok
      then Delivered kend total B sz addr data off v (tot + m) d' ∧ (tot + m = 0 → d'.1 = v)
      else Cut kend total B sz addr data off len v d') (fun _ => False) d := by
  rw [h.next_addr hv haddr, copyoutTraced, wp_bind, wp_zoom]
  refine wp_mono (wp_copyoutCount (addr + tot) _ h.ok) ?_ fun _ => id
  intro c u' hc
  have hle := hc.passed.le
  rw [length_load] at hle
  have hpassed := hc.passed
  rw [h.view] at hpassed
  have hlength : d.2.length = tot := by rw [h.bytes, length_load]
  have hnil : load data (off + tot) m = [] ↔ m = 0 := by rw [← List.length_eq_zero_iff, length_load]
  have hnext : Delivered kend total B sz addr data off v (tot + c)
      (u', d.2 ++ (load data (off + tot) m).take c) := by
    refine ⟨hc.apart.ok, ?_, ?_, fun i hi => ?_⟩
    · rw [take_load hle, h.bytes, load_add]
    · have happend := v.view.store_append addr d.2 ((load data (off + tot) m).take c)
      rw [hlength] at happend
      rw [hc.view, h.view, happend]
    · by_cases hi' : i < tot
      · exact h.pass i hi'
      · have hw := hpassed.pass (i - tot) (by omega)
        rwa [show addr + tot + (i - tot) = addr + i by omega] at hw
  rw [wp_bind, wp_modify]
  refine wp_pure.mpr ?_
  rw [length_load]
  by_cases hcm : c = m
  · subst hcm
    rw [decide_eq_true rfl]
    refine ⟨hnext, fun hzero => ?_⟩
    exact (hc.same (hnil.mpr (by omega))).trans (hfirst (by omega))
  · rw [decide_eq_false hcm]
    refine ⟨tot + c, by omega, hnext, fun hzero => ?_⟩
    obtain ⟨rfl, rfl⟩ : tot = 0 ∧ c = 0 := by omega
    rw [← hfirst rfl]
    exact hc.first rfl fun hempty => hcm (hnil.mp hempty).symm

end Delivered

/-! ### Inodes -/

theorem wp_ilock_valid {fs : Fs.State} (hpos : 0 < (fs.inode ip).ref)
    (hvalid : (fs.inode ip).valid = true) :
    wp (Fs.ilock ip) (fun _ fs' => fs' = fs.setInode ip fun i => { i with locked := true })
      (fun e => e = .hang) fs := by
  rw [Fs.ilock, wp_bind, wp_gets]
  dsimp only [id]
  rw [if_neg (by omega), wp_ite]
  refine ⟨fun _ => wp_stop.mpr rfl, fun _ => ?_⟩
  rw [if_pos hvalid]
  exact wp_modify.mpr rfl

theorem wp_iunlock_locked {fs : Fs.State} {E : Fs.Panic → Prop} (hpos : 0 < (fs.inode ip).ref)
    (hlocked : (fs.inode ip).locked = true) : wp (Fs.iunlock ip) (fun _ _ => True) E fs := by
  rw [Fs.iunlock, wp_bind, wp_gets]
  dsimp only [id]
  rw [if_neg]
  · exact wp_modify.mpr trivial
  · rintro (h | h)
    · rw [hlocked] at h
      cases h
    · omega

/-- What a read of inode `ip` leaves, of which `len` bytes are there to be read. -/
structure InodeRead (p : Pid) (f : FPtr) (addr len : Nat) (k : State) (x : Int × List UInt8)
    (k' : State) : Prop where
  view : k'.view p = (k.view p).store addr x.2
  ret : x.1 = x.2.length ∨ x.1 = -1
  off : ((k'.file f).off : Int) = (k.file f).off + max x.1 0
  le : x.2.length ≤ len
  nil : (k.view p).writable (k.proc p).sz addr = false → x.2 = []
  short : 0 < len → x.2 = [] →
    (k.view p).writable (k.proc p).sz addr = false ∨ k.mem.Short (k.faults p addr 1)

/-- What has been stored tells what a read leaves. -/
theorem Delivered.inodeRead {kend total off m len : Nat} {B : Multiset Nat} {data : Buffer}
    {pt : Pagetable} {r : Int} {d : User × List UInt8} {file' : FPtr → File} {fs' : Fs.State}
    (hpt : (k.proc p).pagetable = some pt)
    (h : Delivered kend total B (k.proc p).sz addr data off (k.user p pt none) m d)
    (hm : m ≤ len) (hr : r = m ∨ r = -1)
    (hcut : 0 < len → m = 0 → (k.view p).writable (k.proc p).sz addr = false ∨
      k.mem.Short (k.faults p addr 1)) (hoff : ((file' f).off : Int) = (k.file f).off + max r 0) :
    InodeRead p f addr len k (r, d.2) { k.putUser p d.1 with fs := fs', file := file' } := by
  have hlength : d.2.length = m := by rw [h.bytes, length_load]
  have hview := State.view_user hpt
  refine ⟨?_, ?_, hoff, by rw [hlength]; exact hm, fun hno => ?_, fun hlen hnil => ?_⟩
  · rw [← hview, ← h.view]
    exact State.view_putUser k p d.1
  · rw [hlength]
    exact hr
  · refine List.length_eq_zero_iff.mp (hlength.trans (Nat.eq_zero_of_not_pos fun hpos => ?_))
    have hw := h.pass 0 hpos
    rw [Nat.add_zero, hview, hno] at hw
    cases hw
  · refine hcut hlen ?_
    rw [← hlength, show d.2 = [] from hnil, List.length_nil]

theorem readLen_add_le {d : Fs.Dinode} {off n : Nat} (h : 0 < Fs.readLen d off n) :
    off + Fs.readLen d off n ≤ d.size := by
  rw [Fs.readLen] at h ⊢
  split at h
  · exact absurd h (lt_irrefl 0)
  · rename_i hin
    rw [if_neg hin]
    split <;> omega

/-- **Reading an inode**: the kernel waits for its lock, or the read ends. -/
theorem wp_filereadTraced_inode (h : Good L A u k) (hp : u p = false) (haddr : addr < 2 ^ 64)
    (hr : (k.file f).readable = true) (htype : (k.file f).type = .inode)
    (hoff : (k.file f).off < 2 ^ 32) (hip : (k.file f).ip = some ip)
    (hpos : 0 < (k.fs.inode ip).ref) (hvalid : (k.fs.inode ip).valid = true)
    (hw : Fs.Whole k.fs.data (k.fs.inode ip).d) : wp (filereadTraced p f addr n tr)
      (InodeRead p f addr (Fs.readLen (k.fs.inode ip).d (k.file f).off (u32 n)) k)
      (fun e => e = .fs .hang) k := by
  generalize hlen : Fs.readLen (k.fs.inode ip).d (k.file f).off (u32 n) = len
  have hsize : 0 < len → (k.file f).off + len < 2 ^ 32 := by
    intro hpos
    have hle := readLen_add_le (hlen ▸ hpos)
    have hmax := hw.size_le
    rw [Fs.MAXFILE_eq, Fs.BSIZE_eq] at hmax
    omega
  rw [filereadTraced, wp_bind, wp_gets]
  dsimp only [id]
  rw [if_neg (by rw [hr]; decide), htype]
  rw [hip, onFs_ptr_some_bind, wp_bind, onFs, wp_zoom]
  refine wp_mono (wp_ilock_valid hpos hvalid) ?_ fun _ he => he ▸ rfl
  rintro _ fs1 rfl
  obtain ⟨fs1, hfs1⟩ : ∃ fs1, fs1 = k.fs.setInode ip fun i => { i with locked := true } := ⟨_, rfl⟩
  have hinode : fs1.inode ip = { k.fs.inode ip with locked := true } := by
    rw [hfs1, Fs.State.setInode_same]
  have hdata : fs1.data = k.fs.data := by
    rw [hfs1]
    rfl
  rw [← hfs1]
  obtain ⟨pt, B, hpt, hopen, -, -⟩ := h.openUser hp
  rw [wp_bind, onIo, wp_bind, wp_gets]
  dsimp only [id]
  rw [hpt]
  rw [wp_zoom, wp_recorded]
  have hw1 : Fs.Whole fs1.data (fs1.inode ip).d := by
    rw [hdata, hinode]
    exact hw
  have hlen1 : Fs.readLen (fs1.inode ip).d (k.file f).off (u32 n) = len := by
    rw [hinode]
    exact hlen
  -- the count is returned and the offset moves by it
  have hrest : ∀ (r : Int) (d : User × List UInt8) (m : Nat), m ≤ len →
      Delivered L.kend L.total B (k.proc p).sz addr (Fs.byteAt fs1.data (fs1.inode ip).d)
        (k.file f).off (k.user p pt none) m d → (r = m ∨ r = -1) →
      (0 < len → m = 0 → (k.view p).writable (k.proc p).sz addr = false ∨
        k.mem.Short (k.faults p addr 1)) →
      wp (do
        Prog.when (0 < r) (updFile f fun x => { x with off := u32 (x.off + r) })
        onFs (Fs.iunlock ip)
        pure (r, d.2)) (InodeRead p f addr len k) (fun e => e = .fs .hang)
        { k.putUser p d.1 with fs := fs1 } := by
    intro r d m hm hd hr hcut
    have hunlock : ∀ k' : State, k'.fs = fs1 →
        (∀ fs', InodeRead p f addr len k (r, d.2) { k' with fs := fs' }) →
        wp (do
          onFs (Fs.iunlock ip)
          pure (r, d.2)) (InodeRead p f addr len k) (fun e => e = .fs .hang) k' := by
      intro k' hfs hread
      rw [wp_bind, onFs, wp_zoom]
      have hlocked : (k'.fs.inode ip).locked = true := by rw [hfs, hinode]
      have hpos' : 0 < (k'.fs.inode ip).ref := by
        rw [hfs, hinode]
        exact hpos
      exact wp_imp (wp_iunlock_locked hpos' hlocked) fun _ fs' _ => wp_pure.mpr (hread fs')
    rw [wp_bind, wp_when]
    refine ⟨fun hr0 => wp_updFile.mpr (hunlock _ rfl fun fs' => ?_), fun hr0 =>
      hunlock _ rfl fun fs' => ?_⟩
    · refine hd.inodeRead hpt hm hr hcut ?_
      have hbound := hsize (by omega)
      rw [State.setFile_file_same, max_eq_left hr0.le]
      change (((((k.file f).off : Int) + r) % 2 ^ 32).toNat : Int) = _
      omega
    · refine hd.inodeRead hpt hm hr hcut ?_
      rw [max_eq_right (not_lt.mp hr0), add_zero]
      rfl
  refine wp_mono (Fs.wp_readi (F := fun _ => False)
    (J := fun tot d => Delivered L.kend L.total B (k.proc p).sz addr
      (Fs.byteAt fs1.data (fs1.inode ip).d) (k.file f).off (k.user p pt none) tot d ∧
        (tot = 0 → d.1 = k.user p pt none))
    (K := Cut L.kend L.total B (k.proc p).sz addr (Fs.byteAt fs1.data (fs1.inode ip).d)
      (k.file f).off len (k.user p pt none)) hw1 ?_
      ⟨.start hopen, fun _ => rfl⟩) ?_ ?_
  · intro tot m d hm hd
    exact hd.1.next hopen haddr (hlen1 ▸ hm) hd.2
  · rintro r ⟨fs2, d⟩ ⟨hfs2, hdone⟩
    obtain rfl : fs2 = fs1 := hfs2
    rw [hlen1] at hdone
    rcases hdone with ⟨hr, hd⟩ | ⟨hr, m, hm, hd, hcut⟩
    · exact hrest r d len le_rfl hd.1 (.inl hr) fun hlen hzero => absurd hzero hlen.ne'
    · refine hrest r d m hm hd (.inr hr) fun _ hzero => ?_
      rw [← State.view_user hpt, State.faults_eq hpt]
      exact hcut hzero
  · rintro (e | e) he
    · exact he.elim
    · exact he.elim

/-! ### Pipes and the console -/

/-- Some run of `piperead` for `n` bytes, with anything else going on, has stored the
bytes of the transfer and returned what it says. -/
def PipeRead (n : Int) (tr : Transfer) : Prop :=
  ∃ (s t : Pipes.State) (es : List Pipes.Event) (q : Pipes.Pid), (s.proc q).pc = .readLock n ∧
    Run (Restrict (Pipes.Busy q) Pipes.Step) s es t ∧ (t.proc q).pc = .idle ∧
    (t.proc q).got = (s.proc q).got ++ tr.bytes ∧ (t.proc q).ret = tr.ret

/-- The same for `consoleread`. -/
def ConsoleRead (n : Int) (tr : Transfer) : Prop :=
  ∃ (s t : Console.State) (es : List Console.Event) (e : Console.Event) (q : Console.Pid)
    (m v : Int32), m.toInt = n ∧ (s.proc q).pc = .enter m ∧ (s.proc q).dst = [] ∧
    Run (Restrict (Console.Busy q) fun s e t => Console.step s e = some t) s es t ∧
    (t.proc q).pc ≠ .idle ∧ .ret q v tr.bytes ∈ Console.shown t e ∧ v.toInt = tr.ret

/-- A transfer for a read of `n` bytes. -/
structure Transfer.Within (tr : Transfer) (n : Int) : Prop where
  le : tr.bytes.length ≤ n.toNat
  ret : tr.ret = tr.bytes.length ∨ tr.ret = -1

theorem PipeRead.within (h : PipeRead n tr) : tr.Within n := by
  obtain ⟨s, t, es, q, hcall, hrun, hret, hgot, hval⟩ := h
  obtain ⟨bs, hbs⟩ := Pipes.read_bytes hcall hrun hret
  obtain rfl : tr.bytes = bs := List.append_cancel_left (hgot.symm.trans hbs.got)
  exact ⟨hbs.le, hval ▸ hbs.ret⟩

theorem ConsoleRead.within (h : ConsoleRead n tr) : tr.Within n := by
  obtain ⟨s, t, es, e, q, m, v, rfl, hcall, hdst, hrun, hbusy, hret, hval⟩ := h
  have hbs := Console.read_bytes hcall hdst hrun hbusy hret
  refine ⟨hbs.le, hval ▸ hbs.ret.imp_right fun hv => ?_⟩
  rw [hv]
  rfl

/-- What a read of a pipe or a device leaves: some of the bytes of the transfer are
stored. -/
structure StreamRead (p : Pid) (addr : Nat) (tr : Transfer) (k : State) (x : Int × List UInt8)
    (k' : State) : Prop where
  view : k'.view p = (k.view p).store addr x.2
  bytes : x.2 <+: tr.bytes
  ret : x.1 = tr.ret ∨ x.1 = -1
  file : k'.file = k.file

theorem StreamRead.none : StreamRead p addr tr k (-1, []) k :=
  ⟨(View.store_nil _ _).symm, List.nil_prefix, .inr rfl, rfl⟩

theorem wp_copyout_stream {E : Stop → Prop} (h : Good L A u k) (hp : u p = false) :
    wp (do
      let m ← onUser p none (copyoutCount addr tr.bytes)
      pure (tr.ret, tr.bytes.take m)) (StreamRead p addr tr k) E k := by
  obtain ⟨pt, B, hpt, hopen, -, -⟩ := h.openUser hp
  rw [wp_bind, onUser, wp_bind, wp_gets]
  dsimp only [id]
  rw [hpt]
  rw [wp_zoom]
  refine wp_mono (wp_copyoutCount addr tr.bytes hopen) (fun m v hv => wp_pure.mpr ?_)
    fun _ => False.elim
  refine ⟨?_, List.take_prefix .., .inl rfl, rfl⟩
  rw [State.view_putUser, hv.view, State.view_user hpt]

theorem wp_filereadTraced_stream (h : Good L A u k) (hp : u p = false)
    (htype : (k.file f).type ≠ .inode) : wp (filereadTraced p f addr n tr) (StreamRead p addr tr k)
      (fun _ => (k.file f).type = .none) k := by
  rw [filereadTraced, wp_bind, wp_gets]
  dsimp only [id]
  rw [wp_ite]
  refine ⟨fun _ => wp_pure.mpr .none, fun _ => ?_⟩
  cases ht : (k.file f).type with
  | none => exact wp_stop.mpr rfl
  | pipe => exact wp_copyout_stream h hp
  | device =>
    rw [wp_ite]
    exact ⟨fun _ => wp_pure.mpr .none, fun _ => wp_copyout_stream h hp⟩
  | inode => exact absurd ht htype

/-! ### Every read -/

/-- The state `s` as a read of file `f` may find it: at any offset, and with physical
memory running out at any point. -/
def State.serving (s : State) (f : FPtr) (off : Nat) (fails : List Bool) : State :=
  { s.setFile f { s.file f with off := off } with mem := { s.mem with fails := fails } }

theorem Good.serving (h : Good L A u s) (f : FPtr) (off : Nat) (fails : List Bool) :
    Good L A u (s.serving f off fails) := by
  have hfile : Good L A u (s.setFile f { s.file f with off := off }) := by
    refine h.of_res ?_
    rw [State.setFile, State.res_updFile]
    exact congrArg (fun file => { s.res with file := file }) (Function.update_eq_self f s.res.file)
  exact wp_ok (Q := fun _ k => Good L A u k) (flows_setFails.wp _ hfile)
    (rfl : setFails fails _ = .ok ((), s.serving f off fails))

/-- What a read of an inode should do: it stores `bs`, no more than asked for, returns
their number or -1, and moves the offset by what it returns. -/
structure ReadWithin (n r : Int) (bs : List UInt8) (off off' : Nat) : Prop where
  le : bs.length ≤ n.toNat
  ret : r = bs.length ∨ r = -1
  off : (off' : Int) = off + max r 0

/-- The size of the inode of file `f`. -/
def State.sizeOf (k : State) (f : FPtr) : Nat :=
  (k.file f).ip.elim 0 fun ip => (k.fs.inode ip).d.size

/-- The count of a read of an inode does no harm: it is not negative, or adding it to the
offset wraps to a smaller offset, or the offset is at the end of the file, or the process may
not write to the first address. -/
def State.Harmless (k : State) (p : Pid) (f : FPtr) (addr : Nat) (n : Int) : Prop :=
  0 ≤ n ∨ 0 ≤ ((k.file f).off : Int) + n ∨ k.sizeOf f ≤ (k.file f).off ∨
    (k.view p).writable (k.proc p).sz addr = false

/-- As an unsigned number a negative count is past the end of every file, unless the
sum with the offset wraps. -/
theorem readLen_u32 {d : Fs.Dinode} {off : Nat} (hn : -2 ^ 31 ≤ n ∧ n < 2 ^ 31)
    (hoff : off < 2 ^ 32) (hsize : d.size < 2 ^ 31) :
    Fs.readLen d off (u32 n) ≤ n.toNat ↔ 0 ≤ n ∨ 0 ≤ (off : Int) + n ∨ d.size ≤ off := by
  rw [Fs.readLen, u32]
  split_ifs <;> omega

/-- What is known of the inode of an open file, between two calls. -/
theorem AtRest.inode {b : Fs.RefBase} {S : Set Nat} (h : AtRest (Fs.Ordered b) S s)
    (htype : (s.file f).type = .inode) : ∃ ip, (s.file f).ip = some ip ∧
      0 < (s.fs.inode ip).ref ∧ (s.fs.inode ip).valid = true ∧
      Fs.Whole s.fs.data (s.fs.inode ip).d := by
  obtain ⟨ip, hip, hat⟩ := Files.at_of_inode h (.inl htype)
  obtain ⟨hpos, hvalid, -⟩ := Fs.Ordered.known hat.1.fs hat.mem
  exact ⟨ip, hip, hpos, hvalid, whole_of_mem hat.1.fs hat.mem⟩

theorem read_of_inode {x : Int × List UInt8} {k' : State} (hn : -2 ^ 31 ≤ n ∧ n < 2 ^ 31)
    (hoff : (k.file f).off < 2 ^ 32) (hip : (k.file f).ip = some ip)
    (hw : Fs.Whole k.fs.data (k.fs.inode ip).d)
    (h : InodeRead p f addr (Fs.readLen (k.fs.inode ip).d (k.file f).off (u32 n)) k x k') :
    (k.Harmless p f addr n → ReadWithin n x.1 x.2 (k.file f).off (k'.file f).off) ∧
      (ReadWithin n x.1 x.2 (k.file f).off (k'.file f).off →
        k.Harmless p f addr n ∨ k.mem.Short (k.faults p addr 1)) := by
  have hsize : k.sizeOf f = (k.fs.inode ip).d.size := by
    rw [State.sizeOf, hip]
    rfl
  have hmax := hw.size_le
  rw [Fs.MAXFILE_eq, Fs.BSIZE_eq] at hmax
  have hlen := readLen_u32 (d := (k.fs.inode ip).d) hn hoff (by omega)
  have hwithin : ReadWithin n x.1 x.2 (k.file f).off (k'.file f).off ↔ x.2.length ≤ n.toNat :=
    ⟨ReadWithin.le, fun hle => ⟨hle, h.ret, h.off⟩⟩
  rw [hwithin, State.Harmless, hsize, ← or_assoc, ← or_assoc, or_assoc (a := 0 ≤ n), ← hlen]
  refine ⟨?_, fun hle => ?_⟩
  · rintro (hle | hno)
    · exact h.le.trans hle
    · rw [h.nil hno]
      exact Nat.zero_le _
  · by_cases hread : Fs.readLen (k.fs.inode ip).d (k.file f).off (u32 n) ≤ n.toNat
    · exact .inl (.inl hread)
    -- the count is negative and does not wrap: all of the file is read
    have hnot := hlen.not.mp hread
    push Not at hnot
    rw [Int.toNat_of_nonpos hnot.1.le, Nat.le_zero, List.length_eq_zero_iff] at hle
    exact (h.short (Nat.zero_lt_of_lt (not_le.mp hread)) hle).imp_left .inr

/--
**A read stores at most what was asked for, unless a negative count wraps.** In every
state of every run, for every file at every offset, every address and every 32-bit count:
a read stores `bs` from `addr` on and nothing else, and stops for no other reason than an
inode that is locked. Of a pipe or the console it stores no more than was asked for. Of an
inode it does so, returns the number of bytes or -1 and moves the offset by that, if the
count is harmless, and otherwise only if the page of the first address is not there and
memory is short of the pages to have it.
-/
theorem fileread_bounds {k0 : State} {boot : Multiset Nat} {es : List Event} (h0 : Fresh k0)
    (hmem : BootMem boot k0.mem) (hdisk : CleanDisk k0.fs) (hboot : userinit k0 = .ok ((), k))
    (hrun : Run Step k es s) (hp : (s.proc p).state = .running) (off : Nat) (fails : List Bool)
    (haddr : addr < 2 ^ 64) (hoff : off < 2 ^ 32) (hn : -2 ^ 31 ≤ n ∧ n < 2 ^ 31) :
    let k := s.serving f off fails
    (fileread p f addr n tr k = (filereadTraced p f addr n tr k).map fun x => (x.1.1, x.2)) ∧
    (∀ e, filereadTraced p f addr n tr k = .error e → e = .fs .hang ∨ (k.file f).type = .none) ∧
    ∀ r bs k', filereadTraced p f addr n tr k = .ok ((r, bs), k') →
      k'.view p = (k.view p).store addr bs ∧
      ((k.file f).readable = false → r = -1 ∧ bs = [] ∧ k' = k) ∧
      ((k.file f).type = .pipe ∧ PipeRead n tr ∨ (k.file f).type = .device ∧ ConsoleRead n tr →
        bs.length ≤ n.toNat ∧ (bs = tr.bytes → r = bs.length ∨ r = -1) ∧ k'.file = k.file) ∧
      ((k.file f).type = .inode → (k.file f).readable = true →
        (k.Harmless p f addr n → ReadWithin n r bs off (k'.file f).off) ∧
        (ReadWithin n r bs off (k'.file f).off →
          k.Harmless p f addr n ∨ k.mem.Short (k.faults p addr 1))) := by
  intro k
  obtain ⟨u1, h1⟩ := wp_ok (wp_userinit_pages (h0.good hmem)) hboot
  obtain ⟨u, hgood⟩ := good_run h1 hrun
  have hused : u p = false := hgood.used (by rw [hp]; decide)
  have hk : Good _ 0 u k := hgood.serving f off fails
  have hat : k.file f = { s.file f with off := off } := State.setFile_file_same ..
  have hoffk : (k.file f).off = off := by rw [hat]
  -- an inode is read as one that is in use, a pipe or a device as a stream
  have hinode : (k.file f).type = .inode → (k.file f).readable = true →
      ∃ ip, (k.file f).ip = some ip ∧ Fs.Whole k.fs.data (k.fs.inode ip).d ∧
        wp (filereadTraced p f addr n tr)
          (InodeRead p f addr (Fs.readLen (k.fs.inode ip).d (k.file f).off (u32 n)) k)
          (fun e => e = .fs .hang) k := by
    intro htype hr
    obtain ⟨i, hcarried, -⟩ := disk_run h0 hdisk hboot hrun
    rcases hcarried with ⟨⟨-, hstill, -⟩, -⟩ | hrest
    · exact absurd hp (hstill p).1
    obtain ⟨ip, hip, hpos, hvalid, hw⟩ := hrest.inode (by rw [← htype, hat])
    have hipk : (k.file f).ip = some ip := by
      rw [hat]
      exact hip
    exact ⟨ip, hipk, hw, wp_filereadTraced_inode hk hused haddr hr htype (hoffk ▸ hoff) hipk hpos
      hvalid hw⟩
  have hstream : (k.file f).type ≠ .inode → wp (filereadTraced p f addr n tr)
      (StreamRead p addr tr k) (fun _ => (k.file f).type = .none) k :=
    wp_filereadTraced_stream hk hused
  have hclosed : (k.file f).readable = false →
      filereadTraced p f addr n tr k = .ok ((-1, []), k) := by
    intro hr
    simp only [filereadTraced, Bind.bind, gets, id]
    rw [if_pos hr]
    rfl
  refine ⟨?_, fun e he => ?_, fun r bs k' hok => ⟨?_, ?_, ?_, ?_⟩⟩
  · rw [fileread_eq_traced]
    simp only [Bind.bind]
    cases filereadTraced p f addr n tr k <;> rfl
  · by_cases htype : (k.file f).type = .inode
    · cases hr : (k.file f).readable with
      | false =>
        rw [hclosed hr] at he
        cases he
      | true =>
        obtain ⟨ip, -, -, hwp⟩ := hinode htype hr
        have hhang := wp_error hwp he
        exact .inl hhang
    · have hnone := wp_error (hstream htype) he
      exact .inr hnone
  · by_cases htype : (k.file f).type = .inode
    · cases hr : (k.file f).readable with
      | false =>
        rw [hclosed hr] at hok
        obtain ⟨hx, rfl⟩ := Prod.mk.inj (Except.ok.inj hok)
        obtain ⟨-, rfl⟩ := Prod.mk.inj hx
        exact (View.store_nil _ _).symm
      | true =>
        obtain ⟨ip, -, -, hwp⟩ := hinode htype hr
        exact (wp_ok hwp hok).view
    · exact (wp_ok (hstream htype) hok).view
  · intro hr
    rw [hclosed hr] at hok
    obtain ⟨hx, hk'⟩ := Prod.mk.inj (Except.ok.inj hok)
    obtain ⟨hr', hbs⟩ := Prod.mk.inj hx
    exact ⟨hr'.symm, hbs.symm, hk'.symm⟩
  · intro hkind
    have hwithin : tr.Within n := by rcases hkind with ⟨-, h⟩ | ⟨-, h⟩ <;> exact h.within
    have htype : (k.file f).type ≠ .inode := by
      rcases hkind with ⟨h, -⟩ | ⟨h, -⟩ <;> rw [h] <;> nofun
    have hread := wp_ok (hstream htype) hok
    refine ⟨hread.bytes.length_le.trans hwithin.le, fun hbs => ?_, hread.file⟩
    rcases hread.ret with hr | hr
    · have hr' : r = tr.ret := hr
      rw [hr', hbs]
      exact hwithin.ret
    · exact .inr hr
  · intro htype hr
    obtain ⟨ip, hip, hw, hwp⟩ := hinode htype hr
    have h := read_of_inode hn (hoffk ▸ hoff) hip hw (wp_ok hwp hok)
    rwa [hoffk] at h

/-- init opens its own program. -/
def openInit : List Event :=
  [.dispatch 0 [], .call 0 (.opn (some [Fs.slash, 105, 110, 105, 116]) 0) []]

/-- A read of two bytes to the stack of init. -/
theorem fileread_bounds_two : ∃ k s r bs k', userinit small = .ok ((), k) ∧
    Run Step k openInit s ∧ (s.proc 0).state = .running ∧
    ((s.serving 0 0 []).file 0).type = .inode ∧ ((s.serving 0 0 []).file 0).readable = true ∧
    filereadTraced 0 0 4096 2 ⟨[], 0, 0⟩ (s.serving 0 0 []) = .ok ((r, bs), k') ∧
    ReadWithin 2 r bs 0 (k'.file 0).off := by
  obtain ⟨k, s, hboot, hrun, hs⟩ := userinit_of_bootRun small openInit (C := fun _ _ => True)
    (f := fun s => (s.proc 0).state == .running && ((s.serving 0 0 []).file 0).type == .inode &&
      ((s.serving 0 0 []).file 0).readable == true &&
      ((filereadTraced 0 0 4096 2 ⟨[], 0, 0⟩ (s.serving 0 0 [])).toOption.isSome))
    (b := true) (by decide +kernel)
  simp only [Bool.and_eq_true, beq_iff_eq] at hs
  obtain ⟨⟨⟨hp, htype⟩, hr⟩, hok⟩ := hs
  obtain ⟨⟨⟨r, bs⟩, k'⟩, hok⟩ := Option.isSome_iff_exists.mp hok
  have hok := ok_of_toOption hok
  have h := (fileread_bounds fresh_small bootMem_small cleanDisk_small hboot hrun.of_restrict hp
    0 [] (by decide) (by decide) (by decide)).2.2 r bs k' hok
  exact ⟨k, s, r, bs, k', hboot, hrun.of_restrict, hp, htype, hr, hok,
    (h.2.2.2 htype hr).1 (.inl (by decide))⟩

/-- **A read of -1 bytes** stores the whole file. -/
theorem fileread_negative : ∃ k s r bs k', userinit small = .ok ((), k) ∧
    Run Step k openInit s ∧ (s.proc 0).state = .running ∧
    ((s.serving 0 0 []).file 0).type = .inode ∧ ((s.serving 0 0 []).file 0).readable = true ∧
    filereadTraced 0 0 4096 (-1) ⟨[], 0, 0⟩ (s.serving 0 0 []) = .ok ((r, bs), k') ∧
    bs.length = (s.serving 0 0 []).sizeOf 0 ∧ ¬ ReadWithin (-1) r bs 0 (k'.file 0).off := by
  obtain ⟨k, s, hboot, hrun, hs⟩ := userinit_of_bootRun small openInit (C := fun _ _ => True)
    (f := fun s => (s.proc 0).state == .running && ((s.serving 0 0 []).file 0).type == .inode &&
      ((s.serving 0 0 []).file 0).readable == true &&
      ((filereadTraced 0 0 4096 (-1) ⟨[], 0, 0⟩ (s.serving 0 0 [])).toOption.any
        fun x : (Int × List UInt8) × State => x.1.2.length == (s.serving 0 0 []).sizeOf 0 &&
          decide (0 < x.1.2.length)))
    (b := true) (by decide +kernel)
  simp only [Bool.and_eq_true, Option.any_eq_true, beq_iff_eq, decide_eq_true_eq] at hs
  obtain ⟨⟨⟨hp, htype⟩, hr⟩, ⟨⟨r, bs⟩, k'⟩, hok, hsize, hpos⟩ := hs
  exact ⟨k, s, r, bs, k', hboot, hrun.of_restrict, hp, htype, hr, ok_of_toOption hok, hsize,
    fun h => absurd (Nat.le_zero.mp h.le) hpos.ne'⟩

end Xv6.Kernel
