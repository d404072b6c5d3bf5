import Xv6.Fs.Directory
import Xv6.Lib.Run

/-!
# xv6 — files are sequences of bytes

`writei` and `readi` reach the bytes of a file through its block pointers, and a write may
allocate blocks on the way. Seen from outside, an inode is a list of bytes: reads and writes
of open inodes, in any order, return what they would return on such lists.

* `IoCall`, `IoStep` — the calls, and what they return.
* `FileStep`         — the same, said of lists of bytes.
* `files_refine`     — every run of the first is one of the second.
-/

namespace Xv6.Fs

open ByteBuffer Prog TransitionRun Function

/-- A call on an inode that is open, and what it returns. -/
inductive IoCall where
  | write (ip : IPtr) (off : Nat) (bs : List UInt8) (r : Int)
  | read (ip : IPtr) (off n : Nat) (r : Int) (bs : List UInt8)

def IoCall.inode : IoCall → IPtr
  | .write ip .. | .read ip .. => ip

def IoStep (fs : State) (c : IoCall) (fs' : State) : Prop :=
  match c with
  | .write ip off bs r => writeiKernel ip bs off fs = .ok (r, fs')
  | .read ip off n r bs => readiKernel ip off n fs = .ok ((r, bs), fs')

/-- The bytes `bs` in place of those at `off`, or behind the end. -/
def overwrite (l : List UInt8) (off : Nat) (bs : List UInt8) : List UInt8 :=
  l.take off ++ bs ++ l.drop (off + bs.length)

/-- At most `n` bytes from `off` on; none, if the end of the request is no `uint`. -/
def slice (l : List UInt8) (off n : Nat) : List UInt8 :=
  if (off + n) % 2 ^ 32 < off then [] else (l.drop off).take n

/-- What a call does to files, where `inum` says which one an inode is. A write may be
refused, and where the file ends it may stop early, for there is no room on the disk. -/
def FileStep (inum : IPtr → Nat) (f : Nat → List UInt8) (c : IoCall) (f' : Nat → List UInt8) :
    Prop :=
  let l := f (inum c.inode)
  match c with
  | .write _ off bs r =>
    r = -1 ∧ f' = f ∧ (l.length < off ∨ MAXFILE * BSIZE < off + bs.length) ∨
    ∃ tot ≤ bs.length, r = (tot : Int) ∧ off ≤ l.length ∧
      (tot = bs.length ∨ l.length ≤ off + tot) ∧
      f' = update f (inum c.inode) (overwrite l off (bs.take tot))
  | .read _ off n r bs => f' = f ∧ bs = slice l off n ∧ r = (bs.length : Int)

/-- The bytes of an inode on disk. -/
def contents (v : Volume) (i : Nat) : List UInt8 :=
  load (byteAt v.data (v.node i)) 0 (v.node i).size

theorem length_contents (v : Volume) (i : Nat) : (contents v i).length = (v.node i).size :=
  length_load ..

/-- The allocated inodes hold the files `f`. -/
def Shows (fs : State) (f : Nat → List UInt8) : Prop :=
  ∀ i, (fs.volume.node i).type ≠ .free → contents fs.volume i = f i

variable {fs fs' : State} {i off n : Nat} {bs : List UInt8} {b : Buffer} {c : IoCall}
  {f : Nat → List UInt8} {inum : IPtr → Nat} {cs : List IoCall}

theorem drop_load (h : off ≤ n) : (load b 0 n).drop off = load b off (n - off) := by
  obtain ⟨k, rfl⟩ := Nat.exists_eq_add_of_le h
  rw [load_add, List.drop_left' (length_load ..), Nat.zero_add, Nat.add_sub_cancel_left]

/-- Bytes are stored in a file that reaches to their beginning. -/
theorem load_overwrite (h : off ≤ n) :
    load (store b off bs) 0 (max n (off + bs.length)) = overwrite (load b 0 n) off bs := by
  have hsplit : max n (off + bs.length) = off + bs.length + (n - (off + bs.length)) := by omega
  have htail : load (store b off bs) (off + bs.length) (n - (off + bs.length)) =
      (load b 0 n).drop (off + bs.length) := by
    rw [load_store_of_disjoint (.inr le_rfl)]
    rcases Nat.le_total (off + bs.length) n with hle | hle
    · rw [drop_load hle]
    · rw [List.drop_eq_nil_of_le (by rw [length_load]; exact hle), Nat.sub_eq_zero_of_le hle]
      rfl
  rw [hsplit, load_add, load_add, Nat.zero_add, load_store, Nat.zero_add, htail,
    load_store_of_disjoint (.inl (by omega)), overwrite, take_load h]

/-- What `readi` delivers is a part of the file. -/
theorem load_readLen (d : Dinode) :
    load b off (readLen d off n) = slice (load b 0 d.size) off n := by
  unfold readLen slice
  by_cases hwrap : (off + n) % 2 ^ 32 < off
  · rw [if_pos (.inr hwrap), if_pos hwrap]
    rfl
  by_cases hend : d.size < off
  · rw [if_neg hwrap, if_pos (.inl hend), List.drop_eq_nil_of_le (by rw [length_load]; omega),
      List.take_nil]
    rfl
  · rw [if_neg (by omega), drop_load (by omega)]
    split
    · rw [List.take_of_length_le (by rw [length_load]; omega)]
    · rw [take_load (by omega)]

/-- Bytes are stored in one file, and the others are as they were. -/
theorem Put.shows (h : Put i off bs fs fs') (h0 : Ready fs) (hf : Shows fs f)
    (htype : (fs.volume.node i).type ≠ .free) (hoff : off ≤ (fs.volume.node i).size) :
    Shows fs' (update f i (overwrite (f i) off bs)) := by
  intro j hj
  by_cases hji : j = i
  · subst hji
    obtain ⟨addrs, hnode⟩ := h.node
    have hsize : (fs'.volume.node j).size = max (fs.volume.node j).size (off + bs.length) := by
      rw [hnode]
    rw [update_self, ← hf j htype, contents, contents, ← load_overwrite hoff, hsize]
    refine load_congr fun o ho => h.bytes _ ?_
    rw [hsize, Nat.zero_add]
    exact ho
  · have hnode := h.away.others j hji
    rw [hnode] at hj
    rw [update_of_ne hji, ← hf j hj, contents, hnode]
    refine load_congr fun o ho => ?_
    have hbyte := h.away.byteAt hji hj (h0.sound.whole j hj) ho
    rw [hnode] at hbyte
    rwa [Nat.zero_add]

/-- **One call** does to the files what it should, and leaves everything in order. -/
theorem io_refines (h : Ready fs) (ho : Open fs c.inode (inum c.inode)) (hf : Shows fs f)
    (hs : IoStep fs c fs') : (∃ f', FileStep inum f c f' ∧ Shows fs' f') ∧ Ready fs' ∧
      ∀ ip i, Open fs ip i → Open fs' ip i := by
  have htype := h.type ho
  have hl := hf _ htype
  cases c with
  | write ip off bs r =>
    obtain ⟨rfl, rfl, hout⟩ | ⟨tot, rfl, htot, hoff, hput, hend⟩ :=
      wp_ok (wp_writeiKernel (fun _ he => he) h ho) hs
    · refine ⟨⟨f, .inl ⟨rfl, rfl, ?_⟩, hf⟩, h, fun _ _ ho => ho⟩
      rwa [← hl, length_contents]
    · refine ⟨⟨_, .inr ⟨tot, htot, rfl, ?_, hend.imp_right fun hptr => ?_, rfl⟩,
        hput.shows h hf htype hoff⟩, hput.ready, fun _ _ ho => hput.took.opened ho⟩
      · rwa [← hl, length_contents]
      · rw [← hl, length_contents]
        -- the file has all its blocks
        obtain ⟨addrs, hnode⟩ := hput.node
        by_contra hlt
        refine (hput.ready.sound.whole _ ?_).2 _ ?_ hptr <;> rw [hnode]
        · exact htype
        · exact (Nat.div_mul_le_self ..).trans_lt (lt_max_of_lt_left (not_le.mp hlt))
  | read ip off n r bs =>
    have hnode := h.node ho
    have hwhole : Whole fs.data (fs.inode ip).d := hnode ▸ h.whole ho
    obtain ⟨rfl, hr⟩ := wp_ok (wp_readiKernel hwhole) hs
    obtain ⟨rfl, rfl⟩ := Prod.mk.inj hr
    refine ⟨⟨f, ⟨rfl, ?_, congrArg Nat.cast (length_load ..).symm⟩, hf⟩, h, fun _ _ ho => ho⟩
    rw [← hl, contents, ← load_readLen, ← hnode]
    rfl

/--
**Files are sequences of bytes.** On a file system in order, every run of reads and writes of
open inodes returns what it returns on the lists of bytes that the inodes hold, and leaves
the inodes with what the lists are then; a call on one inode changes no other.
-/
theorem files_refine (inum : IPtr → Nat) (h : Ready fs)
    (ho : ∀ c ∈ cs, Open fs c.inode (inum c.inode)) (hrun : Run IoStep fs cs fs') :
    ∃ f', Run (FileStep inum) (contents fs.volume) cs f' ∧ Shows fs' f' := by
  suffices hall : (∃ f', Run (FileStep inum) (contents fs.volume) cs f' ∧ Shows fs' f') ∧
      Ready fs' ∧ ∀ ip i, Open fs ip i → Open fs' ip i from hall.1
  induction hrun with
  | start => exact ⟨⟨_, .start, fun _ _ => rfl⟩, h, fun _ _ ho => ho⟩
  | @snoc cs s t c hrun hs ih =>
    obtain ⟨⟨f, hfiles, hf⟩, hready, hopen⟩ := ih fun c hc => ho c (List.mem_append_left _ hc)
    have hoc := hopen _ _ (ho c (List.mem_append_right _ (List.mem_singleton_self c)))
    obtain ⟨⟨f', hstep, hf'⟩, hready', hopen'⟩ := io_refines hready hoc hf hs
    exact ⟨⟨f', .snoc hfiles hstep, hf'⟩, hready', fun ip i ho => hopen' ip i (hopen ip i ho)⟩

/-- Two bytes are written, and one of them is read. -/
theorem files_refine_bare : ∃ fs1 fs2 f', writeiKernel 0 [104, 105] 0 (bare 1) = .ok (2, fs1) ∧
    readiKernel 0 1 9 fs1 = .ok ((1, [105]), fs2) ∧ Run (FileStep fun _ => ROOTINO)
      (contents (bare 1).volume) [.write 0 0 [104, 105] 2, .read 0 1 9 1 [105]] f' := by
  obtain ⟨fs1, h1⟩ := exists_ok_of_map (x := writeiKernel 0 [104, 105] 0 (bare 1)) rfl
  obtain ⟨fs2, h2⟩ := exists_ok_of_map (x := (writeiKernel 0 [104, 105] 0 >>= fun _ =>
    readiKernel 0 1 9) (bare 1)) (a := (1, [105])) rfl
  rw [bind_of_ok h1] at h2
  have hrun : Run IoStep (bare 1) [.write 0 0 [104, 105] 2, .read 0 1 9 1 [105]] fs2 :=
    .snoc (.snoc .start h1) h2
  obtain ⟨f', hfiles, -⟩ := files_refine (fun _ => ROOTINO) (ready_bare 1)
    (by simp [IoCall.inode, open_bare]) hrun
  exact ⟨fs1, fs2, f', h1, h2, hfiles⟩

end Xv6.Fs
