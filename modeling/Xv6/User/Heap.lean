import Mathlib.Order.CompletePartialOrder
import Xv6.Lib.FreeList
import Xv6.Lib.Run
import Xv6.User.Malloc

/-!
# xv6 — blocks of user memory are disjoint

What `malloc` and `free` keep: the blocks on the free list and the blocks in use are
disjoint extents between the first break and the break, and the free list is a
ring in the order of addresses.

* `Shape`, `Ok`     — the invariant, with the links given by a function or by memory.
* `Client`          — a program that calls `malloc` and `free` and writes to its blocks.
* `malloc_sound`    — what `malloc` returns for requests whose size in bytes, with
  the header, is an `int`.
* `malloc_overruns` — a larger request.
* `free_inserts`    — what the free list covers after `free`.
-/

namespace Xv6.User

open ByteBuffer Kernel Prog FreeList TransitionRun Function

variable {m : Buffer} {a b v n k nbytes prevp : Nat} {Q : Unit → Heap → Prop}

/-! ### Headers in memory -/

/-- The headers at `a` and `b` do not overlap. -/
def Apart (a b : Nat) : Prop := a + HEADER ≤ b ∨ b + HEADER ≤ a

theorem ptr_setPtr (hv : v < 2 ^ 64) : ptr (setPtr m a v) a = v := by
  rw [ptr, setPtr, leField_store_leBytes]
  exact Nat.mod_eq_of_lt (by omega)

theorem ptr_setPtr_of_apart (h : Apart a b) : ptr (setPtr m a v) b = ptr m b := by
  refine leField_congr fun i hi hi' => store_of_outside ?_
  rw [length_leBytes]
  unfold Apart HEADER at h
  omega

theorem size_setPtr (h : a = b ∨ Apart a b) : size (setPtr m a v) b = size m b := by
  refine leField_congr fun i hi hi' => store_of_outside ?_
  rw [length_leBytes]
  unfold Apart HEADER at h
  omega

theorem size_setSize (hv : v < 2 ^ 32) : size (setSize m a v) a = v := by
  rw [size, setSize, leField_store_leBytes]
  exact Nat.mod_eq_of_lt (by omega)

theorem size_setSize_of_apart (h : Apart a b) : size (setSize m a v) b = size m b := by
  refine leField_congr fun i hi hi' => store_of_outside ?_
  rw [length_leBytes]
  unfold Apart HEADER at h
  omega

theorem ptr_setSize (h : a = b ∨ Apart a b) : ptr (setSize m a v) b = ptr m b := by
  refine leField_congr fun i hi hi' => store_of_outside ?_
  rw [length_leBytes]
  unfold Apart HEADER at h
  omega

theorem ptr_lt (m : Buffer) (a : Nat) : ptr m a < 2 ^ 64 := leField_lt m a 8

/-! ### Rules for loads and stores -/

/-- The program does not stop. -/
abbrev Never (_ : Stop) : Prop := False

variable {h : Heap}

theorem le_pgRoundUp (sz : Nat) : sz ≤ Vm.pgRoundUp sz := by
  change sz ≤ (sz + 4096 - 1) / 4096 * 4096
  omega

theorem wp_access (ha : a + n ≤ h.sz) (hQ : Q () h) : wp (access a n) Q Never h := by
  rw [access, wp_bind, wp_gets, wp_ite]
  refine ⟨fun hlt => ?_, fun _ => wp_pure.mpr hQ⟩
  exact absurd (ha.trans (le_pgRoundUp h.sz)) (not_le.mpr hlt)

theorem wp_loadPtr {Q : Nat → Heap → Prop} (ha : a + HEADER ≤ h.sz) (hQ : Q (ptr h.mem a) h) :
    wp (loadPtr a) Q Never h :=
  wp_bind.mpr (wp_access ha (wp_gets.mpr hQ))

theorem wp_loadSize {Q : Nat → Heap → Prop} (ha : a + HEADER ≤ h.sz) (hQ : Q (size h.mem a) h) :
    wp (loadSize a) Q Never h :=
  wp_bind.mpr (wp_access ha (wp_gets.mpr hQ))

theorem wp_storePtr (ha : a + HEADER ≤ h.sz) (hQ : Q () { h with mem := setPtr h.mem a v }) :
    wp (storePtr a v) Q Never h :=
  wp_bind.mpr (wp_access ha (wp_modify.mpr hQ))

theorem wp_storeSize (ha : a + HEADER ≤ h.sz) (hQ : Q () { h with mem := setSize h.mem a v }) :
    wp (storeSize a v) Q Never h :=
  wp_bind.mpr (wp_access ha (wp_modify.mpr hQ))

/-! ### The invariant -/

/-- The length of a block in bytes. -/
def len (m : Buffer) (a : Nat) : Nat := HEADER * size m a

/-- Blocks at `F` and `U` are disjoint, and `next` links those at `F`. -/
structure Shape (start : Nat) (F U : Set Nat) (next : Nat → Nat) (h : Heap) : Prop where
  base_pos : 0 < h.base
  base_le : h.base + HEADER ≤ start
  start_le : start ≤ h.sz
  sz_le : h.sz ≤ PHYSMEM
  extents : Extents start h.sz (len h.mem) (F ∪ U)
  disjoint : Disjoint F U
  ring : SortedRing next h.base (insert h.base F)
  base_size : size h.mem h.base = 0

/-- The free list is `F`, in memory; the blocks `U` are in use. -/
structure Ok (start : Nat) (F U : Set Nat) (h : Heap) : Prop extends
    Shape start F U (ptr h.mem) h where
  freep_mem : h.freep ∈ insert h.base F

section Shape

variable {start p t bp : Nat} {F U : Set Nat} {next : Nat → Nat}

/-- There is a header at `a`. -/
def Node (h : Heap) (F U : Set Nat) (a : Nat) : Prop := a = h.base ∨ a ∈ F ∪ U

theorem node_of_mem (ha : a ∈ insert h.base F) : Node h F U a := ha.imp_right .inl

theorem Shape.sixteen_le (s : Shape start F U next h) (ha : a ∈ F ∪ U) : HEADER ≤ len h.mem a := by
  have := s.extents.pos a ha
  unfold len HEADER at *
  omega

theorem Shape.base_lt (s : Shape start F U next h) (ha : a ∈ F ∪ U) : h.base + HEADER ≤ a :=
  s.base_le.trans (s.extents.lo_le a ha)

theorem Shape.apart (s : Shape start F U next h) (ha : Node h F U a) (hb : Node h F U b)
    (hne : a ≠ b) : Apart a b := by
  rcases ha with rfl | ha <;> rcases hb with rfl | hb
  · exact absurd rfl hne
  · exact .inl (s.base_lt hb)
  · exact .inr (s.base_lt ha)
  · have hlena := s.sixteen_le ha
    have hlenb := s.sixteen_le hb
    rcases s.extents.apart_of_ne ha hb hne with h | h
    · exact .inl (by omega)
    · exact .inr (by omega)

theorem Shape.le_sz (s : Shape start F U next h) (ha : Node h F U a) : a + HEADER ≤ h.sz := by
  rcases ha with rfl | ha
  · exact s.base_le.trans s.start_le
  · have := s.extents.le_hi a ha
    have := s.sixteen_le ha
    omega

/-- No block is so large that its size is not a `uint`. -/
theorem Shape.size_lt (s : Shape start F U next h) (ha : a ∈ F ∪ U) :
    HEADER * size h.mem a ≤ PHYSMEM := by
  have := s.extents.le_hi a ha
  have := s.sz_le
  unfold len at *
  omega

theorem PHYSMEM_eq : PHYSMEM = 134217728 := rfl

theorem plus_eq (h : p + HEADER * n ≤ PHYSMEM) : plus p n = p + HEADER * n := by
  rw [PHYSMEM_eq] at h
  unfold plus u64
  omega

theorem Shape.plus_eq (s : Shape start F U next h) (ha : a ∈ F ∪ U) :
    plus a (size h.mem a) = a + len h.mem a :=
  User.plus_eq ((s.extents.le_hi a ha).trans s.sz_le)

/-- `m` is memory with another header at `a`. -/
structure Header (h : Heap) (F U : Set Nat) (a s q : Nat) (m : Buffer) : Prop where
  size : size m a = s
  ptr : ptr m a = q
  size_rest : ∀ b, Node h F U b → b ≠ a → User.size m b = User.size h.mem b
  ptr_rest : ∀ b, Node h F U b → b ≠ a → User.ptr m b = User.ptr h.mem b

theorem Shape.header_setSize (s : Shape start F U next h) (ha : Node h F U a) (hv : v < 2 ^ 32) :
    Header h F U a v (ptr h.mem a) (setSize h.mem a v) :=
  ⟨size_setSize hv, ptr_setSize (.inl rfl),
    fun _ hb hne => size_setSize_of_apart (s.apart ha hb hne.symm),
    fun _ hb hne => ptr_setSize (.inr (s.apart ha hb hne.symm))⟩

/-- A link is stored in a header that was changed before. -/
theorem Shape.header_setPtr (s : Shape start F U next h) (ha : Node h F U a) {q : Nat}
    (hm : Header h F U a k q m) (hv : v < 2 ^ 64) : Header h F U a k v (setPtr m a v) := by
  refine ⟨(size_setPtr (.inl rfl)).trans hm.size, ptr_setPtr hv, fun b hb hne => ?_,
    fun b hb hne => ?_⟩
  · rw [size_setPtr (.inr (s.apart ha hb hne.symm))]
    exact hm.size_rest b hb hne
  · rw [ptr_setPtr_of_apart (s.apart ha hb hne.symm)]
    exact hm.ptr_rest b hb hne

theorem Header.refl (h : Heap) (F U : Set Nat) (a : Nat) :
    Header h F U a (User.size h.mem a) (User.ptr h.mem a) h.mem :=
  ⟨rfl, rfl, fun _ _ _ => rfl, fun _ _ _ => rfl⟩

/-- Only the link is another. -/
theorem Header.size_same {q : Nat} (hm : Header h F U a (User.size h.mem a) q m)
    (hb : Node h F U b) : User.size m b = User.size h.mem b := by
  by_cases hne : b = a
  · rw [hne]
    exact hm.size
  · exact hm.size_rest b hb hne

theorem Header.len_same {q : Nat} (hm : Header h F U a (User.size h.mem a) q m)
    (hb : Node h F U b) : len m b = len h.mem b := by
  rw [len, hm.size_same hb, len]

theorem Header.len_rest {q : Nat} (hm : Header h F U a k q m) (hb : Node h F U b) (hne : b ≠ a) :
    len m b = len h.mem b := by
  rw [len, hm.size_rest b hb hne, len]

theorem Header.len_add {p q : Nat}
    (hm : Header h F U a (User.size h.mem b + User.size h.mem p) q m) :
    len m a = len h.mem b + len h.mem p := by
  rw [len, hm.size, Nat.mul_add]
  rfl

/-! ### free -/

/-- The loop of `free` ends at the block below. -/
theorem Shape.wp_freeLoop (s : Shape start F U (ptr h.mem) h) (hbp : bp ∈ U)
    (ht : Below (insert h.base F) bp t) (fuel : Nat) (p : Nat) (hp : p ∈ insert h.base F)
    (hfuel : gap h.sz p t < fuel) :
    wp (freeLoop bp fuel p) (fun r h' => r = t ∧ h' = h) Never h := by
  have hle : ∀ a ∈ insert h.base F, a + HEADER ≤ h.sz := fun a ha =>
    s.le_sz (node_of_mem ha)
  have htop : ∀ a ∈ insert h.base F, a ≤ h.sz := fun a ha => by
    have := hle a ha
    omega
  have hbase : h.base < bp := by
    have := s.base_lt (.inr hbp)
    unfold HEADER at this
    omega
  have hne : ∀ a ∈ insert h.base F, a ≠ bp := by
    rintro a (rfl | ha) rfl
    · exact absurd hbase (lt_irrefl _)
    · exact Set.disjoint_left.mp s.disjoint ha hbp
  induction fuel generalizing p with
  | zero => omega
  | succ fuel ih =>
    rw [freeLoop, wp_bind]
    refine wp_loadPtr (hle p hp) ?_
    have hnext := s.ring.next_mem p hp
    have hnextne := hne _ hnext
    rw [wp_ite]
    refine ⟨fun hin => wp_pure.mpr ⟨?_, rfl⟩, fun hin => ?_⟩
    · -- `bp` lies between `p` and the next block
      refine le_antisymm (ht.le p hp hin.1) (not_lt.mp fun hlt => ?_)
      rcases s.ring.next_cases p hp with ⟨-, hleast⟩ | ⟨hwrap, -⟩
      · have := hleast t ht.mem hlt
        have := ht.lt
        omega
      · omega
    rw [wp_ite]
    refine ⟨fun hend => wp_pure.mpr ⟨?_, rfl⟩, fun hend => ?_⟩
    · -- `p` is the last block
      rcases s.ring.next_cases p hp with ⟨hup, -⟩ | ⟨hwrap, hmax⟩
      · omega
      · exact le_antisymm (ht.le p hp (by omega)) (hmax t ht.mem)
    · refine ih _ hnext ?_
      have hpt : p ≠ t := by
        rintro rfl
        have hlt := ht.lt
        rcases s.ring.next_cases p hp with ⟨hup, -⟩ | ⟨hwrap, -⟩
        · by_cases hlt' : ptr h.mem p < bp
          · have := ht.le _ hnext hlt'
            omega
          · exact hin ⟨hlt, by omega⟩
        · exact hend ⟨hwrap ▸ s.ring.base_le p hp, .inl hlt⟩
      have := gap_next_lt s.ring htop hp ht.mem hpt
      omega

/-- The sizes of the blocks `U` are what they were. -/
def SameSizes (U : Set Nat) (h h' : Heap) : Prop := ∀ a ∈ U, size h'.mem a = size h.mem a

theorem Shape.setMem {F' U' : Set Nat} {next' : Nat → Nat} (s : Shape start F U next h)
    (hext : Extents start h.sz (len m) (F' ∪ U')) (hdisj : Disjoint F' U')
    (hring : SortedRing next' h.base (insert h.base F')) (hbase : size m h.base = 0) :
    Shape start F' U' next' { h with mem := m } :=
  ⟨s.base_pos, s.base_le, s.start_le, s.sz_le, hext, hdisj, hring, hbase⟩

theorem Shape.base_ne (s : Shape start F U next h) (ha : a ∈ F ∪ U) : h.base ≠ a := by
  have := s.base_lt ha
  unfold HEADER at this
  omega

/-- What follows `bp` is not `base`. -/
theorem Shape.next_mem_free (s : Shape start F U (ptr h.mem) h) (hbp : bp ∈ U)
    (ht : Below (insert h.base F) bp t) (hnext : bp + len h.mem bp = ptr h.mem t) :
    ptr h.mem t ∈ F := by
  rcases s.ring.next_mem t ht.mem with heq | hq
  · have := s.base_lt (.inr hbp)
    unfold HEADER at this
    omega
  · exact hq

/-- Block `bp` takes in the free block after it. The link to that block is still in
`t`; were it that of `bp`, the list would be right. -/
theorem Shape.absorbNext (s : Shape start F U (ptr h.mem) h) (hbp : bp ∈ U)
    (ht : Below (insert h.base F) bp t) (hnext : bp + len h.mem bp = ptr h.mem t)
    (hm : Header h F U bp (size h.mem bp + size h.mem (ptr h.mem t)) (ptr h.mem (ptr h.mem t)) m) :
    Shape start (F \ {ptr h.mem t}) U (update (ptr m) t (ptr m bp)) { h with mem := m } := by
  have hbase := s.base_ne (.inr hbp)
  have hq := s.next_mem_free hbp ht hnext
  have hqU : ptr h.mem t ∉ U := Set.disjoint_left.mp s.disjoint hq
  refine s.setMem ?_ (s.disjoint.mono_left Set.sdiff_subset) ?_ ?_
  · have hset : F \ {ptr h.mem t} ∪ U = (F ∪ U) \ {ptr h.mem t} := by
      rw [Set.union_sdiff_distrib, Set.sdiff_singleton_eq_self hqU]
    rw [hset]
    exact s.extents.merge (.inr hbp) (.inl hq) hnext hm.len_add fun c hc => hm.len_rest (.inr hc)
  · have hset : insert h.base (F \ {ptr h.mem t}) = insert h.base F \ {ptr h.mem t} := by
      have hnot : h.base ∉ ({ptr h.mem t} : Set Nat) := s.base_ne (.inl hq)
      rw [Set.insert_sdiff_of_notMem _ hnot]
    rw [hset]
    refine s.ring.remove ht.mem (s.base_ne (.inl hq)).symm ?_ fun c hc hne => ?_
    · rw [update_self, hm.ptr]
    · rw [update_of_ne hne]
      refine hm.ptr_rest c (node_of_mem hc) ?_
      rintro rfl
      rcases hc with heq | hc
      · exact hbase heq.symm
      · exact Set.disjoint_left.mp s.disjoint hc hbp
  · rw [hm.size_rest _ (.inl rfl) hbase]
    exact s.base_size

theorem notMem_of_used (s : Shape start F U next h) (hbp : bp ∈ U) (hc : a ∈ insert h.base F) :
    a ≠ bp := by
  rintro rfl
  rcases hc with heq | hc
  · exact s.base_ne (.inr hbp) heq.symm
  · exact Set.disjoint_left.mp s.disjoint hc hbp

/-- Block `bp` gets the link of `t`. -/
theorem Shape.linkNext (s : Shape start F U (ptr h.mem) h) (hbp : bp ∈ U)
    (hm : Header h F U bp (size h.mem bp) (ptr h.mem t) m) :
    Shape start F U (update (ptr m) t (ptr m bp)) { h with mem := m } := by
  refine s.setMem (s.extents.congr fun c hc => hm.len_same (.inr hc)) s.disjoint
    (s.ring.congr fun c hc => ?_) ?_
  · by_cases hct : c = t
    · rw [hct, update_self, hm.ptr]
    · rw [update_of_ne hct]
      exact hm.ptr_rest c (node_of_mem hc) (notMem_of_used s hbp hc)
  · rw [hm.size_same (.inl rfl)]
    exact s.base_size

theorem size_lt_of_le (hle : HEADER * n ≤ PHYSMEM) : n < 2 ^ 32 := by
  rw [PHYSMEM_eq] at hle
  unfold HEADER at hle
  omega

/-- The sum of two sizes is a `uint`. -/
theorem u32_add (hle : HEADER * (n + k) ≤ PHYSMEM) : u32 (n + k) = n + k := by
  have hlt := size_lt_of_le hle
  unfold u32
  omega

/-- Two blocks side by side. -/
theorem Shape.size_add_le (s : Shape start F U next h) (hb : b ∈ F ∪ U)
    (hab : a + len h.mem a = b) : HEADER * (size h.mem a + size h.mem b) ≤ PHYSMEM := by
  have hend := (s.extents.le_hi b hb).trans s.sz_le
  rw [Nat.mul_add]
  change len h.mem a + len h.mem b ≤ PHYSMEM
  omega

theorem Shape.insert_subset (hbp : bp ∈ U) : insert bp F ⊆ F ∪ U :=
  Set.insert_subset (.inr hbp) Set.subset_union_left

/-- The free block where `bp` ends is the one after `t`. -/
theorem Shape.next_eq (s : Shape start F U next h) (hbp : bp ∈ U)
    (ht : Below (insert h.base F) bp t) (hend : bp + len h.mem bp ∈ F) :
    bp + len h.mem bp = next t := by
  have hlt := ht.lt
  have hmem := s.ring.next_mem t ht.mem
  rcases s.ring.next_cases t ht.mem with ⟨hup, hleast⟩ | ⟨-, hmax⟩
  · have hle := hleast _ (.inr hend) (by omega)
    have hbelow := ht.le _ hmem
    have hne := notMem_of_used s hbp hmem
    rcases hmem with heq | hq
    · have := s.ring.base_le t ht.mem
      omega
    · have := s.extents.apart bp (.inr hbp) _ (.inl hq) (by omega)
      omega
  · have := hmax _ (.inr hend)
    omega

/-- The free block that ends where `bp` begins is `t`. -/
theorem Shape.below_eq (s : Shape start F U next h) (ht : Below (insert h.base F) bp t)
    (ha : a ∈ F) (hend : a + len h.mem a = bp) : a = t := by
  have hpos := s.extents.pos a (.inl ha)
  have hle := ht.le a (.inr ha) (by omega)
  have hlt := ht.lt
  rcases ht.mem with heq | htF
  · have := s.base_lt (.inl ha)
    omega
  · by_contra hne
    have := s.extents.apart a (.inl ha) t (.inl htF) (by omega)
    omega

/-- No free block lies between `t` and `bp`. -/
theorem Shape.end_notMem (s : Shape start F U next h) (hbp : bp ∈ U)
    (ht : Below (insert h.base F) bp t) (htF : t ∈ F) : t + len h.mem t ∉ F := by
  intro hend
  have hpos := s.extents.pos t (.inl htF)
  have hapart := s.extents.apart t (.inl htF) bp (.inr hbp) ht.lt
  have hne := notMem_of_used s hbp (.inr hend)
  have := ht.le _ (.inr hend) (by omega)
  omega

/-- The first half of `free`. -/
theorem Shape.wp_joinNext (s : Shape start F U (ptr h.mem) h) (hbp : bp ∈ U)
    (ht : Below (insert h.base F) bp t) : wp (joinNext bp t) (fun _ h' => ∃ F', Shape start F' U
      (update (ptr h'.mem) t (ptr h'.mem bp)) h' ∧ Below (insert h'.base F') bp t ∧
      size h.mem bp ≤ size h'.mem bp ∧ SameSizes (U \ {bp}) h h' ∧
      Joins (len h.mem) (insert bp F) {t, bp} (len h'.mem) (insert bp F') {t}) Never h := by
  have hnbp : Node h F U bp := .inr (.inr hbp)
  have hnt : Node h F U t := node_of_mem ht.mem
  have hnq : Node h F U (ptr h.mem t) := node_of_mem (s.ring.next_mem t ht.mem)
  have htne : t ≠ bp := ht.lt.ne
  rw [joinNext, wp_bind]
  refine wp_loadSize (s.le_sz hnbp) (wp_bind.mpr (wp_loadPtr (s.le_sz hnt) ?_))
  rw [wp_ite, s.plus_eq (.inr hbp)]
  refine ⟨fun hnext => ?_, fun hnext => ?_⟩
  · have hq : ptr h.mem t ≠ bp := notMem_of_used s hbp (s.ring.next_mem t ht.mem)
    have hqF := s.next_mem_free hbp ht hnext
    have hsum := s.size_add_le (.inl hqF) hnext
    have hm1 := s.header_setSize hnbp (size_lt_of_le hsum)
    rw [wp_bind]
    refine wp_loadSize (s.le_sz hnq) (wp_bind.mpr (wp_storeSize (s.le_sz hnbp) ?_))
    rw [u32_add hsum, wp_bind]
    refine wp_loadPtr (s.le_sz hnt) (wp_bind.mpr (wp_loadPtr ?_
      (wp_storePtr (s.le_sz hnbp) ?_)))
    · rw [hm1.ptr_rest t hnt htne]
      exact s.le_sz hnq
    rw [hm1.ptr_rest t hnt htne, hm1.ptr_rest _ hnq hq]
    have hm := s.header_setPtr hnbp hm1 (ptr_lt h.mem (ptr h.mem t))
    refine ⟨_, s.absorbNext hbp ht hnext hm, ⟨?_, ht.lt, ?_⟩, ?_,
      fun a ha => hm.size_rest a (.inr (.inr ha.1)) ha.2, ?_⟩
    · have hlt := ht.lt
      refine ht.mem.imp_right fun htF => ⟨htF, fun heq => ?_⟩
      have heq : t = ptr h.mem t := heq
      omega
    · exact fun c hc => ht.le c (hc.imp_right And.left)
    · rw [hm.size]
      exact Nat.le_add_right ..
    · have hbpq : bp ∉ ({ptr h.mem t} : Set Nat) := hq.symm
      rw [← Set.insert_sdiff_of_notMem _ hbpq]
      refine .merge (s.extents.mono (Shape.insert_subset hbp)) (.inl rfl) (.inr hqF) hnext
        hm.len_add (fun c hc => hm.len_rest (.inr (Shape.insert_subset hbp hc))) ?_ ?_
      · rintro (heq | heq)
        · have := ht.lt
          omega
        · exact hq heq
      · exact fun c hc hne => hc.resolve_right hne
  · have hm := s.header_setPtr hnbp (.refl h F U bp) (ptr_lt h.mem t)
    refine wp_storePtr (s.le_sz hnbp) ⟨F, s.linkNext hbp hm, ht, ?_,
      fun a ha => hm.size_rest a (.inr (.inr ha.1)) ha.2,
      .same (fun c hc => hm.len_same (.inr (Shape.insert_subset hbp hc))) ?_⟩
    · rw [hm.size]
    · rintro c (rfl | rfl) hc
      · rfl
      · have hpos := s.extents.pos c (.inr hbp)
        rcases hc.2 with heq | hend
        · omega
        · exact absurd (s.next_eq hbp ht hend) hnext

/-- Block `t` takes in block `bp`, which follows. -/
theorem Shape.absorb (s : Shape start F U (update (ptr h.mem) t (ptr h.mem bp)) h)
    (hbp : bp ∈ U) (ht : t ∈ F) (hnext : t + len h.mem t = bp)
    (hm : Header h F U t (size h.mem t + size h.mem bp) (ptr h.mem bp) m) :
    Shape start F (U \ {bp}) (ptr m) { h with mem := m } := by
  have hbpF : bp ∉ F := fun hmem => Set.disjoint_left.mp s.disjoint hmem hbp
  refine s.setMem ?_ (s.disjoint.mono_right Set.sdiff_subset) (s.ring.congr fun c hc => ?_) ?_
  · have hset : F ∪ U \ {bp} = (F ∪ U) \ {bp} := by
      rw [Set.union_sdiff_distrib, Set.sdiff_singleton_eq_self hbpF]
    rw [hset]
    exact s.extents.merge (.inl ht) (.inr hbp) hnext hm.len_add fun c hc => hm.len_rest (.inr hc)
  · by_cases hct : c = t
    · rw [hct, update_self, hm.ptr]
    · rw [update_of_ne hct, hm.ptr_rest c (node_of_mem hc) hct]
  · rw [hm.size_rest _ (.inl rfl) (s.base_ne (.inl ht))]
    exact s.base_size

/-- Block `bp` is linked in after `t`. -/
theorem Shape.linkPrev (s : Shape start F U (update (ptr h.mem) t (ptr h.mem bp)) h)
    (hbp : bp ∈ U) (ht : Below (insert h.base F) bp t) (hm : Header h F U t (size h.mem t) bp m) :
    Shape start (insert bp F) (U \ {bp}) (ptr m) { h with mem := m } := by
  have hbpF : bp ∉ insert h.base F := fun hmem => notMem_of_used s hbp hmem rfl
  refine s.setMem ?_ ?_ ?_ ?_
  · have hset : insert bp F ∪ U \ {bp} = F ∪ U := by
      rw [Set.insert_union, ← Set.union_insert, Set.insert_sdiff_singleton,
        Set.insert_eq_of_mem hbp]
    rw [hset]
    exact s.extents.congr fun c hc => hm.len_same (.inr hc)
  · rw [Set.disjoint_insert_left]
    exact ⟨fun hmem => hmem.2 rfl, s.disjoint.mono_right Set.sdiff_subset⟩
  · rw [Set.insert_comm]
    refine s.ring.insert ht hbpF hm.ptr ?_ fun c hc hne => ?_
    · rw [update_self]
      exact hm.ptr_rest bp (.inr (.inr hbp)) ht.lt.ne'
    · rw [update_of_ne hne]
      exact hm.ptr_rest c (node_of_mem hc) hne
  · rw [hm.size_same (.inl rfl)]
    exact s.base_size

/-- The second half of `free`. -/
theorem Shape.wp_joinPrev (s : Shape start F U (update (ptr h.mem) t (ptr h.mem bp)) h)
    (hbp : bp ∈ U) (ht : Below (insert h.base F) bp t) :
    wp (joinPrev bp t) (fun _ h' => ∃ F', Shape start F' (U \ {bp}) (ptr h'.mem) h' ∧
      t ∈ insert h'.base F' ∧ (∃ a ∈ F', size h.mem bp ≤ size h'.mem a) ∧
      SameSizes (U \ {bp}) h h' ∧ Joins (len h.mem) (insert bp F) {t} (len h'.mem) F' ∅)
      Never h := by
  have hnbp : Node h F U bp := .inr (.inr hbp)
  have hnt : Node h F U t := node_of_mem ht.mem
  have hlt := ht.lt
  have hbpt : bp ≠ t := hlt.ne'
  rw [joinPrev, wp_bind]
  refine wp_loadSize (s.le_sz hnt) ?_
  rw [wp_ite]
  refine ⟨fun hnext => ?_, fun hnext => ?_⟩
  · have htF : t ∈ F := by
      refine ht.mem.resolve_left fun heq => ?_
      have hplus : plus t (size h.mem t) = t := by
        have hle := (s.le_sz hnt).trans s.sz_le
        have hzero : size h.mem t = 0 := heq ▸ s.base_size
        rw [hzero, User.plus_eq (by omega)]
        omega
      omega
    rw [s.plus_eq (.inl htF)] at hnext
    have hsum := s.size_add_le (.inr hbp) hnext
    have hm1 := s.header_setSize hnt (size_lt_of_le hsum)
    rw [wp_bind]
    refine wp_loadSize (s.le_sz hnbp) (wp_bind.mpr (wp_storeSize (s.le_sz hnt) ?_))
    rw [u32_add hsum, wp_bind]
    refine wp_loadPtr (s.le_sz hnbp) (wp_storePtr (s.le_sz hnt) ?_)
    rw [hm1.ptr_rest bp hnbp hbpt]
    have hm := s.header_setPtr hnt hm1 (ptr_lt h.mem bp)
    refine ⟨F, s.absorb hbp htF hnext hm, ht.mem, ⟨t, htF, ?_⟩, fun a ha => ?_, ?_⟩
    · rw [hm.size]
      exact Nat.le_add_left ..
    · exact hm.size_rest a (.inr (.inr ha.1)) fun heq =>
        Set.disjoint_left.mp s.disjoint htF (heq ▸ ha.1)
    · have hbpF : bp ∉ F := fun hmem => Set.disjoint_left.mp s.disjoint hmem hbp
      have hjoin : Joins _ (insert bp F) {t} _ _ ∅ := .merge
        (s.extents.mono (Shape.insert_subset hbp)) (.inr htF) (.inl rfl) hnext hm.len_add
        (fun c hc => hm.len_rest (.inr (Shape.insert_subset hbp hc))) hbpt
        fun c hc hne => absurd hc hne
      rwa [Set.insert_sdiff_self_of_notMem hbpF] at hjoin
  · have hbp64 : bp < 2 ^ 64 := by
      have := (s.le_sz hnbp).trans s.sz_le
      rw [PHYSMEM_eq] at this
      omega
    have hm := s.header_setPtr hnt (.refl h F U t) hbp64
    refine wp_storePtr (s.le_sz hnt) ⟨insert bp F, s.linkPrev hbp ht hm, ?_, ⟨bp, .inl rfl, ?_⟩,
      fun a ha => ?_, .same (fun c hc => hm.len_same (.inr (Shape.insert_subset hbp hc))) ?_⟩
    · exact ht.mem.imp_right .inr
    · rw [hm.size_rest bp hnbp hbpt]
    · refine hm.size_rest a (.inr (.inr ha.1)) ?_
      exact (notMem_of_used s ha.1 ht.mem).symm
    · rintro c rfl ⟨hc, hend⟩
      have hcF := hc.resolve_left hbpt.symm
      rw [s.plus_eq (.inl hcF)] at hnext
      exact absurd (hend.resolve_left hnext) (s.end_notMem hbp ht hcF)

theorem SameSizes.trans {U : Set Nat} {h h' h'' : Heap} (h1 : SameSizes U h h')
    (h2 : SameSizes U h' h'') : SameSizes U h h'' :=
  fun a ha => (h2 a ha).trans (h1 a ha)

/-- **`free`** puts a block that was in use on the free list. -/
theorem Ok.wp_free (s : Ok start F U h) (hbp : bp ∈ U) :
    wp (free (bp + HEADER)) (fun _ h' => ∃ F', Ok start F' (U \ {bp}) h' ∧
      (∃ a ∈ F', size h.mem bp ≤ size h'.mem a) ∧ SameSizes (U \ {bp}) h h' ∧
      cover (len h'.mem) F' = cover (len h.mem) (insert bp F) ∧
      (touching (len h.mem) F = ∅ → touching (len h'.mem) F' = ∅)) Never h := by
  have hle := (s.le_sz (.inr (.inr hbp))).trans s.sz_le
  have hbp64 : u64 ((bp + HEADER : Nat) - HEADER : Int) = bp := by
    rw [PHYSMEM_eq] at hle
    unfold u64
    omega
  obtain ⟨t, ht⟩ := s.ring.exists_below (b := bp) (by
    have := s.base_lt (.inr hbp)
    unfold HEADER at this
    omega)
  have htsz : t ≤ h.sz := by
    have := s.le_sz (node_of_mem ht.mem)
    omega
  have hfuel := gap_le h.sz h.freep t htsz
  rw [free, hbp64, wp_bind, wp_gets, id]
  refine wp_then (s.wp_freeLoop hbp ht _ _ s.freep_mem (by omega)) ?_
  rintro _ _ ⟨rfl, rfl⟩
  refine wp_then (s.wp_joinNext hbp ht) ?_
  rintro _ h1 ⟨F1, s1, ht1, hsize1, hsame1, hjoin1⟩
  refine wp_then (s1.wp_joinPrev hbp ht1) ?_
  rintro _ h2 ⟨F2, s2, ht2, ⟨a, ha, hsize2⟩, hsame2, hjoin2⟩
  have hjoin := hjoin1.trans hjoin2
  refine wp_modify.mpr ⟨F2, ⟨⟨s2.base_pos, s2.base_le, s2.start_le, s2.sz_le, s2.extents,
    s2.disjoint, s2.ring, s2.base_size⟩, ht2⟩, ⟨a, ha, hsize1.trans hsize2⟩,
    hsame1.trans hsame2, hjoin.cover_eq, fun hnone => ?_⟩
  refine Set.subset_empty_iff.mp (hjoin.touching_subset ?_)
  rintro c ⟨rfl | hc, hend⟩
  · exact .inr rfl
  · rcases hend with heq | hend
    · exact .inl (s.below_eq ht hc heq)
    · exact (hnone.subset ⟨hc, hend⟩).elim

/-- A block of `n` units was found or made at `a`. -/
structure Taken (start : Nat) (U : Set Nat) (n a : Nat) (h h' : Heap) : Prop where
  ok : ∃ F', Ok start F' (insert a U) h'
  fresh : a ∉ U
  size_eq : size h'.mem a = n
  same : SameSizes U h h'

/-- A block of the right size is unlinked. -/
theorem Ok.unlink (s : Ok start F U h) (hprev : prevp ∈ insert h.base F) (hp : ptr h.mem prevp ∈ F)
    (hm : Header h F U prevp (size h.mem prevp) (ptr h.mem (ptr h.mem prevp)) m) :
    Taken start U (size h.mem (ptr h.mem prevp)) (ptr h.mem prevp) h
      { h with mem := m, freep := prevp } := by
  have hbase := s.base_ne (.inl hp)
  have hpU : ptr h.mem prevp ∉ U := Set.disjoint_left.mp s.disjoint hp
  have hself : prevp ≠ ptr h.mem prevp := by
    intro heq
    rcases s.ring.next_cases prevp hprev with ⟨hup, -⟩ | ⟨hwrap, -⟩
    · omega
    · exact hbase hwrap.symm
  refine ⟨⟨F \ {ptr h.mem prevp}, ⟨⟨s.base_pos, s.base_le, s.start_le, s.sz_le, ?_, ?_, ?_, ?_⟩,
    ?_⟩⟩, hpU, hm.size_same (.inr (.inl hp)), fun a ha => hm.size_same (.inr (.inr ha))⟩
  · have hset : F \ {ptr h.mem prevp} ∪ insert (ptr h.mem prevp) U = F ∪ U := by
      rw [Set.union_insert, ← Set.insert_union, Set.insert_sdiff_singleton,
        Set.insert_eq_of_mem hp]
    rw [hset]
    exact s.extents.congr fun c hc => hm.len_same (.inr hc)
  · rw [Set.disjoint_insert_right]
    exact ⟨fun hmem => hmem.2 rfl, s.disjoint.mono_left Set.sdiff_subset⟩
  · have hnot : h.base ∉ ({ptr h.mem prevp} : Set Nat) := hbase
    rw [← Set.insert_sdiff_of_notMem _ hnot]
    exact s.ring.remove hprev hbase.symm hm.ptr fun c hc hne =>
      hm.ptr_rest c (node_of_mem hc) hne
  · rw [hm.size_same (.inl rfl)]
    exact s.base_size
  · exact hprev.imp_right fun hF => ⟨hF, hself⟩

/-- The upper end of a larger block is taken. -/
theorem Ok.carve (s : Ok start F U h) (hprev : prevp ∈ insert h.base F) (hp : p ∈ F) (hn : 0 < n)
    (hlt : n < size h.mem p) (ha : a = p + HEADER * (size h.mem p - n)) : Taken start U n a h
      { h with mem := setSize (setSize h.mem p (size h.mem p - n)) a n, freep := prevp } := by
  have hnp : Node h F U p := .inr (.inl hp)
  have hsize := size_lt_of_le (s.size_lt (.inl hp))
  have hm1 := s.header_setSize hnp (v := size h.mem p - n) (by omega)
  -- the new header is apart from all others
  have hpa : Apart a p := by
    unfold Apart HEADER at *
    omega
  have hapart : ∀ b, Node h F U b → Apart a b := by
    intro b hb
    by_cases hbp : b = p
    · exact hbp ▸ hpa
    rcases hb with rfl | hb
    · have := s.base_lt (.inl hp)
      unfold Apart HEADER at *
      omega
    · have h1 := s.extents.apart_of_ne (.inl hp) hb (Ne.symm hbp)
      unfold Apart len HEADER at *
      omega
  have hnot : ¬ Node h F U a := by
    intro ha
    have := hapart a ha
    unfold Apart HEADER at this
    omega
  generalize hm : setSize (setSize h.mem p (size h.mem p - n)) a n = m
  have hsize_a : size m a = n := by
    rw [← hm]
    exact size_setSize (by omega)
  have hsize_p : size m p = size h.mem p - n := by
    rw [← hm, size_setSize_of_apart hpa]
    exact hm1.size
  have hsize_rest : ∀ b, Node h F U b → b ≠ p → size m b = size h.mem b := by
    intro b hb hne
    rw [← hm, size_setSize_of_apart (hapart b hb)]
    exact hm1.size_rest b hb hne
  have hptr : ∀ b, Node h F U b → ptr m b = ptr h.mem b := by
    intro b hb
    rw [← hm, ptr_setSize (.inr (hapart b hb))]
    by_cases hne : b = p
    · rw [hne]
      exact hm1.ptr
    · exact hm1.ptr_rest b hb hne
  have haF : a ∉ F := fun ha => hnot (.inr (.inl ha))
  have haU : a ∉ U := fun ha => hnot (.inr (.inr ha))
  refine ⟨⟨F, ⟨⟨s.base_pos, s.base_le, s.start_le, s.sz_le, ?_, ?_, ?_, ?_⟩, hprev⟩⟩, haU, hsize_a,
    fun b hb => hsize_rest b (.inr (.inr hb)) ?_⟩
  · rw [Set.union_insert]
    refine s.extents.split (.inl hp) (k := HEADER * n) ?_ ?_ ?_ ?_ ?_ fun c hc hne => ?_
    · unfold HEADER
      omega
    · unfold len HEADER
      omega
    · rw [ha, len, Nat.mul_sub]
    · rw [len, hsize_p, len, Nat.mul_sub]
    · rw [len, hsize_a]
    · rw [len, hsize_rest c (.inr hc) hne, len]
  · rw [Set.disjoint_insert_right]
    exact ⟨haF, s.disjoint⟩
  · exact s.ring.congr fun c hc => hptr c (node_of_mem hc)
  · rw [hsize_rest _ (.inl rfl) (s.base_ne (.inl hp))]
    exact s.base_size
  · rintro rfl
    exact Set.disjoint_left.mp s.disjoint hp hb

/-- **A block that is large enough** is taken, or a part of it. -/
theorem Ok.wp_take (s : Ok start F U h) (hprev : prevp ∈ insert h.base F) (hp : ptr h.mem prevp ∈ F)
    (hn : 0 < n) (hle : n ≤ size h.mem (ptr h.mem prevp)) :
    wp (take n prevp (ptr h.mem prevp)) (fun r h' => ∃ a, r = a + HEADER ∧
      Taken start U n a h h') Never h := by
  have hnp : Node h F U (ptr h.mem prevp) := .inr (.inl hp)
  rw [take, wp_bind]
  refine wp_loadSize (s.le_sz hnp) ?_
  rw [wp_ite]
  refine ⟨fun heq => ?_, fun hne => ?_⟩
  · have hm := s.header_setPtr (node_of_mem hprev) (.refl h F U prevp)
      (ptr_lt h.mem (ptr h.mem prevp))
    rw [wp_bind]
    refine wp_loadPtr (s.le_sz hnp) (wp_bind.mpr (wp_storePtr (s.le_sz (node_of_mem hprev)) ?_))
    rw [wp_bind]
    refine wp_modify.mpr (wp_pure.mpr ⟨_, rfl, ?_⟩)
    rw [← heq]
    exact s.unlink hprev hp hm
  · have hlt : n < size h.mem (ptr h.mem prevp) := by omega
    have hend := (s.extents.le_hi _ (.inl hp)).trans s.sz_le
    have hplus : plus (ptr h.mem prevp) (size h.mem (ptr h.mem prevp) - n) =
        ptr h.mem prevp + HEADER * (size h.mem (ptr h.mem prevp) - n) := by
      refine User.plus_eq (le_trans ?_ hend)
      exact Nat.add_le_add_left (Nat.mul_le_mul_left _ (Nat.sub_le ..)) _
    have hcarve := s.carve hprev hp hn hlt rfl
    rw [wp_bind]
    refine wp_storeSize (s.le_sz hnp) ?_
    rw [wp_bind, hplus]
    refine wp_storeSize ?_ ?_
    · have := s.extents.le_hi _ (.inl hp)
      unfold len HEADER at *
      change _ ≤ h.sz
      omega
    · rw [wp_bind]
      exact wp_modify.mpr (wp_pure.mpr ⟨_, rfl, hcarve⟩)

/-- `malloc` has no memory, or has found a block. -/
def Answer (start : Nat) (U : Set Nat) (n : Nat) (h : Heap) (r : Nat) (h' : Heap) : Prop :=
  (r = 0 ∧ (∃ F, Ok start F U h') ∧ SameSizes U h h') ∨
    ∃ a, r = a + HEADER ∧ Taken start U n a h h'

theorem Ok.pos (s : Ok start F U h) (ha : a ∈ insert h.base F) : 0 < a :=
  lt_of_lt_of_le s.base_pos (s.ring.base_le a ha)

theorem Ok.le_top (s : Ok start F U h) (a : Nat) (ha : a ∈ insert h.base F) : a ≤ h.sz :=
  (Nat.le_add_right ..).trans (s.le_sz (node_of_mem ha))

/-- The block that the search has come to is taken, or the search goes on. -/
theorem Ok.wp_tryBlock (s : Ok start F U h) (hn : 0 < n) (hprev : prevp ∈ insert h.base F)
    {m : HeapM Nat} (hm : ¬ n ≤ size h.mem (ptr h.mem prevp) → wp m (Answer start U n h) Never h) :
    wp (do
      let psize ← loadSize (ptr h.mem prevp)
      if n ≤ psize then take n prevp (ptr h.mem prevp) else m) (Answer start U n h) Never h := by
  have hp := s.ring.next_mem prevp hprev
  rw [wp_bind]
  refine wp_loadSize (s.le_sz (node_of_mem hp)) ?_
  rw [wp_ite]
  refine ⟨fun hle => ?_, hm⟩
  have hpF : ptr h.mem prevp ∈ F := by
    refine hp.resolve_left fun heq => ?_
    have := s.base_size
    rw [heq] at hle
    omega
  exact wp_imp (s.wp_take hprev hpF hn hle) fun _ _ h' => Or.inr h'

/-- The search finds a block that is large enough, if there is one on the way to
`freep`. -/
theorem Ok.wp_mallocLoop_found (s : Ok start F U h) (hn : 0 < n) (ht : t ∈ F)
    (hfit : n ≤ size h.mem t) (fuel prevp : Nat) (hprev : prevp ∈ insert h.base F)
    (hway : gap h.sz (ptr h.mem prevp) t ≤ gap h.sz (ptr h.mem prevp) h.freep)
    (hfuel : gap h.sz (ptr h.mem prevp) t < fuel) :
    wp (mallocLoop n fuel prevp (ptr h.mem prevp)) (Answer start U n h) Never h := by
  induction fuel generalizing prevp with
  | zero => omega
  | succ fuel ih =>
    have hp := s.ring.next_mem prevp hprev
    have hnp := s.le_sz (node_of_mem hp)
    refine s.wp_tryBlock hn hprev fun hlt => ?_
    -- this is not the block, so it is not `freep` either
    have hpt : ptr h.mem prevp ≠ t := fun heq => hlt (heq ▸ hfit)
    have hpf : ptr h.mem prevp ≠ h.freep := by
      intro heq
      have hzero : gap h.sz (ptr h.mem prevp) h.freep = 0 := by
        rw [heq, gap, if_pos le_rfl, Nat.sub_self]
      exact hpt (eq_of_gap_eq_zero (s.le_top _ hp) (by omega))
    have hnear := gap_next_lt s.ring s.le_top hp (.inr ht) hpt
    rw [wp_bind, refill, wp_bind, wp_gets, id, if_neg hpf, wp_pure, wp_bind]
    refine wp_loadPtr hnp (ih _ hp ?_ (by omega))
    exact gap_next_le s.ring hp (s.le_top _ hp) s.freep_mem (.inr ht) hpf hpt hway

/-- The largest request whose size with the header, in bytes, is an `int`. -/
def MAXREQUEST : Nat := 2 ^ 31 - 32

/-- Memory is added above the break, as a block in use. -/
theorem Ok.grow (s : Ok start F U h) (fails : List Bool) (hk : 0 < k)
    (hle : h.sz + HEADER * k ≤ PHYSMEM) :
    let mem := fill h.mem (Vm.pgRoundUp h.sz)
      (Vm.pgRoundUp (h.sz + HEADER * k) - Vm.pgRoundUp h.sz) 0
    let h' : Heap := { h with
      mem := setSize mem h.sz k, sz := h.sz + HEADER * k, fails := fails }
    Ok start F (insert h.sz U) h' ∧ h.sz ∉ U ∧ size h'.mem h.sz = k ∧ SameSizes U h h' := by
  intro mem h'
  have hround := le_pgRoundUp h.sz
  have hk32 := size_lt_of_le (n := k) (by omega)
  -- nothing below the break changes but for the new header
  have hsame : ∀ b, b + HEADER ≤ h.sz →
      size h'.mem b = size h.mem b ∧ ptr h'.mem b = ptr h.mem b := by
    intro b hb
    have hfill : ∀ i, i < h.sz → mem i = h.mem i := fun i hi => fill_of_outside (by omega)
    constructor
    · refine (size_setSize_of_apart (.inr hb)).trans (leField_congr fun i hi hi' => hfill i ?_)
      unfold HEADER at hb
      omega
    · refine (ptr_setSize (.inr (.inr hb))).trans (leField_congr fun i hi hi' => hfill i ?_)
      unfold HEADER at hb
      omega
  have hnode : ∀ b, Node h F U b → size h'.mem b = size h.mem b ∧ ptr h'.mem b = ptr h.mem b :=
    fun b hb => hsame b (s.le_sz hb)
  have hnot : ∀ b, Node h F U b → b ≠ h.sz := by
    rintro b hb rfl
    have := s.le_sz hb
    unfold HEADER at this
    omega
  have hsize : size h'.mem h.sz = k := size_setSize hk32
  refine ⟨⟨⟨s.base_pos, s.base_le, ?_, hle, ?_, ?_, ?_, ?_⟩, s.freep_mem⟩, ?_, hsize,
    fun a ha => (hnode a (.inr (.inr ha))).1⟩
  · exact s.start_le.trans (Nat.le_add_right ..)
  · rw [Set.union_insert]
    refine s.extents.grow s.start_le ?_ ?_ fun c hc => ?_
    · rw [len]
      unfold HEADER
      omega
    · rw [len, hsize]
    · rw [len, (hnode c (.inr hc)).1, len]
  · rw [Set.disjoint_insert_right]
    exact ⟨fun hF => hnot _ (.inr (.inl hF)) rfl, s.disjoint⟩
  · exact s.ring.congr fun c hc => (hnode c (node_of_mem hc)).2
  · exact (hnode _ (.inl rfl)).1.trans s.base_size
  · exact fun hU => hnot _ (.inr (.inr hU)) rfl

/-- `sbrk` for a size that is an `int`: the break stays, or moves up. -/
theorem wp_sbrk {Q : Int → Heap → Prop} (hk : 0 < k)
    (hfail : Q (-1) { h with fails := h.fails.tail }) (hmore : h.sz + k ≤ PHYSMEM → Q h.sz { h with
      mem := fill h.mem (Vm.pgRoundUp h.sz) (Vm.pgRoundUp (h.sz + k) - Vm.pgRoundUp h.sz) 0
      sz := h.sz + k, fails := h.fails.tail }) : wp (sbrk k) Q Never h := by
  rw [sbrk, wp_bind, wp_gets, id, if_pos (by omega), wp_bind, wp_modify, wp_ite]
  refine ⟨fun _ => wp_pure.mpr hfail, fun hroom => ?_⟩
  rw [wp_bind, wp_modify, wp_pure]
  exact hmore (by omega)

theorem toInt_of_lt (hk : k < 2 ^ 31) : toInt k = k := by
  unfold toInt
  omega

/-- **`morecore`** has no memory, or leaves a block that is large enough. -/
theorem Ok.wp_morecore (s : Ok start F U h) (hmax : HEADER * n < 2 ^ 31) :
    wp (morecore n) (fun r h' => (∃ F', Ok start F' U h' ∧ (r ≠ 0 → r = h'.freep ∧
      ∃ t ∈ F', n ≤ size h'.mem t)) ∧ SameSizes U h h') Never h := by
  have hk : ∃ k, (if n < 4096 then 4096 else n) = k ∧ n ≤ k ∧ 0 < k ∧ HEADER * k < 2 ^ 31 := by
    unfold HEADER at *
    split
    · exact ⟨4096, rfl, by omega, by omega, by omega⟩
    · exact ⟨n, rfl, le_rfl, by omega, hmax⟩
  obtain ⟨k, hk, hnk, hpos, hk31⟩ := hk
  have hcast : toInt ((k : Int) * (HEADER : Int)) = ((HEADER * k : Nat) : Int) := by
    rw [← toInt_of_lt hk31]
    push_cast
    rw [mul_comm]
  rw [morecore, hk, hcast, wp_bind]
  refine wp_sbrk (by unfold HEADER; omega) ?_ fun hroom => ?_
  · rw [if_pos rfl, wp_pure]
    exact ⟨⟨F, ⟨⟨s.base_pos, s.base_le, s.start_le, s.sz_le, s.extents, s.disjoint, s.ring,
      s.base_size⟩, s.freep_mem⟩, fun h0 => absurd rfl h0⟩, fun _ _ => rfl⟩
  · obtain ⟨s', hfresh, hsize, hsame⟩ := s.grow h.fails.tail hpos hroom
    have hsz : u64 (h.sz : Int) = h.sz := by
      rw [PHYSMEM_eq] at hroom
      unfold u64
      omega
    rw [if_neg (by omega), hsz, wp_bind]
    refine wp_storeSize ?_ ?_
    · change h.sz + HEADER ≤ h.sz + HEADER * k
      unfold HEADER
      omega
    rw [wp_bind]
    have hset : insert h.sz U \ {h.sz} = U := by
      rw [Set.insert_sdiff_of_mem _ (Set.mem_singleton _), Set.sdiff_singleton_eq_self hfresh]
    refine wp_imp (s'.wp_free (.inl rfl)) ?_
    rintro _ h' ⟨F', ok', ⟨t, ht, hle⟩, hsame', -⟩
    rw [hset] at ok' hsame'
    rw [hsize] at hle
    exact wp_gets.mpr ⟨⟨F', ok', fun _ => ⟨rfl, t, ht, hnk.trans hle⟩⟩, hsame.trans hsame'⟩

theorem Answer.of_same {r : Nat} {h0 h' : Heap} (hsame : SameSizes U h0 h)
    (ha : Answer start U n h r h') : Answer start U n h0 r h' := by
  rcases ha with ⟨h0, hok, hsame'⟩ | ⟨a, hr, ht⟩
  · exact .inl ⟨h0, hok, hsame.trans hsame'⟩
  · exact .inr ⟨a, hr, ht.ok, ht.fresh, ht.size_eq, hsame.trans ht.same⟩

/-- **The loop of `malloc`** ends. -/
theorem Ok.wp_mallocLoop (s : Ok start F U h) (hn : 0 < n) (hmax : HEADER * n < 2 ^ 31)
    (fuel prevp : Nat) (hprev : prevp ∈ insert h.base F)
    (hfuel : gap h.sz (ptr h.mem prevp) h.freep + 2 * PHYSMEM + 2 < fuel) :
    wp (mallocLoop n fuel prevp (ptr h.mem prevp)) (Answer start U n h) Never h := by
  induction fuel generalizing prevp with
  | zero => omega
  | succ fuel ih =>
    have hp := s.ring.next_mem prevp hprev
    have hnp := s.le_sz (node_of_mem hp)
    refine s.wp_tryBlock hn hprev fun _ => ?_
    rw [wp_bind, refill, wp_bind, wp_gets, wp_ite]
    refine ⟨fun _ => ?_, fun hpf => ?_⟩
    · -- every block has been seen
      refine wp_then (s.wp_morecore hmax) ?_
      rintro p h' ⟨⟨F', s', hfit⟩, hsame⟩
      rw [wp_pure]
      split
      · exact wp_pure.mpr (.inl ⟨rfl, ⟨F', s'⟩, hsame⟩)
      · rename_i r hr
        have hp0 : p ≠ 0 := fun h0 => by simp [h0] at hr
        rw [if_neg hp0, Option.some.injEq] at hr
        obtain ⟨hfreep, t, ht, hle⟩ := hfit hp0
        have hgap := gap_le h'.sz (ptr h'.mem h'.freep) t (s'.le_top t (.inr ht))
        have hsz := s'.sz_le
        rw [← hr, hfreep, wp_bind]
        refine wp_loadPtr (s'.le_sz (node_of_mem s'.freep_mem)) ?_
        refine wp_imp (s'.wp_mallocLoop_found hn ht hle fuel _ s'.freep_mem ?_ (by omega))
          fun _ _ => Answer.of_same hsame
        exact gap_next_self s'.ring s'.le_top s'.freep_mem (.inr ht)
    · have hnear := gap_next_lt s.ring s.le_top hp s.freep_mem hpf
      rw [wp_pure, wp_bind]
      exact wp_loadPtr hnp (ih _ hp (by omega))

/-- The process before it first calls `malloc`. -/
structure Fresh (start : Nat) (h : Heap) : Prop where
  base_pos : 0 < h.base
  base_le : h.base + HEADER ≤ start
  sz_eq : h.sz = start
  sz_le : start ≤ PHYSMEM
  freep : h.freep = 0

/-- What is so between calls. -/
def Inv (start : Nat) (U : Set Nat) (h : Heap) : Prop :=
  (Fresh start h ∧ U = ∅) ∨ ∃ F, Ok start F U h

theorem Inv.wp_initList (s : Inv start U h) :
    wp initList (fun _ h' => (∃ F, Ok start F U h') ∧ SameSizes U h h') Never h := by
  rw [initList, wp_bind, wp_gets, id, wp_when]
  rcases s with ⟨s, rfl⟩ | ⟨F, s⟩
  · refine ⟨fun _ => ?_, fun h0 => absurd s.freep h0⟩
    have hle : h.base + HEADER ≤ h.sz := s.base_le.trans_eq s.sz_eq.symm
    have hbase : h.base < 2 ^ 64 := by
      have := s.base_le.trans s.sz_le
      rw [PHYSMEM_eq] at this
      omega
    rw [wp_bind]
    refine wp_storePtr hle ?_
    rw [wp_bind, setFreep, wp_modify]
    refine wp_storeSize hle ⟨⟨∅, ⟨⟨s.base_pos, s.base_le, s.sz_eq.ge, ?_, ?_, ?_, ?_, ?_⟩, ?_⟩⟩,
      fun _ => False.elim⟩
    · exact s.sz_eq.trans_le s.sz_le
    · rw [Set.empty_union]
      exact .empty
    · exact Set.disjoint_empty _
    · rw [insert_empty_eq]
      exact .single ((ptr_setSize (.inl rfl)).trans (ptr_setPtr hbase))
    · exact size_setSize (by decide)
    · exact .inl rfl
  · refine ⟨fun h0 => ?_, fun _ => ⟨⟨F, s⟩, fun _ _ => rfl⟩⟩
    have := s.pos s.freep_mem
    omega

theorem unitsFor_eq (h : nbytes ≤ MAXREQUEST) : unitsFor nbytes = (nbytes + 15) / 16 + 1 := by
  unfold MAXREQUEST at h
  unfold unitsFor u32 HEADER
  omega

/-- **`malloc`**, if the size of the block in bytes is an `int`. -/
theorem Inv.wp_malloc (s : Inv start U h) (hle : nbytes ≤ MAXREQUEST) :
    wp (malloc nbytes) (Answer start U (unitsFor nbytes) h) Never h := by
  have hunits := unitsFor_eq hle
  unfold MAXREQUEST at hle
  refine wp_then s.wp_initList ?_
  rintro _ h1 ⟨⟨F, s1⟩, hsame⟩
  have hfreep := s1.le_sz (node_of_mem (U := U) s1.freep_mem)
  have hgap := gap_le h1.sz (ptr h1.mem h1.freep) h1.freep (by omega)
  rw [wp_bind, wp_gets, id, wp_bind]
  refine wp_loadPtr hfreep ?_
  refine wp_imp (s1.wp_mallocLoop (by omega) ?_ _ _ s1.freep_mem (by omega))
    fun _ _ => Answer.of_same hsame
  rw [hunits]
  unfold HEADER
  omega

end Shape

/-! ### A program -/

/-- A program that uses the allocator, with the pointers it has and the sizes it
asked for. -/
structure Client where
  heap : Heap
  live : List (Nat × Nat)

/-- What the program does. -/
inductive Op where
  /-- with the answers that `sbrk` will get -/
  | malloc (nbytes : Nat) (fails : List Bool)
  | free (ap : Nat)
  /-- a byte is stored in a block -/
  | write (a : Nat) (v : UInt8)

/-- A call of `malloc` or `free` returns, or a byte is stored. -/
inductive CStep (c : Client) : Op → Client → Prop
  | malloc {nbytes : Nat} {fails : List Bool} {r : Nat} {h : Heap} : nbytes < 2 ^ 32 →
      malloc nbytes { c.heap with fails := fails } = .ok (r, h) →
      CStep c (.malloc nbytes fails) ⟨h, if r = 0 then c.live else (r, nbytes) :: c.live⟩
  | free {ap nbytes : Nat} {h : Heap} : (ap, nbytes) ∈ c.live → free ap c.heap = .ok ((), h) →
      CStep c (.free ap) ⟨h, c.live.filter fun x => x.1 ≠ ap⟩
  | write {p nbytes a : Nat} {v : UInt8} : (p, nbytes) ∈ c.live → p ≤ a → a < p + nbytes →
      CStep c (.write a v) { c with heap.mem := update c.heap.mem a v }

/-- The sizes asked for are such that the size of a block in bytes is an `int`. -/
def Small (_ : Client) : Op → Prop
  | .malloc nbytes _ => nbytes ≤ MAXREQUEST
  | _ => True

/-- Every pointer of the program is that of a block in use. -/
structure Good (start : Nat) (c : Client) (U : Set Nat) : Prop where
  inv : Inv start U c.heap
  block : ∀ x ∈ c.live, ∃ a ∈ U, x.1 = a + HEADER ∧ size c.heap.mem a = unitsFor x.2
  small : ∀ x ∈ c.live, x.2 ≤ MAXREQUEST
  nodup : (c.live.map Prod.fst).Nodup

section Client

variable {start : Nat} {c c' : Client} {U : Set Nat} {op : Op}

theorem Inv.setFails {fails : List Bool} (s : Inv start U h) :
    Inv start U { h with fails := fails } := by
  rcases s with ⟨s, hU⟩ | ⟨F, s⟩
  · exact .inl ⟨⟨s.base_pos, s.base_le, s.sz_eq, s.sz_le, s.freep⟩, hU⟩
  · exact .inr ⟨F, ⟨⟨s.base_pos, s.base_le, s.start_le, s.sz_le, s.extents, s.disjoint, s.ring,
      s.base_size⟩, s.freep_mem⟩⟩

theorem le_unitsFor (h : nbytes ≤ MAXREQUEST) : HEADER + nbytes ≤ HEADER * unitsFor nbytes := by
  rw [unitsFor_eq h]
  unfold HEADER
  omega

/-- A byte of a block in use is in no header. -/
theorem Ok.setByte {F : Set Nat} {w : UInt8} (s : Ok start F U h) (ha : a ∈ U)
    (hlo : a + HEADER ≤ b) (hhi : b < a + len h.mem a) :
    Ok start F U { h with mem := update h.mem b w } ∧
      SameSizes U h { h with mem := update h.mem b w } := by
  have hnode : ∀ c, Node h F U c → b < c ∨ c + HEADER ≤ b := by
    intro c hc
    by_cases hca : c = a
    · exact .inr (hca ▸ hlo)
    rcases hc with rfl | hc
    · have := s.base_lt (.inr ha)
      omega
    · have h1 := s.extents.apart_of_ne (.inr ha) hc (Ne.symm hca)
      omega
  have hbyte : ∀ c, Node h F U c → ∀ i, c ≤ i → i < c + HEADER →
      update h.mem b w i = h.mem i := by
    intro c hc i hi hi'
    have := hnode c hc
    exact update_of_ne (by omega) ..
  have hsize : ∀ c, Node h F U c → size (update h.mem b w) c = size h.mem c :=
    fun c hc => leField_congr fun i hi hi' => hbyte c hc i (by omega) (by unfold HEADER; omega)
  have hptr : ∀ c, Node h F U c → ptr (update h.mem b w) c = ptr h.mem c :=
    fun c hc => leField_congr fun i hi hi' => hbyte c hc i hi (by unfold HEADER; omega)
  refine ⟨⟨⟨s.base_pos, s.base_le, s.start_le, s.sz_le, ?_, s.disjoint, ?_, ?_⟩, s.freep_mem⟩,
    fun c hc => hsize c (.inr (.inr hc))⟩
  · refine s.extents.congr fun c hc => ?_
    rw [len, hsize c (.inr hc), len]
  · exact s.ring.congr fun c hc => hptr c (node_of_mem hc)
  · exact (hsize _ (.inl rfl)).trans s.base_size

/-- One step of the program. -/
theorem Good.step (g : Good start c U) (hsmall : Small c op) (hs : CStep c op c') :
    ∃ U', Good start c' U' := by
  cases hs with
  | @malloc nbytes fails r h hlt hr =>
    rcases wp_ok (g.inv.setFails.wp_malloc hsmall) hr with ⟨rfl, hok, hsame⟩ | ⟨a, rfl, ht⟩
    · refine ⟨U, .inr hok, fun x hx => ?_, g.small, g.nodup⟩
      obtain ⟨a, ha, hxa, hsize⟩ := g.block x hx
      exact ⟨a, ha, hxa, (hsame a ha).trans hsize⟩
    · have hold : ∀ x ∈ c.live, ∃ b ∈ insert a U, x.1 = b + HEADER ∧ x.1 ≠ a + HEADER ∧
          size h.mem b = unitsFor x.2 := by
        intro x hx
        obtain ⟨b, hb, hxb, hsize⟩ := g.block x hx
        have hne : b ≠ a := fun heq => ht.fresh (heq ▸ hb)
        exact ⟨b, .inr hb, hxb, by omega, (ht.same b hb).trans hsize⟩
      refine ⟨insert a U, .inr ht.ok, ?_, ?_, ?_⟩
      · rintro x (_ | ⟨_, hx⟩)
        · exact ⟨a, .inl rfl, rfl, ht.size_eq⟩
        · obtain ⟨b, hb, hxb, -, hsize⟩ := hold x hx
          exact ⟨b, hb, hxb, hsize⟩
      · rintro x (_ | ⟨_, hx⟩)
        · exact hsmall
        · exact g.small x hx
      · refine List.nodup_cons.mpr ⟨fun hmem => ?_, g.nodup⟩
        obtain ⟨x, hx, heq⟩ := List.mem_map.mp hmem
        obtain ⟨b, -, -, hne, -⟩ := hold x hx
        exact hne heq
  | @free ap nbytes h hlive hr =>
    obtain ⟨a, ha, rfl, hsize⟩ := g.block _ hlive
    rcases g.inv with ⟨-, rfl⟩ | ⟨F, s⟩
    · exact absurd ha (Set.notMem_empty _)
    obtain ⟨F', s', -, hsame, -⟩ := wp_ok (s.wp_free ha) hr
    refine ⟨U \ {a}, .inr ⟨F', s'⟩, fun x hx => ?_, fun x hx => ?_, ?_⟩
    · obtain ⟨hx, hne⟩ := List.mem_filter.mp hx
      obtain ⟨b, hb, hxb, hsize⟩ := g.block x hx
      have hba : b ≠ a := fun heq => by simp [hxb, heq] at hne
      exact ⟨b, ⟨hb, hba⟩, hxb, (hsame b ⟨hb, hba⟩).trans hsize⟩
    · exact g.small x (List.mem_filter.mp hx).1
    · exact g.nodup.sublist (List.Sublist.map _ List.filter_sublist)
  | @write p nbytes b v hlive hlo hhi =>
    obtain ⟨a, ha, rfl, hsize⟩ := g.block _ hlive
    rcases g.inv with ⟨-, rfl⟩ | ⟨F, s⟩
    · exact absurd ha (Set.notMem_empty _)
    have hlen := le_unitsFor (g.small _ hlive)
    obtain ⟨s', hsame⟩ := s.setByte ha hlo (by rw [len, hsize]; omega)
    refine ⟨U, .inr ⟨F, s'⟩, fun x hx => ?_, g.small, g.nodup⟩
    obtain ⟨b', hb', hxb, hsize'⟩ := g.block x hx
    exact ⟨b', hb', hxb, (hsame b' hb').trans hsize'⟩

/-- The headers on the free list. -/
def OnFreeList (h : Heap) (q : Nat) : Prop :=
  Relation.ReflTransGen (fun a b => ptr h.mem a = b) h.freep q

/--
**What `malloc` returns is a block of its own.** Whatever a program did before, with
requests of at most `MAXREQUEST` bytes, such a request returns null or the start of
as many bytes: between the first break and the break, apart from every block the
program has, and from every header on the free list. And the program can free each
of its blocks.
-/
theorem malloc_sound {c0 : Client} {ops : List Op} (nbytes : Nat) (fails : List Bool)
    (h0 : Fresh start c0.heap) (hlive : c0.live = [])
    (hrun : Run (Restrict Small CStep) c0 ops c) (hle : nbytes ≤ MAXREQUEST) :
    (∃ r h, malloc nbytes { c.heap with fails := fails } = .ok (r, h) ∧ (r ≠ 0 →
      (start ≤ r ∧ r + nbytes ≤ h.sz) ∧ (∀ x ∈ c.live, r + nbytes ≤ x.1 ∨ x.1 + x.2 ≤ r) ∧
      ∀ q, OnFreeList h q → r + nbytes ≤ q ∨ q + HEADER ≤ r)) ∧
    ∀ x ∈ c.live, ∃ h, free x.1 c.heap = .ok ((), h) := by
  obtain ⟨U, g⟩ : ∃ U, Good start c U := by
    refine hrun.invariant (P := fun c => ∃ U, Good start c U) ?_ fun _ _ _ hg hs => ?_
    · exact ⟨∅, .inl ⟨h0, rfl⟩, by simp [hlive], by simp [hlive], by simp [hlive]⟩
    · obtain ⟨U, g⟩ := hg
      exact g.step hs.1 hs.2
  refine ⟨?_, fun x hx => ?_⟩
  swap
  · obtain ⟨a, ha, hxa, -⟩ := g.block x hx
    rcases g.inv with ⟨-, rfl⟩ | ⟨F, s⟩
    · exact absurd ha (Set.notMem_empty _)
    · obtain ⟨_, h, hfree, -⟩ := exists_ok_of_wp (s.wp_free ha)
      exact ⟨h, hxa ▸ hfree⟩
  have hinv : Inv start U { c.heap with fails := fails } := g.inv.setFails
  obtain ⟨r, h, hr, hans⟩ := exists_ok_of_wp (hinv.wp_malloc hle)
  refine ⟨r, h, hr, fun hr0 => ?_⟩
  rcases hans with ⟨h0, -⟩ | ⟨a, rfl, ht⟩
  · exact absurd h0 hr0
  obtain ⟨F, s⟩ := ht.ok
  have ha : a ∈ F ∪ insert a U := .inr (.inl rfl)
  have hlen := le_unitsFor hle
  have hends := s.extents.le_hi a ha
  have hlo := s.extents.lo_le a ha
  rw [len, ht.size_eq] at hends
  refine ⟨⟨by omega, by omega⟩, fun x hx => ?_, fun q hq => ?_⟩
  · obtain ⟨b, hb, hxb, hsize⟩ := g.block x hx
    have hlenx := le_unitsFor (g.small x hx)
    have hab := s.extents.apart_of_ne ha (.inr (.inr hb)) fun heq => ht.fresh (heq ▸ hb)
    rw [len, len, ht.size_eq, ht.same b hb, hsize] at hab
    omega
  · rcases s.ring.mem_of_reach s.freep_mem hq with rfl | hqF
    · have := s.base_le
      omega
    · have hqa : a ≠ q := fun heq => Set.disjoint_left.mp s.disjoint hqF (.inl heq.symm)
      have hab := s.extents.apart_of_ne ha (.inl hqF) hqa
      have hsix := s.sixteen_le (.inl hqF)
      rw [len, ht.size_eq] at hab
      omega

/-- A process of four pages. -/
def fourPages : Heap :=
  { mem := fun _ => 0, sz := 0x4000, base := 0x2000, freep := 0, fails := [] }

theorem fresh_fourPages : Fresh 0x4000 fourPages := ⟨by decide, by decide, rfl, by decide, rfl⟩

/-- The second block is below the first. -/
theorem malloc_sound_second : ∃ c r h,
    Run (Restrict Small CStep) ⟨fourPages, []⟩ [.malloc 100 []] c ∧
    malloc 50 { c.heap with fails := [] } = .ok (r, h) ∧ r ≠ 0 ∧ r + 50 ≤ h.sz ∧
    ∀ x ∈ c.live, r + 50 ≤ x.1 ∨ x.1 + x.2 ≤ r := by
  have hrun : (malloc 100 fourPages).toOption.bind (fun x =>
      (malloc 50 { x.2 with fails := [] }).toOption.map fun y => (x.1, y.1)) =
      some (81808, 81728) := by decide +kernel
  obtain ⟨⟨r1, h1⟩, hr1, hy⟩ := Option.bind_eq_some_iff.mp hrun
  obtain ⟨⟨r2, h2⟩, hr2, heq⟩ := Option.map_eq_some_iff.mp hy
  obtain ⟨rfl, rfl⟩ := Prod.mk.inj heq
  have hstep : CStep ⟨fourPages, []⟩ (.malloc 100 []) ⟨h1, [(81808, 100)]⟩ := by
    have hmalloc := CStep.malloc (c := ⟨fourPages, []⟩) (by decide) (ok_of_toOption hr1)
    rwa [if_neg (by decide)] at hmalloc
  have hruns : Run (Restrict Small CStep) ⟨fourPages, []⟩ ([] ++ [.malloc 100 []])
      ⟨h1, [(81808, 100)]⟩ := .snoc .start ⟨show 100 ≤ MAXREQUEST by decide, hstep⟩
  obtain ⟨⟨r, h, hr, hsound⟩, -⟩ := malloc_sound 50 [] fresh_fourPages rfl hruns
    (by decide)
  obtain ⟨rfl, rfl⟩ := Prod.mk.inj (Except.ok.inj (hr.symm.trans (ok_of_toOption hr2)))
  obtain ⟨hin, hlive, -⟩ := hsound (by decide)
  exact ⟨_, _, _, hruns, hr, by decide, hin.2, hlive⟩

/-- **A large request.** For `malloc(0xFFFFFFF8)` the size of the block in bytes is
`2 ^ 32 + 16`, of which `sbrk` sees 16: the block that `malloc` returns ends 4 GiB
above the break. -/
theorem malloc_overruns : ∃ r h, Fresh 0x4000 fourPages ∧
    malloc 0xFFFFFFF8 fourPages = .ok (r, h) ∧ r ≠ 0 ∧ h.sz = 0x4010 ∧ h.sz < r + 0xFFFFFFF8 := by
  have hrun : (malloc 0xFFFFFFF8 fourPages).toOption.map (fun x => (x.1, x.2.sz)) =
      some (0x4010, 0x4010) := by decide +kernel
  obtain ⟨⟨r, h⟩, hr, heq⟩ := Option.map_eq_some_iff.mp hrun
  obtain ⟨rfl, hsz⟩ := Prod.mk.inj heq
  exact ⟨_, h, fresh_fourPages, ok_of_toOption hr, by decide, hsz, by rw [hsz]; decide⟩

end Client

end Xv6.User
