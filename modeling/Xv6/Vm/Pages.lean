import Mathlib.Algebra.Order.Group.Multiset
import Mathlib.Data.Multiset.Range
import Xv6.Lib.LinkedList
import Xv6.Vm.Model

/-!
# xv6 — who owns which physical page

`Owns kend total m A`: the free list of `m` ends, and its pages together with
the owned pages `A` are the pages between `end` and `PHYSTOP`, each counted
once. Code that allocates moves a page from the free list to `A`, code that
frees moves one back; a store is harmless exactly if it stays inside a page of
`A`, because the links of the free list live in the free pages themselves.

Code works with some of the owned pages and leaves the others alone. A `Frame`
names those it leaves alone and what they held; `Holds F m A` says that the code
owns `A`, and that the pages of the frame `F` still hold what they held. The
rules of this and the next modules are about `Holds`, so that each of them also
says which memory a function does not touch.

* `wp_kalloc`, `wp_kfree`  — the two moves.
* `Holds.write`            — stores to an owned page.
* `Holds.protect`          — owned pages become part of the frame for a while.
* `wp_countFreeMem`        — the free list is counted, and what it misses is owned.
* `wp_kinit`               — after `kinit` every page is free.
-/

namespace Xv6.Vm

open ByteBuffer LinkedList Prog Multiset

variable {q : Nat} {v : UInt8} {b : Buffer}

-- The constants as numerals, for arithmetic.
theorem PGSIZE_eq : PGSIZE = 4096 := rfl
theorem KERNBASE_eq : KERNBASE = 2147483648 := rfl
theorem PHYSTOP_eq : PHYSTOP = 2281701376 := rfl

/-- The `k` pages from `p` on. -/
def range (k p : Nat) : Multiset Nat := (Multiset.range k).map fun i => p + i * PGSIZE

/-- The pages between `end` and `PHYSTOP`. -/
def pages (kend : Nat) : Multiset Nat :=
  range ((PHYSTOP - pgRoundUp kend) / PGSIZE) (pgRoundUp kend)

theorem mem_pages {kend p : Nat} : p ∈ pages kend ↔ p % PGSIZE = 0 ∧ kend ≤ p ∧ p < PHYSTOP := by
  simp only [pages, range, mem_map, mem_range, pgRoundUp, PHYSTOP_eq, PGSIZE_eq]
  constructor
  · rintro ⟨i, hi, rfl⟩
    omega
  · rintro ⟨halign, hlo, hhi⟩
    exact ⟨(p - (kend + 4096 - 1) / 4096 * 4096) / 4096, by omega, by omega⟩

theorem nodup_pages (kend : Nat) : (pages kend).Nodup := by
  refine (nodup_range _).map fun i j hij => ?_
  rw [PGSIZE_eq] at hij
  omega

/-- `PHYSTOP` is 128 MiB above `KERNBASE`. -/
theorem card_pages_le {kend : Nat} (h : KERNBASE ≤ kend) : (pages kend).card ≤ 32768 := by
  rw [KERNBASE_eq] at h
  simp only [pages, range, card_map, card_range, pgRoundUp, PHYSTOP_eq, PGSIZE_eq]
  omega

variable {kend total pa : Nat} {m m' : Mem} {A B : Multiset Nat} {E : Panic → Prop}

/-- **Ownership.** The free list ends, and with the owned pages `A` it makes up
all pages. -/
structure Owns (kend total : Nat) (m : Mem) (A : Multiset Nat) : Prop where
  kend_eq : m.kend = kend
  total_eq : m.total = total
  base : KERNBASE ≤ kend
  free : ∃ L : List Nat, Chain 0 m.next m.freelist L ∧ (L : Multiset Nat) + A = pages kend

namespace Owns

/-- An owned page is a page, and not a free one. -/
theorem mem (h : Owns kend total m A) (hpa : pa ∈ A) : pa ∈ pages kend := by
  obtain ⟨L, -, hL⟩ := h.free
  rw [← hL]
  exact mem_add.mpr (.inr hpa)

/-- Nothing is owned twice. -/
theorem nodup (h : Owns kend total m A) : A.Nodup := by
  obtain ⟨L, -, hL⟩ := h.free
  have hnodup : ((L : Multiset Nat) + A).Nodup := hL ▸ nodup_pages kend
  exact (nodup_add.mp hnodup).2.1

/-- What two owners hold is different. -/
theorem ne_of_mem (h : Owns kend total m (A + B)) (hpa : pa ∈ A) (hq : q ∈ B) : q ≠ pa :=
  fun heq => disjoint_left.mp (nodup_add.mp h.nodup).2.2 hpa (heq ▸ hq)

/-- Memory that differs in what the allocator does not look at. -/
theorem of_eq (h : Owns kend total m A) (hkend : m'.kend = m.kend)
    (htotal : m'.total = m.total) (hbyte : m'.byte = m.byte) (hfree : m'.freelist = m.freelist) :
    Owns kend total m' A := by
  refine ⟨hkend.trans h.kend_eq, htotal.trans h.total_eq, h.base, ?_⟩
  have hnext : m'.next = m.next := by
    funext a
    rw [Mem.next, Mem.next, hbyte]
  rw [hnext, hfree]
  exact h.free

end Owns

/-- The page holds in `m'` what it holds in `m`. -/
def SamePage (m m' : Mem) (pa : Nat) : Prop :=
  ∀ o, o < PGSIZE → m'.byte (pa + o) = m.byte (pa + o)

theorem SamePage.refl (m : Mem) (pa : Nat) : SamePage m m pa := fun _ _ => rfl

theorem SamePage.trans {m1 m2 m3 : Mem} (h : SamePage m1 m2 pa) (h' : SamePage m2 m3 pa) :
    SamePage m1 m3 pa :=
  fun o ho => (h' o ho).trans (h o ho)

/-- Every byte of the page is `v`. -/
def Filled (m : Mem) (pa : Nat) (v : UInt8) : Prop := ∀ o, o < PGSIZE → m.byte (pa + o) = v

theorem Filled.same (h : Filled m pa v) (hs : SamePage m m' pa) : Filled m' pa v :=
  fun o ho => (hs o ho).trans (h o ho)

/-- Changes inside one page leave the others alone. -/
theorem samePage_of_ne (hq : q ∈ pages kend) (hpa : pa ∈ pages kend) (hne : q ≠ pa)
    (hb : ∀ k, ¬ (pa ≤ k ∧ k < pa + PGSIZE) → m'.byte k = m.byte k) : SamePage m m' q := by
  have hq := (mem_pages.mp hq).1
  have hpa := (mem_pages.mp hpa).1
  refine fun o ho => hb _ ?_
  rw [PGSIZE_eq] at hq hpa ho ⊢
  omega

/-- The link of a free page is part of it. -/
theorem SamePage.next (h : SamePage m m' q) : m'.next q = m.next q := by
  refine leField_congr fun i hi hi' => ?_
  obtain ⟨o, rfl⟩ := Nat.exists_eq_add_of_le hi
  exact h o (by rw [PGSIZE_eq]; omega)

/-- **Stores to an owned page** leave the free list as it was. -/
theorem Owns.write (h : Owns kend total m A) (hpa : pa ∈ A)
    (hb : ∀ k, ¬ (pa ≤ k ∧ k < pa + PGSIZE) → b k = m.byte k) :
    Owns kend total { m with byte := b } A := by
  obtain ⟨L, hchain, hL⟩ := h.free
  refine ⟨h.kend_eq, h.total_eq, h.base, L, hchain.congr fun q hq => ?_, hL⟩
  have hnodup : ((L : Multiset Nat) + A).Nodup := hL ▸ nodup_pages kend
  have hne : q ≠ pa := fun hqpa =>
    disjoint_left.mp (nodup_add.mp hnodup).2.2 (mem_coe.mpr hq)
      (hqpa ▸ hpa)
  have hqp : q ∈ pages kend := by
    rw [← hL]
    exact mem_add.mpr (.inl (mem_coe.mpr hq))
  exact (samePage_of_ne hqp (h.mem hpa) hne hb).next

/-! ### Pages that are left alone -/

/-- What code leaves alone: the bounds of memory, and the pages `kept`, which hold
what they hold in `mem`. -/
structure Frame where
  kend : Nat
  total : Nat
  mem : Mem
  kept : Multiset Nat

/-- **Ownership within a frame.** The code owns `A` besides the pages of the frame,
and these hold what they held. -/
structure Holds (F : Frame) (m : Mem) (A : Multiset Nat) : Prop where
  own : Owns F.kend F.total m (A + F.kept)
  same : ∀ pa ∈ F.kept, SamePage F.mem m pa

/-- The pages `A` are left alone too, from `m` on. -/
def Frame.protect (F : Frame) (m : Mem) (A : Multiset Nat) : Frame :=
  { F with mem := m, kept := A + F.kept }

variable {F : Frame}

/-- The pages `B` are left alone from now on. -/
theorem Owns.holds (h : Owns kend total m (A + B)) : Holds ⟨kend, total, m, B⟩ m A :=
  ⟨h, fun pa _ => .refl m pa⟩

/-- The frame of code that may touch everything it owns. -/
theorem Owns.free_frame (h : Owns kend total m A) : Holds ⟨kend, total, m, 0⟩ m A :=
  Owns.holds (by rwa [add_zero])

theorem Holds.all (h : Holds ⟨kend, total, m', 0⟩ m A) : Owns kend total m A := by
  have hown := h.own
  rwa [add_zero] at hown

namespace Holds

theorem mem (h : Holds F m A) (hpa : pa ∈ A) : pa ∈ pages F.kend :=
  h.own.mem (mem_add.mpr (.inl hpa))

theorem ne_zero (h : Holds F m A) (hpa : pa ∈ A) : pa ≠ 0 := by
  have hlo := (mem_pages.mp (h.mem hpa)).2.1
  have hbase := h.own.base
  rw [KERNBASE_eq] at hbase
  omega

/-- There are not more owned pages than pages. -/
theorem card_le (h : Holds F m A) : A.card ≤ 32768 := by
  obtain ⟨L, -, hL⟩ := h.own.free
  have hcard : A.card ≤ (pages F.kend).card := by
    rw [← hL, card_add, card_add]
    omega
  exact hcard.trans (card_pages_le h.own.base)

/-- Memory that differs in what the allocator does not look at. -/
theorem of_eq (h : Holds F m A) (hkend : m'.kend = m.kend) (htotal : m'.total = m.total)
    (hbyte : m'.byte = m.byte) (hfree : m'.freelist = m.freelist) : Holds F m' A := by
  refine ⟨h.own.of_eq hkend htotal hbyte hfree, fun pa hpa o ho => ?_⟩
  rw [hbyte]
  exact h.same pa hpa o ho

/-- **Stores to an owned page** leave the free list and the frame as they were. -/
theorem write (h : Holds F m A) (hpa : pa ∈ A)
    (hb : ∀ k, ¬ (pa ≤ k ∧ k < pa + PGSIZE) → b k = m.byte k) : Holds F { m with byte := b } A := by
  refine ⟨h.own.write (mem_add.mpr (.inl hpa)) hb, fun q hq => (h.same q hq).trans ?_⟩
  have hqp := h.own.mem (mem_add.mpr (.inr hq))
  exact samePage_of_ne hqp (h.mem hpa) (h.own.ne_of_mem hpa hq) hb

/-- Owned pages are left alone for a while, … -/
theorem protect (h : Holds F m (A + B)) : Holds (F.protect m B) m A :=
  ⟨by rw [Frame.protect, ← add_assoc]; exact h.own, fun pa _ => .refl m pa⟩

/-- … and come back as they were. -/
theorem release {A' C : Multiset Nat} (h : Holds F m C) (h' : Holds (F.protect m B) m' A') :
    Holds F m' (A' + B) ∧ ∀ pa ∈ B, SamePage m m' pa := by
  have hin : ∀ {pa}, pa ∈ B ∨ pa ∈ F.kept → SamePage m m' pa :=
    fun hpa => h'.same _ (mem_add.mpr hpa)
  refine ⟨⟨?_, fun pa hpa => (h.same pa hpa).trans (hin (.inr hpa))⟩, fun pa hpa => hin (.inl hpa)⟩
  have hown := h'.own
  rwa [Frame.protect, ← add_assoc] at hown

end Holds

/-! ### kalloc and kfree -/

/-- Owned pages other than the one written. -/
theorem Holds.same_of_ne (h : Holds F m A) (hpa : pa ∈ A) (hq : q ∈ A) (hne : q ≠ pa)
    (hb : ∀ k, ¬ (pa ≤ k ∧ k < pa + PGSIZE) → m'.byte k = m.byte k) : SamePage m m' q :=
  samePage_of_ne (h.mem hq) (h.mem hpa) hne hb

theorem wp_memset (h : Holds F m A) (hpa : pa ∈ A) :
    wp (memset pa v) (fun _ m' => Holds F m' A ∧ Filled m' pa v ∧
      ∀ q ∈ A, q ≠ pa → SamePage m m' q) E m := by
  have hout : ∀ k, ¬ (pa ≤ k ∧ k < pa + PGSIZE) → fill m.byte pa PGSIZE v k = m.byte k :=
    fun _ hk => fill_of_outside hk
  refine wp_modify.mpr ⟨h.write hpa hout, fun o ho => ?_, fun q hq hne => ?_⟩
  · exact if_pos ⟨Nat.le_add_right .., Nat.add_lt_add_left ho pa⟩
  · exact h.same_of_ne hpa hq hne hout

/-- A call of `kalloc` uses up one answer, if one is left. -/
theorem wp_kallocFails (m : Mem) : wp kallocFails (fun b m' =>
    m' = { m with fails := m.fails.drop 1 } ∧ (b = true → true ∈ m.fails.take 1)) E m := by
  obtain ⟨kend, trampoline, freelist, byte, total, fails⟩ := m
  rw [kallocFails, wp_bind, wp_gets]
  cases fails with
  | nil => exact wp_pure.mpr ⟨rfl, by rintro ⟨⟩⟩
  | cons b bs =>
    rw [wp_bind, wp_modify]
    exact wp_pure.mpr ⟨rfl, fun hb => hb ▸ List.mem_cons_self⟩

/-- `kalloc` is refused, or the free list is empty, or it takes and fills the first page. -/
theorem wp_kalloc_run (m : Mem) : wp kalloc (fun r m' =>
    r = 0 ∧ m' = { m with fails := m.fails.drop 1 } ∧
      (true ∈ m.fails.take 1 ∨ m.freelist = 0) ∨
    m.freelist ≠ 0 ∧ r = m.freelist ∧ m' = { m with
      fails := m.fails.drop 1
      freelist := m.next r
      byte := fill m.byte r PGSIZE 5 }) E m := by
  refine wp_then (wp_kallocFails m) ?_
  rintro b m1 ⟨rfl, hb⟩
  rw [wp_ite]
  refine ⟨fun h => wp_pure.mpr (.inl ⟨rfl, rfl, .inl (hb h)⟩), fun _ => ?_⟩
  rw [wp_bind, wp_gets, wp_ite]
  refine ⟨fun hr => wp_pure.mpr (.inl ⟨rfl, rfl, .inr hr⟩), fun hr => ?_⟩
  rw [wp_bind, wp_modify, wp_bind, memset, wp_modify]
  exact wp_pure.mpr (.inr ⟨hr, rfl, rfl⟩)

/-- `kalloc` fails, or moves a page from the free list to the owned ones. -/
theorem wp_kalloc (h : Holds F m A) :
    wp kalloc (fun r m' => (r = 0 ∧ Holds F m' A ∨ r ≠ 0 ∧ Holds F m' (r ::ₘ A)) ∧
      ∀ q ∈ A, SamePage m m' q) E m := by
  refine wp_imp (wp_kalloc_run m) ?_
  rintro r m' (⟨rfl, rfl, -⟩ | ⟨hr, rfl, rfl⟩)
  · exact ⟨.inl ⟨rfl, h.of_eq rfl rfl rfl rfl⟩, fun q _ => .refl m q⟩
  obtain ⟨L, hchain, hL⟩ := h.own.free
  obtain ⟨L', rfl, hrest⟩ := hchain.eq_cons hr
  -- the page is owned from here on, so that it may be filled
  have h1 : Holds F { m with fails := m.fails.drop 1, freelist := m.next m.freelist }
      (m.freelist ::ₘ A) := by
    refine ⟨⟨h.own.kend_eq, h.own.total_eq, h.own.base, L', hrest, ?_⟩, h.same⟩
    rw [← hL, ← cons_coe, cons_add, cons_add, add_cons]
  have hnotMem : m.freelist ∉ A :=
    (nodup_cons.mp (nodup_add.mp h1.own.nodup).1).1
  have hmem : m.freelist ∈ m.freelist ::ₘ A := mem_cons_self ..
  refine ⟨.inr ⟨hr, h1.write hmem fun _ hk => fill_of_outside hk⟩, fun q hq => ?_⟩
  exact h1.same_of_ne hmem (mem_cons_of_mem hq) (fun heq => hnotMem (heq ▸ hq))
    fun _ hk => fill_of_outside hk

/-- `kfree` moves a page back. -/
theorem wp_kfree (h : Holds F m (pa ::ₘ A)) :
    wp (kfree pa) (fun _ m' => Holds F m' A ∧ ∀ q ∈ A, SamePage m m' q) E m := by
  have hpa := mem_cons_self pa A
  obtain ⟨halign, hlo, hhi⟩ := mem_pages.mp (h.mem hpa)
  simp only [kfree, wp_bind, wp_gets, wp_ite, h.own.kend_eq]
  refine ⟨fun hbad => by omega, fun _ => wp_modify.mpr ?_⟩
  -- the page is still owned while it is filled and the link is stored
  have hout : ∀ k, ¬ (pa ≤ k ∧ k < pa + PGSIZE) →
      store (fill m.byte pa PGSIZE 1) pa (leBytes 8 m.freelist) k = m.byte k := by
    intro k hk
    rw [store_of_outside, fill_of_outside hk]
    rw [length_leBytes]
    rw [PGSIZE_eq] at hk
    omega
  have h1 := h.write hpa hout
  obtain ⟨L, hchain, hL⟩ := h1.own.free
  have hbound : m.freelist < 256 ^ 8 := by
    by_cases hzero : m.freelist = 0
    · omega
    · obtain ⟨L', rfl, -⟩ := hchain.eq_cons hzero
      have hmem : m.freelist ∈ pages F.kend := by
        rw [← hL]
        exact mem_add.mpr (.inl List.mem_cons_self)
      have hlt := (mem_pages.mp hmem).2.2
      rw [PHYSTOP_eq] at hlt
      omega
  have hnext : (m.free pa).next pa = m.freelist :=
    (leField_store_leBytes _ _ _ _).trans (Nat.mod_eq_of_lt hbound)
  refine ⟨⟨⟨h.own.kend_eq, h.own.total_eq, h.own.base, pa :: L, .cons (h.ne_zero hpa) ?_, ?_⟩,
    h1.same⟩, fun q hq => ?_⟩
  · change Chain 0 (m.free pa).next ((m.free pa).next pa) L
    rw [hnext]
    exact hchain
  · rw [← hL, ← cons_coe, cons_add, cons_add, add_cons]
  · have hnotMem := (nodup_cons.mp (nodup_add.mp h.own.nodup).1).1
    exact h.same_of_ne hpa (mem_cons_of_mem hq) (fun heq => hnotMem (heq ▸ hq)) hout

/-! ### Running out of pages -/

/-- The length of the free list. -/
def Mem.freePages (m : Mem) : Nat := (countList m.next (PHYSTOP / PGSIZE) m.freelist).getD 0

/-- One of the next `n` calls of `kalloc` returns 0: the environment refuses one of them, or
fewer than `n` pages are free. -/
def Mem.Short (m : Mem) (n : Nat) : Prop := true ∈ m.fails.take n ∨ m.freePages < n

instance (m : Mem) (n : Nat) : Decidable (m.Short n) := inferInstanceAs (Decidable (_ ∨ _))

theorem Mem.Short.mono {n k : Nat} (h : m.Short n) (hle : n ≤ k) : m.Short k :=
  h.imp (fun h => (List.take_sublist_take_left hle).subset h) fun h => h.trans_le hle

/-- A list that ends is counted, given enough turns. -/
theorem countList_chain {next : Nat → Nat} {a fuel : Nat} {L : List Nat}
    (h : Chain 0 next a L) (hfuel : L.length ≤ fuel) : countList next fuel a = some L.length := by
  induction h generalizing fuel with
  | nil => cases fuel <;> rfl
  | @cons a L ha _ ih =>
    obtain ⟨a, rfl⟩ := Nat.exists_eq_succ_of_ne_zero ha
    rw [List.length_cons] at hfuel
    obtain ⟨fuel, rfl⟩ := Nat.exists_eq_add_of_le' (Nat.le_of_add_left_le hfuel)
    rw [countList, ih (by omega)]
    rfl

/-- The free list is counted, and every page that is not owned is on it. -/
theorem Owns.countList_eq (h : Owns kend total m A) :
    countList m.next (PHYSTOP / PGSIZE) m.freelist = some m.freePages ∧
      m.freePages + A.card = (pages kend).card := by
  obtain ⟨L, hchain, hL⟩ := h.free
  have hcard : L.length + A.card = (pages kend).card := by
    rw [← hL, card_add, coe_card]
  have hfuel : L.length ≤ PHYSTOP / PGSIZE := by
    have := card_pages_le h.base
    rw [PHYSTOP_eq, PGSIZE_eq]
    omega
  rw [Mem.freePages, countList_chain hchain hfuel]
  exact ⟨rfl, hcard⟩

/-- Once `c` answers are used up and at most `c` pages taken, memory that is short now was
short before. -/
theorem Owns.short_add {total' c n : Nat} {A' : Multiset Nat} (h : Owns kend total m A)
    (h' : Owns kend total' m' A') (hcard : A'.card ≤ A.card + c)
    (hfails : m'.fails = m.fails.drop c) (hshort : m'.Short n) : m.Short (n + c) := by
  have hfree := h.countList_eq.2
  have hfree' := h'.countList_eq.2
  refine hshort.imp (fun hmem => ?_) fun hlt => by omega
  rw [hfails, List.take_drop, Nat.add_comm] at hmem
  exact List.mem_of_mem_drop hmem

theorem Owns.short_of_eq {n : Nat} (h : Owns kend total m A) (h' : Owns kend total m' A)
    (hfails : m'.fails = m.fails) (hshort : m'.Short n) : m.Short n :=
  h.short_add (c := 0) h' le_rfl hfails hshort

/-- **`kalloc` returns 0 only if memory is short**; otherwise one page less is free. -/
theorem wp_kalloc_short (h : Owns kend total m A) : wp kalloc (fun r m' =>
    if r = 0 then m.Short 1 else ∀ n, m'.Short n → m.Short (n + 1)) E m := by
  refine wp_imp (wp_and (wp_kalloc h.free_frame) (wp_kalloc_run (E := E) m)) ?_
  rintro r m' ⟨⟨hr, -⟩, ⟨rfl, -, hzero⟩ | ⟨hr0, rfl, rfl⟩⟩
  · refine hzero.imp_right fun hlist => ?_
    rw [Mem.freePages, hlist]
    exact Nat.one_pos
  · obtain ⟨-, h'⟩ := hr.resolve_left fun h => hr0 h.1
    rw [if_neg hr0]
    exact fun n => h.short_add h'.all (card_cons ..).le rfl

/-! ### The kernel's own memory -/

/-- From `m0` on, at most `c` pages were taken: memory that is short now was short then. The
free list is one of pages above `end`, and the memory below, which is the kernel's own, holds
what it held. -/
structure KernelKept (kend c : Nat) (m0 m : Mem) : Prop where
  list : ∃ total A, Owns kend total m A
  low : ∀ x, x < kend → m.byte x = m0.byte x
  spent : ∀ n, m.Short n → m0.Short (n + c)

variable {m0 : Mem} {c : Nat}

theorem Owns.kept (h : Owns kend total m A) : KernelKept kend 0 m m :=
  ⟨⟨total, A, h⟩, fun _ _ => rfl, fun _ h => h⟩

/-- Changes inside a page above `end`. -/
theorem low_of_outside {b' : Buffer} (hpa : pa ∈ pages kend)
    (hb : ∀ k, ¬ (pa ≤ k ∧ k < pa + PGSIZE) → b' k = b k) {x : Nat} (hx : x < kend) :
    b' x = b x := by
  have hlo := (mem_pages.mp hpa).2.1
  exact hb x (by omega)

theorem KernelKept.write (h : KernelKept kend c m0 m) (hown : Owns kend total m A) (hpa : pa ∈ A)
    (hb : ∀ k, ¬ (pa ≤ k ∧ k < pa + PGSIZE) → b k = m.byte k) :
    KernelKept kend c m0 { m with byte := b } :=
  ⟨⟨total, A, hown.write hpa hb⟩,
    fun x hx => (low_of_outside (hown.mem hpa) hb hx).trans (h.low x hx),
    fun n hn => h.spent n (hown.short_of_eq (hown.write hpa hb) rfl hn)⟩

/-- With more pages allowed for. -/
theorem KernelKept.mono {c' : Nat} (h : KernelKept kend c m0 m) (hle : c ≤ c') :
    KernelKept kend c' m0 m :=
  ⟨h.list, h.low, fun n hn => (h.spent n hn).mono (by omega)⟩

theorem wp_kalloc_low (h : Owns kend total m A) :
    wp kalloc (fun _ m' => ∀ x, x < kend → m'.byte x = m.byte x) E m := by
  refine wp_imp (wp_kalloc_run m) ?_
  rintro r m' (⟨-, rfl, -⟩ | ⟨hr, rfl, rfl⟩) x hx
  · rfl
  · obtain ⟨L, hchain, hL⟩ := h.free
    obtain ⟨L', rfl, -⟩ := hchain.eq_cons hr
    have hpage : m.freelist ∈ pages kend := by
      rw [← hL]
      exact mem_add.mpr (.inl List.mem_cons_self)
    exact low_of_outside hpage (fun _ hk => fill_of_outside hk) hx

/-- `kalloc` writes to the page it takes only. -/
theorem wp_kalloc_kept (h : KernelKept kend c m0 m) : wp kalloc (fun r m' =>
    KernelKept kend (c + 1) m0 m' ∧ (r = 0 → m0.Short (c + 1)) ∧
      (r ≠ 0 → ∃ total A, Owns kend total m' (r ::ₘ A))) E m := by
  obtain ⟨total, A, hown⟩ := h.list
  refine wp_imp (wp_and (wp_and (wp_kalloc hown.free_frame) (wp_kalloc_low (E := E) hown))
    (wp_kalloc_short (E := E) hown)) ?_
  rintro r m' ⟨⟨⟨hr, -⟩, hlow⟩, hshort⟩
  have hkept : ∀ x, x < kend → m'.byte x = m0.byte x :=
    fun x hx => (hlow x hx).trans (h.low x hx)
  rcases hr with ⟨rfl, h'⟩ | ⟨hr, h'⟩
  · have hshort0 : m0.Short (c + 1) := (h.spent 1 hshort).mono (by omega)
    exact ⟨⟨⟨total, A, h'.all⟩, hkept, fun n _ => hshort0.mono (by omega)⟩, fun _ => hshort0,
      fun h0 => absurd rfl h0⟩
  · rw [if_neg hr] at hshort
    exact ⟨⟨⟨total, _, h'.all⟩, hkept, fun n hn => (h.spent _ (hshort n hn)).mono (by omega)⟩,
      fun h0 => absurd h0 hr, fun _ => ⟨total, A, h'.all⟩⟩

theorem wp_memset_kept (h : KernelKept kend c m0 m) (hown : Owns kend total m A) (hpa : pa ∈ A) :
    wp (memset pa v) (fun _ m' => KernelKept kend c m0 m') E m :=
  wp_modify.mpr (h.write hown hpa fun _ hk => fill_of_outside hk)

/-- `kfree` tests the address. -/
theorem wp_kfree_low (hkend : m.kend = kend) :
    wp (kfree pa) (fun _ m' => ∀ x, x < kend → m'.byte x = m.byte x) (fun _ => True) m := by
  rw [kfree, wp_bind, wp_gets, wp_ite]
  refine ⟨fun _ => wp_stop.mpr trivial, fun hok => wp_modify.mpr fun x hx => ?_⟩
  push Not at hok
  change store (fill m.byte pa PGSIZE 1) pa (leBytes 8 m.freelist) x = m.byte x
  rw [store_of_outside, fill_of_outside]
  · omega
  · omega

/-! ### Counting -/

/-- `count_free_mem` ends, and counts the pages that are not owned. -/
theorem wp_countFreeMem (h : Owns kend total m A) : wp countFreeMem
      (fun n m' => m' = m ∧ n + PGSIZE * A.card = PGSIZE * (pages kend).card) E m := by
  obtain ⟨hcount, hcard⟩ := h.countList_eq
  simp only [countFreeMem, wp_bind, wp_gets, id, hcount, wp_pure]
  refine ⟨trivial, ?_⟩
  rw [PGSIZE_eq]
  omega

/-! ### Boot -/

theorem range_succ (k p : Nat) : range (k + 1) p = p ::ₘ range k (p + PGSIZE) := by
  have hstep : (fun i => p + i * PGSIZE) ∘ Nat.succ = fun i => p + PGSIZE + i * PGSIZE := by
    funext i
    rw [Function.comp, Nat.succ_mul]
    omega
  simp only [range, Multiset.range, List.range_succ_eq_map, map_coe, List.map_cons,
    List.map_map, hstep, Nat.zero_mul, Nat.add_zero, cons_coe]

theorem wp_freerange (k p : Nat) (h : Holds F m (range k p + A)) :
    wp (freerange k p) (fun _ m' => Holds F m' A) E m := by
  induction k generalizing m p with
  | zero => exact wp_pure.mpr (by simpa [range] using h)
  | succ k ih =>
    rw [range_succ, cons_add] at h
    simp only [freerange, wp_bind]
    exact wp_imp (wp_kfree h) fun _ _ h1 => ih _ h1.1

/-- **`kinit`** frees every page and remembers how many bytes these are. -/
theorem wp_kinit (hbase : KERNBASE ≤ m.kend) (hfree : m.freelist = 0) :
    wp kinit (fun _ m' => Owns m.kend (PGSIZE * (pages m.kend).card) m' 0) E m := by
  -- before the loop every page is owned: by the kernel that has not freed it yet
  have h : Owns m.kend m.total m (pages m.kend + 0) := by
    refine ⟨rfl, rfl, hbase, [], ?_, ?_⟩
    · rw [hfree]
      exact .nil
    · simp
  simp only [kinit, wp_bind, wp_gets]
  refine wp_imp (wp_freerange _ _ h.free_frame) fun _ m1 h1 => ?_
  have h1 := h1.all
  refine wp_imp (wp_countFreeMem h1) ?_
  rintro n m2 ⟨rfl, hn⟩
  refine wp_modify.mpr ⟨h1.kend_eq, ?_, h1.base, h1.free⟩
  simpa using hn

end Xv6.Vm
