import Xv6.Vm.PageTable

/-!
# xv6 — page tables as they lie in memory (`kernel/vm.c`, `kernel/riscv.h`)

A page table is a page of 512 words; a valid word of an inner level holds the number of
the page of the table below, one of the last level maps a page. Here `walk`, `mappages`
and `uvmunmap` read and write these words in physical memory, where nothing says that
the tables of a tree are different pages: that is part of what is shown to be kept.

* `tables`     — the pages of the tables that a page table reaches.
* `slot`       — the address of the word for a virtual address, as `walk` finds it.
* `entry`      — the valid word there.
* `WellFormed` — the tables are different pages, owned by nobody else, and inner words
  have no flag besides `PTE_V`.
* `page_table_map` — a well-formed page table is a finite map from page numbers to words,
  and `mappages` and `uvmunmap` change it at the pages they are given.
* `tree_refines` — the trees that stand for page tables in the model of the kernel.
-/

namespace Xv6.Vm.Raw

open ByteBuffer Prog Multiset

variable {p pa perm q : Nat} {i : Fin 512} {doFree : Bool}

/-! ### riscv.h -/

/-- `PTE_V`. -/
def PTE_V : Nat := 1

/-- `PA2PTE`. -/
def pa2pte (pa : Nat) : Nat := pa >>> 12 <<< 10

/-- `PTE2PA`. -/
def pte2pa (w : Nat) : Nat := (w >>> 10 <<< 12) % 2 ^ 64

/-- `PTE_FLAGS`. -/
def pteFlags (w : Nat) : Nat := w &&& 0x3FF

/-- The word has the flag `PTE_V`. -/
def Valid (w : Nat) : Prop := w &&& PTE_V ≠ 0

instance (w : Nat) : Decidable (Valid w) := inferInstanceAs (Decidable (_ ≠ _))

/-! ### vm.c -/

/-- The 64-bit word at an address. -/
def word (m : Mem) (a : Nat) : Nat := leField m.byte a 8

/-- Store a word. -/
def setWord (a w : Nat) : MemM Unit :=
  .modify fun m => { m with byte := store m.byte a (leBytes 8 w) }

/-- `&pagetable[PX(level, va)]`. -/
def pteAddr (t level va : Nat) : Nat := t + 8 * (px level va).val

/-- The loop of `walk`, from the table `t` of the given level down. -/
def walkDown (alloc : Bool) : Nat → Nat → Nat → MemM Nat
  | 0, t, va => pure (pteAddr t 0 va)
  | level + 1, t, va => do
    let w ← .gets fun m => word m (pteAddr t (level + 1) va)
    if Valid w then walkDown alloc level (pte2pa w) va
    else if alloc = false then pure 0
    else do
      let page ← kalloc
      if page = 0 then pure 0
      else do
        memset page 0
        setWord (pteAddr t (level + 1) va) (pa2pte page ||| PTE_V)
        walkDown alloc level page va

/-- `walk`: the address of the word for `va`, or 0. -/
def walk (pt va : Nat) (alloc : Bool) : MemM Nat :=
  if MAXVA ≤ va then .stop .walk else walkDown alloc 2 pt va

/-- The loop of `mappages`. Addresses are 64-bit numbers; each turn moves on by a page, so
there are as many turns as pages. -/
def mapLoop (pt last perm : Nat) : Nat → Nat → Nat → MemM Bool
  | 0, _, _ => .stop .hang
  | fuel + 1, a, pa => do
    let pte ← walk pt a true
    if pte = 0 then pure false
    else do
      let w ← .gets fun m => word m pte
      if Valid w then .stop .mappagesRemap
      else do
        setWord pte (pa2pte pa ||| perm ||| PTE_V)
        if a = last then pure true
        else mapLoop pt last perm fuel ((a + PGSIZE) % 2 ^ 64) ((pa + PGSIZE) % 2 ^ 64)

/-- `mappages`: whether it succeeded. -/
def mappages (pt va size pa perm : Nat) : MemM Bool :=
  if va % PGSIZE ≠ 0 then .stop .mappagesVa
  else if size % PGSIZE ≠ 0 then .stop .mappagesSize
  else if size = 0 then .stop .mappagesZero
  else mapLoop pt ((va + size - PGSIZE) % 2 ^ 64) perm (size / PGSIZE) va pa

/-- The loop of `uvmunmap`, up to the address `stop`. -/
def unmapLoop (pt stop : Nat) (doFree : Bool) : Nat → Nat → MemM Unit
  | 0, _ => pure ()
  | fuel + 1, a =>
    if a < stop then do
      let pte ← walk pt a false
      if pte = 0 then unmapLoop pt stop doFree fuel ((a + PGSIZE) % 2 ^ 64)
      else do
        let w ← .gets fun m => word m pte
        if ¬ Valid w then unmapLoop pt stop doFree fuel ((a + PGSIZE) % 2 ^ 64)
        else do
          Prog.when (doFree = true) (kfree (pte2pa w))
          setWord pte 0
          unmapLoop pt stop doFree fuel ((a + PGSIZE) % 2 ^ 64)
    else pure ()

/-- `uvmunmap`. -/
def uvmunmap (pt va npages : Nat) (doFree : Bool) : MemM Unit :=
  if va % PGSIZE ≠ 0 then .stop .uvmunmap
  else unmapLoop pt ((va + npages * PGSIZE) % 2 ^ 64) doFree npages va

variable {F : Frame} {m m' : Mem} {A : Multiset Nat} {E : Panic → Prop} {n t va a w : Nat}

/-! ### Words -/

theorem valid_iff : Valid w ↔ w % 2 = 1 := by
  rw [Valid, PTE_V, Nat.and_one_is_mod]
  omega

/-- **The fields of an entry** do not overlap. -/
theorem pte_fields (hpa : pa < 2 ^ 64) (hperm : perm < 2 ^ 10) :
    Valid (pa2pte pa ||| perm ||| PTE_V) ∧ pte2pa (pa2pte pa ||| perm ||| PTE_V) = pgRoundDown pa ∧
      pteFlags (pa2pte pa ||| perm ||| PTE_V) = perm ||| PTE_V ∧
      pa2pte pa ||| perm ||| PTE_V < 2 ^ 64 := by
  have hflags : perm ||| PTE_V < 2 ^ 10 := Nat.or_lt_two_pow hperm (by decide)
  have hsum : pa2pte pa ||| perm ||| PTE_V = 2 ^ 10 * (pa / 4096) + (perm ||| PTE_V) := by
    rw [Nat.or_assoc, pa2pte, Nat.shiftRight_eq_div_pow, Nat.shiftLeft_eq, Nat.mul_comm,
      Nat.two_pow_add_eq_or_of_lt hflags]
  have hodd : (perm ||| PTE_V) % 2 = 1 := by
    rw [PTE_V]
    rcases Nat.mod_two_eq_zero_or_one perm with h | h <;> simp [h]
  rw [valid_iff, pte2pa, pteFlags,
    show (0x3FF : Nat) = 2 ^ 10 - 1 from rfl, Nat.and_two_pow_sub_one_eq_mod, pgRoundDown,
    PGSIZE_eq]
  omega

/-- The entry for a new table. -/
theorem pte_table {kend page : Nat} (h : page ∈ pages kend) :
    Valid (pa2pte page ||| PTE_V) ∧ pte2pa (pa2pte page ||| PTE_V) = page ∧
      pteFlags (pa2pte page ||| PTE_V) = PTE_V ∧ pa2pte page ||| PTE_V < 2 ^ 64 := by
  obtain ⟨halign, -, hlt⟩ := mem_pages.mp h
  rw [PHYSTOP_eq] at hlt
  have hfields := @pte_fields page 0 (by omega) (by decide)
  rw [Nat.or_zero, pgRoundDown, Nat.div_mul_cancel (Nat.dvd_of_mod_eq_zero halign)]
    at hfields
  exact hfields

theorem word_of_same (h : SamePage m m' p) (i : Fin 512) :
    word m' (p + 8 * i.val) = word m (p + 8 * i.val) := by
  refine leField_congr fun k hlo hhi => ?_
  obtain ⟨o, rfl⟩ := Nat.exists_eq_add_of_le (Nat.le_trans (Nat.le_add_right ..) hlo)
  refine h o ?_
  rw [PGSIZE_eq]
  omega

theorem word_store_same (m : Mem) (a w : Nat) (hw : w < 2 ^ 64) :
    word { m with byte := store m.byte a (leBytes 8 w) } a = w :=
  (leField_store_leBytes ..).trans (Nat.mod_eq_of_lt hw)

theorem word_store_of_ne {b : Nat} (m : Mem) (w : Nat) (h : a + 8 ≤ b ∨ b + 8 ≤ a) :
    word { m with byte := store m.byte a (leBytes 8 w) } b = word m b := by
  refine leField_congr fun k hlo hhi => store_of_outside ?_
  rw [length_leBytes]
  omega

/-! ### The tables of a page table -/

/-- The pages of the tables that the table `t` of level `n` reaches. -/
def tables (m : Mem) : Nat → Nat → Multiset Nat
  | 0, t => {t}
  | n + 1, t => t ::ₘ ∑ i : Fin 512, if Valid (word m (t + 8 * i.val)) then
      tables m n (pte2pa (word m (t + 8 * i.val))) else 0

/-- The pages of the tables below word `i`. -/
def below (m : Mem) (n t : Nat) (i : Fin 512) : Multiset Nat :=
  if Valid (word m (t + 8 * i.val)) then tables m n (pte2pa (word m (t + 8 * i.val))) else 0

/-- The pages of the tables below words other than `i`. -/
def besides (m : Mem) (n t : Nat) (i : Fin 512) : Multiset Nat :=
  ∑ j ∈ Finset.univ.erase i, below m n t j

/-- The address of the word for `va`, if no table is missing on the way. -/
def slot (m : Mem) : Nat → Nat → Nat → Option Nat
  | 0, t, va => some (pteAddr t 0 va)
  | n + 1, t, va =>
    if Valid (word m (pteAddr t (n + 1) va)) then
      slot m n (pte2pa (word m (pteAddr t (n + 1) va))) va
    else none

/-- The word for `va`, if it is valid. -/
def entry (m : Mem) (n t va : Nat) : Option Nat :=
  (slot m n t va).bind fun a => if Valid (word m a) then some (word m a) else none

/-- Words that lead to tables have no flag besides `PTE_V`. -/
def Inner (m : Mem) : Nat → Nat → Prop
  | 0, _ => True
  | n + 1, t => ∀ i : Fin 512, Valid (word m (t + 8 * i.val)) →
      pteFlags (word m (t + 8 * i.val)) = PTE_V ∧ Inner m n (pte2pa (word m (t + 8 * i.val)))

/-- The word as it is found. -/
def validWord (w : Nat) : Option Nat := if Valid w then some w else none

/-- The mapping that a valid word of the last level stands for. -/
def decode (w : Nat) : Pte where
  pa := pte2pa w
  perm := ⟨pteFlags w &&& 4 ≠ 0, pteFlags w &&& 8 ≠ 0, pteFlags w &&& 16 ≠ 0⟩

/-- The tables that the table `t` of level `n` reaches, as a tree. -/
def tree (m : Mem) : (n : Nat) → Nat → PageTable n
  | 0, t => { page := t, entry := fun i => (validWord (word m (t + 8 * i.val))).map decode }
  | n + 1, t =>
    { page := t
      entry := fun i => (validWord (word m (t + 8 * i.val))).map fun w => tree m n (pte2pa w) }

theorem nodes_tree (m : Mem) (n t : Nat) : PageTable.nodes n (tree m n t) = tables m n t := by
  induction n generalizing t with
  | zero =>
    unfold PageTable.nodes tables
    rfl
  | succ n ih =>
    unfold PageTable.nodes tables
    refine congrArg (t ::ₘ ·) (Finset.sum_congr rfl fun i _ => ?_)
    simp only [tree, validWord]
    split
    · exact ih _
    · rfl

theorem slot_tree (m : Mem) (n t va : Nat) : PageTable.slot n (tree m n t) va =
    (slot m n t va).map fun a => (validWord (word m a)).map decode := by
  induction n generalizing t with
  | zero => rfl
  | succ n ih =>
    change ((validWord (word m (pteAddr t (n + 1) va))).map fun w => tree m n (pte2pa w)).bind
      (fun c => PageTable.slot n c va) = _
    rw [slot, validWord]
    by_cases hv : Valid (word m (pteAddr t (n + 1) va))
    · rw [if_pos hv, if_pos hv]
      exact ih _
    · rw [if_neg hv, if_neg hv]
      rfl

theorem tables_succ (m : Mem) (n t : Nat) (i : Fin 512) :
    tables m (n + 1) t = below m n t i + (t ::ₘ besides m n t i) := by
  rw [add_cons, besides, Finset.add_sum_erase _ _ (Finset.mem_univ i)]
  rfl

theorem tables_zero (m : Mem) (t : Nat) : tables m 0 t = {t} := rfl

/-- Tables below different words. -/
theorem below_le_besides {j : Fin 512} (h : j ≠ i) : below m n t j ≤ besides m n t i := by
  rw [besides, ← Finset.add_sum_erase _ _ (Finset.mem_erase.mpr ⟨h, Finset.mem_univ j⟩)]
  exact Multiset.le_add_right ..

theorem besides_congr (h : ∀ j, j ≠ i → below m' n t j = below m n t j) :
    besides m' n t i = besides m n t i :=
  Finset.sum_congr rfl fun j hj => h j (Finset.ne_of_mem_erase hj)

theorem besides_eq_zero (h : ∀ j, below m n t j = 0) : besides m n t i = 0 :=
  Finset.sum_eq_zero fun j _ => h j

-- Sums over 512 words are not to be unfolded.
attribute [irreducible] tables besides

theorem below_valid (h : Valid (word m (t + 8 * i.val))) :
    below m n t i = tables m n (pte2pa (word m (t + 8 * i.val))) := if_pos h

theorem self_mem_tables (m : Mem) (n t : Nat) : t ∈ tables m n t := by
  cases n with
  | zero => exact tables_zero m t ▸ mem_singleton_self t
  | succ n =>
    rw [tables_succ m n t 0, mem_add]
    exact .inr (mem_cons_self t _)

theorem below_le (m : Mem) (n t : Nat) (i : Fin 512) : below m n t i ≤ tables m (n + 1) t := by
  rw [tables_succ m n t i]
  exact Multiset.le_add_right ..

theorem entry_succ (m : Mem) (n t va : Nat) : entry m (n + 1) t va =
    if Valid (word m (pteAddr t (n + 1) va)) then
      entry m n (pte2pa (word m (pteAddr t (n + 1) va))) va else none := by
  rw [entry, slot]
  split <;> rfl

/-- What the tables of a page table look like if they are pages that are owned once. -/
structure Apart (m : Mem) (n t : Nat) : Prop where
  nodup : (tables m n t).Nodup
  aligned : ∀ p ∈ tables m n t, p % PGSIZE = 0

theorem Apart.below (h : Apart m (n + 1) t) (hv : Valid (word m (t + 8 * i.val))) :
    Apart m n (pte2pa (word m (t + 8 * i.val))) := by
  have hle := below_le m n t i
  rw [below_valid hv] at hle
  exact ⟨nodup_of_le hle h.nodup, fun p hp => h.aligned p (mem_of_le hle hp)⟩

/-- The word is part of one of the tables. -/
theorem slot_mem (h : Apart m n t) (hslot : slot m n t va = some a) :
    ∃ p ∈ tables m n t, ∃ i : Fin 512, a = p + 8 * i.val := by
  induction n generalizing t with
  | zero =>
    cases hslot
    exact ⟨t, self_mem_tables m 0 t, px 0 va, rfl⟩
  | succ n ih =>
    rw [slot] at hslot
    split at hslot
    · rename_i hv
      obtain ⟨p, hp, hi⟩ := ih (h.below hv) hslot
      refine ⟨p, mem_of_le (below_le m n t (px (n + 1) va)) ?_, hi⟩
      rw [below_valid hv]
      exact hp
    · cases hslot

/-- Tables below different words are different pages. -/
theorem Apart.ne (h : Apart m (n + 1) t) (hp : p ∈ Raw.below m n t i)
    (hq : q ∈ t ::ₘ besides m n t i) : q ≠ p := by
  have hnodup := h.nodup
  rw [tables_succ m n t i] at hnodup
  rintro rfl
  exact disjoint_left.mp (nodup_add.mp hnodup).2.2 hp hq

theorem Apart.aligned_besides (h : Apart m (n + 1) t) (hq : q ∈ t ::ₘ besides m n t i) :
    q % PGSIZE = 0 := by
  refine h.aligned q ?_
  rw [tables_succ m n t i]
  exact mem_add.mpr (.inr hq)

/-- **Two addresses never share a word**, unless they agree in all indexes. -/
theorem slot_inj {va' : Nat} (h : Apart m n t) (hva : slot m n t va = some a)
    (hva' : slot m n t va' = some a) : ∀ l, l ≤ n → px l va = px l va' := by
  induction n generalizing t with
  | zero =>
    intro l hl
    obtain rfl := Nat.le_zero.mp hl
    cases hva
    have haddr : pteAddr t 0 va' = pteAddr t 0 va := by simpa [slot] using hva'
    refine Fin.ext ?_
    rw [pteAddr, pteAddr] at haddr
    omega
  | succ n ih =>
    rw [slot] at hva hva'
    split at hva
    swap
    · cases hva
    rename_i hv
    split at hva'
    swap
    · cases hva'
    rename_i hv'
    have htop : px (n + 1) va' = px (n + 1) va := by
      by_contra hne
      obtain ⟨p, hp, i, hi⟩ := slot_mem (h.below hv) hva
      obtain ⟨p', hp', i', hi'⟩ := slot_mem (h.below hv') hva'
      rw [← below_valid hv] at hp
      rw [← below_valid hv'] at hp'
      have hin : p' ∈ t ::ₘ besides m n t (px (n + 1) va) :=
        mem_cons_of_mem (mem_of_le (below_le_besides hne) hp')
      have halign := h.aligned p (mem_of_le (below_le ..) hp)
      have halign' := h.aligned_besides hin
      refine h.ne hp hin ?_
      rw [PGSIZE_eq] at halign halign'
      omega
    intro l hl
    rcases Nat.lt_or_eq_of_le hl with hlt | rfl
    · refine ih (h.below hv) hva ?_ l (by omega)
      rwa [pteAddr, htop] at hva'
    · exact htop.symm

/-! ### Memory changes that leave the tables where they are -/

/-- The tables are the same pages, with the same words for the same addresses. -/
structure Steady (m m' : Mem) (n t : Nat) : Prop where
  tables : tables m' n t = tables m n t
  slot : ∀ va, slot m' n t va = slot m n t va
  inner : Inner m n t → Inner m' n t

theorem Steady.succ (hword : ∀ i : Fin 512, word m' (t + 8 * i.val) = word m (t + 8 * i.val))
    (hbelow : ∀ i : Fin 512, Valid (word m (t + 8 * i.val)) →
      Steady m m' n (pte2pa (word m (t + 8 * i.val)))) : Steady m m' (n + 1) t := by
  have hsame : ∀ j, below m' n t j = below m n t j := by
    intro j
    rw [below, below, hword]
    split
    · rename_i hv
      exact (hbelow j hv).tables
    · rfl
  refine ⟨?_, fun va => ?_, fun hinner i hv => ?_⟩
  · rw [tables_succ m' n t 0, tables_succ m n t 0, hsame, besides_congr fun j _ => hsame j]
  · rw [Raw.slot, Raw.slot, pteAddr, hword]
    split
    · rename_i hv
      exact (hbelow _ hv).slot va
    · rfl
  · rw [hword] at hv ⊢
    exact ⟨(hinner i hv).1, (hbelow i hv).inner (hinner i hv).2⟩

/-- The tables are left alone. -/
theorem steady_of_same (h : ∀ p ∈ tables m n t, SamePage m m' p) : Steady m m' n t := by
  induction n generalizing t with
  | zero => exact ⟨by rw [tables_zero, tables_zero], fun _ => rfl, fun _ => trivial⟩
  | succ n ih =>
    refine .succ (fun i => word_of_same (h t (self_mem_tables ..)) i)
      fun i hv => ih fun p hp => h p ?_
    rw [← below_valid hv] at hp
    exact mem_of_le (below_le ..) hp

theorem entry_of_same (hap : Apart m n t) (h : ∀ p ∈ tables m n t, SamePage m m' p) (va : Nat) :
    entry m' n t va = entry m n t va := by
  rw [entry, entry, (steady_of_same h).slot]
  cases hslot : slot m n t va with
  | none => rfl
  | some a =>
    obtain ⟨p, hp, i, rfl⟩ := slot_mem hap hslot
    simp only [Option.bind_some, word_of_same (h p hp) i]

theorem samePage_store (m : Mem) (i : Fin 512) (w : Nat) (hp : p % PGSIZE = 0) (hq : q % PGSIZE = 0)
    (hne : q ≠ p) : SamePage m { m with byte := store m.byte (p + 8 * i.val) (leBytes 8 w) } q := by
  refine fun o ho => store_of_outside ?_
  rw [length_leBytes]
  rw [PGSIZE_eq] at hp hq ho
  omega

/-- A word of the last level is stored. -/
theorem steady_store (h : Apart m n t) (hslot : slot m n t va = some a) :
    Steady m { m with byte := store m.byte a (leBytes 8 w) } n t := by
  induction n generalizing t with
  | zero => exact ⟨by rw [tables_zero, tables_zero], fun _ => rfl, fun _ => trivial⟩
  | succ n ih =>
    rw [slot] at hslot
    split at hslot
    swap
    · cases hslot
    rename_i hv
    obtain ⟨p, hp, i, rfl⟩ := slot_mem (h.below hv) hslot
    rw [← below_valid hv] at hp
    have hpage := h.aligned p (mem_of_le (below_le ..) hp)
    -- the page of the word is none of the other tables
    have hsame : ∀ q ∈ t ::ₘ besides m n t (px (n + 1) va), SamePage m
        { m with byte := store m.byte (p + 8 * i.val) (leBytes 8 w) } q :=
      fun q hq => samePage_store m i w hpage (h.aligned_besides hq) (h.ne hp hq)
    refine .succ (fun j => word_of_same (hsame t (mem_cons_self ..)) j) fun j hvj => ?_
    by_cases hj : j = px (n + 1) va
    · rw [hj]
      exact ih (h.below hv) hslot
    · refine steady_of_same fun q hq => hsame q (mem_cons_of_mem ?_)
      rw [← below_valid hvj] at hq
      exact mem_of_le (below_le_besides hj) hq

/-- … and is found again. -/
theorem entry_store (h : Apart m n t) (hslot : slot m n t va = some a) (hw : w < 2 ^ 64)
    (va' : Nat) : entry { m with byte := store m.byte a (leBytes 8 w) } n t va' =
      if slot m n t va' = some a then (if Valid w then some w else none) else entry m n t va' := by
  rw [entry, (steady_store h hslot).slot]
  cases hslot' : slot m n t va' with
  | none => simp [entry, hslot']
  | some b =>
    rw [Option.bind_some]
    by_cases hb : b = a
    · rw [hb, if_pos rfl, word_store_same m a w hw]
    · rw [if_neg fun heq => hb (Option.some.inj heq), entry, hslot', Option.bind_some,
        word_store_of_ne]
      obtain ⟨p, hp, i, rfl⟩ := slot_mem h hslot
      obtain ⟨q, hq, j, rfl⟩ := slot_mem h hslot'
      have hpage := h.aligned p hp
      have hpage' := h.aligned q hq
      rw [PGSIZE_eq] at hpage hpage'
      omega

/-! ### walk -/

/-- Everything that was mapped is mapped as before. -/
structure Retained (m m' : Mem) (n t : Nat) : Prop where
  entry : ∀ va, entry m' n t va = entry m n t va
  inner : Inner m n t → Inner m' n t

theorem Retained.trans {m'' : Mem} (h : Retained m m' n t) (h' : Retained m' m'' n t) :
    Retained m m'' n t :=
  ⟨fun va => (h'.entry va).trans (h.entry va), h'.inner ∘ h.inner⟩

theorem retained_of_same (hap : Apart m n t) (h : ∀ p ∈ tables m n t, SamePage m m' p) :
    Retained m m' n t :=
  ⟨entry_of_same hap h, (steady_of_same h).inner⟩

theorem apart_of_holds (h : Holds F m (tables m n t + A)) : Apart m n t :=
  ⟨(nodup_add.mp (nodup_add.mp h.own.nodup).1).1,
    fun _ hp => (mem_pages.mp (h.mem (mem_add.mpr (.inl hp)))).1⟩

theorem wp_setWord (h : Holds F m A) (ht : t ∈ A) (i : Fin 512) :
    wp (setWord (t + 8 * i.val) w) (fun _ m' => Holds F m' A ∧
      m' = { m with byte := store m.byte (t + 8 * i.val) (leBytes 8 w) }) E m := by
  refine wp_modify.mpr ⟨h.write ht fun k hk => store_of_outside ?_, rfl⟩
  rw [length_leBytes]
  rw [PGSIZE_eq] at hk
  omega

theorem word_eq_zero (h : ∀ k, a ≤ k → k < a + 8 → m.byte k = 0) : word m a = 0 := by
  refine Eq.trans (leField_congr fun k hlo hhi => ?_) (leField_store_leBytes m.byte a 8 0)
  rw [h k hlo hhi]
  obtain ⟨o, rfl⟩ := Nat.exists_eq_add_of_le hlo
  rw [store_of_inside (by rw [length_leBytes]; omega)]
  exact (List.eq_of_mem_replicate (n := 8) (List.getElem_mem _)).symm

/-- A page of zeros has no valid word. -/
theorem not_valid_of_zeros (h : Filled m t 0) (i : Fin 512) : ¬ Valid (word m (t + 8 * i.val)) := by
  rw [word_eq_zero fun k hlo hhi => ?_]
  · exact fun hv => hv rfl
  · obtain ⟨o, rfl⟩ := Nat.exists_eq_add_of_le (Nat.le_trans (Nat.le_add_right ..) hlo)
    refine h o ?_
    rw [PGSIZE_eq]
    omega

/-- A page of zeros is a table without entries. -/
theorem of_zeros (h : Filled m t 0) :
    tables m n t = {t} ∧ (∀ va, entry m n t va = none) ∧ Inner m n t := by
  cases n with
  | zero =>
    refine ⟨tables_zero m t, fun va => ?_, trivial⟩
    exact if_neg (not_valid_of_zeros h (px 0 va))
  | succ n =>
    have hbelow : ∀ i, below m n t i = 0 := fun i => if_neg (not_valid_of_zeros h i)
    refine ⟨?_, fun va => ?_, fun i hv => absurd hv (not_valid_of_zeros h i)⟩
    · rw [tables_succ m n t 0, hbelow, besides_eq_zero hbelow]
      rfl
    · rw [entry_succ, pteAddr, if_neg (not_valid_of_zeros h _)]

/-- A page table of which only word `i`, and what is below it, changes. -/
structure Grafted (m m' : Mem) (n t : Nat) (i : Fin 512) : Prop where
  besides : besides m' n t i = besides m n t i
  entry : ∀ va, px (n + 1) va ≠ i → entry m' (n + 1) t va = entry m (n + 1) t va
  inner : Inner m (n + 1) t → ∀ j, j ≠ i → Valid (word m' (t + 8 * j.val)) →
    pteFlags (word m' (t + 8 * j.val)) = PTE_V ∧ Inner m' n (pte2pa (word m' (t + 8 * j.val)))

theorem grafted (hap : Apart m (n + 1) t)
    (hword : ∀ j : Fin 512, j ≠ i → word m' (t + 8 * j.val) = word m (t + 8 * j.val))
    (hsame : ∀ p ∈ besides m n t i, SamePage m m' p) : Grafted m m' n t i := by
  have hbelow : ∀ j : Fin 512, j ≠ i → Valid (word m (t + 8 * j.val)) →
      ∀ p ∈ tables m n (pte2pa (word m (t + 8 * j.val))), SamePage m m' p := by
    intro j hj hv p hp
    rw [← below_valid hv] at hp
    exact hsame p (mem_of_le (below_le_besides hj) hp)
  refine ⟨besides_congr fun j hj => ?_, fun va hva => ?_, fun hinner j hj hv => ?_⟩
  · rw [below, below, hword j hj]
    split
    · rename_i hv
      exact (steady_of_same (hbelow j hj hv)).tables
    · rfl
  · rw [entry_succ, entry_succ, pteAddr, hword _ hva]
    split
    · rename_i hv
      exact entry_of_same (hap.below hv) (hbelow _ hva hv) va
    · rfl
  · rw [hword j hj] at hv ⊢
    exact ⟨(hinner j hv).1, (steady_of_same (hbelow j hj hv)).inner (hinner j hv).2⟩

/-- **A new table** is hung below a word that was not valid. -/
theorem hang {page : Nat} (h : Holds F m (page ::ₘ (tables m (n + 1) t + A)))
    (hzeros : Filled m page 0) (hv : ¬ Valid (word m (t + 8 * i.val))) (hm' : m' = { m with
      byte := store m.byte (t + 8 * i.val) (leBytes 8 (pa2pte page ||| PTE_V)) })
    (h' : Holds F m' (page ::ₘ (tables m (n + 1) t + A))) :
    Holds F m' (tables m' (n + 1) t + A) ∧ Retained m m' (n + 1) t ∧
      word m' (t + 8 * i.val) = pa2pte page ||| PTE_V := by
  have hap : Apart m (n + 1) t :=
    apart_of_holds (by rwa [add_cons])
  obtain ⟨hvalid, hpage, hflags, hlt⟩ := pte_table (h.mem (mem_cons_self ..))
  have ht : t ∈ tables m (n + 1) t := self_mem_tables ..
  have htpage := hap.aligned t ht
  have hne : page ≠ t := by
    rintro rfl
    have hnodup := (nodup_add.mp h.own.nodup).1
    exact (nodup_cons.mp hnodup).1 (mem_add.mpr (.inl ht))
  have hword : word m' (t + 8 * i.val) = pa2pte page ||| PTE_V := by
    rw [hm', word_store_same _ _ _ hlt]
  have hgraft : Grafted m m' n t i := by
    refine grafted hap (fun j hj => ?_) fun p hp => ?_
    · rw [hm', word_store_of_ne]
      omega
    · have hnodup := hap.nodup
      rw [tables_succ m n t i] at hnodup
      have hnew := (nodup_cons.mp (nodup_add.mp hnodup).2.1).1
      rw [hm']
      exact samePage_store m i _ htpage (hap.aligned_besides (mem_cons_of_mem hp))
        fun heq => hnew (heq ▸ hp)
  have hzeros' : Filled m' page 0 := by
    refine hzeros.same ?_
    rw [hm']
    exact samePage_store m i _ htpage (mem_pages.mp (h.mem (mem_cons_self ..))).1 hne
  obtain ⟨htables, hentry, hinner⟩ := of_zeros hzeros'
  refine ⟨?_, ⟨fun va => ?_, fun hin j hvj => ?_⟩, hword⟩
  · have hbelow : below m' n t i = {page} := by
      rw [below_valid (hword ▸ hvalid), hword, hpage, htables]
    rw [tables_succ m n t i, show below m n t i = 0 from if_neg hv, zero_add] at h'
    rw [tables_succ m' n t i, hbelow, hgraft.besides, singleton_add, cons_add]
    exact h'
  · by_cases hva : px (n + 1) va = i
    · rw [entry_succ, entry_succ, pteAddr, hva, if_neg hv, hword, if_pos hvalid, hpage, hentry]
    · exact hgraft.entry va hva
  · by_cases hj : j = i
    · rw [hj, hword, hpage]
      exact ⟨hflags, hinner⟩
    · exact hgraft.inner hin j hj hvj

/-- What `walk` leaves behind when it has got to the table `t` of level `n`. -/
structure Walked (F : Frame) (A : Multiset Nat) (m : Mem) (n t va a : Nat) (m' : Mem) : Prop where
  holds : Holds F m' (tables m' n t + A)
  retained : Retained m m' n t
  found : a ≠ 0 → slot m' n t va = some a

/-- `walk` goes down from a word that is valid. -/
theorem wp_walkBelow {alloc : Bool} (h : Holds F m (tables m (n + 1) t + A))
    (hv : Valid (word m (pteAddr t (n + 1) va)))
    (hbelow : ∀ {F : Frame} {A : Multiset Nat} {t : Nat}, Holds F m (tables m n t + A) →
      wp (walkDown alloc n t va) (fun a m' => Walked F A m n t va a m') E m) :
    wp (walkDown alloc n (pte2pa (word m (pteAddr t (n + 1) va))) va)
      (fun a m' => Walked F A m (n + 1) t va a m') E m := by
  have hap := apart_of_holds h
  have htables := tables_succ m n t (px (n + 1) va)
  rw [below_valid hv] at htables
  rw [htables, add_assoc] at h
  -- the other tables are left alone
  refine wp_imp (hbelow (by rw [add_zero]; exact h.protect)) fun a m' h' => ?_
  obtain ⟨hholds, hsame⟩ := h.release h'.holds
  have hword : ∀ j : Fin 512, word m' (t + 8 * j.val) = word m (t + 8 * j.val) :=
    word_of_same (hsame t (mem_add.mpr (.inl (mem_cons_self ..))))
  have hgraft : Grafted m m' n t (px (n + 1) va) := grafted hap (fun j _ => hword j) fun p hp =>
    hsame p (mem_add.mpr (.inl (mem_cons_of_mem hp)))
  rw [pteAddr] at hv h'
  refine ⟨?_, ⟨fun va' => ?_, fun hin j hvj => ?_⟩, fun hne => ?_⟩
  · rw [tables_succ m' n t (px (n + 1) va), below_valid (hword _ ▸ hv), hword, hgraft.besides,
      add_assoc]
    rwa [add_zero] at hholds
  · by_cases hva : px (n + 1) va' = px (n + 1) va
    · rw [entry_succ, entry_succ, pteAddr, hva, hword, if_pos hv, if_pos hv, h'.retained.entry]
    · exact hgraft.entry va' hva
  · by_cases hj : j = px (n + 1) va
    · rw [hj, hword]
      exact ⟨(hin _ hv).1, h'.retained.inner (hin _ hv).2⟩
    · exact hgraft.inner hin j hj hvj
  · rw [slot, pteAddr, hword, if_pos hv]
    exact h'.found hne

/-- **`walk`** may make tables; it changes no mapping, and finds the word for `va` if it
returns one. -/
theorem wp_walkDown (alloc : Bool) (n t va : Nat) (h : Holds F m (tables m n t + A)) :
    wp (walkDown alloc n t va) (fun a m' => Walked F A m n t va a m') E m := by
  induction n generalizing F m A t with
  | zero => exact wp_pure.mpr ⟨h, ⟨fun _ => rfl, id⟩, fun _ => rfl⟩
  | succ n ih =>
    rw [walkDown, wp_bind, wp_gets, wp_ite]
    refine ⟨fun hv => wp_walkBelow h hv fun h' => ih _ h', fun hv => ?_⟩
    rw [wp_ite]
    refine ⟨fun _ => wp_pure.mpr ⟨h, ⟨fun _ => rfl, id⟩, fun h0 => absurd rfl h0⟩, fun _ => ?_⟩
    have hap := apart_of_holds h
    refine wp_then (wp_kalloc h) ?_
    rintro page m1 ⟨hr, hsame1⟩
    have hsame1 : ∀ p ∈ tables m (n + 1) t, SamePage m m1 p :=
      fun p hp => hsame1 p (mem_add.mpr (.inl hp))
    have hsteady1 := steady_of_same hsame1
    have hret1 := retained_of_same hap hsame1
    rw [wp_ite]
    refine ⟨fun hnone => wp_pure.mpr ⟨?_, hret1, fun h0 => absurd rfl h0⟩, fun hpage => ?_⟩
    · obtain ⟨-, h1⟩ | ⟨hne, -⟩ := hr
      · rw [hsteady1.tables]
        exact h1
      · exact absurd hnone hne
    obtain ⟨hzero, -⟩ | ⟨-, h1⟩ := hr
    · exact absurd hzero hpage
    have hnew : page ∉ tables m (n + 1) t := fun hmem =>
      (nodup_cons.mp (nodup_add.mp h1.own.nodup).1).1
        (mem_add.mpr (.inl hmem))
    refine wp_then (wp_memset h1 (mem_cons_self ..)) ?_
    rintro _ m2 ⟨h2, hzeros, hsame2⟩
    have hsame2 : ∀ p ∈ tables m (n + 1) t, SamePage m m2 p := fun p hp =>
      (hsame1 p hp).trans (hsame2 p (mem_cons_of_mem (mem_add.mpr (.inl hp)))
        fun heq => hnew (heq ▸ hp))
    rw [← (steady_of_same hsame2).tables] at h2
    rw [pteAddr] at hv
    rw [← word_of_same (hsame2 t (self_mem_tables ..))] at hv
    rw [wp_bind]
    refine wp_imp (wp_setWord h2 (mem_cons_of_mem
      (mem_add.mpr (.inl (self_mem_tables ..)))) (px (n + 1) va)) ?_
    rintro _ m3 ⟨h3, hm3⟩
    obtain ⟨h4, hret3, hword⟩ := hang h2 hzeros hv hm3 h3
    obtain ⟨hvalid, haddr, -⟩ := pte_table (h2.mem (mem_cons_self ..))
    have hdown := wp_walkBelow h4 (hword ▸ hvalid) fun h' => ih _ h'
    rw [pteAddr, hword, haddr] at hdown
    refine wp_imp hdown fun a m' h' => ⟨h'.holds, ?_, h'.found⟩
    exact ((retained_of_same hap hsame2).trans hret3).trans h'.retained

/-- Without `alloc`, `walk` only reads. -/
theorem wp_walkDown_slot (n t va : Nat) :
    wp (walkDown false n t va) (fun a m' => m' = m ∧ a = (slot m n t va).getD 0) E m := by
  induction n generalizing t with
  | zero => exact wp_pure.mpr ⟨rfl, rfl⟩
  | succ n ih =>
    rw [walkDown, wp_bind, wp_gets, slot, wp_ite]
    refine ⟨fun hv => ?_, fun hv => ?_⟩
    · rw [if_pos hv]
      exact ih _
    · rw [if_neg hv]
      exact wp_pure.mpr ⟨rfl, rfl⟩

/-! ### A page table of three levels -/

/-- **A well-formed page table** within a frame: its tables are different pages, owned by
nobody else, and its inner words have no flag besides `PTE_V`. -/
structure WellFormed (F : Frame) (A : Multiset Nat) (pt : Nat) (m : Mem) : Prop where
  holds : Holds F m (tables m 2 pt + A)
  inner : Inner m 2 pt

/-- The valid word for a page number. -/
def lookup (m : Mem) (pt v : Nat) : Option Nat :=
  if v < MAXVA / PGSIZE then entry m 2 pt (v * PGSIZE) else none

variable {pt v : Nat}

theorem leaf_tree (m : Mem) (pt : Nat) (hv : v < MAXVA / PGSIZE) :
    leaf (tree m 2 pt) v = (lookup m pt v).map decode := by
  rw [leaf, if_pos (hv.trans (by decide)), lookup, if_pos hv, slot_tree, entry]
  cases slot m 2 pt (v * PGSIZE) <;> rfl

theorem lookup_of_slot (hv : v < MAXVA / PGSIZE) (h : slot m 2 pt (v * PGSIZE) = some a) :
    lookup m pt v = validWord (word m a) := by
  rw [lookup, if_pos hv, entry, h]
  rfl

theorem lookup_of_none (h : slot m 2 pt (v * PGSIZE) = none) : lookup m pt v = none := by
  rw [lookup, entry, h]
  split <;> rfl

theorem lookup_congr (h : ∀ va, entry m' 2 pt va = entry m 2 pt va) (v : Nat) :
    lookup m' pt v = lookup m pt v := by
  rw [lookup, lookup, h]

namespace WellFormed

theorem apart (h : WellFormed F A pt m) : Apart m 2 pt := apart_of_holds h.holds

/-- Page numbers have words of their own. -/
theorem slot_inj {v' : Nat} (h : WellFormed F A pt m) (hv : v < MAXVA / PGSIZE)
    (hv' : v' < MAXVA / PGSIZE)
    (hslot : slot m 2 pt (v * PGSIZE) = some a) (hslot' : slot m 2 pt (v' * PGSIZE) = some a) :
    v' = v := by
  by_contra hne
  obtain ⟨l, hl, hpx⟩ := exists_px_ne (hv.trans (by decide)) (hv'.trans (by decide)) hne
  exact hpx (Raw.slot_inj h.apart hslot' hslot l hl)

theorem slot_ne_zero (h : WellFormed F A pt m) (hslot : slot m 2 pt va = some a) : a ≠ 0 := by
  obtain ⟨p, hp, i, rfl⟩ := slot_mem h.apart hslot
  have := h.holds.ne_zero (mem_add.mpr (.inl hp))
  omega

theorem wp_walk (h : WellFormed F A pt m) {alloc : Bool} (hE : E .walk) :
    wp (walk pt va alloc) (fun a m' => va < MAXVA ∧ WellFormed F A pt m' ∧
      (∀ v, lookup m' pt v = lookup m pt v) ∧ (a ≠ 0 → slot m' 2 pt va = some a)) E m := by
  rw [walk, wp_ite]
  refine ⟨fun _ => wp_stop.mpr hE, fun hva => ?_⟩
  refine wp_imp (wp_walkDown alloc 2 pt va h.holds) fun a m' h' => ⟨by omega, ?_, ?_, h'.found⟩
  · exact ⟨h'.holds, h'.retained.inner h.inner⟩
  · exact lookup_congr h'.retained.entry

/-- A word for a page number is stored. -/
theorem wp_setWord (h : WellFormed F A pt m) (hv : v < MAXVA / PGSIZE)
    (hslot : slot m 2 pt (v * PGSIZE) = some a) (hw : w < 2 ^ 64) :
    wp (setWord a w) (fun _ m' => WellFormed F A pt m' ∧ ∀ v', lookup m' pt v' =
      if v' = v then validWord w else lookup m pt v') E m := by
  have hsteady := steady_store (w := w) h.apart hslot
  have hentry := entry_store h.apart hslot hw
  obtain ⟨p, hp, i, rfl⟩ := slot_mem h.apart hslot
  refine wp_imp (Raw.wp_setWord h.holds (mem_add.mpr (.inl hp)) i) ?_
  rintro _ m' ⟨h', hm'⟩
  rw [← hm'] at hsteady hentry
  refine ⟨⟨hsteady.tables ▸ h', hsteady.inner h.inner⟩, fun v' => ?_⟩
  rw [lookup, hentry]
  by_cases heq : v' = v
  · rw [if_pos heq, heq, if_pos hv, if_pos hslot]
    rfl
  · rw [if_neg heq, lookup]
    by_cases hv' : v' < MAXVA / PGSIZE
    · rw [if_neg fun hslot' => heq (h.slot_inj hv hv' hslot hslot'), if_pos hv']
    · rw [if_neg hv', if_neg hv']

/-- A page that is no table is freed. -/
theorem wp_kfree (h : WellFormed F (p ::ₘ A) pt m) :
    wp (kfree p) (fun _ m' => WellFormed F A pt m' ∧
      (∀ va, slot m' 2 pt va = slot m 2 pt va) ∧ ∀ v, lookup m' pt v = lookup m pt v) E m := by
  have hholds := h.holds
  rw [add_cons] at hholds
  refine wp_imp (Vm.wp_kfree hholds) ?_
  rintro _ m' ⟨h', hsame⟩
  have hsame : ∀ q ∈ tables m 2 pt, SamePage m m' q :=
    fun q hq => hsame q (mem_add.mpr (.inl hq))
  have hsteady := steady_of_same hsame
  exact ⟨⟨hsteady.tables ▸ h', hsteady.inner h.inner⟩, hsteady.slot,
    lookup_congr (entry_of_same h.apart hsame)⟩

end WellFormed

/-! ### mappages -/

theorem page_lt (h : va < MAXVA) : va / PGSIZE < MAXVA / PGSIZE := by
  rw [MAXVA] at *
  rw [PGSIZE_eq]
  omega

/-- One turn of the loop of `mappages`. -/
theorem wp_mapTurn {a : Nat} {rest : MemM Bool} {Q : Bool → Mem → Prop} (h : WellFormed F A pt m)
    (ha : a % PGSIZE = 0) (hpa : pa < 2 ^ 64) (hperm : perm < 2 ^ 10)
    (hfail : ∀ m', WellFormed F A pt m' → (∀ v, lookup m' pt v = lookup m pt v) → Q false m')
    (hnext : ∀ m', a < MAXVA → WellFormed F A pt m' → (∀ v, lookup m' pt v =
      if v = a / PGSIZE then some (pa2pte pa ||| perm ||| PTE_V) else lookup m pt v) →
      wp rest Q (· ≠ .hang) m') : wp (do
      let pte ← walk pt a true
      if pte = 0 then pure false
      else do
        let w ← .gets fun m => word m pte
        if Valid w then .stop .mappagesRemap
        else do
          setWord pte (pa2pte pa ||| perm ||| PTE_V)
          rest) Q (· ≠ .hang) m := by
  obtain ⟨hvalid, -, -, hlt⟩ := pte_fields hpa hperm
  refine wp_then (h.wp_walk (fun heq => nomatch heq)) ?_
  rintro pte m1 ⟨hva, h1, hsame, hslot⟩
  rw [wp_ite]
  refine ⟨fun _ => wp_pure.mpr (hfail m1 h1 hsame), fun hne => ?_⟩
  rw [wp_bind, wp_gets, wp_ite]
  refine ⟨fun _ => wp_stop.mpr (fun heq => nomatch heq), fun _ => ?_⟩
  have haddr : a / PGSIZE * PGSIZE = a := Nat.div_mul_cancel (Nat.dvd_of_mod_eq_zero ha)
  refine wp_then (h1.wp_setWord (page_lt hva) (haddr.symm ▸ hslot hne) hlt) ?_
  rintro _ m2 ⟨h2, hlookup⟩
  refine hnext m2 hva h2 fun v' => ?_
  rw [hlookup, hsame, validWord, if_pos hvalid]

/-- The loop of `mappages` with `n + 1` pages to go. -/
theorem wp_mapLoop {last : Nat} (n : Nat) {a : Nat} (h : WellFormed F A pt m) (ha : a % PGSIZE = 0)
    (hlast : last = (a + n * PGSIZE) % 2 ^ 64) (hn : n * PGSIZE < 2 ^ 64) (hpa : pa < 2 ^ 64)
    (hperm : perm < 2 ^ 10) :
    wp (mapLoop pt last perm (n + 1) a pa) (fun ok m' => WellFormed F A pt m' ∧
      (∀ v, ¬ (a / PGSIZE ≤ v ∧ v < a / PGSIZE + (n + 1)) → lookup m' pt v = lookup m pt v) ∧
      (ok = true → ∀ i, i < n + 1 → a / PGSIZE + i < MAXVA / PGSIZE ∧
        lookup m' pt (a / PGSIZE + i) =
          some (pa2pte ((pa + i * PGSIZE) % 2 ^ 64) ||| perm ||| PTE_V))) (· ≠ .hang) m := by
  induction n generalizing a pa m with
  | zero =>
    refine wp_mapTurn h ha hpa hperm (fun m' h' hsame => ⟨h', fun v _ => hsame v, nofun⟩)
      fun m' hva h' hlookup => ?_
    have hpage := page_lt hva
    have hend : a = last := by
      rw [hlast, Nat.zero_mul, Nat.add_zero, Nat.mod_eq_of_lt (hva.trans (by decide))]
    rw [if_pos hend]
    refine wp_pure.mpr ⟨h', fun v hout => ?_, fun _ i hi => ?_⟩
    · rw [hlookup, if_neg (by omega)]
    · obtain rfl : i = 0 := by omega
      refine ⟨hpage, ?_⟩
      rw [Nat.add_zero, hlookup, if_pos rfl, Nat.zero_mul, Nat.add_zero,
        Nat.mod_eq_of_lt hpa]
  | succ n ih =>
    refine wp_mapTurn h ha hpa hperm (fun m' h' hsame => ⟨h', fun v _ => hsame v, nofun⟩)
      fun m' hva h' hlookup => ?_
    have hpage := page_lt hva
    have hstep : (a + PGSIZE) % 2 ^ 64 = a + PGSIZE := by
      rw [PGSIZE_eq, MAXVA] at *
      omega
    have hdiv : (a + PGSIZE) / PGSIZE = a / PGSIZE + 1 := Nat.add_div_right a (by decide)
    have hmore : a ≠ last := by
      intro heq
      rw [hlast, PGSIZE_eq] at heq
      rw [PGSIZE_eq] at hn
      omega
    have hlast' : last = (a + PGSIZE + n * PGSIZE) % 2 ^ 64 := by
      rw [hlast, Nat.succ_mul, Nat.add_comm (n * PGSIZE), Nat.add_assoc]
    have hn' : n * PGSIZE < 2 ^ 64 := by
      rw [Nat.succ_mul] at hn
      omega
    have ha' : (a + PGSIZE) % PGSIZE = 0 := (Nat.add_mod_right a PGSIZE).trans ha
    have hrest := ih h' ha' hlast' hn'
      (Nat.mod_lt (pa + PGSIZE) (Nat.two_pow_pos 64))
    rw [hdiv] at hrest
    rw [if_neg hmore, hstep]
    refine wp_imp hrest ?_
    rintro ok m'' ⟨h'', hout, hin⟩
    refine ⟨h'', fun v hnot => ?_, fun hok i hi => ?_⟩
    · rw [hout v (by omega), hlookup, if_neg (by omega)]
    · cases i with
      | zero =>
        refine ⟨hpage, ?_⟩
        rw [Nat.add_zero, hout _ (by omega), hlookup, if_pos rfl, Nat.zero_mul, Nat.add_zero,
          Nat.mod_eq_of_lt hpa]
      | succ i =>
        have hshift : pa + (i + 1) * PGSIZE = pa + PGSIZE + i * PGSIZE := by
          rw [Nat.succ_mul]
          omega
        have hnext := hin hok i (by omega)
        rw [Nat.add_assoc, Nat.add_comm 1 i, Nat.mod_add_mod] at hnext
        rw [hshift]
        exact hnext

/-- **`mappages`**. -/
theorem wp_mappages {va size : Nat} (h : WellFormed F A pt m) (hsize : size < 2 ^ 64)
    (hpa : pa < 2 ^ 64) (hperm : perm < 2 ^ 10) :
    wp (mappages pt va size pa perm) (fun ok m' => WellFormed F A pt m' ∧
      (∀ v, ¬ (va / PGSIZE ≤ v ∧ v < va / PGSIZE + size / PGSIZE) →
        lookup m' pt v = lookup m pt v) ∧
      (ok = true → ∀ i, i < size / PGSIZE → va / PGSIZE + i < MAXVA / PGSIZE ∧
        lookup m' pt (va / PGSIZE + i) =
          some (pa2pte ((pa + i * PGSIZE) % 2 ^ 64) ||| perm ||| PTE_V))) (· ≠ .hang) m := by
  rw [mappages, wp_ite]
  refine ⟨fun _ => wp_stop.mpr (fun heq => nomatch heq), fun hva => ?_⟩
  rw [wp_ite]
  refine ⟨fun _ => wp_stop.mpr (fun heq => nomatch heq), fun halign => ?_⟩
  rw [wp_ite]
  refine ⟨fun _ => wp_stop.mpr (fun heq => nomatch heq), fun hne => ?_⟩
  obtain ⟨n, hn⟩ : ∃ n, size = (n + 1) * PGSIZE := by
    refine ⟨size / PGSIZE - 1, ?_⟩
    rw [PGSIZE_eq] at *
    omega
  have hdiv : size / PGSIZE = n + 1 := by
    rw [hn]
    exact Nat.mul_div_cancel _ (by decide)
  rw [hdiv]
  refine wp_mapLoop n h (not_not.mp hva) ?_ ?_ hpa hperm
  · rw [hn, Nat.succ_mul, ← Nat.add_assoc, Nat.add_sub_cancel]
  · rw [hn, Nat.succ_mul] at hsize
    omega

/-! ### uvmunmap -/

/-- The page an entry maps, if it is to be freed. -/
def freed (doFree : Bool) (e : Option Nat) : Multiset Nat :=
  if doFree then e.elim 0 fun w => {pte2pa w} else 0

/-- The pages that `uvmunmap` frees of `n` pages from `v` on. -/
def frames (m : Mem) (pt : Nat) (doFree : Bool) : Nat → Nat → Multiset Nat
  | 0, _ => 0
  | n + 1, v => freed doFree (lookup m pt v) + frames m pt doFree n (v + 1)

theorem frames_congr (n v : Nat)
    (h : ∀ v', v ≤ v' → v' < v + n → lookup m' pt v' = lookup m pt v') :
    frames m' pt doFree n v = frames m pt doFree n v := by
  induction n generalizing v with
  | zero => rfl
  | succ n ih =>
    rw [frames, frames, h v le_rfl (by omega), ih (v + 1) fun v' hlo hhi => h v' (by omega)
      (by omega)]

theorem freed_none (doFree : Bool) : freed doFree none = 0 := by cases doFree <;> rfl

/-- An entry is taken out, and its page freed if that is asked for. -/
theorem wp_unmapEntry (h : WellFormed F (freed doFree (some w) + A) pt m) (hv : v < MAXVA / PGSIZE)
    (hslot : slot m 2 pt (v * PGSIZE) = some a) {rest : MemM Unit} {Q : Unit → Mem → Prop}
    (hrest : ∀ m', WellFormed F A pt m' → (∀ v', lookup m' pt v' =
      if v' = v then none else lookup m pt v') → wp rest Q E m') : wp (do
      Prog.when (doFree = true) (kfree (pte2pa w))
      setWord a 0
      rest) Q E m := by
  have hfree : wp (Prog.when (doFree = true) (kfree (pte2pa w))) (fun _ m' =>
      WellFormed F A pt m' ∧ (∀ va, slot m' 2 pt va = slot m 2 pt va) ∧
      ∀ v, lookup m' pt v = lookup m pt v) E m := by
    rw [wp_when]
    refine ⟨fun hdo => ?_, fun hdo => ⟨?_, fun _ => rfl, fun _ => rfl⟩⟩
    · rw [freed, if_pos hdo] at h
      exact h.wp_kfree
    · rwa [freed, if_neg hdo, zero_add] at h
  refine wp_then hfree ?_
  rintro _ m1 ⟨h1, hslots, hsame⟩
  refine wp_then (h1.wp_setWord hv ((hslots _).trans hslot) (Nat.two_pow_pos 64)) ?_
  rintro _ m2 ⟨h2, hlookup⟩
  refine hrest m2 h2 fun v' => ?_
  rw [hlookup, hsame]
  rfl

/-- The entries for `n` pages from `v` on were taken out. -/
structure Unmapped (F : Frame) (A : Multiset Nat) (pt v n : Nat) (m m' : Mem) : Prop where
  wellFormed : WellFormed F A pt m'
  lookup : ∀ v', lookup m' pt v' = if v ≤ v' ∧ v' < v + n then none else lookup m pt v'

/-- The loop of `uvmunmap` with `n` pages to go. -/
theorem wp_unmapLoop {stop : Nat} (n : Nat) {a : Nat}
    (h : WellFormed F (frames m pt doFree n (a / PGSIZE) + A) pt m) (ha : a % PGSIZE = 0)
    (hstop : stop = a + n * PGSIZE) (hlt : stop < 2 ^ 64) :
    wp (unmapLoop pt stop doFree n a) (fun _ m' => Unmapped F A pt (a / PGSIZE) n m m')
      (· ≠ .hang) m := by
  induction n generalizing a m with
  | zero =>
    refine wp_pure.mpr ⟨?_, fun v => (if_neg (by omega)).symm⟩
    rwa [frames, zero_add] at h
  | succ n ih =>
    have haddr : a / PGSIZE * PGSIZE = a := Nat.div_mul_cancel (Nat.dvd_of_mod_eq_zero ha)
    have hdiv : (a + PGSIZE) / PGSIZE = a / PGSIZE + 1 := Nat.add_div_right a (by decide)
    have ha' : (a + PGSIZE) % PGSIZE = 0 := (Nat.add_mod_right a PGSIZE).trans ha
    have hstop' : stop = a + PGSIZE + n * PGSIZE := by
      rw [hstop, Nat.succ_mul]
      omega
    have hstep : (a + PGSIZE) % 2 ^ 64 = a + PGSIZE := Nat.mod_eq_of_lt (by omega)
    have hmore : a < stop := by
      rw [hstop', PGSIZE_eq]
      omega
    rw [frames, add_assoc] at h
    -- the rest of the loop, after a turn that has taken out the entry for this page
    have hrest : ∀ m1, WellFormed F (frames m pt doFree n (a / PGSIZE + 1) + A) pt m1 →
        (∀ v, lookup m1 pt v = if v = a / PGSIZE then none else lookup m pt v) →
        wp (unmapLoop pt stop doFree n ((a + PGSIZE) % 2 ^ 64))
          (fun _ m' => Unmapped F A pt (a / PGSIZE) (n + 1) m m') (· ≠ .hang) m1 := by
      intro m1 h1 hlookup
      have hframes : frames m1 pt doFree n (a / PGSIZE + 1) =
          frames m pt doFree n (a / PGSIZE + 1) :=
        frames_congr n _ fun v hlo _ => by rw [hlookup, if_neg (by omega)]
      rw [← hframes, ← hdiv] at h1
      rw [hstep]
      refine wp_imp (ih h1 ha' hstop') ?_
      rintro _ m' ⟨h', hafter⟩
      refine ⟨h', fun v => ?_⟩
      rw [hafter, hlookup]
      split_ifs <;> first | rfl | omega
    -- a turn that finds no entry
    have hskip : lookup m pt (a / PGSIZE) = none →
        wp (unmapLoop pt stop doFree n ((a + PGSIZE) % 2 ^ 64))
          (fun _ m' => Unmapped F A pt (a / PGSIZE) (n + 1) m m') (· ≠ .hang) m := by
      intro hnone
      rw [hnone, freed_none, zero_add] at h
      refine hrest m h fun v => ?_
      split
      · rename_i heq
        rw [heq, hnone]
      · rfl
    rw [unmapLoop, if_pos hmore, wp_bind, walk, wp_ite]
    refine ⟨fun _ => wp_stop.mpr (fun heq => nomatch heq), fun hva => ?_⟩
    have hpage := page_lt (not_le.mp hva)
    refine wp_imp (wp_walkDown_slot 2 pt a) ?_
    rintro pte m1 ⟨rfl, hpte⟩
    cases hslot : slot m1 2 pt a with
    | none =>
      rw [hslot, Option.getD_none] at hpte
      rw [if_pos hpte]
      exact hskip (lookup_of_none (haddr.symm ▸ hslot))
    | some b =>
      obtain rfl : pte = b := by rw [hpte, hslot, Option.getD_some]
      have hfound := lookup_of_slot hpage (haddr.symm ▸ hslot)
      rw [if_neg (h.slot_ne_zero hslot), wp_bind, wp_gets, wp_ite]
      refine ⟨fun hv => hskip ?_, fun hv => ?_⟩
      · rw [hfound, validWord, if_neg hv]
      · rw [validWord, if_pos (not_not.mp hv)] at hfound
        rw [hfound] at h
        exact wp_unmapEntry h hpage (haddr.symm ▸ hslot) hrest

/-- **`uvmunmap`** of a range of 64-bit addresses. -/
theorem wp_uvmunmap {va : Nat} (n : Nat)
    (h : WellFormed F (frames m pt doFree n (va / PGSIZE) + A) pt m)
    (hlt : va + n * PGSIZE < 2 ^ 64) :
    wp (uvmunmap pt va n doFree) (fun _ m' => Unmapped F A pt (va / PGSIZE) n m m')
      (· ≠ .hang) m := by
  rw [uvmunmap, wp_ite]
  refine ⟨fun _ => wp_stop.mpr (fun heq => nomatch heq), fun hva => ?_⟩
  rw [Nat.mod_eq_of_lt hlt]
  exact wp_unmapLoop n h (not_not.mp hva) rfl hlt

/-! ### The map -/

/-- **A page table is a map.** Within any frame, a well-formed page table gives each page
number below `MAXVA / PGSIZE` a word of its own, which is where `walk` looks; `mappages` puts
the pages of a range there with their flags and changes no other page, whether it succeeds
or fails; `uvmunmap` takes out the pages of a range and no others; and the page table stays
well formed. With `doFree`, the pages that are mapped in the range are freed, so they have
to be owned. -/
theorem page_table_map (h : WellFormed F A pt m) :
    (∀ v v' a, v < MAXVA / PGSIZE → v' < MAXVA / PGSIZE →
      slot m 2 pt (v * PGSIZE) = some a → slot m 2 pt (v' * PGSIZE) = some a → v' = v) ∧
    (∀ v, v < MAXVA / PGSIZE → wp (walk pt (v * PGSIZE) false)
      (fun a m' => m' = m ∧ a = (slot m 2 pt (v * PGSIZE)).getD 0) (fun _ => False) m) ∧
    (∀ va size pa perm, size < 2 ^ 64 → pa < 2 ^ 64 → perm < 2 ^ 10 →
      wp (mappages pt va size pa perm) (fun ok m' => WellFormed F A pt m' ∧
        (∀ v, ¬ (va / PGSIZE ≤ v ∧ v < va / PGSIZE + size / PGSIZE) →
          lookup m' pt v = lookup m pt v) ∧
        (ok = true → ∀ i, i < size / PGSIZE → ∃ w, lookup m' pt (va / PGSIZE + i) = some w ∧
          pte2pa w = pgRoundDown ((pa + i * PGSIZE) % 2 ^ 64) ∧ pteFlags w = perm ||| PTE_V))
        (· ≠ .hang) m) ∧
    ∀ va n doFree B, A = frames m pt doFree n (va / PGSIZE) + B → va + n * PGSIZE < 2 ^ 64 →
      wp (uvmunmap pt va n doFree) (fun _ m' => WellFormed F B pt m' ∧
        ∀ v, lookup m' pt v = if va / PGSIZE ≤ v ∧ v < va / PGSIZE + n then none else lookup m pt v)
        (· ≠ .hang) m := by
  refine ⟨fun v v' a hv hv' => h.slot_inj hv hv', fun v hv => ?_,
    fun va size pa perm hsize hpa hperm => ?_, fun va n doFree B hA hlt => ?_⟩
  · have hva : ¬ MAXVA ≤ v * PGSIZE := by
      rw [PGSIZE_eq] at *
      omega
    rw [walk, if_neg hva]
    exact wp_walkDown_slot 2 pt _
  · refine wp_imp (wp_mappages h hsize hpa hperm) ?_
    rintro ok m' ⟨h', hout, hin⟩
    refine ⟨h', hout, fun hok i hi => ?_⟩
    obtain ⟨-, haddr, hflags, -⟩ :=
      pte_fields (Nat.mod_lt (pa + i * PGSIZE) (Nat.two_pow_pos 64)) hperm
    exact ⟨_, (hin hok i hi).2, haddr, hflags⟩
  · exact wp_imp (wp_uvmunmap n (hA ▸ h) hlt) fun _ m' h' => ⟨h'.wellFormed, h'.lookup⟩

/-- The flags of a mapping: `PTE_R` and what `perm` says. -/
def flags (perm : Perm) : Nat :=
  2 ||| (if perm.w then 4 else 0) ||| (if perm.x then 8 else 0) ||| (if perm.u then 16 else 0)

/-- **Trees stand for page tables.** The tree of a well-formed page table has its tables as
nodes, and `mappages` of a page and `uvmunmap` change the mappings of the tree as their models
on trees do. -/
theorem tree_refines (h : WellFormed F A pt m) :
    PageTable.nodes 2 (tree m 2 pt) = tables m 2 pt ∧
    (∀ v pa perm, pa < 2 ^ 64 → pa % PGSIZE = 0 →
      wp (mappages pt (v * PGSIZE) PGSIZE pa (flags perm)) (fun ok m' => ok = true →
        ∀ v' < MAXVA / PGSIZE, leaf (tree m' 2 pt) v' =
          if v' = v then some ⟨pa, perm⟩ else leaf (tree m 2 pt) v') (· ≠ .hang) m) ∧
    ∀ v n doFree B, A = frames m pt doFree n v + B → (v + n) * PGSIZE < 2 ^ 64 →
      wp (uvmunmap pt (v * PGSIZE) n doFree) (fun _ m' =>
        ∀ v' < MAXVA / PGSIZE, leaf (tree m' 2 pt) v' =
          if v ≤ v' ∧ v' < v + n then none else leaf (tree m 2 pt) v') (· ≠ .hang) m := by
  have hdiv : ∀ v, v * PGSIZE / PGSIZE = v := fun v => Nat.mul_div_cancel v (by decide)
  refine ⟨nodes_tree m 2 pt, fun v pa perm hpa halign => ?_, fun v n doFree B hA hlt => ?_⟩
  · have hperm : flags perm < 2 ^ 10 := by
      obtain ⟨w, x, u⟩ := perm
      cases w <;> cases x <;> cases u <;> decide
    refine wp_imp (wp_mappages h (by decide) hpa hperm) ?_
    rintro ok m' ⟨-, hout, hin⟩ hok v' hv'
    rw [hdiv] at hout hin
    rw [leaf_tree m' pt hv']
    split
    · obtain ⟨-, haddr, hflags, -⟩ := pte_fields hpa hperm
      have hword := (hin hok 0 (by decide)).2
      rw [Nat.add_zero, Nat.zero_mul, Nat.add_zero, Nat.mod_eq_of_lt hpa] at hword
      rw [‹v' = v›, hword, Option.map_some, decode, haddr, hflags, pgRoundDown,
        Nat.div_mul_cancel (Nat.dvd_of_mod_eq_zero halign)]
      obtain ⟨w, x, u⟩ := perm
      cases w <;> cases x <;> cases u <;> rfl
    · rw [leaf_tree m pt hv', hout v' ?_]
      rw [show PGSIZE / PGSIZE = 1 from rfl]
      omega
  · refine wp_imp (wp_uvmunmap n ((hdiv v).symm ▸ hA ▸ h) (by rwa [← Nat.add_mul])) ?_
    intro _ m' h' v' hv'
    rw [leaf_tree m' pt hv', leaf_tree m pt hv', h'.lookup, hdiv]
    split <;> rfl

/-- The last three pages of memory: an empty page table and two free pages. -/
def spare : Mem where
  kend := PHYSTOP - 3 * PGSIZE
  trampoline := 0
  freelist := PHYSTOP - 2 * PGSIZE
  byte := store (fun _ => 0) (PHYSTOP - 2 * PGSIZE) (leBytes 8 (PHYSTOP - PGSIZE))
  total := 0
  fails := []

theorem spare_byte {k : Nat} (h : k < PHYSTOP - 2 * PGSIZE ∨ PHYSTOP - PGSIZE ≤ k) :
    spare.byte k = 0 := by
  refine (store_of_outside ?_ : store (fun _ => 0) _ _ k = 0)
  rw [length_leBytes]
  rw [PHYSTOP_eq, PGSIZE_eq] at *
  omega

theorem wellFormed_spare : WellFormed ⟨spare.kend, 0, spare, 0⟩ 0 (PHYSTOP - 3 * PGSIZE) spare := by
  have hzeros : Filled spare (PHYSTOP - 3 * PGSIZE) 0 := by
    refine fun o ho => spare_byte (.inl ?_)
    rw [PHYSTOP_eq]
    rw [PGSIZE_eq] at *
    omega
  obtain ⟨htables, -, hinner⟩ := of_zeros hzeros
  refine ⟨?_, hinner⟩
  rw [htables]
  have hfirst : spare.next spare.freelist = PHYSTOP - PGSIZE :=
    word_store_same { spare with byte := fun _ => 0 } _ _ (by decide)
  have hsecond : spare.next (PHYSTOP - PGSIZE) = 0 :=
    word_eq_zero fun k hlo _ => spare_byte (.inr hlo)
  refine Owns.free_frame ⟨rfl, rfl, by decide, [PHYSTOP - 2 * PGSIZE, PHYSTOP - PGSIZE], ?_, ?_⟩
  · refine .cons (by decide) ?_
    rw [hfirst]
    refine .cons (by decide) ?_
    rw [hsecond]
    exact .nil
  · decide +kernel

/-- Two pages are mapped, and the first of them is taken out again. -/
theorem page_table_map_spare : ∃ m1 m2 m3,
    mappages (PHYSTOP - 3 * PGSIZE) 0 PGSIZE PGSIZE 6 spare = .ok (true, m1) ∧
    mappages (PHYSTOP - 3 * PGSIZE) PGSIZE PGSIZE (5 * PGSIZE) 2 m1 = .ok (true, m2) ∧
    uvmunmap (PHYSTOP - 3 * PGSIZE) 0 1 false m2 = .ok ((), m3) ∧
    (∃ w, lookup m2 (PHYSTOP - 3 * PGSIZE) 0 = some w ∧ pte2pa w = PGSIZE ∧ pteFlags w = 7) ∧
    lookup m3 (PHYSTOP - 3 * PGSIZE) 0 = none ∧
    ∃ w, lookup m3 (PHYSTOP - 3 * PGSIZE) 1 = some w ∧ pte2pa w = 5 * PGSIZE ∧
      pteFlags w = 3 := by
  obtain ⟨m, hok⟩ := exists_ok_of_map (a := true) (x := (do
    let a ← mappages (PHYSTOP - 3 * PGSIZE) 0 PGSIZE PGSIZE 6
    let b ← mappages (PHYSTOP - 3 * PGSIZE) PGSIZE PGSIZE (5 * PGSIZE) 2
    uvmunmap (PHYSTOP - 3 * PGSIZE) 0 1 false
    pure (a && b)) spare) (by decide +kernel)
  obtain ⟨a, m1, hok1, hok⟩ := bind_eq_ok hok
  obtain ⟨b, m2, hok2, hok⟩ := bind_eq_ok hok
  obtain ⟨_, m3, hok3, hok⟩ := bind_eq_ok hok
  obtain ⟨rfl, rfl⟩ := Bool.and_eq_true_iff.mp (Prod.mk.inj (Except.ok.inj hok)).1
  have h1 := wp_ok ((page_table_map wellFormed_spare).2.2.1 0 PGSIZE PGSIZE 6 (by decide)
    (by decide) (by decide)) hok1
  have h2 := wp_ok ((page_table_map h1.1).2.2.1 PGSIZE PGSIZE (5 * PGSIZE) 2 (by decide)
    (by decide) (by decide)) hok2
  have h3 := wp_ok ((page_table_map h2.1).2.2.2 0 1 false 0 (by simp [frames, freed])
    (by decide)) hok3
  refine ⟨m1, m2, m3, hok1, hok2, hok3, ?_, (h3.2 0).trans (if_pos (by decide)), ?_⟩
  · rw [h2.2.1 0 (by decide)]
    exact h1.2.2 rfl 0 (by decide)
  · rw [h3.2 1, if_neg (by decide)]
    exact h2.2.2 rfl 0 (by decide)

end Xv6.Vm.Raw
