import Xv6.Kernel.Conservation
import Xv6.Vm.Strings

/-!
# xv6 — copies between kernel and user memory are exact

`copyout`, `copyin` and `copyinstr` on the address space of a process, whatever
addresses and lengths user code passes.

* `copies_exact`        — they end without a panic, move the bytes in order and
  touch nothing else.
* `copyinstr_copyin`    — `copyinstr` does not fault pages in as `copyin` does: a
  string is fetched exactly if its pages are there.
-/

namespace Xv6.Kernel

open Prog Vm ByteBuffer TransitionRun

variable {kend total sz : Nat} {A : Multiset Nat} {u u' : User}

/-- Exactly the bytes `bs` were stored at `dstva`: what else there is in memory is as
it was, but pages of zeros may have been added below `sz`. `A` are the pages of others,
the kernel's memory ends at `kend`. -/
structure StoredOnly (kend : Nat) (A : Multiset Nat) (sz dstva : Nat) (bs : List UInt8)
    (u u' : User) : Prop where
  writable : ∀ i, i < bs.length → u.view.writable sz (dstva + i) = true
  view : u'.view = u.view.store dstva bs
  others : ∀ q ∈ A, SamePage u.mem u'.mem q
  kernel : ∀ x, x < kend → u'.mem.byte x = u.mem.byte x
  mapped : ∀ v pte, leaf u.pt v = some pte → leaf u'.pt v = some pte
  unwritable : ∀ v pte, v < NUSER → leaf u.pt v = some pte →
    ¬ (pte.perm.u = true ∧ pte.perm.w = true) → SamePage u.mem u'.mem pte.pa
  added : ∀ v pte, leaf u.pt v = none → leaf u'.pt v = some pte →
    v < npages sz ∧ ∀ o, o < PGSIZE →
      ¬ (dstva ≤ v * PGSIZE + o ∧ v * PGSIZE + o < dstva + bs.length) →
      u'.mem.byte (pte.pa + o) = 0

theorem storedOnly_of_copiedOut {dstva n : Nat} {src : List UInt8}
    (h : UserOk kend total A sz u) (h' : CopiedOut kend total A sz dstva src u n u') :
    StoredOnly kend A sz dstva (src.take n) u u' := by
  have hlen : (src.take n).length = n := by
    rw [List.length_take]
    exact Nat.min_eq_left h'.passed.le
  have hwritable : ∀ i, i < (src.take n).length → u.view.writable sz (dstva + i) = true := by
    rw [hlen]
    exact h'.passed.pass
  refine ⟨hwritable, h'.view, h'.apart.same, h'.confined.low, h'.confined.mapped, ?_, ?_⟩
  · intro v pte hv hpte hno o ho
    have hout : ¬ (dstva ≤ v * PGSIZE + o ∧ v * PGSIZE + o < dstva + (src.take n).length) := by
      rintro ⟨hlo, hhi⟩
      obtain ⟨i, hi⟩ := Nat.exists_eq_add_of_le hlo
      have hw := hwritable i (by omega)
      have hdiv : (dstva + i) / PGSIZE = v := by
        rw [← hi]
        rw [PGSIZE_eq] at ho ⊢
        omega
      rw [View.writable, View.readable, hdiv, view_perm_of_leaf hv hpte] at hw
      simp only [Bool.and_eq_true] at hw
      exact hno ⟨hw.1.2, hw.2⟩
    rw [← view_byte_of_leaf hv hpte ho,
      ← view_byte_of_leaf hv (h'.confined.mapped v pte hpte) ho, h'.view]
    exact store_of_outside hout
  · intro v pte hnone hpte
    have hv : v < npages sz := h'.confined.added v (by rw [hnone, hpte]; rintro ⟨⟩)
    have hlt : v < NUSER := hv.trans_le (npages_le_iff.mpr (h.sz_eq ▸ h.image.sz_le))
    refine ⟨hv, fun o ho hout => ?_⟩
    rw [← view_byte_of_leaf hlt hpte ho, h'.view]
    exact (store_of_outside hout).trans (Vm.view_byte_of_none hnone ho)

/--
**Copies are exact and confined.** On every address space that is whole, for all
addresses and lengths, the three functions end without a panic. `copyout` stores a
prefix of the bytes and nothing else, all of them if it succeeds; `copyin` that succeeds
has fetched all bytes in order; `copyinstr` stores at most `max` bytes, and if it
succeeds they end with the only NUL.
-/
theorem copies_exact (h : UserOk kend total A sz u) :
    (∀ dstva src, ∃ ok u' n, Vm.copyout dstva src u = .ok (ok, u') ∧ n ≤ src.length ∧
      (ok = true → n = src.length) ∧ UserOk kend total A sz u' ∧
      StoredOnly kend A sz dstva (src.take n) u u') ∧
    (∀ srcva len, ∃ bs ok u', Vm.copyin srcva len u = .ok ((bs, ok), u') ∧
      (ok = true → bs = load u.view.byte srcva len ∧
        ∀ i, i < len → u.view.readable sz (srcva + i) = true) ∧
      UserOk kend total A sz u' ∧ u'.view = u.view) ∧
    (∀ srcva max, ∃ bs ok, copyinstr srcva max u = .ok ((bs, ok), u) ∧ bs.length ≤ max ∧
      bs = load u.view.byte srcva bs.length ∧ (ok = true → IsString bs)) := by
  refine ⟨fun dstva src => ?_, fun srcva len => ?_, fun srcva max => ?_⟩
  · obtain ⟨n, u', hrun, h'⟩ := exists_ok_of_wp (wp_copyoutCount dstva src h)
    refine ⟨decide (n = src.length), u', n, ?_, h'.passed.le, of_decide_eq_true, h'.apart.ok,
      storedOnly_of_copiedOut h h'⟩
    rw [copyout_eq_count, bind_of_ok hrun]
    rfl
  · obtain ⟨⟨bs, ok⟩, u', hrun, h', n, hpassed, hr⟩ :=
      exists_ok_of_wp (wp_copyin_passed srcva len h)
    obtain ⟨rfl, rfl⟩ := Prod.mk.inj hr
    refine ⟨_, _, u', hrun, fun hok => ?_, h'.ok, h'.view⟩
    obtain rfl := of_decide_eq_true hok
    exact ⟨rfl, hpassed.pass⟩
  · obtain ⟨⟨bs, ok⟩, u', hrun, rfl, n, hn⟩ := exists_ok_of_wp (wp_copyinstr srcva max h)
    have hbytes : bs = load u'.view.byte srcva n := hn.bytes
    have hlen : bs.length = n := by rw [hbytes, length_load]
    exact ⟨bs, ok, hrun, hlen ▸ hn.le, by rw [hlen, ← hbytes], hn.isString⟩

/-- init, running. -/
def started : List Event := [.dispatch 0 []]

/-- The address space of process 0, in a state that is reached from the small machine. -/
theorem userOk_of_run {k s : State} {es : List Event} (hboot : userinit small = .ok ((), k))
    (hrun : Run Step k es s) (hused : (s.proc 0).state ≠ .unused) :
    ∃ pt kend total A, (s.proc 0).pagetable = some pt ∧
      UserOk kend total A (s.proc 0).sz (s.user 0 pt none) := by
  obtain ⟨u1, h1⟩ := wp_ok (wp_userinit_pages (fresh_small.good bootMem_small)) hboot
  obtain ⟨u, h⟩ := good_run h1 hrun
  obtain ⟨pt, B, hpt, hok, -⟩ := h.openUser (h.used hused)
  exact ⟨pt, _, _, B, hpt, hok⟩

/-- A copy to the guard page of init, and one to its stack. -/
theorem copies_exact_init : ∃ kend total A sz u, UserOk kend total A sz u ∧
    (Vm.copyout 0 [1, 2, 3] u).map Prod.fst = .ok false ∧
    (Vm.copyout 4096 [1, 2, 3] u).map Prod.fst = .ok true ∧
    ∃ ok u' n, Vm.copyout 4096 [1, 2, 3] u = .ok (ok, u') ∧ n ≤ [1, 2, 3].length ∧
      (ok = true → n = [1, 2, 3].length) ∧ UserOk kend total A sz u' ∧
      StoredOnly kend A sz 4096 ([1, 2, 3].take n) u u' := by
  obtain ⟨k, s, hboot, hrun, hs⟩ := userinit_of_bootRun small started (C := fun _ _ => True)
    (f := fun s => ((s.proc 0).state, (s.proc 0).pagetable.map fun pt =>
      (((Vm.copyout 0 [1, 2, 3] (s.user 0 pt none)).map Prod.fst).toOption,
        ((Vm.copyout 4096 [1, 2, 3] (s.user 0 pt none)).map Prod.fst).toOption)))
    (b := (.running, some (some false, some true))) (by decide +kernel)
  simp only [Prod.mk.injEq] at hs
  obtain ⟨pt, kend, total, A, hpt, hok⟩ := userOk_of_run hboot hrun.of_restrict
    (by rw [hs.1]; decide)
  rw [hpt, Option.map_some, Option.some.injEq, Prod.mk.injEq] at hs
  exact ⟨kend, total, A, _, _, hok, ok_of_toOption hs.2.1, ok_of_toOption hs.2.2,
    (copies_exact hok).1 4096 [1, 2, 3]⟩

/-! ### Strings in lazily granted memory -/

/--
**`copyinstr` agrees with `copyin` on mapped pages only.** Let `copyin` fetch a string
with its NUL, within the bound. `copyinstr` yields it too exactly if all its pages are
mapped already: it does not fault in a page that was only granted.
-/
theorem copyinstr_copyin {va max : Nat} {bs : List UInt8} (h : UserOk kend total A sz u)
    (hnul : 0 ∉ bs) (hmax : bs.length < max)
    (hin : Vm.copyin va (bs.length + 1) u = .ok ((bs ++ [0], true), u')) :
    copyinstr va max u = .ok ((bs ++ [0], true), u) ↔
      ∀ i, i ≤ bs.length → leaf u.pt ((va + i) / PGSIZE) ≠ none := by
  obtain ⟨-, n, hpassed, hr⟩ := wp_ok (wp_copyin_passed (E := fun _ => False) va _ h) hin
  obtain ⟨hbytes, hlen⟩ := Prod.mk.inj hr
  obtain rfl : n = bs.length + 1 := of_decide_eq_true hlen.symm
  have hiff := copyinstr_iff h hpassed.pass (hbytes ▸ ⟨bs, rfl, hnul⟩) hmax
  rw [hbytes, hiff]
  exact forall_congr' fun i => imp_congr_left Nat.lt_succ_iff

/-- init asks for a page and does not use it. -/
def granted : List Event := started ++ [.call 0 (.sbrk 4096 2) []]

/-- At the start of the page there is an empty string, for `copyin`. -/
theorem granted_run : ∃ k s pt, userinit small = .ok ((), k) ∧ Run Step k granted s ∧
    (s.proc 0).state = .running ∧ (s.proc 0).pagetable = some pt ∧ (s.proc 0).sz = 12288 ∧
    (Vm.copyin 8192 1 (s.user 0 pt none)).map Prod.fst = .ok ([0], true) ∧
    (copyinstr 8192 128 (s.user 0 pt none)).map Prod.fst = .ok ([], false) := by
  obtain ⟨k, s, hboot, hrun, hs⟩ := userinit_of_bootRun small granted (C := fun _ _ => True)
    (f := fun s => ((s.proc 0).state == .running && (s.proc 0).sz == 12288 &&
      (s.proc 0).pagetable.any fun pt =>
        ((Vm.copyin 8192 1 (s.user 0 pt none)).map Prod.fst).toOption == some ([0], true) &&
        ((copyinstr 8192 128 (s.user 0 pt none)).map Prod.fst).toOption == some ([], false)))
    (b := true) (by decide +kernel)
  simp only [Bool.and_eq_true, Option.any_eq_true, beq_iff_eq] at hs
  obtain ⟨⟨hstate, hsz⟩, pt, hpt, hin, hstr⟩ := hs
  exact ⟨k, s, pt, hboot, hrun.of_restrict, hstate, hpt, hsz, ok_of_toOption hin,
    ok_of_toOption hstr⟩

theorem copyinstr_copyin_granted : ∃ kend total A sz u u', UserOk kend total A sz u ∧
    Vm.copyin 8192 1 u = .ok (([0], true), u') ∧ (copyinstr 8192 128 u = .ok (([0], true), u) ↔
      ∀ i, i ≤ 0 → leaf u.pt ((8192 + i) / PGSIZE) ≠ none) := by
  obtain ⟨k, s, pt, hboot, hrun, hstate, hpt, -, hin, -⟩ := granted_run
  obtain ⟨pt', kend, total, A, hpt', hok⟩ := userOk_of_run hboot hrun (by rw [hstate]; decide)
  obtain rfl := Option.some.inj (hpt.symm.trans hpt')
  obtain ⟨u', hu'⟩ := exists_ok_of_map hin
  have hempty : (0 : UInt8) ∉ ([] : List UInt8) := List.not_mem_nil
  exact ⟨kend, total, A, _, _, u', hok, hu', copyinstr_copyin hok hempty (by decide) hu'⟩

/-- **A string in memory that was granted and not touched yet** is not found, though
`copyin` finds it. -/
theorem copyinstr_lazy_fails : ∃ kend total A sz u u', UserOk kend total A sz u ∧
    8192 < sz ∧ Vm.copyin 8192 1 u = .ok (([0], true), u') ∧
    copyinstr 8192 128 u = .ok (([], false), u) := by
  obtain ⟨k, s, pt, hboot, hrun, hstate, hpt, hsz, hin, hstr⟩ := granted_run
  obtain ⟨pt', kend, total, A, hpt', hok⟩ := userOk_of_run hboot hrun (by rw [hstate]; decide)
  obtain rfl := Option.some.inj (hpt.symm.trans hpt')
  obtain ⟨u', hu'⟩ := exists_ok_of_map hin
  obtain ⟨u'', hu''⟩ := exists_ok_of_map hstr
  obtain ⟨rfl, -⟩ := wp_ok (wp_copyinstr (E := fun _ => False) 8192 128 hok) hu''
  exact ⟨kend, total, A, _, _, u', hok, by rw [hsz]; decide, hu', hu''⟩

end Xv6.Kernel
