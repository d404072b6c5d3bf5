import Xv6.Kernel.Conservation
import Xv6.Kernel.UserMemory

/-!
# xv6 — what `sbrk` does

`sys_sbrk` in both modes: what it returns, the new size, what the process sees of its
memory afterwards and which pages it has.

* `wp_sysSbrk`   — refused, with nothing changed, or done.
* `sbrk_exact`   — the same in terms of bytes and pages.
-/

namespace Xv6.Kernel

open Prog Vm TransitionRun

variable {L : Layout} {A : Multiset Nat} {u : Pid → Bool} {k k' : State} {p : Pid} {n t r : Int}

/-! ### Only the memory system can stop it -/

/-- The memory system stopped. -/
def OnlyVm (e : Stop) : Prop := ∃ x, e = .vm x

/-- A program that only the memory system could stop, and that it does not stop, returns. -/
theorem exists_ok_of_vm {α : Type} {m : KM α} {Q : α → State → Prop} (h : wp m Q NotVm k)
    (hvm : Stable OnlyVm (fun _ => True) m) : ∃ a k', m k = .ok (a, k') ∧ Q a k' := by
  cases hrun : m k with
  | ok r => exact ⟨r.1, r.2, rfl, wp_ok h hrun⟩
  | error e =>
    obtain ⟨x, rfl⟩ := wp_error (hvm.wp k trivial) hrun
    exact absurd rfl (wp_error h hrun x)

theorem onlyVm_onMem {α : Type} (m : MemM α) : Stable OnlyVm (fun _ => True) (onMem m) := by
  refine ⟨fun k _ => ?_⟩
  rw [onMem, wp_zoom]
  exact wp_mono (wp_true m k.mem) (fun _ _ _ => trivial) fun e _ => ⟨e, rfl⟩

theorem onlyVm_pagetableOf : Stable OnlyVm (fun _ => True) (pagetableOf p) := by
  refine .bind (.gets _) fun k => ?_
  cases (k.proc p).pagetable with
  | none => exact .stop ⟨.wild, rfl⟩
  | some pt => exact .pure pt

theorem onlyVm_updProc {f : Proc → Proc} : Stable OnlyVm (fun _ => True) (updProc p f) :=
  .modify fun _ _ => trivial

theorem onlyVm_sysSbrk : Stable OnlyVm (fun _ => True) (sysSbrk p n t) := by
  have hgrow : Stable OnlyVm (fun _ => True) (growproc p n) := by
    refine .bind (.gets _) fun k => .ite (.ite (.pure _) ?_) (.ite ?_ (.pure _))
    · refine .bind onlyVm_pagetableOf fun pt => .bind (onlyVm_onMem _) fun x => ?_
      exact .bind onlyVm_updProc fun _ => .ite (.pure _) (.bind onlyVm_updProc fun _ => .pure _)
    · refine .bind onlyVm_pagetableOf fun pt => .bind (onlyVm_onMem _) fun x => ?_
      exact .bind onlyVm_updProc fun _ => .pure _
  refine .bind (.gets _) fun k => .ite (.bind hgrow fun _ => .ite (.pure _) (.pure _)) ?_
  exact .ite (.pure _) (.ite (.pure _) (.bind onlyVm_updProc fun _ => .pure _))

/-! ### Refused or done -/

/-- What `sbrk(n, t)` returns and leaves. What fits is refused only if pages were asked
for at once. -/
inductive Sbrked (p : Pid) (n t : Int) (k : State) (r : Int) (k' : State) : Prop
  | refused : r = -1 → 0 < n → ((k.proc p).sz + n ≤ TRAPFRAME → t = SBRK_EAGER) →
      (k'.proc p).sz = (k.proc p).sz → k'.view p = k.view p → Sbrked p n t k r k'
  | done : r = (k.proc p).sz → (0 < n → (k.proc p).sz + n ≤ TRAPFRAME) →
      (k'.proc p).sz = resized (k.proc p).sz n →
      k'.view p = (k.view p).truncate (npages (k'.proc p).sz) → Sbrked p n t k r k'

theorem Good.sz_le (h : Good L A u k) (hp : u p = false) : (k.proc p).sz ≤ TRAPFRAME := by
  obtain ⟨pt, B, -, hok, -⟩ := h.openUser hp
  exact hok.image.sz_le

theorem wp_sysSbrk (h : Good L A u k) (hp : u p = false) (hn : n < 2 ^ 31) :
    wp (sysSbrk p n t) (fun r k' => Good L A u k' ∧ Aside L p k k' ∧ Sbrked p n t k r k')
      NotVm k := by
  have hsz := h.sz_le hp
  rw [sysSbrk, wp_bind, wp_gets, wp_ite]
  refine ⟨fun hmode => ?_, fun hmode => ?_⟩
  · refine wp_then (wp_growproc h hp) fun ok k' hgrew => ?_
    have hmem := hgrew.memory
    cases ok with
    | true =>
      exact wp_pure.mpr ⟨hgrew.good, hgrew.aside, .done rfl hmem.1 hmem.2.1 hmem.2.2⟩
    | false =>
      obtain ⟨hpos, hsz', hview⟩ := hmem
      exact wp_pure.mpr ⟨hgrew.good, hgrew.aside,
        .refused rfl hpos (fun _ => hmode.resolve_right (by omega)) hsz' hview⟩
  · push Not at hmode
    -- an `int` more does not wrap around
    have hu64 : u64 ((k.proc p).sz + n) = (k.proc p).sz + n.toNat := by
      rw [TRAPFRAME_eq, NUSER_eq, PGSIZE_eq] at hsz
      rw [u64]
      omega
    rw [wp_ite, wp_ite]
    refine ⟨fun hwrap => ?_, fun hwrap => ⟨fun hbig => ?_, fun hle => ?_⟩⟩
    · rw [id, hu64] at hwrap
      omega
    · rw [id, hu64] at hbig
      exact wp_pure.mpr ⟨h, .refl L p k, .refused rfl (by omega) (by omega) rfl rfl⟩
    · refine wp_then (wp_growLazily h hp (Nat.le_of_not_lt hwrap) (Nat.le_of_not_lt hle)) ?_
      rintro _ k' ⟨h', haside, hsz', hview⟩
      refine wp_pure.mpr ⟨h', haside, .done rfl (fun _ => ?_) ?_ hview⟩
      · rw [id, hu64] at hle
        omega
      · rw [hsz', hu64, resized, if_pos hmode.2]

/-! ### Bytes and pages -/

/-- The new size, without wrap-around. -/
theorem resized_eq {sz : Nat} (hsz : sz ≤ TRAPFRAME) (hn : -2 ^ 31 ≤ n) :
    (resized sz n : Int) = if (sz : Int) + n < 0 then (sz : Int) else sz + n := by
  rw [TRAPFRAME_eq, NUSER_eq, PGSIZE_eq] at hsz
  rw [resized, u64]
  split <;> split <;> omega

/-- Beyond its size a process sees zeros. -/
theorem Good.view_beyond (h : Good L A u k) (hp : u p = false) {va : Nat}
    (hva : npages (k.proc p).sz ≤ va / PGSIZE) : (k.view p).byte va = 0 := by
  obtain ⟨pt, B, hpt, hok, -⟩ := h.openUser hp
  have htrunc : (k.view p).truncate (npages (k.proc p).sz) = k.view p := by
    rw [State.view_eq hpt]
    exact truncate_view hok.image le_rfl
  rw [← htrunc]
  exact if_neg (not_lt.mpr hva)

/-- Beyond its size a process has no pages. -/
theorem Good.entry_beyond (h : Good L A u k) (hp : u p = false) {v : Nat}
    (hlo : npages (k.proc p).sz ≤ v) (hhi : v < NUSER) : k.entry p (v * PGSIZE) = none := by
  obtain ⟨pt, B, hpt, hok, -⟩ := h.openUser hp
  rw [State.entry_eq hpt, Nat.mul_div_cancel _ (by decide)]
  exact hok.image.none hlo hhi

/--
**`sbrk` does exactly what it says.** For a process of any whole kernel state, any `int`
and both modes it returns: -1 with size and memory as they were, or the old size, and
then the size is changed by `n` unless that would be negative. Growth beyond the trap
frame is refused; what is below both sizes keeps its value, whole pages that are new are
zero, and no page is mapped beyond the new size.
-/
theorem sbrk_exact (h : Good L A u k) (hp : u p = false) (hn : -2 ^ 31 ≤ n ∧ n < 2 ^ 31) :
    ∃ r k', sysSbrk p n t k = .ok (r, k') ∧ ((r = -1 ∧ (k'.proc p).sz = (k.proc p).sz ∧
          ∀ va, va < (k.proc p).sz → (k'.view p).byte va = (k.view p).byte va) ∨
        (r = (k.proc p).sz ∧ (((k.proc p).sz : Int) + n < 0 ∧ (k'.proc p).sz = (k.proc p).sz ∨
          0 ≤ ((k.proc p).sz : Int) + n ∧ ((k.proc p).sz : Int) + n ≤ TRAPFRAME ∧
            ((k'.proc p).sz : Int) = (k.proc p).sz + n))) ∧
      ((TRAPFRAME : Int) < (k.proc p).sz + n → r = -1) ∧
      (∀ va, va < min (k.proc p).sz (k'.proc p).sz → (k'.view p).byte va = (k.view p).byte va) ∧
      (∀ va, npages (k.proc p).sz ≤ va / PGSIZE → (k'.view p).byte va = 0) ∧
      (∀ v, npages (k'.proc p).sz ≤ v → v < NUSER → k'.entry p (v * PGSIZE) = none) := by
  obtain ⟨r, k', hrun, h', -, hr⟩ := exists_ok_of_vm (wp_sysSbrk h hp hn.2) onlyVm_sysSbrk
  have hsz := h.sz_le hp
  refine ⟨r, k', hrun, ?_⟩
  have hpages : ∀ v, npages (k'.proc p).sz ≤ v → v < NUSER → k'.entry p (v * PGSIZE) = none :=
    fun v hlo hhi => h'.entry_beyond hp hlo hhi
  cases hr with
  | refused hr _ _ hsz' hview =>
    rw [hview]
    exact ⟨.inl ⟨hr, hsz', fun _ _ => rfl⟩, fun _ => hr, fun _ _ => rfl,
      fun va hva => h.view_beyond hp hva, hpages⟩
  | done hr hfits hsz' hview =>
    have hnew := resized_eq hsz hn.1
    rw [← hsz'] at hnew
    refine ⟨.inr ⟨hr, ?_⟩, fun hbig => ?_, fun va hva => ?_, fun va hva => ?_, hpages⟩
    · split at hnew
      · exact .inl ⟨by assumption, by omega⟩
      · exact .inr ⟨by omega, by by_cases hpos : 0 < n <;> omega, hnew⟩
    · have hpos : 0 < n := by omega
      have := hfits hpos
      omega
    · rw [hview]
      exact if_pos (lt_npages (by omega))
    · rw [hview, View.truncate]
      dsimp only
      rw [h.view_beyond hp hva, ite_self]

/-- init grows by a page and a half. -/
theorem sbrk_exact_init : ∃ L A u k, Good L A u k ∧ u 0 = false ∧
    ∃ r k', sysSbrk 0 6000 1 k = .ok (r, k') ∧ r = 8192 ∧ (k'.proc 0).sz = 14192 ∧
      ∀ v, npages (k'.proc 0).sz ≤ v → v < NUSER → k'.entry 0 (v * PGSIZE) = none := by
  obtain ⟨k, s, hboot, hrun, hs⟩ := userinit_of_bootRun small [.dispatch 0 []]
    (C := fun _ _ => True)
    (f := fun s => ((s.proc 0).state, ((sysSbrk 0 6000 1 s).map fun x =>
      (x.1, (x.2.proc 0).sz)).toOption))
    (b := (.running, some (8192, 14192))) (by decide +kernel)
  simp only [Prod.mk.injEq] at hs
  obtain ⟨u1, h1⟩ := wp_ok (wp_userinit_pages (fresh_small.good bootMem_small)) hboot
  obtain ⟨u, h⟩ := good_run h1 hrun.of_restrict
  have hp : u 0 = false := h.used (by rw [hs.1]; decide)
  obtain ⟨r, k', hok, -, -, -, -, hpages⟩ := sbrk_exact (n := 6000) h hp (by decide)
  have hres := ok_of_toOption hs.2
  rw [hok] at hres
  obtain ⟨hr, hsz⟩ := Prod.mk.inj (Except.ok.inj hres)
  exact ⟨_, _, u, s, h, hp, r, k', hok, hr, hsz, hpages⟩

end Xv6.Kernel
