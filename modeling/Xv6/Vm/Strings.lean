import Xv6.Vm.Copy

/-!
# xv6 — strings fetched from user memory

`copyinstr` fetches bytes up to a NUL. It goes through the pages like `copyin`, but
looks only at those that are mapped (`Backed`).

* `wp_copyinstr`      — what it fetches, and where it stops.
* `copyinstr_iff`     — it fetches the string that `copyin` fetches, exactly if all
  pages of the string are mapped already.
-/

namespace Xv6.Vm

open Prog ByteBuffer List

variable {b : Buffer} {va : Nat} {l : List UInt8}

/-! ### The inner loop -/

/-- `l` is a string with its NUL. -/
def IsString (l : List UInt8) : Prop := ∃ bs, l = bs ++ [0] ∧ 0 ∉ bs

theorem untilNul_true (h : (untilNul l).2 = true) :
    IsString (untilNul l).1 ∧ (untilNul l).1 <+: l := by
  induction l with
  | nil => cases h
  | cons b l ih =>
    rw [untilNul] at h ⊢
    split at h
    · rename_i hb
      rw [hb]
      exact ⟨⟨[], rfl, not_mem_nil⟩, ⟨l, rfl⟩⟩
    · rename_i hb
      obtain ⟨⟨bs, heq, hbs⟩, hpre⟩ := ih h
      rw [if_neg hb]
      refine ⟨⟨b :: bs, ?_, ?_⟩, (prefix_cons_inj b).mpr hpre⟩
      · exact congrArg (b :: ·) heq
      · exact not_mem_cons_of_ne_of_not_mem (Ne.symm hb) hbs

theorem untilNul_false (h : (untilNul l).2 = false) : (untilNul l).1 = l ∧ 0 ∉ l := by
  induction l with
  | nil => exact ⟨rfl, not_mem_nil⟩
  | cons b l ih =>
    rw [untilNul] at h ⊢
    split at h
    · cases h
    · rename_i hb
      obtain ⟨heq, hl⟩ := ih h
      rw [if_neg hb]
      exact ⟨congrArg (b :: ·) heq, not_mem_cons_of_ne_of_not_mem (Ne.symm hb) hl⟩

/-- A string ends at its first NUL. -/
theorem IsString.eq_of_initial {l' : List UInt8} (h : IsString l) (h' : IsString l')
    (hpre : l <+: l') : l = l' := by
  obtain ⟨bs, rfl, -⟩ := h
  obtain ⟨cs, rfl, hcs⟩ := h'
  rcases prefix_concat_iff.mp hpre with heq | hpre
  · exact heq
  · exact absurd (hpre.subset (mem_append_right bs (mem_singleton_self 0))) hcs

theorem load_initial {o n n' : Nat} (h : n ≤ n') : load b o n <+: load b o n' := by
  obtain ⟨k, rfl⟩ := Nat.exists_eq_add_of_le h
  exact ⟨_, (load_add b o n k).symm⟩

/-- The string at an address is unique. -/
theorem IsString.load_eq {o n n' : Nat} (h : IsString (load b o n)) (h' : IsString (load b o n')) :
    n = n' := by
  have heq : load b o n = load b o n' := by
    rcases Nat.le_total n n' with hle | hle
    · exact h.eq_of_initial h' (load_initial hle)
    · exact (h'.eq_of_initial h (load_initial hle)).symm
  rw [← length_load b o n, heq, length_load]

/-- A prefix of what is loaded is loaded. -/
theorem eq_load_of_prefix {o n : Nat} (h : l <+: load b o n) :
    l = load b o l.length ∧ l.length ≤ n := by
  have hle := h.length_le
  rw [length_load] at hle
  exact ⟨(prefix_of_prefix_length_le h (load_initial hle)
    (by rw [length_load])).eq_of_length (by rw [length_load]), hle⟩

/-! ### The outer loop -/

variable {kend total sz : Nat} {A : Multiset Nat} {E : Panic → Prop} {u : User}

/-- The page of the address is mapped for user code. -/
def Backed (u : User) (va : Nat) : Prop := walkaddr u.table (pgRoundDown va) ≠ 0

/-- What `copyinstr` fetches: `n` bytes of mapped pages, a string if it succeeds; if
not, there is no NUL up to the bound or to a page that is not mapped. -/
structure Fetched (u : User) (srcva max : Nat) (r : List UInt8 × Bool) (n : Nat) : Prop where
  le : n ≤ max
  bytes : r.1 = load u.view.byte srcva n
  backed : ∀ i, i < n → Backed u (srcva + i)
  isString : r.2 = true → IsString r.1
  failed : r.2 = false → 0 ∉ r.1 ∧ (n = max ∨ ¬ Backed u (srcva + n))

/-- What is behind a mapped page is what the process sees. -/
theorem UserOk.leaf_of_backed (h : UserOk kend total A sz u) (hva : Backed u va) :
    va / PGSIZE < NUSER ∧
      ∃ pte, leaf u.pt (va / PGSIZE) = some pte ∧ pte.pa = walkaddr u.table (pgRoundDown va) := by
  rw [Backed, h.table] at hva
  obtain ⟨-, pte, hleaf, hu, hpa⟩ := walkaddr_ne_zero hva
  rw [pgRoundDown_div] at hleaf
  exact ⟨(h.image.user hleaf hu).2, pte, hleaf, by rw [h.table, hpa]⟩

theorem wp_copyinstrLoop (fuel srcva max : Nat) (hfuel : max ≤ fuel)
    (h : UserOk kend total A sz u) :
    wp (copyinstrLoop fuel srcva max) (fun r u' => u' = u ∧ ∃ n, Fetched u srcva max r n) E u := by
  induction fuel generalizing srcva max with
  | zero =>
    obtain rfl := Nat.le_zero.mp hfuel
    exact wp_pure.mpr ⟨rfl, 0, le_rfl, rfl, nofun, nofun, fun _ => ⟨not_mem_nil, .inl rfl⟩⟩
  | succ fuel ih =>
    rw [copyinstrLoop, wp_ite]
    refine ⟨fun hmax => ?_, fun hmax => ?_⟩
    · subst hmax
      exact wp_pure.mpr ⟨rfl, 0, le_rfl, rfl, nofun, nofun, fun _ => ⟨not_mem_nil, .inl rfl⟩⟩
    have hpos : 0 < max := Nat.pos_of_ne_zero hmax
    dsimp only
    rw [wp_bind, wp_gets, wp_ite]
    refine ⟨fun hpa => wp_pure.mpr ?_, fun hpa => ?_⟩
    · exact ⟨rfl, 0, Nat.zero_le _, rfl, nofun, nofun,
        fun _ => ⟨not_mem_nil, .inr fun hno => hno hpa⟩⟩
    obtain ⟨hlt, pte, hleaf, hpte⟩ := h.leaf_of_backed hpa
    obtain ⟨n, hn⟩ : ∃ n, n = min (PGSIZE - (srcva - srcva / PGSIZE * PGSIZE)) max := ⟨_, rfl⟩
    obtain ⟨hoff, hnpos, hle, hfit, hsame, hnext⟩ := page_part hpos hn
    have hbacked : ∀ i, i < n → Backed u (srcva + i) := by
      intro i hi
      rw [Backed, pgRoundDown_eq, hsame i hi]
      exact hpa
    have hload := load_view (m := u.mem) hlt hleaf hfit
    rw [hoff, hpte] at hload
    change _ = load u.view.byte srcva n at hload
    rw [pgRoundDown_eq] at hload ⊢
    rw [id, ← hn, hload]
    cases hgot : (untilNul (load u.view.byte srcva n)).2 with
    | true =>
      obtain ⟨hstring, hpre⟩ := untilNul_true hgot
      obtain ⟨hbytes, hlen⟩ := eq_load_of_prefix hpre
      refine wp_pure.mpr ⟨rfl, _, hlen.trans hle, hbytes, fun i hi => hbacked i (by omega),
        fun _ => hstring, nofun⟩
    | false =>
      obtain ⟨heq, hnul⟩ := untilNul_false hgot
      rw [if_neg Bool.false_ne_true, wp_bind, heq]
      refine wp_imp (ih _ (max - n) (by omega)) ?_
      rintro ⟨rest, got⟩ u' ⟨rfl, k, hk⟩
      refine wp_pure.mpr ⟨rfl, n + k, ?_⟩
      rcases hnext with hall | hnext
      · -- all bytes that may be fetched have been looked at
        obtain rfl : k = 0 := by
          have := hk.le
          omega
        have hrest : rest = [] := hk.bytes
        subst hrest
        rw [append_nil]
        refine ⟨hle, rfl, hbacked, fun hstring => ?_, fun _ => ⟨hnul, .inl hall⟩⟩
        obtain ⟨bs, hbs, -⟩ := hk.isString hstring
        exact absurd hbs (by simp)
      · rw [hnext] at hk
        have hbytes : rest = load u'.view.byte (srcva + n) k := hk.bytes
        refine ⟨?_, ?_, fun i hi => ?_, fun hstring => ?_, fun hfail => ?_⟩
        · have := hk.le
          omega
        · change _ ++ rest = _
          rw [hbytes, load_add]
        · by_cases hin : i < n
          · exact hbacked i hin
          · have := hk.backed (i - n) (by omega)
            rwa [Nat.add_assoc, Nat.add_sub_cancel' (by omega)] at this
        · obtain ⟨bs, hbs, hbs0⟩ := hk.isString hstring
          refine ⟨load u'.view.byte srcva n ++ bs, ?_, ?_⟩
          · change _ ++ rest = _
            rw [show rest = bs ++ [0] from hbs, append_assoc]
          · exact fun hmem => (mem_append.mp hmem).elim hnul hbs0
        · obtain ⟨hno, hwhy⟩ := hk.failed hfail
          refine ⟨fun hmem => (mem_append.mp hmem).elim hnul hno, ?_⟩
          rw [← Nat.add_assoc]
          exact hwhy.imp_left fun hk => by omega

/-- **`copyinstr`** fetches a string of mapped pages, within the bound. -/
theorem wp_copyinstr (srcva max : Nat) (h : UserOk kend total A sz u) :
    wp (copyinstr srcva max) (fun r u' => u' = u ∧ ∃ n, Fetched u srcva max r n) E u :=
  wp_copyinstrLoop max srcva max le_rfl h

/-- A mapped page that the process may read is found. -/
theorem UserOk.backed_iff (h : UserOk kend total A sz u) (hva : u.view.readable sz va = true) :
    Backed u va ↔ leaf u.pt (va / PGSIZE) ≠ none := by
  refine ⟨fun hb => ?_, fun hleaf => ?_⟩
  · obtain ⟨-, pte, hpte, -⟩ := h.leaf_of_backed hb
    rw [hpte]
    exact Option.some_ne_none pte
  · obtain ⟨pte, hpte⟩ := Option.ne_none_iff_exists'.mp hleaf
    rw [View.readable, Bool.and_eq_true, decide_eq_true_eq] at hva
    have hlt := (h.page_lt hva.1).2
    rw [view_perm_of_leaf hlt hpte] at hva
    rw [Backed, h.table, pgRoundDown_eq, walkaddr_of_leaf (by omega) hpte hva.2]
    exact h.own.free_frame.ne_zero (Multiset.mem_add.mpr
      (.inl (Multiset.mem_add.mpr (.inr (mem_frames hlt hpte)))))

/-- `copyinstr` of a string that the process can read. -/
theorem copyinstr_iff {max n : Nat} (h : UserOk kend total A sz u)
    (hread : ∀ i, i < n → u.view.readable sz (va + i) = true)
    (hstring : IsString (load u.view.byte va n)) (hn : n ≤ max) :
    copyinstr va max u = .ok ((load u.view.byte va n, true), u) ↔
      ∀ i, i < n → leaf u.pt ((va + i) / PGSIZE) ≠ none := by
  obtain ⟨r, u', hrun, rfl, k, hk⟩ := exists_ok_of_wp (wp_copyinstr va max h)
  rw [hrun]
  constructor
  · intro heq i hi
    obtain ⟨rfl, -⟩ := Prod.mk.inj (Except.ok.inj heq)
    have hkn : n = k := by
      have hlen := congrArg length hk.bytes
      rwa [length_load, length_load] at hlen
    exact (h.backed_iff (hread i hi)).mp (hk.backed i (hkn ▸ hi))
  · intro hmapped
    have hbacked : ∀ i, i < n → Backed u' (va + i) :=
      fun i hi => (h.backed_iff (hread i hi)).mpr (hmapped i hi)
    obtain ⟨bs, ok⟩ := r
    cases ok with
    | true =>
      have hs := hk.isString rfl
      have hbytes := hk.bytes
      dsimp only at hs hbytes
      rw [hbytes] at hs
      rw [hbytes, hs.load_eq hstring]
    | false =>
      -- it would have stopped before the NUL, but there is no reason to
      obtain ⟨hno, hwhy⟩ := hk.failed rfl
      have hbytes := hk.bytes
      exfalso
      have hlt : k < n := by
        by_contra hge
        obtain ⟨cs, hcs, -⟩ := hstring
        have hmem : (0 : UInt8) ∈ load u'.view.byte va n := by
          rw [hcs]
          exact mem_append_right cs (mem_singleton_self 0)
        exact hno (hbytes ▸ (load_initial (Nat.le_of_not_lt hge)).subset hmem)
      exact hwhy.elim (by omega) fun hb => hb (hbacked k hlt)

end Xv6.Vm
