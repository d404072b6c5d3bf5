import Xv6.Vm.Space

/-!
# xv6 — what user code sees of its memory

The view of an address space: the byte behind each user address, and what user
code may do with each page. A page of a process's memory that is not mapped yet
is filled with zeros and gets the permissions of data when it is touched, so
that is what the view shows for it.

The changes of the page map that the rules of `Xv6.Vm.Space` describe are read
here as changes of the view: mapping a zeroed page, growing and copying leave it
alone, shrinking cuts it off, and a store to a page stores to the view.
-/

namespace Xv6.Vm

open PartialMap ByteBuffer Function

variable {sz v : Nat}

/-- The permissions of a page of data. -/
def Perm.data : Perm := ⟨true, false, true⟩

/-- The byte at offset `o` of the page of an entry. -/
def look (m : Mem) (e : Option Pte) (o : Nat) : UInt8 := e.elim 0 fun pte => m.byte (pte.pa + o)

/-- What an entry allows. -/
def allow (e : Option Pte) : Perm := e.elim .data Pte.perm

/-- The entry of a user page; the trap frame and the trampoline are not for user
code. -/
def userEntry (f : Nat → Option Pte) (v : Nat) : Option Pte := if v < NUSER then f v else none

/-- What user code sees: the byte at each address, the permissions of each page. -/
@[ext] structure View where
  byte : Buffer
  perm : Nat → Perm

/-- The view of a map. -/
def view (m : Mem) (f : Nat → Option Pte) : View where
  byte va := look m (userEntry f (va / PGSIZE)) (va % PGSIZE)
  perm v := allow (userEntry f v)

/-- The view from page number `n` on is that of memory never touched. -/
def View.truncate (V : View) (n : Nat) : View where
  byte va := if va / PGSIZE < n then V.byte va else 0
  perm v := if v < n then V.perm v else .data

/-- Store bytes. -/
def View.store (V : View) (va : Nat) (bs : List UInt8) : View :=
  { V with byte := ByteBuffer.store V.byte va bs }

@[simp] theorem View.store_nil (V : View) (va : Nat) : V.store va [] = V := by
  rw [View.store, ByteBuffer.store_nil]

theorem View.store_append (V : View) (va : Nat) (bs cs : List UInt8) :
    (V.store va bs).store (va + bs.length) cs = V.store va (bs ++ cs) := by
  simp only [View.store, ByteBuffer.store_append]

variable {m m' : Mem} {f f' : Nat → Option Pte}

theorem userEntry_of_lt (h : v < NUSER) : userEntry f v = f v := if_pos h

/-- Views are equal if every user page looks the same. -/
theorem view_eq (hperm : ∀ v, v < NUSER → allow (f' v) = allow (f v))
    (hbyte : ∀ v o, v < NUSER → o < PGSIZE → look m' (f' v) o = look m (f v) o) :
    view m' f' = view m f := by
  refine View.ext (funext fun va => ?_) (funext fun v => ?_)
  · simp only [view, userEntry]
    split
    · rename_i hv
      exact hbyte _ _ hv (Nat.mod_lt _ (by decide))
    · rfl
  · simp only [view, userEntry]
    split
    · rename_i hv
      exact hperm _ hv
    · rfl

theorem look_same {e : Option Pte} (h : ∀ pte, e = some pte → SamePage m m' pte.pa) {o : Nat}
    (ho : o < PGSIZE) : look m' e o = look m e o := by
  cases e with
  | none => rfl
  | some pte => exact h pte rfl o ho

/-- Memory that holds the same in the pages of the map. -/
theorem view_same (h : ∀ q ∈ frames f, SamePage m m' q) : view m' f = view m f :=
  view_eq (fun _ _ => rfl) fun _ _ hv ho =>
    look_same (fun _ hpte => h _ (mem_frames hv hpte)) ho

/-- A zeroed page looks like one that is not there. -/
theorem look_filled (pte : Pte) (h : Filled m pte.pa 0) {o : Nat} (ho : o < PGSIZE) :
    look m (some pte) o = 0 := h o ho

/-- A zeroed page of data is mapped. -/
theorem view_fault {pa : Nat} (hv : f v = none) (hfill : Filled m' pa 0)
    (hsame : ∀ q ∈ frames f, SamePage m m' q) :
    view m' (update f v (some ⟨pa, .data⟩)) = view m f := by
  refine view_eq (fun w _ => ?_) fun w o hw ho => ?_
  · by_cases hwv : w = v
    · rw [hwv, update_self, hv]
      rfl
    · rw [update_of_ne hwv]
  · by_cases hwv : w = v
    · rw [hwv, update_self, hv]
      exact look_filled ⟨pa, .data⟩ hfill ho
    · rw [update_of_ne hwv]
      exact look_same (fun _ hpte => hsame _ (mem_frames hw hpte)) ho

/-- Growth adds zeroed pages of data, where nothing was. -/
theorem view_grown {a b : Nat} (hgrown : Grown .data f a b f')
    (hnone : ∀ v, a ≤ v → v < NUSER → f v = none) (hzero : Zeroed m' f' a b)
    (hsame : ∀ q ∈ frames f, SamePage m m' q) : view m' f' = view m f := by
  refine view_eq (fun v hv => ?_) fun v o hv ho => ?_
  · by_cases hin : a ≤ v ∧ v < b
    · obtain ⟨pa, -, hpa⟩ := hgrown.new v hin.1 hin.2
      rw [hpa, hnone v hin.1 hv]
      rfl
    · rw [hgrown.old v (by omega)]
  · by_cases hin : a ≤ v ∧ v < b
    · obtain ⟨pa, -, hpa⟩ := hgrown.new v hin.1 hin.2
      rw [hpa, hnone v hin.1 hv]
      exact look_filled _ (hzero v _ hin.1 hin.2 hpa) ho
    · rw [hgrown.old v (by omega)]
      exact look_same (fun _ hpte => hsame _ (mem_frames hv hpte)) ho

theorem CopyOf.looks {e e' : Option Pte} (h : CopyOf m m' e e') :
    allow e' = allow e ∧ ∀ o, o < PGSIZE → look m' e' o = look m e o := by
  cases e with
  | none =>
    rw [show e' = none from h]
    exact ⟨rfl, fun _ _ => rfl⟩
  | some pte =>
    obtain ⟨pa, rfl, hbytes⟩ := h
    exact ⟨rfl, hbytes⟩

/-- A copy looks like the original. -/
theorem view_copied (h : Copied m m' f f' (npages sz)) (himage : Image f sz)
    (himage' : Image f' sz) : view m' f' = view m f := by
  have hlooks : ∀ v, v < NUSER →
      allow (f' v) = allow (f v) ∧ ∀ o, o < PGSIZE → look m' (f' v) o = look m (f v) o := by
    intro v hv
    by_cases hlt : v < npages sz
    · exact (h v hlt).looks
    · rw [himage.none (by omega) hv, himage'.none (by omega) hv]
      exact ⟨rfl, fun _ _ => rfl⟩
  exact view_eq (fun v hv => (hlooks v hv).1) fun v o hv ho => (hlooks v hv).2 o ho

/-- Shrinking cuts the view off. -/
theorem view_clear {newsz : Nat} (himage : Image f sz)
    (hsame : ∀ q ∈ frames (clear f (npages newsz) (npages sz)), SamePage m m' q)
    (hle : newsz ≤ sz) :
    view m' (clear f (npages newsz) (npages sz)) = (view m f).truncate (npages newsz) := by
  have hmono := npages_mono hle
  have hentry : ∀ v, userEntry (clear f (npages newsz) (npages sz)) v =
      if v < npages newsz then userEntry f v else none := by
    intro v
    simp only [userEntry, clear]
    by_cases hv : v < NUSER
    · by_cases hlt : v < npages newsz
      · rw [if_pos hv, if_pos hlt, if_pos hv, if_neg (by omega)]
      · rw [if_pos hv]
        split
        · rfl
        · exact himage.none (by omega) hv
    · simp [hv]
  rw [view_same hsame]
  refine View.ext (funext fun va => ?_) (funext fun v => ?_)
  · simp only [view, View.truncate, hentry]
    split <;> rfl
  · simp only [view, View.truncate, hentry]
    split <;> rfl

/-- The view of a memory does not reach beyond it. -/
theorem truncate_view {n : Nat} (himage : Image f sz) (hn : npages sz ≤ n) :
    (view m f).truncate n = view m f := by
  have hentry : ∀ v, ¬ v < n → userEntry f v = none := by
    intro v hv
    rw [userEntry]
    split
    · exact himage.none (by omega) ‹_›
    · rfl
  refine View.ext (funext fun va => ?_) (funext fun v => ?_)
  · simp only [view, View.truncate]
    split
    · rfl
    · rw [hentry _ ‹_›]
      rfl
  · simp only [view, View.truncate]
    split
    · rfl
    · rw [hentry _ ‹_›]
      rfl

/-- **A store to a page** of the map is a store to the view. -/
theorem view_store {off : Nat} {pte : Pte} {bs : List UInt8} (hnodup : (frames f).Nodup)
    (halign : ∀ q ∈ frames f, q % PGSIZE = 0) (hv : v < NUSER) (hpte : f v = some pte)
    (hlen : off + bs.length ≤ PGSIZE) :
    view { m with byte := ByteBuffer.store m.byte (pte.pa + off) bs } f =
      (view m f).store (v * PGSIZE + off) bs := by
  refine View.ext (funext fun va => ?_) rfl
  simp only [view, View.store]
  by_cases hva : va / PGSIZE = v
  · -- the same page: the same offset on both sides
    have hsplit : va = v * PGSIZE + va % PGSIZE := by
      rw [← hva, PGSIZE_eq]
      omega
    simp only [look, Option.elim_some, ByteBuffer.store, hva, userEntry_of_lt hv, hpte]
    have hle : pte.pa + off ≤ pte.pa + va % PGSIZE ↔ v * PGSIZE + off ≤ va := by omega
    have hidx : pte.pa + va % PGSIZE - (pte.pa + off) = va - (v * PGSIZE + off) := by omega
    simp only [hle, hidx]
  · have hout : ¬ (v * PGSIZE + off ≤ va ∧ va < v * PGSIZE + off + bs.length) := by
      rw [PGSIZE_eq] at hva hlen ⊢
      omega
    rw [store_of_outside hout]
    refine look_same (fun pte' hpte' => ?_) (Nat.mod_lt _ (by decide))
    rw [userEntry] at hpte'
    split at hpte'
    · rename_i hlt
      have hne : pte'.pa ≠ pte.pa := by
        intro heq
        refine hva (eq_of_nodup_values hnodup hlt hv ?_ ?_ (x := pte.pa))
        · rw [hpte', ← heq]
          rfl
        · rw [hpte]
          rfl
      have ha := halign _ (mem_frames hlt hpte')
      have ha' := halign _ (mem_frames hv hpte)
      refine fun o ho => store_of_outside ?_
      rw [PGSIZE_eq] at ha ha' ho hlen
      omega
    · cases hpte'

/-- Loading from a page is loading from the view. -/
theorem load_view {off n : Nat} {pte : Pte} (hv : v < NUSER) (hpte : f v = some pte)
    (hlen : off + n ≤ PGSIZE) :
    load m.byte (pte.pa + off) n = load (view m f).byte (v * PGSIZE + off) n := by
  refine load_congr fun i hi => ?_
  have hdiv : (v * PGSIZE + off + i) / PGSIZE = v := by
    rw [PGSIZE_eq] at hlen ⊢
    omega
  have hmod : (v * PGSIZE + off + i) % PGSIZE = off + i := by
    rw [PGSIZE_eq] at hlen ⊢
    omega
  simp only [view, hdiv, hmod, userEntry_of_lt hv, hpte, look, Option.elim_some]
  rw [Nat.add_assoc]

/-! ### How far a copy gets -/

/-- How many of the `n` addresses from `a` on come before the first one that does
not satisfy `P`. -/
def reach (P : Nat → Bool) : Nat → Nat → Nat
  | _, 0 => 0
  | a, n + 1 => if P a then reach P (a + 1) n + 1 else 0

variable {P : Nat → Bool}

theorem reach_of_not {a : Nat} (h : P a = false) (n : Nat) : reach P a n = 0 := by
  cases n with
  | zero => rfl
  | succ n => simp [reach, h]

/-- Addresses that satisfy `P` are passed. -/
theorem reach_add {a n k : Nat} (h : ∀ i, i < k → P (a + i) = true) (hk : k ≤ n) :
    reach P a n = k + reach P (a + k) (n - k) := by
  induction k generalizing a n with
  | zero => simp
  | succ k ih =>
    obtain ⟨n, rfl⟩ := Nat.exists_eq_add_of_le' (Nat.le_of_add_left_le hk)
    have hrest : ∀ i, i < k → P (a + 1 + i) = true := fun i hi => by
      rw [Nat.add_assoc, Nat.add_comm 1]
      exact h (i + 1) (by omega)
    rw [reach, if_pos (by simpa using h 0 (by omega)), ih hrest (by omega),
      show a + 1 + k = a + (k + 1) by omega, show n + 1 - (k + 1) = n - k by omega]
    omega

/-- The address lies in memory and is readable. -/
def View.readable (V : View) (sz va : Nat) : Bool :=
  decide (pgRoundDown va < sz) && (V.perm (va / PGSIZE)).u

/-- The address lies in memory and is writable. -/
def View.writable (V : View) (sz va : Nat) : Bool :=
  V.readable sz va && (V.perm (va / PGSIZE)).w

/-- These depend on the page only. -/
theorem View.readable_congr (V : View) {va va' : Nat} (h : va / PGSIZE = va' / PGSIZE) :
    V.readable sz va = V.readable sz va' := by
  rw [View.readable, View.readable, pgRoundDown, pgRoundDown, h]

theorem View.writable_congr (V : View) {va va' : Nat} (h : va / PGSIZE = va' / PGSIZE) :
    V.writable sz va = V.writable sz va' := by
  rw [View.writable, View.writable, V.readable_congr h, h]

end Xv6.Vm
