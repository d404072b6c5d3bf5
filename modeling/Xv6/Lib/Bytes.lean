import Mathlib.Algebra.Order.Ring.Nat
import Mathlib.Logic.Function.Basic

/-!
# Little-endian fields in a buffer of bytes

A buffer is a function from byte offsets to bytes. `le16` and `le32` read an
unsigned field at an offset, `put16` and `put32` store one (reduced modulo
the field's width). Reading back what was stored, and reading a field that
does not overlap the one stored, are the only two facts a layout needs. Fields
of other widths are read by `leField` and stored as a list of bytes.
-/

namespace ByteBuffer

open List

/-- A buffer of bytes, by offset. -/
abbrev Buffer := Nat → UInt8

/-- The unsigned 16-bit field at offset `o`. -/
def le16 (b : Buffer) (o : Nat) : Nat :=
  (b o).toNat + 256 * (b (o + 1)).toNat

/-- The unsigned 32-bit field at offset `o`. -/
def le32 (b : Buffer) (o : Nat) : Nat :=
  le16 b o + 65536 * le16 b (o + 2)

/-- Store a 16-bit field at offset `o`. -/
def put16 (b : Buffer) (o v : Nat) : Buffer :=
  fun k => if k = o then UInt8.ofNat v else
    if k = o + 1 then UInt8.ofNat (v / 256) else b k

/-- Store a 32-bit field at offset `o`. -/
def put32 (b : Buffer) (o v : Nat) : Buffer :=
  put16 (put16 b o v) (o + 2) (v / 65536)

/-- The low `k` bytes of a number, lowest first. -/
def leBytes : Nat → Nat → List UInt8
  | 0, _ => []
  | k + 1, v => UInt8.ofNat v :: leBytes k (v / 256)

/-- The number whose bytes, lowest first, are the `k` bytes at offset `o`. -/
def leField (b : Buffer) (o : Nat) : Nat → Nat
  | 0 => 0
  | k + 1 => (b o).toNat + 256 * leField b (o + 1) k

/-- The `n` bytes from offset `o` on. -/
def load (b : Buffer) (o n : Nat) : List UInt8 :=
  (List.range n).map fun i => b (o + i)

/-- Store the bytes `bs` from offset `o` on. -/
def store (b : Buffer) (o : Nat) (bs : List UInt8) : Buffer :=
  fun k => if o ≤ k then (bs[k - o]?).getD (b k) else b k

/-- Set `n` bytes from offset `o` on to `v`. -/
def fill (b : Buffer) (o n : Nat) (v : UInt8) : Buffer :=
  fun k => if o ≤ k ∧ k < o + n then v else b k

/-- Copy `n` bytes from offset `src` to offset `dst`. -/
def move (b : Buffer) (dst src n : Nat) : Buffer :=
  fun k => if dst ≤ k ∧ k < dst + n then b (src + (k - dst)) else b k

variable {b b' : Buffer} {k n o o' : Nat} {bs : List UInt8}

theorem put16_of_ne {v : Nat} (h0 : k ≠ o) (h1 : k ≠ o + 1) : put16 b o v k = b k := by
  simp [put16, h0, h1]

theorem le16_put16 (b : Buffer) (o v : Nat) : le16 (put16 b o v) o = v % 65536 := by
  simp only [le16, put16, if_true, Nat.succ_ne_self, if_false, UInt8.toNat_ofNat']
  omega

theorem le16_put16_of_disjoint {v : Nat} (h : o + 2 ≤ o' ∨ o' + 2 ≤ o) :
    le16 (put16 b o v) o' = le16 b o' := by
  unfold le16
  rw [put16_of_ne (by omega) (by omega), put16_of_ne (by omega) (by omega)]

/-- Reading back a stored field. -/
theorem le32_put32 (b : Buffer) (o v : Nat) : le32 (put32 b o v) o = v % 4294967296 := by
  unfold le32 put32
  rw [le16_put16_of_disjoint (by omega), le16_put16, le16_put16]
  omega

/-- Reading a field that does not overlap the one stored. -/
theorem le32_put32_of_disjoint {v : Nat} (h : o + 4 ≤ o' ∨ o' + 4 ≤ o) :
    le32 (put32 b o v) o' = le32 b o' := by
  unfold le32 put32
  rw [le16_put16_of_disjoint (by omega), le16_put16_of_disjoint (by omega),
    le16_put16_of_disjoint (by omega), le16_put16_of_disjoint (by omega)]

/-! ### Ranges of bytes -/

theorem length_leBytes (k v : Nat) : (leBytes k v).length = k := by
  induction k generalizing v with
  | zero => rfl
  | succ k ih => rw [leBytes, length_cons, ih]

theorem length_load (b : Buffer) (o n : Nat) : (load b o n).length = n := by simp [load]

theorem fill_of_outside {v : UInt8} (h : ¬ (o ≤ k ∧ k < o + n)) : fill b o n v k = b k := if_neg h

theorem move_of_outside {dst src : Nat} (h : ¬ (dst ≤ k ∧ k < dst + n)) :
    move b dst src n k = b k := if_neg h

theorem store_of_outside (h : ¬ (o ≤ k ∧ k < o + bs.length)) : store b o bs k = b k := by
  unfold store
  split
  · rw [getElem?_eq_none (by omega)]
    rfl
  · rfl

/-- What is stored covers what was there. -/
theorem store_congr (h : ¬ (o ≤ k ∧ k < o + bs.length) → b k = b' k) :
    store b o bs k = store b' o bs k := by
  by_cases hk : o ≤ k ∧ k < o + bs.length
  · obtain ⟨i, rfl⟩ := Nat.exists_eq_add_of_le hk.1
    rw [store, store, if_pos hk.1, if_pos hk.1,
      getElem?_eq_getElem (by omega)]
    rfl
  · rw [store_of_outside hk, store_of_outside hk]
    exact h hk

@[simp] theorem store_nil (b : Buffer) (o : Nat) : store b o [] = b := by
  funext k
  exact store_of_outside (by simp)

/-- Storing one byte. -/
theorem store_singleton (b : Buffer) (o : Nat) (v : UInt8) :
    store b o [v] = Function.update b o v := by
  funext k
  by_cases hk : k = o
  · subst hk
    simp [store]
  · rw [Function.update_of_ne hk]
    exact store_of_outside (by simp only [length_singleton]; omega)

/-- What is read at an offset inside the bytes stored. -/
theorem store_of_inside {i : Nat} (h : i < bs.length) : store b o bs (o + i) = bs[i] := by
  simp [store, h]

/-- Storing a list in two parts. -/
theorem store_append (b : Buffer) (o : Nat) (bs cs : List UInt8) :
    store (store b o bs) (o + bs.length) cs = store b o (bs ++ cs) := by
  funext k
  by_cases hlo : o ≤ k ∧ k < o + bs.length
  · obtain ⟨i, rfl⟩ := Nat.exists_eq_add_of_le hlo.1
    rw [store_of_outside (by omega), store_of_inside (by omega), store_of_inside (by simp; omega),
      getElem_append_left]
  · by_cases hhi : o + bs.length ≤ k ∧ k < o + bs.length + cs.length
    · obtain ⟨i, rfl⟩ := Nat.exists_eq_add_of_le hhi.1
      rw [store_of_inside (by omega), Nat.add_assoc, store_of_inside (by simp; omega)]
      simp
    · rw [store_of_outside (by omega), store_of_outside hlo, store_of_outside]
      rw [length_append]
      omega

/-- Loading in two parts. -/
theorem load_add (b : Buffer) (o n k : Nat) :
    load b o (n + k) = load b o n ++ load b (o + n) k := by
  simp [load, range_add, Nat.add_assoc]

theorem load_succ (b : Buffer) (o n : Nat) : load b o (n + 1) = b o :: load b (o + 1) n := by
  rw [Nat.add_comm, load_add]
  rfl

theorem take_load (h : k ≤ n) : (load b o n).take k = load b o k := by
  obtain ⟨d, rfl⟩ := Nat.exists_eq_add_of_le h
  rw [load_add, take_left' (length_load ..)]

theorem load_congr (h : ∀ i, i < n → b' (o' + i) = b (o + i)) : load b' o' n = load b o n :=
  map_congr_left fun i hi => h i (mem_range.mp hi)

/-- What was stored is loaded. -/
theorem load_store (b : Buffer) (o : Nat) (bs : List UInt8) :
    load (store b o bs) o bs.length = bs := by
  refine ext_getElem (length_load ..) fun i hi hi' => ?_
  simp only [load, getElem_map, getElem_range, store_of_inside hi']

/-- Bytes apart from those that were stored. -/
theorem load_store_of_disjoint (h : o' + n ≤ o ∨ o + bs.length ≤ o') :
    load (store b o bs) o' n = load b o' n :=
  load_congr fun i hi => store_of_outside (by omega)

theorem leField_congr (h : ∀ i, o ≤ i → i < o + k → b' i = b i) :
    leField b' o k = leField b o k := by
  induction k generalizing o with
  | zero => rfl
  | succ k ih =>
    rw [leField, leField, h o le_rfl (by omega), ih fun i hi hi' => h i (by omega) (by omega)]

theorem leField_lt (b : Buffer) (o k : Nat) : leField b o k < 256 ^ k := by
  induction k generalizing o with
  | zero => exact Nat.one_pos
  | succ k ih =>
    have hbyte := (b o).toNat_lt
    have hrest := ih (o + 1)
    rw [leField]
    omega

/-- Reading back the bytes of a number. -/
theorem leField_store_leBytes (b : Buffer) (o k v : Nat) :
    leField (store b o (leBytes k v)) o k = v % 256 ^ k := by
  induction k generalizing b o v with
  | zero => simp [leField, Nat.mod_one]
  | succ k ih =>
    -- storing all bytes is storing the first, then the others after it
    have hrest : ∀ i, o + 1 ≤ i → i < o + 1 + k →
        store b o (leBytes (k + 1) v) i = store b (o + 1) (leBytes k (v / 256)) i := by
      intro i hi _
      obtain ⟨j, rfl⟩ := Nat.exists_eq_add_of_le hi
      have hj : o + 1 + j - o = j + 1 := by omega
      have hj' : o + 1 + j - (o + 1) = j := by omega
      simp only [store, leBytes, if_pos hi, if_pos (Nat.le_of_succ_le hi), hj, hj',
        getElem?_cons_succ]
    have hfirst : store b o (leBytes (k + 1) v) o = UInt8.ofNat v := by simp [store, leBytes]
    have hsplit : v % 256 ^ (k + 1) = v % 256 + 256 * (v / 256 % 256 ^ k) := by
      rw [Nat.pow_succ', Nat.mod_mul]
    rw [leField, hfirst, leField_congr hrest, ih, hsplit, UInt8.toNat_ofNat']

-- From here on fields are read by the rules above only.
attribute [irreducible] leField

end ByteBuffer
