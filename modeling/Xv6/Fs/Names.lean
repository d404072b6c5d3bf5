import Xv6.Fs.Model
import Xv6.Lib.Words

/-!
# xv6 — names in directory entries

A buffer of `DIRSIZ` bytes holds the name that ends at its first NUL or fills it. Two
buffers are equal for `strncmp` if they hold the same name, and `strncpy` stores a name
that is read back.

* `nameIn`          — the name a buffer holds.
* `sameName_iff`    — `namecmp` compares names.
* `ofBytes_direntBytes` — an entry that was stored has its number and its name.
-/

namespace Xv6.Fs

open ByteBuffer Words List

variable {p q t : Buffer} {n i : Nat} {name : Path}

/-! ### Comparing -/

theorem takeWhile_load_eq_nil (h : p i = 0) : (load p i (n + 1)).takeWhile (· ≠ 0) = [] := by
  rw [load_succ, takeWhile_cons_of_neg (by simp [h])]

theorem takeWhile_load_eq_cons (h : p i ≠ 0) : (load p i (n + 1)).takeWhile (· ≠ 0) =
    p i :: (load p (i + 1) n).takeWhile (· ≠ 0) := by
  rw [load_succ, takeWhile_cons_of_pos (by simp [h])]

/-- `strncmp` compares up to the first NUL. -/
theorem strncmp_eq_zero_iff : strncmp p q n i = 0 ↔
    (load p i n).takeWhile (· ≠ 0) = (load q i n).takeWhile (· ≠ 0) := by
  induction n generalizing i with
  | zero => exact ⟨fun _ => rfl, fun _ => rfl⟩
  | succ n ih =>
    rw [strncmp]
    by_cases hp : p i = 0
    · rw [takeWhile_load_eq_nil hp]
      by_cases hq : q i = 0
      · rw [takeWhile_load_eq_nil hq, hp, hq]
        exact ⟨fun _ => rfl, fun _ => rfl⟩
      · rw [takeWhile_load_eq_cons hq, hp]
        refine ⟨fun h => absurd ?_ hq, nofun⟩
        exact UInt8.toNat_inj.mp (by simpa using h.symm)
    · rw [takeWhile_load_eq_cons hp]
      by_cases hpq : p i = q i
      · rw [if_pos ⟨hp, hpq⟩, ih, takeWhile_load_eq_cons (hpq ▸ hp), hpq, cons_inj_right]
      · rw [if_neg fun h => hpq h.2]
        refine ⟨fun h => absurd (UInt8.toNat_inj.mp (by omega)) hpq, fun h => ?_⟩
        by_cases hq : q i = 0
        · rw [takeWhile_load_eq_nil hq] at h
          cases h
        · rw [takeWhile_load_eq_cons hq] at h
          exact absurd (cons.inj h).1 hpq

/-- The name a buffer holds: its bytes up to a NUL, `DIRSIZ` at most. -/
def nameIn (b : Buffer) : Path := (load b 0 DIRSIZ).takeWhile (· ≠ 0)

/-- `namecmp` compares names. -/
theorem sameName_iff : sameName name t = true ↔ nameIn name.buf = nameIn t := by
  rw [sameName, decide_eq_true_iff, strncmp_eq_zero_iff]
  rfl

/-! ### Storing -/

/-- A list as a buffer, with zeros after its end. -/
theorem load_getD (l : List UInt8) (n : Nat) :
    load (fun i => l.getD i 0) 0 n = l.take n ++ replicate (n - l.length) 0 := by
  induction l generalizing n with
  | nil => simp [load]
  | cons a l ih =>
    cases n with
    | zero => simp [load]
    | succ n =>
      rw [load_succ, take_succ_cons, length_cons, Nat.succ_sub_succ, cons_append,
        ← ih, getD_cons_zero, cons_inj_right]
      refine load_congr fun i _ => ?_
      rw [Nat.add_comm, getD_cons_succ, Nat.zero_add]

theorem takeWhile_append_replicate (l : List UInt8) (n : Nat) :
    (l ++ replicate n 0).takeWhile (· ≠ 0) = l.takeWhile (· ≠ 0) := by
  induction l with
  | nil => cases n <;> simp [replicate_succ]
  | cons a l ih =>
    by_cases ha : a = 0
    · rw [cons_append, takeWhile_cons_of_neg (by simp [ha]),
        takeWhile_cons_of_neg (by simp [ha])]
    · rw [cons_append, takeWhile_cons_of_pos (by simp [ha]),
        takeWhile_cons_of_pos (by simp [ha]), ih]

theorem length_strncpy (t : Buffer) (n : Nat) : (strncpy t n).length = n := by
  have hle := (List.takeWhile_prefix (p := fun c : UInt8 => decide (c ≠ 0))
    (l := load t 0 n)).length_le
  rw [length_load] at hle
  rw [strncpy, length_append, length_replicate]
  omega

/-- What `strncpy` stores holds the name that was copied. -/
theorem takeWhile_strncpy (t : Buffer) (n : Nat) :
    (strncpy t n).takeWhile (· ≠ 0) = (load t 0 n).takeWhile (· ≠ 0) := by
  rw [strncpy, takeWhile_append_replicate, takeWhile_idem]

theorem length_direntBytes (inum : Nat) (name : Path) :
    (direntBytes inum name).length = DIRENT := by
  rw [direntBytes, length_append, length_strncpy]
  rfl

/-- An entry is read back. -/
theorem ofBytes_direntBytes {inum : Nat} (h : inum < 2 ^ 16) (name : Path) :
    (Dirent.ofBytes (direntBytes inum name)).inum = inum ∧
      nameIn (Dirent.ofBytes (direntBytes inum name)).name = nameIn name.buf := by
  refine ⟨?_, ?_⟩
  · change (UInt8.ofNat inum).toNat + 256 * (UInt8.ofNat (inum / 256)).toNat = inum
    rw [UInt8.toNat_ofNat', UInt8.toNat_ofNat']
    omega
  · have hname : load (Dirent.ofBytes (direntBytes inum name)).name 0 DIRSIZ =
        strncpy name.buf DIRSIZ := by
      have hall := load_getD (strncpy name.buf DIRSIZ) DIRSIZ
      rw [length_strncpy, Nat.sub_self, take_of_length_le (length_strncpy ..).le,
        replicate_zero, append_nil] at hall
      rw [← hall]
      refine load_congr fun i _ => ?_
      change (direntBytes inum name).getD (2 + (0 + i)) 0 = _
      rw [Nat.add_comm 2]
      rfl
    rw [nameIn, hname, takeWhile_strncpy]
    rfl

end Xv6.Fs
