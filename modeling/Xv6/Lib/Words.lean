import Mathlib.Data.List.DropRight
import Xv6.Lib.Bytes

/-!
# Words of a text

A text is split at a separator, or read byte by byte up to its end.

* `fields sep l`    — the parts of `l` between separators, without the empty ones.
* `StringAt s i l`  — from index `i` on, the buffer `s` holds the bytes `l` and a zero.
* `scan s p fuel i` — the loop `while(p(s[i])) i++`. On a terminated string it goes over
  a `takeWhile` (`StringAt.scan`).
-/

namespace Words

open ByteBuffer List

/-! ### Fields -/

section Fields

variable {α : Type} {sep : α} {l w : List α}

theorem eq_of_head?_dropWhile {p : α → Bool} {a : α} (h : (l.dropWhile p).head? = some a) :
    p a = false := by
  have hhead := head?_dropWhile_not p l
  rwa [h] at hhead

variable [DecidableEq α]

/-- The parts of a list between separators, without the empty ones. -/
def fields (sep : α) (l : List α) : List (List α) := (l.splitOn sep).filter fun w => !w.isEmpty

theorem fields_nil (sep : α) : fields sep [] = [] := by simp [fields]

theorem fields_cons_self (sep : α) (l : List α) : fields sep (sep :: l) = fields sep l := by
  simp [fields, splitOn_eq_splitOnP, splitOnP_cons_eq_if_modifyHead]

/-- Leading separators do not matter. -/
theorem fields_dropWhile (sep : α) (l : List α) :
    fields sep (l.dropWhile (· = sep)) = fields sep l := by
  induction l with
  | nil => rfl
  | cons a l ih =>
    by_cases ha : a = sep
    · rw [dropWhile_cons_of_pos (by simpa using ha), ih, ha, fields_cons_self]
    · rw [dropWhile_cons_of_neg (by simpa using ha)]

/-- A word and what follows it. -/
theorem fields_append (hne : w ≠ []) (hw : ∀ a ∈ w, a ≠ sep)
    (hl : ∀ a, l.head? = some a → a = sep) : fields sep (w ++ l) = w :: fields sep l := by
  have hkeep : ∀ ws : List (List α), (w :: ws).filter (fun w => !w.isEmpty) =
      w :: ws.filter fun w => !w.isEmpty := by
    intro ws
    exact filter_cons_of_pos (by simpa using hne)
  have hno : ∀ a ∈ w, (a == sep) = false := fun a ha => beq_false_of_ne (hw a ha)
  cases l with
  | nil =>
    rw [append_nil, fields, splitOn_eq_splitOnP, splitOnP_eq_singleton hno,
      hkeep, filter_nil, fields_nil]
  | cons a l =>
    obtain rfl := hl a rfl
    rw [fields_cons_self, fields, splitOn_eq_splitOnP,
      splitOnP_append_cons_of_forall_mem hno a (beq_self_eq_true a), hkeep]
    rfl

/-- There is a word unless there are separators only. -/
theorem takeWhile_ne_nil (h : l.dropWhile (· = sep) ≠ []) :
    (l.dropWhile (· = sep)).takeWhile (· ≠ sep) ≠ [] := by
  cases hs : l.dropWhile (· = sep) with
  | nil => exact absurd hs h
  | cons a s =>
    have ha := eq_of_head?_dropWhile (by rw [hs]; rfl)
    rw [takeWhile_cons_of_pos (by simpa using ha)]
    exact cons_ne_nil a _

/-- The first word. -/
theorem fields_eq_cons (h : l.dropWhile (· = sep) ≠ []) :
    fields sep l = (l.dropWhile (· = sep)).takeWhile (· ≠ sep) ::
      fields sep ((l.dropWhile (· = sep)).dropWhile (· ≠ sep)) := by
  rw [← fields_dropWhile]
  nth_rewrite 1 [← takeWhile_append_dropWhile (l := l.dropWhile (· = sep))]
  refine fields_append (takeWhile_ne_nil h) (fun b hb => ?_) fun b hb => ?_
  · simpa using mem_takeWhile_imp hb
  · simpa using eq_of_head?_dropWhile hb

/-- Taking the first word off shortens a text. -/
theorem length_rest_lt (h : l.dropWhile (· = sep) ≠ []) :
    ((l.dropWhile (· = sep)).dropWhile (· ≠ sep)).length < l.length := by
  have hword := length_pos_iff.mpr (takeWhile_ne_nil h)
  have hle := length_dropWhile_le (· = sep) l
  rw [← takeWhile_append_dropWhile (p := (· ≠ sep)) (l := l.dropWhile (· = sep)),
    length_append] at hle
  omega

end Fields

/-! ### Terminated strings -/

variable {s : Buffer} {p : UInt8 → Bool} {i : Nat} {l : List UInt8}

/-- From index `i` on, the buffer holds the bytes `l`, none of them zero, and then a zero. -/
def StringAt (s : Buffer) : Nat → List UInt8 → Prop
  | i, [] => s i = 0
  | i, c :: l => s i = c ∧ c ≠ 0 ∧ StringAt s (i + 1) l

/-- `while(p(s[i])) i++`, for `fuel` turns at most. -/
def scan (s : Buffer) (p : UInt8 → Bool) : Nat → Nat → Nat
  | 0, i => i
  | fuel + 1, i => if p (s i) then scan s p fuel (i + 1) else i

/-- The rest of a string is a string. -/
theorem StringAt.drop (h : StringAt s i l) (p : UInt8 → Bool) :
    StringAt s (i + (l.takeWhile p).length) (l.dropWhile p) := by
  induction l generalizing i with
  | nil => exact h
  | cons c l ih =>
    obtain ⟨hc, hne, hl⟩ := h
    by_cases hp : p c
    · rw [takeWhile_cons_of_pos hp, dropWhile_cons_of_pos hp, length_cons,
        ← Nat.add_assoc, Nat.add_right_comm]
      exact ih hl
    · rw [takeWhile_cons_of_neg hp, dropWhile_cons_of_neg hp]
      exact ⟨hc, hne, hl⟩

/-- The loop goes over the bytes that satisfy `p`; it stops by itself, not because it is
out of fuel. -/
theorem StringAt.scan (h : StringAt s i l) (hp : p 0 = false) {fuel : Nat}
    (hfuel : l.length ≤ fuel) : scan s p fuel i = i + (l.takeWhile p).length ∧
      p (s (scan s p fuel i)) = false := by
  induction fuel generalizing i l with
  | zero =>
    obtain rfl := length_eq_zero_iff.mp (Nat.le_zero.mp hfuel)
    refine ⟨rfl, ?_⟩
    rw [Words.scan, show s i = 0 from h, hp]
  | succ fuel ih =>
    rw [Words.scan]
    cases l with
    | nil =>
      rw [show s i = 0 from h, hp]
      exact ⟨rfl, by rw [if_neg Bool.false_ne_true, show s i = 0 from h, hp]⟩
    | cons c l =>
      obtain ⟨hc, -, hl⟩ := h
      rw [hc]
      by_cases hpc : p c
      · rw [if_pos hpc, takeWhile_cons_of_pos hpc, length_cons]
        obtain ⟨heq, hstop⟩ := ih hl (Nat.le_of_succ_le_succ hfuel)
        exact ⟨by rw [heq]; omega, hstop⟩
      · rw [if_neg hpc, takeWhile_cons_of_neg hpc]
        exact ⟨rfl, by rw [hc]; simpa using hpc⟩

/-- A string is empty if its first byte is zero. -/
theorem StringAt.eq_nil_iff (h : StringAt s i l) : l = [] ↔ s i = 0 := by
  cases l with
  | nil => exact ⟨fun _ => h, fun _ => rfl⟩
  | cons c l =>
    obtain ⟨hc, hne, -⟩ := h
    exact ⟨nofun, fun hzero => absurd (hc.symm.trans hzero) hne⟩

/-- The first bytes of a string. -/
theorem StringAt.load (h : StringAt s i l) {n : Nat} (hn : n ≤ l.length) :
    load s i n = l.take n := by
  induction n generalizing i l with
  | zero => rfl
  | succ n ih =>
    cases l with
    | nil => exact absurd hn (Nat.not_succ_le_zero n)
    | cons c l =>
      obtain ⟨hc, -, hl⟩ := h
      rw [load_succ, ih hl (Nat.le_of_succ_le_succ hn), take_succ_cons, hc]

theorem StringAt.ne_zero (h : StringAt s i l) : ∀ c ∈ l, c ≠ 0 := by
  induction l generalizing i with
  | nil => exact fun c hc => absurd hc not_mem_nil
  | cons a l ih =>
    obtain ⟨-, hne, hl⟩ := h
    intro c hc
    rcases mem_cons.mp hc with rfl | hc
    · exact hne
    · exact ih hl c hc

end Words
