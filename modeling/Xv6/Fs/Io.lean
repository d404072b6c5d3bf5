import Xv6.Fs.Model

/-!
# xv6 — what `readi` and `writei` do on either side

`readi` and `writei` move bytes between a file and memory through a function
they are given. Whatever that function keeps of memory, they keep; and they keep
of the file system what `bmap` and a write to a data block keep.
-/

namespace Xv6.Fs

open Prog ByteBuffer

variable {ε U α : Type} {I : U → Prop} {E : ε → Prop} {s : State × U} {ip : IPtr} {m : Prog ε U α}

/-- A program of the file system does not touch memory. -/
theorem wp_onFs_side (m : FsM α) (hs : I s.2) :
    wp (onFs m : IoM ε U α) (fun _ s' => I s'.2) (Sum.elim (fun _ => True) E) s := by
  rw [onFs, wp_zoom]
  exact wp_mono (wp_true m s.1) (fun _ _ _ => hs) fun _ _ => trivial

theorem wp_onSide (h : wp m (fun _ u => I u) E s.2) :
    wp (onSide m : IoM ε U α) (fun _ s' => I s'.2) (Sum.elim (fun _ => True) E) s := by
  rw [onSide, wp_zoom]
  exact h

section Read

variable {dst : Nat → List UInt8 → Prog ε U Bool} {n : Nat}

theorem wp_readLoop_side
    (hdst : ∀ tot bs u, tot + bs.length ≤ n → I u → wp (dst tot bs) (fun _ u' => I u') E u)
    (fuel tot off : Nat) (hs : I s.2) :
    wp (readLoop ip dst n fuel tot off) (fun _ s' => I s'.2) (Sum.elim (fun _ => True) E) s := by
  induction fuel generalizing s tot off with
  | zero => exact wp_pure.mpr hs
  | succ fuel ih =>
    simp only [readLoop, wp_ite, wp_bind]
    refine ⟨fun htot => ?_, fun _ => wp_pure.mpr hs⟩
    refine wp_imp (wp_onFs_side _ hs) fun addr s1 h1 => ?_
    refine ⟨fun _ => wp_pure.mpr h1, fun _ => ?_⟩
    rw [wp_gets]
    refine wp_imp (wp_onSide (hdst _ _ _ ?_ h1)) fun ok s2 h2 => ?_
    · rw [length_load]
      omega
    · exact ⟨fun _ => ih _ _ h2, fun _ => wp_pure.mpr h2⟩

/-- `readi` hands out at most the `n` bytes asked for. -/
theorem wp_readi_side
    (hdst : ∀ tot bs u, tot + bs.length ≤ n → I u → wp (dst tot bs) (fun _ u' => I u') E u)
    (off : Nat) (hs : I s.2) :
    wp (readi ip dst off n) (fun _ s' => I s'.2) (Sum.elim (fun _ => True) E) s := by
  simp only [readi, wp_bind, wp_ite]
  refine wp_imp (wp_onFs_side _ hs) fun d s1 h1 => ?_
  refine ⟨fun _ => wp_pure.mpr h1, fun _ => ?_⟩
  refine wp_readLoop_side (fun tot bs u hlen => hdst tot bs u (hlen.trans ?_)) _ _ _ h1
  split <;> omega

end Read

section Record

variable {V : Type} {π : V → U} {n : Nat}

theorem forgets_onFs (m : FsM α) :
    Forgets (Prod.map id π) (onFs m : IoM ε V α) (onFs m : IoM ε U α) := by
  refine ⟨fun s => ?_⟩
  simp only [onFs, zoom, Prod.map_fst, id]
  cases m s.1 <;> rfl

theorem forgets_onSide {m' : Prog ε V α} (h : Forgets π m' m) :
    Forgets (Prod.map id π) (onSide m' : IoM ε V α) (onSide m) := by
  refine ⟨fun s => ?_⟩
  have hs := h.eq s.2
  simp only [onSide, zoom, Prod.map_snd]
  rw [← hs]
  cases m' s.2 <;> rfl

theorem forgets_readLoop {dst' : Nat → List UInt8 → Prog ε V Bool}
    {dst : Nat → List UInt8 → Prog ε U Bool} (h : ∀ tot bs, Forgets π (dst' tot bs) (dst tot bs))
    (fuel tot off : Nat) :
    Forgets (Prod.map id π) (readLoop ip dst' n fuel tot off) (readLoop ip dst n fuel tot off) := by
  induction fuel generalizing tot off with
  | zero => exact .pure _
  | succ fuel ih =>
    refine .ite (.bind (forgets_onFs _) fun addr => .ite (.pure _) ?_) (.pure _)
    refine .gets_bind fun s => .bind (forgets_onSide (h tot _)) fun ok => ?_
    exact .ite (ih _ _) (.pure _)

/-- A `readi` whose other side keeps a record reads as it would without. -/
theorem forgets_readi {dst' : Nat → List UInt8 → Prog ε V Bool}
    {dst : Nat → List UInt8 → Prog ε U Bool} (h : ∀ tot bs, Forgets π (dst' tot bs) (dst tot bs))
    (off : Nat) : Forgets (Prod.map id π) (readi ip dst' off n) (readi ip dst off n) :=
  .bind (forgets_onFs _) fun _ => .ite (.pure _) (forgets_readLoop h _ _ _)

end Record

section Write

variable {src : Nat → Nat → Prog ε U (List UInt8 × Bool)} {n : Nat}

theorem wp_writeLoop_side (hsrc : ∀ tot m u, I u → wp (src tot m) (fun _ u' => I u') E u)
    (fuel tot off : Nat) (hs : I s.2) :
    wp (writeLoop ip src n fuel tot off) (fun _ s' => I s'.2) (Sum.elim (fun _ => True) E) s := by
  induction fuel generalizing s tot off with
  | zero => exact wp_pure.mpr hs
  | succ fuel ih =>
    simp only [writeLoop, wp_ite, wp_bind]
    refine ⟨fun _ => ?_, fun _ => wp_pure.mpr hs⟩
    refine wp_imp (wp_onFs_side _ hs) fun addr s1 h1 => ?_
    refine ⟨fun _ => wp_pure.mpr h1, fun _ => ?_⟩
    refine wp_imp (wp_onSide (hsrc _ _ _ h1)) fun r s2 h2 => ?_
    refine wp_imp (wp_onFs_side _ h2) fun _ s3 h3 => ?_
    refine ⟨fun _ => ?_, fun _ => wp_pure.mpr h3⟩
    exact wp_imp (wp_onFs_side _ h3) fun _ s4 h4 => ih _ _ h4

theorem wp_writei_side (hsrc : ∀ tot m u, I u → wp (src tot m) (fun _ u' => I u') E u)
    (off : Nat) (hs : I s.2) :
    wp (writei ip src off n) (fun _ s' => I s'.2) (Sum.elim (fun _ => True) E) s := by
  simp only [writei, wp_bind, wp_ite]
  refine wp_imp (wp_onFs_side _ hs) fun d s1 h1 => ?_
  refine ⟨fun _ => wp_pure.mpr h1, fun _ => ⟨fun _ => wp_pure.mpr h1, fun _ => ?_⟩⟩
  refine wp_imp (wp_writeLoop_side hsrc _ _ _ h1) fun r s2 h2 => ?_
  refine wp_imp (wp_onFs_side _ h2) fun _ s3 h3 => ?_
  exact wp_imp (wp_onFs_side _ h3) fun _ s4 h4 => wp_pure.mpr h4

end Write

/-! ### The file system -/

section FileSystem

variable {P : State → Prop} {F : Panic → Prop} {n : Nat}

/-- What may stop a program with two sides, if the file system stops for a reason
in `F` only. -/
abbrev OnFs (F : Panic → Prop) : Panic ⊕ ε → Prop := Sum.elim F fun _ => True

theorem stable_onFs {m : FsM α} (hm : Stable F P m) :
    Stable (OnFs F) (fun s => P s.1) (onFs m : IoM ε U α) := by
  refine ⟨fun s hs => ?_⟩
  rw [onFs, wp_zoom]
  exact hm.wp s.1 hs

theorem stable_onSide : Stable (OnFs F) (fun s => P s.1) (onSide m : IoM ε U α) := by
  refine ⟨fun s hs => ?_⟩
  rw [onSide, wp_zoom]
  exact wp_mono (wp_true m s.2) (fun _ _ _ => hs) fun _ _ => trivial

theorem stable_readLoop {dst : Nat → List UInt8 → Prog ε U Bool}
    (hbmap : ∀ bn, Stable F P (bmap ip bn)) (fuel tot off : Nat) :
    Stable (OnFs F) (fun s => P s.1) (readLoop ip dst n fuel tot off) := by
  induction fuel generalizing tot off with
  | zero => exact .pure _
  | succ fuel ih =>
    refine .ite (.bind (stable_onFs (hbmap _)) fun addr => .ite (.pure _) ?_) (.pure _)
    exact .bind (.gets _) fun s => .bind stable_onSide fun ok => .ite (ih _ _) (.pure _)

theorem stable_readi {dst : Nat → List UInt8 → Prog ε U Bool} {off : Nat}
    (hbmap : ∀ bn, Stable F P (bmap ip bn)) :
    Stable (OnFs F) (fun s => P s.1) (readi ip dst off n) :=
  .bind (stable_onFs (.gets _)) fun _ => .ite (.pure _) (stable_readLoop hbmap _ _ _)

theorem stable_writeLoop {src : Nat → Nat → Prog ε U (List UInt8 × Bool)}
    (hbmap : ∀ bn, Stable F P (bmap ip bn)) (hlog : ∀ b, Stable F P (logWrite b))
    (hdata : ∀ fs data, P fs → P { fs with data := data }) (fuel tot off : Nat) :
    Stable (OnFs F) (fun s => P s.1) (writeLoop ip src n fuel tot off) := by
  induction fuel generalizing tot off with
  | zero => exact .pure _
  | succ fuel ih =>
    refine .ite (.bind (stable_onFs (hbmap _)) fun addr => .ite (.pure _) ?_) (.pure _)
    refine .bind stable_onSide fun r =>
      .bind (stable_onFs (.modify fun fs hfs => hdata fs _ hfs)) fun _ => ?_
    exact .ite (.bind (stable_onFs (hlog addr)) fun _ => ih _ _) (.pure _)

end FileSystem

end Xv6.Fs
