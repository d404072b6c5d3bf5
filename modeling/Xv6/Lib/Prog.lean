import Mathlib.Logic.Basic

/-!
# Stateful programs that can stop

Imperative code is modelled as functions from a state to a result and the next
state, or to the reason why the program stopped (a panic, a deadlock).

* `Prog ε σ α`   — programs over the state `σ` that return an `α` or stop with
  an `ε`; a monad, so that code reads as in the source.
* `Prog.zoom`    — run a program on a part of the state. What lies outside the
  part is untouched by construction.
* `Keeps E f m`  — the program `m` leaves the part `f` of the state as it was, or
  stops for a reason in `E`.
* `Stable E I m` — the program `m` preserves `I`, or stops for a reason in `E`.
* `wp m Q E s`   — the weakest precondition: run from `s`, the program `m`
  either returns and `Q` holds of its result and final state, or it stops for
  a reason in `E`. The rules below push it through a program's text.
* `Forgets π m' m` — the program `m'` is `m`, with a record kept beside its state.
-/

/-- A program over the state `σ` that returns an `α` or stops with an `ε`. -/
def Prog (ε σ α : Type) : Type := σ → Except ε (α × σ)

namespace Prog

open List

variable {ε ε' σ τ α β : Type} {a : α} {e : ε} {c : Prop} {m m' : Prog ε σ α} {_ : Decidable c}
  {bs : List β}

instance : Monad (Prog ε σ) where
  pure a := fun s => .ok (a, s)
  bind m f := fun s =>
    match m s with
    | .ok (a, s') => f a s'
    | .error e => .error e

instance : LawfulMonad (Prog ε σ) := by
  refine LawfulMonad.mk' _ (fun m => funext fun s => ?_) (fun _ _ => rfl)
    fun m f g => funext fun s => ?_
  · simp only [Functor.map]
    cases m s <;> rfl
  · simp only [Bind.bind]
    cases m s <;> rfl

/-- Read the state through `f`. -/
def gets (f : σ → α) : Prog ε σ α := fun s => .ok (f s, s)

/-- Change the state. -/
def modify (f : σ → σ) : Prog ε σ Unit := fun s => .ok ((), f s)

/-- Stop. -/
def stop (e : ε) : Prog ε σ α := fun _ => .error e

/-- Run the program if the condition holds. -/
def when (c : Prop) [Decidable c] (m : Prog ε σ Unit) : Prog ε σ Unit :=
  if c then m else pure ()

/-- A part `τ` of a state `σ`. -/
structure Part (σ τ : Type) where
  get : σ → τ
  put : σ → τ → σ

/-- Run a program on a part of the state. -/
def zoom (l : Part σ τ) (inj : ε → ε') (m : Prog ε τ α) : Prog ε' σ α := fun s =>
  match m (l.get s) with
  | .ok (a, t) => .ok (a, l.put s t)
  | .error e => .error (inj e)

/-- Run a program with a local variable of its own, and return its last value. -/
def withLocal (u : τ) (inj : ε → ε') (m : Prog ε (σ × τ) α) : Prog ε' σ (α × τ) := fun s =>
  match m (s, u) with
  | .ok (a, s', u') => .ok ((a, u'), s')
  | .error e => .error (inj e)

/-- Run `f` on the elements in turn until one run answers. -/
def firstM (f : β → Prog ε σ (Option α)) : List β → Prog ε σ (Option α)
  | [] => pure none
  | b :: bs => do
    match ← f b with
    | some a => pure (some a)
    | none => firstM f bs

/-- Run `f` on the elements in turn. -/
def each (f : β → Prog ε σ Unit) : List β → Prog ε σ Unit
  | [] => pure ()
  | b :: bs => do
    f b
    each f bs

/-! ### Weakest preconditions -/

/-- From `s` the program returns with `Q`, or stops for a reason in `E`. -/
def wp (m : Prog ε σ α) (Q : α → σ → Prop) (E : ε → Prop) (s : σ) : Prop :=
  match m s with
  | .ok (a, s') => Q a s'
  | .error e => E e

variable {Q Q' : α → σ → Prop} {E E' : ε → Prop} {s s' : σ}

@[simp] theorem wp_pure : wp (pure a : Prog ε σ α) Q E s ↔ Q a s := Iff.rfl

@[simp] theorem wp_bind {m : Prog ε σ β} {f : β → Prog ε σ α} :
    wp (m >>= f) Q E s ↔ wp m (fun b s' => wp (f b) Q E s') E s := by
  unfold wp
  simp only [Bind.bind]
  cases m s <;> rfl

@[simp] theorem wp_gets {f : σ → α} : wp (gets f : Prog ε σ α) Q E s ↔ Q (f s) s := Iff.rfl

@[simp] theorem wp_modify {f : σ → σ} {Q : Unit → σ → Prop} :
    wp (modify f : Prog ε σ Unit) Q E s ↔ Q () (f s) := Iff.rfl

@[simp] theorem wp_stop : wp (stop e : Prog ε σ α) Q E s ↔ E e := Iff.rfl

@[simp] theorem wp_zoom {E : ε' → Prop} {l : Part σ τ} {inj : ε → ε'} {m : Prog ε τ α} :
    wp (zoom l inj m) Q E s ↔ wp m (fun a t => Q a (l.put s t)) (fun e => E (inj e)) (l.get s) := by
  unfold wp zoom
  cases m (l.get s) <;> rfl

@[simp] theorem wp_withLocal {Q : α × τ → σ → Prop} {E : ε' → Prop} {u : τ} {inj : ε → ε'}
    {m : Prog ε (σ × τ) α} : wp (withLocal u inj m) Q E s ↔
      wp m (fun a su => Q (a, su.2) su.1) (fun e => E (inj e)) (s, u) := by
  unfold wp withLocal
  cases m (s, u) <;> rfl

theorem wp_ite : wp (if c then m else m') Q E s ↔ (c → wp m Q E s) ∧ (¬ c → wp m' Q E s) := by
  by_cases hc : c <;> simp [hc]

theorem wp_when {m : Prog ε σ Unit} {Q : Unit → σ → Prop} :
    wp (when c m) Q E s ↔ (c → wp m Q E s) ∧ (¬ c → Q () s) := wp_ite

/-- What a program guarantees may be weakened. -/
theorem wp_mono (h : wp m Q E s) (hQ : ∀ a s', Q a s' → Q' a s') (hE : ∀ e, E e → E' e) :
    wp m Q' E' s := by
  unfold wp at h ⊢
  split
  · rename_i heq
    rw [heq] at h
    exact hQ _ _ h
  · rename_i heq
    rw [heq] at h
    exact hE _ h

/-- The same with the reasons for stopping unchanged. -/
theorem wp_imp (h : wp m Q E s) (hQ : ∀ a s', Q a s' → Q' a s') : wp m Q' E s :=
  wp_mono h hQ fun _ he => he

/-- A program and what comes after it. -/
theorem wp_then {m : Prog ε σ β} {f : β → Prog ε σ α} {R : β → σ → Prop} (h : wp m R E s)
    (hf : ∀ b s', R b s' → wp (f b) Q E s') : wp (m >>= f) Q E s :=
  wp_bind.mpr (wp_imp h hf)

/-- Two guarantees of one program hold together. -/
theorem wp_and (h : wp m Q E s) (h' : wp m Q' E' s) : wp m (fun a s' => Q a s' ∧ Q' a s') E s := by
  unfold wp at h h' ⊢
  split
  · rename_i heq
    rw [heq] at h h'
    exact ⟨h, h'⟩
  · rename_i heq
    rwa [heq] at h

theorem wp_true (m : Prog ε σ α) (s : σ) : wp m (fun _ _ => True) (fun _ => True) s := by
  unfold wp
  split <;> trivial

theorem wp_ok (h : wp m Q E s) (hm : m s = .ok (a, s')) : Q a s' := by
  unfold wp at h
  rwa [hm] at h

/-- What is known of the one result there is. -/
theorem wp_of_ok (hm : m s = .ok (a, s')) (h : Q a s') : wp m Q E s := by
  unfold wp
  rw [hm]
  exact h

/-- Programs that give the same result. -/
theorem wp_of_eq (h : m s = m' s') (h' : wp m' Q E s') : wp m Q E s := by
  unfold wp at h' ⊢
  rw [h]
  exact h'

theorem bind_of_ok {f : α → Prog ε σ β} (h : m s = .ok (a, s')) : (m >>= f) s = f a s' := by
  simp only [Bind.bind, h]

theorem bind_eq_ok {f : α → Prog ε σ β} {b : β} {s'' : σ} (h : (m >>= f) s = .ok (b, s'')) :
    ∃ a s', m s = .ok (a, s') ∧ f a s' = .ok (b, s'') := by
  simp only [Bind.bind] at h
  split at h
  · rename_i a s' heq
    exact ⟨a, s', heq, h⟩
  · cases h

theorem bind_congr_ok {f g : α → Prog ε σ β} (h : ∀ a s', m s = .ok (a, s') → f a s' = g a s') :
    (m >>= f) s = (m >>= g) s := by
  simp only [Bind.bind]
  split
  · rename_i a s' heq
    exact h a s' heq
  · rfl

theorem wp_error (h : wp m Q E s) (hm : m s = .error e) : E e := by
  unfold wp at h
  rwa [hm] at h

/-- A program that has no reason to stop returns. -/
theorem exists_ok_of_wp (h : wp m Q (fun _ => False) s) : ∃ a s', m s = .ok (a, s') ∧ Q a s' := by
  unfold wp at h
  split at h
  · rename_i a s' heq
    exact ⟨a, s', heq, h⟩
  · exact h.elim

/-- A result that was looked at as an option. -/
theorem ok_of_toOption {x : Except ε α} (h : x.toOption = some a) : x = .ok a := by
  cases x with
  | error e => simp [Except.toOption] at h
  | ok b =>
    simp only [Except.toOption, Option.some.injEq] at h
    rw [h]

/-- A result of which only the value was looked at. -/
theorem exists_ok_of_map {x : Except ε (α × β)} (h : x.map Prod.fst = .ok a) :
    ∃ b, x = .ok (a, b) := by
  cases x with
  | error e => cases h
  | ok r =>
    obtain ⟨a', b⟩ := r
    obtain rfl : a' = a := Except.ok.inj h
    exact ⟨b, rfl⟩

-- From here on programs are taken apart by the rules above only.
attribute [irreducible] wp

/-- Loop rule: what each turn keeps, the loop keeps. -/
theorem wp_each {f : β → Prog ε σ Unit} {I : σ → Prop}
    (hf : ∀ b ∈ bs, ∀ s, I s → wp (f b) (fun _ s' => I s') E s) (hs : I s) :
    wp (each f bs) (fun _ s' => I s') E s := by
  induction bs generalizing s with
  | nil => exact wp_pure.mpr hs
  | cons b bs ih =>
    simp only [each, wp_bind]
    refine wp_imp (hf b (mem_cons_self ..) s hs) ?_
    intro _ s' hs'
    exact ih (fun b' hb' => hf b' (mem_cons_of_mem _ hb')) hs'

/-- Loop rule: a turn makes its part `P b` true and keeps the parts that are. -/
theorem wp_each_mem {f : β → Prog ε σ Unit} {I : σ → Prop} {P : β → σ → Prop}
    (hf : ∀ b ∈ bs, ∀ s, I s →
      wp (f b) (fun _ s' => I s' ∧ P b s' ∧ ∀ c, P c s → P c s') E s) (hs : I s) :
    wp (each f bs) (fun _ s' => I s' ∧ (∀ b ∈ bs, P b s') ∧ ∀ c, P c s → P c s') E s := by
  induction bs generalizing s with
  | nil => exact wp_pure.mpr ⟨hs, fun _ hb => (not_mem_nil hb).elim, fun _ hc => hc⟩
  | cons b bs ih =>
    simp only [each, wp_bind]
    refine wp_imp (hf b (mem_cons_self ..) s hs) ?_
    rintro _ s1 ⟨h1, hb, hkeep1⟩
    refine wp_imp (ih (fun b' hb' => hf b' (mem_cons_of_mem _ hb')) h1) ?_
    rintro _ s2 ⟨h2, hbs, hkeep2⟩
    refine ⟨h2, fun c hc => ?_, fun c hc => hkeep2 c (hkeep1 c hc)⟩
    rcases mem_cons.mp hc with rfl | hc
    · exact hkeep2 c hb
    · exact hbs c hc

/-- Loop rule for a counter: `I j` holds before turn `j`. -/
theorem wp_each_range {f : Nat → Prog ε σ Unit} {I : Nat → σ → Prop} {n : Nat}
    (hf : ∀ j s, j < n → I j s → wp (f j) (fun _ s' => I (j + 1) s') E s) (hs : I 0 s) :
    wp (each f (range n)) (fun _ s' => I n s') E s := by
  have hloop : ∀ m a s, a + m = n → I a s →
      wp (each f (range' a m)) (fun _ s' => I n s') E s := by
    intro m
    induction m with
    | zero =>
      rintro a s rfl hs
      exact wp_pure.mpr hs
    | succ m ih =>
      intro a s han hs
      rw [range'_succ, each, wp_bind]
      exact wp_imp (hf a s (by omega) hs) fun _ s' hs' => ih (a + 1) s' (by omega) hs'
  rw [range_eq_range']
  exact hloop n 0 s (Nat.zero_add n) hs

/-- Loop rule for a search: what each turn keeps that does not answer, and an
answer that comes with `A`. -/
theorem wp_firstM {f : β → Prog ε σ (Option α)} {I : σ → Prop} {A : α → σ → Prop}
    (hf : ∀ b ∈ bs, ∀ s, I s →
      wp (f b) (fun r s' => match r with | some a => A a s' | none => I s') E s) (hs : I s) :
    wp (firstM f bs) (fun r s' => match r with | some a => A a s' | none => I s') E s := by
  induction bs generalizing s with
  | nil => exact wp_pure.mpr hs
  | cons b bs ih =>
    simp only [firstM, wp_bind]
    refine wp_imp (hf b (mem_cons_self ..) s hs) ?_
    intro r s' hs'
    cases r with
    | some a => exact wp_pure.mpr hs'
    | none => exact ih (fun b' hb' => hf b' (mem_cons_of_mem _ hb')) hs'

/-- Loop rule for a search with a counter that runs from `a` on: `I j` holds before
turn `j`. -/
theorem wp_firstM_range {f : Nat → Prog ε σ (Option α)} {I : Nat → σ → Prop}
    {A : α → σ → Prop} (n a : Nat) (hf : ∀ j s, a ≤ j → j < a + n → I j s →
      wp (f j) (fun r s' => match r with | some x => A x s' | none => I (j + 1) s') E s)
    (hs : I a s) : wp (firstM f (range' a n))
      (fun r s' => match r with | some x => A x s' | none => I (a + n) s') E s := by
  induction n generalizing a s with
  | zero => exact wp_pure.mpr hs
  | succ n ih =>
    rw [range'_succ, firstM, wp_bind]
    refine wp_imp (hf a s (Nat.le_refl a) (by omega) hs) fun r s' hs' => ?_
    cases r with
    | some x => exact wp_pure.mpr hs'
    | none =>
      refine wp_imp (ih (a + 1) (fun j s hj hj' => hf j s (by omega) (by omega)) hs') ?_
      intro r s'' hs''
      cases r with
      | some x => exact hs''
      | none =>
        rwa [Nat.add_right_comm, Nat.add_assoc] at hs''

/-! ### What a program leaves alone -/

/-- Whenever `m` returns, the value of `f` is what it was, and if it stops, then
for a reason in `E`. -/
structure Keeps {γ : Type} (E : ε → Prop) (f : σ → γ) (m : Prog ε σ α) : Prop where
  wp : ∀ s, wp m (fun _ s' => f s' = f s) E s

section Keeps

variable {γ : Type} {E : ε → Prop} {f : σ → γ}

theorem Keeps.to (hm : Keeps E f m) {s : σ} {c : γ} (hs : f s = c) :
    Prog.wp m (fun _ s' => f s' = c) E s :=
  wp_imp (hm.wp s) fun _ _ h => h.trans hs

/-- The rule for a program that keeps `f`, with what comes after it. -/
theorem Keeps.andThen {Q : α → σ → Prop} {s : σ} {c : γ} (hm : Keeps E f m) (hs : f s = c)
    (hQ : ∀ a s', f s' = c → Q a s') : Prog.wp m Q E s :=
  wp_imp (hm.to hs) hQ

theorem Keeps.seq {m : Prog ε σ β} {g : β → Prog ε σ α} {Q : α → σ → Prop} {s : σ} {c : γ}
    (hm : Keeps E f m) (hs : f s = c) (hQ : ∀ b s', f s' = c → Prog.wp (g b) Q E s') :
    Prog.wp (m >>= g) Q E s :=
  wp_then (hm.to hs) hQ

theorem Keeps.pure (a : α) : Keeps E f (Pure.pure a : Prog ε σ α) :=
  ⟨fun _ => wp_pure.mpr rfl⟩

theorem Keeps.gets (g : σ → α) : Keeps E f (Prog.gets g : Prog ε σ α) :=
  ⟨fun _ => wp_gets.mpr rfl⟩

theorem Keeps.stop (he : E e) : Keeps E f (Prog.stop e : Prog ε σ α) :=
  ⟨fun _ => wp_stop.mpr he⟩

theorem Keeps.modify {g : σ → σ} (h : ∀ s, f (g s) = f s) :
    Keeps E f (Prog.modify g : Prog ε σ Unit) :=
  ⟨fun s => wp_modify.mpr (h s)⟩

theorem Keeps.bind {m : Prog ε σ β} {g : β → Prog ε σ α} (hm : Keeps E f m)
    (hg : ∀ b, Keeps E f (g b)) : Keeps E f (m >>= g) := by
  refine ⟨fun s => ?_⟩
  rw [wp_bind]
  refine wp_imp (hm.wp s) ?_
  intro b s' hs'
  exact wp_imp ((hg b).wp s') fun _ _ h => h.trans hs'

theorem Keeps.ite (hm : Keeps E f m) (hm' : Keeps E f m') : Keeps E f (if c then m else m') := by
  split
  · exact hm
  · exact hm'

theorem Keeps.when {m : Prog ε σ Unit} (hm : Keeps E f m) :
    Keeps E f (Prog.when c m) := .ite hm (.pure ())

theorem Keeps.zoom {l : Part σ τ} {inj : ε' → ε} {m : Prog ε' τ α} (hE : ∀ e, E (inj e))
    (h : ∀ s t, f (l.put s t) = f s) : Keeps E f (m.zoom l inj) := by
  refine ⟨fun s => ?_⟩
  rw [wp_zoom]
  exact wp_mono (wp_true m (l.get s)) (fun _ t _ => h s t) fun e _ => hE e

theorem Keeps.each {g : β → Prog ε σ Unit} (hg : ∀ b, Keeps E f (g b)) (bs : List β) :
    Keeps E f (Prog.each g bs) := by
  induction bs with
  | nil => exact .pure ()
  | cons b bs ih => exact .bind (hg b) fun _ => ih

end Keeps

/-! ### What a program preserves -/

/-- From a state with `I` the program `m` returns to one, or stops for a reason in
`E`. -/
structure Stable (E : ε → Prop) (I : σ → Prop) (m : Prog ε σ α) : Prop where
  wp : ∀ s, I s → wp m (fun _ s' => I s') E s

section Stable

variable {E : ε → Prop} {I : σ → Prop}

theorem Stable.andThen {Q : α → σ → Prop} {s : σ} (hm : Stable E I m) (hs : I s)
    (hQ : ∀ a s', I s' → Q a s') : Prog.wp m Q E s :=
  wp_imp (hm.wp s hs) hQ

theorem Stable.seq {m : Prog ε σ β} {g : β → Prog ε σ α} {Q : α → σ → Prop} {s : σ}
    (hm : Stable E I m) (hs : I s) (hQ : ∀ b s', I s' → Prog.wp (g b) Q E s') :
    Prog.wp (m >>= g) Q E s :=
  wp_then (hm.wp s hs) hQ

theorem Stable.pure (a : α) : Stable E I (Pure.pure a : Prog ε σ α) :=
  ⟨fun _ hs => wp_pure.mpr hs⟩

theorem Stable.gets (g : σ → α) : Stable E I (Prog.gets g : Prog ε σ α) :=
  ⟨fun _ hs => wp_gets.mpr hs⟩

theorem Stable.stop (he : E e) : Stable E I (Prog.stop e : Prog ε σ α) :=
  ⟨fun _ _ => wp_stop.mpr he⟩

theorem Stable.modify {g : σ → σ} (h : ∀ s, I s → I (g s)) :
    Stable E I (Prog.modify g : Prog ε σ Unit) :=
  ⟨fun s hs => wp_modify.mpr (h s hs)⟩

theorem Stable.bind {m : Prog ε σ β} {g : β → Prog ε σ α} (hm : Stable E I m)
    (hg : ∀ b, Stable E I (g b)) : Stable E I (m >>= g) := by
  refine ⟨fun s hs => ?_⟩
  exact hm.seq hs fun b s' hs' => (hg b).wp s' hs'

theorem Stable.ite (hm : Stable E I m) (hm' : Stable E I m') :
    Stable E I (if c then m else m') := by
  split
  · exact hm
  · exact hm'

theorem Stable.when {m : Prog ε σ Unit} (hm : Stable E I m) :
    Stable E I (Prog.when c m) := .ite hm (.pure ())

theorem Stable.each {g : β → Prog ε σ Unit} (hg : ∀ b, Stable E I (g b)) (bs : List β) :
    Stable E I (Prog.each g bs) :=
  ⟨fun _ hs => wp_each (fun b _ s hs => (hg b).wp s hs) hs⟩

theorem Stable.firstM {g : β → Prog ε σ (Option α)} (hg : ∀ b, Stable E I (g b)) (bs : List β) :
    Stable E I (Prog.firstM g bs) := by
  refine ⟨fun s hs => wp_imp (wp_firstM (A := fun _ => I) (fun b _ s hs => ?_) hs) ?_⟩
  · refine wp_imp ((hg b).wp s hs) ?_
    rintro (_ | _) s' h <;> exact h
  · rintro (_ | _) s' h <;> exact h

/-- What follows from a part of the state is preserved by what leaves the part alone. -/
theorem Keeps.stable {γ : Type} {f : σ → γ} (hm : Keeps E f m)
    (h : ∀ s s', f s' = f s → I s → I s') : Stable E I m :=
  ⟨fun s hs => wp_imp (hm.wp s) fun _ s' hs' => h s s' hs' hs⟩

end Stable

/-! ### Programs that keep a record -/

/-- The program `m'` does what `m` does, on a state that has more in it: `π` forgets
that. -/
structure Forgets (π : τ → σ) (m' : Prog ε τ α) (m : Prog ε σ α) : Prop where
  eq : ∀ t, (m' t).map (Prod.map id π) = m (π t)

section Forgets

variable {π : τ → σ}

theorem Forgets.pure (a : α) : Forgets π (Pure.pure a : Prog ε τ α) (Pure.pure a) :=
  ⟨fun _ => rfl⟩

theorem Forgets.bind {m' : Prog ε τ β} {m : Prog ε σ β} {f' : β → Prog ε τ α}
    {f : β → Prog ε σ α} (hm : Forgets π m' m) (hf : ∀ b, Forgets π (f' b) (f b)) :
    Forgets π (m' >>= f') (m >>= f) := by
  refine ⟨fun t => ?_⟩
  have ht := hm.eq t
  simp only [Bind.bind]
  cases hm' : m' t with
  | error e =>
    rw [hm'] at ht
    rw [← ht]
    rfl
  | ok r =>
    rw [hm'] at ht
    rw [← ht]
    exact (hf r.1).eq r.2

/-- What is read may be used as far as it is not forgotten. -/
theorem Forgets.gets_bind {γ : Type} {g' : τ → β} {g : σ → γ} {f' : β → Prog ε τ α}
    {f : γ → Prog ε σ α} (hf : ∀ t, Forgets π (f' (g' t)) (f (g (π t)))) :
    Forgets π (Prog.gets g' >>= f') (Prog.gets g >>= f) :=
  ⟨fun t => (hf t).eq t⟩

theorem Forgets.ite {m1' m2' : Prog ε τ α} {m1 m2 : Prog ε σ α} (h1 : Forgets π m1' m1)
    (h2 : Forgets π m2' m2) : Forgets π (if c then m1' else m2') (if c then m1 else m2) := by
  split
  · exact h1
  · exact h2

end Forgets

end Prog
