import Mathlib.Data.List.Basic

/-!
# Runs of an event-driven machine

A machine is a relation `step s e t`: in state `s` the event `e` leads to
`t`. Everything the environment chooses (who moves next, which request it
makes, which allocation fails, when power is lost) is part of the event, so a
statement about every `Run` is a statement about every interleaving.

* `Run step s0 es s`   — the events `es`, taken in order from `s0`, lead to `s`.
* `Restrict C step`    — the same machine, taking only steps whose event meets
  the condition `C` in the state before it.
* `Run.invariant`      — what holds at the start and is kept by each step
  holds after every run.
* `exec`               — a run computed by a step function, for concrete traces.
* `record`             — what the steps of a run have put on record.
-/

namespace TransitionRun

variable {σ ε : Type} {s s0 : σ} {es : List ε}

/-- The events `es`, taken in order from `s0`, lead to the last state. -/
inductive Run (step : σ → ε → σ → Prop) (s0 : σ) : List ε → σ → Prop where
  | start : Run step s0 [] s0
  | snoc {es : List ε} {s t : σ} {e : ε} :
      Run step s0 es s → step s e t → Run step s0 (es ++ [e]) t

/-- The machine that takes only steps whose event meets `C` beforehand. -/
def Restrict (C : σ → ε → Prop) (step : σ → ε → σ → Prop) : σ → ε → σ → Prop :=
  fun s e t => C s e ∧ step s e t

variable {step : σ → ε → σ → Prop}

/-- What holds at the start and is kept by each step holds after every run. -/
theorem Run.invariant {P : σ → Prop} (hrun : Run step s0 es s) (h0 : P s0)
    (hstep : ∀ s e t, P s → step s e t → P t) : P s := by
  induction hrun with
  | start => exact h0
  | snoc _ hs ih => exact hstep _ _ _ ih hs

/-- A reflexive and transitive relation kept by each step relates the two
ends of every run. -/
theorem Run.relates {R : σ → σ → Prop} (hrun : Run step s0 es s) (hrefl : ∀ s, R s s)
    (htrans : ∀ a b c, R a b → R b c → R a c) (hstep : ∀ s e t, step s e t → R s t) : R s0 s := by
  induction hrun with
  | start => exact hrefl s0
  | snoc _ hs ih => exact htrans _ _ _ ih (hstep _ _ _ hs)

/-- Runs of a machine are runs of any machine that takes the same steps. -/
theorem Run.mono {step' : σ → ε → σ → Prop} (hrun : Run step s0 es s)
    (hstep : ∀ s e t, step s e t → step' s e t) : Run step' s0 es s := by
  induction hrun with
  | start => exact .start
  | snoc _ hs ih => exact .snoc ih (hstep _ _ _ hs)

/-- A run of the restricted machine is a run of the machine. -/
theorem Run.of_restrict {C : σ → ε → Prop} (hrun : Run (Restrict C step) s0 es s) :
    Run step s0 es s :=
  hrun.mono fun _ _ _ hs => hs.2

/-- A run of the machine is one whose steps meet no condition. -/
theorem Run.restrict_true (hrun : Run step s0 es s) :
    Run (Restrict (fun _ _ => True) step) s0 es s :=
  hrun.mono fun _ _ _ hs => ⟨trivial, hs⟩

/-- Two runs in a row are one run. -/
theorem Run.append {t : σ} {es' : List ε} (h : Run step s0 es s) (h' : Run step s es' t) :
    Run step s0 (es ++ es') t := by
  induction h' with
  | start => simpa using h
  | snoc _ hs ih =>
    rw [← List.append_assoc]
    exact .snoc ih hs

/-- Take the events of a list in order with a step function. -/
def exec (f : σ → ε → Option σ) : σ → List ε → Option σ
  | s, [] => some s
  | s, e :: es => (f s e).bind (exec f · es)

/-- What the events put on record, `f s e` being the entries of event `e` in state
`s`. -/
def record {β : Type} (step : σ → ε → Option σ) (f : σ → ε → List β) : σ → List ε → List β
  | _, [] => []
  | s, e :: es => f s e ++ ((step s e).map (record step f · es)).getD []

/-- The record of a run that goes on. -/
theorem Run.record_append {β : Type} {step : σ → ε → Option σ} {f : σ → ε → List β}
    (hrun : Run (fun s e t => step s e = some t) s0 es s) (es' : List ε) :
    record step f s0 (es ++ es') = record step f s0 es ++ record step f s es' := by
  induction hrun generalizing es' with
  | start => rfl
  | @snoc es s t e hrun hs ih =>
    rw [List.append_assoc, ih, ih]
    simp [record, hs]

/-- The record of a run that takes one more step. -/
theorem Run.record_snoc {β : Type} {step : σ → ε → Option σ} {f : σ → ε → List β} {e : ε}
    (hrun : Run (fun s e t => step s e = some t) s0 es s) :
    record step f s0 (es ++ [e]) = record step f s0 es ++ f s e := by
  rw [hrun.record_append [e]]
  cases hs : step s e <;> simp [record, hs]

/-- A computed run is a run of the function's graph. -/
theorem run_of_exec {f : σ → ε → Option σ} : ∀ {es : List ε} {s t : σ}, exec f s es = some t →
      Run (fun s e t => f s e = some t) s es t
  | [], s, t, h => by
    simp only [exec, Option.some.injEq] at h
    subst h
    exact .start
  | e :: es, s, t, h => by
    simp only [exec, Option.bind_eq_some_iff] at h
    obtain ⟨u, hu, hrest⟩ := h
    have hone : Run (fun s e t => f s e = some t) s ([] ++ [e]) u := .snoc .start hu
    exact Run.append hone (run_of_exec hrest)

/-- A computed run whose steps all meet `C` is a run of the restricted machine. -/
theorem run_restrict_of_exec {C : σ → ε → Prop} [∀ s e, Decidable (C s e)] {f : σ → ε → Option σ}
    {t : σ} (h : exec (fun s e => if C s e then f s e else none) s es = some t) :
    Run (Restrict C fun s e t => f s e = some t) s es t := by
  refine (run_of_exec h).mono ?_
  intro s e t hs
  split at hs
  · exact ⟨‹_›, hs⟩
  · simp at hs

end TransitionRun
