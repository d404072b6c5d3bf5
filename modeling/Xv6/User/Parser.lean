import Mathlib.Data.List.Forall2
import Mathlib.Data.List.Induction
import Mathlib.Logic.Function.Iterate
import Xv6.User.Lexer

/-!
# xv6 — the shell parses its grammar

    line  ::= pipe '&'* [';' line]
    pipe  ::= exec ['|' pipe]
    exec  ::= '(' line ')' redir* | redir* (word redir*)*
    redir ::= ('<' | '>' | '>>') word

with fewer than `MAXARGS` words in a simple command.

* `Derives`        — the grammar, with the tree of a derivation.
* `Shows R cmd t`  — the nodes `cmd` are the tree `t`, `R` relating the ends of a word
  in the line to its text.
* `parseline_sound`, `parsepipe_sound`, `parseexec_sound` — with enough fuel the parser
  returns a derivation of the tokens it has taken, or panics.
* `parses_of_derives` — it does return on every derivable sequence.
* `nulterminate_shows` — the words stay what they were when NULs are put behind them.
* `parsecmd_iff`   — the result.
-/

namespace Xv6.User.Shell

open ByteBuffer Prog Function List

abbrev Text := List UInt8

/-! ### The grammar -/

/-- The three kinds of redirection. -/
inductive Dir where
  | input
  | output
  | append
  deriving DecidableEq, Repr

def Dir.tok : Dir → Tok
  | .input => .lt
  | .output => .gt
  | .append => .gtgt

def Dir.mode : Dir → Nat
  | .input => O_RDONLY
  | .output => O_WRONLY ||| O_CREATE ||| O_TRUNC
  | .append => O_WRONLY ||| O_CREATE

def Dir.fd : Dir → Nat
  | .input => 0
  | .output | .append => 1

structure Redir where
  dir : Dir
  file : Text
  deriving DecidableEq, Repr

def Redir.toks (r : Redir) : List Tok := [r.dir.tok, .word r.file]

/-- What a command means. -/
inductive Tree where
  | exec (words : List Text)
  | redir (t : Tree) (r : Redir)
  | pipe (left right : Tree)
  | list (left right : Tree)
  | back (t : Tree)
  deriving DecidableEq, Repr

/-- Redirections, the last one outermost. -/
def wrap (t : Tree) (rs : List Redir) : Tree := rs.foldl .redir t

/-- A word and the redirections behind it. -/
abbrev Group := Text × List Redir

def Group.toks (g : Group) : List Tok := .word g.1 :: g.2.flatMap Redir.toks

variable {rs : List Redir} {gs : List Group}

inductive Symbol where
  | line
  | pipe
  | exec

/-- The tokens are derived from the symbol, and the derivation has the tree. -/
inductive Derives : Symbol → List Tok → Tree → Prop where
  | simple (rs : List Redir) (gs : List Group) : gs.length < MAXARGS →
      Derives .exec (rs.flatMap Redir.toks ++ gs.flatMap Group.toks)
        (wrap (.exec (gs.map Prod.fst)) (rs ++ gs.flatMap Prod.snd))
  | block {ts : List Tok} {t : Tree} (rs : List Redir) : Derives .line ts t →
      Derives .exec (.lpar :: ts ++ .rpar :: rs.flatMap Redir.toks) (wrap t rs)
  | single {ts : List Tok} {t : Tree} : Derives .exec ts t → Derives .pipe ts t
  | bar {ts ts' : List Tok} {t t' : Tree} : Derives .exec ts t → Derives .pipe ts' t' →
      Derives .pipe (ts ++ .bar :: ts') (.pipe t t')
  | last {ts : List Tok} {t : Tree} (n : Nat) : Derives .pipe ts t →
      Derives .line (ts ++ List.replicate n .amp) (Tree.back^[n] t)
  | semi {ts ts' : List Tok} {t t' : Tree} (n : Nat) : Derives .pipe ts t → Derives .line ts' t' →
      Derives .line (ts ++ List.replicate n .amp ++ .semi :: ts') (.list (Tree.back^[n] t) t')

/-! ### Nodes and trees -/

/-- The nodes `cmd` are the tree `t`, each word being where `R` says. -/
inductive Shows (R : Nat → Nat → Text → Prop) : Cmd → Tree → Prop where
  | exec {args : List (Nat × Nat)} {ws : List Text} :
      List.Forall₂ (fun a w => R a.1 a.2 w) args ws → Shows R (.exec args) (.exec ws)
  | redir {cmd : Cmd} {t : Tree} {q eq : Nat} {r : Redir} : Shows R cmd t → R q eq r.file →
      Shows R (.redir cmd q eq r.dir.mode r.dir.fd) (.redir t r)
  | pipe {cmd cmd' : Cmd} {t t' : Tree} : Shows R cmd t → Shows R cmd' t' →
      Shows R (.pipe cmd cmd') (.pipe t t')
  | list {cmd cmd' : Cmd} {t t' : Tree} : Shows R cmd t → Shows R cmd' t' →
      Shows R (.list cmd cmd') (.list t t')
  | back {cmd : Cmd} {t : Tree} : Shows R cmd t → Shows R (.back cmd) (.back t)

variable {R : Nat → Nat → Text → Prop} {cmd : Cmd} {t : Tree} {q eq : Nat}

/-- What `redircmd` builds for a redirection. -/
theorem Shows.redircmd (h : Shows R cmd t) {r : Redir} (hfile : R q eq r.file) :
    Shows R (redircmd r.dir.tok.code cmd q eq) (.redir t r) := by
  obtain ⟨dir, file⟩ := r
  cases dir <;> exact Shows.redir h hfile

/-- An argument is stored in the `execcmd` under the redirections. -/
theorem Shows.addArg {ws : List Text} {w : Text} (h : Shows R cmd (wrap (.exec ws) rs))
    (hw : R q eq w) : Shows R (cmd.addArg q eq) (wrap (.exec (ws ++ [w])) rs) := by
  induction rs using reverseRecOn generalizing cmd with
  | nil =>
    obtain ⟨hargs⟩ := h
    exact .exec (rel_append hargs (.cons hw .nil))
  | append_singleton rs r ih =>
    rw [wrap, foldl_append] at h ⊢
    obtain _ | ⟨hcmd, hfile⟩ := h
    exact .redir (ih hcmd) hfile

theorem wrap_append (t : Tree) (rs rs' : List Redir) :
    wrap t (rs ++ rs') = wrap (wrap t rs) rs' := foldl_append ..

/-! ### Loops -/

variable {b : Buffer} {es s n : Nat} {ts us : List Tok} {E : Stop → Prop}

/-- The parser stops with a panic. -/
def IsPanic (e : Stop) : Prop := e ≠ .fuel

theorem code_eq_word {t : Tok} (h : t.code = ch 'a') : ∃ w, t = .word w := by
  cases t with
  | word w => exact ⟨w, rfl⟩
  | _ => exact absurd h (by decide)

theorem code_word (w : Text) : (Tok.word w).code = ch 'a' := rfl

theorem code_ne_zero (t : Tok) : t.code ≠ 0 := by
  cases t with
  | word w => exact show ch 'a' ≠ 0 by decide
  | _ => decide

theorem nextIn_redir {t : Tok} (h : nextIn ['<', '>'] (t :: ts) = true) : ∃ d : Dir, t = d.tok := by
  cases t with
  | lt => exact ⟨.input, rfl⟩
  | gt => exact ⟨.output, rfl⟩
  | gtgt => exact ⟨.append, rfl⟩
  | _ => exact absurd h (by simp [nextIn, Tok.first])

/-- What `peek` finds when it looks for one symbol. -/
theorem nextIn_single {t : Tok} {x : Char} (ht : t.first = some x) (hx : x ≠ '>')
    (h : nextIn [x] ts = true) : ∃ us, ts = t :: us := by
  cases ts with
  | nil => cases h
  | cons t' us =>
    refine ⟨us, ?_⟩
    have hfirst : t'.first = some x := by
      cases hf : t'.first with
      | none => simp [nextIn, hf] at h
      | some y => simpa [nextIn, hf] using h
    cases t <;> cases ht <;> first
      | exact absurd rfl hx
      | ((cases t' <;> cases hfirst); rfl)

/-- A redirection needs its file: the parser panics or takes a word. -/
theorem wp_word {m : Token → Parser Cmd} {Q : Cmd → Nat → Prop} (msg : String) (h : At b es s ts)
    (hm : ∀ w us q eq s', ts = .word w :: us → At b es s' us → Word b q eq w →
      wp (m ⟨ch 'a', q, eq⟩) Q IsPanic s') :
    wp (gettoken b es >>= fun tok => if tok.ret ≠ ch 'a' then panic msg else m tok)
      Q IsPanic s := by
  rw [wp_bind]
  cases ts with
  | nil =>
    refine wp_gettoken_nil h fun q eq s' _ => ?_
    exact wp_stop.mpr nofun
  | cons tok ts =>
    refine wp_gettoken h fun q eq s' h' hword => ?_
    rw [wp_ite]
    refine ⟨fun _ => wp_stop.mpr nofun, fun hcode => ?_⟩
    obtain ⟨w, rfl⟩ := code_eq_word (not_not.mp hcode)
    exact hm w ts q eq s' rfl h' (hword w rfl)

/-- The redirections at the front are taken. -/
theorem parseredirs_sound (h : At b es s ts) (hn : ts.length < n) (ht : Shows (Word b) cmd t) :
    wp (parseredirs b es n cmd) (fun cmd' s' => ∃ rs us, ts = rs.flatMap Redir.toks ++ us ∧
      At b es s' us ∧ Shows (Word b) cmd' (wrap t rs)) IsPanic s := by
  induction n generalizing s ts cmd t with
  | zero => omega
  | succ n ih =>
    rw [parseredirs, wp_bind]
    refine wp_peek h (by decide) fun s1 h1 => ?_
    split
    · rename_i hnext
      cases ts with
      | nil => cases hnext
      | cons tok ts =>
        obtain ⟨d, rfl⟩ := nextIn_redir hnext
        rw [wp_bind]
        refine wp_gettoken h1 fun _ _ s2 h2 _ => ?_
        refine wp_word _ h2 fun w us q eq s3 hts h3 hw => ?_
        subst hts
        simp only [length_cons] at hn
        refine wp_imp (ih h3 (by omega) (ht.redircmd (r := ⟨d, w⟩) hw)) ?_
        rintro cmd' s' ⟨rs, us', rfl, hs', hcmd'⟩
        exact ⟨⟨d, w⟩ :: rs, us', rfl, hs', hcmd'⟩
    · exact wp_pure.mpr ⟨[], ts, rfl, h1, ht⟩

/-- The words and redirections of a simple command are taken. -/
theorem parseargs_sound (ws : List Text) (h : At b es s ts) (hn : ts.length < n)
    (hargs : ws.length < MAXARGS) (ht : Shows (Word b) cmd (wrap (.exec ws) rs)) :
    wp (parseargs b es n ws.length cmd) (fun cmd' s' => ∃ (gs : List Group) (us : List Tok),
      ts = gs.flatMap Group.toks ++ us ∧ At b es s' us ∧ ws.length + gs.length < MAXARGS ∧
      Shows (Word b) cmd' (wrap (.exec (ws ++ gs.map Prod.fst)) (rs ++ gs.flatMap Prod.snd)))
      IsPanic s := by
  induction n generalizing s ts cmd ws rs with
  | zero => omega
  | succ n ih =>
    have hdone : ∀ s', At b es s' ts → ∃ (gs : List Group) (us : List Tok),
        ts = gs.flatMap Group.toks ++ us ∧ At b es s' us ∧ ws.length + gs.length < MAXARGS ∧
        Shows (Word b) cmd (wrap (.exec (ws ++ gs.map Prod.fst)) (rs ++ gs.flatMap Prod.snd)) := by
      intro s' hs'
      refine ⟨[], ts, rfl, hs', hargs, ?_⟩
      simpa using ht
    rw [parseargs, wp_bind]
    refine wp_peek h (by decide) fun s1 h1 => ?_
    split
    · exact wp_pure.mpr (hdone s1 h1)
    rw [wp_bind]
    cases ts with
    | nil =>
      refine wp_gettoken_nil h1 fun q eq s2 h2 => ?_
      exact wp_pure.mpr (hdone s2 h2)
    | cons tok ts =>
      refine wp_gettoken h1 fun q eq s2 h2 hword => ?_
      rw [if_neg (code_ne_zero tok), wp_ite]
      refine ⟨fun _ => wp_stop.mpr nofun, fun hcode => ?_⟩
      obtain ⟨w, rfl⟩ := code_eq_word (not_not.mp hcode)
      have hcmd := ht.addArg (hword w rfl)
      simp only [length_cons] at hn
      rw [wp_ite]
      refine ⟨fun _ => wp_stop.mpr nofun, fun hroom => ?_⟩
      refine wp_then (parseredirs_sound h2 (by omega) hcmd) ?_
      rintro cmd1 s3 ⟨rs1, us, rfl, h3, hcmd1⟩
      rw [← wrap_append] at hcmd1
      rw [length_append] at hn
      have hlen : (ws ++ [w]).length = ws.length + 1 := length_append
      rw [← hlen]
      refine wp_imp (ih _ h3 (by omega) (by omega) hcmd1) ?_
      rintro cmd2 s4 ⟨gs, us', rfl, h4, hgs, hcmd2⟩
      refine ⟨(w, rs1) :: gs, us', ?_, h4, ?_, ?_⟩
      · simp [Group.toks]
      · rw [length_cons]
        omega
      · simpa using hcmd2

/-- The `&`s are taken. -/
theorem parseback_sound (h : At b es s ts) (hn : ts.length < n) (ht : Shows (Word b) cmd t) :
    wp (parseback b es n cmd) (fun cmd' s' => ∃ k us, ts = replicate k .amp ++ us ∧
      At b es s' us ∧ Shows (Word b) cmd' (Tree.back^[k] t)) IsPanic s := by
  induction n generalizing s ts cmd t with
  | zero => omega
  | succ n ih =>
    rw [parseback, wp_bind]
    refine wp_peek h (by decide) fun s1 h1 => ?_
    split
    · rename_i hnext
      obtain ⟨us, rfl⟩ := nextIn_single (t := .amp) rfl (by decide) hnext
      rw [wp_bind]
      refine wp_gettoken h1 fun _ _ s2 h2 _ => ?_
      rw [length_cons] at hn
      refine wp_imp (ih h2 (by omega) (.back ht)) ?_
      rintro cmd' s' ⟨k, us, rfl, hs', hcmd'⟩
      exact ⟨k + 1, us, rfl, hs', hcmd'⟩
    · exact wp_pure.mpr ⟨0, ts, rfl, h1, ht⟩

/-! ### Soundness -/

/-- The parser has taken a derivation of the symbol off the tokens `ts`. -/
def Took (b : Buffer) (es : Nat) (x : Symbol) (ts : List Tok) (cmd : Cmd) (s' : Nat) : Prop :=
  ∃ ts' us t, ts = ts' ++ us ∧ At b es s' us ∧ Derives x ts' t ∧ Shows (Word b) cmd t

/-- With enough fuel for the tokens left, the parser returns what `Took` says or panics. -/
structure Sound (b : Buffer) (es n : Nat) : Prop where
  line : ∀ s ts, At b es s ts → 4 * ts.length + 4 ≤ n →
    wp (parseline b es n) (Took b es .line ts) IsPanic s
  pipe : ∀ s ts, At b es s ts → 4 * ts.length + 3 ≤ n →
    wp (parsepipe b es n) (Took b es .pipe ts) IsPanic s
  exec : ∀ s ts, At b es s ts → 4 * ts.length + 2 ≤ n →
    wp (parseexec b es n) (Took b es .exec ts) IsPanic s
  block : ∀ s ts, At b es s ts → 4 * ts.length + 1 ≤ n →
    wp (parseblock b es n) (Took b es .exec ts) IsPanic s

theorem parseline_sound (ih : Sound b es n) (h : At b es s ts) (hn : 4 * ts.length + 4 ≤ n + 1) :
    wp (parseline b es (n + 1)) (Took b es .line ts) IsPanic s := by
  refine wp_then (ih.pipe s ts h (by omega)) ?_
  rintro cmd s1 ⟨ts1, us, t, rfl, h1, hpipe, hcmd⟩
  rw [length_append] at hn
  refine wp_then (parseback_sound h1 (by omega) hcmd) ?_
  rintro cmd2 s2 ⟨k, us, rfl, h2, hcmd2⟩
  rw [length_append] at hn
  rw [wp_bind]
  refine wp_peek h2 (by decide) fun s3 h3 => ?_
  split
  · rename_i hnext
    obtain ⟨us, rfl⟩ := nextIn_single (t := .semi) rfl (by decide) hnext
    rw [length_cons] at hn
    rw [wp_bind]
    refine wp_gettoken h3 fun _ _ s4 h4 _ => ?_
    refine wp_then (ih.line s4 us h4 (by omega)) ?_
    rintro cmd5 s5 ⟨ts5, us, t5, rfl, h5, hline, hcmd5⟩
    exact wp_pure.mpr ⟨_, us, _, by simp, h5, .semi k hpipe hline, .list hcmd2 hcmd5⟩
  · exact wp_pure.mpr ⟨_, us, _, (append_assoc ..).symm, h3, .last k hpipe, hcmd2⟩

theorem parsepipe_sound (ih : Sound b es n) (h : At b es s ts) (hn : 4 * ts.length + 3 ≤ n + 1) :
    wp (parsepipe b es (n + 1)) (Took b es .pipe ts) IsPanic s := by
  refine wp_then (ih.exec s ts h (by omega)) ?_
  rintro cmd s1 ⟨ts1, us, t, rfl, h1, hexec, hcmd⟩
  rw [length_append] at hn
  rw [wp_bind]
  refine wp_peek h1 (by decide) fun s2 h2 => ?_
  split
  · rename_i hnext
    obtain ⟨us, rfl⟩ := nextIn_single (t := .bar) rfl (by decide) hnext
    rw [length_cons] at hn
    rw [wp_bind]
    refine wp_gettoken h2 fun _ _ s3 h3 _ => ?_
    refine wp_then (ih.pipe s3 us h3 (by omega)) ?_
    rintro cmd4 s4 ⟨ts4, us, t4, rfl, h4, hpipe, hcmd4⟩
    exact wp_pure.mpr ⟨_, us, _, by simp, h4, .bar hexec hpipe, .pipe hcmd hcmd4⟩
  · exact wp_pure.mpr ⟨_, us, _, rfl, h2, .single hexec, hcmd⟩

theorem parseexec_sound (ih : Sound b es n) (h : At b es s ts) (hn : 4 * ts.length + 2 ≤ n + 1) :
    wp (parseexec b es (n + 1)) (Took b es .exec ts) IsPanic s := by
  rw [parseexec, wp_bind]
  refine wp_peek h (by decide) fun s1 h1 => ?_
  split
  · exact ih.block s1 ts h1 (by omega)
  · refine wp_then (parseredirs_sound h1 (by omega) (.exec .nil)) ?_
    rintro cmd s2 ⟨rs, us, rfl, h2, hcmd⟩
    rw [length_append] at hn
    refine wp_imp (parseargs_sound [] h2 (by omega) (by decide) hcmd) ?_
    rintro cmd' s' ⟨gs, us, rfl, h', hgs, hcmd'⟩
    rw [length_nil, Nat.zero_add] at hgs
    exact ⟨_, us, _, (append_assoc ..).symm, h', .simple rs gs hgs, hcmd'⟩

theorem parseblock_sound (ih : Sound b es n) (h : At b es s ts) (hn : 4 * ts.length + 1 ≤ n + 1) :
    wp (parseblock b es (n + 1)) (Took b es .exec ts) IsPanic s := by
  rw [parseblock, wp_bind]
  refine wp_peek h (by decide) fun s1 h1 => ?_
  split
  · rename_i hnext
    obtain ⟨us, rfl⟩ := nextIn_single (t := .lpar) rfl (by decide) hnext
    rw [length_cons] at hn
    rw [wp_bind]
    refine wp_gettoken h1 fun _ _ s2 h2 _ => ?_
    refine wp_then (ih.line s2 us h2 (by omega)) ?_
    rintro cmd s3 ⟨ts3, us, t, rfl, h3, hline, hcmd⟩
    rw [length_append] at hn
    rw [wp_bind]
    refine wp_peek h3 (by decide) fun s4 h4 => ?_
    split
    · rename_i hnext'
      obtain ⟨us, rfl⟩ := nextIn_single (t := .rpar) rfl (by decide) hnext'
      rw [length_cons] at hn
      rw [wp_bind]
      refine wp_gettoken h4 fun _ _ s5 h5 _ => ?_
      refine wp_imp (parseredirs_sound h5 (by omega) hcmd) ?_
      rintro cmd' s' ⟨rs, us, rfl, h', hcmd'⟩
      exact ⟨_, us, _, by simp, h', .block rs hline, hcmd'⟩
    · exact wp_stop.mpr nofun
  · exact wp_stop.mpr nofun

theorem sound (b : Buffer) (es n : Nat) : Sound b es n := by
  induction n with
  | zero => exact ⟨nofun, nofun, nofun, nofun⟩
  | succ n ih =>
    exact ⟨fun _ _ => parseline_sound ih, fun _ _ => parsepipe_sound ih,
      fun _ _ => parseexec_sound ih, fun _ _ => parseblock_sound ih⟩

/-! ### Completeness -/

/-- What comes next cannot be taken for a part of the symbol. -/
def Follow : Symbol → List Tok → Prop
  | .exec, us => us = [] ∨ nextIn ['|', ')', '&', ';'] us = true
  | .pipe, us => us = [] ∨ nextIn [')', '&', ';'] us = true
  | .line, us => us = [] ∨ nextIn [')'] us = true

/-- Looking for more symbols finds no less. -/
theorem nextIn_mono {cs cs' : List Char} (hsub : cs ⊆ cs') (h : nextIn cs us = true) :
    nextIn cs' us = true := by
  cases us with
  | nil => cases h
  | cons t us =>
    cases hf : t.first with
    | none => simp [nextIn, hf] at h
    | some x =>
      simp only [nextIn, hf, Option.any_some, contains_iff_mem] at h ⊢
      exact hsub h

/-- Looking for other symbols finds nothing. -/
theorem nextIn_disjoint {cs cs' : List Char} (hdis : cs.all (fun x => !cs'.contains x) = true)
    (h : us = [] ∨ nextIn cs us = true) : nextIn cs' us = false := by
  cases us with
  | nil => rfl
  | cons t us =>
    cases hf : t.first with
    | none => simp [nextIn, hf]
    | some x =>
      obtain h | h := h
      · cases h
      · simp only [nextIn, hf, Option.any_some, contains_iff_mem] at h ⊢
        simpa using all_eq_true.mp hdis x h

/-- All redirections are taken. -/
theorem parseredirs_complete (h : At b es s (rs.flatMap Redir.toks ++ us))
    (hus : nextIn ['<', '>'] us = false) (hn : (rs.flatMap Redir.toks ++ us).length < n)
    (ht : Shows (Word b) cmd t) :
    wp (parseredirs b es n cmd) (fun cmd' s' => At b es s' us ∧ Shows (Word b) cmd' (wrap t rs))
      E s := by
  induction rs generalizing s n cmd t with
  | nil =>
    obtain ⟨n, rfl⟩ := Nat.exists_eq_add_of_lt hn
    rw [parseredirs, wp_bind]
    refine wp_peek h (by decide) fun s1 h1 => ?_
    rw [flatMap_nil, nil_append] at h1 ⊢
    rw [hus]
    exact wp_pure.mpr ⟨h1, ht⟩
  | cons r rs ih =>
    obtain ⟨n, rfl⟩ : ∃ k, n = k + 1 := Nat.exists_eq_add_one_of_ne_zero (by omega)
    have hcons : (r :: rs).flatMap Redir.toks ++ us =
        r.dir.tok :: .word r.file :: (rs.flatMap Redir.toks ++ us) := rfl
    rw [hcons] at h hn
    have hnext : nextIn ['<', '>'] (r.dir.tok :: .word r.file :: (rs.flatMap Redir.toks ++ us)) =
        true := by
      cases r.dir <;> rfl
    rw [parseredirs, wp_bind]
    refine wp_peek h (by decide) fun s1 h1 => ?_
    rw [hnext, if_pos rfl, wp_bind]
    refine wp_gettoken h1 fun _ _ s2 h2 _ => ?_
    rw [wp_bind]
    refine wp_gettoken h2 fun q eq s3 h3 hword => ?_
    simp only [length_cons] at hn
    exact ih h3 (by omega) (ht.redircmd (hword _ rfl))

/-- A simple command goes on with a word. -/
theorem nextIn_groups (hus : Follow .exec us) :
    nextIn ['<', '>'] (gs.flatMap Group.toks ++ us) = false := by
  cases gs with
  | nil => exact nextIn_disjoint (by decide) hus
  | cons g gs => rfl

/-- All words and redirections of a simple command are taken. -/
theorem parseargs_complete (ws : List Text) (h : At b es s (gs.flatMap Group.toks ++ us))
    (hus : Follow .exec us) (hn : (gs.flatMap Group.toks ++ us).length < n)
    (hargs : ws.length + gs.length < MAXARGS) (ht : Shows (Word b) cmd (wrap (.exec ws) rs)) :
    wp (parseargs b es n ws.length cmd) (fun cmd' s' => At b es s' us ∧ Shows (Word b) cmd'
      (wrap (.exec (ws ++ gs.map Prod.fst)) (rs ++ gs.flatMap Prod.snd))) E s := by
  induction gs generalizing s n cmd ws rs with
  | nil =>
    obtain ⟨n, rfl⟩ : ∃ k, n = k + 1 := Nat.exists_eq_add_one_of_ne_zero (by omega)
    have hdone : Shows (Word b) cmd (wrap (.exec (ws ++ ([] : List Group).map Prod.fst))
        (rs ++ ([] : List Group).flatMap Prod.snd)) := by simpa using ht
    rw [parseargs, wp_bind]
    refine wp_peek h (by decide) fun s1 h1 => ?_
    rw [flatMap_nil, nil_append] at h1 ⊢
    obtain rfl | hnext := hus
    · rw [if_neg (by decide), wp_bind]
      refine wp_gettoken_nil h1 fun q eq s2 h2 => ?_
      exact wp_pure.mpr ⟨h2, hdone⟩
    · rw [if_pos hnext]
      exact wp_pure.mpr ⟨h1, hdone⟩
  | cons g gs ih =>
    obtain ⟨n, rfl⟩ : ∃ k, n = k + 1 := Nat.exists_eq_add_one_of_ne_zero (by omega)
    have hcons : (g :: gs).flatMap Group.toks ++ us =
        .word g.1 :: (g.2.flatMap Redir.toks ++ (gs.flatMap Group.toks ++ us)) := by
      simp [Group.toks]
    rw [hcons] at h hn
    simp only [length_cons] at hn hargs
    rw [parseargs, wp_bind]
    refine wp_peek h (by decide) fun s1 h1 => ?_
    rw [if_neg (by simp [nextIn, Tok.first]), wp_bind]
    refine wp_gettoken h1 fun q eq s2 h2 hword => ?_
    rw [if_neg (code_ne_zero _), if_neg (not_not.mpr (code_word _)), if_neg (by omega), wp_bind]
    refine wp_imp
      (parseredirs_complete h2 (nextIn_groups hus) (by omega) (ht.addArg (hword _ rfl))) ?_
    rintro cmd1 s3 ⟨h3, hcmd1⟩
    rw [← wrap_append] at hcmd1
    have hlen : (ws ++ [g.1]).length = ws.length + 1 := length_append
    rw [length_append] at hn
    rw [← hlen]
    refine wp_imp (ih _ h3 (by omega) (by omega) hcmd1) ?_
    rintro cmd2 s4 ⟨h4, hcmd2⟩
    exact ⟨h4, by simpa using hcmd2⟩

/-- All `&`s are taken. -/
theorem parseback_complete {k : Nat} (h : At b es s (replicate k .amp ++ us))
    (hus : nextIn ['&'] us = false) (hn : (replicate k Tok.amp ++ us).length < n)
    (ht : Shows (Word b) cmd t) : wp (parseback b es n cmd) (fun cmd' s' => At b es s' us ∧
      Shows (Word b) cmd' (Tree.back^[k] t)) E s := by
  induction k generalizing s n cmd t with
  | zero =>
    obtain ⟨n, rfl⟩ : ∃ k, n = k + 1 := Nat.exists_eq_add_one_of_ne_zero (by omega)
    rw [parseback, wp_bind]
    refine wp_peek h (by decide) fun s1 h1 => ?_
    rw [replicate_zero, nil_append] at h1 ⊢
    rw [hus]
    exact wp_pure.mpr ⟨h1, ht⟩
  | succ k ih =>
    obtain ⟨n, rfl⟩ : ∃ k, n = k + 1 := Nat.exists_eq_add_one_of_ne_zero (by omega)
    rw [replicate_succ, cons_append] at h hn
    rw [length_cons] at hn
    exact wp_take h (by decide) rfl fun _ s1 h1 => ih h1 (by omega) (.back ht)

/-- The function that parses a symbol. -/
def parse (b : Buffer) (es : Nat) : Symbol → Nat → Parser Cmd
  | .line => parseline b es
  | .pipe => parsepipe b es
  | .exec => parseexec b es

/-- The fuel it needs besides 4 for each token. -/
def need : Symbol → Nat
  | .line => 4
  | .pipe => 3
  | .exec => 2

/-- The parser takes the symbol off the tokens `ts ++ us`, with the tree `t`. -/
def Parses (b : Buffer) (es : Nat) (x : Symbol) (ts : List Tok) (t : Tree) : Prop :=
  ∀ s us n, At b es s (ts ++ us) → Follow x us → 4 * (ts ++ us).length + need x ≤ n →
    wp (parse b es x n) (fun cmd s' => At b es s' us ∧ Shows (Word b) cmd t) (fun _ => False) s

/-- A simple command does not start with a parenthesis. -/
theorem nextIn_simple {rs : List Redir} {gs : List Group} (hus : Follow .exec us) :
    nextIn ['('] (rs.flatMap Redir.toks ++ (gs.flatMap Group.toks ++ us)) = false := by
  cases rs with
  | nil =>
    cases gs with
    | nil => exact nextIn_disjoint (by decide) hus
    | cons g gs => rfl
  | cons r rs =>
    obtain ⟨dir, file⟩ := r
    cases dir <;> rfl

theorem parses_simple (hgs : gs.length < MAXARGS) :
    Parses b es .exec (rs.flatMap Redir.toks ++ gs.flatMap Group.toks)
      (wrap (.exec (gs.map Prod.fst)) (rs ++ gs.flatMap Prod.snd)) := by
  intro s us n h hus hn
  rw [append_assoc] at h hn
  rw [need] at hn
  obtain ⟨n, rfl⟩ : ∃ k, n = k + 1 := ⟨n - 1, by omega⟩
  rw [parse, parseexec, wp_bind]
  refine wp_peek h (by decide) fun s1 h1 => ?_
  rw [nextIn_simple hus]
  refine wp_then (parseredirs_complete h1 (nextIn_groups hus) (by omega) (.exec .nil)) ?_
  rintro cmd s2 ⟨h2, hcmd⟩
  rw [length_append] at hn
  exact parseargs_complete [] h2 hus (by omega) (by simpa using hgs) hcmd

theorem parses_block (ih : Parses b es .line ts t) :
    Parses b es .exec (.lpar :: ts ++ .rpar :: rs.flatMap Redir.toks) (wrap t rs) := by
  intro s us n h hus hn
  have hcons : .lpar :: ts ++ .rpar :: rs.flatMap Redir.toks ++ us =
      .lpar :: (ts ++ .rpar :: (rs.flatMap Redir.toks ++ us)) := by simp
  rw [hcons] at h hn
  rw [length_cons] at hn
  rw [need] at hn
  obtain ⟨n, rfl⟩ : ∃ k, n = k + 2 := ⟨n - 2, by omega⟩
  have hopen : nextIn ['('] (.lpar :: (ts ++ .rpar :: (rs.flatMap Redir.toks ++ us))) = true := rfl
  have hclose : nextIn [')'] (.rpar :: (rs.flatMap Redir.toks ++ us)) = true := rfl
  rw [parse, parseexec, wp_bind]
  refine wp_peek h (by decide) fun s1 h1 => ?_
  rw [if_pos hopen, parseblock]
  refine wp_take h1 (by decide) hopen fun _ s2 h2 => ?_
  refine wp_then (ih s2 _ n h2 (.inr hclose) (by rw [need]; omega)) ?_
  rintro cmd s3 ⟨h3, hcmd⟩
  rw [length_append, length_cons] at hn
  refine wp_take h3 (by decide) hclose fun _ s4 h4 => ?_
  exact parseredirs_complete h4 (nextIn_disjoint (by decide) hus) (by omega) hcmd

theorem parses_single (ih : Parses b es .exec ts t) : Parses b es .pipe ts t := by
  intro s us n h hus hn
  rw [need] at hn
  obtain ⟨n, rfl⟩ : ∃ k, n = k + 1 := ⟨n - 1, by omega⟩
  refine wp_then (ih s us n h (hus.imp_right (nextIn_mono (by decide))) (by rw [need]; omega)) ?_
  rintro cmd s1 ⟨h1, hcmd⟩
  rw [wp_bind]
  refine wp_peek h1 (by decide) fun s2 h2 => ?_
  rw [nextIn_disjoint (by decide) hus]
  exact wp_pure.mpr ⟨h2, hcmd⟩

theorem parses_bar {ts' : List Tok} {t' : Tree} (ih : Parses b es .exec ts t)
    (ih' : Parses b es .pipe ts' t') : Parses b es .pipe (ts ++ .bar :: ts') (.pipe t t') := by
  intro s us n h hus hn
  rw [append_assoc, cons_append] at h hn
  rw [need] at hn
  obtain ⟨n, rfl⟩ : ∃ k, n = k + 1 := ⟨n - 1, by omega⟩
  refine wp_then (ih s _ n h (.inr rfl) (by rw [need]; omega)) ?_
  rintro cmd s1 ⟨h1, hcmd⟩
  rw [length_append, length_cons] at hn
  refine wp_take h1 (by decide) rfl fun _ s3 h3 => ?_
  refine wp_then (ih' s3 us n h3 hus (by rw [need]; omega)) ?_
  rintro cmd' s4 ⟨h4, hcmd'⟩
  exact wp_pure.mpr ⟨h4, .pipe hcmd hcmd'⟩

/-- What can follow the `&`s can follow the pipeline before them. -/
theorem follow_amps (k : Nat) (hus : Follow .pipe us) :
    Follow .pipe (replicate k .amp ++ us) := by
  cases k with
  | zero => exact hus
  | succ k => exact .inr rfl

theorem parses_last (k : Nat) (ih : Parses b es .pipe ts t) :
    Parses b es .line (ts ++ replicate k .amp) (Tree.back^[k] t) := by
  intro s us n h hus hn
  rw [append_assoc] at h hn
  rw [need] at hn
  obtain ⟨n, rfl⟩ : ∃ k, n = k + 1 := ⟨n - 1, by omega⟩
  have hpipe : Follow .pipe us := hus.imp_right (nextIn_mono (by decide))
  refine wp_then (ih s _ n h (follow_amps k hpipe) (by rw [need]; omega)) ?_
  rintro cmd s1 ⟨h1, hcmd⟩
  rw [length_append] at hn
  refine wp_then (parseback_complete h1 (nextIn_disjoint (by decide) hus) (by omega) hcmd) ?_
  rintro cmd2 s2 ⟨h2, hcmd2⟩
  rw [wp_bind]
  refine wp_peek h2 (by decide) fun s3 h3 => ?_
  rw [nextIn_disjoint (by decide) hus]
  exact wp_pure.mpr ⟨h3, hcmd2⟩

theorem parses_semi {ts' : List Tok} {t' : Tree} (k : Nat) (ih : Parses b es .pipe ts t)
    (ih' : Parses b es .line ts' t') :
    Parses b es .line (ts ++ replicate k .amp ++ .semi :: ts')
      (.list (Tree.back^[k] t) t') := by
  intro s us n h hus hn
  have hassoc : ts ++ replicate k .amp ++ .semi :: ts' ++ us =
      ts ++ (replicate k .amp ++ .semi :: (ts' ++ us)) := by simp
  rw [hassoc] at h hn
  rw [need] at hn
  obtain ⟨n, rfl⟩ : ∃ k, n = k + 1 := ⟨n - 1, by omega⟩
  have hnext : nextIn [';'] (.semi :: (ts' ++ us)) = true := rfl
  refine wp_then (ih s _ n h (follow_amps k (.inr rfl)) (by rw [need]; omega)) ?_
  rintro cmd s1 ⟨h1, hcmd⟩
  rw [length_append] at hn
  refine wp_then (parseback_complete h1 rfl (by omega) hcmd) ?_
  rintro cmd2 s2 ⟨h2, hcmd2⟩
  rw [length_append, length_cons] at hn
  refine wp_take h2 (by decide) hnext fun _ s4 h4 => ?_
  refine wp_then (ih' s4 us n h4 hus (by rw [need]; omega)) ?_
  rintro cmd' s5 ⟨h5, hcmd'⟩
  exact wp_pure.mpr ⟨h5, .list hcmd2 hcmd'⟩

/-- The parser returns on every sequence of tokens that is derivable. -/
theorem parses_of_derives {x : Symbol} (h : Derives x ts t) : Parses b es x ts t := by
  induction h with
  | simple rs gs hgs => exact parses_simple hgs
  | block rs _ ih => exact parses_block ih
  | single _ ih => exact parses_single ih
  | bar _ _ ih ih' => exact parses_bar ih ih'
  | last k _ ih => exact parses_last k ih
  | semi k _ _ ih ih' => exact parses_semi k ih ih'

/-! ### `nulterminate` -/

/-- The string at `q` is `w`. -/
structure CStr (b : Buffer) (q : Nat) (w : Text) : Prop where
  load : load b q w.length = w
  bytes : 0 ∉ w
  nul : b (q + w.length) = 0

/-- Where `nulterminate` writes. -/
def Cmd.ends : Cmd → List Nat
  | .exec args => args.map Prod.snd
  | .redir cmd _ efile _ _ => efile :: cmd.ends
  | .pipe left right | .list left right => left.ends ++ right.ends
  | .back cmd => cmd.ends

theorem foldl_update (args : List (Nat × Nat)) (b : Buffer) (k : Nat) :
    args.foldl (fun b a => update b a.2 0) b k = if k ∈ args.map Prod.snd then 0 else b k := by
  induction args generalizing b with
  | nil => rfl
  | cons a args ih =>
    rw [foldl_cons, ih, map_cons]
    by_cases hk : k = a.2
    · subst hk
      simp
    · simp only [update_of_ne hk, mem_cons, hk, false_or]

theorem nulterminate_apply (cmd : Cmd) (b : Buffer) (k : Nat) :
    nulterminate cmd b k = if k ∈ cmd.ends then 0 else b k := by
  induction cmd generalizing b with
  | exec args => exact foldl_update args b k
  | redir cmd file efile mode fd ih =>
    rw [nulterminate, Cmd.ends]
    by_cases hk : k = efile
    · subst hk
      simp
    · rw [update_of_ne hk, ih]
      simp [hk]
  | pipe left right ihl ihr | list left right ihl ihr =>
    rw [nulterminate, Cmd.ends, ihr, ihl]
    by_cases hr : k ∈ right.ends <;> by_cases hl : k ∈ left.ends <;> simp [hr]
  | back cmd ih => exact ih b

theorem exists_word {args : List (Nat × Nat)} {ws : List Text}
    (h : List.Forall₂ (fun a w => R a.1 a.2 w) args ws) {a : Nat × Nat} (ha : a ∈ args) :
    ∃ w, R a.1 a.2 w := by
  induction h with
  | nil => cases ha
  | cons hw _ ih =>
    obtain rfl | ha := mem_cons.mp ha
    · exact ⟨_, hw⟩
    · exact ih ha

/-- The bytes written over are not of words. -/
theorem Shows.ends_stop (h : Shows (Word b) cmd t) :
    ∀ e ∈ cmd.ends, b e = 0 ∨ isWord (b e) = false := by
  induction h with
  | exec hargs =>
    intro e he
    obtain ⟨a, ha, rfl⟩ := mem_map.mp he
    obtain ⟨w, hw⟩ := exists_word hargs ha
    exact hw.stop
  | redir _ hfile ih =>
    intro e he
    obtain rfl | he := mem_cons.mp he
    · exact hfile.stop
    · exact ih e he
  | pipe _ _ ihl ihr | list _ _ ihl ihr =>
    intro e he
    obtain he | he := mem_append.mp he
    · exact ihl e he
    · exact ihr e he
  | back _ ih => exact ih

/-- The ends of the words are among the bytes written over. -/
theorem Shows.imp {R' : Nat → Nat → Text → Prop} (h : Shows R cmd t)
    (himp : ∀ q, ∀ eq ∈ cmd.ends, ∀ w, R q eq w → R' q eq w) : Shows R' cmd t := by
  induction h with
  | exec hargs =>
    refine .exec ?_
    rw [forall₂_iff_zip] at hargs ⊢
    refine ⟨hargs.1, fun {a w} haw => ?_⟩
    exact himp _ _ (mem_map_of_mem (of_mem_zip haw).1) _ (hargs.2 haw)
  | redir _ hfile ih =>
    refine .redir (ih fun q e he => himp q e (mem_cons_of_mem _ he)) ?_
    exact himp _ _ mem_cons_self _ hfile
  | pipe _ _ ihl ihr =>
    exact .pipe (ihl fun q e he => himp q e (mem_append_left _ he))
      (ihr fun q e he => himp q e (mem_append_right _ he))
  | list _ _ ihl ihr =>
    exact .list (ihl fun q e he => himp q e (mem_append_left _ he))
      (ihr fun q e he => himp q e (mem_append_right _ he))
  | back _ ih => exact .back (ih himp)

/-- A word is a string once the byte behind it is a NUL and its own bytes are as they were. -/
theorem cstr_of_word {b' : Buffer} {w : Text} (h : Word b q eq w)
    (hin : ∀ k, q ≤ k → k < eq → b' k = b k) (hend : b' eq = 0) : CStr b' q w := by
  have hlen : w.length = eq - q := by rw [← h.load, length_load]
  have hlt := h.lt
  have hload : load b' q w.length = w := by
    rw [hlen]
    exact (load_congr fun i hi => hin _ (by omega) (by omega)).trans h.load
  refine ⟨hload, fun hmem => ?_, ?_⟩
  · rw [← h.load, load, mem_map] at hmem
    obtain ⟨i, hi, hzero⟩ := hmem
    rw [mem_range] at hi
    exact (h.bytes (q + i) (by omega) (by omega)).1 hzero
  · rw [hlen, Nat.add_sub_cancel' hlt.le]
    exact hend

/-- The NULs do not fall into words. -/
theorem nulterminate_shows (h : Shows (Word b) cmd t) :
    Shows (fun q _ w => CStr (nulterminate cmd b) q w) cmd t := by
  refine h.imp fun q eq heq w hw => cstr_of_word hw (fun k hk hk' => ?_) ?_
  · rw [nulterminate_apply, if_neg]
    intro hmem
    have hbyte := hw.bytes k hk hk'
    obtain hzero | hstop := h.ends_stop k hmem
    · exact hbyte.1 hzero
    · simp [hbyte.2] at hstop
  · rw [nulterminate_apply, if_pos heq]

/-! ### `parsecmd` -/

theorem strlen_eq {len fuel : Nat} (hnul : b (s + len) = 0)
    (hbytes : ∀ i, s ≤ i → i < s + len → b i ≠ 0) (hfuel : len ≤ fuel) : strlen b fuel s = len := by
  induction len generalizing s fuel with
  | zero =>
    cases fuel with
    | zero => rfl
    | succ fuel => exact if_pos hnul
  | succ len ih =>
    obtain ⟨fuel, rfl⟩ : ∃ k, fuel = k + 1 := ⟨fuel - 1, by omega⟩
    rw [strlen, if_neg (hbytes s le_rfl (by omega)), ih]
    · rw [Nat.add_right_comm]
      exact hnul
    · exact fun i hi hi' => hbytes i (by omega) (by omega)
    · omega

/-- After the last `peek` the parser is at the end if no token is left. -/
theorem peek_end (h : At b es s ts) :
    ∃ s', peek b es [] s = .ok (false, s') ∧ (ts = [] ↔ s' = es) := by
  obtain ⟨hat, -, hspace⟩ := h.skip
  refine ⟨_, ?_, hat.nil_iff hspace⟩
  have hpeek : peek b es [] s =
      .ok (decide (b (skip b es s) ≠ 0 ∧ strchr (str []) (b (skip b es s)) = true),
        skip b es s) := rfl
  rw [hpeek]
  simp [str, strchr]

/-- What `parsecmd` makes of the result of `parseline`. -/
theorem parsecmd_of_parseline {s' : Nat} {us : List Tok} (hes : s + strlen b n s = es)
    (hline : parseline b es n s = .ok (cmd, s')) (h : At b es s' us) : parsecmd n b s =
      if us = [] then .ok (cmd, nulterminate cmd b) else .error (.panic "syntax") := by
  obtain ⟨s2, hpeek, hend⟩ := peek_end h
  have hrun : parsecmd n b s =
      if s2 ≠ es then .error (.panic "syntax") else .ok (cmd, nulterminate cmd b) := by
    simp only [parsecmd, hes, hline, hpeek, bind, Except.bind]
  rw [hrun]
  by_cases hus : us = []
  · rw [if_neg (by simp [hend.mp hus]), if_pos hus]
  · rw [if_pos fun he => hus (hend.mpr he), if_neg hus]

/-- A line that is derivable is parsed, and its words are strings afterwards. -/
theorem parsecmd_of_derives (hes : s + strlen b n s = es) (h : At b es s ts)
    (hn : 4 * ts.length + 4 ≤ n) (hder : Derives .line ts t) :
    ∃ cmd, parsecmd n b s = .ok (cmd, nulterminate cmd b) ∧
      Shows (fun q _ w => CStr (nulterminate cmd b) q w) cmd t := by
  rw [← append_nil ts] at h hn
  obtain ⟨cmd, s', hline, hend, hcmd⟩ :=
    exists_ok_of_wp (parses_of_derives hder s [] n h (.inl rfl) hn)
  refine ⟨cmd, ?_, nulterminate_shows hcmd⟩
  rw [parsecmd_of_parseline hes hline hend, if_pos rfl]

/-- The parser does not run out of fuel, and what it returns has a derivation. -/
theorem derives_of_parsecmd (hes : s + strlen b n s = es) (h : At b es s ts)
    (hn : 4 * ts.length + 4 ≤ n) :
    parsecmd n b s ≠ .error .fuel ∧ ∀ r, parsecmd n b s = .ok r → ∃ t, Derives .line ts t := by
  have hsound := (sound b es n).line s ts h hn
  cases hline : parseline b es n s with
  | error e =>
    have hrun : parsecmd n b s = .error e := by simp only [parsecmd, hes, hline, bind, Except.bind]
    have he : IsPanic e := wp_error hsound hline
    rw [hrun]
    exact ⟨fun heq => he (Except.error.inj heq), nofun⟩
  | ok r =>
    obtain ⟨cmd, s'⟩ := r
    obtain ⟨ts', us, t, rfl, hs', hder, -⟩ := wp_ok hsound hline
    rw [parsecmd_of_parseline hes hline hs']
    by_cases hus : us = []
    · subst hus
      rw [append_nil]
      exact ⟨nofun, fun _ _ => ⟨t, hder⟩⟩
    · rw [if_neg hus]
      exact ⟨nofun, nofun⟩

/-- On every line that ends with a NUL the parser ends, with enough fuel. It returns a
command if and only if the tokens of the line are derivable; the nodes are then the tree
of the derivation, each word being the string its token was. -/
theorem parsecmd_iff {b : Buffer} {s len fuel : Nat} (hnul : b (s + len) = 0)
    (hbytes : ∀ i, s ≤ i → i < s + len → b i ≠ 0) (hfuel : 4 * len + 4 ≤ fuel) :
    parsecmd fuel b s ≠ .error .fuel ∧
      ((∃ r, parsecmd fuel b s = .ok r) ↔ ∃ t, Derives .line (tokenize (load b s len)) t) ∧
      ∀ cmd b' t, parsecmd fuel b s = .ok (cmd, b') →
        Derives .line (tokenize (load b s len)) t → Shows (fun q _ w => CStr b' q w) cmd t := by
  have hes : s + strlen b fuel s = s + len := by rw [strlen_eq hnul hbytes (by omega)]
  have hat : At b (s + len) s (tokenize (load b s len)) := by
    refine ⟨Nat.le_add_right .., hnul, hbytes, ?_⟩
    rw [text, Nat.add_sub_cancel_left]
  have hn : 4 * (tokenize (load b s len)).length + 4 ≤ fuel := by
    have hle := length_tokenize_le (load b s len)
    rw [length_load] at hle
    omega
  obtain ⟨hpanic, hder⟩ := derives_of_parsecmd hes hat hn
  refine ⟨hpanic, ⟨fun hr => hr.elim hder, ?_⟩, fun cmd b' t hr ht => ?_⟩
  · rintro ⟨t, ht⟩
    obtain ⟨cmd, hr, -⟩ := parsecmd_of_derives hes hat hn ht
    exact ⟨_, hr⟩
  · obtain ⟨cmd', hr', hshows⟩ := parsecmd_of_derives hes hat hn ht
    obtain ⟨rfl, rfl⟩ : cmd = cmd' ∧ b' = nulterminate cmd' b := by
      rw [hr] at hr'
      exact Prod.mk.inj (Except.ok.inj hr')
    exact hshows

/-- A command line in memory. -/
def typed (line : List Char) : Buffer := fun i => (line.map ch)[i]?.getD 0

def exampleLine : List Char := ['a', '>', 'f', '|', '(', 'b', ';', 'c', ')', '&']

def exampleTree : Tree :=
  .back (.pipe (.redir (.exec [str ['a']]) ⟨.output, str ['f']⟩)
    (.list (.exec [str ['b']]) (.exec [str ['c']])))

/-- `a>f|(b;c)&` -/
theorem parsecmd_iff_example : ∃ cmd b', parsecmd 44 (typed exampleLine) 0 = .ok (cmd, b') ∧
    Shows (fun q _ w => CStr b' q w) cmd exampleTree := by
  have hnul : typed exampleLine (0 + 10) = 0 := by decide
  have hbytes : ∀ i, 0 ≤ i → i < 0 + 10 → typed exampleLine i ≠ 0 := by decide
  have hload : load (typed exampleLine) 0 10 = str exampleLine := by decide
  have htoks : tokenize (load (typed exampleLine) 0 10) = [.word (str ['a']), .gt,
      .word (str ['f']), .bar, .lpar, .word (str ['b']), .semi, .word (str ['c']), .rpar,
      .amp] := by
    rw [hload]
    simp +decide [exampleLine, str, tokenize]
  have hleft : Derives .exec [.word (str ['a']), .gt, .word (str ['f'])] _ :=
    .simple [] [(str ['a'], [⟨.output, str ['f']⟩])] (by decide)
  have hb : Derives .pipe [.word (str ['b'])] _ :=
    .single (.simple [] [(str ['b'], [])] (by decide))
  have hc : Derives .pipe [.word (str ['c'])] _ :=
    .single (.simple [] [(str ['c'], [])] (by decide))
  have hder : Derives .line (tokenize (load (typed exampleLine) 0 10)) exampleTree := by
    rw [htoks]
    exact .last 1 (.bar hleft (.single (.block [] (.semi 0 hb (.last 0 hc)))))
  obtain ⟨-, hiff, htree⟩ := parsecmd_iff hnul hbytes (le_refl 44)
  obtain ⟨⟨cmd, b'⟩, hr⟩ := hiff.mpr ⟨_, hder⟩
  exact ⟨cmd, b', hr, htree cmd b' _ hr hder⟩

end Xv6.User.Shell
