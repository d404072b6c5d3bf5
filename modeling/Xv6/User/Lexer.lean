import Mathlib.Data.List.TakeWhile
import Xv6.User.Shell

/-!
# xv6 — tokens of a command line

The token sequence of a string, said apart from the code, and what `gettoken` and
`peek` do in terms of the tokens that are left.

* `tokenize`      — the tokens of a string.
* `At b es s ts`  — from the place `s` on the line holds the tokens `ts`.
* `gettoken_cons`, `gettoken_nil`, `peek_eq` — the two operations.
* `Word b q eq w` — the word `w` is at `q` and what follows it cannot belong to it.
-/

namespace Xv6.User.Shell

open ByteBuffer Prog List

variable {toks : List Char}

inductive Tok where
  | word (w : List UInt8)
  | lt
  | gt
  | gtgt
  | bar
  | amp
  | semi
  | lpar
  | rpar
  deriving DecidableEq, Repr

/-- The symbols that are a token by themselves. -/
def single (c : UInt8) : Option Tok :=
  if c = ch '<' then some .lt
  else if c = ch '|' then some .bar
  else if c = ch '&' then some .amp
  else if c = ch ';' then some .semi
  else if c = ch '(' then some .lpar
  else if c = ch ')' then some .rpar
  else none

/-- The tokens of a string: symbols, `>>` being one, and longest words between them. -/
def tokenize : List UInt8 → List Tok
  | [] => []
  | c :: cs =>
    if strchr whitespace c then tokenize cs
    else if c = ch '>' then
      if cs.head? = some (ch '>') then .gtgt :: tokenize cs.tail else .gt :: tokenize cs
    else
      match single c with
      | some t => t :: tokenize cs
      | none => .word (c :: cs.takeWhile isWord) :: tokenize (cs.dropWhile isWord)
  termination_by cs => cs.length
  decreasing_by
    · exact Nat.lt_succ_self _
    · exact Nat.lt_succ_of_le (by rw [List.length_tail]; omega)
    · exact Nat.lt_succ_self _
    · exact Nat.lt_succ_self _
    · exact Nat.lt_succ_of_le (List.dropWhile_suffix _).length_le

/-- What `gettoken` returns for a token. -/
def Tok.code : Tok → UInt8
  | .word _ => ch 'a'
  | .lt => ch '<'
  | .gt => ch '>'
  | .gtgt => ch '+'
  | .bar => ch '|'
  | .amp => ch '&'
  | .semi => ch ';'
  | .lpar => ch '('
  | .rpar => ch ')'

/-- The byte a token that is no word starts with. -/
def Tok.first : Tok → Option Char
  | .word _ => none
  | .lt => some '<'
  | .gt | .gtgt => some '>'
  | .bar => some '|'
  | .amp => some '&'
  | .semi => some ';'
  | .lpar => some '('
  | .rpar => some ')'

theorem tokenize_nil : tokenize [] = [] := by rw [tokenize]

variable {c : UInt8} {cs : List UInt8}

theorem tokenize_space (hc : strchr whitespace c = true) : tokenize (c :: cs) = tokenize cs := by
  rw [tokenize, if_pos hc]

/-- Leading whitespace does not matter. -/
theorem tokenize_dropWhile (cs : List UInt8) :
    tokenize (cs.dropWhile (strchr whitespace)) = tokenize cs := by
  induction cs with
  | nil => rfl
  | cons c cs ih =>
    by_cases hc : strchr whitespace c = true
    · rw [dropWhile_cons_of_pos hc, ih, tokenize_space hc]
    · rw [dropWhile_cons_of_neg hc]

/-- Every token takes a byte. -/
theorem length_tokenize_le (cs : List UInt8) : (tokenize cs).length ≤ cs.length := by
  fun_induction tokenize cs with
  | case1 => exact le_rfl
  | case2 c cs _ ih => exact Nat.le_succ_of_le ih
  | case3 cs _ _ ih => exact Nat.succ_le_succ (ih.trans cs.tail_sublist.length_le)
  | case4 cs _ _ ih | case5 c cs _ _ t _ ih => exact Nat.succ_le_succ ih
  | case6 c cs _ _ _ ih =>
    exact Nat.succ_le_succ (ih.trans (dropWhile_suffix _).length_le)

/-! ### Scanning -/

variable {b : Buffer} {es s : Nat}

/-- The bytes from `s` to the end of the line. -/
def text (b : Buffer) (es s : Nat) : List UInt8 := load b s (es - s)

theorem text_end : text b es es = [] := by
  rw [text, Nat.sub_self]
  rfl

theorem text_cons (hs : s < es) : text b es s = b s :: text b es (s + 1) := by
  have hlen : es - s = 1 + (es - (s + 1)) := by omega
  rw [text, hlen, load_add]
  rfl

/-- What a scanning loop stops at: it has passed the longest stretch of bytes that meet
`f`. -/
theorem scan_spec (f : UInt8 → Bool) (hs : s ≤ es) :
    s ≤ scan f b (es - s) s ∧ scan f b (es - s) s ≤ es ∧
    text b es (scan f b (es - s) s) = (text b es s).dropWhile f ∧
    load b s (scan f b (es - s) s - s) = (text b es s).takeWhile f := by
  obtain ⟨left, rfl⟩ := Nat.exists_eq_add_of_le hs
  rw [Nat.add_sub_cancel_left]
  induction left generalizing s with
  | zero =>
    rw [Nat.add_zero, text_end, scan, Nat.sub_self]
    exact ⟨le_rfl, le_rfl, text_end, rfl⟩
  | succ left ih =>
    have hcons : text b (s + (left + 1)) s = b s :: text b (s + (left + 1)) (s + 1) :=
      text_cons (by omega)
    rw [scan, hcons]
    by_cases hf : f (b s) = true
    · rw [if_pos hf, dropWhile_cons_of_pos hf, takeWhile_cons_of_pos hf]
      obtain ⟨hlo, hhi, htext, hload⟩ := ih (by omega)
      rw [show s + 1 + left = s + (left + 1) by omega] at hhi htext hload
      refine ⟨by omega, hhi, htext, ?_⟩
      rw [← hload, show scan f b left (s + 1) - s = 1 + (scan f b left (s + 1) - (s + 1)) by omega,
        load_add]
      rfl
    · rw [if_neg hf, dropWhile_cons_of_neg hf, takeWhile_cons_of_neg hf, Nat.sub_self]
      exact ⟨le_rfl, by omega, hcons, rfl⟩

/-! ### The tokens that are left -/

/-- From `s` on the line holds the tokens `ts`; it ends at `es`, with the first NUL. -/
structure At (b : Buffer) (es s : Nat) (ts : List Tok) : Prop where
  le : s ≤ es
  nul : b es = 0
  bytes : ∀ i, s ≤ i → i < es → b i ≠ 0
  toks : tokenize (text b es s) = ts

/-- The word `w` is at `q`, and the byte at `eq` behind it is none of a word. -/
structure Word (b : Buffer) (q eq : Nat) (w : List UInt8) : Prop where
  load : load b q (eq - q) = w
  lt : q < eq
  bytes : ∀ i, q ≤ i → i < eq → b i ≠ 0 ∧ isWord (b i) = true
  stop : b eq = 0 ∨ isWord (b eq) = false

variable {ts : List Tok} {t : Tok}

theorem At.later (h : At b es s ts) {s' : Nat} (hs : s ≤ s') (hs' : s' ≤ es) :
    At b es s' (tokenize (text b es s')) :=
  ⟨hs', h.nul, fun i hi => h.bytes i (hs.trans hi), rfl⟩

/-- Skipping whitespace. -/
theorem At.skip (h : At b es s ts) : At b es (skip b es s) ts ∧ s ≤ skip b es s ∧
    (skip b es s < es → strchr whitespace (b (skip b es s)) = false) := by
  obtain ⟨hlo, hhi, htext, -⟩ := scan_spec (strchr whitespace) h.le
  rw [← Shell.skip] at hlo hhi htext
  have hat := h.later hlo hhi
  rw [htext, tokenize_dropWhile, h.toks] at hat
  refine ⟨hat, hlo, fun hlt => ?_⟩
  rw [text_cons hlt] at htext
  have hhead := head?_dropWhile_not (strchr whitespace) (text b es s)
  rw [← htext] at hhead
  simpa using hhead

/-- At the end of the line there is no token left, and only there. -/
theorem At.nil_iff (h : At b es s ts) (hspace : s < es → strchr whitespace (b s) = false) :
    ts = [] ↔ s = es := by
  rw [← h.toks]
  constructor
  · intro hnil
    by_contra hne
    have hlt : s < es := lt_of_le_of_ne h.le hne
    rw [text_cons hlt, tokenize, if_neg (by rw [hspace hlt]; decide)] at hnil
    split at hnil <;> split at hnil <;> cases hnil
  · rintro rfl
    rw [text_end, tokenize_nil]

/-- The byte of a symbol and its token. -/
theorem single_mem : ∀ c t, single c = some t →
    c ∈ str ['|', '(', ')', ';', '&', '<'] ∧ t.code = c ∧ ∃ x, t.first = some x ∧ ch x = c := by
  intro c t h
  simp only [single] at h
  split_ifs at h with h1 h2 h3 h4 h5 h6 <;> cases h <;> subst c <;>
    exact ⟨by decide, rfl, _, rfl, rfl⟩

theorem single_eq_none {c : UInt8} (h : single c = none) :
    c ∉ str ['|', '(', ')', ';', '&', '<'] := by
  simp only [single] at h
  split_ifs at h with h1 h2 h3 h4 h5 h6
  simp [str, h1, h2, h3, h4, h5, h6]

/-- The token at `s`: what `gettoken` makes of it, where it ends, and what `peek` sees
of it. -/
structure TokenAt (b : Buffer) (es s : Nat) (t : Tok) (eq : Nat) : Prop where
  code : tokenAt b es s = (t.code, eq)
  lt : s < eq
  le : eq ≤ es
  word : ∀ w, t = .word w → Word b s eq w
  first : ∀ x, t.first = some x → b s = ch x
  rest : t.first = none → isWord (b s) = true

theorem At.tokenAt_gt (h : At b es s ts) (hlt : s < es) (hgt : b s = ch '>') :
    ∃ t eq, ts = t :: tokenize (text b es eq) ∧ TokenAt b es s t eq := by
  have hcode : tokenAt b es s =
      if b (s + 1) = ch '>' then (ch '+', s + 2) else (ch '>', s + 1) := by
    rw [tokenAt, hgt]
    rfl
  have hts : ts = if (text b es (s + 1)).head? = some (ch '>') then
      .gtgt :: tokenize (text b es (s + 1)).tail else .gt :: tokenize (text b es (s + 1)) := by
    rw [← h.toks, text_cons hlt, tokenize, hgt, if_neg (by decide), if_pos rfl]
  by_cases hend : s + 1 < es
  · simp only [text_cons hend, head?_cons, Option.some.injEq] at hts
    by_cases hnext : b (s + 1) = ch '>'
    · rw [if_pos hnext] at hcode hts
      exact ⟨.gtgt, s + 2, hts, hcode, by omega, by omega, nofun, by rintro x ⟨⟩; exact hgt, nofun⟩
    · rw [if_neg hnext] at hcode hts
      refine ⟨.gt, s + 1, ?_, hcode, by omega, by omega, nofun, by rintro x ⟨⟩; exact hgt, nofun⟩
      rw [hts, text_cons hend]
  · have hes : s + 1 = es := by omega
    rw [hes, h.nul] at hcode
    rw [hes, text_end, if_neg (by decide)] at hts
    refine ⟨.gt, es, ?_, hcode, hlt, le_rfl, nofun, by rintro x ⟨⟩; exact hgt, nofun⟩
    rw [hts, text_end]

theorem At.tokenAt_single (h : At b es s ts) (hlt : s < es)
    (hspace : strchr whitespace (b s) = false) (hgt : b s ≠ ch '>') (ht : single (b s) = some t) :
    ∃ t eq, ts = t :: tokenize (text b es eq) ∧ TokenAt b es s t eq := by
  obtain ⟨hmem, hcode, x, hx, hxs⟩ := single_mem _ t ht
  have htok : tokenAt b es s = (b s, s + 1) := by
    rw [tokenAt, if_neg (h.bytes s le_rfl hlt), if_pos hmem]
  refine ⟨t, s + 1, ?_, by rw [htok, hcode], by omega, hlt, ?_, ?_, ?_⟩
  · rw [← h.toks, text_cons hlt, tokenize, if_neg (by rw [hspace]; decide), if_neg hgt, ht]
  · rintro w rfl
    cases hx
  · intro y hy
    rw [hx] at hy
    cases hy
    exact hxs.symm
  · intro hnone
    rw [hx] at hnone
    cases hnone

theorem At.tokenAt_word (h : At b es s ts) (hlt : s < es)
    (hspace : strchr whitespace (b s) = false) (hgt : b s ≠ ch '>') (ht : single (b s) = none) :
    ∃ t eq, ts = t :: tokenize (text b es eq) ∧ TokenAt b es s t eq := by
  have hnot := single_eq_none ht
  have hsymbol : strchr symbols (b s) = false := by
    simp only [str, map_cons, mem_cons,
      not_or] at hnot
    simp [strchr, symbols, str, hnot, hgt]
  have hword : isWord (b s) = true := by
    rw [isWord, hspace, hsymbol]
    rfl
  obtain ⟨hlo, hhi, htext, hload⟩ := scan_spec isWord h.le
  have htake : (text b es s).takeWhile isWord =
      b s :: (text b es (s + 1)).takeWhile isWord := by
    rw [text_cons hlt, takeWhile_cons_of_pos hword]
  have hdrop : (text b es s).dropWhile isWord = (text b es (s + 1)).dropWhile isWord := by
    rw [text_cons hlt, dropWhile_cons_of_pos hword]
  have hts : ts = .word ((text b es s).takeWhile isWord) ::
      tokenize ((text b es s).dropWhile isWord) := by
    rw [htake, hdrop, ← h.toks, text_cons hlt, tokenize, if_neg (by rw [hspace]; decide),
      if_neg hgt, ht]
  rw [← htext] at hts
  have hpos : s < scan isWord b (es - s) s := by
    have hlen := congrArg length hload
    rw [htake, length_load, length_cons] at hlen
    omega
  refine ⟨_, _, hts, ?_, hpos, hhi, ?_, nofun, fun _ => hword⟩
  · rw [tokenAt, if_neg (h.bytes s le_rfl hlt), if_neg hnot, if_neg hgt]
    rfl
  · rintro w ⟨⟩
    refine ⟨hload, hpos, fun i hi hi' => ⟨h.bytes i hi (by omega), ?_⟩, ?_⟩
    · obtain ⟨k, rfl⟩ := Nat.exists_eq_add_of_le hi
      have hmem : b (s + k) ∈ (text b es s).takeWhile isWord := by
        rw [← hload, load, mem_map]
        exact ⟨k, mem_range.mpr (by omega), rfl⟩
      exact mem_takeWhile_imp hmem
    · -- the scan stops at the end of the line or at another byte
      by_cases hend : scan isWord b (es - s) s < es
      · rw [text_cons hend] at htext
        have hhead := head?_dropWhile_not isWord (text b es s)
        rw [← htext] at hhead
        exact .inr (by simpa using hhead)
      · left
        rw [show scan isWord b (es - s) s = es by omega]
        exact h.nul

/-- The token at `s`, where no whitespace is. -/
theorem At.tokenAt_spec (h : At b es s ts) (hlt : s < es)
    (hspace : strchr whitespace (b s) = false) :
    ∃ t eq, ts = t :: tokenize (text b es eq) ∧ TokenAt b es s t eq := by
  by_cases hgt : b s = ch '>'
  · exact h.tokenAt_gt hlt hgt
  · cases ht : single (b s) with
    | some t => exact h.tokenAt_single hlt hspace hgt ht
    | none => exact h.tokenAt_word hlt hspace hgt ht

/-! ### `gettoken` and `peek` -/

theorem gettoken_eq (b : Buffer) (es s : Nat) :
    gettoken b es s = .ok (⟨(tokenAt b es (skip b es s)).1, skip b es s,
      (tokenAt b es (skip b es s)).2⟩, skip b es (tokenAt b es (skip b es s)).2) := rfl

/-- `gettoken` takes the next token. -/
theorem gettoken_cons (h : At b es s (t :: ts)) :
    ∃ q eq s', gettoken b es s = .ok (⟨t.code, q, eq⟩, s') ∧ At b es s' ts ∧
      ∀ w, t = .word w → Word b q eq w := by
  obtain ⟨hat, -, hspace⟩ := h.skip
  have hlt : skip b es s < es := by
    refine lt_of_le_of_ne hat.le fun hend => ?_
    cases (hat.nil_iff hspace).mpr hend
  obtain ⟨t', eq, hts, htok⟩ := hat.tokenAt_spec hlt (hspace hlt)
  cases hts
  have hrest := (hat.later htok.lt.le htok.le).skip.1
  refine ⟨skip b es s, eq, skip b es eq, ?_, hrest, htok.word⟩
  rw [gettoken_eq, htok.code]

/-- At the end `gettoken` returns 0. -/
theorem gettoken_nil (h : At b es s []) :
    ∃ q eq s', gettoken b es s = .ok (⟨0, q, eq⟩, s') ∧ At b es s' [] := by
  obtain ⟨hat, -, hspace⟩ := h.skip
  have hend := (hat.nil_iff hspace).mp rfl
  have htok : tokenAt b es (skip b es s) = (0, es) := by rw [hend, tokenAt, if_pos hat.nul]
  have hes : At b es es [] := by rwa [hend] at hat
  refine ⟨skip b es s, es, skip b es es, ?_, hes.skip.1⟩
  rw [gettoken_eq, htok]

/-- The next token is a symbol that starts with one of the characters. -/
def nextIn (toks : List Char) : List Tok → Bool
  | [] => false
  | t :: _ => t.first.any toks.contains

/-- The characters symbols start with. -/
def symbolChars : List Char := ['<', '|', '>', '&', ';', '(', ')']

theorem first_mem {x : Char} (h : t.first = some x) : x ∈ symbolChars := by
  cases t <;> cases h <;> decide

/-- Looking for a symbol among symbols. -/
theorem strchr_ch (hsub : toks ⊆ symbolChars) {x : Char} (hx : x ∈ symbolChars) :
    strchr (str toks) (ch x) = toks.contains x := by
  have hall : (symbolChars.all fun x => symbolChars.all fun y => decide (ch y = ch x → y = x)) =
      true := by decide
  have hinj : ∀ x ∈ symbolChars, ∀ y ∈ symbolChars, ch y = ch x → y = x := by
    simpa only [all_eq_true, decide_eq_true_eq] using hall
  rw [Bool.eq_iff_iff]
  simp only [strchr, str, contains_iff_mem, mem_map]
  constructor
  · rintro ⟨y, hy, heq⟩
    rwa [← hinj x hx y (hsub hy) heq]
  · exact fun hmem => ⟨x, hmem, rfl⟩

/-- A word starts with no symbol. -/
theorem strchr_of_isWord (hsub : toks ⊆ symbolChars) {c : UInt8} (h : isWord c = true) :
    strchr (str toks) c = false := by
  rw [isWord] at h
  by_contra hmem
  have hin : c ∈ str toks := by simpa [strchr] using hmem
  have hsymbol : c ∈ symbols := map_subset ch hsub hin
  simp [strchr, hsymbol] at h

/-- `peek` for symbols looks at the next token and takes nothing. -/
theorem peek_eq (h : At b es s ts) (hsub : toks ⊆ symbolChars) :
    ∃ s', peek b es toks s = .ok (nextIn toks ts, s') ∧ At b es s' ts := by
  obtain ⟨hat, -, hspace⟩ := h.skip
  refine ⟨skip b es s, ?_, hat⟩
  have hpeek : peek b es toks s =
      .ok (decide (b (skip b es s) ≠ 0 ∧ strchr (str toks) (b (skip b es s)) = true),
        skip b es s) := rfl
  rw [hpeek]
  congr 2
  cases ts with
  | nil =>
    rw [(hat.nil_iff hspace).mp rfl, hat.nul]
    rfl
  | cons t ts =>
    have hlt : skip b es s < es := by
      refine lt_of_le_of_ne hat.le fun hend => ?_
      cases (hat.nil_iff hspace).mpr hend
    obtain ⟨t', eq, hts, htok⟩ := hat.tokenAt_spec hlt (hspace hlt)
    cases hts
    have hnul := hat.bytes _ le_rfl hlt
    cases hfirst : t.first with
    | none =>
      simp [nextIn, hfirst, strchr_of_isWord hsub (htok.rest hfirst)]
    | some x =>
      have hx := strchr_ch hsub (first_mem hfirst)
      rw [← htok.first x hfirst] at hx
      simp [nextIn, hfirst, hx, hnul]

section Rules

variable {E : Stop → Prop}

theorem wp_peek {Q : Bool → Nat → Prop} (h : At b es s ts) (hsub : toks ⊆ symbolChars)
    (hQ : ∀ s', At b es s' ts → Q (nextIn toks ts) s') : wp (peek b es toks) Q E s := by
  obtain ⟨s', hs', hat⟩ := peek_eq h hsub
  exact wp_of_ok hs' (hQ s' hat)

theorem wp_gettoken {Q : Token → Nat → Prop} (h : At b es s (t :: ts))
    (hQ : ∀ q eq s', At b es s' ts → (∀ w, t = .word w → Word b q eq w) →
      Q ⟨t.code, q, eq⟩ s') : wp (gettoken b es) Q E s := by
  obtain ⟨q, eq, s', hs', hat, hword⟩ := gettoken_cons h
  exact wp_of_ok hs' (hQ q eq s' hat hword)

/-- A symbol that is expected next is taken. -/
theorem wp_take {α : Type} {A : Token → Parser α} {B : Parser α} {Q : α → Nat → Prop}
    (h : At b es s (t :: ts)) (hsub : toks ⊆ symbolChars) (hnext : nextIn toks (t :: ts) = true)
    (hA : ∀ x s', At b es s' ts → wp (A x) Q E s') :
    wp (peek b es toks >>= fun r => if r = true then gettoken b es >>= A else B) Q E s := by
  rw [wp_bind]
  refine wp_peek h hsub fun s1 h1 => ?_
  rw [if_pos hnext, wp_bind]
  exact wp_gettoken h1 fun _ _ s2 h2 _ => hA _ s2 h2

theorem wp_gettoken_nil {Q : Token → Nat → Prop} (h : At b es s [])
    (hQ : ∀ q eq s', At b es s' [] → Q ⟨0, q, eq⟩ s') : wp (gettoken b es) Q E s := by
  obtain ⟨q, eq, s', hs', hat⟩ := gettoken_nil h
  exact wp_of_ok hs' (hQ q eq s' hat)

end Rules

end Xv6.User.Shell
