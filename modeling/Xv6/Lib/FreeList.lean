import Mathlib.Data.Set.Insert
import Mathlib.Logic.Relation
import Mathlib.Order.Lattice.Nat

/-!
# Free lists kept in the order of addresses

Two notions for memory that is divided into extents, and for a circular list that
links some of them.

* `Extents lo hi len B` — at the addresses `B` there are extents, that at `a` of
  length `len a`, between `lo` and `hi` and without overlap. Extents can be split,
  merged with the next, and added at the end.
* `cover`, `touching`, `Joins` — the addresses in some extents, those extents that the
  next one touches, and what merging does to both.
* `SortedRing next base N` — following `next` runs through the nodes `N` upwards
  and from the greatest back to `base`, the least. This is a property of each node
  and the nodes, so that linking and unlinking a node concern two links.
* `gap` — how far it is from one node to another; each link followed leaves less.
-/

namespace FreeList

/-! ### Extents -/

/-- Disjoint extents between `lo` and `hi`. -/
structure Extents (lo hi : Nat) (len : Nat → Nat) (B : Set Nat) : Prop where
  pos : ∀ a ∈ B, 0 < len a
  lo_le : ∀ a ∈ B, lo ≤ a
  le_hi : ∀ a ∈ B, a + len a ≤ hi
  apart : ∀ a ∈ B, ∀ b ∈ B, a < b → a + len a ≤ b

namespace Extents

variable {lo hi a b : Nat} {len len' : Nat → Nat} {B B' : Set Nat}

theorem empty : Extents lo hi len ∅ := ⟨nofun, nofun, nofun, nofun⟩

variable (h : Extents lo hi len B)

include h

theorem mono (hB : B' ⊆ B) : Extents lo hi len B' :=
  ⟨fun a ha => h.pos a (hB ha), fun a ha => h.lo_le a (hB ha), fun a ha => h.le_hi a (hB ha),
    fun a ha b hb => h.apart a (hB ha) b (hB hb)⟩

theorem congr (hlen : ∀ a ∈ B, len' a = len a) :
    Extents lo hi len' B := by
  refine ⟨fun a ha => ?_, h.lo_le, fun a ha => ?_, fun a ha => ?_⟩
  · rw [hlen a ha]
    exact h.pos a ha
  · rw [hlen a ha]
    exact h.le_hi a ha
  · rw [hlen a ha]
    exact h.apart a ha

theorem apart_of_ne (ha : a ∈ B) (hb : b ∈ B) (hne : a ≠ b) :
    a + len a ≤ b ∨ b + len b ≤ a := by
  rcases Nat.lt_or_gt_of_ne hne with hlt | hlt
  · exact .inl (h.apart a ha b hb hlt)
  · exact .inr (h.apart b hb a ha hlt)

/-- The upper end of an extent becomes one of its own. -/
theorem split (ha : a ∈ B) {k : Nat} (hk : 0 < k) (hlt : k < len a)
    (hb : b = a + (len a - k)) (hlena : len' a = len a - k) (hlenb : len' b = k)
    (hlen : ∀ c ∈ B, c ≠ a → len' c = len c) : Extents lo hi len' (insert b B) := by
  have hends := h.le_hi a ha
  have hlo := h.lo_le a ha
  -- every other extent lies on one side of both parts
  have hother : ∀ c ∈ B, c ≠ a → (a + len a ≤ c ∨ c + len c ≤ a) ∧ 0 < len c := fun c hc hne =>
    ⟨h.apart_of_ne ha hc hne.symm, h.pos c hc⟩
  have hcases : ∀ c ∈ insert b B, (c = b ∧ len' c = k) ∨ (c = a ∧ len' c = len a - k) ∨
      (c ∈ B ∧ len' c = len c ∧ (a + len a ≤ c ∨ c + len c ≤ a) ∧ 0 < len c) := by
    rintro c (rfl | hc)
    · exact .inl ⟨rfl, hlenb⟩
    · by_cases hca : c = a
      · exact .inr (.inl ⟨hca, hca ▸ hlena⟩)
      · exact .inr (.inr ⟨hc, hlen c hc hca, hother c hc hca⟩)
  refine ⟨fun c hc => ?_, fun c hc => ?_, fun c hc => ?_, fun c hc d hd hcd => ?_⟩
  · rcases hcases c hc with ⟨-, h⟩ | ⟨-, h⟩ | ⟨-, h, -, hpos⟩ <;> omega
  · rcases hcases c hc with ⟨rfl, -⟩ | ⟨rfl, -⟩ | ⟨hc, -⟩
    · omega
    · exact hlo
    · exact h.lo_le c hc
  · rcases hcases c hc with ⟨rfl, h⟩ | ⟨rfl, h⟩ | ⟨hc, hc', -⟩
    · omega
    · omega
    · rw [hc']
      exact h.le_hi c hc
  · rcases hcases c hc with ⟨rfl, h1⟩ | ⟨rfl, h1⟩ | ⟨hc, h1, h1'⟩ <;>
      rcases hcases d hd with ⟨rfl, h2⟩ | ⟨rfl, h2⟩ | ⟨hd, h2, h2'⟩ <;> try omega
    have := h.apart c hc d hd hcd
    omega

/-- An extent takes in the one that follows. -/
theorem merge (ha : a ∈ B) (hb : b ∈ B) (hab : a + len a = b)
    (hlena : len' a = len a + len b) (hlen : ∀ c ∈ B, c ≠ a → len' c = len c) :
    Extents lo hi len' (B \ {b}) := by
  have hpos := h.pos a ha
  have hends := h.le_hi b hb
  have hother : ∀ c ∈ B, c ≠ a → c ≠ b → (b + len b ≤ c ∨ c + len c ≤ a) ∧ 0 < len c := by
    intro c hc hca hcb
    have hc1 := h.apart_of_ne ha hc hca.symm
    have hc2 := h.apart_of_ne hb hc hcb.symm
    have hc3 := h.pos c hc
    omega
  have hcases : ∀ c ∈ B \ {b}, (c = a ∧ len' c = len a + len b) ∨
      (c ∈ B ∧ len' c = len c ∧ (b + len b ≤ c ∨ c + len c ≤ a) ∧ 0 < len c) := by
    rintro c ⟨hc, hcb⟩
    by_cases hca : c = a
    · exact .inl ⟨hca, hca ▸ hlena⟩
    · exact .inr ⟨hc, hlen c hc hca, hother c hc hca hcb⟩
  refine ⟨fun c hc => ?_, fun c hc => h.lo_le c hc.1, fun c hc => ?_, fun c hc d hd hcd => ?_⟩
  · rcases hcases c hc with ⟨-, h⟩ | ⟨-, h, -, hpos⟩ <;> omega
  · rcases hcases c hc with ⟨rfl, h⟩ | ⟨hc, hc', -⟩
    · omega
    · rw [hc']
      exact h.le_hi c hc
  · rcases hcases c hc with ⟨rfl, h1⟩ | ⟨hc, h1, h1'⟩ <;>
      rcases hcases d hd with ⟨rfl, h2⟩ | ⟨hd, h2, h2'⟩ <;> try omega
    have := h.apart c hc d hd hcd
    omega

/-- An extent is added after all others. -/
theorem grow {hi' : Nat} (hlo : lo ≤ hi) (hpos : 0 < len' hi)
    (hends : hi + len' hi ≤ hi') (hlen : ∀ c ∈ B, len' c = len c) :
    Extents lo hi' len' (insert hi B) := by
  have hcases : ∀ c ∈ insert hi B, c = hi ∨ (c ∈ B ∧ len' c = len c ∧ c + len c ≤ hi ∧
      0 < len c) := by
    rintro c (rfl | hc)
    · exact .inl rfl
    · exact .inr ⟨hc, hlen c hc, h.le_hi c hc, h.pos c hc⟩
  refine ⟨fun c hc => ?_, fun c hc => ?_, fun c hc => ?_, fun c hc d hd hcd => ?_⟩
  · rcases hcases c hc with rfl | ⟨-, h, -, hpos⟩ <;> omega
  · rcases hcases c hc with rfl | ⟨hc, -⟩
    · exact hlo
    · exact h.lo_le c hc
  · rcases hcases c hc with rfl | ⟨-, h, hle, -⟩ <;> omega
  · rcases hcases c hc with rfl | ⟨hc, h1, hle, hpos1⟩ <;>
      rcases hcases d hd with rfl | ⟨hd, h2, hle2, hpos2⟩ <;> try omega
    have := h.apart c hc d hd hcd
    omega

end Extents

/-- The addresses in the extents at `B`. -/
def cover (len : Nat → Nat) (B : Set Nat) : Set Nat := ⋃ a ∈ B, Set.Ico a (a + len a)

/-- The extents at `B` that end where another begins. -/
def touching (len : Nat → Nat) (B : Set Nat) : Set Nat := {a ∈ B | a + len a ∈ B}

/-- The same addresses are covered; if only the extents at `T` were touching the next one,
now only those at `T'` do. -/
structure Joins (len : Nat → Nat) (B T : Set Nat) (len' : Nat → Nat) (B' T' : Set Nat) :
    Prop where
  cover_eq : cover len' B' = cover len B
  touching_subset : touching len B ⊆ T → touching len' B' ⊆ T'

namespace Joins

variable {lo hi a b : Nat} {len len' len'' : Nat → Nat} {B B' B'' T T' T'' : Set Nat}

theorem trans (h : Joins len B T len' B' T') (h' : Joins len' B' T' len'' B'' T'') :
    Joins len B T len'' B'' T'' :=
  ⟨h'.cover_eq.trans h.cover_eq, fun hT => h'.touching_subset (h.touching_subset hT)⟩

/-- Nothing is merged, as only the extents at `T'` could be. -/
theorem same (hlen : ∀ c ∈ B, len' c = len c) (hT : ∀ c ∈ T, c ∈ touching len B → c ∈ T') :
    Joins len B T len' B T' := by
  refine ⟨Set.iUnion₂_congr fun c hc => by rw [hlen c hc], fun hsub c hc => ?_⟩
  have hc : c ∈ touching len B := ⟨hc.1, hlen c hc.1 ▸ hc.2⟩
  exact hT c (hsub hc) hc

/-- An extent takes in the one that follows, which touched no other. -/
theorem merge (h : Extents lo hi len B) (ha : a ∈ B) (hb : b ∈ B) (hab : a + len a = b)
    (hlena : len' a = len a + len b) (hlen : ∀ c ∈ B, c ≠ a → len' c = len c) (hbT : b ∉ T)
    (hT : ∀ c ∈ T, c ≠ a → c ∈ T') : Joins len B T len' (B \ {b}) T' := by
  have hne : a ≠ b := by
    have := h.pos a ha
    omega
  refine ⟨Set.ext fun x => ?_, fun hsub c hc => ?_⟩
  · simp only [cover, Set.mem_iUnion₂, Set.mem_Ico]
    constructor
    · rintro ⟨c, hc, hx⟩
      by_cases hca : c = a
      · rw [hca] at hx
        by_cases hxb : x < b
        · exact ⟨a, ha, by omega⟩
        · exact ⟨b, hb, by omega⟩
      · rw [hlen c hc.1 hca] at hx
        exact ⟨c, hc.1, hx⟩
    · rintro ⟨c, hc, hx⟩
      by_cases hcb : c = b
      · subst hcb
        exact ⟨a, ⟨ha, hne⟩, by omega⟩
      · refine ⟨c, ⟨hc, hcb⟩, ?_⟩
        by_cases hca : c = a
        · subst hca
          omega
        · rwa [hlen c hc hca]
  · obtain ⟨⟨hc, -⟩, hend, -⟩ := hc
    by_cases hca : c = a
    · rw [hca, hlena, ← Nat.add_assoc, hab] at hend
      exact absurd (hsub ⟨hb, hend⟩) hbT
    · rw [hlen c hc hca] at hend
      exact hT c (hsub ⟨hc, hend⟩) hca

end Joins

/-! ### The ring -/

/-- `next` leads from each node to the next greater one, and from the greatest to
`base`. -/
structure SortedRing (next : Nat → Nat) (base : Nat) (N : Set Nat) : Prop where
  base_mem : base ∈ N
  base_le : ∀ a ∈ N, base ≤ a
  next_mem : ∀ a ∈ N, next a ∈ N
  next_cases : ∀ a ∈ N, (a < next a ∧ ∀ c ∈ N, a < c → next a ≤ c) ∨
    (next a = base ∧ ∀ c ∈ N, c ≤ a)

/-- The greatest node below `b`. -/
structure Below (N : Set Nat) (b t : Nat) : Prop where
  mem : t ∈ N
  lt : t < b
  le : ∀ c ∈ N, c < b → c ≤ t

namespace SortedRing

variable {next next' : Nat → Nat} {base a b t : Nat} {N : Set Nat}

/-- A list with `base` only. -/
theorem single (h : next base = base) : SortedRing next base {base} := by
  refine ⟨rfl, ?_, ?_, ?_⟩
  · rintro a rfl
    exact le_rfl
  · rintro a rfl
    exact h
  · rintro a rfl
    refine .inr ⟨h, ?_⟩
    rintro c rfl
    exact le_rfl

variable (h : SortedRing next base N)

include h

theorem congr (hnext : ∀ a ∈ N, next' a = next a) :
    SortedRing next' base N := by
  refine ⟨h.base_mem, h.base_le, fun a ha => ?_, fun a ha => ?_⟩
  · rw [hnext a ha]
    exact h.next_mem a ha
  · rw [hnext a ha]
    exact h.next_cases a ha

/-- What is reached from a node is a node. -/
theorem mem_of_reach (ha : a ∈ N)
    (hab : Relation.ReflTransGen (fun a b => next a = b) a b) : b ∈ N := by
  induction hab with
  | refl => exact ha
  | tail _ hbc ih => exact hbc ▸ h.next_mem _ ih

theorem exists_below (hb : base < b) : ∃ t, Below N b t := by
  have hne : {c | c ∈ N ∧ c < b}.Nonempty := ⟨base, h.base_mem, hb⟩
  have hbdd : BddAbove {c | c ∈ N ∧ c < b} := ⟨b, fun c hc => hc.2.le⟩
  obtain ⟨hmem, hlt⟩ := Nat.sSup_mem hne hbdd
  exact ⟨_, hmem, hlt, fun c hc hcb => le_csSup hbdd ⟨hc, hcb⟩⟩

/-- A node is linked in after the greatest node below it. -/
theorem insert (ht : Below N b t) (hb : b ∉ N)
    (hnextt : next' t = b) (hnextb : next' b = next t)
    (hnext : ∀ c ∈ N, c ≠ t → next' c = next c) : SortedRing next' base (insert b N) := by
  have hbase := h.base_le t ht.mem
  have hlt := ht.lt
  refine ⟨.inr h.base_mem, ?_, ?_, ?_⟩
  · rintro a (rfl | ha)
    · omega
    · exact h.base_le a ha
  · rintro a (rfl | ha)
    · rw [hnextb]
      exact .inr (h.next_mem t ht.mem)
    · by_cases hat : a = t
      · rw [hat, hnextt]
        exact .inl rfl
      · rw [hnext a ha hat]
        exact .inr (h.next_mem a ha)
  · rintro a (rfl | ha)
    · rw [hnextb]
      rcases h.next_cases t ht.mem with ⟨hup, hleast⟩ | ⟨hwrap, hmax⟩
      · refine .inl ⟨?_, ?_⟩
        · have hne : next t ≠ a := fun heq => hb (heq ▸ h.next_mem t ht.mem)
          have := ht.le _ (h.next_mem t ht.mem)
          omega
        · rintro c (rfl | hc) hac
          · omega
          · exact hleast c hc (by omega)
      · refine .inr ⟨hwrap, ?_⟩
        rintro c (rfl | hc)
        · exact le_rfl
        · have := hmax c hc
          omega
    · by_cases hat : a = t
      · subst hat
        rw [hnextt]
        refine .inl ⟨hlt, ?_⟩
        rintro c (rfl | hc) hac
        · exact le_rfl
        · by_contra hcb
          have := ht.le c hc (by omega)
          omega
      · rw [hnext a ha hat]
        rcases h.next_cases a ha with ⟨hup, hleast⟩ | ⟨hwrap, hmax⟩
        · refine .inl ⟨hup, ?_⟩
          rintro c (rfl | hc) hac
          · have hat' := ht.le a ha hac
            have := hleast t ht.mem (by omega)
            omega
          · exact hleast c hc hac
        · refine .inr ⟨hwrap, ?_⟩
          rintro c (rfl | hc)
          · have := hmax t ht.mem
            by_contra hca
            have := ht.le a ha (by omega)
            omega
          · exact hmax c hc

/-- Only one node leads to a node other than `base`. -/
theorem eq_of_next_eq (ha : a ∈ N) (hb : b ∈ N)
    (hab : next a = next b) (hne : next b ≠ base) : a = b := by
  rcases h.next_cases a ha with ⟨haup, hal⟩ | ⟨hwrap, -⟩
  · rcases h.next_cases b hb with ⟨hbup, hbl⟩ | ⟨hwrap, -⟩
    · by_contra hne
      rcases Nat.lt_or_gt_of_ne hne with hlt | hlt
      · have := hal b hb hlt
        omega
      · have := hbl a ha hlt
        omega
    · exact absurd hwrap hne
  · exact absurd (hab.symm.trans hwrap) hne

/-- The node after `t` is unlinked. -/
theorem remove (ht : t ∈ N) (hne : next t ≠ base)
    (hnextt : next' t = next (next t)) (hnext : ∀ c ∈ N, c ≠ t → next' c = next c) :
    SortedRing next' base (N \ {next t}) := by
  have hq := h.next_mem t ht
  -- `next t` is above `t`
  obtain ⟨htq, htl⟩ : t < next t ∧ ∀ c ∈ N, t < c → next t ≤ c := by
    rcases h.next_cases t ht with h | ⟨hwrap, -⟩
    · exact h
    · exact absurd hwrap hne
  refine ⟨⟨h.base_mem, fun heq => hne heq.symm⟩, fun a ha => h.base_le a ha.1, ?_, ?_⟩
  · rintro a ⟨ha, haq⟩
    by_cases hat : a = t
    · rw [hat, hnextt]
      refine ⟨h.next_mem _ hq, fun heq => ?_⟩
      have heq : next (next t) = next t := heq
      rcases h.next_cases _ hq with ⟨hup, -⟩ | ⟨hwrap, -⟩
      · omega
      · exact hne (heq.symm.trans hwrap)
    · rw [hnext a ha hat]
      exact ⟨h.next_mem a ha, fun heq => hat (h.eq_of_next_eq ha ht heq hne)⟩
  · rintro a ⟨ha, haq⟩
    by_cases hat : a = t
    · rw [hat, hnextt]
      rcases h.next_cases _ hq with ⟨hup, hleast⟩ | ⟨hwrap, hmax⟩
      · refine .inl ⟨by omega, fun c hc htc => ?_⟩
        have hcq : c ≠ next t := hc.2
        have := htl c hc.1 htc
        exact hleast c hc.1 (by omega)
      · refine .inr ⟨hwrap, fun c hc => ?_⟩
        have hcq : c ≠ next t := hc.2
        have := hmax c hc.1
        by_contra hct
        have := htl c hc.1 (by omega)
        omega
    · rw [hnext a ha hat]
      rcases h.next_cases a ha with ⟨hup, hleast⟩ | ⟨hwrap, hmax⟩
      · exact .inl ⟨hup, fun c hc => hleast c hc.1⟩
      · exact .inr ⟨hwrap, fun c hc => hmax c hc.1⟩

end SortedRing

/-! ### Walking -/

/-- How far it is from `a` up, past `top` and from the beginning, to `t`. -/
def gap (top a t : Nat) : Nat := if a ≤ t then t - a else top + t + 1 - a

section Gap

variable {next : Nat → Nat} {base top a s t : Nat} {N : Set Nat}

theorem gap_le (top a t : Nat) (ht : t ≤ top) : gap top a t ≤ 2 * top + 1 := by
  unfold gap
  split <;> omega

/-- Each link followed brings `t` nearer. -/
theorem gap_next_lt (h : SortedRing next base N) (htop : ∀ a ∈ N, a ≤ top) (ha : a ∈ N)
    (ht : t ∈ N) (hne : a ≠ t) : gap top (next a) t < gap top a t := by
  have hat := htop a ha
  have hbt := h.base_le t ht
  unfold gap
  rcases h.next_cases a ha with ⟨hup, hleast⟩ | ⟨hwrap, hmax⟩
  · by_cases hlt : a < t
    · have := hleast t ht hlt
      rw [if_pos this, if_pos hlt.le]
      omega
    · rw [if_neg (by omega), if_neg (by omega)]
      omega
  · have := hmax t ht
    rw [hwrap, if_pos hbt, if_neg (by omega)]
    omega

/-- From the node after `s` it is farthest to `s` itself. -/
theorem gap_next_self (h : SortedRing next base N) (htop : ∀ a ∈ N, a ≤ top) (hs : s ∈ N)
    (ht : t ∈ N) : gap top (next s) t ≤ gap top (next s) s := by
  have htt := htop t ht
  have hbs := h.base_le s hs
  have hbt := h.base_le t ht
  unfold gap
  rcases h.next_cases s hs with ⟨hup, hleast⟩ | ⟨hwrap, hmax⟩
  · rw [if_neg (show ¬ next s ≤ s by omega)]
    split
    · omega
    · have : ¬ s < t := fun hlt => by
        have := hleast t ht hlt
        omega
      omega
  · have := hmax t ht
    rw [hwrap, if_pos hbt, if_pos hbs]
    omega

/-- What is nearer stays nearer, until it is reached. -/
theorem gap_next_le (h : SortedRing next base N) (ha : a ∈ N) (htop : a ≤ top)
    (hs : s ∈ N) (ht : t ∈ N) (has : a ≠ s) (hat : a ≠ t) (hle : gap top a t ≤ gap top a s) :
    gap top (next a) t ≤ gap top (next a) s := by
  have hbs := h.base_le s hs
  have hbt := h.base_le t ht
  unfold gap at hle ⊢
  rcases h.next_cases a ha with ⟨hup, hleast⟩ | ⟨hwrap, hmax⟩
  · have ht' : a < t → next a ≤ t := hleast t ht
    split at hle <;> split at hle <;> split <;> split <;> omega
  · have hs' := hmax s hs
    have ht' := hmax t ht
    rw [hwrap, if_pos hbt, if_pos hbs]
    rw [if_neg (by omega), if_neg (by omega)] at hle
    omega

theorem eq_of_gap_eq_zero (ha : a ≤ top) (h : gap top a t = 0) : a = t := by
  unfold gap at h
  split at h <;> omega

end Gap

end FreeList
