import Mathlib.Logic.Relation
import Mathlib.Logic.Equiv.Basic
import Mathlib.Data.Finset.Card
import Mathlib.Order.Interval.Finset.Nat

/-!
# Linked chains in a shared pool

Several singly linked chains run through one pool of places; `next` gives the
place that follows another one.  `Chained` says that no two places are followed
by the same one and that no chain comes back to itself.  Both survive when two
places are exchanged and when a place is put in after another.
-/

namespace Links

variable {ι : Type}

/-- `b` is found by following the chain from `a`. -/
def Reach (next : ι → Option ι) : ι → ι → Prop :=
  Relation.ReflTransGen fun a b => next a = some b

/-- The first place from `i` on that meets the condition, among the first `n` of the chain. -/
def seek (next : ι → Option ι) (p : ι → Bool) : Nat → ι → Option ι
  | 0, _ => none
  | n + 1, i => if p i then some i else (next i).bind (seek next p n)

/-- Chains that do not share a place and do not come back. -/
structure Chained (next : ι → Option ι) : Prop where
  injective : ∀ {a b c}, next a = some c → next b = some c → a = b
  ranked : ∃ rank : ι → Nat, ∀ {a b}, next a = some b → rank b < rank a

section Reach

variable {next : ι → Option ι} {a b c : ι}

theorem Reach.refl (a : ι) : Reach next a a :=
  Relation.ReflTransGen.refl

theorem Reach.trans (hab : Reach next a b) (hbc : Reach next b c) : Reach next a c :=
  Relation.ReflTransGen.trans hab hbc

theorem Reach.single (h : next a = some b) : Reach next a b :=
  Relation.ReflTransGen.single h

/-- A place with nothing after it reaches only itself. -/
theorem Reach.eq_of_end (h : Reach next a b) (hend : next a = none) : b = a := by
  rcases Relation.ReflTransGen.cases_head h with heq | ⟨c, hac, -⟩
  · exact heq.symm
  · rw [hend] at hac
    cases hac

/-- What is reached and is not the beginning has a place before it on the way. -/
theorem Reach.before (h : Reach next a b) (hne : a ≠ b) :
    ∃ c, Reach next a c ∧ next c = some b := by
  rcases Relation.ReflTransGen.cases_tail h with heq | ⟨c, hac, hcb⟩
  · exact absurd heq.symm hne
  · exact ⟨c, hac, hcb⟩

/-- The steps of one pool that another pool can follow. -/
theorem Reach.lift {next' : ι → Option ι} (f : ι → ι)
    (hstep : ∀ a b, next a = some b → Reach next' (f a) (f b)) (h : Reach next a b) :
    Reach next' (f a) (f b) := by
  induction h with
  | refl => exact Reach.refl _
  | tail _ hbc ih => exact ih.trans (hstep _ _ hbc)

theorem Chained.ne (hc : Chained next) (h : next a = some b) : a ≠ b := by
  obtain ⟨rank, hrank⟩ := hc.ranked
  intro heq
  subst heq
  exact Nat.lt_irrefl _ (hrank h)

/-- A ranking of the places of a finite pool by numbers smaller than their count. -/
theorem Chained.bounded (hc : Chained next) (pool : Finset ι)
    (hpool : ∀ a b, next a = some b → b ∈ pool) :
    ∃ rank : ι → Nat, (∀ a b, next a = some b → rank b < rank a) ∧
      ∀ a ∈ pool, rank a < pool.card := by
  obtain ⟨rank, hrank⟩ := hc.ranked
  refine ⟨fun a => (pool.filter fun b => rank b < rank a).card, ?_, ?_⟩
  · intro a b hab
    apply Finset.card_lt_card
    refine Finset.ssubset_iff_of_subset ?_ |>.mpr ?_
    · intro c hc'
      rw [Finset.mem_filter] at hc' ⊢
      exact ⟨hc'.1, hc'.2.trans (hrank hab)⟩
    · refine ⟨b, Finset.mem_filter.mpr ⟨hpool a b hab, hrank hab⟩, ?_⟩
      rw [Finset.mem_filter]
      exact fun h => Nat.lt_irrefl _ h.2
  · intro a ha
    apply Finset.card_lt_card
    refine Finset.ssubset_iff_of_subset (Finset.filter_subset _ _) |>.mpr ?_
    exact ⟨a, ha, fun h => Nat.lt_irrefl _ (Finset.mem_filter.mp h).2⟩

end Reach

/-! ## Searching -/

section Seek

variable {next : ι → Option ι} {p : ι → Bool} {i j : ι} {n : Nat}

theorem seek_spec (h : seek next p n i = some j) : p j = true ∧ Reach next i j := by
  induction n generalizing i with
  | zero => cases h
  | succ n ih =>
      rw [seek] at h
      split at h
      next hp =>
        obtain rfl := Option.some.inj h
        exact ⟨hp, Reach.refl _⟩
      next =>
        obtain ⟨k, hk, hseek⟩ := Option.bind_eq_some_iff.mp h
        obtain ⟨hp, hreach⟩ := ih hseek
        exact ⟨hp, (Reach.single hk).trans hreach⟩

theorem seek_isSome {rank : ι → Nat} (hrank : ∀ a b, next a = some b → rank b < rank a)
    (hreach : Reach next i j) (hp : p j = true) (hn : rank i < n) :
    (seek next p n i).isSome = true := by
  induction n generalizing i with
  | zero => exact absurd hn (Nat.not_lt_zero _)
  | succ n ih =>
      rw [seek]
      split
      next => rfl
      next hpi =>
        rcases Relation.ReflTransGen.cases_head hreach with heq | ⟨c, hic, hcj⟩
        · exact absurd (heq ▸ hp) hpi
        · rw [hic]
          exact ih hcj (Nat.lt_of_lt_of_le (hrank i c hic) (Nat.le_of_lt_succ hn))

/-- **A search finds what is in its chain**, when only one place meets the condition. -/
theorem Chained.seek_eq_some (hc : Chained next) {S : Finset ι}
    (hS : ∀ a b, next a = some b → b ∈ S) (hi : i ∈ S) (hn : S.card ≤ n)
    (hreach : Reach next i j) (hp : p j = true) (hone : ∀ k, p k = true → k = j) :
    seek next p n i = some j := by
  obtain ⟨rank, hrank, hbound⟩ := hc.bounded S hS
  have hsome := seek_isSome hrank hreach hp (Nat.lt_of_lt_of_le (hbound i hi) hn)
  obtain ⟨k, hk⟩ := Option.isSome_iff_exists.mp hsome
  rw [hk, hone k (seek_spec hk).1]

theorem seek_eq_none (h : ∀ k, Reach next i k → p k = false) : seek next p n i = none := by
  cases hs : seek next p n i with
  | none => rfl
  | some j =>
      obtain ⟨hp, hreach⟩ := seek_spec hs
      rw [h j hreach] at hp
      cases hp

end Seek

/-! ## Exchanging places -/

section Rename

/-- The chains after the places have been renamed. -/
def rename (e : Equiv.Perm ι) (next : ι → Option ι) : ι → Option ι :=
  fun i => (next (e.symm i)).map e

variable {e : Equiv.Perm ι} {next : ι → Option ι} {a b : ι}

theorem rename_eq_some (e : Equiv.Perm ι) (next : ι → Option ι) :
    rename e next a = some b ↔ next (e.symm a) = some (e.symm b) := by
  rw [rename, Option.map_eq_some_iff]
  constructor
  · rintro ⟨c, hc, rfl⟩
    rw [hc, Equiv.symm_apply_apply]
  · intro h
    exact ⟨e.symm b, h, e.apply_symm_apply b⟩

theorem Chained.rename (hc : Chained next) (e : Equiv.Perm ι) : Chained (Links.rename e next) where
  injective := by
    intro a b c ha hb
    rw [rename_eq_some] at ha hb
    exact e.symm.injective (hc.injective ha hb)
  ranked := by
    obtain ⟨rank, hrank⟩ := hc.ranked
    refine ⟨fun a => rank (e.symm a), ?_⟩
    intro a b hab
    exact hrank ((rename_eq_some e next).mp hab)

theorem Reach.rename (h : Reach next a b) (e : Equiv.Perm ι) :
    Reach (Links.rename e next) (e a) (e b) := by
  refine h.lift e fun c d hcd => Reach.single ?_
  rw [rename_eq_some, Equiv.symm_apply_apply, Equiv.symm_apply_apply]
  exact hcd

end Rename

/-! ## Putting a place in -/

section Insert

variable [DecidableEq ι]

/-- `n` comes after `a`, before what came after `a`. -/
def insertAfter (next : ι → Option ι) (a n : ι) : ι → Option ι :=
  Function.update (Function.update next n (next a)) a (some n)

variable {next : ι → Option ι} {a n : ι}

theorem insertAfter_self (next : ι → Option ι) (a n : ι) : insertAfter next a n a = some n := by
  rw [insertAfter, Function.update_self]

theorem insertAfter_new (next : ι → Option ι) (hne : n ≠ a) :
    insertAfter next a n n = next a := by
  rw [insertAfter, Function.update_of_ne hne, Function.update_self]

theorem insertAfter_of_ne {i : ι} (next : ι → Option ι) (ha : i ≠ a) (hn : i ≠ n) :
    insertAfter next a n i = next i := by
  rw [insertAfter, Function.update_of_ne ha, Function.update_of_ne hn]

/-- Nothing is lost from a chain when a lone place is put in. -/
theorem Reach.insertAfter {b c : ι} (h : Reach next b c) (hne : n ≠ a) (hend : next n = none) :
    Reach (Links.insertAfter next a n) b c := by
  refine h.lift id fun i j hij => ?_
  by_cases hi : i = a
  · subst hi
    have hfirst : Links.insertAfter next i n i = some n := insertAfter_self next i n
    have hsecond : Links.insertAfter next i n n = some j := (insertAfter_new next hne).trans hij
    exact (Reach.single hfirst).trans (Reach.single hsecond)
  · have hin : i ≠ n := by
      intro heq
      rw [heq, hend] at hij
      cases hij
    exact Reach.single ((insertAfter_of_ne next hi hin).trans hij)

theorem Chained.insertAfter (hc : Chained next) (hne : n ≠ a) (hend : next n = none)
    (hlone : ∀ i, next i ≠ some n) : Chained (Links.insertAfter next a n) where
  injective := by
    -- A link of the new pool is an old one, `a` to `n`, or `n` to what came after `a`.
    have hcases : ∀ i c, Links.insertAfter next a n i = some c →
        (i = a ∧ c = n) ∨ (i = n ∧ next a = some c) ∨ (i ≠ a ∧ next i = some c) := by
      intro i c h
      by_cases hi : i = a
      · subst hi
        rw [insertAfter_self] at h
        exact Or.inl ⟨rfl, (Option.some.inj h).symm⟩
      · by_cases hin : i = n
        · subst hin
          rw [insertAfter_new next hne] at h
          exact Or.inr (Or.inl ⟨rfl, h⟩)
        · rw [insertAfter_of_ne next hi hin] at h
          exact Or.inr (Or.inr ⟨hi, h⟩)
    intro i j c hi hj
    rcases hcases i c hi with ⟨rfl, rfl⟩ | ⟨rfl, hac⟩ | ⟨hia, hic⟩ <;>
      rcases hcases j _ hj with ⟨rfl, hjc⟩ | ⟨rfl, hjc⟩ | ⟨hja, hjc⟩
    · rfl
    · exact absurd hjc (hlone _)
    · exact absurd hjc (hlone _)
    · exact absurd (hjc ▸ hac) (hlone _)
    · rfl
    · exact absurd (hc.injective hjc hac) hja
    · exact absurd (hjc ▸ hic) (hlone _)
    · exact absurd (hc.injective hic hjc) hia
    · exact hc.injective hic hjc
  ranked := by
    obtain ⟨rank, hrank⟩ := hc.ranked
    -- The ranks are spread out, so that there is one between `a` and what came after it.
    refine ⟨fun i => if i = n then 2 * rank a + 1 else 2 * rank i + 2, ?_⟩
    intro i j hij
    dsimp only
    by_cases hi : i = a
    · subst hi
      rw [insertAfter_self] at hij
      obtain rfl := Option.some.inj hij
      rw [if_pos rfl, if_neg hne.symm]
      exact Nat.lt_succ_self _
    · by_cases hin : i = n
      · subst hin
        rw [insertAfter_new next hne] at hij
        have hjn : j ≠ i := fun heq => hlone a (heq ▸ hij)
        rw [if_pos rfl, if_neg hjn]
        have := hrank hij
        omega
      · rw [insertAfter_of_ne next hi hin] at hij
        have hjn : j ≠ n := fun heq => hlone i (heq ▸ hij)
        rw [if_neg hin, if_neg hjn]
        have := hrank hij
        omega

end Insert

end Links
