import EluaWebServer.LuaTable.Insert
import EluaWebServer.LuaTable.Sizes
import Mathlib.Algebra.Order.BigOperators.Group.Finset
import Mathlib.Data.Finset.Interval

/-!
# What a rehash counts

The slices are summed up: what `numusearray`, `numusehash` and `countint` have
counted up to `2 ^ j` are the elements of the array part, the nodes and the new
key with an index up to there.
-/

namespace LuaTable

variable {α β : Type}

theorem upTo_update (nums : Nat → Nat) (l c j : Nat) :
    upTo (Function.update nums l (nums l + c)) j = upTo nums j + if l < j then c else 0 := by
  induction j with
  | zero => rfl
  | succ j ih =>
      rw [upTo_succ, upTo_succ, ih]
      by_cases hj : j = l
      · subst hj
        rw [Function.update_self, if_neg (Nat.lt_irrefl j), if_pos (Nat.lt_succ_self j)]
        omega
      · rw [Function.update_of_ne hj]
        split <;> split <;> omega

/-! ## The array part -/

/-- The elements of the array part that are not nil, among the first `m`. -/
def arrayUse (array : Nat → Option β) (m : Nat) : Nat :=
  ((Finset.range m).filter fun i => (array i).isSome = true).card

theorem arrayUse_succ (array : Nat → Option β) (m : Nat) :
    arrayUse array (m + 1) = arrayUse array m + if (array m).isSome = true then 1 else 0 := by
  rw [arrayUse, Finset.range_add_one, Finset.filter_insert]
  split
  next =>
    rw [Finset.card_insert_of_notMem fun h => by simp at h]
    rfl
  next => rfl

theorem arrayUse_le (array : Nat → Option β) (m : Nat) : arrayUse array m ≤ m := by
  have h := Finset.card_filter_le (Finset.range m) fun i => (array i).isSome = true
  rwa [Finset.card_range] at h

theorem countSlice_eq (array : Nat → Option β) (m d : Nat) :
    arrayUse array (m + d) = arrayUse array m + countSlice array (m + 1) (m + d) := by
  have hlen : m + d + 1 - (m + 1) = d := by omega
  rw [countSlice, hlen]
  clear hlen
  induction d with
  | zero => rfl
  | succ d ih =>
      rw [← Nat.add_assoc, arrayUse_succ, ih, List.range'_1_concat, List.countP_append,
        List.countP_singleton, show m + 1 + d - 1 = m + d by omega]
      omega

theorem upTo_of_rest {nums : Nat → Nat} {lg : Nat} (hrest : ∀ l, lg ≤ l → nums l = 0) {j : Nat}
    (hj : lg ≤ j) : upTo nums j = upTo nums lg := by
  induction j, hj using Nat.le_induction with
  | base => rfl
  | succ j hle ih => rw [upTo_succ, ih, hrest j hle, Nat.add_zero]

/-- What `numusearray` has counted when it comes to slice `lg`, after the first `m` elements. -/
structure ArrayCounted (t : Table α β) (lg m : Nat) (acc : (Nat → Nat) × Nat) : Prop where
  le : m ≤ t.sizearray
  slice : m ≤ 2 ^ lg
  slices : ∀ j, j < lg → upTo acc.1 (j + 1) = arrayUse t.array (min (2 ^ j) t.sizearray)
  rest : ∀ l, lg ≤ l → acc.1 l = 0
  sum : upTo acc.1 lg = arrayUse t.array m
  use : acc.2 = arrayUse t.array m

section

variable {t : Table α β}

theorem ArrayCounted.next {lg m : Nat} {nums : Nat → Nat} {ause : Nat}
    (h : ArrayCounted t lg m (nums, ause)) :
    ArrayCounted t (lg + 1) (min (2 ^ lg) t.sizearray)
      (Function.update nums lg
        (nums lg + countSlice t.array (m + 1) (min (2 ^ lg) t.sizearray)),
        ause + countSlice t.array (m + 1) (min (2 ^ lg) t.sizearray)) := by
  have hm : m ≤ min (2 ^ lg) t.sizearray := le_min h.slice h.le
  have hslice := countSlice_eq t.array m (min (2 ^ lg) t.sizearray - m)
  rw [Nat.add_sub_cancel' hm] at hslice
  have hrest : nums lg = 0 := h.rest lg le_rfl
  have hbefore : upTo nums lg = arrayUse t.array m := h.sum
  have hsum : upTo (Function.update nums lg
      (nums lg + countSlice t.array (m + 1) (min (2 ^ lg) t.sizearray))) (lg + 1) =
        arrayUse t.array (min (2 ^ lg) t.sizearray) := by
    rw [upTo_update, if_pos (Nat.lt_succ_self lg), upTo_succ, hrest, Nat.add_zero, hbefore, hslice]
  refine ⟨min_le_right _ _, ?_, ?_, ?_, hsum, ?_⟩
  · exact (min_le_left _ _).trans (Nat.pow_le_pow_right (by decide) (Nat.le_succ lg))
  · intro j hj
    rcases Nat.lt_succ_iff_lt_or_eq.mp hj with hlt | rfl
    · rw [upTo_update, if_neg (by omega), Nat.add_zero]
      exact h.slices j hlt
    · exact hsum
  · intro l hl
    dsimp only
    rw [Function.update_of_ne (by omega)]
    exact h.rest l (by omega)
  · dsimp only
    rw [hslice, ← h.use]

theorem numusearrayLoop_spec (fuel : Nat) {lg m : Nat} {acc : (Nat → Nat) × Nat}
    (h : ArrayCounted t lg m acc) :
    (∀ j, j < lg + fuel → upTo (numusearrayLoop t fuel lg (m + 1) acc).1 (j + 1) =
      arrayUse t.array (min (2 ^ j) t.sizearray)) ∧
    (numusearrayLoop t fuel lg (m + 1) acc).2 =
      upTo (numusearrayLoop t fuel lg (m + 1) acc).1 (lg + fuel) := by
  induction fuel generalizing lg m acc with
  | zero => exact ⟨h.slices, h.use.trans h.sum.symm⟩
  | succ fuel ih =>
      obtain ⟨nums, ause⟩ := acc
      rw [numusearrayLoop]
      by_cases hend : t.sizearray < 2 ^ lg ∧ t.sizearray < m + 1
      · -- no element is left for this slice and those after it
        rw [if_pos hend]
        have hm : m = t.sizearray := le_antisymm h.le (by omega)
        refine ⟨fun j hj => ?_, ?_⟩
        · rcases Nat.lt_or_ge j lg with hlt | hge
          · exact h.slices j hlt
          · have hpow : 2 ^ lg ≤ 2 ^ j := Nat.pow_le_pow_right (by decide) hge
            rw [upTo_of_rest h.rest (show lg ≤ j + 1 by omega), h.sum, hm, min_eq_right (by omega)]
        · rw [upTo_of_rest h.rest (Nat.le_add_right lg _)]
          exact h.use.trans h.sum.symm
      · rw [if_neg hend, show lg + (fuel + 1) = lg + 1 + fuel by omega]
        exact ih h.next

/-- **`numusearray`**: all elements of the array part, and those up to each power of two. -/
theorem numusearray_spec (hle : t.sizearray ≤ MAXASIZE) :
    (numusearray t fun _ => 0).2 = arrayUse t.array t.sizearray ∧
      ∀ j, j ≤ MAXBITS → upTo (numusearray t fun _ => 0).1 (j + 1) =
        arrayUse t.array (min (2 ^ j) t.sizearray) := by
  have hbegin : ArrayCounted t 0 0 (fun _ => 0, 0) :=
    ⟨Nat.zero_le _, Nat.zero_le _, fun j hj => absurd hj (Nat.not_lt_zero j), fun _ _ => rfl, rfl,
      rfl⟩
  obtain ⟨hslices, huse⟩ := numusearrayLoop_spec (MAXBITS + 1) hbegin
  rw [show 0 + (MAXBITS + 1) = MAXBITS + 1 from rfl] at hslices huse
  refine ⟨?_, fun j hj => hslices j (Nat.lt_succ_of_le hj)⟩
  exact huse.trans ((hslices MAXBITS (Nat.lt_succ_self _)).trans
    (congrArg (arrayUse t.array) (min_eq_right hle)))

end

/-! ## The hash part -/

section

variable [Key α]

/-- The key is an array index up to `n`. -/
def hasIndex (n : Nat) (key : Option α) : Bool :=
  (key.bind Key.index).any fun k : Int => decide (0 < k ∧ k ≤ n)

theorem countint_spec (nums : Nat → Nat) (key : Option α) :
    (countint nums key).2 = (if hasIndex MAXASIZE key = true then 1 else 0) ∧
      ∀ j, j ≤ MAXBITS → upTo (countint nums key).1 (j + 1) =
        upTo nums (j + 1) + if hasIndex (2 ^ j) key = true then 1 else 0 := by
  unfold countint hasIndex
  cases key.bind Key.index with
  | none => exact ⟨rfl, fun j _ => rfl⟩
  | some k =>
      simp only [Option.any_some, decide_eq_true_eq]
      by_cases hk : 0 < k ∧ k ≤ MAXASIZE
      · rw [if_pos hk, if_pos hk]
        refine ⟨rfl, fun j _ => ?_⟩
        dsimp only
        have hslice := ceillog2_le_iff (n := j) (show 0 < k.toNat by omega)
        rw [upTo_update]
        congr 1
        have hiff : ceillog2 k.toNat < j + 1 ↔ 0 < k ∧ k ≤ (2 ^ j : Nat) := by
          rw [Nat.lt_succ_iff, hslice]
          omega
        rw [if_congr hiff rfl rfl]
      · rw [if_neg hk, if_neg hk]
        refine ⟨rfl, fun j hj => ?_⟩
        have hpow : 2 ^ j ≤ MAXASIZE := Nat.pow_le_pow_right (by decide) hj
        rw [if_neg (by omega)]
        rfl

/-- The nodes with a value whose keys are array indices up to `n`, among the first `m`. -/
def indexUse (node : Nat → Node α β) (n m : Nat) : Nat :=
  ((Finset.range m).filter fun i =>
    (node i).val.isSome = true ∧ hasIndex n (node i).key = true).card

/-- The nodes with a value, among the first `m`. -/
def hashUse (node : Nat → Node α β) (m : Nat) : Nat :=
  ((Finset.range m).filter fun i => (node i).val.isSome = true).card

omit [Key α] in
theorem card_filter_range_succ (p : Nat → Prop) [DecidablePred p] (m : Nat) :
    ((Finset.range (m + 1)).filter p).card =
      ((Finset.range m).filter p).card + if p m then 1 else 0 := by
  rw [Finset.range_add_one, Finset.filter_insert]
  split
  next => exact Finset.card_insert_of_notMem fun h => by simp at h
  next => rfl

theorem foldl_countNode (t : Table α β) (m : Nat) (acc : (Nat → Nat) × Nat × Nat) :
    ((List.range m).reverse.foldl (countNode t) acc).2 =
        (acc.2.1 + indexUse t.node MAXASIZE m, acc.2.2 + hashUse t.node m) ∧
      ∀ j, j ≤ MAXBITS → upTo ((List.range m).reverse.foldl (countNode t) acc).1 (j + 1) =
        upTo acc.1 (j + 1) + indexUse t.node (2 ^ j) m := by
  induction m generalizing acc with
  | zero => exact ⟨rfl, fun j _ => rfl⟩
  | succ m ih =>
      rw [List.range_succ, List.reverse_append, List.reverse_singleton, List.singleton_append,
        List.foldl_cons]
      obtain ⟨huse, hslices⟩ := ih (countNode t acc m)
      rw [huse]
      unfold indexUse hashUse at *
      simp only [card_filter_range_succ]
      obtain ⟨hcount, hupTo⟩ := countint_spec acc.1 (t.node m).key
      by_cases hval : (t.node m).val.isSome = true
      · have hnode : countNode t acc m =
            ((countint acc.1 (t.node m).key).1, acc.2.1 + (countint acc.1 (t.node m).key).2,
              acc.2.2 + 1) := by
          rw [countNode, if_pos hval]
        rw [hnode] at hslices ⊢
        refine ⟨?_, fun j hj => ?_⟩
        · rw [if_pos hval, hcount]
          simp only [hval, true_and]
          refine Prod.ext ?_ ?_ <;> dsimp only <;> omega
        · rw [hslices j hj, hupTo j hj]
          simp only [hval, true_and]
          omega
      · have hnode : countNode t acc m = acc := by
          rw [countNode, if_neg hval]
        rw [hnode] at hslices ⊢
        refine ⟨?_, fun j hj => ?_⟩
        · rw [if_neg hval, if_neg fun h => hval h.1]
          rfl
        · rw [hslices j hj, if_neg fun h => hval h.1]
          rfl

/-- **`numusehash`**: all elements of the hash part, and those with an index. -/
theorem numusehash_spec (t : Table α β) (nums : Nat → Nat) :
    (numusehash t nums).2 = (indexUse t.node MAXASIZE t.sizenode, hashUse t.node t.sizenode) ∧
      ∀ j, j ≤ MAXBITS → upTo (numusehash t nums).1 (j + 1) =
        upTo nums (j + 1) + indexUse t.node (2 ^ j) t.sizenode := by
  obtain ⟨huse, hslices⟩ := foldl_countNode t t.sizenode (nums, 0, 0)
  refine ⟨?_, hslices⟩
  rw [numusehash, huse, Nat.zero_add, Nat.zero_add]

end

end LuaTable
