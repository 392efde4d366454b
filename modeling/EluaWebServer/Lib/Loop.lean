import Mathlib.Data.Option.Basic
import Mathlib.Data.Fintype.Pigeonhole
import Mathlib.Logic.Function.Iterate

/-!
# While loops

A loop that may not end is a function of the number of iterations it is given;
it is `none` when these are not enough.
-/

namespace Loop

variable {σ : Type}

/-- `while (cond s) s = body s`, for at most `n` evaluations of the condition. -/
def whileLoop (cond : σ → Bool) (body : σ → σ) : Nat → σ → Option σ
  | 0, _ => none
  | n + 1, s => if cond s then whileLoop cond body n (body s) else some s

variable {cond : σ → Bool} {body : σ → σ}

theorem whileLoop_of_false {s : σ} (h : cond s = false) {n : Nat} (hn : 0 < n) :
    whileLoop cond body n s = some s := by
  obtain ⟨n, rfl⟩ := Nat.exists_eq_succ_of_ne_zero (Nat.ne_of_gt hn)
  rw [Nat.succ_eq_add_one, whileLoop, h, if_neg Bool.false_ne_true]

theorem whileLoop_of_true {s : σ} (h : cond s = true) (n : Nat) :
    whileLoop cond body (n + 1) s = whileLoop cond body n (body s) := by
  rw [whileLoop, if_pos h]

/-- A loop whose body changes nothing does not end. -/
theorem whileLoop_of_fixed {s : σ} (h : cond s = true) (hfixed : body s = s) (n : Nat) :
    whileLoop cond body n s = none := by
  induction n with
  | zero => rfl
  | succ n ih => rw [whileLoop_of_true h, hfixed, ih]

/-- The loop goes on as long as the condition holds. -/
theorem whileLoop_eq_none_iff {n : Nat} {s : σ} :
    whileLoop cond body n s = none ↔ ∀ k, k < n → cond (body^[k] s) = true := by
  induction n generalizing s with
  | zero => exact iff_of_true rfl fun k hk => absurd hk (Nat.not_lt_zero k)
  | succ n ih =>
      by_cases hcond : cond s = true
      · rw [whileLoop_of_true hcond, ih]
        constructor
        · intro h k hk
          cases k with
          | zero => exact hcond
          | succ k => exact h k (Nat.lt_of_succ_lt_succ hk)
        · intro h k hk
          exact h (k + 1) (Nat.succ_lt_succ hk)
      · rw [whileLoop_of_false (by simpa using hcond) (Nat.succ_pos n)]
        refine iff_of_false (by simp) fun h => hcond (h 0 (Nat.succ_pos n))

/-- Where a loop ends, its condition does not hold, and it has come there step by step. -/
theorem whileLoop_eq_some {n : Nat} {s s' : σ} (h : whileLoop cond body n s = some s') :
    cond s' = false ∧ ∃ k, k < n ∧ s' = body^[k] s := by
  induction n generalizing s with
  | zero => cases h
  | succ n ih =>
      by_cases hcond : cond s = true
      · rw [whileLoop_of_true hcond] at h
        obtain ⟨hend, k, hk, hs'⟩ := ih h
        exact ⟨hend, k + 1, Nat.succ_lt_succ hk, hs'⟩
      · have hfalse : cond s = false := by simpa using hcond
        rw [whileLoop_of_false hfalse (Nat.succ_pos n)] at h
        exact ⟨Option.some.inj h ▸ hfalse, 0, Nat.succ_pos n, (Option.some.inj h).symm⟩

/-- **A search that ends.**  While the loop goes on, each state is taken by one of `n` others, and
the states it comes to are taken by different ones. -/
theorem whileLoop_isSome_of_taken {n : Nat} {s : σ} (taken : σ → Fin n → Prop)
    (hcond : ∀ s, cond s = true → ∃ i, taken s i)
    (hdistinct : ∀ j k i, j ≤ n → k ≤ n → taken (body^[j] s) i → taken (body^[k] s) i → j = k) :
    (whileLoop cond body (n + 1) s).isSome = true := by
  by_contra hnone
  have hall := whileLoop_eq_none_iff.mp (Option.not_isSome_iff_eq_none.mp hnone)
  choose f hf using fun k : Fin (n + 1) => hcond _ (hall k k.isLt)
  obtain ⟨j, k, hne, heq⟩ := Fintype.exists_ne_map_eq_of_card_lt f (by simp)
  refine hne (Fin.ext (hdistinct j k (f j) (Nat.le_of_lt_succ j.isLt) (Nat.le_of_lt_succ k.isLt)
    (hf j) ?_))
  rw [heq]
  exact hf k

/-- A loop that comes back to a state does not end. -/
theorem whileLoop_none_of_return {s : σ} {j k : Nat} (hjk : j < k)
    (hreturn : body^[j] s = body^[k] s) (hall : ∀ i, i < k → cond (body^[i] s) = true) (m : Nat) :
    whileLoop cond body m s = none := by
  refine whileLoop_eq_none_iff.mpr fun i _ => ?_
  induction i using Nat.strong_induction_on with
  | _ i ih =>
      by_cases hi : i < k
      · exact hall i hi
      · -- the state is one that the loop has come to before
        have hback : body^[i] s = body^[i - k + j] s := by
          have hik : i = i - k + k := by omega
          calc body^[i] s = body^[i - k + k] s := by rw [← hik]
            _ = body^[i - k] (body^[k] s) := Function.iterate_add_apply ..
            _ = body^[i - k] (body^[j] s) := by rw [hreturn]
            _ = body^[i - k + j] s := (Function.iterate_add_apply ..).symm
        rw [hback]
        exact ih _ (by omega) (by omega)

/-- **Loops over finitely many states.**  When the states in which the loop goes on can be numbered
up to `n`, it ends in `n + 1` evaluations of its condition, or comes back to a state. -/
theorem exists_return_of_none {n : Nat} {s : σ} (number : σ → Fin n)
    (hnumber : ∀ s t, cond s = true → cond t = true → number s = number t → s = t)
    (h : whileLoop cond body (n + 1) s = none) :
    ∃ j k, j < k ∧ body^[j] s = body^[k] s ∧ ∀ i, i ≤ k → cond (body^[i] s) = true := by
  have hall := whileLoop_eq_none_iff.mp h
  obtain ⟨j, k, hne, heq⟩ :=
    Fintype.exists_ne_map_eq_of_card_lt (fun k : Fin (n + 1) => number (body^[k] s)) (by simp)
  have hsame := hnumber _ _ (hall j j.isLt) (hall k k.isLt) heq
  rcases lt_or_gt_of_ne hne with hlt | hlt
  · exact ⟨j, k, hlt, hsame, fun i hi => hall i (Nat.lt_of_le_of_lt hi k.isLt)⟩
  · exact ⟨k, j, hlt, hsame.symm, fun i hi => hall i (Nat.lt_of_le_of_lt hi j.isLt)⟩

/-! ## Loops that count -/

/-- A loop that may fail keeps what each of its rounds keeps, and does not fail. -/
theorem foldlM_range' {ε : Type} {f : σ → Nat → Except ε σ} {P : Nat → σ → Prop} {a n : Nat}
    {s : σ} (hbegin : P a s)
    (hround : ∀ i s, a ≤ i → i < a + n → P i s → ∃ s', f s i = .ok s' ∧ P (i + 1) s') :
    ∃ s', (List.range' a n).foldlM f s = .ok s' ∧ P (a + n) s' := by
  induction n generalizing a s with
  | zero => exact ⟨s, rfl, hbegin⟩
  | succ n ih =>
      obtain ⟨s₁, hs₁, hP⟩ := hround a s (Nat.le_refl a) (by omega) hbegin
      obtain ⟨s', hs', hend⟩ := ih (a := a + 1) hP fun i s hle hlt => hround i s (by omega) (by omega)
      refine ⟨s', ?_, ?_⟩
      · rw [List.range'_succ, List.foldlM_cons, hs₁]
        exact hs'
      · rwa [show a + (n + 1) = a + 1 + n by omega]

theorem foldlM_range {ε : Type} {f : σ → Nat → Except ε σ} {P : Nat → σ → Prop} {n : Nat} {s : σ}
    (hbegin : P 0 s) (hround : ∀ i s, i < n → P i s → ∃ s', f s i = .ok s' ∧ P (i + 1) s') :
    ∃ s', (List.range n).foldlM f s = .ok s' ∧ P n s' := by
  have h := foldlM_range' (a := 0) (n := n) hbegin fun i s _ hlt => hround i s (by omega)
  rwa [← List.range_eq_range', Nat.zero_add] at h

end Loop
