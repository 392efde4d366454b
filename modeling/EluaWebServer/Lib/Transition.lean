import Mathlib.Data.Option.Basic

/-!
# Runs of a transition system

A system is a partial step function on states and actions; an action that is
not enabled is `none`.  `Conforming` adds a condition on the steps that are
considered, and an invariant is proved for the states of all such runs from
what it does in one step.
-/

namespace Transition

variable {σ α : Type}

/-- The state after a list of actions. -/
def run (step : σ → α → Option σ) (s : σ) : List α → Option σ
  | [] => some s
  | a :: as => (step s a).bind fun s => run step s as

/-- Every step of the run meets the condition. -/
def Conforming (step : σ → α → Option σ) (ok : σ → α → Prop) (s : σ) : List α → Prop
  | [] => True
  | a :: as => ok s a ∧ ∀ s', step s a = some s' → Conforming step ok s' as

instance {step : σ → α → Option σ} {ok : σ → α → Prop} [∀ s a, Decidable (ok s a)] :
    (s : σ) → (as : List α) → Decidable (Conforming step ok s as)
  | _, [] => inferInstanceAs (Decidable True)
  | s, a :: as =>
      have (s' : σ) : Decidable (Conforming step ok s' as) := instDecidableConforming s' as
      decidable_of_iff (ok s a ∧ ∀ s' ∈ step s a, Conforming step ok s' as) Iff.rfl

theorem run_append_singleton (step : σ → α → Option σ) (s : σ) (as : List α) (a : α) :
    run step s (as ++ [a]) = (run step s as).bind fun s => step s a := by
  induction as generalizing s with
  | nil => simp [run]
  | cons b as ih =>
      rw [List.cons_append, run, run, Option.bind_assoc]
      exact Option.bind_congr fun s' _ => ih s'

/-- **Invariants over runs.**  What every conforming step preserves holds
after every conforming run. -/
theorem invariant_of_run {step : σ → α → Option σ} {ok : σ → α → Prop} {inv : σ → Prop}
    (hstep : ∀ s a s', inv s → ok s a → step s a = some s' → inv s') {s s' : σ}
    {as : List α} (hinv : inv s) (hok : Conforming step ok s as)
    (hrun : run step s as = some s') : inv s' := by
  induction as generalizing s with
  | nil =>
      simp only [run, Option.some.injEq] at hrun
      exact hrun ▸ hinv
  | cons a as ih =>
      simp only [run, Option.bind_eq_some_iff] at hrun
      obtain ⟨s₁, h₁, hrest⟩ := hrun
      obtain ⟨hhead, htail⟩ := hok
      exact ih (hstep s a s₁ hinv hhead h₁) (htail s₁ h₁) hrest

theorem conforming_true (step : σ → α → Option σ) (s : σ) (as : List α) :
    Conforming step (fun _ _ => True) s as := by
  induction as generalizing s with
  | nil => trivial
  | cons a as ih => exact ⟨trivial, fun s' _ => ih s'⟩

/-- A condition on the actions alone. -/
theorem conforming_const {step : σ → α → Option σ} {p : α → Prop}
    (htotal : ∀ s a, ∃ s', step s a = some s') (s : σ) (as : List α) :
    Conforming step (fun _ a => p a) s as ↔ ∀ a ∈ as, p a := by
  induction as generalizing s with
  | nil => simp [Conforming]
  | cons a as ih =>
      obtain ⟨s', hs'⟩ := htotal s a
      rw [Conforming, List.forall_mem_cons]
      apply and_congr_right
      intro _
      constructor
      · intro hall
        exact (ih s').mp (hall s' hs')
      · intro hall s₁ _
        exact (ih s₁).mpr hall

/-- Two conditions that agree where an invariant holds. -/
theorem conforming_congr {step : σ → α → Option σ} {ok ok' : σ → α → Prop} {inv : σ → Prop}
    (hstep : ∀ s a s', inv s → step s a = some s' → inv s')
    (hok : ∀ s a, inv s → (ok s a ↔ ok' s a)) {s : σ} {as : List α} (hinv : inv s) :
    Conforming step ok s as ↔ Conforming step ok' s as := by
  induction as generalizing s with
  | nil => exact Iff.rfl
  | cons a as ih =>
      apply and_congr (hok s a hinv)
      apply forall_congr'
      intro s'
      apply forall_congr'
      intro hs'
      exact ih (hstep s a s' hinv hs')

/-- What every step preserves holds after every run. -/
theorem invariant_of_steps {step : σ → α → Option σ} {inv : σ → Prop}
    (hstep : ∀ s a s', inv s → step s a = some s' → inv s') {s s' : σ} {as : List α}
    (hinv : inv s) (hrun : run step s as = some s') : inv s' :=
  invariant_of_run (fun s a s' h _ => hstep s a s' h) hinv (conforming_true step s as) hrun

/-- **Runs that cannot fail.**  When every conforming step is possible and
preserves the invariant, every conforming run is possible and ends in it. -/
theorem run_of_total {step : σ → α → Option σ} {ok : σ → α → Prop} {inv : σ → Prop}
    (hstep : ∀ s a, inv s → ok s a → ∃ s', step s a = some s' ∧ inv s') {s : σ}
    {as : List α} (hinv : inv s) (hok : Conforming step ok s as) :
    ∃ s', run step s as = some s' ∧ inv s' := by
  induction as generalizing s with
  | nil => exact ⟨s, rfl, hinv⟩
  | cons a as ih =>
      obtain ⟨hhead, htail⟩ := hok
      obtain ⟨s₁, h₁, hinv₁⟩ := hstep s a hinv hhead
      obtain ⟨s', hrun, hinv'⟩ := ih hinv₁ (htail s₁ h₁)
      exact ⟨s', by rw [run, h₁, Option.bind_some, hrun], hinv'⟩

/-- **Where a condition is exact.**  When a step leads to a state with the
property exactly if it is conforming, the property holds in all states of a run
exactly if the run is conforming.  A step without a result is conforming. -/
theorem forall_states_iff_of_partial {step : σ → α → Option σ} {ok : σ → α → Prop}
    {inv prop : σ → Prop} (hprop : ∀ s, inv s → prop s)
    (hstep : ∀ s a, inv s → (step s a = none ∧ ok s a) ∨
      ∃ s', step s a = some s' ∧ (prop s' → inv s') ∧ (prop s' ↔ ok s a))
    {s : σ} {as : List α} (hinv : inv s) :
    (∀ n s', run step s (as.take n) = some s' → prop s') ↔ Conforming step ok s as := by
  induction as generalizing s with
  | nil =>
      refine iff_of_true ?_ trivial
      intro n s' hrun
      rw [List.take_nil, run, Option.some.injEq] at hrun
      exact hrun ▸ hprop s hinv
  | cons a as ih =>
      rcases hstep s a hinv with ⟨hnone, hok⟩ | ⟨s₁, h₁, hinv₁, hok⟩
      · refine iff_of_true ?_ ⟨hok, by simp [hnone]⟩
        intro n s' hrun
        cases n with
        | zero => exact Option.some.inj hrun ▸ hprop s hinv
        | succ n =>
            rw [List.take_succ_cons, run, hnone] at hrun
            cases hrun
      · have hrun : ∀ n, run step s ((a :: as).take (n + 1)) = run step s₁ (as.take n) := by
          intro n
          rw [List.take_succ_cons, run, h₁, Option.bind_some]
        constructor
        · intro hall
          have hfirst : prop s₁ := hall 1 s₁ (hrun 0)
          refine ⟨hok.mp hfirst, ?_⟩
          intro s' hs'
          rw [h₁, Option.some.injEq] at hs'
          subst hs'
          exact (ih (hinv₁ hfirst)).mp fun n s' hs' => hall (n + 1) s' ((hrun n).trans hs')
        · rintro ⟨hhead, htail⟩ n s' hs'
          cases n with
          | zero => exact Option.some.inj hs' ▸ hprop s hinv
          | succ n =>
              have hrest := (ih (hinv₁ (hok.mpr hhead))).mpr (htail s₁ h₁)
              exact hrest n s' ((hrun n).symm.trans hs')

/-- The same when every step has a result. -/
theorem forall_states_iff {step : σ → α → Option σ} {ok : σ → α → Prop} {inv prop : σ → Prop}
    (hprop : ∀ s, inv s → prop s)
    (hstep : ∀ s a, inv s → ∃ s', step s a = some s' ∧ (prop s' → inv s') ∧ (prop s' ↔ ok s a))
    {s : σ} {as : List α} (hinv : inv s) :
    (∀ n s', run step s (as.take n) = some s' → prop s') ↔ Conforming step ok s as :=
  forall_states_iff_of_partial hprop (fun s a h => .inr (hstep s a h)) hinv

/-- **What cannot be made good.**  When a step that is not conforming leads to a state that no
later step gets out of, the last state of a run says whether all of it was conforming. -/
theorem sound_or_broken {step : σ → α → Option σ} {cond ok : σ → α → Prop}
    {sound broken : σ → Prop}
    (hsound : ∀ s a s', sound s → cond s a → ok s a → step s a = some s' → sound s')
    (hbreak : ∀ s a s', sound s → cond s a → ¬ ok s a → step s a = some s' → broken s')
    (hbroken : ∀ s a s', broken s → cond s a → step s a = some s' → broken s')
    {s s' : σ} {as : List α} (hs : sound s) (hcond : Conforming step cond s as)
    (hrun : run step s as = some s') :
    (Conforming step ok s as ∧ sound s') ∨ (¬ Conforming step ok s as ∧ broken s') := by
  induction as generalizing s with
  | nil =>
      rw [run, Option.some.injEq] at hrun
      exact .inl ⟨trivial, hrun ▸ hs⟩
  | cons a as ih =>
      rw [run, Option.bind_eq_some_iff] at hrun
      obtain ⟨s₁, h₁, hrest⟩ := hrun
      obtain ⟨hhead, htail⟩ := hcond
      by_cases hok : ok s a
      · cases ih (hsound s a s₁ hs hhead hok h₁) (htail s₁ h₁) hrest with
        | inl h =>
            refine .inl ⟨⟨hok, ?_⟩, h.2⟩
            intro s₂ h₂
            exact Option.some.inj (h₁.symm.trans h₂) ▸ h.1
        | inr h => exact .inr ⟨fun hall => h.1 (hall.2 s₁ h₁), h.2⟩
      · have hbad : broken s₁ := hbreak s a s₁ hs hhead hok h₁
        refine .inr ⟨fun hall => hok hall.1, ?_⟩
        exact invariant_of_run hbroken hbad (htail s₁ h₁) hrest

end Transition
