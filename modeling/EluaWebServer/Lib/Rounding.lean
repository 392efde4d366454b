import EluaWebServer.Lib.Ieee

/-!
# Conversion between binary floating-point formats

Two patterns, also of different formats, are compared by their values.  A pattern is
converted to the nearest number of the other format, ties to even, and nothing is lost when
the other format has the number.
-/

namespace Ieee

section

variable (f g : Format) (a b : Nat)

/-- The two patterns are equal as numbers: zeros of either sign are, and infinities of the
same sign. -/
def Equal : Prop :=
  if finite f a = true ∧ finite g b = true then
    sig f a * 2 ^ scale f a * 2 ^ (g.bias + g.fracBits) =
        sig g b * 2 ^ scale g b * 2 ^ (f.bias + f.fracBits) ∧
      (sig f a = 0 ∨ negative f a = negative g b)
  else
    finite f a = false ∧ finite g b = false ∧ frac f a = 0 ∧ frac g b = 0 ∧
      negative f a = negative g b

instance : Decidable (Equal f g a b) := by
  unfold Equal
  infer_instance

/-- The pattern of an infinity, without the sign. -/
def infinity : Nat := (2 ^ g.expBits - 1) * 2 ^ g.fracBits

/-- The scale of the nearest number of the other format. -/
def roundedScale (m e : Nat) : Nat :=
  max 1 (Nat.log2 m + e + g.bias - (f.bias + f.fracBits))

/-- The pattern of the nearest number, without the sign. -/
def roundedMagnitude (m e : Nat) : Nat :=
  let s := roundedScale f g m e
  if m = 0 then 0
  else
    min (infinity g) ((s - 1) * 2 ^ g.fracBits +
      roundShift (m * 2 ^ (e + (g.bias + g.fracBits))) (f.bias + f.fracBits + s))

/-- Conversion to the other format. -/
def convert : Nat :=
  (if negative f a then 1 else 0) * 2 ^ (g.fracBits + g.expBits) +
    if finite f a then roundedMagnitude f g (sig f a) (scale f a)
    else if frac f a = 0 then infinity g
    else infinity g + 2 ^ (g.fracBits - 1)

end

variable {f g : Format} {a b : Nat}

theorem equal_of_isInt {x : Int} (ha : IsInt f a x) (hb : IsInt g b x) : Equal f g a b := by
  obtain ⟨hfa, hva, hsa⟩ := ha
  obtain ⟨hfb, hvb, hsb⟩ := hb
  rw [Equal, if_pos ⟨hfa, hfb⟩]
  constructor
  · rw [hva, hvb]
    ring
  · by_cases hx : x = 0
    · subst hx
      rw [Int.natAbs_zero, Nat.zero_mul] at hva
      exact .inl ((Nat.mul_eq_zero.mp hva).resolve_right (Nat.ne_of_gt (Nat.pow_pos (by decide))))
    · refine .inr ?_
      cases hna : negative f a <;> cases hnb : negative g b <;> simp [hna, hnb] at hsa hsb ⊢ <;>
        omega

theorem sig_eq_zero_iff (h : sig f a * 2 ^ scale f a * 2 ^ (g.bias + g.fracBits) =
    sig g b * 2 ^ scale g b * 2 ^ (f.bias + f.fracBits)) : sig f a = 0 ↔ sig g b = 0 := by
  have hpos : ∀ n : Nat, 2 ^ n ≠ 0 := fun n => Nat.ne_of_gt (Nat.pow_pos (by decide))
  constructor
  · intro hzero
    rw [hzero, Nat.zero_mul, Nat.zero_mul] at h
    have hmul := (Nat.mul_eq_zero.mp h.symm).resolve_right (hpos _)
    exact (Nat.mul_eq_zero.mp hmul).resolve_right (hpos _)
  · intro hzero
    rw [hzero, Nat.zero_mul, Nat.zero_mul] at h
    have hmul := (Nat.mul_eq_zero.mp h).resolve_right (hpos _)
    exact (Nat.mul_eq_zero.mp hmul).resolve_right (hpos _)

theorem Equal.symm (h : Equal f g a b) : Equal g f b a := by
  unfold Equal at h ⊢
  by_cases hfinite : finite f a = true ∧ finite g b = true
  · rw [if_pos hfinite] at h
    rw [if_pos hfinite.symm]
    obtain ⟨hvalue, hsign⟩ := h
    exact ⟨hvalue.symm, hsign.imp (sig_eq_zero_iff hvalue).mp Eq.symm⟩
  · rw [if_neg hfinite] at h
    rw [if_neg (mt And.symm hfinite)]
    obtain ⟨ha, hb, hfa, hfb, hsign⟩ := h
    exact ⟨hb, ha, hfb, hfa, hsign.symm⟩

/-- A number that equals another one is a number. -/
theorem Equal.self (h : Equal f g a b) : Equal f f a a := by
  unfold Equal at h ⊢
  by_cases hfinite : finite f a = true
  · rw [if_pos ⟨hfinite, hfinite⟩]
    exact ⟨rfl, .inr rfl⟩
  · rw [if_neg fun hboth => hfinite hboth.1] at h
    rw [if_neg fun hboth => hfinite hboth.1]
    exact ⟨h.1, h.1, h.2.2.1, h.2.2.1, rfl⟩

/-! ## Exact conversions -/

theorem log2_mul_pow {m : Nat} (hm : m ≠ 0) (k : Nat) :
    Nat.log2 (m * 2 ^ k) = Nat.log2 m + k := by
  have hpos : 0 < 2 ^ k := Nat.pow_pos (by decide)
  apply (Nat.log2_eq_iff (Nat.mul_ne_zero hm (Nat.ne_of_gt hpos))).mpr
  constructor
  · rw [Nat.pow_add]
    exact Nat.mul_le_mul_right _ (Nat.log2_self_le hm)
  · rw [Nat.add_right_comm, Nat.pow_add]
    exact Nat.mul_lt_mul_of_pos_right Nat.lt_log2_self hpos

/-- The scale of a number is known from its size. -/
theorem scale_eq (h : sig f a * 2 ^ scale f a * 2 ^ (g.bias + g.fracBits) =
    sig g b * 2 ^ scale g b * 2 ^ (f.bias + f.fracBits)) (hsig : sig f a ≠ 0) :
    roundedScale f g (sig f a) (scale f a) = scale g b := by
  have hsig' : sig g b ≠ 0 := mt (sig_eq_zero_iff h).mpr hsig
  have hlog : Nat.log2 (sig f a) + scale f a + (g.bias + g.fracBits) =
      Nat.log2 (sig g b) + scale g b + (f.bias + f.fracBits) := by
    rw [Nat.mul_assoc, Nat.mul_assoc, ← Nat.pow_add, ← Nat.pow_add] at h
    have hboth := congrArg Nat.log2 h
    rw [log2_mul_pow hsig, log2_mul_pow hsig'] at hboth
    omega
  have hlt : Nat.log2 (sig g b) < g.fracBits + 1 := (Nat.log2_lt hsig').mpr (sig_lt g b)
  by_cases hexpo : expo g b = 0
  · -- no hidden bit: the least scale
    have hfrac : Nat.log2 (sig g b) < g.fracBits := by
      apply (Nat.log2_lt hsig').mpr
      rw [sig, if_pos hexpo]
      exact Nat.mod_lt _ (Nat.pow_pos (by decide))
    have hscale : scale g b = 1 := by rw [scale, hexpo]; rfl
    rw [roundedScale, hscale]
    omega
  · have hfrac : g.fracBits ≤ Nat.log2 (sig g b) := by
      apply (Nat.le_log2 hsig').mpr
      rw [sig, if_neg hexpo]
      exact Nat.le_add_right _ _
    have hscale : 1 ≤ scale g b := Nat.le_max_right _ _
    rw [roundedScale]
    omega

/-- The magnitude of a number of the other format. -/
theorem roundedMagnitude_eq (h : sig f a * 2 ^ scale f a * 2 ^ (g.bias + g.fracBits) =
    sig g b * 2 ^ scale g b * 2 ^ (f.bias + f.fracBits)) (hsig : sig f a ≠ 0)
    (hfinite : finite g b = true) :
    roundedMagnitude f g (sig f a) (scale f a) = expo g b * 2 ^ g.fracBits + frac g b := by
  have hpos : 0 < 2 ^ g.fracBits := Nat.pow_pos (by decide)
  have hround : roundShift (sig f a * 2 ^ (scale f a + (g.bias + g.fracBits)))
      (f.bias + f.fracBits + scale g b) = sig g b := by
    have hvalue : sig f a * 2 ^ (scale f a + (g.bias + g.fracBits)) =
        sig g b * 2 ^ (f.bias + f.fracBits + scale g b) := by
      rw [Nat.pow_add, ← Nat.mul_assoc, h, Nat.mul_assoc, ← Nat.pow_add, Nat.add_comm (scale g b)]
    rw [hvalue, roundShift_of_dvd (Nat.dvd_mul_left _ _),
      Nat.mul_div_cancel _ (Nat.pow_pos (by decide))]
  have hfields : (scale g b - 1) * 2 ^ g.fracBits + sig g b =
      expo g b * 2 ^ g.fracBits + frac g b := by
    by_cases hexpo : expo g b = 0
    · rw [scale, sig, if_pos hexpo, hexpo]
      simp
    · rw [scale, sig, if_neg hexpo, Nat.max_eq_left (by omega)]
      obtain ⟨e, he⟩ : ∃ e, expo g b = e + 1 := ⟨expo g b - 1, by omega⟩
      rw [he, Nat.add_sub_cancel, Nat.succ_mul]
      omega
  have hlt : expo g b * 2 ^ g.fracBits + frac g b < infinity g := by
    have hfrac : frac g b < 2 ^ g.fracBits := Nat.mod_lt _ hpos
    have hexpo : expo g b < 2 ^ g.expBits := Nat.mod_lt _ (Nat.pow_pos (by decide))
    have hne : expo g b ≠ 2 ^ g.expBits - 1 := by simpa [finite] using hfinite
    have hnext : (expo g b + 1) * 2 ^ g.fracBits ≤ infinity g :=
      Nat.mul_le_mul_right _ (by omega)
    rw [Nat.succ_mul] at hnext
    omega
  rw [roundedMagnitude, if_neg hsig, scale_eq h hsig, hround, hfields]
  exact Nat.min_eq_right (Nat.le_of_lt hlt)

/-- Conversion puts a sign before the fields of the number. -/
theorem convert_fields (hexp : 2 ≤ g.expBits) (h : Equal f g a b) :
    ∃ e s, e < 2 ^ g.expBits ∧ s < 2 ^ g.fracBits ∧
      convert f g a = (if negative f a then 1 else 0) * 2 ^ (g.fracBits + g.expBits) +
        (e * 2 ^ g.fracBits + s) ∧
      (finite f a = true → sig f a = 0 → e = 0 ∧ s = 0) ∧
      (finite f a = true → sig f a ≠ 0 → e = expo g b ∧ s = frac g b) ∧
      (finite f a = false → e = 2 ^ g.expBits - 1 ∧ s = 0) := by
  have hpos : ∀ n : Nat, 0 < 2 ^ n := fun n => Nat.pow_pos (by decide)
  have hbig : 2 ^ 2 ≤ 2 ^ g.expBits := Nat.pow_le_pow_right (by decide) hexp
  rw [Equal] at h
  rw [convert]
  by_cases hfinite : finite f a = true
  · by_cases hboth : finite f a = true ∧ finite g b = true
    · rw [if_pos hboth] at h
      rw [if_pos hfinite]
      by_cases hsig : sig f a = 0
      · refine ⟨0, 0, hpos _, hpos _, ?_, fun _ _ => ⟨rfl, rfl⟩, fun _ hne => (hne hsig).elim, ?_⟩
        · rw [roundedMagnitude, if_pos hsig, Nat.zero_mul]
        · intro hinf
          rw [hfinite] at hinf
          contradiction
      · refine ⟨expo g b, frac g b, Nat.mod_lt _ (hpos _), Nat.mod_lt _ (hpos _), ?_,
          fun _ hzero => (hsig hzero).elim, fun _ _ => ⟨rfl, rfl⟩, ?_⟩
        · rw [roundedMagnitude_eq h.1 hsig hboth.2]
        · intro hinf
          rw [hfinite] at hinf
          contradiction
    · rw [if_neg hboth, hfinite] at h
      exact absurd h.1 (by decide)
  · rw [if_neg (fun hboth => hfinite hboth.1)] at h
    rw [if_neg hfinite, if_pos h.2.2.1]
    refine ⟨2 ^ g.expBits - 1, 0, by omega, hpos _, rfl, ?_, ?_, fun _ => ⟨rfl, rfl⟩⟩
    · intro hfin
      exact (hfinite hfin).elim
    · intro hfin
      exact (hfinite hfin).elim

/-- **Conversion to a format that has the number is exact.** -/
theorem equal_convert (hexp : 2 ≤ g.expBits) (h : Equal f g a b) :
    Equal f g a (convert f g a) ∧ convert f g a < 2 ^ (1 + g.expBits + g.fracBits) := by
  obtain ⟨e, s, he, hs, hconvert, hzero, hnonzero, hinfinite⟩ := convert_fields hexp h
  have hbig : 2 ^ 2 ≤ 2 ^ g.expBits := Nat.pow_le_pow_right (by decide) hexp
  have hsign : (if negative f a then 1 else 0) < 2 := by split <;> decide
  obtain ⟨hfrac, hexpo, hneg⟩ :=
    @fields_eq g (if negative f a then 1 else 0) e s he hs
  have hnegative : negative g (convert f g a) = negative f a := by
    have hiff := hneg hsign
    rw [← hconvert] at hiff
    cases hna : negative f a <;> simp [hna] at hiff <;> exact hiff
  rw [← hconvert] at hfrac hexpo
  constructor
  · unfold Equal at h ⊢
    by_cases hfinite : finite f a = true
    · have hboth : finite g b = true ∧
          sig f a * 2 ^ scale f a * 2 ^ (g.bias + g.fracBits) =
            sig g b * 2 ^ scale g b * 2 ^ (f.bias + f.fracBits) := by
        by_cases hboth : finite f a = true ∧ finite g b = true
        · rw [if_pos hboth] at h
          exact ⟨hboth.2, h.1⟩
        · rw [if_neg hboth, hfinite] at h
          exact absurd h.1 (by decide)
      by_cases hsig : sig f a = 0
      · obtain ⟨rfl, rfl⟩ := hzero hfinite hsig
        have hfiniteC : finite g (convert f g a) = true := by
          rw [finite, hexpo, decide_eq_true_iff]
          omega
        rw [if_pos ⟨hfinite, hfiniteC⟩]
        refine ⟨?_, .inl hsig⟩
        rw [hsig, sig, if_pos hexpo, hfrac, Nat.zero_mul, Nat.zero_mul, Nat.zero_mul, Nat.zero_mul]
      · obtain ⟨rfl, rfl⟩ := hnonzero hfinite hsig
        have hfiniteC : finite g (convert f g a) = true := by
          rw [finite, hexpo]
          exact hboth.1
        rw [if_pos ⟨hfinite, hfiniteC⟩]
        refine ⟨?_, .inr hnegative.symm⟩
        rw [hboth.2, sig, sig, scale, scale, hexpo, hfrac]
    · have hfiniteF : finite f a = false := Bool.eq_false_iff.mpr hfinite
      obtain ⟨rfl, rfl⟩ := hinfinite hfiniteF
      have hfiniteC : finite g (convert f g a) = false := by
        rw [finite, hexpo]
        exact decide_eq_false (fun hne => hne rfl)
      rw [if_neg (fun hboth => hfinite hboth.1)] at h
      rw [if_neg (fun hboth => hfinite hboth.1)]
      exact ⟨hfiniteF, hfiniteC, h.2.2.1, hfrac, hnegative.symm⟩
  · rw [hconvert]
    have hmagnitude : e * 2 ^ g.fracBits + s < 2 ^ (g.fracBits + g.expBits) := by
      have hnext : (e + 1) * 2 ^ g.fracBits ≤ 2 ^ g.expBits * 2 ^ g.fracBits :=
        Nat.mul_le_mul_right _ he
      rw [Nat.succ_mul] at hnext
      rw [Nat.pow_add, Nat.mul_comm (2 ^ g.fracBits)]
      omega
    have hone : (if negative f a then 1 else 0) * 2 ^ (g.fracBits + g.expBits) ≤
        1 * 2 ^ (g.fracBits + g.expBits) := Nat.mul_le_mul_right _ (by omega)
    rw [Nat.add_assoc 1, Nat.add_comm 1, Nat.add_comm g.expBits, Nat.pow_succ]
    omega

end Ieee
