import EluaWebServer.Vtmr.History

/-!
# When a timer matches

Runs in which every armed timer does what it should, and one in which a timer
that has counted before is armed.
-/

namespace Vtmr

/-- An access that does not arm the timer. -/
def Access.Mild (i : Nat) : Access → Prop
  | .setLimit id _ => id ≠ i
  | .setBit .periodic id _ => id ≠ i
  | .setBit .int _ set => set = false
  | _ => True

/-- A call arms the timer or makes no access that does. -/
theorem Call.arms_or_mild (cfg : Platform) (i : Nat) (c : Call) :
    (∃ us type n, c = .setMatchInt i us type ∧ us ≠ 0 ∧ n ≠ 0 ∧
      c.accesses cfg = arming i n (type ≠ PLATFORM_TIMER_INT_ONESHOT)) ∨
    ∀ a ∈ c.accesses cfg, a.Mild i := by
  cases c with
  | setMatchInt id us type =>
      by_cases hus : us = 0
      · right
        simp [accesses, vtmrSetMatchInt, hus, Access.Mild]
      · by_cases hfinal : final cfg us = 0
        · right
          simp [accesses, vtmrSetMatchInt, hus, hfinal, Access.Mild]
        · have harming : vtmrSetMatchInt cfg id us type =
              arming id (final cfg us) (type ≠ PLATFORM_TIMER_INT_ONESHOT) :=
            vtmrSetMatchInt_eq_arming hus hfinal
          by_cases hid : id = i
          · subst hid
            exact .inl ⟨us, type, final cfg us, rfl, hus, hfinal, harming⟩
          · right
            rw [accesses, harming]
            simp [arming, Access.Mild, hid]
  | getFlag id clear =>
      right
      cases clear with
      | false => simp [accesses, vtmrIntGetFlag, Access.Mild]
      | true => simp [accesses, vtmrIntGetFlag, Access.Mild]
  | start id =>
      right
      simp [accesses, vtmrResetTimer, Access.Mild]
  | delay id us =>
      right
      simp [accesses, vtmrDelay, vtmrResetTimer, Access.Mild]
  | read id =>
      right
      simp [accesses, Access.Mild]
  | setStatus id enable =>
      right
      simp [accesses, vtmrIntSetStatus, Access.Mild]
  | getStatus id =>
      right
      simp [accesses, vtmrIntGetStatus, Access.Mild]

/-- A timer that `vtmr_set_match_int` is arming, from the store of the limit
on. -/
structure Setting (i : Nat) (p : Bool) (h : History) (s : System) : Prop where
  arming : Arming i h.final p s
  stored : .setLimit i h.final ∉ s.todo
  type : p = !h.oneShot
  final : h.final ≠ 0
  flag : .setBit .int i false ∉ s.todo → (s.vars.timer i).flag = false
  enabled : .setBit .enabled i true ∉ s.todo → (s.vars.timer i).enabled = true
  raised : h.raised = 0
  cleared : h.cleared = false
  elapsed : (h.elapsed = none ∧ (.setReset i ∈ s.todo ∨ s.vars.resetIdx = some i)) ∨
    (h.elapsed = some h.sinceReset ∧ .setReset i ∉ s.todo ∧ s.vars.resetIdx = none ∧
      (s.vars.timer i).counter.toNat = h.sinceReset ∧ h.sinceReset < h.final.toNat)

/-- A timer that has been armed. -/
structure Live (h : History) (t : Timer) : Prop where
  limit : t.limit = h.final
  elapsed : ∃ e, h.elapsed = some e ∧ (e < h.final.toNat →
    t.counter.toNat ≤ e ∧ t.flag = false ∧ h.raised = 0)
  periodic : t.periodic = !h.oneShot
  pending : h.oneShot = true → h.raised = 0 → t.enabled = true ∧
    t.counter.toNat = h.sinceReset ∧ h.sinceReset < h.final.toNat
  raised : h.oneShot = true → h.raised ≠ 0 → h.raised = 1 ∧ t.enabled = false
  cleared : h.oneShot = true → h.cleared = true → h.raised ≠ 0 ∧ t.flag = false

/-- What the rest of a call leaves of a timer that has been armed. -/
structure Leaves (i : Nat) (h : History) (s : System) : Prop where
  enables : h.oneShot = true → ∀ set, .setBit .enabled i set ∈ s.todo →
    (set = true ↔ h.raised = 0)
  int : ∀ b id set, s.loaded = some b → s.todo.head? = some (.setBit .int id set) →
    i >>> 3 = id >>> 3 → Packed.bit b i = true → (s.vars.timer i).flag = true
  enabled : h.oneShot = true → ∀ b id set, s.loaded = some b →
    s.todo.head? = some (.setBit .enabled id set) →
    i >>> 3 = id >>> 3 → Packed.bit b i = (s.vars.timer i).enabled
  periodic : ∀ b id set, s.loaded = some b →
    s.todo.head? = some (.setBit .periodic id set) →
    i >>> 3 = id >>> 3 → Packed.bit b i = (s.vars.timer i).periodic

/-- Where the main program is with respect to a timer: about to store the limit
that arms it, arming it, or in another call. -/
inductive Phase (i : Nat) (w : Watched) : Prop where
  | starting {us : UInt32} {type : Nat} {n : UInt32} (hn : n ≠ 0)
      (hcall : w.call = some (.setMatchInt i us type))
      (htodo : w.sys.todo = arming i n (type ≠ PLATFORM_TIMER_INT_ONESHOT))
      (hlive : ∀ h, w.history = some h → h.returned = true ∧ Live h (w.sys.vars.timer i))
  | setting {p : Bool} {h : History} (hbusy : w.sys.todo ≠ []) (hhistory : w.history = some h)
      (hreturned : h.returned = false) (hset : Setting i p h w.sys)
  | other (hmild : ∀ a ∈ w.sys.todo, a.Mild i)
      (hlive : ∀ h, w.history = some h →
        h.returned = true ∧ Live h (w.sys.vars.timer i) ∧ Leaves i h w.sys)

variable {cfg : Platform} {i : Nat} {h : History} {w w' : Watched} {s : System} {t : Timer}

/-- A counter below the limit does not overflow with the next tick. -/
theorem toNat_counter_add_one {c n : UInt32} (h : c.toNat < n.toNat) :
    (c + 1).toNat = c.toNat + 1 := by
  have hsmall := n.toNat_lt
  rw [UInt32.toNat_add]
  exact Nat.mod_eq_of_lt (by rw [UInt32.toNat_one]; omega)

namespace Timer

/-- A tick that may also be the one that a reset waits for. -/
def tickReset (t : Timer) (resets : Bool) : Timer :=
  if resets then { t.tick.1 with counter := 0 } else t.tick.1

theorem due_iff (t : Timer) : t.due = true ↔ t.limit.toNat ≤ (t.counter + 1).toNat := by
  rw [due, decide_eq_true_eq, ge_iff_le, UInt32.le_iff_toNat_le]

theorem tickReset_of_not_due (hdue : t.due = false) (resets : Bool) :
    t.tickReset resets = { t with counter := if resets then 0 else t.counter + 1 } := by
  rw [tickReset, tick_of_not_due hdue]
  cases resets <;> rfl

@[simp] theorem limit_tickReset (t : Timer) (resets : Bool) :
    (t.tickReset resets).limit = t.limit := by
  cases resets <;> exact tick_limit t

@[simp] theorem periodic_tickReset (t : Timer) (resets : Bool) :
    (t.tickReset resets).periodic = t.periodic := by
  cases resets <;> exact tick_periodic t

/-- The callback only sets match flags. -/
theorem flag_tickReset (h : t.flag = true) (resets : Bool) : (t.tickReset resets).flag = true := by
  cases hdue : t.due with
  | false =>
      rw [tickReset_of_not_due hdue]
      exact h
  | true =>
      have hflag : t.tick.1.flag = true := by
        rw [tick_of_due hdue]
        split <;> rfl
      cases resets <;> exact hflag

/-- The callback disables a timer only when it raises its interrupt. -/
theorem enabled_tickReset (h : t.due = true → t.enabled = false) (resets : Bool) :
    (t.tickReset resets).enabled = t.enabled := by
  cases hdue : t.due with
  | false => rw [tickReset_of_not_due hdue]
  | true =>
      have hsame : t.tick.1.enabled = t.enabled := by
        rw [tick_of_due hdue]
        split
        · rfl
        · exact (h hdue).symm
      cases resets <;> exact hsame

end Timer

/-- A tick that finds the counter below the limit. -/
theorem Live.tick_not_due (hlive : Live h t) (hdue : t.due = false) (resets : Bool) :
    Live (h.tick resets t.tick.2) (t.tickReset resets) := by
  have hlt : ¬ h.final.toNat ≤ (t.counter + 1).toNat := by
    rw [← hlive.limit, ← Timer.due_iff, hdue]
    exact nofun
  rw [Timer.tick_of_not_due hdue, Timer.tickReset_of_not_due hdue]
  obtain ⟨e, he, hbefore⟩ := hlive.elapsed
  refine ⟨hlive.limit, ⟨e + 1, by simp [History.tick, he], ?_⟩, hlive.periodic, ?_, ?_, ?_⟩
  · intro hlate
    have hlate' : e + 1 < h.final.toNat := hlate
    obtain ⟨hcounter, hflag, hraised⟩ := hbefore (by omega)
    refine ⟨?_, hflag, by simpa [History.tick] using hraised⟩
    have hnext : (t.counter + 1).toNat = t.counter.toNat + 1 :=
      toNat_counter_add_one (n := h.final) (by omega)
    cases resets with
    | true => exact Nat.zero_le _
    | false =>
        show (t.counter + 1).toNat ≤ e + 1
        omega
  · intro hshot hraised
    obtain ⟨henabled, hcounter, hsince⟩ := hlive.pending hshot (by simpa [History.tick] using hraised)
    have hnext : (t.counter + 1).toNat = t.counter.toNat + 1 :=
      toNat_counter_add_one (n := h.final) (by omega)
    refine ⟨henabled, ?_⟩
    cases resets with
    | true => exact ⟨rfl, show 0 < h.final.toNat by omega⟩
    | false =>
        show (t.counter + 1).toNat = h.sinceReset + 1 ∧ h.sinceReset + 1 < h.final.toNat
        omega
  · intro hshot hraised
    simpa [History.tick] using hlive.raised hshot (by simpa [History.tick] using hraised)
  · intro hshot hcleared
    simpa [History.tick] using hlive.cleared hshot hcleared

/-- A tick that brings the counter to the limit. -/
theorem Live.tick_due (hlive : Live h t) (hdue : t.due = true) (resets : Bool)
    (hcleared : h.oneShot = true → h.cleared = false) :
    Live (h.tick resets t.tick.2) (t.tickReset resets) := by
  have hle : h.final.toNat ≤ (t.counter + 1).toNat := by
    rw [← hlive.limit, ← Timer.due_iff, hdue]
  obtain ⟨e, he, hbefore⟩ := hlive.elapsed
  have htick : h.oneShot = true → t.tick.2 = t.enabled ∧ (t.tickReset resets).enabled = false := by
    intro hshot
    have hperiodic : t.periodic = false := by rw [hlive.periodic, hshot]; rfl
    have heq := Timer.tick_of_due hdue
    rw [if_neg (by rw [hperiodic]; exact nofun)] at heq
    rw [Timer.tickReset, heq]
    cases resets <;> exact ⟨rfl, rfl⟩
  have hraised' : (h.tick resets t.tick.2).raised = h.raised + t.tick.2.toNat := rfl
  refine ⟨by rw [Timer.limit_tickReset]; exact hlive.limit,
    ⟨e + 1, by simp [History.tick, he], ?_⟩,
    by rw [Timer.periodic_tickReset]; exact hlive.periodic, ?_, ?_, ?_⟩
  · intro hlate
    have hlate' : e + 1 < h.final.toNat := hlate
    obtain ⟨hcounter, -, -⟩ := hbefore (by omega)
    have hnext : (t.counter + 1).toNat = t.counter.toNat + 1 :=
      toNat_counter_add_one (n := h.final) (by omega)
    omega
  · intro hshot hraised
    exfalso
    rw [hraised', (htick hshot).1] at hraised
    have hzero : h.raised = 0 := by omega
    rw [(hlive.pending hshot hzero).1] at hraised
    cases hraised
  · intro hshot _
    refine ⟨?_, (htick hshot).2⟩
    rw [hraised', (htick hshot).1]
    by_cases hzero : h.raised = 0
    · rw [hzero, (hlive.pending hshot hzero).1]
      rfl
    · obtain ⟨hone, hoff⟩ := hlive.raised hshot hzero
      rw [hone, hoff]
      rfl
  · intro hshot hwas
    exact absurd ((hcleared hshot).symm.trans hwas) nofun

/-- A tick after `vtmr_set_match_int` has returned. -/
theorem Live.tick (hlive : Live h t) (resets : Bool)
    (hok : t.due = true → h.oneShot = true → h.cleared = false) :
    Live (h.tick resets t.tick.2) (t.tickReset resets) := by
  cases hdue : t.due with
  | true => exact hlive.tick_due hdue resets (hok hdue)
  | false => exact hlive.tick_not_due hdue resets

/-- Where a tick is allowed to raise the interrupt. -/
theorem Watched.not_enabling (hmild : ∀ a ∈ w.sys.todo, a.Mild i) (h : w.enabling i = false) :
    (∀ set, .setBit .enabled i set ∉ w.sys.todo) ∧
    ∀ b id set, w.sys.loaded = some b → w.sys.todo.head? = some (.setBit .enabled id set) →
      i >>> 3 ≠ id >>> 3 := by
  have hlimit : w.sys.todo.any (Access.limits i) = false := by
    rw [List.any_eq_false]
    intro a ha
    cases a with
    | setLimit id n =>
        have hne : id ≠ i := hmild _ ha
        simpa [Access.limits] using hne
    | _ => exact nofun
  rw [Watched.enabling, hlimit, Bool.or_eq_false_iff] at h
  obtain ⟨hpending, hloaded⟩ := h
  constructor
  · intro set hmem
    rw [Bool.not_false, Bool.and_true, List.any_eq_false] at hpending
    exact hpending _ hmem (by simp [Access.enables])
  · intro b id set hb hhead hbyte
    simp [hb, hhead, hbyte, Access.enablesIn] at hloaded

theorem timer_callback (hi : i < cfg.VTMR_NUM_TIMERS) (v : Vars) :
    (v.cmnVirtualTimerCb cfg).1.timer i = (v.timer i).tickReset (v.resetIdx = some i) := by
  rw [Vars.timer_cmnVirtualTimerCb _ hi, Timer.tickReset]
  by_cases hreset : v.resetIdx = some i <;> simp [hreset]

theorem raises_callback (hi : i < cfg.VTMR_NUM_TIMERS) (v : Vars) :
    decide (i + VTMR_FIRST_ID ∈ (v.cmnVirtualTimerCb cfg).2) = (v.timer i).tick.2 := by
  rw [Bool.eq_iff_iff, decide_eq_true_eq, Vars.mem_cmnVirtualTimerCb]
  exact and_iff_right hi

/-- A tick while the main program is in a call that does not arm the timer. -/
theorem Leaves.tick (hleaves : Leaves i h w.sys) (hlive : Live h (w.sys.vars.timer i))
    (hmild : ∀ a ∈ w.sys.todo, a.Mild i) (hi : i < cfg.VTMR_NUM_TIMERS) (resets : Bool)
    (hok : (w.sys.vars.timer i).due = true → h.oneShot = true → h.raised = 0 →
      w.enabling i = false) :
    Leaves i (h.tick resets (w.sys.vars.timer i).tick.2)
      { w.sys with vars := (w.sys.vars.cmnVirtualTimerCb cfg).1 } := by
  have htimer := timer_callback hi w.sys.vars
  refine ⟨?_, ?_, ?_, ?_⟩
  · intro hshot set hmem
    rw [hleaves.enables hshot set hmem]
    show h.raised = 0 ↔ h.raised + (w.sys.vars.timer i).tick.2.toNat = 0
    cases hraises : (w.sys.vars.timer i).tick.2 with
    | false => rfl
    | true =>
        -- raised while the main program is about to write the enable bit
        have hdue : (w.sys.vars.timer i).due = true := by
          by_contra hnot
          rw [Timer.tick_of_not_due (by simpa using hnot)] at hraises
          cases hraises
        have hnonzero : h.raised ≠ 0 := by
          intro hzero
          exact (Watched.not_enabling hmild (hok hdue hshot hzero)).1 set hmem
        simp [hnonzero]
  · intro b id set hb hhead hbyte hbit
    show ((w.sys.vars.cmnVirtualTimerCb cfg).1.timer i).flag = true
    rw [htimer]
    exact Timer.flag_tickReset (hleaves.int b id set hb hhead hbyte hbit) _
  · intro hshot b id set hb hhead hbyte
    have hkeeps : (w.sys.vars.timer i).due = true → (w.sys.vars.timer i).enabled = false := by
      intro hdue
      by_cases hzero : h.raised = 0
      · have hnot := (Watched.not_enabling hmild (hok hdue hshot hzero)).2 b id set hb hhead
        exact absurd hbyte hnot
      · exact (hlive.raised hshot hzero).2
    rw [hleaves.enabled hshot b id set hb hhead hbyte]
    show _ = ((w.sys.vars.cmnVirtualTimerCb cfg).1.timer i).enabled
    rw [htimer, Timer.enabled_tickReset hkeeps]
  · intro b id set hb hhead hbyte
    rw [hleaves.periodic b id set hb hhead hbyte]
    show _ = ((w.sys.vars.cmnVirtualTimerCb cfg).1.timer i).periodic
    rw [htimer, Timer.periodic_tickReset]

/-- An access that does not arm the timer writes at most its enable bit, when
the call is to do that, and its match flag, which it does not set. -/
theorem Leaves.onTimer {a : Access} {rest : List Access} (hleaves : Leaves i h s)
    (htodo : s.todo = a :: rest) (hmild : a.Mild i) :
    ∃ e f, a.onTimer s.loaded i (s.vars.timer i) =
        { s.vars.timer i with enabled := e, flag := f } ∧
      (f = true → (s.vars.timer i).flag = true) ∧
      (h.oneShot = true → e = (s.vars.timer i).enabled ∨ (e = true ↔ h.raised = 0)) ∧
      (a = .setBit .int i false → s.loaded ≠ none → f = false) := by
  have hmem : a ∈ s.todo := by
    rw [htodo]
    exact List.mem_cons_self
  have hhead : s.todo.head? = some a := by rw [htodo]; rfl
  have hsame : (a = .setBit .int i false → s.loaded = none) →
      ∃ e f, s.vars.timer i = { s.vars.timer i with enabled := e, flag := f } ∧
        (f = true → (s.vars.timer i).flag = true) ∧
        (h.oneShot = true → e = (s.vars.timer i).enabled ∨ (e = true ↔ h.raised = 0)) ∧
        (a = .setBit .int i false → s.loaded ≠ none → f = false) := by
    intro hnone
    exact ⟨_, _, rfl, id, fun _ => .inl rfl, fun ha hne => absurd (hnone ha) hne⟩
  cases a with
  | setLimit id final =>
      have hne : id ≠ i := hmild
      rw [Access.onTimer, if_neg (Ne.symm hne)]
      exact hsame (by intro h; cases h)
  | setBit f id set =>
      cases hl : s.loaded with
      | none =>
          rw [hl] at hsame
          exact hsame fun _ => rfl
      | some b =>
          rw [hl] at hsame
          simp only [Access.onTimer]
          cases f with
          | periodic =>
              have hne : id ≠ i := hmild
              have hbit : (if i >>> 3 = id >>> 3 then Packed.bit b i
                  else (s.vars.timer i).bit .periodic) = (s.vars.timer i).bit .periodic := by
                split
                · rename_i hbyte
                  exact hleaves.periodic b id set hl hhead hbyte
                · rfl
              rw [if_neg (Ne.symm hne), hbit, Timer.setBit_bit]
              exact hsame (by intro h; cases h)
          | enabled =>
              refine ⟨_, _, rfl, fun hflag => hflag, ?_, (by intro h; cases h)⟩
              intro hshot
              by_cases hid : i = id
              · subst hid
                rw [if_pos rfl]
                exact .inr (hleaves.enables hshot set hmem)
              · rw [if_neg hid]
                split
                · rename_i hbyte
                  exact .inl (hleaves.enabled hshot b id set hl hhead hbyte)
                · exact .inl rfl
          | int =>
              have hset : set = false := hmild
              subst hset
              refine ⟨_, _, rfl, ?_, fun _ => .inl rfl, ?_⟩
              · intro hflag
                by_cases hid : i = id
                · rw [if_pos hid] at hflag
                  cases hflag
                · rw [if_neg hid] at hflag
                  split at hflag
                  · rename_i hbyte
                    exact hleaves.int b id false hl hhead hbyte hflag
                  · exact hflag
              · intro heq _
                obtain rfl : id = i := by simpa using heq
                rw [if_pos rfl]
  | testBit f id => exact hsame (by intro h; cases h)
  | readCounter id => exact hsame (by intro h; cases h)
  | setReset id => exact hsame (by intro h; cases h)
  | awaitReset => exact hsame (by intro h; cases h)
  | awaitCounter id final => exact hsame (by intro h; cases h)
  | result r => exact hsame (by intro h; cases h)

/-- What is left of the call after an access. -/
theorem Leaves.access {a : Access} {rest : List Access} (hleaves : Leaves i h s)
    (hcall : s.InCall) (htodo : s.todo = a :: rest) : Leaves i h (s.access a rest) := by
  have hmem : ∀ x, x ∈ (s.access a rest).todo → x ∈ s.todo := by
    intro x hx
    rcases System.access_todo s a rest with heq | heq
    · rw [heq] at hx
      rw [htodo]
      exact List.mem_cons_of_mem _ hx
    · rw [heq] at hx
      exact hx
  have hbit : ∀ b f id set, (s.access a rest).loaded = some b →
      (s.access a rest).todo.head? = some (.setBit f id set) → i >>> 3 = id >>> 3 →
      Packed.bit b i = ((s.access a rest).vars.timer i).bit f := by
    intro b f id set hb hhead hbyte
    exact hcall.bit_loaded htodo hb hhead hbyte
  refine ⟨?_, ?_, ?_, ?_⟩
  · intro hshot set hin
    exact hleaves.enables hshot set (hmem _ hin)
  · intro b id set hb hhead hbyte hset
    rw [hbit b .int id set hb hhead hbyte] at hset
    exact hset
  · intro _ b id set hb hhead hbyte
    exact hbit b .enabled id set hb hhead hbyte
  · intro b id set hb hhead hbyte
    exact hbit b .periodic id set hb hhead hbyte

/-- The history after an access that does not arm the timer. -/
theorem Watched.history_access {a : Access} (rest : List Access) (hmild : a.Mild i)
    (hreturned : ∀ h, w.history = some h → h.returned = true) :
    (w.access i a rest).history = w.history ∨
      (a = .setBit .int i false ∧ w.sys.loaded ≠ none ∧
        (w.access i a rest).history = w.history.map .clear) := by
  cases a with
  | setLimit id n =>
      have hne : id ≠ i := hmild
      left
      simp only [access, if_neg hne]
  | setBit f id set =>
      cases f with
      | int =>
          have hset : set = false := hmild
          subst hset
          by_cases hclear : id = i ∧ w.sys.loaded ≠ none
          · obtain ⟨rfl, hloaded⟩ := hclear
            refine .inr ⟨rfl, hloaded, ?_⟩
            simp only [access, hloaded, ne_eq, not_false_eq_true, and_self, if_true]
          · left
            simp only [access, if_neg hclear]
      | periodic => exact .inl rfl
      | enabled => exact .inl rfl
  | result r =>
      left
      cases hh : w.history with
      | none => simp [access, hh]
      | some h =>
          have hsame : { h with returned := true } = h := by
            rw [← hreturned h hh]
          simp [access, hh, hsame]
  | testBit f id => exact .inl rfl
  | readCounter id => exact .inl rfl
  | setReset id => exact .inl rfl
  | awaitReset => exact .inl rfl
  | awaitCounter id final => exact .inl rfl

/-- The enable bit and the match flag of a timer that has been armed. -/
theorem Live.write (hlive : Live h t) {e f : Bool} (hflag : f = true → t.flag = true)
    (henabled : h.oneShot = true → e = t.enabled ∨ (e = true ↔ h.raised = 0)) :
    Live h { t with enabled := e, flag := f } := by
  have hclear : t.flag = false → f = false := by
    intro hfalse
    cases hf : f with
    | false => rfl
    | true => exact absurd (hfalse.symm.trans (hflag hf)) nofun
  obtain ⟨n, hn, hbefore⟩ := hlive.elapsed
  refine ⟨hlive.limit, ⟨n, hn, ?_⟩, hlive.periodic, ?_, ?_, ?_⟩
  · intro hlate
    obtain ⟨hcounter, hfalse, hraised⟩ := hbefore hlate
    exact ⟨hcounter, hclear hfalse, hraised⟩
  · intro hshot hzero
    obtain ⟨hon, hcounter⟩ := hlive.pending hshot hzero
    refine ⟨?_, hcounter⟩
    rcases henabled hshot with hsame | hiff
    · exact hsame.trans hon
    · exact hiff.mpr hzero
  · intro hshot hnonzero
    obtain ⟨hone, hoff⟩ := hlive.raised hshot hnonzero
    refine ⟨hone, ?_⟩
    rcases henabled hshot with hsame | hiff
    · exact hsame.trans hoff
    · simpa [hnonzero] using hiff
  · intro hshot hcleared
    obtain ⟨hnonzero, hfalse⟩ := hlive.cleared hshot hcleared
    exact ⟨hnonzero, hclear hfalse⟩

/-- The flag is cleared. -/
theorem Live.clear (hlive : Live h t) (hflag : t.flag = false) : Live h.clear t := by
  refine ⟨hlive.limit, hlive.elapsed, hlive.periodic, hlive.pending, hlive.raised, ?_⟩
  intro hshot hcleared
  refine ⟨?_, hflag⟩
  intro hzero
  have hwas : h.cleared = true := by
    have hzero' : h.raised = 0 := hzero
    simpa [History.clear, hzero'] using hcleared
  exact (hlive.cleared hshot hwas).1 hzero

/-- An access of a call that does not arm the timer. -/
theorem Phase.access_other {a : Access} {rest : List Access} (hcall : w.sys.InCall)
    (htodo : w.sys.todo = a :: rest) (hmild : ∀ x ∈ w.sys.todo, x.Mild i)
    (hlive : ∀ h, w.history = some h →
      h.returned = true ∧ Live h (w.sys.vars.timer i) ∧ Leaves i h w.sys) :
    Phase i (w.access i a rest) := by
  have ha : a.Mild i := hmild a (by rw [htodo]; exact List.mem_cons_self)
  have hrest : ∀ x ∈ (w.sys.access a rest).todo, x.Mild i := by
    intro x hx
    rcases System.access_todo w.sys a rest with heq | heq
    · rw [heq] at hx
      exact hmild x (by rw [htodo]; exact List.mem_cons_of_mem _ hx)
    · rw [heq] at hx
      exact hmild x hx
  have hhistory := Watched.history_access rest ha fun h hh => (hlive h hh).1
  refine .other hrest ?_
  intro h' hh'
  cases hh : w.history with
  | none =>
      rcases hhistory with heq | ⟨-, -, heq⟩
      · cases (heq.symm.trans hh').symm.trans hh
      · rw [heq, hh] at hh'
        cases hh'
  | some h =>
      obtain ⟨hreturned, hlive, hleaves⟩ := hlive h hh
      obtain ⟨e, f, hafter, hflag, henabled, hcleared⟩ := hleaves.onTimer htodo ha
      rw [← System.timer_access w.sys a rest] at hafter
      have hnow : Live h ((w.sys.access a rest).vars.timer i) := by
        rw [hafter]
        exact hlive.write hflag henabled
      have hleft := hleaves.access hcall htodo
      rcases hhistory with heq | ⟨hclear, hloaded, heq⟩
      · obtain rfl := Option.some.inj (hh.symm.trans (heq.symm.trans hh'))
        exact ⟨hreturned, hnow, hleft⟩
      · rw [heq, hh] at hh'
        obtain rfl := Option.some.inj hh'
        have hfalse : ((w.sys.access a rest).vars.timer i).flag = false := by
          rw [hafter]
          exact hcleared hclear hloaded
        exact ⟨hreturned, hnow.clear hfalse, ⟨hleft.enables, hleft.int, hleft.enabled, hleft.periodic⟩⟩

/-- The limit is stored. -/
theorem Phase.access_starting {us : UInt32} {type : Nat} {n : UInt32} {a : Access}
    {rest : List Access} (hinCall : w.sys.InCall) (hn : n ≠ 0)
    (hcall : w.call = some (.setMatchInt i us type))
    (harms : w.sys.todo = arming i n (type ≠ PLATFORM_TIMER_INT_ONESHOT))
    (htodo : w.sys.todo = a :: rest) : Phase i (w.access i a rest) := by
  have harming : Arming i n (type ≠ PLATFORM_TIMER_INT_ONESHOT) w.sys := by
    refine ⟨hinCall, harms ▸ List.suffix_rfl, fun hdone => ?_, fun hdone => ?_⟩
    · exact absurd (harms ▸ mem_arming.mpr (.inl rfl)) hdone
    · exact absurd (harms ▸ mem_arming.mpr (.inr (.inl rfl))) hdone
  have hafter := harming.access htodo
  rw [harms] at htodo
  obtain ⟨rfl, rfl⟩ := List.cons.inj htodo
  refine .setting (h := .start (type = PLATFORM_TIMER_INT_ONESHOT) n)
    (p := type ≠ PLATFORM_TIMER_INT_ONESHOT) ?_ ?_ rfl ?_
  · simp [Watched.access, System.access]
  · simp [Watched.access, hcall]
  · refine ⟨hafter, ?_, ?_, hn, ?_, ?_, rfl, rfl, .inl ⟨rfl, .inl ?_⟩⟩
    · simp [Watched.access, System.access, History.start]
    · simp [History.start]
    · simp [Watched.access, System.access]
    · simp [Watched.access, System.access]
    · simp [Watched.access, System.access]

/-- A tick while the timer is being armed. -/
theorem Setting.tick {p : Bool} (hset : Setting i p h s) (hi : i < cfg.VTMR_NUM_TIMERS)
    (hdue : (s.vars.timer i).due = false) :
    Setting i p (h.tick (s.vars.resetIdx = some i) (s.vars.timer i).tick.2)
      { s with vars := (s.vars.cmnVirtualTimerCb cfg).1 } := by
  have htimer := timer_callback hi s.vars
  rw [Timer.tickReset_of_not_due hdue] at htimer
  have hraises : (s.vars.timer i).tick.2 = false := by rw [Timer.tick_of_not_due hdue]
  rw [hraises]
  refine ⟨hset.arming.tick hi, hset.stored, hset.type, hset.final, ?_, ?_, hset.raised,
    hset.cleared, ?_⟩
  · intro hdone
    show ((s.vars.cmnVirtualTimerCb cfg).1.timer i).flag = false
    rw [htimer]
    exact hset.flag hdone
  · intro hdone
    show ((s.vars.cmnVirtualTimerCb cfg).1.timer i).enabled = true
    rw [htimer]
    exact hset.enabled hdone
  · have hcounter : ((s.vars.cmnVirtualTimerCb cfg).1.timer i).counter =
        if s.vars.resetIdx = some i then 0 else (s.vars.timer i).counter + 1 := by
      rw [htimer]
      simp only [decide_eq_true_eq]
    rcases hset.elapsed with ⟨hnone, hwhere⟩ | ⟨hsome, hmem, hreset, hcount, hlt⟩
    · by_cases hreset : s.vars.resetIdx = some i
      · right
        have htodo := (hset.arming.pending (by rw [hreset]; intro h; cases h)).1
        have hpos : 0 < h.final.toNat := Nat.pos_of_ne_zero fun hz =>
          hset.final (UInt32.toNat_inj.mp hz)
        refine ⟨by simp [History.tick, hnone, hreset], ?_, Vars.resetIdx_cmnVirtualTimerCb _, ?_, ?_⟩
        · simp [htodo, Vtmr.arming]
        · show ((s.vars.cmnVirtualTimerCb cfg).1.timer i).counter.toNat = _
          rw [hcounter, if_pos hreset]
          simp [History.tick, hreset]
        · simpa [History.tick, hreset] using hpos
      · left
        refine ⟨by simp [History.tick, hnone, hreset], .inl ?_⟩
        rcases hwhere with hmem | hpending
        · exact hmem
        · exact absurd hpending hreset
    · right
      have hlimit := hset.arming.limit hset.stored
      have hnot : ¬ h.final.toNat ≤ ((s.vars.timer i).counter + 1).toNat := by
        rw [← hlimit, ← Timer.due_iff, hdue]
        intro h
        cases h
      have hnext : ((s.vars.timer i).counter + 1).toNat = (s.vars.timer i).counter.toNat + 1 :=
        toNat_counter_add_one (n := h.final) (by omega)
      have hother : s.vars.resetIdx ≠ some i := by
        rw [hreset]
        intro h
        cases h
      refine ⟨by simp [History.tick, hsome, hreset], hmem, Vars.resetIdx_cmnVirtualTimerCb _, ?_, ?_⟩
      · show ((s.vars.cmnVirtualTimerCb cfg).1.timer i).counter.toNat = _
        rw [hcounter, if_neg hother, hnext, hcount]
        simp [History.tick, hreset]
      · simp only [History.tick, hreset, reduceCtorEq, decide_false, Bool.false_eq_true, if_false]
        omega

/-- An access that arms the timer. -/
theorem Setting.access {p : Bool} {a : Access} {rest : List Access} (hset : Setting i p h s)
    (htodo : s.todo = a :: rest) : Setting i p h (s.access a rest) := by
  have hmem : a ∈ Vtmr.arming i h.final p :=
    hset.arming.todo.subset (by rw [htodo]; exact List.mem_cons_self)
  have htimer := System.timer_access s a rest i
  have hstays : ∀ x, x ∈ (s.access a rest).todo → x ∈ s.todo := by
    intro x hx
    rcases System.access_todo s a rest with heq | heq
    · rw [heq] at hx
      rw [htodo]
      exact List.mem_cons_of_mem _ hx
    · rw [heq] at hx
      exact hx
  refine ⟨hset.arming.access htodo, fun hin => hset.stored (hstays _ hin), hset.type, hset.final,
    ?_, ?_, hset.raised, hset.cleared, ?_⟩
  · intro hdone
    rw [htimer, Access.onTimer_flag hmem]
    split
    · rfl
    · rename_i hne
      exact hset.flag (System.not_mem_todo htodo hdone hne)
  · intro hdone
    rw [htimer, Access.onTimer_enabled hmem]
    split
    · rfl
    · rename_i hne
      exact hset.enabled (System.not_mem_todo htodo hdone hne)
  · rw [htimer, Access.onTimer_counter]
    rcases hset.elapsed with ⟨hnone, hasked | hpending⟩ | ⟨hsome, hdone, hreset, hcount⟩
    · refine .inl ⟨hnone, ?_⟩
      by_cases ha : a = .setReset i
      · subst ha
        exact .inr rfl
      · left
        rcases System.access_todo s a rest with heq | heq
        · rw [heq]
          rw [htodo] at hasked
          exact List.mem_of_ne_of_mem (Ne.symm ha) hasked
        · rw [heq]
          exact hasked
    · refine .inl ⟨hnone, .inr ?_⟩
      rcases System.resetIdx_access s a rest with hsame | ⟨id, rfl, hnew⟩
      · rw [hsame]
        exact hpending
      · have hhead := hset.arming.inCall.reset (by rw [hpending]; exact nofun)
        rw [htodo] at hhead
        cases hhead
    · refine .inr ⟨hsome, fun hin => hdone (hstays _ hin), ?_, hcount⟩
      rcases System.resetIdx_access s a rest with hsame | ⟨id, rfl, hnew⟩
      · rw [hsame]
        exact hreset
      · have hid : id = i := by simpa [mem_arming] using hmem
        exact absurd (by rw [htodo, hid]; exact List.mem_cons_self) hdone

/-- `vtmr_set_match_int` returns. -/
theorem Setting.live {p : Bool} (hset : Setting i p h s) (hdone : s.todo = []) :
    Live h (s.vars.timer i) ∧ Leaves i h s := by
  have hloaded : s.loaded = none := by
    by_contra hsome
    obtain ⟨f, id, set, hhead⟩ := hset.arming.inCall.loaded hsome
    rw [hdone] at hhead
    cases hhead
  have hnot : ∀ x, x ∉ s.todo := by simp [hdone]
  have hreset : s.vars.resetIdx = none := by
    by_contra hsome
    have hhead := hset.arming.inCall.reset hsome
    rw [hdone] at hhead
    cases hhead
  obtain ⟨hsome, -, -, hcount, hlt⟩ := hset.elapsed.resolve_left (by
    rintro ⟨-, hmem | hpending⟩
    · exact hnot _ hmem
    · rw [hreset] at hpending
      cases hpending)
  refine ⟨⟨hset.arming.limit (hnot _), ⟨_, hsome, fun _ => ?_⟩, ?_, fun _ _ => ?_, ?_, ?_⟩, ?_⟩
  · exact ⟨by omega, hset.flag (hnot _), hset.raised⟩
  · exact (hset.arming.periodic (hnot _)).trans hset.type
  · exact ⟨hset.enabled (hnot _), hcount, hlt⟩
  · exact fun _ hnonzero => absurd hset.raised hnonzero
  · intro _ hcleared
    exact absurd (hset.cleared.symm.trans hcleared) nofun
  · refine ⟨fun _ _ hmem => absurd hmem (hnot _), ?_, ?_, ?_⟩
    · intro b id set hb
      cases hloaded.symm.trans hb
    · intro _ b id set hb
      cases hloaded.symm.trans hb
    · intro b id set hb
      cases hloaded.symm.trans hb

/-- An access that arms the timer, with its history. -/
theorem Phase.access_setting {p : Bool} {a : Access} {rest : List Access}
    (hhistory : w.history = some h) (hreturned : h.returned = false) (hset : Setting i p h w.sys)
    (htodo : w.sys.todo = a :: rest) : Phase i (w.access i a rest) := by
  have hafter := hset.access htodo
  have hmem : a ∈ Vtmr.arming i h.final p :=
    hset.arming.todo.subset (by rw [htodo]; exact List.mem_cons_self)
  have hstored : a ≠ .setLimit i h.final := by
    intro ha
    exact hset.stored (by rw [htodo, ha]; exact List.mem_cons_self)
  have hclear : h.clear = h := by
    have hcleared := hset.cleared
    have hraised := hset.raised
    cases h
    simp_all [History.clear]
  have hsuffix := hset.arming.todo
  rw [htodo] at hsuffix
  have hbusy : a ≠ .result PLATFORM_TIMER_INT_OK → (w.sys.access a rest).todo ≠ [] := by
    intro ha hnil
    rcases System.access_todo w.sys a rest with heq | heq
    · rw [heq] at hnil
      subst hnil
      exact ha (by simpa [Vtmr.arming, List.suffix_cons_iff] using hsuffix)
    · rw [heq, htodo] at hnil
      cases hnil
  rw [mem_arming] at hmem
  rcases hmem with ha | rfl | rfl | rfl | rfl | rfl | rfl
  · exact absurd ha hstored
  · exact .setting (hbusy (by intro h; cases h)) hhistory hreturned hafter
  · refine .setting (hbusy (by intro h; cases h)) ?_ hreturned hafter
    simp only [Watched.access, hhistory, Option.map_some, hclear, ite_self]
  · exact .setting (hbusy (by intro h; cases h)) hhistory hreturned hafter
  · exact .setting (hbusy (by intro h; cases h)) hhistory hreturned hafter
  · exact .setting (hbusy (by intro h; cases h)) hhistory hreturned hafter
  · have hrest : rest = [] := by simpa [Vtmr.arming, List.suffix_cons_iff] using hsuffix
    subst hrest
    obtain ⟨hlive, hleaves⟩ := hafter.live rfl
    refine .other (by simp [Watched.access, System.access]) ?_
    intro h' hh'
    simp only [Watched.access, hhistory, Option.map_some, Option.some.injEq] at hh'
    subst hh'
    exact ⟨rfl, ⟨hlive.limit, hlive.elapsed, hlive.periodic, hlive.pending, hlive.raised,
      hlive.cleared⟩, ⟨hleaves.enables, hleaves.int, hleaves.enabled, hleaves.periodic⟩⟩

/-- A tick, in every phase. -/
theorem Phase.tick (hphase : Phase i w) (hi : i < cfg.VTMR_NUM_TIMERS)
    (hok : w.StepOk i .tick) (hstep : w.step cfg i .tick = some w') : Phase i w' := by
  obtain rfl := Option.some.inj hstep
  have htimer := timer_callback hi w.sys.vars
  cases hphase with
  | starting hn hcall htodo hlive =>
      refine .starting hn hcall htodo ?_
      intro h' hh'
      simp only [Option.map_eq_some_iff] at hh'
      obtain ⟨h, hh, rfl⟩ := hh'
      obtain ⟨hreturned, hlive⟩ := hlive h hh
      refine ⟨hreturned, ?_⟩
      rw [htimer, raises_callback hi]
      exact hlive.tick _ fun hdue hshot => ((hok h hh hdue).2 hshot).1
  | @setting p h hbusy hhistory hreturned hset =>
      have hdue : (w.sys.vars.timer i).due = false := by
        by_contra hdue
        exact absurd (hreturned.symm.trans (hok h hhistory (by simpa using hdue)).1) nofun
      refine .setting hbusy ?_ ?_ (hset.tick hi hdue)
      · simp only [hhistory, Option.map_some, raises_callback hi]
      · exact hreturned
  | other hmild hlive =>
      refine .other hmild ?_
      intro h' hh'
      simp only [Option.map_eq_some_iff] at hh'
      obtain ⟨h, hh, rfl⟩ := hh'
      obtain ⟨hreturned, hlive, hleaves⟩ := hlive h hh
      rw [htimer, raises_callback hi]
      exact ⟨hreturned, hlive.tick _ fun hdue hshot => ((hok h hh hdue).2 hshot).1,
        hleaves.tick hlive hmild hi _ fun hdue hshot hzero => ((hok h hh hdue).2 hshot).2 hzero⟩

/-- The calls that write a timer's enable bit. -/
theorem Call.enables {c : Call} {set : Bool} (h : .setBit .enabled i set ∈ c.accesses cfg) :
    c = .setStatus i set ∨ ∃ us type, c = .setMatchInt i us type := by
  cases c with
  | setMatchInt id us type =>
      right
      simp only [accesses, vtmrSetMatchInt] at h
      split at h
      · have hid : i = id ∧ set = false := by simpa using h
        exact ⟨us, type, by rw [hid.1]⟩
      · split at h
        · simp at h
        · have hid : i = id ∧ set = true := by simpa [vtmrResetTimer] using h
          exact ⟨us, type, by rw [hid.1]⟩
  | getFlag id clear =>
      cases clear <;> simp [accesses, vtmrIntGetFlag] at h
  | setStatus id enable =>
      have hboth : i = id ∧ set = enable := by simpa [accesses, vtmrIntSetStatus] using h
      exact .inl (by rw [hboth.1, hboth.2])
  | start id => simp [accesses, vtmrResetTimer] at h
  | delay id us => simp [accesses, vtmrDelay, vtmrResetTimer] at h
  | read id => simp [accesses] at h
  | getStatus id => simp [accesses, vtmrIntGetStatus] at h

/-- A call, in every phase. -/
theorem Phase.call {c : Call} (hphase : Phase i w) (hinCall : w.sys.InCall)
    (hok : w.StepOk i (.call c)) (hstep : w.step cfg i (.call c) = some w') : Phase i w' := by
  simp only [Watched.step, Option.ite_none_right_eq_some, Option.some.injEq] at hstep
  obtain ⟨⟨hidle, -⟩, hnext⟩ := hstep
  have hkept : ∀ h, w'.history = some h → w.history = some h := by
    intro h hh
    rw [← hnext] at hh
    dsimp only at hh
    split at hh
    · split at hh
      · cases hh
      · exact hh
    · exact hh
  subst hnext
  have hloaded : w.sys.loaded = none := by
    by_contra hsome
    obtain ⟨f, id, set, hhead⟩ := hinCall.loaded hsome
    rw [hidle] at hhead
    cases hhead
  have hlive : ∀ h, w.history = some h → h.returned = true ∧ Live h (w.sys.vars.timer i) := by
    cases hphase with
    | starting hn hcall htodo hlive => exact hlive
    | setting hbusy => exact absurd hidle hbusy
    | other hmild hlive =>
        intro h hh
        exact ⟨(hlive h hh).1, (hlive h hh).2.1⟩
  rcases Call.arms_or_mild cfg i c with ⟨us, type, n, rfl, hus, hn, harms⟩ | hmild
  · exact .starting hn rfl harms fun h hh => hlive h (hkept h hh)
  · refine .other hmild ?_
    intro h hh
    obtain ⟨hreturned, hlive⟩ := hlive h (hkept h hh)
    refine ⟨hreturned, hlive, ⟨?_, ?_, ?_, ?_⟩⟩
    · intro hshot set hmem
      rcases Call.enables hmem with rfl | ⟨us, type, rfl⟩
      · exact hok rfl h (hkept h hh) hshot
      · -- a period of 0 has ended the history, and any other call does not reach the bit
        by_cases hus : us = 0
        · simp [hus] at hh
        · simp only [Call.accesses, vtmrSetMatchInt, if_neg hus] at hmem hmild
          split at hmem
          · simp at hmem
          · rename_i hfinal
            rw [if_neg hfinal] at hmild
            exact absurd rfl (hmild _ List.mem_cons_self)
    · intro b id set hb
      cases hloaded.symm.trans hb
    · intro _ b id set hb
      cases hloaded.symm.trans hb
    · intro b id set hb
      cases hloaded.symm.trans hb

/-- A step, in every phase. -/
theorem Phase.step {a : Action} (hphase : Phase i w) (hinCall : w.sys.InCall)
    (hi : i < cfg.VTMR_NUM_TIMERS) (hok : w.StepOk i a) (hstep : w.step cfg i a = some w') :
    Phase i w' := by
  cases a with
  | tick => exact hphase.tick hi hok hstep
  | call c => exact hphase.call hinCall hok hstep
  | main =>
      cases htodo : w.sys.todo with
      | nil =>
          simp only [Watched.step, htodo] at hstep
          cases hstep
      | cons a rest =>
          simp only [Watched.step, htodo, Option.some.injEq] at hstep
          subst hstep
          cases hphase with
          | starting hn hcall harms hlive =>
              exact Phase.access_starting hinCall hn hcall harms htodo
          | setting hbusy hhistory hreturned hset =>
              exact Phase.access_setting hhistory hreturned hset htodo
          | other hmild hlive => exact Phase.access_other hinCall htodo hmild hlive

/-- A timer that has been armed matches. -/
theorem Live.holds (hlive : Live h (s.vars.timer i)) :
    (∃ e, h.elapsed = some e ∧
      (e < h.final.toNat → s.vars.test .int i = false ∧ h.raised = 0)) ∧
    (h.oneShot = true →
      h.raised ≤ 1 ∧ (h.final.toNat ≤ h.sinceReset → h.raised = 1) ∧
      (h.cleared = true → s.vars.test .int i = false)) := by
  obtain ⟨e, he, hbefore⟩ := hlive.elapsed
  refine ⟨⟨e, he, fun hlt => (hbefore hlt).2⟩, fun hshot => ⟨?_, ?_, ?_⟩⟩
  · by_cases hzero : h.raised = 0
    · omega
    · rw [(hlive.raised hshot hzero).1]
  · intro hle
    by_contra hne
    by_cases hzero : h.raised = 0
    · have hlt := (hlive.pending hshot hzero).2.2
      omega
    · exact hne (hlive.raised hshot hzero).1
  · intro hcleared
    exact (hlive.cleared hshot hcleared).2

theorem Phase.holds (hphase : Phase i w) : w.Matches i := by
  intro h hh hreturned
  cases hphase with
  | starting hn hcall htodo hlive => exact (hlive h hh).2.holds
  | @setting p h' hbusy hhistory hnot hset =>
      obtain rfl := Option.some.inj (hhistory.symm.trans hh)
      exact absurd (hnot.symm.trans hreturned) nofun
  | other hmild hlive => exact (hlive h hh).2.1.holds

/-- **Timers that match.**  While no tick brings a timer's counter to its limit
where it must not, and `vtmr_int_set_status` does not interfere, the timer does
what it should in every state reached. -/
theorem matches_of_run {actions : List Action} (hi : i < cfg.VTMR_NUM_TIMERS)
    (hok : Transition.Conforming (Watched.step cfg i) (Watched.StepOk i) .init actions)
    (hrun : Transition.run (Watched.step cfg i) .init actions = some w) : w.Matches i := by
  have hinit : Watched.init.sys.InCall ∧ Phase i .init :=
    ⟨.init, .other (fun _ hmem => absurd hmem List.not_mem_nil) nofun⟩
  have hkept : ∀ w a w', w.sys.InCall ∧ Phase i w → Watched.StepOk i w a →
      Watched.step cfg i w a = some w' → w'.sys.InCall ∧ Phase i w' := by
    intro w a w' hinv hstepOk hstep
    have hsys : w.sys.step cfg a = some w'.sys := by
      rw [← Watched.step_sys cfg i w a, hstep, Option.map_some]
    exact ⟨hinv.1.step hsys, hinv.2.step hinv.1 hi hstepOk hstep⟩
  have hend : w.sys.InCall ∧ Phase i w := Transition.invariant_of_run hkept hinit hok hrun
  exact hend.2.holds

/-- A one-shot timer is armed, raises its interrupt and has its flag cleared. -/
theorem matches_of_run_one_shot :
    ∃ w, Transition.run (Watched.step ⟨2, 4, by decide⟩ 1) .init
        ([.call (.setMatchInt 1 500000 PLATFORM_TIMER_INT_ONESHOT)] ++ List.replicate 6 .main ++
          [.tick] ++ List.replicate 4 .main ++ [.tick, .tick] ++
          [.call (.getFlag 1 true), .main, .main, .main]) = some w ∧ w.Matches 1 :=
  ⟨_, rfl, @matches_of_run ⟨2, 4, by decide⟩ 1 _
    ([.call (.setMatchInt 1 500000 PLATFORM_TIMER_INT_ONESHOT)] ++ List.replicate 6 .main ++
      [.tick] ++ List.replicate 4 .main ++ [.tick, .tick] ++
      [.call (.getFlag 1 true), .main, .main, .main])
    (by decide) (by decide +kernel) rfl⟩

/-- A timer that has counted three ticks is armed with two: the tick that resets
its counter sets its flag. -/
theorem not_matches_stale_counter :
    ¬ ∀ (cfg : Platform) (i : Nat) (actions : List Action) (w : Watched),
      i < cfg.VTMR_NUM_TIMERS →
      Transition.run (Watched.step cfg i) .init actions = some w → w.Matches i := by
  intro h
  have hmatches := h ⟨1, 4, by decide⟩ 0
    ([.tick, .tick, .tick, .call (.setMatchInt 0 500000 PLATFORM_TIMER_INT_CYCLIC)] ++
      List.replicate 6 .main ++ [.tick] ++ List.replicate 4 .main) _ (by decide) rfl
  obtain ⟨⟨e, he, hbefore⟩, -⟩ := hmatches _ rfl rfl
  cases he
  exact absurd (hbefore (by decide)).1 (by decide)

end Vtmr
