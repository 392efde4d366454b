import EluaWebServer.Adc.Smoothing

/-!
# Reading many samples

`adc.getsamples` and `adc.insertsamples` ask once how many samples are available, and then take one
processed sample after the other.  The results of the first one are never returned, and the second
one counts with 16 and with 32 bits.
-/

namespace Adc.Bulk

open Charbuf

inductive Value where
  | nil
  | integer (n : UInt16)
  | other (n : Nat)
  deriving DecidableEq

/-- What a table holds at the integers. -/
abbrev Table := Int → Value

/-- An `unsigned` as an `int`. -/
def asInt (n : UInt32) : Int := n.toInt32.toInt

/-- `lua_rawseti`. -/
def rawseti (t : Table) (n : UInt32) (v : Value) : Table := Function.update t (asInt n) v

/-- What the interrupts do to the channel in `adc_wait_samples`, and before each of the samples is
read, and what is in the buffer of the device then. -/
structure Interrupts where
  waiting : List (Channel → Channel)
  between : Nat → Channel → Channel
  sampleBuf : Nat → Nat → UInt16

/-- `adc_samples_available`. -/
def available (s : Channel) : UInt16 := (adcSamplesAvailable s).toUInt16

/-- The loop of `adc_wait_samples`; there is no result while it waits for the next interrupt. -/
def waitLoop (samples : Nat) : List (Channel → Channel) → Channel → Option Channel
  | interrupts, s =>
    if s.flags.opPending = true ∧ (available s).toNat < samples then
      match interrupts with
      | [] => none
      | interrupt :: interrupts => waitLoop samples interrupts (interrupt s)
    else some s

/-- `adc_wait_samples`. -/
def adcWaitSamples (e : Interrupts) (samples : Nat) (s : Channel) : Option (Channel × UInt16) :=
  (if (available s).toNat < samples ∧ s.flags.blocking = true then waitLoop samples e.waiting s
    else some s).map fun s => (s, available s)

/-- `adc_get_processed_sample`, for the sample of this number. -/
def read (e : Interrupts) (n : Nat) (s : Channel) : Option (Channel × UInt16) :=
  Smoothing.adcGetProcessedSample (e.sampleBuf n) (e.between n s)

/-- The loop of `adc_getsamples` from `i` on. -/
def getLoop (e : Interrupts) : Nat → Nat → Channel → Table → Option (Channel × Table)
  | 0, _, s, t => some (s, t)
  | k + 1, i, s, t =>
      (read e (i - 1) s).bind fun r =>
        getLoop e k (i + 1) r.1 (rawseti t (UInt32.ofNat i) (.integer r.2))

def toU16 (n : Int32) : UInt16 := n.toUInt32.toUInt16

/-- `adc_getsamples`, with the second argument if it is a number.  Its results are as many values of
the stack as it returns. -/
def adcGetsamples (e : Interrupts) (s : Channel) (count : Option Int32) :
    Option (Channel × List Table) :=
  let count : UInt16 := (count.map toU16).getD 0
  (adcWaitSamples e count.toNat s).bind fun r =>
    let bcnt := r.2
    -- If count is zero, grab all samples
    let count := if count = 0 then bcnt else count
    -- Don't pull more samples than are available
    let count := if bcnt < count then bcnt else count
    (getLoop e count.toNat 1 r.1 fun _ => .nil).map fun r =>
      let stack := [r.2]
      (r.1, stack.take 0)

/-- The loop of `adc_insertsamples` from `i` on, for as many values as there are up to its end. -/
def insertLoop (e : Interrupts) (bound : UInt32) :
    Nat → UInt32 → Nat → Channel → Table → Option (Channel × Table)
  | 0, _, _, s, t => some (s, t)
  | k + 1, i, n, s, t =>
      if i < bound then
        (read e n s).bind fun r =>
          insertLoop e bound k (i + 1) (n + 1) r.1 (rawseti t i (.integer r.2))
      else
        -- nil-out values where we don't have enough samples
        insertLoop e bound k (i + 1) n s (rawseti t i .nil)

structure Outcome where
  ch : Channel
  table : Table
  error : Option String

/-- `adc_insertsamples`. -/
def adcInsertsamples (e : Interrupts) (s : Channel) (t : Table) (idx count : Int32) :
    Option Outcome :=
  let startidx := idx.toUInt32
  if startidx ≤ 0 then some ⟨s, t, some "idx must be > 0"⟩
  else
    let count := toU16 count
    if count = 0 then some ⟨s, t, some "count must be > 0"⟩
    else
      (adcWaitSamples e count.toNat s).bind fun r =>
        let stop := count.toUInt32 + startidx
        (insertLoop e (r.2.toUInt32 + startidx) (stop.toNat - startidx.toNat) startidx 0 r.1 t).map
          fun r => ⟨r.1, r.2, none⟩

/-! ## What is asked for -/

/-- The next processed samples, one read after the other. -/
def reads (e : Interrupts) : Nat → Nat → Channel → Option (Channel × List UInt16)
  | 0, _, s => some (s, [])
  | m + 1, n, s =>
      (read e n s).bind fun r => (reads e m (n + 1) r.1).map fun r' => (r'.1, r.2 :: r'.2)

/-- Samples from an index on, and nil up to a count. -/
def put (samples : List UInt16) (first : Int) (count : Nat) (t : Table) : Table := fun j =>
  if first ≤ j ∧ j < first + count then
    (samples[(j - first).toNat]?).elim .nil .integer
  else t j

/-- What `adc.getsamples` has to return. -/
def expectedGet (e : Interrupts) (s : Channel) (count : Nat) : Option Table :=
  (adcWaitSamples e count s).bind fun r =>
    let m := if count = 0 then r.2.toNat else min count r.2.toNat
    (reads e m 0 r.1).map fun r => put r.2 1 m fun _ => .nil

/-- What `adc.insertsamples` has to make of the table. -/
def expectedInsert (e : Interrupts) (s : Channel) (t : Table) (idx : Int) (count : Nat) :
    Option Table :=
  (adcWaitSamples e count s).bind fun r =>
    (reads e (min count r.2.toNat) 0 r.1).map fun r => put r.2 idx count t

/-- The table that has to be returned is. -/
def GetRight (e : Interrupts) (s : Channel) (count : Option Int32) : Prop :=
  ∃ s' t, expectedGet e s ((count.map Int32.toNatClampNeg).getD 0) = some t ∧
    adcGetsamples e s count = some (s', [t])

/-- In every state, and whatever the table holds, the samples are stored as they have to be. -/
def InsertRight (idx count : Int32) : Prop :=
  ∀ e s t t', expectedInsert e s t idx.toInt count.toNatClampNeg = some t' →
    ∃ o, adcInsertsamples e s t idx count = some o ∧ o.table = t'

/-- The arguments with which they are: the count has 16 bits, and no index or bound wraps; or there
is nothing to store, and an argument is refused. -/
def InsertOk (idx count : Int32) : Prop :=
  (1 ≤ count.toInt ∧ count.toInt < 2 ^ 16 ∧
      (1 ≤ idx.toInt ∧ idx.toInt + count.toInt ≤ 2 ^ 31 ∨ idx.toInt ≤ -2 ^ 16)) ∨
    (count.toInt ≤ 0 ∧ (idx.toInt = 0 ∨ count.toInt % 2 ^ 16 = 0))

/-! ## Integers -/

theorem asInt_eq (n : UInt32) :
    asInt n = if n.toNat < 2 ^ 31 then (n.toNat : Int) else n.toNat - 2 ^ 32 := by
  have h : asInt n = n.toBitVec.toInt := rfl
  rw [h, BitVec.toInt_eq_toNat_cond]
  simp only [UInt32.toNat_toBitVec]
  split <;> split <;> omega

theorem asInt_toUInt32 (idx : Int32) : asInt idx.toUInt32 = idx.toInt := rfl

theorem toInt_of_toUInt32 (idx : Int32) :
    idx.toInt = if idx.toUInt32.toNat < 2 ^ 31 then (idx.toUInt32.toNat : Int)
      else idx.toUInt32.toNat - 2 ^ 32 := by
  have h := asInt_eq idx.toUInt32
  rwa [asInt_toUInt32] at h

theorem toNat_toU16 (count : Int32) : ((toU16 count).toNat : Int) = count.toInt % 2 ^ 16 := by
  have h := toInt_of_toUInt32 count
  have hlt := count.toUInt32.toNat_lt
  simp only [toU16, UInt32.toNat_toUInt16]
  split at h <;> omega

theorem toU16_eq_zero_iff (count : Int32) : toU16 count = 0 ↔ count.toInt % 2 ^ 16 = 0 := by
  rw [← toNat_toU16, ← UInt16.toNat_inj, UInt16.toNat_zero]
  omega

theorem toNat_toU16_of_fits {count : Int32} (hpos : 1 ≤ count.toInt)
    (hfits : count.toInt < 2 ^ 16) :
    (toU16 count).toNat = count.toNatClampNeg ∧ toU16 count ≠ 0 := by
  have hcount := toNat_toU16 count
  rw [Ne, toU16_eq_zero_iff, Int32.toNatClampNeg]
  omega

theorem toNat_add_ofNat (i : UInt32) {m : Nat} (hm : m < 2 ^ 32) :
    (i + UInt32.ofNat m).toNat = (i.toNat + m) % 2 ^ 32 := by
  rw [UInt32.toNat_add, UInt32.toNat_ofNat', Nat.mod_eq_of_lt hm]

theorem succ_add_ofNat (i : UInt32) (m : Nat) :
    i + 1 + UInt32.ofNat m = i + UInt32.ofNat (m + 1) := by
  have hsucc : UInt32.ofNat (m + 1) = 1 + UInt32.ofNat m := by
    rw [UInt32.ofNat_add, UInt32.add_comm]
    rfl
  rw [hsucc, UInt32.add_assoc]

/-! ## What is stored -/

theorem put_succ (samples : List UInt16) (first : Int) (count : Nat) (t : Table) :
    put samples first (count + 1) t = put samples.tail (first + 1) count
      (Function.update t first (samples.head?.elim .nil .integer)) := by
  funext j
  by_cases hj : j = first
  · subst hj
    simp [put, List.head?_eq_getElem?]
  · have hiff : (first ≤ j ∧ j < first + (count + 1 : Nat)) ↔
        (first + 1 ≤ j ∧ j < first + 1 + count) := by omega
    by_cases hin : first + 1 ≤ j ∧ j < first + 1 + count
    · have hnext : (j - first).toNat = (j - (first + 1)).toNat + 1 := by omega
      rw [put, put, if_pos (hiff.mpr hin), if_pos hin, hnext, List.getElem?_tail]
    · rw [put, put, if_neg (mt hiff.mp hin), if_neg hin, Function.update_of_ne hj]

theorem put_zero (samples : List UInt16) (first : Int) (t : Table) :
    put samples first 0 t = t := by
  funext j
  have hempty : ¬ (first ≤ j ∧ j < first + (0 : Nat)) := by omega
  rw [put, if_neg hempty]

theorem put_first {samples : List UInt16} {first : Int} {count : Nat} {t : Table}
    (hcount : 0 < count) : put samples first count t first = samples.head?.elim .nil .integer := by
  have hin : first ≤ first ∧ first < first + count := by omega
  rw [put, if_pos hin, Int.sub_self, List.head?_eq_getElem?]
  rfl

variable (e : Interrupts)

/-- The loop reads while it is below the bound, and stores nil from there on. -/
theorem insertLoop_eq (bound : UInt32) (k : Nat) :
    ∀ (i : UInt32) (x : Int) (a n : Nat) (s : Channel) (t : Table),
      (∀ m < k, asInt (i + UInt32.ofNat m) = x + m) →
      (∀ m < k, i + UInt32.ofNat m < bound ↔ m < a) →
      insertLoop e bound k i n s t =
        (reads e (min k a) n s).map fun r => (r.1, put r.2 x k t) := by
  induction k with
  | zero =>
    intro i x a n s t _ _
    simp [insertLoop, reads, put_zero]
  | succ k ih =>
    intro i x a n s t hi ha
    have hx : asInt i = x := by simpa using hi 0 (by omega)
    have hfirst : i < bound ↔ 0 < a := by simpa using ha 0 (by omega)
    have hi' : ∀ m < k, asInt (i + 1 + UInt32.ofNat m) = x + 1 + m := by
      intro m hm
      rw [succ_add_ofNat, hi (m + 1) (by omega)]
      omega
    have ha' : ∀ m < k, i + 1 + UInt32.ofNat m < bound ↔ m < a - 1 := by
      intro m hm
      rw [succ_add_ofNat, ha (m + 1) (by omega)]
      omega
    cases a with
    | zero =>
      have hnot : ¬ i < bound := by simp [hfirst]
      rw [insertLoop, if_neg hnot, ih (i + 1) (x + 1) 0 n s _ hi' ha']
      simp [reads, rawseti, hx, put_succ]
    | succ a =>
      have hmin : min (k + 1) (a + 1) = min k a + 1 := by omega
      rw [insertLoop, if_pos (hfirst.mpr (by omega)), hmin, reads]
      cases hread : read e n s with
      | none => rfl
      | some r =>
        rw [Option.bind_some, Option.bind_some, ih (i + 1) (x + 1) a (n + 1) r.1 _ hi' ha']
        simp [rawseti, hx, put_succ, Function.comp_def]

/-- Entries at no index of the loop are unchanged. -/
theorem insertLoop_outside {e : Interrupts} {bound : UInt32} {j : Int} {k : Nat} :
    ∀ {i : UInt32} {n : Nat} {s : Channel} {t : Table} {r : Channel × Table},
      (∀ m < k, asInt (i + UInt32.ofNat m) ≠ j) → insertLoop e bound k i n s t = some r →
      r.2 j = t j := by
  induction k with
  | zero =>
    intro i n s t r _ hr
    obtain rfl := Option.some.inj hr
    rfl
  | succ k ih =>
    intro i n s t r hj hr
    have hi : j ≠ asInt i := by simpa using (hj 0 (by omega)).symm
    have hj' : ∀ m < k, asInt (i + 1 + UInt32.ofNat m) ≠ j := by
      intro m hm
      rw [succ_add_ofNat]
      exact hj (m + 1) (by omega)
    rw [insertLoop] at hr
    split at hr
    · obtain ⟨r', -, hr⟩ := Option.bind_eq_some_iff.mp hr
      rw [ih hj' hr, rawseti, Function.update_of_ne hi]
    · rw [ih hj' hr, rawseti, Function.update_of_ne hi]

/-! ## `adc_insertsamples` -/

/-- How often the loop of `adc_insertsamples` is run. -/
def steps (idx count : Int32) : Nat :=
  ((toU16 count).toUInt32 + idx.toUInt32).toNat - idx.toUInt32.toNat

theorem adcInsertsamples_refused (s : Channel) (t : Table) {idx count : Int32}
    (h : idx.toInt = 0 ∨ toU16 count = 0) :
    ∃ o, adcInsertsamples e s t idx count = some o ∧ o.table = t := by
  by_cases hidx : idx.toUInt32 ≤ 0
  · exact ⟨_, if_pos hidx, rfl⟩
  · have hne : idx.toInt ≠ 0 := by
      intro hzero
      have hstart := toInt_of_toUInt32 idx
      have hlt := idx.toUInt32.toNat_lt
      rw [UInt32.le_iff_toNat_le, UInt32.toNat_zero] at hidx
      split at hstart <;> omega
    have hcount : toU16 count = 0 := h.resolve_left hne
    exact ⟨_, (if_neg hidx).trans (if_pos hcount), rfl⟩

theorem adcInsertsamples_of_ne (s : Channel) (t : Table) {idx count : Int32}
    (hidx : idx.toInt ≠ 0) (hcount : toU16 count ≠ 0) :
    adcInsertsamples e s t idx count =
      (adcWaitSamples e (toU16 count).toNat s).bind fun r =>
        (insertLoop e (r.2.toUInt32 + idx.toUInt32) (steps idx count) idx.toUInt32 0 r.1 t).map
          fun r => ⟨r.1, r.2, none⟩ := by
  have hpos : ¬ idx.toUInt32 ≤ 0 := by
    intro hle
    have hzero : idx.toUInt32.toNat ≤ 0 := UInt32.le_iff_toNat_le.mp hle
    have h := toInt_of_toUInt32 idx
    split at h <;> omega
  simp only [adcInsertsamples, if_neg hpos, if_neg hcount]
  rfl

/-- Where no index wraps, the samples that are below the bound are stored. -/
theorem adcInsertsamples_eq {s : Channel} {r : Channel × UInt16} {idx count : Int32} {a : Nat}
    (t : Table) (hidx : idx.toInt ≠ 0) (hcount : toU16 count ≠ 0)
    (hlast : idx.toInt < 0 ∧ idx.toInt + (toU16 count).toNat ≤ -1 ∨
      0 < idx.toInt ∧ idx.toInt + (toU16 count).toNat ≤ 2 ^ 31)
    (hwait : adcWaitSamples e (toU16 count).toNat s = some r)
    (hbound : ∀ m < (toU16 count).toNat,
      idx.toUInt32 + UInt32.ofNat m < r.2.toUInt32 + idx.toUInt32 ↔ m < a) :
    adcInsertsamples e s t idx count = (reads e (min (toU16 count).toNat a) 0 r.1).map fun r =>
      ⟨r.1, put r.2 idx.toInt (toU16 count).toNat t, none⟩ := by
  have hstart := toInt_of_toUInt32 idx
  have hstart' := idx.toUInt32.toNat_lt
  have hlt := (toU16 count).toNat_lt
  have hsteps : steps idx count = (toU16 count).toNat := by
    rw [steps, UInt32.toNat_add, UInt16.toNat_toUInt32]
    split at hstart <;> omega
  have hindex : ∀ m < (toU16 count).toNat,
      asInt (idx.toUInt32 + UInt32.ofNat m) = idx.toInt + m := by
    intro m hm
    rw [asInt_eq, toNat_add_ofNat _ (by omega)]
    split at hstart <;> split <;> omega
  rw [adcInsertsamples_of_ne e s t hidx hcount, hwait, Option.bind_some, hsteps,
    insertLoop_eq e _ _ _ _ a 0 r.1 t hindex hbound, Option.map_map]
  rfl

theorem insertRight_of_fits {idx count : Int32} (hpos : 1 ≤ count.toInt)
    (hfits : count.toInt < 2 ^ 16)
    (hidx : 1 ≤ idx.toInt ∧ idx.toInt + count.toInt ≤ 2 ^ 31 ∨ idx.toInt ≤ -2 ^ 16) :
    InsertRight idx count := by
  intro e s t t' ht'
  have hcount := toNat_toU16 count
  obtain ⟨hclamp, hne⟩ := toNat_toU16_of_fits hpos hfits
  rw [expectedInsert, ← hclamp] at ht'
  obtain ⟨r, hwait, ht'⟩ := Option.bind_eq_some_iff.mp ht'
  obtain ⟨r', hreads, rfl⟩ := Option.map_eq_some_iff.mp ht'
  have hbound : ∀ m < (toU16 count).toNat,
      idx.toUInt32 + UInt32.ofNat m < r.2.toUInt32 + idx.toUInt32 ↔ m < r.2.toNat := by
    intro m hm
    have hstart := toInt_of_toUInt32 idx
    have hstart' := idx.toUInt32.toNat_lt
    have hlt := r.2.toNat_lt
    rw [UInt32.lt_iff_toNat_lt, toNat_add_ofNat _ (by omega), UInt32.toNat_add,
      UInt16.toNat_toUInt32]
    split at hstart <;> omega
  have heq := adcInsertsamples_eq e t (by omega) hne (by omega) hwait hbound
  rw [hreads] at heq
  exact ⟨_, heq, rfl⟩

theorem insertRight_of_refused {idx count : Int32} (hcount : count.toInt ≤ 0)
    (h : idx.toInt = 0 ∨ count.toInt % 2 ^ 16 = 0) : InsertRight idx count := by
  intro e s t t' ht'
  have hclamp : count.toNatClampNeg = 0 := by
    unfold Int32.toNatClampNeg
    omega
  rw [expectedInsert, hclamp] at ht'
  obtain ⟨r, -, ht'⟩ := Option.bind_eq_some_iff.mp ht'
  obtain ⟨r', -, rfl⟩ := Option.map_eq_some_iff.mp ht'
  have hrefused : idx.toInt = 0 ∨ toU16 count = 0 := by
    rwa [toU16_eq_zero_iff]
  obtain ⟨o, ho, htable⟩ := adcInsertsamples_refused e s t hrefused
  exact ⟨o, ho, by rw [htable, put_zero]⟩

/-! ## When it does not store them -/

/-- Nothing happens while the samples are read. -/
def quiet : Interrupts := ⟨[], fun _ s => s, fun _ _ => 0⟩

/-- A channel without smoothing that has samples in its buffer. -/
def holding (n : Nat) (blocking : Bool) : Channel :=
  ⟨⟨blocking, blocking, false, false, false⟩, 0, 0, 0, fun _ => 0, 0, 0,
    ⟨16, 0, 0, n, ⟨fun _ => 0⟩, 1⟩⟩

theorem available_holding (n : Nat) (blocking : Bool) :
    available (holding n blocking) = n.toUInt16 := by
  by_cases hn : n = 0
  · subst hn
    rfl
  · simp [available, adcSamplesAvailable, holding, bufGetCount, hn]

theorem adcWaitSamples_holding (n samples : Nat) :
    adcWaitSamples quiet samples (holding n false) = some (holding n false, n.toUInt16) := by
  have hblocking : (holding n false).flags.blocking = false := rfl
  simp [adcWaitSamples, hblocking, available_holding]

/-- The entries that the loop stores. -/
def Stored (idx count : Int32) (j : Int) : Prop :=
  idx.toInt ≠ 0 ∧ toU16 count ≠ 0 ∧
    ∃ m < steps idx count, asInt (idx.toUInt32 + UInt32.ofNat m) = j

variable {e}

/-- No other entry is changed. -/
theorem unchanged_of_not_stored {s : Channel} {t : Table} {idx count : Int32} {j : Int}
    {o : Outcome} (hj : ¬ Stored idx count j)
    (ho : adcInsertsamples e s t idx count = some o) :
    o.table j = t j := by
  by_cases hne : idx.toInt ≠ 0 ∧ toU16 count ≠ 0
  · rw [adcInsertsamples_of_ne e s t hne.1 hne.2] at ho
    obtain ⟨r, -, ho⟩ := Option.bind_eq_some_iff.mp ho
    obtain ⟨r', hloop, rfl⟩ := Option.map_eq_some_iff.mp ho
    have hother : ∀ m < steps idx count, asInt (idx.toUInt32 + UInt32.ofNat m) ≠ j := by
      intro m hm hj'
      exact hj ⟨hne.1, hne.2, m, hm, hj'⟩
    exact insertLoop_outside hother hloop
  · have hrefused : idx.toInt = 0 ∨ toU16 count = 0 := by
      by_contra hnot
      exact hne (not_or.mp hnot)
    obtain ⟨o', ho', htable⟩ := adcInsertsamples_refused e s t hrefused
    obtain rfl := Option.some.inj (ho.symm.trans ho')
    rw [htable]

/-- With no sample available, every entry is to be nil. -/
theorem stored_of_insertRight {idx count : Int32} (h : InsertRight idx count) {j : Int}
    (hfirst : idx.toInt ≤ j) (hlast : j < idx.toInt + count.toInt) : Stored idx count j := by
  by_contra hj
  have hexpected : expectedInsert quiet (holding 0 false) (fun _ => .other 0) idx.toInt
      count.toNatClampNeg = some (put [] idx.toInt count.toNatClampNeg fun _ => .other 0) := by
    rw [expectedInsert, adcWaitSamples_holding]
    simp [reads]
  obtain ⟨o, ho, htable⟩ := h quiet (holding 0 false) (fun _ => .other 0) _ hexpected
  have hother := unchanged_of_not_stored hj ho
  have hin : idx.toInt ≤ j ∧ j < idx.toInt + count.toNatClampNeg := by
    unfold Int32.toNatClampNeg
    omega
  rw [htable, put, if_pos hin] at hother
  simp at hother

theorem read_unsmoothed {s : Channel} (n : Nat) (hlen : s.logsmoothlen = 0) :
    ∃ r, read quiet n s = some r ∧ r.1.logsmoothlen = 0 := by
  have hlen' (sampleBuf : Nat → UInt16) : (s.takeOldest sampleBuf).2.logsmoothlen = 0 := by
    unfold Channel.takeOldest
    split
    · exact hlen
    · exact hlen
  simp only [read, quiet, Smoothing.adcGetProcessedSample, hlen, lt_irrefl, false_and, if_false,
    if_true]
  split
  · refine ⟨_, rfl, ?_⟩
    simp only [apply_ite Channel.logsmoothlen, hlen', ite_self]
  · exact ⟨_, rfl, hlen⟩

theorem reads_unsmoothed (m : Nat) : ∀ (n : Nat) {s : Channel}, s.logsmoothlen = 0 →
    ∃ r, reads quiet m n s = some r ∧ r.2.length = m := by
  induction m with
  | zero =>
    intro n s _
    exact ⟨(s, []), rfl, rfl⟩
  | succ m ih =>
    intro n s hlen
    obtain ⟨r, hread, hlen'⟩ := read_unsmoothed n hlen
    obtain ⟨r', hreads, hlength⟩ := ih (n + 1) hlen'
    refine ⟨(r'.1, r.2 :: r'.2), ?_, by simp [hlength]⟩
    rw [reads, hread, Option.bind_some, hreads]
    rfl

/-- The bound of the samples wraps to zero when as many are available as the index is below it. -/
theorem not_insertRight_of_bound {idx count : Int32} (hidx : -2 ^ 16 < idx.toInt)
    (hpos : 1 ≤ count.toInt) (hlast : idx.toInt + count.toInt < 0) : ¬ InsertRight idx count := by
  intro h
  have h16 := toNat_toU16 count
  obtain ⟨hclamp, hne⟩ := toNat_toU16_of_fits hpos (by omega)
  obtain ⟨n, hn⟩ := Int.eq_ofNat_of_zero_le (show 0 ≤ -idx.toInt by omega)
  have hn16 : (n.toUInt16).toNat = n := by
    rw [UInt16.toNat_ofNat', Nat.mod_eq_of_lt (by omega)]
  -- as many samples as are asked for
  obtain ⟨r, hreads, hlength⟩ :=
    reads_unsmoothed (toU16 count).toNat 0 (show (holding n false).logsmoothlen = 0 from rfl)
  have hexpected : expectedInsert quiet (holding n false) (fun _ => .other 0) idx.toInt
      count.toNatClampNeg = some (put r.2 idx.toInt (toU16 count).toNat fun _ => .other 0) := by
    have hmin : min (toU16 count).toNat n = (toU16 count).toNat := by omega
    rw [expectedInsert, adcWaitSamples_holding, Option.bind_some, ← hclamp, hn16, hmin, hreads]
    rfl
  obtain ⟨o, ho, htable⟩ := h quiet (holding n false) (fun _ => .other 0) _ hexpected
  -- but none is below the bound
  have hbound : ∀ m < (toU16 count).toNat,
      idx.toUInt32 + UInt32.ofNat m < n.toUInt16.toUInt32 + idx.toUInt32 ↔ m < 0 := by
    intro m hm
    have hstart := toInt_of_toUInt32 idx
    rw [UInt32.lt_iff_toNat_lt, UInt32.toNat_add _ idx.toUInt32, UInt16.toNat_toUInt32, hn16]
    split at hstart <;> omega
  rw [adcInsertsamples_eq quiet _ (by omega) hne (by omega) (adcWaitSamples_holding n _) hbound,
    Nat.min_zero, reads] at ho
  obtain rfl := Option.some.inj ho
  have hfirst : put [] idx.toInt (toU16 count).toNat (fun _ => .other 0) idx.toInt =
      put r.2 idx.toInt (toU16 count).toNat (fun _ => .other 0) idx.toInt :=
    congrFun htable idx.toInt
  obtain ⟨v, samples, hr⟩ := List.exists_cons_of_length_pos (show 0 < r.2.length by omega)
  rw [put_first (by omega), put_first (by omega), hr] at hfirst
  simp at hfirst

/-- With a count that is not positive, nothing has to be waited for. -/
theorem refused_of_insertRight {idx count : Int32} (h : InsertRight idx count)
    (hcount : count.toInt ≤ 0) : idx.toInt = 0 ∨ toU16 count = 0 := by
  by_contra hne
  obtain ⟨hidx, hne⟩ := not_or.mp hne
  have hclamp : count.toNatClampNeg = 0 := by
    unfold Int32.toNatClampNeg
    omega
  have hexpected : expectedInsert quiet (holding 0 true) (fun _ => .nil) idx.toInt
      count.toNatClampNeg = some fun _ => .nil := by
    rw [hclamp]
    simp [expectedInsert, adcWaitSamples, reads, put_zero]
  have hpos : 0 < (toU16 count).toNat := by
    by_contra hzero
    exact hne (UInt16.toNat_inj.mp (by simp; omega))
  have hhangs : adcWaitSamples quiet (toU16 count).toNat (holding 0 true) = none := by
    have hless : (available (holding 0 true)).toNat < (toU16 count).toNat := hpos
    have hloop : waitLoop (toU16 count).toNat [] (holding 0 true) = none := by
      rw [waitLoop, if_pos ⟨rfl, hless⟩]
    rw [adcWaitSamples, if_pos ⟨hless, rfl⟩, quiet, hloop]
    rfl
  obtain ⟨o, ho, -⟩ := h quiet (holding 0 true) (fun _ => .nil) _ hexpected
  rw [adcInsertsamples_of_ne quiet _ _ hidx hne, hhangs] at ho
  simp at ho

/-- Only with these arguments all entries are stored. -/
theorem insertOk_of_insertRight {idx count : Int32} (h : InsertRight idx count) :
    InsertOk idx count := by
  have h16 := toNat_toU16 count
  by_cases hcount : count.toInt ≤ 0
  · right
    refine ⟨hcount, ?_⟩
    obtain hidx | hzero := refused_of_insertRight h hcount
    · exact .inl hidx
    · exact .inr ((toU16_eq_zero_iff count).mp hzero)
  · left
    have hstart := toInt_of_toUInt32 idx
    have hstart' := idx.toUInt32.toNat_lt
    have hlt := (toU16 count).toNat_lt
    have hsteps : steps idx count =
        ((toU16 count).toNat + idx.toUInt32.toNat) % 2 ^ 32 - idx.toUInt32.toNat := by
      rw [steps, UInt32.toNat_add, UInt16.toNat_toUInt32]
    obtain ⟨hidx, -, m, hm, -⟩ := stored_of_insertRight h le_rfl (by omega)
    have hfits : count.toInt < 2 ^ 16 := by
      by_contra hlarge
      obtain ⟨-, -, m, hm, hj⟩ := stored_of_insertRight h
        (show idx.toInt ≤ idx.toInt + (toU16 count).toNat by omega) (by omega)
      rw [asInt_eq, toNat_add_ofNat _ (by omega)] at hj
      split at hstart <;> split at hj <;> omega
    refine ⟨by omega, hfits, ?_⟩
    by_cases hneg : idx.toInt < 0
    · right
      by_contra hnear
      have hwrap : 0 ≤ idx.toInt + count.toInt := by
        by_contra hbelow
        exact not_insertRight_of_bound (by omega) (by omega) (by omega) h
      split at hstart <;> omega
    · left
      refine ⟨by omega, ?_⟩
      by_contra hbeyond
      obtain ⟨-, -, m', -, hj⟩ := stored_of_insertRight h
        (show idx.toInt ≤ 2 ^ 31 by split at hstart <;> omega) (by omega)
      have hbelow := UInt32.toNat_lt (idx.toUInt32 + UInt32.ofNat m')
      rw [asInt_eq] at hj
      split at hj <;> omega

/-! ## `adc_getsamples` -/

/-- The table that is made holds the samples. -/
theorem getLoop_eq (e : Interrupts) (k : Nat) :
    ∀ (i : Nat) (s : Channel) (t : Table), i + 1 + k ≤ 2 ^ 31 →
      getLoop e k (i + 1) s t = (reads e k i s).map fun r => (r.1, put r.2 (i + 1) k t) := by
  induction k with
  | zero =>
    intro i s t _
    simp [getLoop, reads, put_zero]
  | succ k ih =>
    intro i s t hi
    have hindex : asInt (UInt32.ofNat (i + 1)) = i + 1 := by
      rw [asInt_eq, UInt32.toNat_ofNat', Nat.mod_eq_of_lt (by omega), if_pos (by omega)]
      rfl
    rw [getLoop, reads, Nat.add_sub_cancel]
    cases hread : read e i s with
    | none => rfl
    | some r =>
      rw [Option.bind_some, Option.bind_some, ih (i + 1) r.1 _ (by omega), rawseti,
        hindex]
      simp [put_succ, Function.comp_def]

theorem not_getRight (e : Interrupts) (s : Channel) (count : Option Int32) :
    ¬ GetRight e s count := by
  intro h
  obtain ⟨s', t, -, hresult⟩ := h
  obtain ⟨r, -, hresult⟩ := Option.bind_eq_some_iff.mp hresult
  obtain ⟨r', -, hresult⟩ := Option.map_eq_some_iff.mp hresult
  simp at hresult

/-- No table is ever returned by `adc.getsamples`; `adc.insertsamples` stores the samples with just
these arguments. -/
theorem bulkReads_iff (e : Interrupts) (s : Channel) (samples : Option Int32)
    (idx count : Int32) :
    ¬ GetRight e s samples ∧ (InsertRight idx count ↔ InsertOk idx count) := by
  refine ⟨not_getRight e s samples, ?_⟩
  constructor
  · exact insertOk_of_insertRight
  · intro h
    obtain ⟨hpos, hfits, hidx⟩ | ⟨hcount, h⟩ := h
    · exact insertRight_of_fits hpos hfits hidx
    · exact insertRight_of_refused hcount h

/-- A sample of 7 is available. -/
theorem not_returned_freshSample :
    let e : Interrupts := ⟨[], fun _ s => s, fun _ _ => 7⟩
    let s := (holding 0 false).setFresh true
    (∃ t, expectedGet e s 0 = some t ∧ t 1 = .integer 7 ∧ t 2 = .nil) ∧
      ¬ GetRight e s (some 0) ∧ ∃ s', adcGetsamples e s (some 0) = some (s', []) :=
  ⟨⟨_, rfl, rfl, rfl⟩, not_getRight _ _ _, _, rfl⟩

end Adc.Bulk
