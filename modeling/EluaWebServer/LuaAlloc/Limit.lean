import Mathlib.Algebra.Ring.Nat
import Mathlib.Logic.Basic
import Mathlib.Tactic.ByContra

/-!
# The memory limit

`l_alloc` compares the bytes in use with the limit less the request.  A request beyond the limit
makes that difference wrap, and an emergency collection comes after the comparison.
-/

namespace LuaAlloc

/-- `GCSpause` and so on. -/
inductive GcState where
  | pause
  | propagate
  | sweepstring
  | sweep
  | finalize
  deriving DecidableEq

/-- What the allocator reads of `global_State`; `blockGc` is the bit `GCBlockGCBit`. -/
structure Global where
  totalbytes : UInt32
  memlimit : UInt32
  egcmode : Int32
  gcstate : GcState
  blockGc : Bool

def EGC_ON_ALLOC_FAILURE : Int32 := 1

def EGC_ON_MEM_LIMIT : Int32 := 2

def EGC_ALWAYS : Int32 := 4

/-- `legc_set_mode`. -/
def legcSetMode (g : Global) (mode : Int32) (limit : UInt32) : Global :=
  { g with egcmode := mode, memlimit := limit }

/-- What a collection leaves: finalizers allocate, so there may be more bytes than before. -/
structure Effect where
  totalbytes : UInt32
  gcstate : GcState

/-- `luaC_step`. -/
def luaCStep (e : Effect) (g : Global) : Global :=
  if g.blockGc then g else { g with totalbytes := e.totalbytes, gcstate := e.gcstate }

/-- `luaC_fullgc`. -/
def luaCFullgc (totalbytes : UInt32) (g : Global) : Global :=
  if g.blockGc then g else { g with totalbytes := totalbytes, gcstate := .pause }

/-- The loop of `l_check_memlimit`, with what each step leaves.  There is no result when it has not
ended by the last of them. -/
def collect (limit : UInt32) : Nat → Global → List Effect → Option Global
  | cycleCount, g, effects =>
    if g.totalbytes < limit then some g
    else
      let cycleCount := if g.gcstate = .pause then cycleCount + 1 else cycleCount
      if g.gcstate = .pause ∧ 1 < cycleCount then some g
      else
        match effects with
        | [] => none
        | e :: effects => collect limit cycleCount (luaCStep e g) effects

/-- `l_check_memlimit`: whether the limit is reached. -/
def lCheckMemlimit (g : Global) (needbytes : UInt32) (effects : List Effect) :
    Option (Bool × Global) :=
  let limit := g.memlimit - needbytes
  (if g.blockGc then some g else collect limit 0 g effects).map
    fun g => (decide (limit ≤ g.totalbytes), g)

/-- What happens around one allocation: what the collections leave, and the blocks of `realloc`. -/
structure Outcomes where
  always : UInt32
  steps : List Effect
  first : Option Nat
  emergency : UInt32
  second : Option Nat

/-- The end of `l_alloc`: `realloc`, and once more after an emergency collection. -/
def reallocate (mode : Int32) (o : Outcomes) (g : Global) : Option Nat × Global :=
  if o.first = none ∧ mode &&& EGC_ON_ALLOC_FAILURE ≠ 0 then
    (o.second, luaCFullgc o.emergency g)
  else (o.first, g)

/-- `l_alloc`: the block, and what is left of the state that `ud` points to. -/
def lAlloc (ud : Option Global) (osize nsize : UInt32) (o : Outcomes) :
    Option (Option Nat × Option Global) :=
  if nsize = 0 then some (none, ud)
  else
    match ud with
    | none => some (o.first, none)
    | some g =>
      let mode := g.egcmode
      let g := if mode &&& EGC_ALWAYS ≠ 0 then luaCFullgc o.always g else g
      if osize < nsize ∧ 0 < g.memlimit ∧ mode &&& EGC_ON_MEM_LIMIT ≠ 0 then
        (lCheckMemlimit g (nsize - osize) o.steps).map fun (above, g) =>
          if above then (none, some g) else ((reallocate mode o g).1, some (reallocate mode o g).2)
      else some ((reallocate mode o g).1, some (reallocate mode o g).2)

/-- By how much a block grows. -/
def growth (osize nsize : UInt32) : Nat := nsize.toNat - osize.toNat

/-- A block is given only if the bytes in use then, and the growth, stay within the limit. -/
def Honoured (g : Global) (osize nsize : UInt32) : Prop :=
  ∀ o block g', lAlloc (some g) osize nsize o = some (some block, some g') →
    g'.totalbytes.toNat + growth osize nsize ≤ g.memlimit.toNat

/-! ## Collections -/

variable {g g' : Global} {osize nsize : UInt32} {o : Outcomes}

@[simp] theorem luaCFullgc_memlimit (n : UInt32) (g : Global) :
    (luaCFullgc n g).memlimit = g.memlimit := by
  unfold luaCFullgc
  split <;> rfl

@[simp] theorem luaCFullgc_blockGc (n : UInt32) (g : Global) :
    (luaCFullgc n g).blockGc = g.blockGc := by
  unfold luaCFullgc
  split <;> rfl

theorem luaCFullgc_blocked (n : UInt32) (hblock : g.blockGc = true) : luaCFullgc n g = g :=
  if_pos hblock

theorem luaCFullgc_open (n : UInt32) (hopen : g.blockGc = false) :
    (luaCFullgc n g).totalbytes = n := by
  simp [luaCFullgc, hopen]

/-- The state after the collection that `EGC_ALWAYS` asks for. -/
def collected (o : Outcomes) (g : Global) : Global :=
  if g.egcmode &&& EGC_ALWAYS ≠ 0 then luaCFullgc o.always g else g

@[simp] theorem collected_memlimit (o : Outcomes) (g : Global) :
    (collected o g).memlimit = g.memlimit := by
  unfold collected
  split
  · exact luaCFullgc_memlimit _ g
  · rfl

@[simp] theorem collected_blockGc (o : Outcomes) (g : Global) :
    (collected o g).blockGc = g.blockGc := by
  unfold collected
  split
  · exact luaCFullgc_blockGc _ g
  · rfl

theorem collected_blocked (o : Outcomes) (hblock : g.blockGc = true) : collected o g = g := by
  unfold collected
  split
  · exact luaCFullgc_blocked _ hblock
  · rfl

/-! ## The comparison -/

/-- Below the limit is what a passed check says, however the loop ended. -/
theorem lt_of_lCheckMemlimit {need : UInt32} {effects : List Effect}
    (h : lCheckMemlimit g need effects = some (false, g')) :
    g'.totalbytes < g.memlimit - need := by
  obtain ⟨g₁, -, hg₁⟩ := Option.map_eq_some_iff.mp h
  obtain ⟨hover, rfl⟩ := Prod.mk.inj hg₁
  rw [decide_eq_false_iff_not] at hover
  exact UInt32.not_le.mp hover

theorem lCheckMemlimit_blocked {need : UInt32} {effects : List Effect}
    (hblock : g.blockGc = true) :
    lCheckMemlimit g need effects =
      some (decide (g.memlimit - need ≤ g.totalbytes), g) := by
  simp [lCheckMemlimit, hblock]

/-- A step that frees everything passes every check that can be passed. -/
theorem lCheckMemlimit_open {need : UInt32} (hopen : g.blockGc = false)
    (hneed : 0 < g.memlimit - need) :
    ∃ g', lCheckMemlimit g need [⟨0, .pause⟩] = some (false, g') ∧ g'.blockGc = false := by
  by_cases hfirst : g.totalbytes < g.memlimit - need
  · refine ⟨g, ?_, hopen⟩
    simp [lCheckMemlimit, collect, hopen, hfirst]
  · refine ⟨luaCStep ⟨0, .pause⟩ g, ?_, by simp [luaCStep, hopen]⟩
    have hne : ¬ g.memlimit - need = 0 := by
      intro hzero
      rw [hzero] at hneed
      exact absurd hneed (by decide)
    by_cases hpause : g.gcstate = .pause
    · simp [lCheckMemlimit, collect, hopen, hfirst, hpause, luaCStep, hne]
    · simp [lCheckMemlimit, collect, hopen, hfirst, hpause, luaCStep, hne]

/-- The limit less the request, which wraps when the request is larger. -/
theorem toNat_limit (m : UInt32) (hgrow : osize < nsize) :
    (m - (nsize - osize)).toNat =
      if growth osize nsize ≤ m.toNat then m.toNat - growth osize nsize
      else 2 ^ 32 + m.toNat - growth osize nsize := by
  have hlt := UInt32.lt_iff_toNat_lt.mp hgrow
  have hneed : (nsize - osize).toNat = growth osize nsize :=
    UInt32.toNat_sub_of_le _ _ (UInt32.le_iff_toNat_le.mpr (Nat.le_of_lt hlt))
  have hsmall := (nsize - osize).toNat_lt
  have hm := m.toNat_lt
  rw [UInt32.toNat_sub, hneed]
  split <;> omega

theorem growth_pos (hgrow : osize < nsize) : 0 < growth osize nsize :=
  Nat.sub_pos_of_lt (UInt32.lt_iff_toNat_lt.mp hgrow)

/-! ## Blocks -/

/-- **A block is given** when the check passes, and some `realloc` finds it. -/
theorem lAlloc_eq_some_iff {block : Nat} (hlimit : 0 < g.memlimit)
    (hmode : g.egcmode &&& EGC_ON_MEM_LIMIT ≠ 0) (hgrow : osize < nsize) :
    lAlloc (some g) osize nsize o = some (some block, some g') ↔
      ∃ g₁, lCheckMemlimit (collected o g) (nsize - osize) o.steps = some (false, g₁) ∧
        reallocate g.egcmode o g₁ = (some block, g') := by
  have hsize : nsize ≠ 0 := by
    intro hzero
    have hlt := UInt32.lt_iff_toNat_lt.mp hgrow
    rw [hzero] at hlt
    exact absurd hlt (Nat.not_lt_zero _)
  have hcheck : osize < nsize ∧ 0 < (collected o g).memlimit ∧
      g.egcmode &&& EGC_ON_MEM_LIMIT ≠ 0 := ⟨hgrow, by simpa using hlimit, hmode⟩
  have hstep : lAlloc (some g) osize nsize o =
      (lCheckMemlimit (collected o g) (nsize - osize) o.steps).map fun (above, g₁) =>
        if above then (none, some g₁)
        else ((reallocate g.egcmode o g₁).1, some (reallocate g.egcmode o g₁).2) :=
    (if_neg hsize).trans (if_pos hcheck)
  rw [hstep, Option.map_eq_some_iff]
  constructor
  · intro h
    obtain ⟨⟨above, g₁⟩, hpassed, hblock⟩ := h
    cases above with
    | true => exact absurd (congrArg Prod.fst hblock) (by simp)
    | false =>
      obtain ⟨hfirst, hsecond⟩ := Prod.mk.inj hblock
      exact ⟨g₁, hpassed, Prod.ext hfirst (Option.some.inj hsecond)⟩
  · intro h
    obtain ⟨g₁, hpassed, hblock⟩ := h
    exact ⟨(false, g₁), hpassed, by simp [hblock]⟩

/-- Without an emergency collection, the bytes in use are those that were compared. -/
theorem totalbytes_reallocate {mode : Int32} {block : Nat}
    (hkept : g.blockGc = true ∨ mode &&& EGC_ON_ALLOC_FAILURE = 0)
    (h : reallocate mode o g = (some block, g')) : g' = g := by
  unfold reallocate at h
  by_cases hfail : o.first = none ∧ mode &&& EGC_ON_ALLOC_FAILURE ≠ 0
  · rw [if_pos hfail] at h
    obtain hblock | hmode := hkept
    · exact (Prod.mk.inj h).2.symm.trans (luaCFullgc_blocked _ hblock)
    · exact absurd hmode hfail.2
  · rw [if_neg hfail] at h
    exact (Prod.mk.inj h).2.symm

/-- The condition under which the comparison is worth something: the request is not larger than the
limit, and nothing is collected after the comparison. -/
def Compared (g : Global) (osize nsize : UInt32) : Prop :=
  growth osize nsize ≤ g.memlimit.toNat ∧
    (g.blockGc = true ∨ g.egcmode &&& EGC_ON_ALLOC_FAILURE = 0 ∨
      growth osize nsize = g.memlimit.toNat)

/-- The condition under which a request larger than the limit is refused all the same: nothing can
be collected, and there are so many bytes in use that they reach the wrapped limit. -/
def Refused (g : Global) (osize nsize : UInt32) : Prop :=
  g.memlimit.toNat < growth osize nsize ∧ g.blockGc = true ∧
    2 ^ 32 + g.memlimit.toNat ≤ g.totalbytes.toNat + growth osize nsize

theorem honoured_of_compared (hlimit : 0 < g.memlimit)
    (hmode : g.egcmode &&& EGC_ON_MEM_LIMIT ≠ 0) (hgrow : osize < nsize)
    (h : Compared g osize nsize) : Honoured g osize nsize := by
  intro o block g' hblock
  obtain ⟨hfits, hkept⟩ := h
  obtain ⟨g₁, hpassed, hrealloc⟩ := (lAlloc_eq_some_iff hlimit hmode hgrow).mp hblock
  have hbelow := UInt32.lt_iff_toNat_lt.mp (lt_of_lCheckMemlimit hpassed)
  rw [collected_memlimit, toNat_limit _ hgrow, if_pos hfits] at hbelow
  have hkept' : g₁.blockGc = true ∨ g.egcmode &&& EGC_ON_ALLOC_FAILURE = 0 := by
    obtain hblocked | hmode' | hequal := hkept
    · rw [lCheckMemlimit_blocked (by simpa using hblocked)] at hpassed
      have hsame := (Prod.mk.inj (Option.some.inj hpassed)).2
      exact .inl (by rw [← hsame]; simpa using hblocked)
    · exact .inr hmode'
    · omega
  have hsame := totalbytes_reallocate hkept' hrealloc
  rw [hsame]
  omega

theorem honoured_of_refused (hlimit : 0 < g.memlimit)
    (hmode : g.egcmode &&& EGC_ON_MEM_LIMIT ≠ 0) (hgrow : osize < nsize)
    (h : Refused g osize nsize) : Honoured g osize nsize := by
  intro o block g' hblock
  obtain ⟨hlarge, hblocked, hfull⟩ := h
  obtain ⟨g₁, hpassed, -⟩ := (lAlloc_eq_some_iff hlimit hmode hgrow).mp hblock
  have hbelow := UInt32.lt_iff_toNat_lt.mp (lt_of_lCheckMemlimit hpassed)
  rw [collected_blocked o hblocked, lCheckMemlimit_blocked hblocked] at hpassed
  rw [collected_memlimit, toNat_limit _ hgrow, if_neg (Nat.not_le.mpr hlarge),
    ← (Prod.mk.inj (Option.some.inj hpassed)).2] at hbelow
  omega

/-- Unless the request is as large as the limit, enough collection lets it pass. -/
theorem exists_passed (o : Outcomes) (hopen : g.blockGc = false) (hgrow : osize < nsize)
    (hne : growth osize nsize ≠ g.memlimit.toNat) :
    ∃ g₁, lCheckMemlimit (collected o g) (nsize - osize) [⟨0, .pause⟩] = some (false, g₁) ∧
      g₁.blockGc = false := by
  have hpositive : 0 < (collected o g).memlimit - (nsize - osize) := by
    have hlimit := toNat_limit g.memlimit hgrow
    have hsmall := nsize.toNat_lt
    have hzero : (0 : UInt32).toNat = 0 := rfl
    rw [collected_memlimit, UInt32.lt_iff_toNat_lt, hlimit, hzero]
    unfold growth at hne ⊢
    split <;> omega
  exact lCheckMemlimit_open (by simpa using hopen) hpositive

/-- An emergency collection whose finalizers fill the memory: the block is given after it. -/
theorem not_honoured_emergency (hlimit : 0 < g.memlimit)
    (hmode : g.egcmode &&& EGC_ON_MEM_LIMIT ≠ 0) (hgrow : osize < nsize)
    (hopen : g.blockGc = false) (hfailure : g.egcmode &&& EGC_ON_ALLOC_FAILURE ≠ 0)
    (hne : growth osize nsize ≠ g.memlimit.toNat) : ¬ Honoured g osize nsize := by
  intro hall
  obtain ⟨o, ho⟩ : ∃ o : Outcomes, o = ⟨0, [⟨0, .pause⟩], none, 0xFFFFFFFF, some 0⟩ := ⟨_, rfl⟩
  obtain ⟨g₁, hpassed, hopen₁⟩ := exists_passed o hopen hgrow hne
  have hrealloc : reallocate g.egcmode o g₁ = (some 0, luaCFullgc 0xFFFFFFFF g₁) := by
    simp [reallocate, ho, hfailure]
  have hblock := (lAlloc_eq_some_iff hlimit hmode hgrow).mpr
    ⟨g₁, by rw [ho] at hpassed ⊢; exact hpassed, hrealloc⟩
  have hle := hall _ _ _ hblock
  have hmax : (0xFFFFFFFF : UInt32).toNat = 2 ^ 32 - 1 := rfl
  rw [luaCFullgc_open _ hopen₁, hmax] at hle
  have hpos := growth_pos hgrow
  have hm := g.memlimit.toNat_lt
  omega

/-- A request larger than the limit that is not refused: there is no room for it at all. -/
theorem not_honoured_large (hlimit : 0 < g.memlimit)
    (hmode : g.egcmode &&& EGC_ON_MEM_LIMIT ≠ 0) (hgrow : osize < nsize)
    (hlarge : g.memlimit.toNat < growth osize nsize) (hrefused : ¬ Refused g osize nsize) :
    ¬ Honoured g osize nsize := by
  intro hall
  have hgiven : ∃ o : Outcomes, ∃ g₁, o.first = some 0 ∧
      lCheckMemlimit (collected o g) (nsize - osize) o.steps = some (false, g₁) := by
    by_cases hblocked : g.blockGc = true
    · have hroom : g.totalbytes < g.memlimit - (nsize - osize) := by
        rw [UInt32.lt_iff_toNat_lt, toNat_limit _ hgrow, if_neg (Nat.not_le.mpr hlarge)]
        by_contra hfull
        exact hrefused ⟨hlarge, hblocked, by omega⟩
      refine ⟨⟨0, [], some 0, 0, none⟩, g, rfl, ?_⟩
      rw [collected_blocked _ hblocked, lCheckMemlimit_blocked hblocked]
      simp [hroom]
    · have hopen : g.blockGc = false := by simpa using hblocked
      obtain ⟨g₁, hpassed, -⟩ := exists_passed ⟨0, [⟨0, .pause⟩], some 0, 0, none⟩ hopen hgrow
        (Nat.ne_of_gt hlarge)
      exact ⟨_, g₁, rfl, hpassed⟩
  obtain ⟨o, g₁, hfirst, hpassed⟩ := hgiven
  have hrealloc : reallocate g.egcmode o g₁ = (some 0, g₁) := by
    simp [reallocate, hfirst]
  have hle := hall _ _ _ ((lAlloc_eq_some_iff hlimit hmode hgrow).mpr ⟨g₁, hpassed, hrealloc⟩)
  omega

/-- **The memory limit** is honoured, whatever the collections leave, exactly when the request is
within the limit and nothing can be collected after the comparison, or when the wrapped limit is
reached too. -/
theorem honoured_iff (hlimit : 0 < g.memlimit) (hmode : g.egcmode &&& EGC_ON_MEM_LIMIT ≠ 0)
    (hgrow : osize < nsize) :
    Honoured g osize nsize ↔ Compared g osize nsize ∨ Refused g osize nsize := by
  constructor
  · intro hall
    by_contra hnot
    obtain ⟨hcompared, hrefused⟩ := not_or.mp hnot
    by_cases hfits : growth osize nsize ≤ g.memlimit.toNat
    · have hopen : g.blockGc = false := by
        by_contra hblocked
        exact hcompared ⟨hfits, .inl (by simpa using hblocked)⟩
      have hfailure : g.egcmode &&& EGC_ON_ALLOC_FAILURE ≠ 0 := by
        intro hmode'
        exact hcompared ⟨hfits, .inr (.inl hmode')⟩
      have hne : growth osize nsize ≠ g.memlimit.toNat := by
        intro hequal
        exact hcompared ⟨hfits, .inr (.inr hequal)⟩
      exact not_honoured_emergency hlimit hmode hgrow hopen hfailure hne hall
    · exact not_honoured_large hlimit hmode hgrow (Nat.lt_of_not_le hfits) hrefused hall
  · intro h
    obtain hcompared | hrefused := h
    · exact honoured_of_compared hlimit hmode hgrow hcompared
    · exact honoured_of_refused hlimit hmode hgrow hrefused

/-- A state with 20000 bytes in use. -/
def halfUsed : Global := ⟨20000, 0, 0, .pause, false⟩

/-- A limit of 40000 bytes, and 16 bytes more. -/
theorem honoured_halfUsed :
    Honoured (legcSetMode halfUsed EGC_ON_MEM_LIMIT 40000) 0 16 :=
  (honoured_iff (by decide) (by decide) (by decide)).mpr (.inl ⟨by decide, .inr (.inl (by decide))⟩)

/-- A limit of 40000 bytes, and 50000 more: the limit less the request wraps, and nothing is
collected. -/
theorem not_honoured_halfUsed :
    lAlloc (some (legcSetMode halfUsed EGC_ON_MEM_LIMIT 40000)) 0 50000
        ⟨0, [], some 4096, 0, none⟩ =
      some (some 4096, some (legcSetMode halfUsed EGC_ON_MEM_LIMIT 40000)) ∧
      ¬ Honoured (legcSetMode halfUsed EGC_ON_MEM_LIMIT 40000) 0 50000 := by
  have hgiven : lAlloc (some (legcSetMode halfUsed EGC_ON_MEM_LIMIT 40000)) 0 50000
      ⟨0, [], some 4096, 0, none⟩ =
        some (some 4096, some (legcSetMode halfUsed EGC_ON_MEM_LIMIT 40000)) := rfl
  refine ⟨hgiven, ?_⟩
  intro hall
  exact absurd (hall _ _ _ hgiven) (by decide)

end LuaAlloc
