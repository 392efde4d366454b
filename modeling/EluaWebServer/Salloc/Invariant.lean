import EluaWebServer.Lib.Transition
import EluaWebServer.Salloc.Regions
import Mathlib.Logic.Function.Basic

/-!
# The heap invariant

Calls of the allocator one after the other, with the program writing into the
memory it got in between.  After every call the blocks of each region are as
`RegionOk` says, and the live pointers are exactly the taken blocks that are
no guards.
-/

namespace Salloc

open Memory Chain

/-! ## Calls -/

/-- The heap and the pointers that were returned and not freed since. -/
structure State where
  heap : Heap
  live : List Nat

/-- The calls of the allocator, and a byte written by the program. -/
inductive Call where
  | smalloc (size : Nat)
  | scalloc (nmemb size : Nat)
  | sfree (ptr : Nat)
  | srealloc (ptr size : Nat)
  | write (addr : Nat) (b : UInt8)
  deriving Repr

/-- A pointer that was returned becomes live, unless it is null. -/
def gain (ptr : Nat) (live : List Nat) : List Nat := if ptr = 0 then live else ptr :: live

def drop (ptr : Nat) (live : List Nat) : List Nat := live.filter (· ≠ ptr)

def step (regions : List Region) (s : State) : Call → Option State
  | .smalloc size => do
      let (h, ptr) ← smalloc regions s.heap size
      return ⟨h, gain ptr s.live⟩
  | .scalloc nmemb size => do
      let (h, ptr) ← scalloc regions s.heap nmemb size
      return ⟨h, gain ptr s.live⟩
  | .sfree ptr => do
      let h ← sfree s.heap ptr
      return ⟨h, drop ptr s.live⟩
  | .srealloc ptr size => do
      let (h, newptr) ← srealloc regions s.heap ptr size
      -- when there is no memory for the new block, the old one stays
      return ⟨h, gain newptr (if newptr ≠ 0 ∨ size = 0 then drop ptr s.live else s.live)⟩
  | .write addr b => some { s with heap := { s.heap with mem := storeBytes s.heap.mem addr [b] } }

/-- Only live pointers are freed, no size wraps, and the program writes only
into memory it got. -/
def CallOk (s : State) : Call → Prop
  | .smalloc size => NoWrap size
  | .scalloc nmemb size => NoWrap (nmemb * size)
  | .sfree ptr => ptr ∈ s.live
  | .srealloc ptr size => (ptr = 0 ∨ ptr ∈ s.live) ∧ NoWrap size
  | .write addr _ =>
      ∃ ptr ∈ s.live, ptr ≤ addr ∧ addr < ptr + sGetActualBlockSize s.heap.mem ptr

instance (s : State) : (c : Call) → Decidable (CallOk s c)
  | .smalloc size => inferInstanceAs (Decidable (NoWrap size))
  | .scalloc nmemb size => inferInstanceAs (Decidable (NoWrap (nmemb * size)))
  | .sfree ptr => inferInstanceAs (Decidable (ptr ∈ s.live))
  | .srealloc ptr size => inferInstanceAs (Decidable ((ptr = 0 ∨ ptr ∈ s.live) ∧ NoWrap size))
  | .write addr _ => inferInstanceAs (Decidable
      (∃ ptr ∈ s.live, ptr ≤ addr ∧ addr < ptr + sGetActualBlockSize s.heap.mem ptr))

/-- The regions do not overlap. -/
def RegionsApart (regions : List Region) : Prop :=
  regions.Pairwise fun r r' => r.last ≤ r'.first ∨ r'.last ≤ r.first

instance (regions : List Region) : Decidable (RegionsApart regions) :=
  inferInstanceAs (Decidable (regions.Pairwise _))

/-- After `s_init` on any memory. -/
def State.init (regions : List Region) (m : Mem) : State := ⟨sInit regions ⟨m, false⟩, []⟩

/-! ## The invariant -/

/-- The block of a live pointer. -/
def LiveBlock (regions : List Region) (blocks : Region → Blocks) (ptr : Nat) : Prop :=
  ∃ r ∈ regions, ∃ a, (a, true) ∈ blocks r ∧ a ≠ r.first ∧ a ≠ r.last - 8 ∧ ptr = a + 8

/-- **The heap invariant**, with the blocks of each region. -/
structure HeapOk (regions : List Region) (s : State) (blocks : Region → Blocks) : Prop where
  initialized : s.heap.initialized = true
  region : ∀ r ∈ regions, RegionOk s.heap.mem r (blocks r)
  live : ∀ ptr, ptr ∈ s.live ↔ LiveBlock regions blocks ptr

/-- Only headers of blocks were written, of those before and of those after. -/
def HeadersFramed (regions : List Region) (blocks blocks' : Region → Blocks) (m m' : Mem) : Prop :=
  ∀ i, (∀ r ∈ regions, ∀ a ∈ addresses (blocks r) ++ addresses (blocks' r), i < a ∨ a + 8 ≤ i) →
    m' i = m i

/-- The payloads of live pointers do not overlap. -/
def PayloadsApart (s : State) : Prop :=
  ∀ p ∈ s.live, ∀ q ∈ s.live, p ≠ q →
    p + sGetActualBlockSize s.heap.mem p ≤ q ∨ q + sGetActualBlockSize s.heap.mem q ≤ p

/-- What holds after every call. -/
def WellFormed (regions : List Region) (s : State) : Prop :=
  (∃ blocks, HeapOk regions s blocks) ∧ PayloadsApart s

section

variable {m m' : Mem} {r : Region} {regions : List Region} {blocks : Region → Blocks} {bs bs' : Blocks}

/-- The block after a taken one, and where the others are. -/
theorem RegionOk.next_of_mem (h : RegionOk m r bs) {a : Nat} (ha : (a, true) ∈ bs)
    (hlast : a ≠ r.last - 8) :
    sGetNextBlock m a ∈ addresses bs ∧ a + 8 ≤ sGetNextBlock m a ∧
      ∀ c ∈ addresses bs, c ≤ a ∨ sGetNextBlock m a ≤ c := by
  obtain ⟨xs, ys, rfl⟩ := List.append_of_mem ha
  have hys : ys ≠ [] := by
    rintro rfl
    have hguard := h.guard
    simp only [List.getLast?_append, List.getLast?_singleton, Option.some_or, Option.some.injEq,
      Prod.mk.injEq] at hguard
    exact hlast hguard.1
  obtain ⟨b, ys, rfl⟩ := List.exists_cons_of_ne_nil hys
  have hnext : sGetNextBlock m a = b.1 := h.next
  obtain ⟨hbelow, habove⟩ := h.layout.around
  have hbeyond : ∀ c ∈ ys, b.1 < c.1 := by
    have hlay := h.layout
    rw [← List.singleton_append, ← List.append_assoc] at hlay
    exact hlay.around.2
  have hb : b ∈ xs ++ (a, true) :: b :: ys := by simp
  have halign := (h.layout.address _ (mem_addresses ha)).1
  have hbalign := (h.layout.address _ (mem_addresses hb)).1
  have hab := habove b List.mem_cons_self
  rw [hnext]
  refine ⟨mem_addresses hb, ?_, fun c hc => ?_⟩
  · simp only at halign hbalign hab
    omega
  · obtain ⟨d, hd, rfl⟩ := List.mem_map.mp hc
    rcases List.mem_append.mp hd with hd | hd
    · exact .inl (Nat.le_of_lt (hbelow d hd))
    · rcases List.mem_cons.mp hd with rfl | hd
      · exact .inl (Nat.le_refl _)
      · rcases List.mem_cons.mp hd with rfl | hd
        · exact .inr (Nat.le_refl _)
        · exact .inr (Nat.le_of_lt (hbeyond d hd))

theorem sGetActualBlockSize_eq {a : Nat} (h : a + 8 ≤ sGetNextBlock m a) :
    sGetActualBlockSize m (a + 8) = sGetNextBlock m a - a - 8 := by
  have hnext : sGetNextBlock m a < 2 ^ 32 := UInt32.toNat_lt _
  rw [sGetActualBlockSize, DYN_HEADER_SIZE, Nat.add_sub_cancel, sGetBlockSize_eq (by omega)]
  omega

theorem sGetActualBlockSize_congr {a : Nat} (h : sGetNextBlock m' a = sGetNextBlock m a) :
    sGetActualBlockSize m' (a + 8) = sGetActualBlockSize m (a + 8) := by
  simp only [sGetActualBlockSize, sGetBlockSize, DYN_HEADER_SIZE, Nat.add_sub_cancel, h]

theorem RegionsApart.apart (h : RegionsApart regions) {r r' : Region} (hr : r ∈ regions)
    (hr' : r' ∈ regions) (hne : r ≠ r') : r.last ≤ r'.first ∨ r'.last ≤ r.first := by
  have : Std.Symm fun r r' : Region => r.last ≤ r'.first ∨ r'.last ≤ r.first :=
    ⟨fun _ _ hor => hor.symm⟩
  exact List.Pairwise.forall h hr hr' hne

/-- A change within one region leaves the headers of the other regions. -/
theorem RegionOk.header_of_within {r' : Region} (h : RegionOk m r' bs) (hwithin : Within r m m')
    (hapart : r.last ≤ r'.first ∨ r'.last ≤ r.first) {a : Nat} (ha : a ∈ addresses bs) :
    header m' a = header m a := by
  refine header_congr fun i hlo hhi => hwithin i ?_
  have hin := h.inside ha
  omega

theorem RegionOk.of_within {r' : Region} (h : RegionOk m r' bs) (hwithin : Within r m m')
    (hapart : r.last ≤ r'.first ∨ r'.last ≤ r.first) : RegionOk m' r' bs :=
  h.congr fun _ ha => h.header_of_within hwithin hapart ha

end

/-! ## One region after another -/

section

variable {regions : List Region} {blocks : Region → Blocks} {heap : Heap} {live : List Nat}

theorem HeapOk.of_live (h : HeapOk regions ⟨heap, live⟩ blocks) {live' : List Nat}
    (hsame : ∀ p, p ∈ live' ↔ p ∈ live) : HeapOk regions ⟨heap, live'⟩ blocks :=
  { h with live := fun p => (hsame p).trans (h.live p) }

theorem HeapOk.ensureInit (h : HeapOk regions ⟨heap, live⟩ blocks) :
    ensureInit regions heap = heap :=
  if_pos h.initialized

/-- No live pointer is null. -/
theorem HeapOk.ne_zero (h : HeapOk regions ⟨heap, live⟩ blocks) {p : Nat} (hp : p ∈ live) :
    p ≠ 0 := by
  obtain ⟨r, -, a, -, -, -, rfl⟩ := (h.live p).mp hp
  omega

/-- The blocks of one region change, and with them the live pointers. -/
theorem HeapOk.update (h : HeapOk regions ⟨heap, live⟩ blocks) (hapart : RegionsApart regions)
    {r : Region} (hr : r ∈ regions) {m' : Mem} {bs' : Blocks} (hok : RegionOk m' r bs')
    (hwithin : Within r heap.mem m') {live' : List Nat}
    (hlive : ∀ p, p ∈ live' ↔ (∃ a, (a, true) ∈ bs' ∧ a ≠ r.first ∧ a ≠ r.last - 8 ∧ p = a + 8) ∨
      ∃ r' ∈ regions, r' ≠ r ∧ ∃ a, (a, true) ∈ blocks r' ∧ a ≠ r'.first ∧ a ≠ r'.last - 8 ∧
        p = a + 8) :
    HeapOk regions ⟨{ heap with mem := m' }, live'⟩ (Function.update blocks r bs') := by
  refine ⟨h.initialized, fun r' hr' => ?_, fun p => (hlive p).trans ⟨?_, ?_⟩⟩
  · by_cases hne : r' = r
    · subst hne
      rw [Function.update_self]
      exact hok
    · rw [Function.update_of_ne hne]
      exact (h.region r' hr').of_within hwithin (hapart.apart hr hr' (Ne.symm hne))
  · rintro (⟨a, ha⟩ | ⟨r', hr', hne, a, ha⟩)
    · exact ⟨r, hr, a, by rw [Function.update_self]; exact ha⟩
    · exact ⟨r', hr', a, by rw [Function.update_of_ne hne]; exact ha⟩
  · rintro ⟨r', hr', a, ha⟩
    by_cases hne : r' = r
    · subst hne
      rw [Function.update_self] at ha
      exact .inl ⟨a, ha⟩
    · rw [Function.update_of_ne hne] at ha
      exact .inr ⟨r', hr', hne, a, ha⟩

/-- Live pointers, by the region of one of them. -/
theorem HeapOk.live_iff (h : HeapOk regions ⟨heap, live⟩ blocks) {r : Region} (hr : r ∈ regions)
    (p : Nat) :
    p ∈ live ↔
      (∃ a, (a, true) ∈ blocks r ∧ a ≠ r.first ∧ a ≠ r.last - 8 ∧ p = a + 8) ∨
      ∃ r' ∈ regions, r' ≠ r ∧ ∃ a, (a, true) ∈ blocks r' ∧ a ≠ r'.first ∧ a ≠ r'.last - 8 ∧
        p = a + 8 := by
  refine (h.live p).trans ⟨?_, ?_⟩
  · rintro ⟨r', hr', a, ha⟩
    by_cases hne : r' = r
    · subst hne
      exact .inl ⟨a, ha⟩
    · exact .inr ⟨r', hr', hne, a, ha⟩
  · rintro (⟨a, ha⟩ | ⟨r', hr', -, a, ha⟩)
    · exact ⟨r, hr, a, ha⟩
    · exact ⟨r', hr', a, ha⟩

/-- An address lies in one region only. -/
theorem HeapOk.region_unique (h : HeapOk regions ⟨heap, live⟩ blocks)
    (hapart : RegionsApart regions) {r r' : Region} (hr : r ∈ regions) (hr' : r' ∈ regions) {a : Nat}
    (ha : a ∈ addresses (blocks r)) (ha' : a ∈ addresses (blocks r')) : r' = r := by
  by_contra hne
  have hin := (h.region r hr).inside ha
  have hin' := (h.region r' hr').inside ha'
  rcases hapart.apart hr hr' (Ne.symm hne) with hle | hle
  · omega
  · omega

/-- No header overlaps the payload of a live pointer. -/
theorem HeapOk.header_apart (h : HeapOk regions ⟨heap, live⟩ blocks) (hapart : RegionsApart regions)
    {p : Nat} (hp : p ∈ live) {r : Region} (hr : r ∈ regions) {c : Nat}
    (hc : c ∈ addresses (blocks r)) :
    c + 8 ≤ p ∨ p + sGetActualBlockSize heap.mem p ≤ c := by
  obtain ⟨r', hr', a, ha, -, hlast, rfl⟩ := (h.live p).mp hp
  obtain ⟨hmem, hstep, hothers⟩ := (h.region r' hr').next_of_mem ha hlast
  rw [sGetActualBlockSize_eq hstep]
  by_cases hne : r = r'
  · subst hne
    rcases hothers c hc with hle | hle
    · exact .inl (by omega)
    · exact .inr (by omega)
  · have hin := (h.region r hr).inside hc
    have hfrom := (h.region r' hr').inside (mem_addresses ha)
    have hto := (h.region r' hr').inside hmem
    rcases hapart.apart hr hr' hne with hle | hle
    · exact .inl (by omega)
    · exact .inr (by omega)

/-- Payloads do not overlap. -/
theorem HeapOk.payloadsApart (h : HeapOk regions ⟨heap, live⟩ blocks)
    (hapart : RegionsApart regions) : PayloadsApart ⟨heap, live⟩ := by
  intro p hp q hq hne
  obtain ⟨r, hr, a, ha, -, -, rfl⟩ := (h.live p).mp hp
  obtain ⟨r', hr', b, hb, -, -, rfl⟩ := (h.live q).mp hq
  have hpq := h.header_apart hapart hp hr' (mem_addresses hb)
  have hqp := h.header_apart hapart hq hr (mem_addresses ha)
  simp only at hpq hqp hne ⊢
  omega

/-- What only writes headers keeps the bytes that belong to a pointer before and after. -/
theorem HeapOk.payload_kept (h : HeapOk regions ⟨heap, live⟩ blocks) {heap' : Heap}
    {live' : List Nat} {blocks' : Region → Blocks} (h' : HeapOk regions ⟨heap', live'⟩ blocks')
    (hapart : RegionsApart regions) (hframe : HeadersFramed regions blocks blocks' heap.mem heap'.mem)
    {p : Nat} (hp : p ∈ live) (hp' : p ∈ live') {n : Nat}
    (hn : n ≤ sGetActualBlockSize heap.mem p) (hn' : n ≤ sGetActualBlockSize heap'.mem p) :
    loadBytes heap'.mem p n = loadBytes heap.mem p n := by
  refine loadBytes_congr fun i hlo hhi => hframe i fun r hr a ha => ?_
  rcases List.mem_append.mp ha with ha | ha
  · have hout := h.header_apart hapart hp hr ha
    omega
  · have hout := h'.header_apart hapart hp' hr ha
    omega

theorem HeadersFramed.of_update {r : Region} (hr : r ∈ regions) {bs' : Blocks} {m m' : Mem}
    (h : Framed (addresses (blocks r) ++ addresses bs') m m') :
    HeadersFramed regions blocks (Function.update blocks r bs') m m' := by
  intro i hi
  have hi' := hi r hr
  rw [Function.update_self] at hi'
  exact h i hi'

/-- Blocks keep their sizes if the blocks behind them stay where they are. -/
theorem HeapOk.size_kept (h : HeapOk regions ⟨heap, live⟩ blocks) (hapart : RegionsApart regions)
    {r : Region} (hr : r ∈ regions) {m' : Mem} (hwithin : Within r heap.mem m') {p : Nat}
    (hnext : ∀ b, (b, true) ∈ blocks r → b + 8 ≠ p →
      sGetNextBlock m' b = sGetNextBlock heap.mem b) {q : Nat} (hq : q ∈ live) (hne : q ≠ p) :
    sGetActualBlockSize m' q = sGetActualBlockSize heap.mem q := by
  obtain ⟨r', hr', b, hb, -, -, rfl⟩ := (h.live q).mp hq
  refine sGetActualBlockSize_congr ?_
  by_cases hsame : r' = r
  · subst hsame
    exact hnext b hb hne
  · exact congrArg Node.next ((h.region r' hr').header_of_within hwithin
      (hapart.apart hr hr' (Ne.symm hsame)) (mem_addresses hb))

/-- What is written into the payload of a live pointer changes no header. -/
theorem HeapOk.store (h : HeapOk regions ⟨heap, live⟩ blocks) (hapart : RegionsApart regions)
    {p : Nat} (hp : p ∈ live) {addr : Nat} (bs : List UInt8) (hlo : p ≤ addr)
    (hhi : addr + bs.length ≤ p + sGetActualBlockSize heap.mem p) :
    HeapOk regions ⟨{ heap with mem := storeBytes heap.mem addr bs }, live⟩ blocks := by
  refine { h with region := fun r hr => (h.region r hr).congr fun c hc => ?_ }
  have hout := h.header_apart hapart hp hr hc
  exact header_congr fun i _ _ => storeBytes_of_outside (by omega)

/-! ## The calls -/

/-- Freeing a live pointer. -/
theorem sfree_spec (h : HeapOk regions ⟨heap, live⟩ blocks) (hapart : RegionsApart regions)
    {p : Nat} (hp : p ∈ live) :
    ∃ heap' blocks', sfree heap p = some heap' ∧ HeapOk regions ⟨heap', drop p live⟩ blocks' ∧
      HeadersFramed regions blocks blocks' heap.mem heap'.mem ∧
      ∀ q ∈ live, q ≠ p → sGetActualBlockSize heap'.mem q = sGetActualBlockSize heap.mem q := by
  obtain ⟨r, hr, a, ha, hfirst, hlast, rfl⟩ := (h.live p).mp hp
  obtain ⟨m', bs', hm', hchanged, htaken, hnext⟩ := (h.region r hr).free ha hfirst hlast
  have hwithin := hchanged.within (h.region r hr)
  have hcond : ¬ (a + 8 = 0 ∨ heap.initialized = false) := by
    rintro (h0 | hi)
    · omega
    · rw [show heap.initialized = true from h.initialized] at hi
      cases hi
  refine ⟨{ heap with mem := m' }, Function.update blocks r bs', ?_,
    h.update hapart hr hchanged.ok hwithin fun q => ?_, .of_update hr hchanged.framed,
    fun q hq hne => h.size_kept hapart hr hwithin (fun b hb hba => ?_) hq hne⟩
  rotate_right
  · exact hnext b ((htaken b).mpr ⟨hb, by omega⟩)
  · rw [sfree, if_neg hcond, sFreeBlock, DYN_HEADER_SIZE, Nat.add_sub_cancel, hm']
    rfl
  · have hq : q ∈ drop (a + 8) live ↔ q ∈ live ∧ q ≠ a + 8 := by
      unfold drop
      rw [List.mem_filter, decide_eq_true_eq]
    rw [hq, h.live_iff hr]
    constructor
    · rintro ⟨⟨b, hb, hbf, hbl, rfl⟩ | hother, hne⟩
      · exact .inl ⟨b, (htaken b).mpr ⟨hb, by omega⟩, hbf, hbl, rfl⟩
      · exact .inr hother
    · rintro (⟨b, hb, hbf, hbl, rfl⟩ | ⟨r', hr', hne, b, hb, hbf, hbl, rfl⟩)
      · obtain ⟨hb, hba⟩ := (htaken b).mp hb
        exact ⟨.inl ⟨b, hb, hbf, hbl, rfl⟩, by omega⟩
      · refine ⟨.inr ⟨r', hr', hne, b, hb, hbf, hbl, rfl⟩, fun heq => ?_⟩
        have hba : b = a := by omega
        subst hba
        exact hne (h.region_unique hapart hr hr' (mem_addresses ha) (mem_addresses hb))

/-- Looking for memory in the regions in turn. -/
theorem smallocLoop_spec (h : HeapOk regions ⟨heap, live⟩ blocks) {size : Nat}
    (hwrap : NoWrap size) (rs : List Region) (hrs : ∀ r ∈ rs, r ∈ regions) :
    ∃ m' p, smallocLoop heap.mem size rs = some (m', p) ∧
      (p = 0 ∧ m' = heap.mem ∨ ∃ r ∈ regions, ∃ a bs', p = a + 8 ∧
        Allocated heap.mem m' r (blocks r) bs' a size) := by
  induction rs with
  | nil => exact ⟨_, 0, rfl, .inl ⟨rfl, rfl⟩⟩
  | cons r rs ih =>
      have hr := hrs r List.mem_cons_self
      have hrest := ih fun r' hr' => hrs r' (List.mem_cons_of_mem r hr')
      by_cases hsize : size = 0
      · rw [smallocLoop, sGetFreeBlock, if_pos hsize]
        exact hrest
      · obtain ⟨m', p, hget, hcase⟩ := (h.region r hr).alloc hsize hwrap
        rw [smallocLoop, hget]
        rcases hcase with ⟨rfl, rfl⟩ | ⟨a, bs', rfl, hal⟩
        · exact hrest
        · refine ⟨m', a + 8, ?_, .inr ⟨r, hr, a, bs', rfl, hal⟩⟩
          simp

theorem Allocated.within {m m' : Mem} {r : Region} {bs bs' : Blocks} {a size : Nat}
    (hal : Allocated m m' r bs bs' a size) (h : RegionOk m r bs) : Within r m m' :=
  Changed.within ⟨hal.ok, hal.framed⟩ h

theorem Allocated.ne_guards {m m' : Mem} {r : Region} {bs bs' : Blocks} {a size : Nat}
    (hal : Allocated m m' r bs bs' a size) (h : RegionOk m r bs) : a ≠ r.first ∧ a ≠ r.last - 8 := by
  refine ⟨?_, ?_⟩
  · rintro rfl
    exact Bool.noConfusion (h.tag_unique hal.was_free h.first_mem)
  · rintro rfl
    exact Bool.noConfusion (h.tag_unique hal.was_free h.last_mem)

/-- A block that was found becomes live, and it was not before. -/
theorem HeapOk.allocated (h : HeapOk regions ⟨heap, live⟩ blocks) (hapart : RegionsApart regions)
    {r : Region} (hr : r ∈ regions) {m' : Mem} {bs' : Blocks} {a size : Nat}
    (hal : Allocated heap.mem m' r (blocks r) bs' a size) :
    ∃ blocks', HeapOk regions ⟨{ heap with mem := m' }, (a + 8) :: live⟩ blocks' ∧
      a + 8 ∉ live ∧ HeadersFramed regions blocks blocks' heap.mem m' := by
  obtain ⟨hfirst, hlast⟩ := hal.ne_guards (h.region r hr)
  refine ⟨_, h.update hapart hr hal.ok (hal.within (h.region r hr)) fun q => ?_, fun hmem => ?_,
    .of_update hr hal.framed⟩
  · rw [List.mem_cons, h.live_iff hr]
    constructor
    · rintro (rfl | ⟨b, hb, hguards⟩ | hother)
      · exact .inl ⟨a, (hal.taken a).mpr (.inr rfl), hfirst, hlast, rfl⟩
      · exact .inl ⟨b, (hal.taken b).mpr (.inl hb), hguards⟩
      · exact .inr hother
    · rintro (⟨b, hb, hbfirst, hblast, rfl⟩ | hother)
      · rcases (hal.taken b).mp hb with hb | rfl
        · exact .inr (.inl ⟨b, hb, hbfirst, hblast, rfl⟩)
        · exact .inl rfl
      · exact .inr (.inr hother)
  · obtain ⟨r', hr', b, hb, -, -, heq⟩ := (h.live _).mp hmem
    have hba : b = a := by omega
    subst hba
    have hsame : r' = r :=
      h.region_unique hapart hr hr' (mem_addresses hal.was_free) (mem_addresses (b := (b, true)) hb)
    subst hsame
    exact Bool.noConfusion ((h.region _ hr').tag_unique hal.was_free hb)

/-- What allocating does. -/
theorem smalloc_spec (h : HeapOk regions ⟨heap, live⟩ blocks) (hapart : RegionsApart regions)
    {size : Nat} (hwrap : NoWrap size) :
    ∃ heap' p, smalloc regions heap size = some (heap', p) ∧
      (p = 0 ∧ heap' = heap ∨ ∃ blocks', HeapOk regions ⟨heap', p :: live⟩ blocks' ∧ p ≠ 0 ∧
        p ∉ live ∧ size ≤ sGetActualBlockSize heap'.mem p ∧
        HeadersFramed regions blocks blocks' heap.mem heap'.mem ∧
        ∀ q ∈ live, sGetActualBlockSize heap'.mem q = sGetActualBlockSize heap.mem q) := by
  obtain ⟨m', p, hloop, hcase⟩ := smallocLoop_spec h hwrap regions fun r hr => hr
  refine ⟨{ heap with mem := m' }, p, ?_, ?_⟩
  · rw [smalloc, h.ensureInit, hloop]
    rfl
  · rcases hcase with ⟨rfl, rfl⟩ | ⟨r, hr, a, bs', rfl, hal⟩
    · exact .inl ⟨rfl, rfl⟩
    · obtain ⟨blocks', hok, hnew, hframe⟩ := h.allocated hapart hr hal
      obtain ⟨hnext, hstep, -⟩ := hal.ok.next_of_mem ((hal.taken a).mpr (.inr rfl))
        (hal.ne_guards (h.region r hr)).2
      refine .inr ⟨blocks', hok, by omega, hnew, ?_, hframe, fun q hq => ?_⟩
      · rw [sGetActualBlockSize_eq hstep]
        have hfits := hal.fits
        omega
      · have hne : q ≠ a + 8 := by
          rintro rfl
          exact hnew hq
        exact h.size_kept hapart hr (hal.within (h.region r hr)) (fun b hb _ => hal.next b hb) hq
          hne

theorem smalloc_gain (h : HeapOk regions ⟨heap, live⟩ blocks) (hapart : RegionsApart regions)
    {size : Nat} (hwrap : NoWrap size) :
    ∃ heap' p blocks', smalloc regions heap size = some (heap', p) ∧
      HeapOk regions ⟨heap', gain p live⟩ blocks' := by
  obtain ⟨heap', p, hcall, hcase⟩ := smalloc_spec h hapart hwrap
  rcases hcase with ⟨rfl, rfl⟩ | ⟨blocks', hok, hp, -⟩
  · exact ⟨_, 0, blocks, hcall, h⟩
  · refine ⟨heap', p, blocks', hcall, ?_⟩
    rw [gain, if_neg hp]
    exact hok

/-- Allocating and clearing. -/
theorem scalloc_spec (h : HeapOk regions ⟨heap, live⟩ blocks) (hapart : RegionsApart regions)
    {nmemb size : Nat} (hwrap : NoWrap (nmemb * size)) :
    ∃ heap' p blocks', scalloc regions heap nmemb size = some (heap', p) ∧
      HeapOk regions ⟨heap', gain p live⟩ blocks' := by
  have hsize : nmemb * size % 2 ^ 32 = nmemb * size := by
    unfold NoWrap actSize at hwrap
    exact Nat.mod_eq_of_lt (by omega)
  obtain ⟨heap', p, hcall, hcase⟩ := smalloc_spec h hapart hwrap
  simp only [scalloc, hsize, h.ensureInit, hcall, Option.bind_eq_bind, Option.bind_some]
  rcases hcase with ⟨rfl, rfl⟩ | ⟨blocks', hok, hp, -, hfits, -⟩
  · exact ⟨_, 0, blocks, rfl, h⟩
  · rw [if_pos hp]
    refine ⟨_, p, blocks', rfl, ?_⟩
    rw [gain, if_neg hp]
    refine hok.store hapart List.mem_cons_self _ (Nat.le_refl p) ?_
    rw [List.length_replicate]
    omega

/-- A live pointer stays live when its block is shrunk. -/
theorem sShrinkBlock_spec (h : HeapOk regions ⟨heap, live⟩ blocks) (hapart : RegionsApart regions)
    {p size : Nat} (hp : p ∈ live) (hwrap : NoWrap size) :
    ∃ m' blocks', sShrinkBlock heap.mem p size = some m' ∧
      HeapOk regions ⟨{ heap with mem := m' }, live⟩ blocks' ∧
      HeadersFramed regions blocks blocks' heap.mem m' ∧
      (∀ q ∈ live, q ≠ p → sGetActualBlockSize m' q = sGetActualBlockSize heap.mem q) ∧
      (size ≤ sGetActualBlockSize heap.mem p → size ≤ sGetActualBlockSize m' p) := by
  obtain ⟨r, hr, a, ha, hfirst, hlast, rfl⟩ := (h.live p).mp hp
  obtain ⟨m', bs', hcall, hchanged, htaken, hnext, hfits⟩ :=
    (h.region r hr).shrink ha hfirst hlast hwrap
  have hwithin := hchanged.within (h.region r hr)
  obtain ⟨-, hstep, -⟩ := (h.region r hr).next_of_mem ha hlast
  obtain ⟨-, hstep', -⟩ := hchanged.ok.next_of_mem ((htaken a).mpr ha) hlast
  refine ⟨m', _, hcall, h.update hapart hr hchanged.ok hwithin fun q => ?_,
    .of_update hr hchanged.framed, fun q hq hne => ?_, fun hsize => ?_⟩
  · simp only [htaken]
    exact h.live_iff hr q
  · exact h.size_kept hapart hr hwithin (fun b hb hba => hnext b hb (by omega)) hq hne
  · rw [sGetActualBlockSize_eq hstep] at hsize
    rw [sGetActualBlockSize_eq hstep']
    omega

/-- A pointer that is returned again stays live. -/
theorem mem_gain_drop {p : Nat} (hp : p ∈ live) (hne : p ≠ 0) (q : Nat) :
    q ∈ gain p (drop p live) ↔ q ∈ live := by
  unfold gain drop
  rw [if_neg hne, List.mem_cons, List.mem_filter, decide_eq_true_eq]
  constructor
  · rintro (rfl | ⟨hq, -⟩)
    · exact hp
    · exact hq
  · intro hq
    by_cases hqp : q = p
    · exact .inl hqp
    · exact .inr ⟨hq, hqp⟩

theorem drop_of_notMem {p : Nat} (hp : p ∉ live) : drop p live = live := by
  refine List.filter_eq_self.mpr fun q hq => ?_
  rw [decide_eq_true_eq]
  rintro rfl
  exact hp hq

end

end Salloc
