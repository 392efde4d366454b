import EluaWebServer.Salloc.Runs

/-!
# Requests of any size

Adding the header, rounding up and multiplying are done in 32 bits.  A request whose size wraps is
served all the same when no free block is large enough for what is left of it: then the null pointer
is returned.
-/

namespace Salloc

open Memory Chain Loop

/-- The calls that ask for memory. -/
inductive Request where
  | smalloc (size : Nat)
  | scalloc (nmemb size : Nat)
  | srealloc (ptr size : Nat)

namespace Request

/-- The number of bytes that is asked for. -/
def bytes : Request → Nat
  | .smalloc size => size
  | .scalloc nmemb size => nmemb * size
  | .srealloc _ size => size

/-- And what the code makes of it before it looks for a block. -/
def asked : Request → Nat
  | .smalloc size => size
  | .scalloc nmemb size => nmemb * size % 2 ^ 32
  | .srealloc _ size => size

def call (regions : List Region) (h : Heap) : Request → Option (Heap × Nat)
  | .smalloc size => Salloc.smalloc regions h size
  | .scalloc nmemb size => Salloc.scalloc regions h nmemb size
  | .srealloc ptr size => Salloc.srealloc regions h ptr size

/-- Sizes have 32 bits, and a pointer is null or live. -/
def Ok (live : List Nat) : Request → Prop
  | .smalloc size => size < 2 ^ 32
  | .scalloc nmemb size => nmemb < 2 ^ 32 ∧ size < 2 ^ 32
  | .srealloc ptr size => (ptr = 0 ∨ ptr ∈ live) ∧ size < 2 ^ 32

end Request

/-- The block of a pointer has so many usable bytes, and they are inside a region. -/
def Offers (regions : List Region) (h : Heap) (p n : Nat) : Prop :=
  n ≤ sGetActualBlockSize h.mem p ∧
    ∃ r ∈ regions, r.first ≤ p ∧ p + sGetActualBlockSize h.mem p ≤ r.last

/-- `scalloc` stores zeros in the block that it returns, and nothing else after `smalloc`. -/
def Request.Zeroes (regions : List Region) (h h' : Heap) (p : Nat) : Request → Prop
  | .scalloc nmemb size =>
      let n := nmemb * size % 2 ^ 32
      ∃ h₁, Salloc.smalloc regions h n = some (h₁, p) ∧ (p = 0 → h' = h₁) ∧
        (p ≠ 0 → n ≤ sGetActualBlockSize h'.mem p ∧
          h' = { h₁ with mem := storeBytes h₁.mem p (List.replicate n 0) })
  | _ => True

/-- **A request is served**: the call ends, with the null pointer or a block that is large
enough. -/
def Served (regions : List Region) (h : Heap) (req : Request) : Prop :=
  ∃ h' p, req.call regions h = some (h', p) ∧ (p = 0 ∨ Offers regions h' p req.bytes) ∧
    req.Zeroes regions h h' p

/-- Some free block of a region is large enough for the rounded size, as it is computed. -/
def FitsSome (regions : List Region) (blocks : Region → Blocks) (m : Mem) (n : Nat) : Prop :=
  ∃ r ∈ regions, ∃ a, (a, false) ∈ blocks r ∧
    sActSize ((n + DYN_HEADER_SIZE) % 2 ^ 32) ≤ sGetBlockSize m a

/-! ## Searching -/

section

variable {m : Mem} {r : Region} {bs : Blocks}

/-- A region without a free block that is large enough. -/
theorem RegionOk.sGetFreeBlock_null (h : RegionOk m r bs) {n : Nat}
    (hnone : n = 0 ∨ ∀ a, (a, false) ∈ bs →
      sGetBlockSize m a < sActSize ((n + DYN_HEADER_SIZE) % 2 ^ 32)) :
    sGetFreeBlock m n r.first = some (m, 0) := by
  by_cases hn : n = 0
  · rw [sGetFreeBlock, if_pos hn]
  · obtain ⟨s, hloop, -, hiff⟩ := h.search (sActSize ((n + DYN_HEADER_SIZE) % 2 ^ 32))
    rw [sGetFreeBlock, if_neg hn]
    have hnull := hiff.mpr (hnone.resolve_left hn)
    simp only [hloop, Option.bind_eq_bind, Option.bind_some, if_pos hnull]
    rfl

/-- And one with such a block: the null pointer is not returned. -/
theorem RegionOk.sGetFreeBlock_ne_null (h : RegionOk m r bs) {n : Nat} (hn : n ≠ 0) {a : Nat}
    (ha : (a, false) ∈ bs) (hfits : sActSize ((n + DYN_HEADER_SIZE) % 2 ^ 32) ≤ sGetBlockSize m a)
    {m' : Mem} {p : Nat} (hget : sGetFreeBlock m n r.first = some (m', p)) : p ≠ 0 := by
  obtain ⟨s, hloop, -, hiff⟩ := h.search (sActSize ((n + DYN_HEADER_SIZE) % 2 ^ 32))
  have hfound : s.pblock ≠ 0 := fun h0 => Nat.not_lt.mpr hfits (hiff.mp h0 a ha)
  rw [sGetFreeBlock, if_neg hn] at hget
  simp only [hloop, Option.bind_eq_bind, Option.bind_some, if_neg hfound] at hget
  have hp : s.pblock + DYN_HEADER_SIZE = p := by
    split at hget
    · obtain ⟨m₁, -, hm₁⟩ := Option.bind_eq_some_iff.mp hget
      exact congrArg Prod.snd (Option.some.inj hm₁)
    · exact congrArg Prod.snd (Option.some.inj hget)
  rw [← hp, DYN_HEADER_SIZE]
  omega

/-- A split of size zero links the block to itself, and compaction does not end. -/
theorem splitBlock_zero {p : Nat} (hp : p % 8 = 0) (hlt : p < 2 ^ 32)
    (hne : sGetNextBlock m p ≠ p) : splitBlock m p 0 = none := by
  have hnext := sGetNextBlock_aligned m p
  simp only [splitBlock, Nat.add_zero]
  generalize hm₁ : sSetPrevBlock m p p = m₁
  have hprev₁ : (header m₁ p).prev = p := by rw [← hm₁, header_sSetPrevBlock m p hp hlt]
  generalize hq : sGetNextBlock m p = q at hne hnext
  have hqlt : q < 2 ^ 32 := by
    rw [← hq]
    exact UInt32.toNat_lt _
  generalize hm₂ : sSetNextBlock m₁ p q = m₂
  have hprev₂ : (header m₂ p).prev = p := by
    rw [← hm₂, header_sSetNextBlock m₁ p hnext hqlt, hprev₁]
  generalize hm₃ : sSetPrevBlock m₂ q p = m₃
  have hprev₃ : (header m₃ p).prev = p := by
    rw [← hm₃, (sameBut_sSetPrevBlock m₂ q p).header hnext hp (Ne.symm hne), hprev₂]
  generalize hm₄ : sSetNextBlock m₃ p p = m₄
  have hprev₄ : (header m₄ p).prev = p := by rw [← hm₄, header_sSetNextBlock m₃ p hp hlt, hprev₃]
  have hheader := header_sMarkBlockFree m₄ p
  have hfree : sIsBlockFree (sMarkBlockFree m₄ p) p = true := by
    have htag : (!sIsBlockFree (sMarkBlockFree m₄ p) p) = false := congrArg Node.tag hheader
    rwa [Bool.not_eq_false'] at htag
  have hfixed : sGetPrevBlock (sMarkBlockFree m₄ p) p = p := by
    have hprev : sGetPrevBlock (sMarkBlockFree m₄ p) p = (header m₄ p).prev :=
      congrArg Node.prev hheader
    rw [hprev, hprev₄]
  rw [sCompactFree]
  simp only [whileLoop_of_fixed hfree hfixed, Option.bind_eq_bind, Option.bind_none]

/-- **Sizes that round to zero**: the search does not end, if there is a free block and all of them
are large enough to be split. -/
theorem RegionOk.sGetFreeBlock_none (h : RegionOk m r bs) {n : Nat} (hn : n ≠ 0)
    (hzero : sActSize ((n + DYN_HEADER_SIZE) % 2 ^ 32) = 0) {a : Nat} (ha : (a, false) ∈ bs)
    (hlarge : ∀ b, (b, false) ∈ bs → DYN_MIN_SPLIT_SIZE ≤ sGetBlockSize m b) :
    sGetFreeBlock m n r.first = none := by
  obtain ⟨s, hloop, hfound, hiff⟩ := h.search (sActSize ((n + DYN_HEADER_SIZE) % 2 ^ 32))
  have hsome : s.pblock ≠ 0 := fun h0 => Nat.not_lt.mpr (hzero ▸ Nat.zero_le _) (hiff.mp h0 a ha)
  obtain ⟨hmem, hless, hminsize, -⟩ := hfound.resolve_left hsome
  obtain ⟨halign, -, hlt⟩ := h.layout.address _ (mem_addresses hmem)
  have hsize : DYN_MIN_SPLIT_SIZE ≤ s.minsize := by
    rw [hminsize, ← sGetBlockSize_eq hless]
    exact hlarge s.pblock hmem
  have hsplit : 0 < s.minsize ∧ DYN_MIN_SPLIT_SIZE ≤ s.minsize - 0 := by
    rw [DYN_MIN_SPLIT_SIZE] at hsize ⊢
    omega
  have hheader := header_sMarkBlockTaken m s.pblock
  have hnext : sGetNextBlock (sMarkBlockTaken m s.pblock) s.pblock = sGetNextBlock m s.pblock :=
    congrArg Node.next hheader
  have hloops := splitBlock_zero (m := sMarkBlockTaken m s.pblock) halign hlt
    (by rw [hnext]; omega)
  rw [hzero] at hloop
  rw [sGetFreeBlock, if_neg hn]
  simp only [hzero, hloop, Option.bind_eq_bind, Option.bind_some, if_neg hsome, if_pos hsplit,
    hloops, Option.bind_none]

end

/-! ## Null pointers -/

section

variable {regions : List Region} {blocks : Region → Blocks} {heap : Heap} {live : List Nat}

/-- No region has a block, or nothing is asked for. -/
theorem HeapOk.smallocLoop_null (h : HeapOk regions ⟨heap, live⟩ blocks) {n : Nat}
    (hnone : n = 0 ∨ ¬ FitsSome regions blocks heap.mem n) (rs : List Region)
    (hrs : ∀ r ∈ rs, r ∈ regions) : smallocLoop heap.mem n rs = some (heap.mem, 0) := by
  induction rs with
  | nil => rfl
  | cons r rs ih =>
      have hr := hrs r List.mem_cons_self
      have hsmall : n = 0 ∨ ∀ a, (a, false) ∈ blocks r →
          sGetBlockSize heap.mem a < sActSize ((n + DYN_HEADER_SIZE) % 2 ^ 32) := by
        refine hnone.imp_right fun hnone a ha => ?_
        by_contra hge
        exact hnone ⟨r, hr, a, ha, Nat.le_of_not_lt hge⟩
      rw [smallocLoop, (h.region r hr).sGetFreeBlock_null hsmall]
      exact ih fun r' hr' => hrs r' (List.mem_cons_of_mem r hr')

/-- A region has a block: if the search ends, it is not with the null pointer. -/
theorem HeapOk.smallocLoop_ne_null (h : HeapOk regions ⟨heap, live⟩ blocks) {n : Nat} (hn : n ≠ 0)
    (rs : List Region) (hrs : ∀ r ∈ rs, r ∈ regions)
    (hfits : FitsSome rs blocks heap.mem n) {m' : Mem} {p : Nat}
    (hcall : smallocLoop heap.mem n rs = some (m', p)) : p ≠ 0 := by
  induction rs with
  | nil =>
      obtain ⟨r, hr, -⟩ := hfits
      cases hr
  | cons r rs ih =>
      have hr := hrs r List.mem_cons_self
      have hrest : ∀ r' ∈ rs, r' ∈ regions := fun r' hr' => hrs r' (List.mem_cons_of_mem r hr')
      rw [smallocLoop] at hcall
      obtain ⟨⟨m₁, q⟩, hget, hcall⟩ := Option.bind_eq_some_iff.mp hcall
      replace hcall : (if q ≠ 0 then some (m₁, q) else smallocLoop m₁ n rs) = some (m', p) :=
        hcall
      by_cases hq : q = 0
      · -- the block is not in this region
        have hnone : ∀ a, (a, false) ∈ blocks r →
            sGetBlockSize heap.mem a < sActSize ((n + DYN_HEADER_SIZE) % 2 ^ 32) := by
          intro a ha
          by_contra hge
          exact (h.region r hr).sGetFreeBlock_ne_null hn ha (Nat.le_of_not_lt hge) hget hq
        rw [(h.region r hr).sGetFreeBlock_null (.inr hnone)] at hget
        obtain ⟨rfl, -⟩ := Prod.mk.inj (Option.some.inj hget)
        rw [if_neg (not_not.mpr hq)] at hcall
        refine ih hrest ?_ hcall
        obtain ⟨r', hr', a, ha, hle⟩ := hfits
        rcases List.mem_cons.mp hr' with rfl | hr'
        · exact absurd (hnone a ha) (Nat.not_lt.mpr hle)
        · exact ⟨r', hr', a, ha, hle⟩
      · rw [if_pos hq] at hcall
        obtain ⟨-, rfl⟩ := Prod.mk.inj (Option.some.inj hcall)
        exact hq

/-- `smalloc` returns the null pointer if nothing is asked for or no free block is large enough. -/
theorem HeapOk.smalloc_null (h : HeapOk regions ⟨heap, live⟩ blocks) {n : Nat}
    (hnone : n = 0 ∨ ¬ FitsSome regions blocks heap.mem n) :
    smalloc regions heap n = some (heap, 0) := by
  rw [smalloc, h.ensureInit, h.smallocLoop_null hnone regions fun _ hr => hr]
  rfl

/-- And only then. -/
theorem HeapOk.of_smalloc_null (h : HeapOk regions ⟨heap, live⟩ blocks) {n : Nat} {heap' : Heap}
    (hcall : smalloc regions heap n = some (heap', 0)) :
    n = 0 ∨ ¬ FitsSome regions blocks heap.mem n := by
  rw [smalloc, h.ensureInit] at hcall
  obtain ⟨⟨m', p⟩, hloop, hcall⟩ := Option.bind_eq_some_iff.mp hcall
  obtain ⟨-, rfl⟩ := Prod.mk.inj (Option.some.inj hcall)
  by_contra hneither
  rw [not_or, not_not] at hneither
  exact h.smallocLoop_ne_null hneither.1 regions (fun _ hr => hr) hneither.2 hloop rfl

/-- The block of a live pointer lies in a region. -/
theorem HeapOk.offers (h : HeapOk regions ⟨heap, live⟩ blocks) {p : Nat} (hp : p ∈ live) {n : Nat}
    (hn : n ≤ sGetActualBlockSize heap.mem p) : Offers regions heap p n := by
  refine ⟨hn, ?_⟩
  obtain ⟨r, hr, a, ha, -, hlast, rfl⟩ := (h.live p).mp hp
  obtain ⟨hmem, hstep, -⟩ := (h.region r hr).next_of_mem ha hlast
  have hin := (h.region r hr).inside (mem_addresses ha)
  have hnext := (h.region r hr).inside hmem
  refine ⟨r, hr, ?_, ?_⟩
  · simp only at hin
    omega
  · rw [sGetActualBlockSize_eq hstep]
    omega

/-- What a block can offer does not wrap. -/
theorem noWrap_of_offers {p n : Nat} (h : Offers regions heap p n) : NoWrap n := by
  obtain ⟨hn, r, -, hlo, hhi⟩ := h
  have hpos := r.first_pos
  have hfirst := r.first_aligned
  have hlast := r.last_aligned
  have hlt := r.last_lt
  rw [NoWrap, actSize]
  omega

/-! ## Requests on an initialised heap -/

/-- `scalloc` clears what `smalloc` has returned. -/
theorem HeapOk.scalloc_eq (h : HeapOk regions ⟨heap, live⟩ blocks) {nmemb size : Nat}
    {heap₁ : Heap} {p : Nat}
    (hcall : smalloc regions heap (nmemb * size % 2 ^ 32) = some (heap₁, p)) :
    scalloc regions heap nmemb size = if p ≠ 0 then
        some (⟨storeBytes heap₁.mem p (List.replicate (nmemb * size % 2 ^ 32) 0),
          heap₁.initialized⟩, p)
      else some (heap₁, p) := by
  simp only [scalloc, h.ensureInit, hcall, Option.bind_eq_bind, Option.bind_some]
  rfl

/-- `srealloc` asks for a block if that of the pointer is too small. -/
theorem HeapOk.srealloc_eq (h : HeapOk regions ⟨heap, live⟩ blocks) {ptr size : Nat}
    (hptr : ptr ∈ live) (hless : sGetActualBlockSize heap.mem ptr < size) {heap₁ : Heap}
    {newptr : Nat} (hcall : smalloc regions heap size = some (heap₁, newptr)) :
    srealloc regions heap ptr size = if newptr = 0 then some (heap₁, 0) else do
      let heap₂ ← sfree ⟨storeBytes heap₁.mem newptr (loadBytes heap₁.mem ptr
        (sGetActualBlockSize heap₁.mem ptr)), heap₁.initialized⟩ ptr
      return (heap₂, newptr) := by
  have hsize : size ≠ 0 := by omega
  have hne : sGetActualBlockSize heap.mem ptr ≠ size := by omega
  have hnotless : ¬ size < sGetActualBlockSize heap.mem ptr := by omega
  simp only [srealloc, h.ensureInit, if_neg (h.ne_zero hptr), if_neg hsize, if_neg hne,
    if_neg hnotless, hcall, Option.bind_eq_bind, Option.bind_some]
  rfl

/-- A request that does not wrap is served. -/
theorem HeapOk.served_of_noWrap (h : HeapOk regions ⟨heap, live⟩ blocks)
    (hapart : RegionsApart regions) {req : Request} (hok : req.Ok live) (hwrap : NoWrap req.bytes) :
    Served regions heap req := by
  cases req with
  | smalloc size =>
      obtain ⟨heap', p, hcall, hcase⟩ := smalloc_spec h hapart hwrap
      refine ⟨heap', p, hcall, ?_, trivial⟩
      rcases hcase with ⟨rfl, -⟩ | ⟨blocks', hok', -, -, hfits, -⟩
      · exact .inl rfl
      · exact .inr (hok'.offers List.mem_cons_self hfits)
  | scalloc nmemb size =>
      replace hwrap : NoWrap (nmemb * size) := hwrap
      have hsize : nmemb * size % 2 ^ 32 = nmemb * size := by
        rw [NoWrap, actSize] at hwrap
        exact Nat.mod_eq_of_lt (by omega)
      obtain ⟨heap₁, p, hcall, hcase⟩ := smalloc_spec h hapart hwrap
      rw [← hsize] at hcall
      have hscalloc := h.scalloc_eq hcall
      rcases hcase with ⟨rfl, -⟩ | ⟨blocks', hok', hp, -, hfits, -⟩
      · exact ⟨heap₁, 0, hscalloc, .inl rfl, heap₁, hcall, fun _ => rfl, fun h0 => absurd rfl h0⟩
      · rw [if_pos hp] at hscalloc
        rw [← hsize] at hfits
        generalize hzeros : List.replicate (nmemb * size % 2 ^ 32) (0 : UInt8) = zeros at hscalloc
        have hlen : zeros.length ≤ sGetActualBlockSize heap₁.mem p := by
          rw [← hzeros, List.length_replicate]
          exact hfits
        have hsame := hok'.store_size hapart List.mem_cons_self hlen List.mem_cons_self
        have hstored := hok'.store hapart List.mem_cons_self zeros (Nat.le_refl p) (by omega)
        have hroom : nmemb * size % 2 ^ 32 ≤
            sGetActualBlockSize (storeBytes heap₁.mem p zeros) p := by
          rw [hsame]
          exact hfits
        refine ⟨_, p, hscalloc, .inr (hstored.offers List.mem_cons_self ?_), heap₁, hcall,
          fun h0 => absurd h0 hp, fun _ => ⟨hroom, by rw [hzeros]⟩⟩
        rw [hsize] at hroom
        exact hroom
  | srealloc ptr size =>
      replace hwrap : NoWrap size := hwrap
      obtain ⟨hptr, -⟩ := hok
      rcases hptr with rfl | hptr
      · obtain ⟨heap', p, hcall, hcase⟩ := smalloc_spec h hapart hwrap
        refine ⟨heap', p, ?_, ?_, trivial⟩
        · simp only [Request.call, srealloc, h.ensureInit, if_true, hcall]
        · rcases hcase with ⟨rfl, -⟩ | ⟨blocks', hok', -, -, hfits, -⟩
          · exact .inl rfl
          · exact .inr (hok'.offers List.mem_cons_self hfits)
      by_cases hsize : size = 0
      · obtain ⟨heap', blocks', hfree, -⟩ := sfree_spec h hapart hptr
        refine ⟨heap', 0, ?_, .inl rfl, trivial⟩
        simp only [Request.call, srealloc, h.ensureInit, if_neg (h.ne_zero hptr), if_pos hsize,
          hfree]
        rfl
      · obtain ⟨heap', newptr, hcall, hrealloc⟩ := srealloc_live h hapart hptr (by omega) hwrap
        refine ⟨heap', newptr, hcall, ?_, trivial⟩
        by_cases hnew : newptr = 0
        · exact .inl hnew
        right
        by_cases hsame : newptr = ptr
        · obtain ⟨blocks', hkept⟩ := hrealloc.kept (.inr hsame)
          exact hkept.offers (hsame ▸ hptr) (hrealloc.room hnew)
        · obtain ⟨-, blocks', hmoved⟩ := hrealloc.moved hnew hsame
          exact hmoved.offers List.mem_cons_self (hrealloc.room hnew)

/-- A request for which there is no block is served with the null pointer. -/
theorem HeapOk.served_of_null (h : HeapOk regions ⟨heap, live⟩ blocks)
    {req : Request} (hok : req.Ok live) (hwrap : ¬ NoWrap req.bytes)
    (hnone : req.asked = 0 ∨ ¬ FitsSome regions blocks heap.mem req.asked) :
    Served regions heap req := by
  have hcall := h.smalloc_null hnone
  cases req with
  | smalloc size => exact ⟨heap, 0, hcall, .inl rfl, trivial⟩
  | scalloc nmemb size =>
      exact ⟨heap, 0, h.scalloc_eq hcall, .inl rfl, heap, hcall, fun _ => rfl,
        fun h0 => absurd rfl h0⟩
  | srealloc ptr size =>
      refine ⟨heap, 0, ?_, .inl rfl, trivial⟩
      obtain ⟨rfl | hptr, -⟩ := hok
      · simp only [Request.call, srealloc, h.ensureInit, if_true]
        exact hcall
      · -- the block of a live pointer is too small
        have hless : sGetActualBlockSize heap.mem ptr < size := by
          by_contra hge
          exact hwrap (noWrap_of_offers (h.offers hptr (Nat.le_of_not_lt hge)))
        exact h.srealloc_eq hptr hless hcall

/-- And there is no block for a request that wraps and is served. -/
theorem HeapOk.null_of_served (h : HeapOk regions ⟨heap, live⟩ blocks) {req : Request}
    (hok : req.Ok live) (hwrap : ¬ NoWrap req.bytes) (hserved : Served regions heap req) :
    req.asked = 0 ∨ ¬ FitsSome regions blocks heap.mem req.asked := by
  obtain ⟨heap', p, hcall, hnull, hzeroes⟩ := hserved
  obtain rfl := hnull.resolve_right fun hoffers => hwrap (noWrap_of_offers hoffers)
  cases req with
  | smalloc size => exact h.of_smalloc_null hcall
  | scalloc nmemb size =>
      obtain ⟨heap₁, hsmalloc, -⟩ := hzeroes
      exact h.of_smalloc_null hsmalloc
  | srealloc ptr size =>
      obtain ⟨rfl | hptr, -⟩ := hok
      · simp only [Request.call, srealloc, h.ensureInit, if_true] at hcall
        exact h.of_smalloc_null hcall
      · have hless : sGetActualBlockSize heap.mem ptr < size := by
          by_contra hge
          exact hwrap (noWrap_of_offers (h.offers hptr (Nat.le_of_not_lt hge)))
        cases hsmalloc : smalloc regions heap size with
        | none =>
            have hsize : size ≠ 0 := by omega
            have hne : sGetActualBlockSize heap.mem ptr ≠ size := by omega
            have hnotless : ¬ size < sGetActualBlockSize heap.mem ptr := by omega
            simp only [Request.call, srealloc, h.ensureInit, if_neg (h.ne_zero hptr), if_neg hsize,
              if_neg hne, if_neg hnotless, hsmalloc] at hcall
            cases hcall
        | some result =>
            obtain ⟨heap₁, newptr⟩ := result
            have hrealloc := h.srealloc_eq hptr hless hsmalloc
            rw [show srealloc regions heap ptr size = some (heap', 0) from hcall] at hrealloc
            by_cases hnew : newptr = 0
            · subst hnew
              exact h.of_smalloc_null hsmalloc
            · rw [if_neg hnew] at hrealloc
              obtain ⟨heap₂, -, hreturn⟩ := Option.bind_eq_some_iff.mp hrealloc.symm
              exact absurd (congrArg Prod.snd (Option.some.inj hreturn)) hnew

end

/-! ## Requests on any heap -/

section

variable {regions : List Region} {heap : Heap}

theorem ensureInit_ensureInit (regions : List Region) (heap : Heap) :
    ensureInit regions (ensureInit regions heap) = ensureInit regions heap := by
  cases hinit : heap.initialized with
  | false =>
      have hensure : ensureInit regions heap = sInit regions heap := by
        rw [ensureInit, hinit]
        rfl
      rw [hensure]
      rfl
  | true =>
      have hensure : ensureInit regions heap = heap := if_pos hinit
      rw [hensure, hensure]

/-- The calls begin by initialising the heap if it is not. -/
theorem served_ensureInit (req : Request) :
    Served regions (ensureInit regions heap) req ↔ Served regions heap req := by
  have hsmalloc (n : Nat) :
      smalloc regions (ensureInit regions heap) n = smalloc regions heap n := by
    rw [smalloc, smalloc, ensureInit_ensureInit]
  cases req with
  | smalloc size =>
      simp only [Served, Request.call, Request.Zeroes, hsmalloc]
  | scalloc nmemb size =>
      simp only [Served, Request.call, Request.Zeroes, hsmalloc, scalloc, ensureInit_ensureInit]
  | srealloc ptr size =>
      simp only [Served, Request.call, Request.Zeroes, hsmalloc, srealloc, ensureInit_ensureInit]

end

/-- **Requests of any size** are served exactly if the size does not wrap, or what is left of it
when it is multiplied is zero, or no free block is large enough for what is left of it when it is
rounded up. -/
theorem served_iff {regions : List Region} (hapart : RegionsApart regions) {heap : Heap}
    {live : List Nat} {blocks : Region → Blocks}
    (h : HeapOk regions ⟨ensureInit regions heap, live⟩ blocks) {req : Request} (hok : req.Ok live) :
    Served regions heap req ↔
      NoWrap req.bytes ∨ req.asked = 0 ∨
        ¬ FitsSome regions blocks (ensureInit regions heap).mem req.asked := by
  rw [← served_ensureInit]
  by_cases hwrap : NoWrap req.bytes
  · exact iff_of_true (h.served_of_noWrap hapart hok hwrap) (.inl hwrap)
  · rw [or_iff_right hwrap]
    exact ⟨h.null_of_served hok hwrap, h.served_of_null hok hwrap⟩

/-- Four times five bytes. -/
theorem served_twenty :
    Served [internalRam, externalRam]
      (State.init [internalRam, externalRam] ⟨fun _ => 0xFF⟩).heap (.scalloc 4 5) := by
  have hapart : RegionsApart [internalRam, externalRam] := by decide
  obtain ⟨⟨blocks, hok⟩, -⟩ := init_wellFormed hapart ⟨fun _ => 0xFF⟩
  have hensured : HeapOk [internalRam, externalRam] ⟨ensureInit [internalRam, externalRam]
      (State.init [internalRam, externalRam] ⟨fun _ => 0xFF⟩).heap, []⟩ blocks := hok
  have hreq : (Request.scalloc 4 5).Ok [] := ⟨by decide, by decide⟩
  exact (served_iff hapart hensured hreq).mpr (.inl (by decide))

/-- For `smalloc( 0xFFFFFFFF )` a block without a usable byte is returned. -/
theorem not_served_wrap :
    ¬ Served [internalRam] ⟨⟨fun _ => 0xFF⟩, false⟩ (.smalloc 0xFFFFFFFF) := by
  rintro ⟨heap', p, hcall, hor, -⟩
  replace hcall : smalloc [internalRam] ⟨⟨fun _ => 0xFF⟩, false⟩ 0xFFFFFFFF = some (heap', p) :=
    hcall
  have hresult : (smalloc [internalRam] ⟨⟨fun _ => 0xFF⟩, false⟩ 0xFFFFFFFF).map
      (fun result => (result.2, sGetActualBlockSize result.1.mem result.2)) = some (24, 0) := by
    decide +kernel
  rw [hcall] at hresult
  obtain ⟨rfl, hsize⟩ : p = 24 ∧ sGetActualBlockSize heap'.mem p = 0 :=
    Prod.mk.inj (Option.some.inj hresult)
  rcases hor with h0 | ⟨hbytes, -⟩
  · cases h0
  · rw [hsize] at hbytes
    exact absurd hbytes (by decide)

end Salloc
