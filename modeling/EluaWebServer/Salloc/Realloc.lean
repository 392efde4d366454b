import EluaWebServer.Salloc.Invariant

/-!
# Reallocating

A live pointer keeps its contents, as far as they fit, and so do all other live pointers, whether
its block stays as it is, is shrunk, or is copied to a larger one and freed.
-/

namespace Salloc

open Memory Chain

/-- What reallocating a live pointer has to do. -/
structure ReallocOk (regions : List Region) (s : State) (p size : Nat) (heap' : Heap)
    (newptr : Nat) : Prop where
  /-- The first bytes of the old block are those of the new one. -/
  contents : newptr ≠ 0 →
    loadBytes heap'.mem newptr (min (sGetActualBlockSize s.heap.mem p) size) =
      loadBytes s.heap.mem p (min (sGetActualBlockSize s.heap.mem p) size)
  room : newptr ≠ 0 → size ≤ sGetActualBlockSize heap'.mem newptr
  /-- The block is not moved if it is large enough. -/
  stays : size ≤ sGetActualBlockSize s.heap.mem p → newptr = p
  /-- Nothing has changed if there is no memory. -/
  failed : newptr = 0 → heap' = s.heap
  /-- The old block is freed only if another pointer is returned. -/
  kept : newptr = 0 ∨ newptr = p → ∃ blocks, HeapOk regions ⟨heap', s.live⟩ blocks
  moved : newptr ≠ 0 → newptr ≠ p → newptr ∉ s.live ∧
    ∃ blocks, HeapOk regions ⟨heap', newptr :: drop p s.live⟩ blocks
  /-- All other live pointers keep their blocks and what is in them. -/
  others : ∀ q ∈ s.live, q ≠ p →
    sGetActualBlockSize heap'.mem q = sGetActualBlockSize s.heap.mem q ∧
      loadBytes heap'.mem q (sGetActualBlockSize s.heap.mem q) =
        loadBytes s.heap.mem q (sGetActualBlockSize s.heap.mem q)

section

variable {regions : List Region} {blocks : Region → Blocks} {heap : Heap} {live : List Nat}

/-- What is written into a payload keeps the sizes of all blocks. -/
theorem HeapOk.store_size (h : HeapOk regions ⟨heap, live⟩ blocks) (hapart : RegionsApart regions)
    {p : Nat} (hp : p ∈ live) {bs : List UInt8} (hfits : bs.length ≤ sGetActualBlockSize heap.mem p)
    {q : Nat} (hq : q ∈ live) :
    sGetActualBlockSize (storeBytes heap.mem p bs) q = sGetActualBlockSize heap.mem q := by
  obtain ⟨r, hr, a, ha, -, -, rfl⟩ := (h.live q).mp hq
  have hout := h.header_apart hapart hp hr (mem_addresses ha)
  have hheader : header (storeBytes heap.mem p bs) a = header heap.mem a :=
    header_congr fun i _ _ => storeBytes_of_outside (by simp only at hout; omega)
  exact sGetActualBlockSize_congr (congrArg Node.next hheader)

/-- And the bytes of all other live pointers. -/
theorem HeapOk.store_payload (h : HeapOk regions ⟨heap, live⟩ blocks)
    (hapart : RegionsApart regions) {p : Nat} (hp : p ∈ live) {bs : List UInt8}
    (hfits : bs.length ≤ sGetActualBlockSize heap.mem p) {q : Nat} (hq : q ∈ live) (hne : q ≠ p) :
    loadBytes (storeBytes heap.mem p bs) q (sGetActualBlockSize heap.mem q) =
      loadBytes heap.mem q (sGetActualBlockSize heap.mem q) := by
  refine loadBytes_congr fun i hlo hhi => storeBytes_of_outside ?_
  have hout := h.payloadsApart hapart q hq p hp hne
  simp only at hout
  omega

/-- The block is large enough already. -/
theorem reallocOk_same (h : HeapOk regions ⟨heap, live⟩ blocks) {p size : Nat}
    (hsize : sGetActualBlockSize heap.mem p = size) :
    ReallocOk regions ⟨heap, live⟩ p size heap p where
  contents := fun _ => rfl
  room := fun _ => Nat.le_of_eq hsize.symm
  stays := fun _ => rfl
  failed := fun _ => rfl
  kept := fun _ => ⟨blocks, h⟩
  moved := fun _ hne => absurd rfl hne
  others := fun _ _ _ => ⟨rfl, rfl⟩

/-- The block is shrunk. -/
theorem reallocOk_shrink (h : HeapOk regions ⟨heap, live⟩ blocks) (hapart : RegionsApart regions)
    {p size : Nat} (hp : p ∈ live) (hless : size < sGetActualBlockSize heap.mem p)
    (hwrap : NoWrap size) :
    ∃ m', sShrinkBlock heap.mem p size = some m' ∧
      ReallocOk regions ⟨heap, live⟩ p size { heap with mem := m' } p := by
  obtain ⟨m', blocks', hcall, hok, hframe, hsizes, hfits⟩ := sShrinkBlock_spec h hapart hp hwrap
  have hroom := hfits (Nat.le_of_lt hless)
  refine ⟨m', hcall, ?_, fun _ => hroom, fun _ => rfl, fun h0 => absurd h0 (h.ne_zero hp),
    fun _ => ⟨blocks', hok⟩, fun _ hne => absurd rfl hne, fun q hq hne => ⟨hsizes q hq hne, ?_⟩⟩
  · intro _
    have hmin : min (sGetActualBlockSize heap.mem p) size = size := by omega
    simp only [hmin]
    exact h.payload_kept hok hapart hframe hp hp (Nat.le_of_lt hless) hroom
  · exact h.payload_kept hok hapart hframe hq hq (Nat.le_refl _)
      (Nat.le_of_eq (hsizes q hq hne).symm)

/-- The block is copied to a larger one, and freed. -/
theorem reallocOk_move (h : HeapOk regions ⟨heap, live⟩ blocks) (hapart : RegionsApart regions)
    {p size : Nat} (hp : p ∈ live) (hless : sGetActualBlockSize heap.mem p < size)
    {heap₁ : Heap} {newptr : Nat} {blocks₁ : Region → Blocks}
    (hok : HeapOk regions ⟨heap₁, newptr :: live⟩ blocks₁) (hnew : newptr ≠ 0)
    (hfresh : newptr ∉ live) (hfits : size ≤ sGetActualBlockSize heap₁.mem newptr)
    (hframe : HeadersFramed regions blocks blocks₁ heap.mem heap₁.mem)
    (hsizes : ∀ q ∈ live, sGetActualBlockSize heap₁.mem q = sGetActualBlockSize heap.mem q) :
    ∃ heap', sfree ⟨storeBytes heap₁.mem newptr (loadBytes heap₁.mem p
        (sGetActualBlockSize heap₁.mem p)), heap₁.initialized⟩ p = some heap' ∧
      ReallocOk regions ⟨heap, live⟩ p size heap' newptr := by
  have hdiff : newptr ≠ p := by
    rintro rfl
    exact hfresh hp
  have holdsize := hsizes p hp
  have hnewmem : newptr ∈ newptr :: live := List.mem_cons_self
  have hmem : ∀ {q}, q ∈ live → q ∈ newptr :: live := fun hq => List.mem_cons_of_mem newptr hq
  generalize hbytes : loadBytes heap₁.mem p (sGetActualBlockSize heap₁.mem p) = bytes
  have hlength : bytes.length = sGetActualBlockSize heap.mem p := by
    rw [← hbytes, length_loadBytes, holdsize]
  have hlengthfits : bytes.length ≤ sGetActualBlockSize heap₁.mem newptr := by omega
  -- copying, and what it keeps
  have hstored := hok.store hapart hnewmem bytes (Nat.le_refl newptr) (by omega)
  have hstoresize : ∀ q ∈ newptr :: live,
      sGetActualBlockSize (storeBytes heap₁.mem newptr bytes) q =
        sGetActualBlockSize heap₁.mem q :=
    fun q hq => hok.store_size hapart hnewmem hlengthfits hq
  -- freeing, and what it keeps
  obtain ⟨heap', blocks', hfree, hfreed, hfreeframe, hfreesizes⟩ :=
    sfree_spec hstored hapart (hmem hp)
  have hdrop : drop p (newptr :: live) = newptr :: drop p live := by
    rw [drop, drop, List.filter_cons_of_pos]
    simpa using hdiff
  have hkeptlive : ∀ q ∈ live, q ≠ p → q ∈ drop p (newptr :: live) := by
    intro q hq hne
    rw [drop, List.mem_filter, decide_eq_true_eq]
    exact ⟨hmem hq, hne⟩
  have hnewlive : newptr ∈ drop p (newptr :: live) := by
    rw [hdrop]
    exact List.mem_cons_self
  refine ⟨heap', hfree, fun _ => ?_, fun _ => ?_, fun hle => ?_, fun h0 => absurd h0 hnew,
    fun hor => ?_, fun _ _ => ⟨hfresh, blocks', hdrop ▸ hfreed⟩, fun q hq hne => ?_⟩
  · have hmin : min (sGetActualBlockSize heap.mem p) size = bytes.length := by omega
    have hnewsize := hfreesizes newptr hnewmem hdiff
    rw [hstoresize newptr hnewmem] at hnewsize
    simp only [hmin]
    rw [hstored.payload_kept hfreed hapart hfreeframe hnewmem hnewlive
      (by rw [hstoresize newptr hnewmem]; exact hlengthfits) (by omega), loadBytes_storeBytes,
      ← hbytes, length_loadBytes]
    exact h.payload_kept hok hapart hframe hp (hmem hp) (Nat.le_of_eq holdsize) (Nat.le_refl _)
  · rw [hfreesizes newptr hnewmem hdiff, hstoresize newptr hnewmem]
    exact hfits
  · simp only at hle
    omega
  · exact absurd hor (not_or.mpr ⟨hnew, hdiff⟩)
  · have hqsize : sGetActualBlockSize heap'.mem q = sGetActualBlockSize heap.mem q := by
      rw [hfreesizes q (hmem hq) hne, hstoresize q (hmem hq), hsizes q hq]
    refine ⟨hqsize, ?_⟩
    have hneq : q ≠ newptr := by
      rintro rfl
      exact hfresh hq
    have hstep₁ := h.payload_kept hok hapart hframe hq (hmem hq) (Nat.le_refl _)
      (Nat.le_of_eq (hsizes q hq).symm)
    have hstep₂ := hok.store_payload hapart hnewmem hlengthfits (hmem hq) hneq
    rw [hsizes q hq] at hstep₂
    have hstep₃ := hstored.payload_kept hfreed hapart hfreeframe (hmem hq) (hkeptlive q hq hne)
      (Nat.le_of_eq ((hstoresize q (hmem hq)).trans (hsizes q hq)).symm) (Nat.le_of_eq hqsize.symm)
    exact hstep₃.trans (hstep₂.trans hstep₁)

/-- Reallocating a live pointer, whether it stays or moves. -/
theorem srealloc_live (h : HeapOk regions ⟨heap, live⟩ blocks) (hapart : RegionsApart regions)
    {p size : Nat} (hp : p ∈ live) (hpos : 0 < size) (hwrap : NoWrap size) :
    ∃ heap' newptr, srealloc regions heap p size = some (heap', newptr) ∧
      ReallocOk regions ⟨heap, live⟩ p size heap' newptr := by
  have hne := h.ne_zero hp
  have hzero : size ≠ 0 := by omega
  simp only [srealloc, h.ensureInit, if_neg hne, if_neg hzero]
  by_cases heq : sGetActualBlockSize heap.mem p = size
  · rw [if_pos heq]
    exact ⟨heap, p, rfl, reallocOk_same h heq⟩
  rw [if_neg heq]
  by_cases hless : size < sGetActualBlockSize heap.mem p
  · obtain ⟨m', hshrink, hok⟩ := reallocOk_shrink h hapart hp hless hwrap
    rw [if_pos hless, hshrink]
    exact ⟨_, p, rfl, hok⟩
  · obtain ⟨heap₁, newptr, hcall, hcase⟩ := smalloc_spec h hapart hwrap
    rw [if_neg hless, hcall]
    rcases hcase with ⟨rfl, rfl⟩ | ⟨blocks₁, hok, hnew, hfresh, hfits, hframe, hsizes⟩
    · -- there is no memory
      refine ⟨_, 0, rfl, fun h0 => absurd rfl h0, fun h0 => absurd rfl h0, fun hle => ?_,
        fun _ => rfl, fun _ => ⟨blocks, h⟩, fun h0 => absurd rfl h0, fun _ _ _ => ⟨rfl, rfl⟩⟩
      simp only at hle
      omega
    · obtain ⟨heap', hfree, hmoved⟩ := reallocOk_move h hapart hp (by omega) hok hnew hfresh hfits
        hframe hsizes
      refine ⟨heap', newptr, ?_, hmoved⟩
      simp only [Option.bind_eq_bind, Option.bind_some, if_neg hnew, hfree]
      rfl

/-- Reallocating a live pointer, or null. -/
theorem srealloc_spec (h : HeapOk regions ⟨heap, live⟩ blocks) (hapart : RegionsApart regions)
    {p size : Nat} (hptr : p = 0 ∨ p ∈ live) (hwrap : NoWrap size) :
    ∃ heap' newptr blocks', srealloc regions heap p size = some (heap', newptr) ∧
      HeapOk regions
        ⟨heap', gain newptr (if newptr ≠ 0 ∨ size = 0 then drop p live else live)⟩ blocks' := by
  by_cases hnull : p = 0
  · obtain ⟨heap', newptr, blocks', hcall, hok⟩ := smalloc_gain h hapart hwrap
    subst hnull
    refine ⟨heap', newptr, blocks', ?_, hok.of_live fun q => ?_⟩
    · simp only [srealloc, h.ensureInit, if_true, hcall]
    · rw [drop_of_notMem fun hmem => h.ne_zero hmem rfl, ite_self]
  have hp := hptr.resolve_left hnull
  have hne := h.ne_zero hp
  by_cases hzero : size = 0
  · obtain ⟨heap', blocks', hfree, hok, -⟩ := sfree_spec h hapart hp
    simp only [srealloc, h.ensureInit, if_neg hne, if_pos hzero, hfree]
    exact ⟨heap', 0, blocks', rfl, by simpa [gain, hzero] using hok⟩
  obtain ⟨heap', newptr, hcall, hok⟩ := srealloc_live h hapart hp (by omega) hwrap
  by_cases hnew : newptr = 0
  · obtain ⟨blocks', hkept⟩ := hok.kept (.inl hnew)
    exact ⟨heap', newptr, blocks', hcall, by simpa [gain, hnew, hzero] using hkept⟩
  by_cases hsame : newptr = p
  · obtain ⟨blocks', hkept⟩ := hok.kept (.inr hsame)
    refine ⟨heap', newptr, blocks', hcall, hkept.of_live fun q => ?_⟩
    rw [if_pos (.inl hnew), hsame]
    exact mem_gain_drop hp hne q
  · obtain ⟨-, blocks', hmoved⟩ := hok.moved hnew hsame
    refine ⟨heap', newptr, blocks', hcall, ?_⟩
    rw [if_pos (.inl hnew), gain, if_neg hnew]
    exact hmoved

end

end Salloc
