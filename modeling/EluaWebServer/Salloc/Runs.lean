import EluaWebServer.Salloc.Realloc

/-!
# Runs of the allocator

`s_init` builds the invariant on any memory, and every call preserves it, so
it holds after any sequence of calls.
-/

namespace Salloc

open Memory Chain

/-! ## Initialisation -/

/-- The blocks of a region after `s_init`. -/
def initialBlocks (r : Region) : Blocks :=
  [(r.first, true), (r.first + DYN_SIZE_MULT, false), (r.last - 8, true)]

section

variable (m : Mem) (r : Region)

/-- Where the three blocks of an empty region are. -/
theorem initialBlocks_layout : Layout (addresses (initialBlocks r)) := by
  have hsize := r.size
  have hfirst := r.first_aligned
  have hlast := r.last_aligned
  have hpos := r.first_pos
  have hlt := r.last_lt
  refine ⟨?_, ?_⟩
  · simp only [addresses, initialBlocks, DYN_SIZE_MULT, List.map_cons, List.map_nil,
      List.pairwise_cons, List.mem_cons, List.not_mem_nil, or_false, forall_eq_or_imp, forall_eq]
    refine ⟨⟨by omega, by omega⟩, by omega, ?_⟩
    simp
  · simp only [addresses, initialBlocks, DYN_SIZE_MULT, List.map_cons, List.map_nil,
      List.mem_cons, List.not_mem_nil, or_false, forall_eq_or_imp, forall_eq]
    refine ⟨⟨by omega, by omega, by omega⟩, ⟨by omega, by omega, by omega⟩, by omega, by omega,
      by omega⟩

/-- The headers that `s_init` writes. -/
theorem initRegion_headers :
    header (initRegion m r) r.first = ⟨r.first + 8, 0, true⟩ ∧
      header (initRegion m r) (r.first + 8) = ⟨r.last - 8, r.first, false⟩ ∧
      header (initRegion m r) (r.last - 8) = ⟨0, r.first + 8, true⟩ := by
  have hsize := r.size
  have hfirst := r.first_aligned
  have hlast := r.last_aligned
  have hlt := r.last_lt
  have hguard : r.first + (r.last - r.first) - 8 = r.last - 8 := by omega
  have hc : (r.first + 8) % 8 = 0 := by omega
  have he : (r.last - 8) % 8 = 0 := by omega
  have hfc : r.first ≠ r.first + 8 := by omega
  have hfe : r.first ≠ r.last - 8 := by omega
  have hce : r.first + 8 ≠ r.last - 8 := by omega
  simp only [initRegion, DYN_SIZE_MULT, hguard]
  refine ⟨?_, ?_, ?_⟩
  · rw [(sameBut_sMarkBlockFree _ _).header hc hfirst hfc,
      (sameBut_sMarkBlockTaken _ _).header he hfirst hfe, header_sMarkBlockTaken,
      (sameBut_sCreateNewBlock _ _ _ _).header he hfirst hfe,
      (sameBut_sCreateNewBlock _ _ _ _).header hc hfirst hfc,
      header_sCreateNewBlock _ _ hc (by omega) (by omega) (by omega)]
  · rw [header_sMarkBlockFree, (sameBut_sMarkBlockTaken _ _).header he hc hce,
      (sameBut_sMarkBlockTaken _ _).header hfirst hc hfc.symm,
      (sameBut_sCreateNewBlock _ _ _ _).header he hc hce,
      header_sCreateNewBlock _ _ he (by omega) hfirst (by omega)]
  · rw [(sameBut_sMarkBlockFree _ _).header hc he hce.symm, header_sMarkBlockTaken,
      (sameBut_sMarkBlockTaken _ _).header hfirst he hfe.symm,
      header_sCreateNewBlock _ _ (by omega) (by omega) hc (by omega)]

theorem initRegion_within : Within r m (initRegion m r) := by
  have hsize := r.size
  intro i hi
  have hguard : r.first + (r.last - r.first) - 8 = r.last - 8 := by omega
  simp only [initRegion, DYN_SIZE_MULT, hguard]
  rw [sameBut_sMarkBlockFree _ _ i (by omega), sameBut_sMarkBlockTaken _ _ i (by omega),
    sameBut_sMarkBlockTaken _ _ i (by omega), sameBut_sCreateNewBlock _ _ _ _ i (by omega),
    sameBut_sCreateNewBlock _ _ _ _ i (by omega), sameBut_sCreateNewBlock _ _ _ _ i (by omega)]

/-- A region after `s_init`: one free block between the guards. -/
theorem initRegion_spec : RegionOk (initRegion m r) r (initialBlocks r) := by
  obtain ⟨hfirst, hblock, hlast⟩ := initRegion_headers m r
  refine ⟨⟨hfirst, hblock, hlast, trivial⟩, initialBlocks_layout r, ⟨_, rfl, rfl⟩, rfl, ?_⟩
  exact .cons_cons (.inl rfl) (.cons_cons (.inr rfl) (.singleton _))

end

/-- Initialising further regions leaves the earlier ones. -/
theorem foldl_initRegion_of_apart {m : Mem} {r : Region} {bs : Blocks} (h : RegionOk m r bs)
    {rs : List Region} (hapart : ∀ r' ∈ rs, r.last ≤ r'.first ∨ r'.last ≤ r.first) :
    RegionOk (rs.foldl initRegion m) r bs := by
  induction rs generalizing m with
  | nil => exact h
  | cons r' rs ih =>
      refine ih (h.of_within (initRegion_within m r') (hapart r' List.mem_cons_self).symm) ?_
      exact fun r'' hr'' => hapart r'' (List.mem_cons_of_mem r' hr'')

theorem foldl_initRegion_spec {m : Mem} {regions : List Region} (hapart : RegionsApart regions) :
    ∀ r ∈ regions, RegionOk (regions.foldl initRegion m) r (initialBlocks r) := by
  induction regions generalizing m with
  | nil => exact fun r hr => absurd hr List.not_mem_nil
  | cons r rs ih =>
      obtain ⟨hhead, htail⟩ := List.pairwise_cons.mp hapart
      intro r' hr'
      rcases List.mem_cons.mp hr' with rfl | hr'
      · exact foldl_initRegion_of_apart (initRegion_spec m r') hhead
      · exact ih htail r' hr'

/-- `s_init` establishes the invariant. -/
theorem init_wellFormed {regions : List Region} (hapart : RegionsApart regions) (m : Mem) :
    WellFormed regions (State.init regions m) := by
  have hok : HeapOk regions (State.init regions m) initialBlocks := by
    refine ⟨rfl, foldl_initRegion_spec hapart, fun ptr => ⟨fun hp => absurd hp List.not_mem_nil, ?_⟩⟩
    rintro ⟨r, -, a, ha, hfirst, hlast, -⟩
    simp only [initialBlocks, List.mem_cons, Prod.mk.injEq, List.not_mem_nil, or_false, and_true,
      Bool.true_eq_false, and_false, false_or] at ha
    exact (ha.elim hfirst hlast).elim
  exact ⟨⟨_, hok⟩, hok.payloadsApart hapart⟩

/-! ## Steps and runs -/

/-- Every call ends and preserves the invariant. -/
theorem step_wellFormed {regions : List Region} (hapart : RegionsApart regions) {s : State}
    {c : Call} (h : WellFormed regions s) (hc : CallOk s c) :
    ∃ s', step regions s c = some s' ∧ WellFormed regions s' := by
  obtain ⟨⟨blocks, hok⟩, -⟩ := h
  obtain ⟨heap, live⟩ := s
  have hdone : ∀ {s' blocks'}, step regions ⟨heap, live⟩ c = some s' → HeapOk regions s' blocks' →
      ∃ s', step regions ⟨heap, live⟩ c = some s' ∧ WellFormed regions s' :=
    fun hstep hok' => ⟨_, hstep, ⟨_, hok'⟩, hok'.payloadsApart hapart⟩
  cases c with
  | smalloc size =>
      obtain ⟨heap', p, blocks', hcall, hok'⟩ := smalloc_gain hok hapart hc
      exact hdone (by rw [step, hcall]; rfl) hok'
  | scalloc nmemb size =>
      obtain ⟨heap', p, blocks', hcall, hok'⟩ := scalloc_spec hok hapart hc
      exact hdone (by rw [step, hcall]; rfl) hok'
  | sfree ptr =>
      obtain ⟨heap', blocks', hcall, hok', -⟩ := sfree_spec hok hapart hc
      exact hdone (by rw [step, hcall]; rfl) hok'
  | srealloc ptr size =>
      obtain ⟨hptr, hwrap⟩ := hc
      obtain ⟨heap', p, blocks', hcall, hok'⟩ := srealloc_spec hok hapart hptr hwrap
      exact hdone (by rw [step, hcall]; rfl) hok'
  | write addr b =>
      obtain ⟨p, hp, hlo, hhi⟩ := hc
      exact hdone rfl (hok.store hapart hp [b] hlo hhi)

/-- **The heap invariant.**  After `s_init` on any memory, every sequence of
calls in which only live pointers are freed or reallocated and no size wraps
ends, and leaves every region a chain of blocks that tiles it, without free
neighbours, in which the live pointers are the taken blocks between the
guards. -/
theorem salloc_wellFormed {regions : List Region} (hapart : RegionsApart regions) (m : Mem)
    {calls : List Call}
    (hcalls : Transition.Conforming (step regions) CallOk (State.init regions m) calls) :
    ∃ s, Transition.run (step regions) (State.init regions m) calls = some s ∧
      WellFormed regions s :=
  Transition.run_of_total (fun _ _ => step_wellFormed hapart) (init_wellFormed hapart m) hcalls

/-- A region with room for a few blocks, and one for a single small block. -/
def internalRam : Region := ⟨8, 104, by decide, by decide, by decide, by decide, by decide⟩
def externalRam : Region := ⟨128, 160, by decide, by decide, by decide, by decide, by decide⟩

theorem salloc_wellFormed_two_regions :
    ∃ s, Transition.run (step [internalRam, externalRam])
        (State.init [internalRam, externalRam] ⟨fun _ => 0xFF⟩)
        [.smalloc 9, .scalloc 2 4, .write 24 7, .srealloc 24 20, .srealloc 64 40, .sfree 48] =
          some s ∧
      WellFormed [internalRam, externalRam] s :=
  salloc_wellFormed (by decide) _ (by decide +kernel)

/-- **The contract of `srealloc`**, for every well-formed heap, live pointer and size that does not
wrap. -/
theorem srealloc_contract {regions : List Region} (hapart : RegionsApart regions) {s : State}
    (h : WellFormed regions s) {p size : Nat} (hp : p ∈ s.live) (hpos : 0 < size)
    (hwrap : NoWrap size) :
    ∃ heap' newptr, srealloc regions s.heap p size = some (heap', newptr) ∧
      ReallocOk regions s p size heap' newptr := by
  obtain ⟨⟨blocks, hok⟩, -⟩ := h
  exact srealloc_live hok hapart hp hpos hwrap

/-- The first block, of nine bytes, has to grow. -/
theorem srealloc_contract_grown :
    ∃ s heap' newptr,
      step [internalRam, externalRam] (State.init [internalRam, externalRam] ⟨fun _ => 0xFF⟩)
        (.smalloc 9) = some s ∧
      srealloc [internalRam, externalRam] s.heap 24 20 = some (heap', newptr) ∧
      ReallocOk [internalRam, externalRam] s 24 20 heap' newptr := by
  have hapart : RegionsApart [internalRam, externalRam] := by decide
  obtain ⟨s, hstep, hwell⟩ := step_wellFormed hapart
    (init_wellFormed hapart ⟨fun _ => 0xFF⟩) (c := .smalloc 9) (by decide)
  have hlive : (step [internalRam, externalRam]
      (State.init [internalRam, externalRam] ⟨fun _ => 0xFF⟩) (.smalloc 9)).map State.live =
        some [24] := by decide +kernel
  rw [hstep] at hlive
  have hp : 24 ∈ s.live := by
    rw [Option.some.inj hlive]
    exact List.mem_cons_self
  obtain ⟨heap', newptr, hcall, hok⟩ :=
    srealloc_contract hapart hwell hp (show 0 < 20 by decide) (by decide)
  exact ⟨s, heap', newptr, hstep, hcall, hok⟩

end Salloc
