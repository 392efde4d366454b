import EluaWebServer.Salloc.Header

/-!
# Lists of blocks

The block list of a region as a doubly linked chain of addresses and taken
bits, and what freeing, splitting and searching do to it.
-/

namespace Salloc

open Memory Chain Loop

abbrev Blocks := List (Nat × Bool)

/-- Ascending addresses that blocks can have. -/
structure Layout (as : List Nat) : Prop where
  sorted : as.Pairwise (· < ·)
  address : ∀ a ∈ as, a % 8 = 0 ∧ 0 < a ∧ a < 2 ^ 32

def addresses (bs : Blocks) : List Nat := bs.map (·.1)

/-- Only headers at the addresses may differ. -/
def Framed (as : List Nat) (m m' : Mem) : Prop :=
  ∀ i, (∀ a ∈ as, i < a ∨ a + 8 ≤ i) → m' i = m i

theorem Framed.trans {as : List Nat} {m₁ m₂ m₃ : Mem} (h : Framed as m₁ m₂)
    (h' : Framed as m₂ m₃) : Framed as m₁ m₃ :=
  fun i hi => (h' i hi).trans (h i hi)

theorem Framed.of_subset {as as' : List Nat} {m m' : Mem} (h : Framed as m m')
    (hsub : ∀ a ∈ as, a ∈ as') : Framed as' m m' :=
  fun i hi => h i fun a ha => hi a (hsub a ha)

theorem SameBut.framed {as : List Nat} {a : Nat} {m m' : Mem} (h : SameBut a m m')
    (ha : a ∈ as) : Framed as m m' :=
  fun i hi => h i (hi a ha)

/-! ## Layouts -/

theorem mem_addresses {bs : Blocks} {b : Nat × Bool} (h : b ∈ bs) : b.1 ∈ addresses bs :=
  List.mem_map_of_mem h

theorem Layout.of_sublist {as as' : List Nat} (h : Layout as) (hsub : as'.Sublist as) :
    Layout as' :=
  ⟨h.sorted.sublist hsub, fun a ha => h.address a (hsub.subset ha)⟩

/-- The blocks before and after a block. -/
theorem Layout.around {xs ys : Blocks} {p : Nat} {t : Bool}
    (h : Layout (addresses (xs ++ (p, t) :: ys))) :
    (∀ b ∈ xs, b.1 < p) ∧ ∀ b ∈ ys, p < b.1 := by
  have hsorted := List.pairwise_map.mp h.sorted
  obtain ⟨-, hcons, hcross⟩ := List.pairwise_append.mp hsorted
  refine ⟨fun b hb => hcross b hb (p, t) List.mem_cons_self, fun b hb => ?_⟩
  exact (List.pairwise_cons.mp hcons).1 b hb

theorem Layout.length_le {as : List Nat} (h : Layout as) {lo : Nat} (hlo : lo ≤ 2 ^ 32)
    (hge : ∀ a ∈ as, lo ≤ a) : lo + 8 * as.length ≤ 2 ^ 32 := by
  induction as generalizing lo with
  | nil =>
      rw [List.length_nil]
      omega
  | cons a as ih =>
      obtain ⟨hbelow, hsorted⟩ := List.pairwise_cons.mp h.sorted
      obtain ⟨halign, -, hlt⟩ := h.address a List.mem_cons_self
      have hge' := hge a List.mem_cons_self
      have habove : ∀ c ∈ as, a + 8 ≤ c := by
        intro c hc
        have hac := hbelow c hc
        obtain ⟨hcalign, -⟩ := h.address c (List.mem_cons_of_mem a hc)
        omega
      have hrest := ih ⟨hsorted, fun c hc => h.address c (List.mem_cons_of_mem a hc)⟩
        (by omega) habove
      rw [List.length_cons]
      omega

/-- The loops over the blocks end in time. -/
theorem Layout.length_lt {bs : Blocks} (h : Layout (addresses bs)) : bs.length < LOOP_BOUND := by
  have hge : ∀ a ∈ addresses bs, 8 ≤ a := by
    intro a ha
    obtain ⟨halign, hpos, -⟩ := h.address a ha
    omega
  have hle := h.length_le (by omega) hge
  rw [addresses, List.length_map] at hle
  unfold LOOP_BOUND
  omega

/-! ## Freeing -/

theorem sIsBlockFree_eq {m : Mem} {before after : Nat} {bs : Blocks}
    (hl : Linked (header m) before bs after) {b : Nat × Bool} (hb : b ∈ bs) :
    sIsBlockFree m b.1 = !b.2 := by
  have htag : (!sIsBlockFree m b.1) = b.2 := hl.tag hb
  rw [← htag, Bool.not_not]

/-- Marking a block as free or as taken changes its tag. -/
theorem linked_mark {m m' : Mem} {before after p : Nat} {t t' : Bool} {xs ys : Blocks}
    (hl : Linked (header m) before (xs ++ (p, t) :: ys) after)
    (hlay : Layout (addresses (xs ++ (p, t) :: ys))) (hsame : SameBut p m m')
    (hp : header m' p = { header m p with tag := t' }) :
    Linked (header m') before (xs ++ (p, t') :: ys) after := by
  have hmem : (p, t) ∈ xs ++ (p, t) :: ys := List.mem_append_right _ List.mem_cons_self
  obtain ⟨hbelow, habove⟩ := hlay.around
  have hpa := (hlay.address _ (mem_addresses hmem)).1
  refine hl.retag hp fun b hb => ?_
  rcases List.mem_append.mp hb with hb | hb
  · have hlt := hbelow b hb
    refine hsame.header hpa (hlay.address _ (mem_addresses ?_)).1 (by omega)
    exact List.mem_append_left _ hb
  · have hlt := habove b hb
    refine hsame.header hpa (hlay.address _ (mem_addresses ?_)).1 (by omega)
    exact List.mem_append_right _ (List.mem_cons_of_mem _ hb)

/-- The loops of `s_compact_free` find the taken blocks around a run of free
blocks. -/
theorem loops_of_run {m : Mem} {before after g ptr e : Nat} {pre xs ys post bs : Blocks}
    (hbs : bs = pre ++ (g, true) :: (xs ++ (ptr, false) :: (ys ++ (e, true) :: post)))
    (hl : Linked (header m) before bs after) {n : Nat} (hlen : bs.length < n)
    (hxs : ∀ b ∈ xs, b.2 = false) (hys : ∀ b ∈ ys, b.2 = false) :
    whileLoop (sIsBlockFree m) (sGetPrevBlock m) n ptr = some g ∧
      whileLoop (sIsBlockFree m) (sGetNextBlock m) n ptr = some e ∧
      sGetNextBlock m g = first ptr xs ∧ sGetPrevBlock m e = last ptr ys := by
  have hfree : ∀ b ∈ bs, sIsBlockFree m b.1 = !b.2 := fun b hb => sIsBlockFree_eq hl hb
  have hg : (g, true) ∈ bs := by
    rw [hbs]
    exact List.mem_append_right _ List.mem_cons_self
  have hrun : ∀ b ∈ xs ++ (ptr, false) :: (ys ++ (e, true) :: post), b ∈ bs := by
    intro b hb
    rw [hbs]
    exact List.mem_append_right _ (List.mem_cons_of_mem _ hb)
  have hptr : (ptr, false) ∈ bs := hrun _ (List.mem_append_right _ List.mem_cons_self)
  have hlength : xs.length + ys.length + 1 < n := by
    rw [hbs] at hlen
    simp only [List.length_append, List.length_cons] at hlen
    omega
  refine ⟨?_, ?_, ?_, ?_⟩
  · -- back to the guard `g`
    have hsplit : bs = (pre ++ (g, true) :: (xs ++ [(ptr, false)])) ++ (ys ++ (e, true) :: post) := by
      rw [hbs]
      simp only [List.append_assoc, List.cons_append, List.nil_append]
    rw [hsplit] at hl
    have hlast : last g (xs ++ [(ptr, false)]) = ptr := last_append g xs _
    rw [← hlast]
    refine (linked_append.mp hl).1.whileLoop_prev (fun _ => rfl) ?_ (hfree _ hg) ?_
    · intro b hb
      rcases List.mem_append.mp hb with hb | hb
      · rw [hfree b (hrun b (List.mem_append_left _ hb)), hxs b hb]
        rfl
      · rw [List.mem_singleton.mp hb, hfree _ hptr]
        rfl
    · rw [List.length_append, List.length_singleton]
      omega
  · -- forward to the guard `e`
    have hsplit : bs = (pre ++ (g, true) :: xs) ++ (((ptr, false) :: ys) ++ (e, true) :: post) := by
      rw [hbs]
      simp only [List.append_assoc, List.cons_append]
    have he : (e, true) ∈ bs := by
      rw [hsplit]
      exact List.mem_append_right _ (List.mem_append_right _ List.mem_cons_self)
    rw [hsplit] at hl
    refine (linked_append.mp hl).2.whileLoop_next (fun _ => rfl) ?_ (hfree _ he) ?_
    · intro b hb
      rcases List.mem_cons.mp hb with rfl | hb
      · rw [hfree _ hptr]
        rfl
      · rw [hfree b (hrun b (List.mem_append_right _ (List.mem_cons_of_mem _
          (List.mem_append_left _ hb)))), hys b hb]
        rfl
    · rw [List.length_cons]
      omega
  · rw [hbs] at hl
    have hnode : (header m g).next = _ := congrArg Node.next hl.node
    rw [first_append] at hnode
    exact hnode
  · have hsplit : bs = (pre ++ (g, true) :: (xs ++ (ptr, false) :: ys)) ++ (e, true) :: post := by
      rw [hbs]
      simp only [List.append_assoc, List.cons_append]
    rw [hsplit] at hl
    have hnode : (header m e).prev = _ := congrArg Node.prev hl.node
    rw [last_append, last, last_append] at hnode
    exact hnode

/-- Linking the block before a stretch with the block after it. -/
theorem linked_setNext_setPrev {m : Mem} {before after p e : Nat} {t u : Bool}
    {pre run post bs : Blocks} (hbs : bs = pre ++ (p, t) :: (run ++ (e, u) :: post))
    (hl : Linked (header m) before bs after) (hlay : Layout (addresses bs)) :
    Linked (header (sSetPrevBlock (sSetNextBlock m p e) e p)) before
        (pre ++ (p, t) :: (e, u) :: post) after ∧
      Framed (addresses bs) m (sSetPrevBlock (sSetNextBlock m p e) e p) := by
  subst hbs
  have hp : (p, t) ∈ pre ++ (p, t) :: (run ++ (e, u) :: post) :=
    List.mem_append_right _ List.mem_cons_self
  have he : (e, u) ∈ pre ++ (p, t) :: (run ++ (e, u) :: post) :=
    List.mem_append_right _ (List.mem_cons_of_mem _ (List.mem_append_right _ List.mem_cons_self))
  obtain ⟨hpa, -, hplt⟩ := hlay.address _ (mem_addresses hp)
  obtain ⟨hea, -, helt⟩ := hlay.address _ (mem_addresses he)
  obtain ⟨hbelow, habove⟩ := hlay.around
  have hpe : p < e := habove (e, u) (List.mem_append_right _ List.mem_cons_self)
  have hpost : ∀ b ∈ post, e < b.1 := by
    have hlay' := hlay
    rw [← List.cons_append, ← List.append_assoc] at hlay'
    exact hlay'.around.2
  have hnext := sameBut_sSetNextBlock m p e
  have hprev := sameBut_sSetPrevBlock (sSetNextBlock m p e) e p
  refine ⟨hl.remove ?_ ?_ ?_,
    (hnext.framed (mem_addresses hp)).trans (hprev.framed (mem_addresses he))⟩
  · rw [hprev.header hea hpa (by omega), header_sSetNextBlock m p hea helt]
  · rw [header_sSetPrevBlock _ e hpa hplt, hnext.header hpa hea (by omega)]
  · intro b hb
    have hba : b.1 % 8 = 0 ∧ b.1 ≠ p ∧ b.1 ≠ e := by
      rcases List.mem_append.mp hb with hb | hb
      · have h₁ := hbelow b hb
        exact ⟨(hlay.address _ (mem_addresses (List.mem_append_left _ hb))).1, by omega, by omega⟩
      · have h₁ := hpost b hb
        refine ⟨(hlay.address _ (mem_addresses ?_)).1, by omega, by omega⟩
        exact List.mem_append_right _ (List.mem_cons_of_mem _ (List.mem_append_right _
          (List.mem_cons_of_mem _ hb)))
    rw [hprev.header hea hba.1 hba.2.2, hnext.header hpa hba.1 hba.2.1]

/-- `s_compact_free` makes one free block of a block and the free blocks
around it. -/
theorem sCompactFree_spec {m : Mem} {before after g ptr e : Nat} {t : Bool}
    {pre xs ys post bs : Blocks}
    (hbs : bs = pre ++ (g, true) :: (xs ++ (ptr, t) :: (ys ++ (e, true) :: post)))
    (hl : Linked (header m) before bs after) (hlay : Layout (addresses bs))
    (hxs : ∀ b ∈ xs, b.2 = false) (hys : ∀ b ∈ ys, b.2 = false) :
    ∃ m', sCompactFree m ptr = some m' ∧
      Linked (header m') before (pre ++ (g, true) :: (first ptr xs, false) :: (e, true) :: post)
        after ∧ Framed (addresses bs) m m' := by
  have hassoc : ∀ t : Bool, pre ++ (g, true) :: (xs ++ (ptr, t) :: (ys ++ (e, true) :: post)) =
      (pre ++ (g, true) :: xs) ++ (ptr, t) :: (ys ++ (e, true) :: post) := by
    intro t
    rw [List.append_assoc, List.cons_append]
  subst hbs
  -- the block is marked as free
  have hmark := sameBut_sMarkBlockFree m ptr
  have hptr : (ptr, t) ∈ (pre ++ (g, true) :: xs) ++ (ptr, t) :: (ys ++ (e, true) :: post) :=
    List.mem_append_right _ List.mem_cons_self
  have hlay₁ : Layout (addresses (pre ++ (g, true) :: (xs ++ (ptr, false) ::
      (ys ++ (e, true) :: post)))) := by
    simp only [addresses, List.map_append, List.map_cons] at hlay ⊢
    exact hlay
  rw [hassoc t] at hl hlay ⊢
  obtain ⟨hbelow, habove⟩ := hlay.around
  have hl₁ : Linked (header (sMarkBlockFree m ptr)) before (pre ++ (g, true) ::
      (xs ++ (ptr, false) :: (ys ++ (e, true) :: post))) after := by
    rw [hassoc]
    exact linked_mark hl hlay hmark (header_sMarkBlockFree m ptr)
  have hsame : addresses (pre ++ (g, true) :: (xs ++ (ptr, false) :: (ys ++ (e, true) :: post))) =
      addresses ((pre ++ (g, true) :: xs) ++ (ptr, t) :: (ys ++ (e, true) :: post)) := by
    simp only [addresses, List.map_append, List.map_cons, List.append_assoc, List.cons_append]
  have hframe₁ := hmark.framed (mem_addresses hptr)
  obtain ⟨hback, hforward, htemp1, hprev⟩ := loops_of_run rfl hl₁ hlay₁.length_lt hxs hys
  rw [sCompactFree]
  simp only [hback, hforward, htemp1, hprev, Option.bind_eq_bind, Option.bind_some]
  by_cases hchange : first ptr xs ≠ ptr ∨ last ptr ys ≠ ptr
  · rw [if_pos hchange]
    -- the run as its first block and the rest
    obtain ⟨run, hrun⟩ : ∃ run, xs ++ (ptr, false) :: ys = (first ptr xs, false) :: run := by
      cases xs with
      | nil => exact ⟨ys, rfl⟩
      | cons b xs =>
          obtain ⟨p, u⟩ := b
          have hu : u = false := hxs (p, u) List.mem_cons_self
          subst hu
          exact ⟨xs ++ (ptr, false) :: ys, rfl⟩
    have hsplit : pre ++ (g, true) :: (xs ++ (ptr, false) :: (ys ++ (e, true) :: post)) =
        (pre ++ [(g, true)]) ++ (first ptr xs, false) :: (run ++ (e, true) :: post) := by
      have happend := congrArg (fun l => pre ++ (g, true) :: (l ++ (e, true) :: post)) hrun
      simpa only [List.append_assoc, List.cons_append, List.nil_append] using happend
    obtain ⟨hlinked, hframe₂⟩ := linked_setNext_setPrev hsplit hl₁ hlay₁
    rw [hsame] at hframe₂
    rw [List.append_assoc] at hlinked
    exact ⟨_, rfl, hlinked, hframe₁.trans hframe₂⟩
  · rw [if_neg hchange]
    rw [not_or, not_not, not_not] at hchange
    -- no free block around the block
    have hnone : xs = [] := by
      by_contra hne
      obtain ⟨b, hb, hfirst⟩ := first_eq_of_ne_nil ptr hne
      have hlt := hbelow b (List.mem_append_right _ (List.mem_cons_of_mem _ hb))
      rw [hchange.1] at hfirst
      omega
    have hnone' : ys = [] := by
      by_contra hne
      obtain ⟨b, hb, hlast⟩ := last_eq_of_ne_nil ptr hne
      have hlt := habove b (List.mem_append_left _ hb)
      rw [hchange.2] at hlast
      omega
    subst hnone hnone'
    exact ⟨_, rfl, hl₁, hframe₁⟩

/-! ## Splitting -/

theorem Layout.insert {xs ys : Blocks} {p n : Nat} {t v : Bool}
    (h : Layout (addresses (xs ++ (p, t) :: ys))) (hn : n % 8 = 0) (hpn : p < n)
    (hlt : n < 2 ^ 32) (hys : ∀ b ∈ ys, n < b.1) :
    Layout (addresses (xs ++ (p, t) :: (n, v) :: ys)) := by
  obtain ⟨hbelow, habove⟩ := h.around
  have hsorted := List.pairwise_map.mp h.sorted
  obtain ⟨hxs, hcons, hcross⟩ := List.pairwise_append.mp hsorted
  refine ⟨List.pairwise_map.mpr (List.pairwise_append.mpr ⟨hxs, ?_, ?_⟩), ?_⟩
  · refine List.pairwise_cons.mpr ⟨fun b hb => ?_, List.pairwise_cons.mpr ⟨hys, ?_⟩⟩
    · rcases List.mem_cons.mp hb with rfl | hb
      · exact hpn
      · exact habove b hb
    · exact (List.pairwise_cons.mp hcons).2
  · intro b hb c hc
    rcases List.mem_cons.mp hc with rfl | hc
    · exact hbelow b hb
    · rcases List.mem_cons.mp hc with rfl | hc
      · exact Nat.lt_trans (hbelow b hb) hpn
      · exact hcross b hb c (List.mem_cons_of_mem _ hc)
  · intro a ha
    obtain ⟨b, hb, rfl⟩ := List.mem_map.mp ha
    rcases List.mem_append.mp hb with hb | hb
    · exact h.address _ (mem_addresses (List.mem_append_left _ hb))
    · rcases List.mem_cons.mp hb with rfl | hb
      · exact h.address _ (mem_addresses (List.mem_append_right _ List.mem_cons_self))
      · rcases List.mem_cons.mp hb with rfl | hb
        · exact ⟨hn, by omega, hlt⟩
        · exact h.address _ (mem_addresses (List.mem_append_right _ (List.mem_cons_of_mem _ hb)))

/-- `splitBlock` puts a free block behind the first part of a taken one, and
joins it with the free blocks that follow. -/
theorem splitBlock_spec {m : Mem} {before after p e size : Nat} {pre post bs : Blocks}
    (ys : Blocks) (hbs : bs = pre ++ (p, true) :: (ys ++ (e, true) :: post))
    (hl : Linked (header m) before bs after) (hlay : Layout (addresses bs))
    (hys : ∀ b ∈ ys, b.2 = false) (haligned : size % 8 = 0) (hheader : 8 ≤ size)
    (hfits : p + size + 8 ≤ first e ys) :
    ∃ m', splitBlock m p size = some m' ∧
      Linked (header m') before (pre ++ (p, true) :: (p + size, false) :: (e, true) :: post) after ∧
      Layout (addresses (pre ++ (p, true) :: (p + size, false) :: (ys ++ (e, true) :: post))) ∧
      Framed ((p + size) :: addresses bs) m m' := by
  subst hbs
  -- the block after `p`
  obtain ⟨u, tail, htail⟩ : ∃ u tail, ys ++ (e, true) :: post = (first e ys, u) :: tail := by
    cases ys with
    | nil => exact ⟨true, post, rfl⟩
    | cons b ys => exact ⟨b.2, ys ++ (e, true) :: post, rfl⟩
  have hnext : sGetNextBlock m p = first e ys := by
    have hnode : (header m p).next = _ := congrArg Node.next hl.node
    rw [first_append] at hnode
    exact hnode
  have hlay₀ := hlay
  rw [htail] at hl hlay
  generalize hq : first e ys = q at hl hlay htail hfits hnext
  have hp : (p, true) ∈ pre ++ (p, true) :: (q, u) :: tail :=
    List.mem_append_right _ List.mem_cons_self
  have hqm : (q, u) ∈ pre ++ (p, true) :: (q, u) :: tail :=
    List.mem_append_right _ (List.mem_cons_of_mem _ List.mem_cons_self)
  obtain ⟨hpa, hppos, hplt⟩ := hlay.address _ (mem_addresses hp)
  obtain ⟨hqa, -, hqlt⟩ := hlay.address _ (mem_addresses hqm)
  obtain ⟨hbelow, habove⟩ := hlay.around
  simp only at hpa hppos hplt hqa hqlt
  have hbeyond : ∀ b ∈ tail, q < b.1 := by
    have hlay' := hlay
    rw [← List.singleton_append, ← List.append_assoc] at hlay'
    exact hlay'.around.2
  have hna : (p + size) % 8 = 0 := by omega
  have hnlt : p + size < 2 ^ 32 := by omega
  have hinsert : ∀ v, Layout (addresses (pre ++ (p, true) :: (p + size, v) :: (q, u) :: tail)) := by
    intro v
    refine hlay.insert hna (by omega) hnlt fun b hb => ?_
    rcases List.mem_cons.mp hb with rfl | hb
    · show p + size < q
      omega
    · have hlt := hbeyond b hb
      omega
  -- the four links
  have h₁ := sameBut_sSetPrevBlock m (p + size) p
  have h₂ := sameBut_sSetNextBlock (sSetPrevBlock m (p + size) p) (p + size) q
  generalize hm₂ : sSetNextBlock (sSetPrevBlock m (p + size) p) (p + size) q = m₂ at h₂
  have hn₂ : header m₂ (p + size) = ⟨q, p, (header m (p + size)).tag⟩ := by
    rw [← hm₂, header_sSetNextBlock _ _ hqa hqlt, header_sSetPrevBlock _ _ hpa hplt]
  have h₃ := sameBut_sSetPrevBlock m₂ q (p + size)
  have h₄ := sameBut_sSetNextBlock (sSetPrevBlock m₂ q (p + size)) p (p + size)
  have hother : ∀ b, b % 8 = 0 → b ≠ p + size → header m₂ b = header m b := by
    intro b hb hne
    rw [h₂.header hna hb hne, h₁.header hna hb hne]
  have hl₄ : Linked (header (sSetNextBlock (sSetPrevBlock m₂ q (p + size)) p (p + size))) before
      (pre ++ (p, true) :: (p + size, (header m (p + size)).tag) :: (q, u) :: tail) after := by
    refine hl.insert ?_ ?_ ?_ ?_
    · rw [header_sSetNextBlock _ _ hna hnlt, h₃.header hqa hpa (by omega),
        hother p hpa (by omega)]
    · rw [h₄.header hpa hna (by omega), h₃.header hqa hna (by omega), hn₂]
    · rw [h₄.header hpa hqa (by omega), header_sSetPrevBlock _ _ hna hnlt,
        hother q hqa (by omega)]
    · intro b hb
      have hba : b.1 % 8 = 0 ∧ b.1 ≠ p ∧ b.1 ≠ q ∧ b.1 ≠ p + size := by
        rcases List.mem_append.mp hb with hb | hb
        · have hlt := hbelow b hb
          exact ⟨(hlay.address _ (mem_addresses (List.mem_append_left _ hb))).1, by omega,
            by omega, by omega⟩
        · have hlt := hbeyond b hb
          refine ⟨(hlay.address _ (mem_addresses ?_)).1, by omega, by omega, by omega⟩
          exact List.mem_append_right _ (List.mem_cons_of_mem _ (List.mem_cons_of_mem _ hb))
      rw [h₄.header hpa hba.1 hba.2.1, h₃.header hqa hba.1 hba.2.2.1,
        hother b.1 hba.1 hba.2.2.2]
  have hlay₄ := hinsert (header m (p + size)).tag
  rw [← htail] at hl₄ hlay₄ hinsert
  have hnothing : pre ++ (p, true) :: (p + size, (header m (p + size)).tag) ::
      (ys ++ (e, true) :: post) = pre ++ (p, true) ::
        ([] ++ (p + size, (header m (p + size)).tag) :: (ys ++ (e, true) :: post)) := rfl
  obtain ⟨m', hm', hl', hframe⟩ := sCompactFree_spec hnothing hl₄ hlay₄ (by simp) hys
  have hnew : p + size ∈ (p + size) :: addresses (pre ++ (p, true) :: (ys ++ (e, true) :: post)) :=
    List.mem_cons_self
  have hpnew : p ∈ (p + size) :: addresses (pre ++ (p, true) :: (ys ++ (e, true) :: post)) := by
    rw [htail]
    exact List.mem_cons_of_mem _ (mem_addresses hp)
  have hqnew : q ∈ (p + size) :: addresses (pre ++ (p, true) :: (ys ++ (e, true) :: post)) := by
    rw [htail]
    exact List.mem_cons_of_mem _ (mem_addresses hqm)
  refine ⟨m', ?_, hl', hinsert false, ?_⟩
  · simp only [splitBlock, hnext, hm₂]
    exact hm'
  · refine Framed.trans ?_ (hframe.of_subset ?_)
    · refine ((h₁.framed hnew).trans ?_).trans ((h₃.framed hqnew).trans (h₄.framed hpnew))
      exact h₂.framed hnew
    · intro a ha
      simp only [addresses, List.map_append, List.map_cons, List.mem_append, List.mem_cons] at ha ⊢
      tauto

/-! ## Searching -/

/-- What the search has found among the blocks: nothing, or a free block that
is large enough. -/
def Found (m : Mem) (bs : Blocks) (size : Nat) (s : Search) : Prop :=
  s.pblock = 0 ∨ ((s.pblock, false) ∈ bs ∧ s.pblock < sGetNextBlock m s.pblock ∧
    s.minsize = sGetNextBlock m s.pblock - s.pblock ∧ size ≤ s.minsize)

/-- The search ends, at a free block that is large enough, or at none if there is none. -/
theorem search_spec {m : Mem} {bs : Blocks} {e : Nat} (size : Nat) (hl : Linked (header m) 0 bs 0)
    (hlay : Layout (addresses bs)) (hlast : bs.getLast? = some (e, true)) (done : Blocks) {rest : Blocks}
    (hbs : bs = done ++ rest) {s : Search} (htemp : s.temp = first 0 rest)
    (hmin : s.pblock = 0 → s.minsize = 2 ^ 32 - 1) (hfound : Found m bs size s) {n : Nat}
    (hn : rest.length < n) :
    ∃ s', whileLoop Search.more (bestFit m size) n s = some s' ∧ Found m bs size s' ∧
      (s'.pblock = 0 ↔ s.pblock = 0 ∧ ∀ a, (a, false) ∈ rest → sGetBlockSize m a < size) := by
  induction rest generalizing done s n with
  | nil =>
      refine ⟨s, whileLoop_of_false ?_ (by omega), hfound, by simp⟩
      rw [Search.more, htemp]
      rfl
  | cons b rest ih =>
      obtain ⟨n, rfl⟩ := Nat.exists_eq_succ_of_ne_zero (Nat.ne_zero_of_lt hn)
      obtain ⟨p, t⟩ := b
      replace htemp : s.temp = p := htemp
      have hmem : (p, t) ∈ bs := by
        rw [hbs]
        exact List.mem_append_right _ List.mem_cons_self
      obtain ⟨halign, hpos, -⟩ := hlay.address _ (mem_addresses hmem)
      have hp0 : p ≠ 0 := Nat.ne_of_gt hpos
      have hnext : sGetNextBlock m p = first 0 rest := by
        rw [hbs] at hl
        have hnode : (header m p).next = _ := congrArg Node.next hl.node
        exact hnode
      have hfree : sIsBlockFree m p = !t := sIsBlockFree_eq (b := (p, t)) hl hmem
      have hsmall : sGetBlockSize m p < 2 ^ 32 - 1 := sGetBlockSize_lt m halign
      have hcond : s.more = true := by
        rw [Search.more, htemp]
        exact decide_eq_true hp0
      rw [Nat.succ_eq_add_one, whileLoop_of_true hcond]
      have hassoc : bs = (done ++ [(p, t)]) ++ rest := by
        rw [hbs, List.append_assoc, List.singleton_append]
      rw [List.length_cons] at hn
      by_cases hbest : sIsBlockFree m s.temp = true ∧ size ≤ sGetBlockSize m s.temp ∧
          sGetBlockSize m s.temp < s.minsize
      · have hstep : bestFit m size s =
            ⟨sGetNextBlock m s.temp, sGetBlockSize m s.temp, s.temp⟩ := by
          simp only [bestFit, if_pos hbest]
        rw [hstep, htemp]
        rw [htemp] at hbest
        obtain ⟨hfree', hsize, -⟩ := hbest
        rw [hfree, Bool.not_eq_true'] at hfree'
        subst hfree'
        -- a free block is not the last one
        have hrest : rest ≠ [] := by
          rintro rfl
          rw [hbs, List.getLast?_append] at hlast
          simp at hlast
        obtain ⟨b, hb, hfirst⟩ := first_eq_of_ne_nil 0 hrest
        rw [hbs] at hlay
        have hlt : p < sGetNextBlock m p := by
          rw [hnext, hfirst]
          exact hlay.around.2 b hb
        obtain ⟨s', hloop, hfound', hnone⟩ := ih _ hassoc
          (s := ⟨sGetNextBlock m p, sGetBlockSize m p, p⟩) hnext (fun h0 => absurd h0 hp0)
          (.inr ⟨hmem, hlt, sGetBlockSize_eq hlt, hsize⟩) (n := n) (by omega)
        refine ⟨s', hloop, hfound', hnone.trans ⟨fun h => absurd h.1 hp0, fun h => ?_⟩⟩
        exact absurd hsize (Nat.not_le.mpr (h.2 p List.mem_cons_self))
      · have hstep : bestFit m size s = { s with temp := sGetNextBlock m s.temp } := by
          simp only [bestFit, if_neg hbest]
        rw [hstep, htemp]
        obtain ⟨s', hloop, hfound', hnone⟩ := ih _
          (s := ⟨sGetNextBlock m p, s.minsize, s.pblock⟩) hassoc hnext hmin hfound (n := n)
          (by omega)
        refine ⟨s', hloop, hfound', hnone.trans ⟨fun h => ⟨h.1, fun a ha => ?_⟩,
          fun h => ⟨h.1, fun a ha => h.2 a (List.mem_cons_of_mem _ ha)⟩⟩⟩
        rcases List.mem_cons.mp ha with heq | ha
        · obtain ⟨rfl, rfl⟩ := Prod.mk.inj heq
          rw [htemp, hfree, hmin h.1] at hbest
          by_contra hge
          exact hbest ⟨rfl, Nat.le_of_not_lt hge, hsmall⟩
        · exact h.2 a ha

end Salloc
