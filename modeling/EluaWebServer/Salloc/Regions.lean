import EluaWebServer.Salloc.Blocks
import Mathlib.Data.List.Chain

/-!
# Regions

The invariant of one region: its blocks are a doubly linked chain that tiles
it between two taken guards, and no two neighbours are free.  Searching,
freeing and shrinking replace a stretch of blocks between two taken ones.
-/

namespace Salloc

open Memory Chain Loop

/-- Of two neighbours at least one is taken. -/
abbrev Apart (b c : Nat × Bool) : Prop := b.2 = true ∨ c.2 = true

/-- **The invariant of a region.** -/
structure RegionOk (m : Mem) (r : Region) (bs : Blocks) : Prop where
  linked : Linked (header m) 0 bs 0
  layout : Layout (addresses bs)
  head : ∃ rest, bs = (r.first, true) :: rest ∧ first 0 rest = r.first + 8
  guard : bs.getLast? = some (r.last - 8, true)
  compact : bs.IsChain Apart

/-- Only bytes of the region may differ. -/
def Within (r : Region) (m m' : Mem) : Prop := ∀ i, i < r.first ∨ r.last ≤ i → m' i = m i

section

variable {m m' : Mem} {r : Region} {bs : Blocks}

/-- All blocks of a region lie in it. -/
theorem RegionOk.inside (h : RegionOk m r bs) {a : Nat} (ha : a ∈ addresses bs) :
    r.first ≤ a ∧ a + 8 ≤ r.last := by
  obtain ⟨b, hb, rfl⟩ := List.mem_map.mp ha
  have hsize := r.size
  refine ⟨?_, ?_⟩
  · obtain ⟨rest, hbs, -⟩ := h.head
    have hlay := h.layout
    rw [hbs] at hb hlay
    rcases List.mem_cons.mp hb with rfl | hb
    · exact Nat.le_refl _
    · exact Nat.le_of_lt ((List.pairwise_cons.mp (List.pairwise_map.mp hlay.sorted)).1 b hb)
  · obtain ⟨init, hbs⟩ : ∃ init, bs = init ++ [(r.last - 8, true)] :=
      List.getLast?_eq_some_iff.mp h.guard
    have hlay := h.layout
    rw [hbs] at hb hlay
    rcases List.mem_append.mp hb with hb | hb
    · have hlt := hlay.around.1 b hb
      omega
    · rw [List.mem_singleton.mp hb]
      show r.last - 8 + 8 ≤ r.last
      omega

theorem Framed.within {as : List Nat} (h : Framed as m m')
    (hin : ∀ a ∈ as, r.first ≤ a ∧ a + 8 ≤ r.last) : Within r m m' := by
  refine fun i hi => h i fun a ha => ?_
  have hbounds := hin a ha
  omega

/-- The blocks of a region have become others, and only headers were written. -/
structure Changed (m m' : Mem) (r : Region) (bs bs' : Blocks) : Prop where
  ok : RegionOk m' r bs'
  framed : Framed (addresses bs ++ addresses bs') m m'

theorem Changed.within {bs' : Blocks} (hc : Changed m m' r bs bs') (h : RegionOk m r bs) :
    Within r m m' := by
  refine hc.framed.within fun a ha => ?_
  rcases List.mem_append.mp ha with ha | ha
  · exact h.inside ha
  · exact hc.ok.inside ha

/-- A block is taken or free, not both. -/
theorem RegionOk.tag_unique (h : RegionOk m r bs) {a : Nat} {t u : Bool} (ht : (a, t) ∈ bs)
    (hu : (a, u) ∈ bs) : t = u := by
  have htag : (header m a).tag = t := h.linked.tag (b := (a, t)) ht
  have hutag : (header m a).tag = u := h.linked.tag (b := (a, u)) hu
  exact htag.symm.trans hutag

/-- Where the block after one of a region begins. -/
theorem RegionOk.next {xs ys : Blocks} {p : Nat} {t : Bool}
    (h : RegionOk m r (xs ++ (p, t) :: ys)) : sGetNextBlock m p = Chain.first 0 ys :=
  congrArg Node.next h.linked.node

theorem RegionOk.first_mem (h : RegionOk m r bs) : (r.first, true) ∈ bs := by
  obtain ⟨rest, hbs, -⟩ := h.head
  rw [hbs]
  exact List.mem_cons_self

theorem RegionOk.last_mem (h : RegionOk m r bs) : (r.last - 8, true) ∈ bs :=
  List.mem_of_getLast? h.guard

/-- A region does not notice changes outside of its headers. -/
theorem RegionOk.congr (h : RegionOk m r bs)
    (hsame : ∀ a ∈ addresses bs, header m' a = header m a) : RegionOk m' r bs :=
  { h with linked := h.linked.congr fun b hb => hsame b.1 (mem_addresses hb) }

/-- A stretch of blocks between two taken ones is replaced. -/
theorem RegionOk.replace {pre post : Blocks} {g e : Nat} (mid mid' : Blocks)
    (h : RegionOk m r (pre ++ (g, true) :: (mid ++ (e, true) :: post)))
    (hlinked : Linked (header m') 0 (pre ++ (g, true) :: (mid' ++ (e, true) :: post)) 0)
    (hlayout : Layout (addresses (pre ++ (g, true) :: (mid' ++ (e, true) :: post))))
    (hfirst : pre = [] → first e mid' = first e mid) (hcompact : mid'.IsChain Apart) :
    RegionOk m' r (pre ++ (g, true) :: (mid' ++ (e, true) :: post)) := by
  refine ⟨hlinked, hlayout, ?_, ?_, ?_⟩
  · obtain ⟨rest, hbs, hrest⟩ := h.head
    cases pre with
    | nil =>
        obtain ⟨hg, rfl⟩ := List.cons_eq_cons.mp hbs
        rw [first_append] at hrest
        refine ⟨mid' ++ (e, true) :: post, ?_, ?_⟩
        · rw [List.nil_append, hg]
        · rw [first_append]
          exact (hfirst rfl).trans hrest
    | cons b pre =>
        rw [List.cons_append] at hbs
        obtain ⟨rfl, rfl⟩ := List.cons_eq_cons.mp hbs
        refine ⟨pre ++ (g, true) :: (mid' ++ (e, true) :: post), rfl, ?_⟩
        rw [first_append] at hrest ⊢
        exact hrest
  · have hguard := h.guard
    simp only [List.getLast?_append, List.getLast?_cons] at hguard ⊢
    simpa using hguard
  · have hbefore := (List.isChain_split.mp h.compact).1
    have hafter : ((e, true) :: post).IsChain Apart :=
      (List.isChain_split.mp h.compact).2.tail.right_of_append
    refine List.isChain_split.mpr ⟨hbefore, ?_⟩
    have hmid : (mid' ++ (e, true) :: post).IsChain Apart := by
      refine hcompact.append hafter fun b _ c hc => ?_
      cases hc
      exact .inr rfl
    exact hmid.cons fun _ _ => .inl rfl

/-! ## Stretches between taken blocks -/

/-- The last taken block of a list, and the free ones after it. -/
theorem exists_last_taken {bs : Blocks} (h : ∃ b ∈ bs, b.2 = true) :
    ∃ pre g xs, bs = pre ++ (g, true) :: xs ∧ ∀ b ∈ xs, b.2 = false := by
  induction bs with
  | nil =>
      obtain ⟨b, hb, -⟩ := h
      cases hb
  | cons b bs ih =>
      by_cases hrest : ∃ c ∈ bs, c.2 = true
      · obtain ⟨pre, g, xs, rfl, hxs⟩ := ih hrest
        exact ⟨b :: pre, g, xs, rfl, hxs⟩
      · have hfree : ∀ c ∈ bs, c.2 = false := by
          intro c hc
          by_contra htaken
          exact hrest ⟨c, hc, Bool.eq_true_of_not_eq_false htaken⟩
        obtain ⟨c, hc, htaken⟩ := h
        rcases List.mem_cons.mp hc with rfl | hc
        · exact ⟨[], c.1, bs, by rw [List.nil_append, ← htaken], hfree⟩
        · exact absurd ⟨c, hc, htaken⟩ hrest

/-- The first taken block of a list, and the free ones before it. -/
theorem exists_first_taken {bs : Blocks} (h : ∃ b ∈ bs, b.2 = true) :
    ∃ ys e post, bs = ys ++ (e, true) :: post ∧ ∀ b ∈ ys, b.2 = false := by
  induction bs with
  | nil =>
      obtain ⟨b, hb, -⟩ := h
      cases hb
  | cons b bs ih =>
      by_cases hb : b.2 = true
      · exact ⟨[], b.1, bs, by rw [List.nil_append, ← hb], by simp⟩
      · rw [Bool.not_eq_true] at hb
        obtain ⟨c, hc, htaken⟩ := h
        have hc' : c ∈ bs := by
          rcases List.mem_cons.mp hc with rfl | hc
          · rw [hb] at htaken
            cases htaken
          · exact hc
        obtain ⟨ys, e, post, rfl, hys⟩ := ih ⟨c, hc', htaken⟩
        refine ⟨b :: ys, e, post, rfl, fun d hd => ?_⟩
        rcases List.mem_cons.mp hd with rfl | hd
        · exact hb
        · exact hys d hd

/-- A block that is not a guard lies between two taken blocks, with only free
ones in between. -/
theorem RegionOk.between (h : RegionOk m r bs) {a : Nat} {t : Bool} (ha : (a, t) ∈ bs)
    (hfirst : a ≠ r.first) (hlast : a ≠ r.last - 8) :
    ∃ pre g xs ys e post,
      bs = pre ++ (g, true) :: (xs ++ (a, t) :: (ys ++ (e, true) :: post)) ∧
      (∀ b ∈ xs, b.2 = false) ∧ ∀ b ∈ ys, b.2 = false := by
  obtain ⟨before, after, hbs⟩ := List.append_of_mem ha
  have hbefore : ∃ b ∈ before, b.2 = true := by
    obtain ⟨rest, hhead, -⟩ := h.head
    rw [hbs] at hhead
    cases before with
    | nil =>
        obtain ⟨heq, -⟩ := List.cons_eq_cons.mp hhead
        exact absurd (congrArg Prod.fst heq) hfirst
    | cons b before =>
        obtain ⟨rfl, -⟩ := List.cons_eq_cons.mp hhead
        exact ⟨_, List.mem_cons_self, rfl⟩
  have hafter : ∃ b ∈ after, b.2 = true := by
    have hguard := h.guard
    rw [hbs, List.getLast?_append, List.getLast?_cons] at hguard
    cases hend : after.getLast? with
    | none =>
        rw [hend] at hguard
        simp only [Option.getD_none, Option.some_or, Option.some.injEq, Prod.mk.injEq] at hguard
        exact absurd hguard.1 hlast
    | some b =>
        rw [hend] at hguard
        simp only [Option.getD_some, Option.some_or, Option.some.injEq] at hguard
        exact ⟨b, List.mem_of_getLast? hend, by rw [hguard]⟩
  obtain ⟨pre, g, xs, rfl, hxs⟩ := exists_last_taken hbefore
  obtain ⟨ys, e, post, rfl, hys⟩ := exists_first_taken hafter
  refine ⟨pre, g, xs, ys, e, post, ?_, hxs, hys⟩
  rw [hbs, List.append_assoc, List.cons_append]

/-! ## The operations on a region -/

theorem RegionOk.free (h : RegionOk m r bs) {a : Nat} (ha : (a, true) ∈ bs)
    (hfirst : a ≠ r.first) (hlast : a ≠ r.last - 8) :
    ∃ m' bs', sCompactFree m a = some m' ∧ Changed m m' r bs bs' ∧
      (∀ b, (b, true) ∈ bs' ↔ (b, true) ∈ bs ∧ b ≠ a) ∧
      ∀ b, (b, true) ∈ bs' → sGetNextBlock m' b = sGetNextBlock m b := by
  obtain ⟨pre, g, xs, ys, e, post, hbs, hxs, hys⟩ := h.between ha hfirst hlast
  obtain ⟨m', hm', hlinked, hframe⟩ := sCompactFree_spec hbs h.linked h.layout hxs hys
  have hmid : bs = pre ++ (g, true) :: ((xs ++ (a, true) :: ys) ++ (e, true) :: post) := by
    rw [hbs, List.append_assoc, List.cons_append]
  have hsub : (addresses (pre ++ (g, true) :: ([(Chain.first a xs, false)] ++ (e, true) :: post))).Sublist
      (addresses bs) := by
    rw [hmid]
    simp only [addresses, List.map_append, List.map_cons]
    refine (List.Sublist.refl _).append (List.Sublist.cons_cons g ?_)
    refine List.Sublist.append ?_ (List.Sublist.refl _)
    cases xs with
    | nil => simp [first]
    | cons b xs => simp [first]
  have hlayout := h.layout.of_sublist hsub
  have hlinked₀ := h.linked
  rw [hmid] at h hlinked₀
  have hok : RegionOk m' r (pre ++ (g, true) :: ([(Chain.first a xs, false)] ++ (e, true) :: post)) := by
    refine h.replace _ _ hlinked hlayout (fun _ => ?_) (List.isChain_singleton _)
    cases xs with
    | nil => rfl
    | cons b xs => rfl
  have hhead : first e [(first a xs, false)] = first e (xs ++ (a, true) :: ys) := by
    cases xs with
    | nil => rfl
    | cons b xs => rfl
  refine ⟨m', _, hm', ⟨hok, hframe.of_subset fun c hc => List.mem_append_left _ hc⟩, fun b => ?_,
    fun b hb => hlinked₀.next_eq _ _ hlinked hhead (b := (b, true)) ?_⟩
  rotate_left
  · simpa using hb
  -- the block is none of the other taken ones
  have haround : (∀ c ∈ pre ++ (g, true) :: xs, c.1 < a) ∧
      ∀ c ∈ ys ++ (e, true) :: post, a < c.1 := by
    have hlay := h.layout
    rw [← hmid, hbs, ← List.cons_append, ← List.append_assoc] at hlay
    exact hlay.around
  have hnotxs : ∀ c, (c, true) ∉ xs := fun c hc => Bool.noConfusion (hxs _ hc)
  have hnotys : ∀ c, (c, true) ∉ ys := fun c hc => Bool.noConfusion (hys _ hc)
  have hne : ∀ c, (c, true) ∈ pre ++ (g, true) :: xs ∨ (c, true) ∈ ys ++ (e, true) :: post →
      c ≠ a := by
    rintro c (hc | hc)
    · exact Nat.ne_of_lt (haround.1 _ hc)
    · exact Nat.ne_of_gt (haround.2 _ hc)
  have hneb := hne b
  simp only [hmid, List.mem_append, List.mem_cons, List.not_mem_nil, Prod.mk.injEq, hnotxs, hnotys,
    and_true, Bool.true_eq_false, and_false, or_false, false_or] at hneb ⊢
  tauto

/-- A free block lies between two taken ones. -/
theorem RegionOk.around_free (h : RegionOk m r bs) {a : Nat} (ha : (a, false) ∈ bs) :
    ∃ pre g e post, bs = pre ++ (g, true) :: (a, false) :: (e, true) :: post := by
  have hfirst : a ≠ r.first := by
    rintro rfl
    exact Bool.noConfusion (h.tag_unique ha h.first_mem)
  have hlast : a ≠ r.last - 8 := by
    rintro rfl
    exact Bool.noConfusion (h.tag_unique ha h.last_mem)
  obtain ⟨pre, g, xs, ys, e, post, hbs, hxs, hys⟩ := h.between ha hfirst hlast
  have hcompact := h.compact
  rw [hbs] at hcompact
  obtain ⟨hbefore, hafter⟩ := List.isChain_split.mp
    (List.isChain_split.mp hcompact).2.tail
  have hnone : xs = [] := by
    rcases List.eq_nil_or_concat xs with hnil | ⟨xs', b, rfl⟩
    · exact hnil
    · have hpair : Apart b (a, false) := by
        rw [List.concat_eq_append, List.append_assoc, List.singleton_append] at hbefore
        exact (List.isChain_append_cons_cons.mp hbefore).2.1
      have hb := hxs b (by simp)
      rcases hpair with hb' | hb'
      · rw [hb] at hb'
        cases hb'
      · cases hb'
  have hnone' : ys = [] := by
    cases ys with
    | nil => rfl
    | cons b ys =>
        have hpair : Apart (a, false) b := hafter.rel_head? rfl
        have hb := hys b List.mem_cons_self
        rcases hpair with hb' | hb'
        · cases hb'
        · rw [hb] at hb'
          cases hb'
  subst hnone hnone'
  exact ⟨pre, g, e, post, hbs⟩

/-- A free block is marked as taken. -/
theorem RegionOk.take {pre post : Blocks} {g a e : Nat}
    (h : RegionOk m r (pre ++ (g, true) :: (a, false) :: (e, true) :: post)) :
    RegionOk (sMarkBlockTaken m a) r (pre ++ (g, true) :: (a, true) :: (e, true) :: post) := by
  have hmark := sameBut_sMarkBlockTaken m a
  have hl := h.linked
  have hlay := h.layout
  have hlay' : Layout (addresses (pre ++ (g, true) :: (a, true) :: (e, true) :: post)) := by
    simp only [addresses, List.map_append, List.map_cons] at hlay ⊢
    exact hlay
  have hl' : Linked (header (sMarkBlockTaken m a)) 0
      (pre ++ (g, true) :: (a, true) :: (e, true) :: post) 0 := by
    rw [← List.singleton_append, ← List.append_assoc] at hl hlay ⊢
    exact linked_mark hl hlay hmark (header_sMarkBlockTaken m a)
  exact h.replace [(a, false)] [(a, true)] hl' hlay' (fun _ => rfl)
    (List.isChain_singleton _)

/-- What a taken block does not need is split off. -/
theorem RegionOk.split {pre post : Blocks} {g a e size : Nat}
    (h : RegionOk m r (pre ++ (g, true) :: (a, true) :: (e, true) :: post))
    (haligned : size % 8 = 0) (hheader : 8 ≤ size) (hfits : a + size + 8 ≤ e) :
    ∃ m', splitBlock m a size = some m' ∧
      Changed m m' r (pre ++ (g, true) :: (a, true) :: (e, true) :: post)
        (pre ++ (g, true) :: (a, true) :: (a + size, false) :: (e, true) :: post) := by
  have hassoc : ∀ bs : Blocks, pre ++ (g, true) :: (a, true) :: bs =
      (pre ++ [(g, true)]) ++ (a, true) :: bs := by
    intro bs
    rw [List.append_assoc, List.singleton_append]
  obtain ⟨m', hm', hlinked, hlayout, hframe⟩ :=
    splitBlock_spec [] (hassoc _) h.linked h.layout (by simp) haligned hheader hfits
  rw [← hassoc] at hlinked hlayout
  have hok : RegionOk m' r
      (pre ++ (g, true) :: (a, true) :: (a + size, false) :: (e, true) :: post) :=
    h.replace [(a, true)] [(a, true), (a + size, false)] hlinked hlayout (fun _ => rfl)
      (List.isChain_pair.mpr (.inl rfl))
  refine ⟨m', hm', hok, hframe.of_subset fun c hc => ?_⟩
  rcases List.mem_cons.mp hc with rfl | hc
  · exact List.mem_append_right _ (mem_addresses (b := (a + size, false)) (by simp))
  · exact List.mem_append_left _ hc

/-- What searching a region for `size` bytes does when it finds the free block
at `a`. -/
structure Allocated (m m' : Mem) (r : Region) (bs bs' : Blocks) (a size : Nat) : Prop where
  was_free : (a, false) ∈ bs
  ok : RegionOk m' r bs'
  taken : ∀ b, (b, true) ∈ bs' ↔ (b, true) ∈ bs ∨ b = a
  framed : Framed (addresses bs ++ addresses bs') m m'
  fits : a + 8 + size ≤ sGetNextBlock m' a
  next : ∀ b, (b, true) ∈ bs → sGetNextBlock m' b = sGetNextBlock m b

/-- The block at `a` is replaced by itself, as taken, and possibly a free
block behind it. -/
theorem RegionOk.allocated {pre post : Blocks} {g a e size : Nat} {m' : Mem}
    (tail : Blocks) (h : RegionOk m r (pre ++ (g, true) :: (a, false) :: (e, true) :: post))
    (h' : RegionOk m' r (pre ++ (g, true) :: (a, true) :: (tail ++ (e, true) :: post)))
    (htail : ∀ b ∈ tail, b.2 = false)
    (hframe : Framed (addresses (pre ++ (g, true) :: (a, false) :: (e, true) :: post) ++
      addresses (pre ++ (g, true) :: (a, true) :: (tail ++ (e, true) :: post))) m m')
    (hfits : a + 8 + size ≤ Chain.first e tail) :
    Allocated m m' r (pre ++ (g, true) :: (a, false) :: (e, true) :: post)
      (pre ++ (g, true) :: (a, true) :: (tail ++ (e, true) :: post)) a size := by
  have hnottail : ∀ c, (c, true) ∉ tail := fun c hc => Bool.noConfusion (htail _ hc)
  refine ⟨by simp, h', fun b => ?_, hframe, ?_, fun b hb => ?_⟩
  · simp only [List.mem_append, List.mem_cons, Prod.mk.injEq, and_true, Bool.true_eq_false,
      and_false, false_or, hnottail]
    tauto
  · rw [← List.singleton_append, ← List.append_assoc] at h'
    rw [h'.next, first_append]
    exact hfits
  · have hb' : (b, true) ∈ pre ++ (g, true) :: (e, true) :: post := by
      simpa using hb
    have hsame := Linked.next_eq [(a, false)] ((a, true) :: tail) h.linked h'.linked rfl hb'
    exact hsame

/-- The search in a region, for any size. -/
theorem RegionOk.search (h : RegionOk m r bs) (size : Nat) :
    ∃ s, whileLoop Search.more (bestFit m size) LOOP_BOUND
        ⟨sGetNextBlock m r.first, 2 ^ 32 - 1, 0⟩ = some s ∧ Found m bs size s ∧
      (s.pblock = 0 ↔ ∀ a, (a, false) ∈ bs → sGetBlockSize m a < size) := by
  obtain ⟨rest, hhead, -⟩ := h.head
  have hlen := h.layout.length_lt
  have hstart : sGetNextBlock m r.first = first 0 rest := by
    have hl := h.linked
    rw [hhead] at hl
    exact congrArg Node.next hl.1
  have hrest : rest.length < LOOP_BOUND := by
    rw [hhead, List.length_cons] at hlen
    omega
  obtain ⟨s, hloop, hfound, hnone⟩ := search_spec size h.linked h.layout h.guard
    [(r.first, true)] hhead (s := ⟨sGetNextBlock m r.first, 2 ^ 32 - 1, 0⟩) hstart (fun _ => rfl)
    (.inl rfl) hrest
  refine ⟨s, hloop, hfound, hnone.trans ⟨fun hall a ha => ?_, fun hall => ⟨rfl, fun a ha => ?_⟩⟩⟩
  · rw [hhead] at ha
    rcases List.mem_cons.mp ha with heq | ha
    · cases heq
    · exact hall.2 a ha
  · refine hall a ?_
    rw [hhead]
    exact List.mem_cons_of_mem _ ha

/-- Searching a region finds nothing and changes nothing, or takes a free
block, with what it does not need split off. -/
theorem RegionOk.alloc (h : RegionOk m r bs) {size : Nat} (hsize : size ≠ 0)
    (hwrap : NoWrap size) :
    ∃ m' p, sGetFreeBlock m size r.first = some (m', p) ∧
      (p = 0 ∧ m' = m ∨ ∃ a bs', p = a + 8 ∧ Allocated m m' r bs bs' a size) := by
  obtain ⟨s, hloop, hfound, -⟩ := h.search (actSize size)
  rw [sGetFreeBlock, if_neg hsize]
  simp only [sActSize_eq hwrap, hloop, Option.bind_eq_bind, Option.bind_some]
  by_cases hnone : s.pblock = 0
  · rw [if_pos hnone]
    exact ⟨m, 0, rfl, .inl ⟨rfl, rfl⟩⟩
  · rw [if_neg hnone]
    obtain ⟨ha, hless, hminsize, hfits⟩ := hfound.resolve_left hnone
    generalize s.pblock = a at ha hless hminsize hfits hnone ⊢
    obtain ⟨pre, g, e, post, rfl⟩ := h.around_free ha
    have hnext : sGetNextBlock m a = e := by
      have h' := h
      rw [← List.singleton_append, ← List.append_assoc] at h'
      exact h'.next
    rw [hnext] at hless hminsize
    have htake := h.take
    have hframe : ∀ as, Framed (addresses (pre ++ (g, true) :: (a, false) :: (e, true) :: post) ++ as)
        m (sMarkBlockTaken m a) :=
      fun as => (sameBut_sMarkBlockTaken m a).framed (List.mem_append_left as (mem_addresses ha))
    have hsizes : size + 8 ≤ actSize size ∧ actSize size % 8 = 0 := by
      unfold actSize
      omega
    by_cases hsplit : actSize size < s.minsize ∧ DYN_MIN_SPLIT_SIZE ≤ s.minsize - actSize size
    · rw [if_pos hsplit]
      unfold DYN_MIN_SPLIT_SIZE at hsplit
      obtain ⟨m', hm', hchanged⟩ := htake.split hsizes.2 (by omega)
        (show a + actSize size + 8 ≤ e by omega)
      rw [hm', Option.bind_some]
      have hsame : addresses (pre ++ (g, true) :: (a, true) :: (e, true) :: post) =
          addresses (pre ++ (g, true) :: (a, false) :: (e, true) :: post) := by
        simp only [addresses, List.map_append, List.map_cons]
      have hsplitframe := hchanged.framed
      rw [hsame] at hsplitframe
      refine ⟨m', a + 8, rfl, .inr ⟨a, _, rfl, h.allocated [(a + actSize size, false)] hchanged.ok
        (by simp) ((hframe _).trans hsplitframe) ?_⟩⟩
      show a + 8 + size ≤ a + actSize size
      omega
    · rw [if_neg hsplit]
      refine ⟨_, a + 8, rfl, .inr ⟨a, _, rfl, h.allocated [] htake (by simp) (hframe _) ?_⟩⟩
      show a + 8 + size ≤ e
      omega

/-- Shrinking a taken block leaves the taken blocks the same. -/
theorem RegionOk.shrink (h : RegionOk m r bs) {a size : Nat} (ha : (a, true) ∈ bs)
    (hfirst : a ≠ r.first) (hlast : a ≠ r.last - 8) (hwrap : NoWrap size) :
    ∃ m' bs', sShrinkBlock m (a + 8) size = some m' ∧ Changed m m' r bs bs' ∧
      (∀ b, (b, true) ∈ bs' ↔ (b, true) ∈ bs) ∧
      (∀ b, (b, true) ∈ bs → b ≠ a → sGetNextBlock m' b = sGetNextBlock m b) ∧
      (a + 8 + size ≤ sGetNextBlock m a → a + 8 + size ≤ sGetNextBlock m' a) := by
  obtain ⟨pre, g, xs, ys, e, post, hbs, hxs, hys⟩ := h.between ha hfirst hlast
  have hassoc : ∀ bs : Blocks, pre ++ (g, true) :: (xs ++ (a, true) :: bs) =
      (pre ++ (g, true) :: xs) ++ (a, true) :: bs := by
    intro bs
    rw [List.append_assoc, List.cons_append]
  rw [hassoc] at hbs
  have hnext : sGetNextBlock m a = first e ys := by
    have hl := h.linked
    rw [hbs] at hl
    have hnode : (header m a).next = _ := congrArg Node.next hl.node
    rw [first_append] at hnode
    exact hnode
  have hless : a < sGetNextBlock m a := by
    have hlay := h.layout
    rw [hbs] at hlay
    obtain ⟨b, hb, hfirstb⟩ := first_eq_of_ne_nil 0 (show ys ++ (e, true) :: post ≠ [] by simp)
    rw [first_append] at hfirstb
    have hb' := hlay.around.2 b hb
    have heq : first e ys = b.1 := hfirstb
    omega
  rw [sShrinkBlock, sActSize_eq hwrap, DYN_HEADER_SIZE, Nat.add_sub_cancel]
  simp only [sGetBlockSize_eq hless]
  by_cases hkeep : sGetNextBlock m a - a ≤ actSize size ∨
      sGetNextBlock m a - a - actSize size < DYN_MIN_SPLIT_SIZE
  · rw [if_pos hkeep]
    exact ⟨m, bs, rfl, ⟨h, fun _ _ => rfl⟩, fun b => Iff.rfl, fun _ _ _ => rfl, id⟩
  · rw [if_neg hkeep]
    unfold DYN_MIN_SPLIT_SIZE at hkeep
    have hsizes : 8 ≤ actSize size ∧ actSize size % 8 = 0 := by
      unfold actSize
      omega
    obtain ⟨m', hm', hlinked, hlayout, hframe⟩ := splitBlock_spec ys hbs h.linked h.layout hys
      hsizes.2 hsizes.1 (by omega)
    have hsub : (addresses ((pre ++ (g, true) :: xs) ++
        (a, true) :: ([(a + actSize size, false)] ++ (e, true) :: post))).Sublist
        (addresses ((pre ++ (g, true) :: xs) ++
          (a, true) :: (a + actSize size, false) :: (ys ++ (e, true) :: post))) := by
      simp only [addresses, List.map_append, List.map_cons]
      simp
    have hok : RegionOk m' r ((pre ++ (g, true) :: xs) ++
        (a, true) :: ([(a + actSize size, false)] ++ (e, true) :: post)) := by
      rw [hbs] at h
      refine h.replace _ _ hlinked (hlayout.of_sublist hsub) (fun hnil => ?_)
        (List.isChain_singleton _)
      simp at hnil
    have hnotxs : ∀ c, (c, true) ∉ xs := fun c hc => Bool.noConfusion (hxs _ hc)
    have hnotys : ∀ c, (c, true) ∉ ys := fun c hc => Bool.noConfusion (hys _ hc)
    refine ⟨m', _, hm', ⟨hok, hframe.of_subset ?_⟩, fun b => ?_, fun b hb hne => ?_, fun _ => ?_⟩
    · intro c hc
      rcases List.mem_cons.mp hc with rfl | hc
      · exact List.mem_append_right _ (mem_addresses (b := (a + actSize size, false)) (by simp))
      · exact List.mem_append_left _ hc
    · simp only [hbs, List.mem_append, List.mem_cons, List.not_mem_nil, Prod.mk.injEq, hnotys,
        and_true, Bool.true_eq_false, and_false, or_false, false_or]
    · -- the stretch between the taken blocks around begins at the same address
      have hbefore : Linked (header m) 0
          (pre ++ (g, true) :: ((xs ++ (a, true) :: ys) ++ (e, true) :: post)) 0 := by
        have hl := h.linked
        rw [hbs] at hl
        simpa only [List.append_assoc, List.cons_append] using hl
      have hafter : Linked (header m') 0 (pre ++ (g, true) ::
          ((xs ++ (a, true) :: [(a + actSize size, false)]) ++ (e, true) :: post)) 0 := by
        simpa only [List.append_assoc, List.cons_append, List.nil_append] using hlinked
      have hhead : first e (xs ++ (a, true) :: [(a + actSize size, false)]) =
          first e (xs ++ (a, true) :: ys) := by
        rw [first_append, first_append]
        rfl
      refine hbefore.next_eq _ _ hafter hhead (b := (b, true)) ?_
      simpa [hbs, hnotxs, hnotys, hne] using hb
    · have hnext' : sGetNextBlock m' a = a + actSize size := hok.next
      rw [hnext']
      unfold actSize
      omega

end

end Salloc
