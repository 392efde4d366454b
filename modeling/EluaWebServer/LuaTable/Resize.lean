import EluaWebServer.LuaTable.Compact
import EluaWebServer.LuaTable.Rechain

/-!
# Resizing the hash part in place

`resize_hashpart` keeps what every key holds, and the table is in order again
afterwards, for every new size that the staying keys fit into.
-/

namespace LuaTable

variable {α β : Type} [Key α]

/-- A table whose hash part is to be resized to `nhsize` nodes. -/
structure Resizable (t : Table α β) (nhsize : Nat) (S : Finset α) : Prop where
  inside : ∀ {i k}, (t.node i).key = some k → t.dummy = false ∧ i < t.sizenode
  empty : ∀ {i}, (t.node i).key = none → t.node i = Node.empty
  distinct : ∀ {i j k}, (t.node i).key = some k → (t.node j).key = some k → i = j
  vacant : ∀ {i k j}, (t.node i).key = some k → arrayIndex t k = some j → t.array j = none
  not_isNaN : ∀ {i k}, (t.node i).key = some k → Key.isNaN k = false
  sizearray_le : t.sizearray ≤ MAXASIZE
  staying : ∀ {k v}, HashEntry t k v → arrayIndex t k = none → k ∈ S
  room : S.card ≤ nhsize

/-- `t'` is `t` with a hash part of `2 ^ lsize` nodes. -/
structure Rebuilt (t t' : Table α β) (lsize : Nat) : Prop where
  ok : Ok t'
  sizearray : t'.sizearray = t.sizearray
  lsizenode : t'.lsizenode = lsize
  dummy : t'.dummy = false
  entries : ∀ k v, Entry t' k v ↔ Entry t k v
  origin : ∀ {i k}, (t'.node i).key = some k → (∃ v, HashEntry t k v) ∧ arrayIndex t k = none

/-- `lsize` of `resize_hashpart`. -/
def lsizeFor (nhsize : Nat) : Nat := if 0 < nhsize then ceillog2 nhsize else 0

theorem le_two_pow_lsizeFor (nhsize : Nat) : nhsize ≤ 2 ^ lsizeFor nhsize := by
  unfold lsizeFor
  split
  next hpos => exact le_two_pow_ceillog2 hpos
  next => omega

section

variable {t : Table α β} {nhsize : Nat} {S : Finset α}

/-- `oldhsize` of `resize_hashpart`. -/
def oldhsize (t : Table α β) : Nat := if t.dummy then 0 else 2 ^ t.lsizenode

theorem Resizable.node_eq (hr : Resizable t nhsize S) {i : Nat} (hi : oldhsize t ≤ i) :
    t.node i = Node.empty := by
  refine hr.empty ?_
  by_contra hne
  obtain ⟨k, hk⟩ := Option.ne_none_iff_exists'.mp hne
  obtain ⟨hdummy, hlt⟩ := hr.inside hk
  rw [oldhsize, hdummy, if_neg Bool.false_ne_true] at hi
  exact absurd hlt (Nat.not_lt.mpr hi)

omit [Key α] in
theorem resizenodevector_two_pow (t : Table α β) (oldsize : Nat) {l : Nat} (hl : l ≤ MAXBITS) :
    resizenodevector t oldsize (2 ^ l) = .ok { t with
      node := fun i =>
        if i < (if t.dummy = true then 0 else oldsize) ∧ i < 2 ^ l then t.node i else Node.empty
      dummy := false
      lsizenode := l
      lastfree := 2 ^ l } := by
  rw [resizenodevector, if_neg (Nat.two_pow_pos l).ne']
  dsimp only
  rw [ceillog2_two_pow, if_neg (Nat.not_lt.mpr hl)]

/-- The table that the first loop begins with. -/
def enlarged (t : Table α β) (l : Nat) : Table α β :=
  { t with dummy := false, lsizenode := l, lastfree := 2 ^ l }

theorem Resizable.enlarge (hr : Resizable t nhsize S) {l : Nat} (hl : l ≤ MAXBITS) :
    (if oldhsize t < 2 ^ l then resizenodevector t (oldhsize t) (2 ^ l)
      else .ok { t with lsizenode := l, lastfree := 2 ^ l }) = .ok (enlarged t l) := by
  by_cases hgrow : oldhsize t < 2 ^ l
  · rw [if_pos hgrow, resizenodevector_two_pow t _ hl]
    refine congrArg Except.ok (Table.ext rfl rfl (funext fun i => ?_) rfl rfl rfl)
    dsimp only [enlarged]
    by_cases hi : i < (if t.dummy = true then 0 else oldhsize t) ∧ i < 2 ^ l
    · rw [if_pos hi]
    · rw [if_neg hi]
      refine (hr.node_eq ?_).symm
      by_contra hlt
      have hold : i < oldhsize t := Nat.lt_of_not_le hlt
      refine hi ⟨?_, by omega⟩
      by_cases hdummy : t.dummy = true
      · rw [oldhsize, if_pos hdummy] at hold
        exact absurd hold (Nat.not_lt_zero i)
      · rw [if_neg hdummy]
        exact hold
  · rw [if_neg hgrow]
    have hdummy : t.dummy = false := by
      by_contra h
      rw [oldhsize, if_pos (by simpa using h)] at hgrow
      exact hgrow (Nat.two_pow_pos l)
    rw [enlarged, ← hdummy]

theorem Resizable.ready (hr : Resizable t nhsize S) {l : Nat} (hl : nhsize ≤ 2 ^ l) :
    Ready (enlarged t l) (2 ^ l) S where
  empty := hr.empty
  distinct := hr.distinct
  vacant := hr.vacant
  lastfree := rfl
  staying := hr.staying
  room := hr.room.trans hl

/-- The table between the two loops, of which only the new nodes are left. -/
def cut (s : Table α β) (l : Nat) : Table α β :=
  { s with
    node := fun i => if i < 2 ^ l then s.node i else Node.empty
    lastfree := 2 ^ l }

section Cut

variable {s : Table α β} {l : Nat}

theorem Resizable.cut_eq (hr : Resizable t nhsize S)
    (hc : Compacted (enlarged t l) (2 ^ l) (oldhsize t) s) (hl : l ≤ MAXBITS) :
    (if 2 ^ l < oldhsize t then resizenodevector s (oldhsize t) (2 ^ l) else .ok s) =
      .ok (cut s l) := by
  have hdummy : s.dummy = false := hc.dummy
  have hlsize : s.lsizenode = l := hc.lsizenode
  by_cases hshrink : 2 ^ l < oldhsize t
  · rw [if_pos hshrink, resizenodevector_two_pow s _ hl]
    refine congrArg Except.ok (Table.ext rfl rfl (funext fun i => ?_) hlsize.symm hdummy.symm rfl)
    dsimp only [cut]
    rw [hdummy, if_neg Bool.false_ne_true]
    exact if_congr (and_iff_right_of_imp fun h => h.trans hshrink) rfl rfl
  · rw [if_neg hshrink]
    refine congrArg Except.ok (Table.ext rfl rfl (funext fun i => ?_) rfl rfl
      (hc.untouched (Nat.le_of_not_lt hshrink)))
    dsimp only [cut]
    split
    next => rfl
    next hi =>
      rw [hc.ahead i (by omega)]
      exact hr.node_eq (by omega)

/-- An element between the two loops. -/
theorem Resizable.of_cut (hr : Resizable t nhsize S)
    (hc : Compacted (enlarged t l) (2 ^ l) (oldhsize t) s) {i : Nat} {k : α}
    (hk : ((cut s l).node i).key = some k) :
    i < 2 ^ l ∧ i < oldhsize t ∧ (cut s l).node i = s.node i := by
  dsimp only [cut] at hk ⊢
  have hlt : i < 2 ^ l := by
    by_contra h
    rw [if_neg h] at hk
    cases hk
  rw [if_pos hlt] at hk ⊢
  refine ⟨hlt, ?_, rfl⟩
  by_contra h
  have hahead : s.node i = t.node i := hc.ahead i (Nat.le_of_not_lt h)
  rw [hahead, hr.node_eq (Nat.le_of_not_lt h)] at hk
  cases hk

theorem Resizable.cut_next (hr : Resizable t nhsize S)
    (hc : Compacted (enlarged t l) (2 ^ l) (oldhsize t) s) (i : Nat) :
    ((cut s l).node i).next = none := by
  dsimp only [cut]
  split
  next =>
    rcases Nat.lt_or_ge i (oldhsize t) with hlt | hge
    · exact hc.bare i hlt
    · have hahead : s.node i = t.node i := hc.ahead i hge
      rw [hahead, hr.node_eq hge]
      rfl
  next => rfl

theorem Resizable.cut_live (hr : Resizable t nhsize S)
    (hc : Compacted (enlarged t l) (2 ^ l) (oldhsize t) s) : Live (cut s l).node := by
  intro i hval
  by_contra hne
  obtain ⟨k, hk⟩ := Option.ne_none_iff_exists'.mp hne
  obtain ⟨-, hlt, heq⟩ := hr.of_cut hc hk
  rw [heq] at hk hval
  rw [(hc.live i hlt).mp hval] at hk
  cases hk

/-- No chains are left between the two loops. -/
theorem Resizable.cut_sound (hr : Resizable t nhsize S)
    (hc : Compacted (enlarged t l) (2 ^ l) (oldhsize t) s) (main : α → Nat) :
    Sound main (2 ^ l) (cut s l).node where
  chained := by
    refine ⟨fun {a b c} h => ?_, fun _ => 0, fun {a b} h => ?_⟩
    · rw [hr.cut_next hc] at h
      cases h
    · rw [hr.cut_next hc] at h
      cases h
  inside := fun hk => (hr.of_cut hc hk).1
  empty := by
    intro i hk
    refine Node.ext hk ?_ (hr.cut_next hc i)
    by_contra hne
    obtain ⟨v, hv⟩ := Option.ne_none_iff_exists'.mp hne
    dsimp only [cut] at hk hv
    split at hv
    next hi =>
      rw [if_pos hi] at hk
      rcases Nat.lt_or_ge i (oldhsize t) with hlt | hge
      · rw [(hc.live i hlt).mpr hk] at hv
        cases hv
      · have hahead : s.node i = t.node i := hc.ahead i hge
        rw [hahead, hr.node_eq hge] at hv
        cases hv
    next => cases hv
  target := by
    intro i j h
    rw [hr.cut_next hc] at h
    cases h
  distinct := by
    intro i j k hi hj
    obtain ⟨hil, -, hieq⟩ := hr.of_cut hc hi
    obtain ⟨hjl, -, hjeq⟩ := hr.of_cut hc hj
    rw [hieq] at hi
    rw [hjeq] at hj
    exact hc.distinct (Or.inl hil) (Or.inl hjl) hi hj
  placed := by
    intro i k _
    refine Or.inr ⟨hr.cut_next hc i, fun j hj => ?_⟩
    rw [hr.cut_next hc] at hj
    cases hj

end Cut

/-- What there is between the two loops. -/
theorem Resizable.cut_entries (hr : Resizable t nhsize S) {s : Table α β} {l : Nat}
    (hc : Compacted (enlarged t l) (2 ^ l) (oldhsize t) s) (k : α) (v : β) :
    ((∃ j, arrayIndex t k = some j ∧ s.array j = some v) ∨ HashEntry (cut s l) k v) ↔
      Entry t k v := by
  have hbefore : ((∃ j, arrayIndex t k = some j ∧ s.array j = some v) ∨
      ∃ p, (p < 2 ^ l ∨ oldhsize t ≤ p) ∧ (s.node p).key = some k ∧ (s.node p).val = some v) ↔
        Entry t k v := hc.entries k v
  rw [← hbefore]
  refine or_congr Iff.rfl (exists_congr fun p => ?_)
  constructor
  · rintro ⟨hk, hv⟩
    obtain ⟨hlt, -, heq⟩ := hr.of_cut hc hk
    rw [heq] at hk hv
    exact ⟨Or.inl hlt, hk, hv⟩
  · rintro ⟨hp, hk, hv⟩
    have hlt : p < 2 ^ l := by
      by_contra h
      have hahead : s.node p = t.node p := hc.ahead p (by omega)
      rw [hahead, hr.node_eq (by omega)] at hk
      cases hk
    dsimp only [cut]
    rw [if_pos hlt]
    exact ⟨hk, hv⟩

/-- The elements between the two loops are old ones, and stay in the hash part. -/
theorem Resizable.cut_keys (hr : Resizable t nhsize S) {s : Table α β} {l : Nat}
    (hc : Compacted (enlarged t l) (2 ^ l) (oldhsize t) s) {i : Nat} {k : α}
    (hk : ((cut s l).node i).key = some k) :
    (∃ v, HashEntry t k v) ∧ arrayIndex t k = none := by
  obtain ⟨hlt, hold, heq⟩ := hr.of_cut hc hk
  have hout : arrayIndex t k = none := hc.outside hold hlt (heq ▸ hk)
  refine ⟨?_, hout⟩
  obtain ⟨v, hv⟩ := Option.ne_none_iff_exists'.mp fun h : ((cut s l).node i).val = none => by
    rw [hr.cut_live hc i h] at hk
    cases hk
  refine ⟨v, ((hr.cut_entries hc k v).mp (Or.inr ⟨i, hk, hv⟩)).resolve_left ?_⟩
  rintro ⟨j, hj, -⟩
  rw [hout] at hj
  cases hj

theorem resizeHashpart_eq (t : Table α β) (nhsize : Nat) :
    resizeHashpart t nhsize =
      if MAXBITS < lsizeFor nhsize then .error .overflow
      else
        ((if oldhsize t < 2 ^ lsizeFor nhsize then
            resizenodevector t (oldhsize t) (2 ^ lsizeFor nhsize)
          else .ok { t with lsizenode := lsizeFor nhsize, lastfree := 2 ^ lsizeFor nhsize }).bind
        fun t₁ => ((List.range (oldhsize t)).foldlM (compact (2 ^ lsizeFor nhsize)) t₁).bind
        fun s => (if 2 ^ lsizeFor nhsize < oldhsize t then
            resizenodevector s (oldhsize t) (2 ^ lsizeFor nhsize)
          else .ok s).bind
        fun s => (List.range (2 ^ lsizeFor nhsize)).foldlM rechain s) :=
  rfl

/-- **`resize_hashpart`** rebuilds the hash part, or there are too many nodes. -/
theorem Resizable.resizeHashpart (hr : Resizable t nhsize S) :
    (MAXBITS < lsizeFor nhsize ∧ resizeHashpart t nhsize = .error .overflow) ∨
      (lsizeFor nhsize ≤ MAXBITS ∧ ∃ t', LuaTable.resizeHashpart t nhsize = .ok t' ∧
        Rebuilt t t' (lsizeFor nhsize)) := by
  rw [resizeHashpart_eq]
  by_cases hover : MAXBITS < lsizeFor nhsize
  · rw [if_pos hover]
    exact Or.inl ⟨hover, rfl⟩
  · rw [if_neg hover]
    refine Or.inr ⟨Nat.le_of_not_lt hover, ?_⟩
    have hl : lsizeFor nhsize ≤ MAXBITS := Nat.le_of_not_lt hover
    generalize hlsize : lsizeFor nhsize = l at hl
    have hroom : nhsize ≤ 2 ^ l := hlsize ▸ le_two_pow_lsizeFor nhsize
    obtain ⟨s, hs, hc⟩ := compact_spec (hr.ready hroom) (oldhsize t)
    have hcut : (cut s l).lsizenode = l := hc.lsizenode
    have hsize : (cut s l).sizenode = 2 ^ l := by rw [Table.sizenode, hcut]
    have hdummy : (cut s l).dummy = false := hc.dummy
    obtain ⟨t', ht', heq, hsound, hperm, hsettled⟩ := rechain_spec (t := cut s l)
      (hsize.symm ▸ hr.cut_sound hc (main (cut s l))) (hr.cut_live hc) hdummy
    rw [hr.enlarge hl]
    change ∃ t', (((List.range (oldhsize t)).foldlM (compact (2 ^ l)) (enlarged t l)).bind _) =
      _ ∧ _
    rw [hs]
    change ∃ t', ((if 2 ^ l < oldhsize t then resizenodevector s (oldhsize t) (2 ^ l)
      else .ok s).bind _) = _ ∧ _
    rw [hr.cut_eq hc hl]
    rw [hsize] at ht'
    refine ⟨t', ht', ?_⟩
    have hmain : main t' = main (cut s l) := by
      rw [heq]
      rfl
    have hsize' : t'.sizenode = (cut s l).sizenode := by
      rw [heq]
      rfl
    have harray : t'.array = s.array := by
      rw [heq]
      rfl
    have hsizearray : t'.sizearray = t.sizearray := by
      rw [heq]
      exact hc.sizearray
    have hindex : ∀ k, arrayIndex t' k = arrayIndex t k := fun k => by
      rw [arrayIndex, arrayIndex, hsizearray]
    have hlastfree : t'.lastfree = 2 ^ l := by
      rw [heq]
      rfl
    have hdummy' : t'.dummy = false := by
      rw [heq]
      exact hdummy
    have hlsize' : t'.lsizenode = l := by
      rw [heq]
      exact hcut
    have hkeys : ∀ {i k}, (t'.node i).key = some k →
        (∃ v, HashEntry t k v) ∧ arrayIndex t k = none := by
      intro i k hk
      obtain ⟨e, he⟩ := hperm
      rw [(he i).1] at hk
      exact hr.cut_keys hc hk
    refine ⟨⟨?_, ?_, ?_, ?_, ?_, ?_, ?_, ?_, ?_⟩, hsizearray, hlsize', hdummy', ?_, hkeys⟩
    · rw [hmain, hsize']
      exact hsound
    · intro i k hk
      rw [hmain]
      exact hsettled i k hk
    · intro _ i hle hlt
      rw [hlastfree] at hle
      rw [hsize', hsize] at hlt
      exact absurd hlt (Nat.not_lt.mpr hle)
    · rw [hlastfree, hsize', hsize]
    · intro i k hk
      rw [hindex]
      exact (hkeys hk).2
    · intro i k hk
      obtain ⟨⟨v, j, hj, -⟩, -⟩ := hkeys hk
      exact hr.not_isNaN hj
    · rw [hsizearray]
      exact hr.sizearray_le
    · rw [hlsize']
      exact hl
    · intro h
      rw [hdummy'] at h
      cases h
    · intro k v
      rw [← hr.cut_entries hc k v, Entry, HashEntry, hperm.exists_iff, harray]
      simp only [hindex]
      rfl

end

end LuaTable
