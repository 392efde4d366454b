import EluaWebServer.LuaTable.Insert
import EluaWebServer.LuaTable.Sizes
import EluaWebServer.Lib.Loop

/-!
# Taking the chains apart

The first loop of `resize_hashpart` goes through the old nodes in place.  Nodes
without a value are cleared, elements with an array index go to the array part,
and those past the new end go to a free node before it.  What a key holds is
the same after each round, when the nodes that are left behind do not count.
-/

namespace LuaTable

variable {α β : Type} [Key α]

/-- A table whose nodes are about to be taken apart, for `m` new ones.  The keys that stay in the
hash part are among `S`. -/
structure Ready (t : Table α β) (m : Nat) (S : Finset α) : Prop where
  empty : ∀ {i}, (t.node i).key = none → t.node i = Node.empty
  distinct : ∀ {i j k}, (t.node i).key = some k → (t.node j).key = some k → i = j
  /-- What goes to the array part finds an element there that is nil. -/
  vacant : ∀ {i k j}, (t.node i).key = some k → arrayIndex t k = some j → t.array j = none
  lastfree : t.lastfree = m
  staying : ∀ {k v}, HashEntry t k v → arrayIndex t k = none → k ∈ S
  room : S.card ≤ m

/-- `s` is what has become of `t` after `i` rounds. -/
structure Compacted (t : Table α β) (m i : Nat) (s : Table α β) : Prop where
  sizearray : s.sizearray = t.sizearray
  lsizenode : s.lsizenode = t.lsizenode
  dummy : s.dummy = t.dummy
  ahead : ∀ p, i ≤ p → s.node p = t.node p
  bare : ∀ p, p < i → (s.node p).next = none
  live : ∀ p, p < i → ((s.node p).val = none ↔ (s.node p).key = none)
  distinct : ∀ {p q k}, p < m ∨ i ≤ p → q < m ∨ i ≤ q → (s.node p).key = some k →
    (s.node q).key = some k → p = q
  entries : ∀ k v, ((∃ j, arrayIndex t k = some j ∧ s.array j = some v) ∨
    ∃ p, (p < m ∨ i ≤ p) ∧ (s.node p).key = some k ∧ (s.node p).val = some v) ↔ Entry t k v
  vacant : ∀ {p k j}, i ≤ p → (s.node p).key = some k → arrayIndex t k = some j → s.array j = none
  outside : ∀ {p k}, p < i → p < m → (s.node p).key = some k → arrayIndex t k = none
  lastfree_le : s.lastfree ≤ m
  untouched : i ≤ m → s.lastfree = m
  full : ∀ p, s.lastfree ≤ p → p < m → (s.node p).key ≠ none

section

variable {t s : Table α β} {m i : Nat} {S : Finset α}

theorem Ready.compacted (hr : Ready t m S) : Compacted t m 0 t where
  sizearray := rfl
  lsizenode := rfl
  dummy := rfl
  ahead := fun _ _ => rfl
  bare := fun p hp => absurd hp (Nat.not_lt_zero p)
  live := fun p hp => absurd hp (Nat.not_lt_zero p)
  distinct := fun _ _ hp hq => hr.distinct hp hq
  entries := fun _ _ => or_congr Iff.rfl
    (exists_congr fun p => and_iff_right (Or.inr (Nat.zero_le p)))
  vacant := fun _ hp hj => hr.vacant hp hj
  outside := fun hp => absurd hp (Nat.not_lt_zero _)
  lastfree_le := hr.lastfree.le
  untouched := fun _ => hr.lastfree
  full := fun _ hle hp => absurd (hr.lastfree ▸ hle) (Nat.not_le.mpr hp)

/-- Two keys with the same place in the array part are the same. -/
theorem eq_of_arrayIndex {k k' : α} {j : Nat} (hk : arrayIndex t k = some j)
    (hk' : arrayIndex t k' = some j) : k = k' := by
  have h := (arrayIndex_eq_some_iff.mp hk).1
  have h' := (arrayIndex_eq_some_iff.mp hk').1
  rw [← Key.ofInt_index h, ← Key.ofInt_index h']

theorem Compacted.arrayIndex_eq (hc : Compacted t m i s) (k : α) :
    arrayIndex s k = arrayIndex t k := by
  rw [arrayIndex, arrayIndex, hc.sizearray]

/-! ## A round that empties its node -/

/-- The node is empty after the round; the array part is `array` then. -/
theorem Compacted.emptied (hc : Compacted t m i s) {array : Nat → Option β}
    (hentries : ∀ k v, ((∃ j, arrayIndex t k = some j ∧ array j = some v) ∨
      ∃ p, p ≠ i ∧ (p < m ∨ i ≤ p) ∧ (s.node p).key = some k ∧ (s.node p).val = some v) ↔
        Entry t k v)
    (hvacant : ∀ {p k j}, p ≠ i → i ≤ p → (s.node p).key = some k → arrayIndex t k = some j →
      array j = none) :
    Compacted t m (i + 1)
      { s with array := array, node := Function.update s.node i Node.empty } := by
  have hself : Function.update s.node i Node.empty i = Node.empty := Function.update_self ..
  have hne : ∀ p, p ≠ i → Function.update s.node i Node.empty p = s.node p := fun p hp =>
    Function.update_of_ne hp ..
  have hnode : ∀ {p k}, (Function.update s.node i Node.empty p).key = some k →
      p ≠ i ∧ (s.node p).key = some k := by
    intro p k hk
    have hp : p ≠ i := fun heq => by
      rw [heq, hself] at hk
      cases hk
    exact ⟨hp, hne p hp ▸ hk⟩
  refine ⟨hc.sizearray, hc.lsizenode, hc.dummy, ?_, ?_, ?_, ?_, ?_, ?_, ?_, hc.lastfree_le,
    fun h => hc.untouched (by omega), ?_⟩ <;> dsimp only
  · intro p hp
    rw [hne p (by omega)]
    exact hc.ahead p (by omega)
  · intro p hp
    by_cases hpi : p = i
    · rw [hpi, hself]
      rfl
    · rw [hne p hpi]
      exact hc.bare p (by omega)
  · intro p hp
    by_cases hpi : p = i
    · rw [hpi, hself]
      exact iff_of_true rfl rfl
    · rw [hne p hpi]
      exact hc.live p (by omega)
  · intro p q k hp hq hkp hkq
    exact hc.distinct (by omega) (by omega) (hnode hkp).2 (hnode hkq).2
  · intro k v
    rw [← hentries k v]
    refine or_congr Iff.rfl (exists_congr fun p => ?_)
    by_cases hpi : p = i
    · rw [hpi, hself]
      exact iff_of_false (fun h => nomatch h.2.2) (fun h => h.1 rfl)
    · rw [hne p hpi, and_iff_right hpi]
      exact and_congr_left fun _ => by omega
  · intro p k j hp hk
    obtain ⟨hpi, hkp⟩ := hnode hk
    exact hvacant hpi (by omega) hkp
  · intro p k hp hpm hk
    obtain ⟨hpi, hkp⟩ := hnode hk
    exact hc.outside (by omega) hpm hkp
  · intro p hle hp
    have hpi : p ≠ i := fun heq => by
      have hfree := hc.untouched (heq ▸ hp.le)
      omega
    rw [hne p hpi]
    exact hc.full p hle hp

/-- The node has no value. -/
theorem Compacted.clear (hc : Compacted t m i s) (hval : (s.node i).val = none) :
    Compacted t m (i + 1) { s with node := Function.update s.node i Node.empty } := by
  refine hc.emptied (fun k v => ?_) fun _ hle hk hj => hc.vacant hle hk hj
  rw [← hc.entries k v]
  refine or_congr Iff.rfl (exists_congr fun p => ?_)
  by_cases hpi : p = i
  · rw [hpi, hval]
    exact iff_of_false (fun h => h.1 rfl) (fun h => nomatch h.2.2)
  · exact and_iff_right hpi

/-- The element goes to the array part. -/
theorem Compacted.toArray (hc : Compacted t m i s) {k : α} {v : β} {j : Nat}
    (hk : (s.node i).key = some k) (hv : (s.node i).val = some v) (hj : arrayIndex t k = some j) :
    Compacted t m (i + 1)
      { s with
        array := Function.update s.array j (some v)
        node := Function.update s.node i Node.empty } := by
  have hvacant := hc.vacant le_rfl hk hj
  have hself : Function.update s.array j (some v) j = some v := Function.update_self ..
  have hne : ∀ j', j' ≠ j → Function.update s.array j (some v) j' = s.array j' := fun j' h =>
    Function.update_of_ne h ..
  refine hc.emptied (fun k' v' => ?_) ?_
  · rw [← hc.entries k' v']
    constructor
    · rintro (⟨j', hj', hv'⟩ | ⟨p, -, hp⟩)
      · by_cases hjj : j' = j
        · rw [hjj] at hj' hv'
          rw [hself] at hv'
          obtain rfl := Option.some.inj hv'
          obtain rfl := eq_of_arrayIndex hj hj'
          exact Or.inr ⟨i, Or.inr le_rfl, hk, hv⟩
        · exact Or.inl ⟨j', hj', hne j' hjj ▸ hv'⟩
      · exact Or.inr ⟨p, hp⟩
    · rintro (⟨j', hj', hv'⟩ | ⟨p, hp, hkp, hvp⟩)
      · have hjj : j' ≠ j := fun heq => by
          rw [heq, hvacant] at hv'
          cases hv'
        exact Or.inl ⟨j', hj', (hne j' hjj).trans hv'⟩
      · by_cases hpi : p = i
        · rw [hpi] at hkp hvp
          obtain rfl := Option.some.inj (hk.symm.trans hkp)
          obtain rfl := Option.some.inj (hv.symm.trans hvp)
          exact Or.inl ⟨j, hj, hself⟩
        · exact Or.inr ⟨p, hpi, hp, hkp, hvp⟩
  · intro p k' j' hpi hle hk' hj'
    have hjj : j' ≠ j := fun heq => by
      rw [heq] at hj'
      obtain rfl := eq_of_arrayIndex hj hj'
      exact hpi (hc.distinct (Or.inr hle) (Or.inr le_rfl) hk' hk)
    rw [hne j' hjj]
    exact hc.vacant hle hk' hj'

/-! ## A round that keeps its element in the hash part -/

/-- The node is among the new ones. -/
theorem Compacted.stay (hc : Compacted t m i s) {k : α} {v : β} (hk : (s.node i).key = some k)
    (hv : (s.node i).val = some v) (hout : arrayIndex t k = none) (him : i < m) :
    Compacted t m (i + 1)
      { s with node := Function.update s.node i { s.node i with next := none } } := by
  have hself : Function.update s.node i { s.node i with next := none } i =
      { s.node i with next := none } := Function.update_self ..
  have hne : ∀ p, p ≠ i → Function.update s.node i { s.node i with next := none } p = s.node p :=
    fun p hp => Function.update_of_ne hp ..
  have hkey : ∀ p, (Function.update s.node i { s.node i with next := none } p).key =
      (s.node p).key := by
    intro p
    by_cases hpi : p = i
    · rw [hpi, hself]
    · rw [hne p hpi]
  have hval : ∀ p, (Function.update s.node i { s.node i with next := none } p).val =
      (s.node p).val := by
    intro p
    by_cases hpi : p = i
    · rw [hpi, hself]
    · rw [hne p hpi]
  refine ⟨hc.sizearray, hc.lsizenode, hc.dummy, ?_, ?_, ?_, ?_, ?_, ?_, ?_, hc.lastfree_le,
    fun h => hc.untouched (by omega), ?_⟩ <;> dsimp only
  · intro p hp
    rw [hne p (by omega)]
    exact hc.ahead p (by omega)
  · intro p hp
    by_cases hpi : p = i
    · rw [hpi, hself]
    · rw [hne p hpi]
      exact hc.bare p (by omega)
  · intro p hp
    rw [hkey, hval]
    by_cases hpi : p = i
    · rw [hpi, hv, hk]
      exact iff_of_false (fun h => nomatch h) fun h => nomatch h
    · exact hc.live p (by omega)
  · intro p q k' hp hq hkp hkq
    rw [hkey] at hkp hkq
    exact hc.distinct (by omega) (by omega) hkp hkq
  · intro k' v'
    rw [← hc.entries k' v']
    refine or_congr Iff.rfl (exists_congr fun p => ?_)
    rw [hkey, hval]
    exact and_congr_left fun _ => by omega
  · intro p k' j hp hk'
    rw [hkey] at hk'
    exact hc.vacant (by omega) hk'
  · intro p k' hp hpm hk'
    rw [hkey] at hk'
    by_cases hpi : p = i
    · rw [hpi] at hk'
      obtain rfl := Option.some.inj (hk.symm.trans hk')
      exact hout
    · exact hc.outside (by omega) hpm hk'
  · intro p hle hp
    rw [hkey]
    exact hc.full p hle hp

/-- There is a free node among the new ones for an element past their end. -/
theorem Compacted.freeBelow_ne_none (hr : Ready t m S) (hc : Compacted t m i s) {k : α} {v : β}
    (hk : (s.node i).key = some k) (hv : (s.node i).val = some v) (hout : arrayIndex t k = none)
    (him : m ≤ i) : freeBelow s.node s.lastfree ≠ none := by
  intro hnone
  have hall : ∀ p, p < m → (s.node p).key ≠ none := by
    intro p hp
    rcases Nat.lt_or_ge p s.lastfree with hlt | hge
    · exact freeBelow_eq_none hnone p hlt
    · exact hc.full p hge hp
  -- All of them, and this one, have keys of `S`.
  have hstay : ∀ p ∈ insert i (Finset.range m), ∃ k ∈ S, (s.node p).key = some k := by
    intro p hp
    rcases Finset.mem_insert.mp hp with rfl | hp
    · have hentry := (hc.entries k v).mp (Or.inr ⟨p, Or.inr le_rfl, hk, hv⟩)
      refine ⟨k, hr.staying (hentry.resolve_left ?_) hout, hk⟩
      rintro ⟨j, hj, -⟩
      rw [hout] at hj
      cases hj
    · have hpm := Finset.mem_range.mp hp
      obtain ⟨k', hk'⟩ := Option.ne_none_iff_exists'.mp (hall p hpm)
      obtain ⟨v', hv'⟩ := Option.ne_none_iff_exists'.mp fun h =>
        hall p hpm ((hc.live p (by omega)).mp h)
      have hout' := hc.outside (by omega) hpm hk'
      have hentry := (hc.entries k' v').mp (Or.inr ⟨p, Or.inl hpm, hk', hv'⟩)
      refine ⟨k', hr.staying (hentry.resolve_left ?_) hout', hk'⟩
      rintro ⟨j, hj, -⟩
      rw [hout'] at hj
      cases hj
  have hplace : ∀ p ∈ insert i (Finset.range m), p < m ∨ i ≤ p := by
    intro p hp
    rcases Finset.mem_insert.mp hp with rfl | hp
    · exact Or.inr le_rfl
    · exact Or.inl (Finset.mem_range.mp hp)
  have : Nonempty α := ⟨k⟩
  choose! f hfS hf using hstay
  have hcard := Finset.card_le_card_of_injOn f hfS (by
    intro p hp q hq heq
    exact hc.distinct (hplace p hp) (hplace q hq) (hf p hp) (heq ▸ hf q hq))
  rw [Finset.card_insert_of_notMem fun h => absurd (Finset.mem_range.mp h) (Nat.not_lt.mpr him),
    Finset.card_range] at hcard
  have := hr.room
  omega

/-- The element goes to a free node. -/
theorem Compacted.toFree (hc : Compacted t m i s) {k : α} {v : β} {n : Nat}
    (hk : (s.node i).key = some k) (hv : (s.node i).val = some v) (hout : arrayIndex t k = none)
    (him : m ≤ i) (hn : freeBelow s.node s.lastfree = some n) :
    Compacted t m (i + 1)
      { s with
        node := Function.update (Function.update s.node i ⟨some k, some v, none⟩) n
          ⟨some k, some v, none⟩
        lastfree := n } := by
  obtain ⟨hlt, hfree, hbetween⟩ := freeBelow_eq_some hn
  have hnm : n < m := Nat.lt_of_lt_of_le hlt hc.lastfree_le
  have hni : n ≠ i := by omega
  generalize hnode : Function.update (Function.update s.node i ⟨some k, some v, none⟩) n
    ⟨some k, some v, none⟩ = node
  have hself : node n = ⟨some k, some v, none⟩ := by
    rw [← hnode, Function.update_self]
  have hghost : node i = ⟨some k, some v, none⟩ := by
    rw [← hnode, Function.update_of_ne hni.symm, Function.update_self]
  have hne : ∀ p, p ≠ n → p ≠ i → node p = s.node p := fun p hpn hpi => by
    rw [← hnode, Function.update_of_ne hpn, Function.update_of_ne hpi]
  refine ⟨hc.sizearray, hc.lsizenode, hc.dummy, ?_, ?_, ?_, ?_, ?_, ?_, ?_, hnm.le,
    fun h => by omega, ?_⟩ <;> dsimp only
  · intro p hp
    rw [hne p (by omega) (by omega)]
    exact hc.ahead p (by omega)
  · intro p hp
    by_cases hpn : p = n
    · rw [hpn, hself]
    · by_cases hpi : p = i
      · rw [hpi, hghost]
      · rw [hne p hpn hpi]
        exact hc.bare p (by omega)
  · intro p hp
    by_cases hpn : p = n
    · rw [hpn, hself]
      exact iff_of_false (fun h => nomatch h) fun h => nomatch h
    · by_cases hpi : p = i
      · rw [hpi, hghost]
        exact iff_of_false (fun h => nomatch h) fun h => nomatch h
      · rw [hne p hpn hpi]
        exact hc.live p (by omega)
  · -- the free node stands for the one that is left behind
    have hother : ∀ {q k'}, q < m ∨ i + 1 ≤ q → (node q).key = some k' → q ≠ n →
        (s.node q).key = some k' ∧ k' ≠ k := by
      intro q k' hq hkq hqn
      rw [hne q hqn (by omega)] at hkq
      refine ⟨hkq, fun heq => ?_⟩
      have hqi : q = i := hc.distinct (by omega) (Or.inr le_rfl) hkq (heq ▸ hk)
      omega
    intro p q k' hp hq hkp hkq
    by_cases hpn : p = n <;> by_cases hqn : q = n
    · rw [hpn, hqn]
    · rw [hpn, hself] at hkp
      exact absurd (Option.some.inj hkp).symm (hother hq hkq hqn).2
    · rw [hqn, hself] at hkq
      exact absurd (Option.some.inj hkq).symm (hother hp hkp hpn).2
    · exact hc.distinct (by omega) (by omega) (hother hp hkp hpn).1 (hother hq hkq hqn).1
  · intro k' v'
    rw [← hc.entries k' v']
    refine or_congr Iff.rfl ?_
    constructor
    · rintro ⟨p, hp, hkp, hvp⟩
      by_cases hpn : p = n
      · rw [hpn, hself] at hkp hvp
        exact ⟨i, Or.inr le_rfl, hk.trans hkp, hv.trans hvp⟩
      · rw [hne p hpn (by omega)] at hkp hvp
        exact ⟨p, by omega, hkp, hvp⟩
    · rintro ⟨p, hp, hkp, hvp⟩
      by_cases hpi : p = i
      · rw [hpi] at hkp hvp
        refine ⟨n, Or.inl hnm, ?_, ?_⟩
        · rw [hself, ← hk, hkp]
        · rw [hself, ← hv, hvp]
      · have hpn : p ≠ n := fun heq => by
          rw [heq, hfree] at hkp
          cases hkp
        refine ⟨p, by omega, ?_, ?_⟩
        · rw [hne p hpn hpi, hkp]
        · rw [hne p hpn hpi, hvp]
  · intro p k' j hp hk'
    rw [hne p (by omega) (by omega)] at hk'
    exact hc.vacant (by omega) hk'
  · intro p k' hp hpm hk'
    by_cases hpn : p = n
    · rw [hpn, hself] at hk'
      obtain rfl := Option.some.inj hk'
      exact hout
    · rw [hne p hpn (by omega)] at hk'
      exact hc.outside (by omega) hpm hk'
  · intro p hle hp
    by_cases hpn : p = n
    · rw [hpn, hself]
      exact Option.some_ne_none k
    · rw [hne p hpn (by omega)]
      rcases Nat.lt_or_ge p s.lastfree with hfar | hge
      · exact hbetween p (by omega) hfar
      · exact hc.full p hge hp

/-! ## The loop -/

theorem moveNumber_of_array {k : α} {j : Nat} (hk : (t.node i).key = some k)
    (hj : arrayIndex t k = some j) :
    moveNumber t i = some
      ((t.setArray j (t.node i).val).setNode i { t.node i with key := none, val := none }) := by
  obtain ⟨hindex, hlt⟩ := arrayIndex_eq_some_iff.mp hj
  unfold moveNumber
  rw [hk, Option.bind_some, hindex]
  dsimp only
  rw [if_pos (by omega), show ((j : Int) + 1).toNat - 1 = j by omega]

theorem moveNumber_of_node {k : α} (hk : (t.node i).key = some k) (hout : arrayIndex t k = none) :
    moveNumber t i = none := by
  unfold moveNumber
  rw [hk, Option.bind_some]
  cases hindex : Key.index k with
  | none => rfl
  | some j =>
      rw [arrayIndex, hindex, Option.bind_some] at hout
      dsimp only
      split at hout
      next => cases hout
      next hle => rw [if_neg hle]

omit [Key α] in
theorem freeBelow_congr {node node' : Nat → Node α β} (h : ∀ p, (node p).key = (node' p).key)
    (n : Nat) : freeBelow node n = freeBelow node' n := by
  induction n with
  | zero => rfl
  | succ n ih => rw [freeBelow, freeBelow, h, ih]

/-- **One round.** -/
theorem Compacted.round (hr : Ready t m S) (hc : Compacted t m i s) :
    ∃ s', compact m s i = .ok s' ∧ Compacted t m (i + 1) s' := by
  unfold compact
  -- the round begins with the link of the node
  generalize hs₁ : s.setNode i { s.node i with next := none } = s₁
  have hself : s₁.node i = ⟨(s.node i).key, (s.node i).val, none⟩ := by
    rw [← hs₁]
    exact Function.update_self ..
  have hne : ∀ p, p ≠ i → s₁.node p = s.node p := fun p hp => by
    rw [← hs₁]
    exact Function.update_of_ne hp ..
  have hempty : ∀ array, (Table.setNode { s₁ with array := array } i Node.empty) =
      { s with array := array, node := Function.update s.node i Node.empty } := fun array => by
    rw [← hs₁]
    exact congrArg (fun node => { s with array := array, node := node }) (Function.update_idem ..)
  dsimp only
  rw [hself]
  dsimp only
  cases hv : (s.node i).val with
  | none =>
      refine ⟨_, rfl, ?_⟩
      have hcleared : s₁.setNode i ⟨none, none, none⟩ =
          { s with node := Function.update s.node i Node.empty } := by
        have h := hempty s₁.array
        rw [← hs₁] at h ⊢
        exact h
      rw [hcleared]
      exact hc.clear hv
  | some v =>
      have hkey : (s.node i).key ≠ none := fun hnone => by
        have hahead := hc.ahead i le_rfl
        rw [hahead] at hnone hv
        rw [hr.empty hnone] at hv
        cases hv
      obtain ⟨k, hk⟩ := Option.ne_none_iff_exists'.mp hkey
      have hk₁ : (s₁.node i).key = some k := by
        rw [hself]
        exact hk
      have hv₁ : (s₁.node i).val = some v := by
        rw [hself]
        exact hv
      have hindex : arrayIndex s₁ k = arrayIndex t k := by
        rw [← hs₁]
        exact hc.arrayIndex_eq k
      rw [if_neg (by simp)]
      cases hj : arrayIndex t k with
      | some j =>
          rw [moveNumber_of_array hk₁ (hindex.trans hj), hv₁]
          refine ⟨_, rfl, ?_⟩
          have hmoved : (s₁.setArray j (some v)).setNode i
              { s₁.node i with key := none, val := none } =
                { s with
                  array := Function.update s.array j (some v)
                  node := Function.update s.node i Node.empty } := by
            rw [hself, ← hempty]
            rw [← hs₁]
            rfl
          rw [hmoved]
          exact hc.toArray hk hv hj
      | none =>
          rw [moveNumber_of_node hk₁ (hindex.trans hj)]
          dsimp only
          by_cases him : m ≤ i
          · rw [if_pos him, getfreepos]
            have hsame : freeBelow s₁.node s₁.lastfree = freeBelow s.node s.lastfree := by
              rw [← hs₁]
              refine freeBelow_congr (fun p => ?_) _
              rw [hs₁]
              by_cases hpi : p = i
              · rw [hpi, hself]
              · rw [hne p hpi]
            obtain ⟨n, hn⟩ :=
              Option.ne_none_iff_exists'.mp (hc.freeBelow_ne_none hr hk hv hj him)
            rw [hsame, hn]
            refine ⟨_, rfl, ?_⟩
            have hmoved : Table.setNode { s₁ with lastfree := n } n (s₁.node i) =
                { s with
                  node := Function.update (Function.update s.node i ⟨some k, some v, none⟩) n
                    ⟨some k, some v, none⟩
                  lastfree := n } := by
              have hnode : s.setNode i { s.node i with next := none } =
                  s.setNode i ⟨some k, some v, none⟩ :=
                congrArg (s.setNode i) (Node.ext hk hv rfl)
              rw [hself, hk, hv, ← hs₁, hnode]
              rfl
            rw [hmoved]
            exact hc.toFree hk hv hj him hn
          · rw [if_neg him]
            refine ⟨_, rfl, ?_⟩
            rw [← hs₁]
            exact hc.stay hk hv hj (Nat.lt_of_not_le him)

/-- **The first loop of `resize_hashpart`.** -/
theorem compact_spec (hr : Ready t m S) (n : Nat) :
    ∃ s, (List.range n).foldlM (compact m) t = .ok s ∧ Compacted t m n s :=
  Loop.foldlM_range hr.compacted fun _ _ _ hc => hc.round hr

end

end LuaTable
