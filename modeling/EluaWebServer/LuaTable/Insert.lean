import EluaWebServer.LuaTable.Chains

/-!
# Reading and inserting

`Ok` is the invariant of a table between two calls.  Under it a search finds
exactly the elements that are there, and `newkey` puts a key in without a
change to what the other keys hold, unless no node is free.
-/

namespace LuaTable

variable {α β : Type} [Key α] [DecidableEq α]

/-- The main position of a key. -/
def main (t : Table α β) (k : α) : Nat := mainposition t (some k)

omit [DecidableEq α] in
theorem Hash.position_lt (lsizenode : Nat) (h : Hash) : h.position lsizenode < 2 ^ lsizenode := by
  have hpos : 0 < 2 ^ lsizenode := Nat.two_pow_pos lsizenode
  cases h with
  | pow2 h =>
      have hand : h &&& (2 ^ lsizenode - 1) ≤ 2 ^ lsizenode - 1 := Nat.and_le_right
      rw [Hash.position]
      omega
  | mod h =>
      rw [Hash.position]
      cases lsizenode with
      | zero => exact Nat.mod_lt _ (by decide)
      | succ l =>
          have hodd : (2 ^ (l + 1) - 1) ||| 1 = 2 ^ (l + 1) - 1 := by
            apply Nat.eq_of_testBit_eq
            intro i
            rw [Nat.testBit_or, Nat.testBit_two_pow_sub_one]
            cases i with
            | zero => simp
            | succ i => simp [Nat.testBit_one_eq_true_iff_self_eq_zero]
          rw [hodd]
          have hmod : h % (2 ^ (l + 1) - 1) < 2 ^ (l + 1) - 1 := by
            refine Nat.mod_lt _ ?_
            have hle : 2 ^ 1 ≤ 2 ^ (l + 1) := Nat.pow_le_pow_right (by decide) (by omega)
            omega
          omega

omit [DecidableEq α] in
theorem main_lt (t : Table α β) (k : α) : main t k < t.sizenode :=
  Hash.position_lt t.lsizenode (Key.hash k)

/-- The place of a key in the array part. -/
def arrayIndex (t : Table α β) (k : α) : Option Nat :=
  (Key.index k).bind fun j => if 1 ≤ j ∧ j ≤ t.sizearray then some (j.toNat - 1) else none

structure Ok (t : Table α β) : Prop where
  sound : Sound (main t) t.sizenode t.node
  linked : ∀ {i k}, (t.node i).key = some k → Linked (main t) t.node k i
  full : t.dummy = false → ∀ i, t.lastfree ≤ i → i < t.sizenode → (t.node i).key ≠ none
  lastfree_le : t.lastfree ≤ t.sizenode
  outside : ∀ {i k}, (t.node i).key = some k → arrayIndex t k = none
  not_isNaN : ∀ {i k}, (t.node i).key = some k → Key.isNaN k = false
  sizearray_le : t.sizearray ≤ MAXASIZE
  lsizenode_le : t.lsizenode ≤ MAXBITS
  dummy : t.dummy = true → t.lastfree = 0 ∧ t.lsizenode = 0 ∧ ∀ i, t.node i = Node.empty

/-! ## Reading -/

section

variable {t : Table α β} {k : α} {i : Nat}

omit [DecidableEq α] in
theorem arrayIndex_eq_some_iff :
    arrayIndex t k = some i ↔ Key.index k = some (i + 1 : Int) ∧ i < t.sizearray := by
  rw [arrayIndex, Option.bind_eq_some_iff]
  constructor
  · rintro ⟨j, hj, hsome⟩
    split at hsome
    next hle =>
      have hi := Option.some.inj hsome
      rw [hj]
      refine ⟨congrArg some ?_, ?_⟩ <;> omega
    next => cases hsome
  · rintro ⟨hindex, hlt⟩
    refine ⟨i + 1, hindex, ?_⟩
    rw [if_pos (by omega)]
    exact congrArg some (by omega)

theorem findNode_spec (h : findNode t k = some i) :
    (t.node i).key = some k ∧ Key.isNaN k = false := by
  obtain ⟨hp, -⟩ := Links.seek_spec h
  rw [rawequal, Bool.and_eq_true, decide_eq_true_eq, Bool.not_eq_true'] at hp
  exact hp

theorem findNode_eq_none (h : ∀ i, (t.node i).key ≠ some k) : findNode t k = none := by
  cases hf : findNode t k with
  | none => rfl
  | some i => exact absurd (findNode_spec hf).1 (h i)

theorem Ok.findNode_eq (hok : Ok t) (h : (t.node i).key = some k) : findNode t k = some i := by
  have hNaN := hok.not_isNaN h
  refine (hok.linked h).seek_eq hok.sound ?_ ?_
  · rw [rawequal, h, hNaN, decide_eq_true rfl]
    rfl
  · intro j hj
    rw [rawequal, Bool.and_eq_true, decide_eq_true_eq] at hj
    exact hok.sound.distinct hj.1 h

theorem Ok.findNode_iff (hok : Ok t) : findNode t k = some i ↔ (t.node i).key = some k :=
  ⟨fun h => (findNode_spec h).1, hok.findNode_eq⟩

theorem luaHGet_some (t : Table α β) (k : α) :
    luaHGet t (some k) = match arrayIndex t k with
      | some i => some (.array i)
      | none => (findNode t k).map .node := by
  unfold luaHGet arrayIndex
  dsimp only
  cases hindex : Key.index k with
  | none => rfl
  | some j =>
      dsimp only [luaHGetnum, Option.bind_some]
      by_cases hle : 1 ≤ j ∧ j ≤ t.sizearray
      · rw [if_pos hle, if_pos hle]
      · rw [if_neg hle, if_neg hle, Key.ofInt_index hindex]

theorem luaHGet_of_array (h : arrayIndex t k = some i) :
    luaHGet t (some k) = some (.array i) := by
  rw [luaHGet_some, h]

theorem luaHGet_of_node (h : arrayIndex t k = none) :
    luaHGet t (some k) = (findNode t k).map .node := by
  rw [luaHGet_some, h]

/-- The key has a value in the hash part. -/
def HashEntry (t : Table α β) (k : α) (v : β) : Prop :=
  ∃ i, (t.node i).key = some k ∧ (t.node i).val = some v

/-- The key has a value. -/
def Entry (t : Table α β) (k : α) (v : β) : Prop :=
  (∃ i, arrayIndex t k = some i ∧ t.array i = some v) ∨ HashEntry t k v

/-- **A script reads exactly what is there.** -/
theorem Ok.lookup_eq_some_iff (hok : Ok t) {v : β} :
    lookup t (some k) = some v ↔ Entry t k v := by
  unfold lookup
  cases harray : arrayIndex t k with
  | some i =>
      rw [luaHGet_of_array harray, Option.bind_some]
      constructor
      · intro h
        exact Or.inl ⟨i, harray, h⟩
      · rintro (⟨j, hj, hv⟩ | ⟨j, hj, -⟩)
        · obtain rfl := Option.some.inj (harray.symm.trans hj)
          exact hv
        · rw [hok.outside hj] at harray
          cases harray
  | none =>
      rw [luaHGet_of_node harray, Option.bind_eq_some_iff]
      constructor
      · rintro ⟨s, hs, hv⟩
        obtain ⟨i, hi, rfl⟩ := Option.map_eq_some_iff.mp hs
        exact Or.inr ⟨i, (findNode_spec hi).1, hv⟩
      · rintro (⟨j, hj, -⟩ | ⟨j, hj, hv⟩)
        · rw [harray] at hj
          cases hj
        · exact ⟨.node j, by rw [hok.findNode_eq hj]; rfl, hv⟩

end

/-! ## The keys, and free nodes -/

/-- The keys of the hash part, with or without a value. -/
def keys (t : Table α β) : Finset α :=
  (Finset.range t.sizenode).biUnion fun i => (t.node i).key.toFinset

section

variable {t : Table α β}

theorem Ok.mem_keys (hok : Ok t) {k : α} : k ∈ keys t ↔ ∃ i, (t.node i).key = some k := by
  rw [keys, Finset.mem_biUnion]
  constructor
  · rintro ⟨i, -, hi⟩
    exact ⟨i, Option.mem_toFinset.mp hi⟩
  · rintro ⟨i, hi⟩
    exact ⟨i, Finset.mem_range.mpr (hok.sound.inside hi), Option.mem_toFinset.mpr hi⟩

/-- There are no more nodes with a key than keys. -/
theorem sizenode_le_card_keys (hs : Sound (main t) t.sizenode t.node)
    (hall : ∀ i, i < t.sizenode → (t.node i).key ≠ none) : t.sizenode ≤ (keys t).card := by
  have hkey : ∀ i : Fin t.sizenode, ∃ k, (t.node i).key = some k := fun i =>
    Option.ne_none_iff_exists'.mp (hall i i.isLt)
  choose f hf using hkey
  have hinj : Function.Injective f := by
    intro i j hij
    exact Fin.ext (hs.distinct (hf i) (hij ▸ hf j))
  have hcard := Finset.card_le_card_of_injOn f
    (s := (Finset.univ : Finset (Fin t.sizenode))) (t := keys t)
    (fun i _ => Finset.mem_biUnion.mpr
      ⟨i, Finset.mem_range.mpr i.isLt, Option.mem_toFinset.mpr (hf i)⟩)
    hinj.injOn
  rwa [Finset.card_univ, Fintype.card_fin] at hcard

omit [Key α] [DecidableEq α] in
theorem freeBelow_eq_some {node : Nat → Node α β} {p n : Nat} (h : freeBelow node p = some n) :
    n < p ∧ (node n).key = none ∧ ∀ i, n < i → i < p → (node i).key ≠ none := by
  induction p with
  | zero => cases h
  | succ p ih =>
      rw [freeBelow] at h
      split at h
      next hnone =>
        obtain rfl := Option.some.inj h
        exact ⟨Nat.lt_succ_self p, Option.isNone_iff_eq_none.mp hnone, fun i hpi hip => by omega⟩
      next hsome =>
        obtain ⟨hlt, hkey, hbetween⟩ := ih h
        refine ⟨Nat.lt_succ_of_lt hlt, hkey, fun i hni hip => ?_⟩
        rcases Nat.lt_or_ge i p with hlt' | hge
        · exact hbetween i hni hlt'
        · obtain rfl : i = p := by omega
          exact fun hnone => hsome (Option.isNone_iff_eq_none.mpr hnone)

omit [Key α] [DecidableEq α] in
theorem freeBelow_eq_none {node : Nat → Node α β} {p : Nat} (h : freeBelow node p = none) :
    ∀ i, i < p → (node i).key ≠ none := by
  induction p with
  | zero => exact fun i hi => absurd hi (Nat.not_lt_zero i)
  | succ p ih =>
      rw [freeBelow] at h
      split at h
      next => cases h
      next hsome =>
        intro i hi
        rcases Nat.lt_succ_iff_lt_or_eq.mp hi with hlt | rfl
        · exact ih h i hlt
        · exact fun hnone => hsome (Option.isNone_iff_eq_none.mpr hnone)

/-- **A free node is found** as long as there are fewer keys than nodes. -/
theorem Ok.freeBelow_ne_none (hok : Ok t) (hdummy : t.dummy = false)
    (hroom : (keys t).card < t.sizenode) : freeBelow t.node t.lastfree ≠ none := by
  intro hnone
  refine absurd (sizenode_le_card_keys hok.sound fun i hi => ?_) (Nat.not_le.mpr hroom)
  rcases Nat.lt_or_ge i t.lastfree with hlt | hge
  · exact freeBelow_eq_none hnone i hlt
  · exact hok.full hdummy i hge hi

end

/-! ## A new key -/

/-- `t'` is `t` with the key `k`, and nothing under it. -/
structure Inserted (t t' : Table α β) (k : α) (s : Slot) : Prop where
  ok : Ok t'
  array : t'.array = t.array
  sizearray : t'.sizearray = t.sizearray
  lsizenode : t'.lsizenode = t.lsizenode
  dummy : t'.dummy = t.dummy
  slot : ∃ i, s = .node i ∧ (t'.node i).key = some k ∧ (t'.node i).val = none
  entries : ∀ k' v, HashEntry t' k' v ↔ HashEntry t k' v
  keys : keys t' ⊆ insert k (keys t)

section

variable {t : Table α β} {k : α}

/-- The node vector of a table changes: one key comes in, at `p`. -/
theorem Ok.inserted (hok : Ok t) (hk : arrayIndex t k = none) (hNaN : Key.isNaN k = false)
    {node : Nat → Node α β} {lastfree p : Nat} (hdummy : t.dummy = false)
    (hle : lastfree ≤ t.sizenode)
    (hsound : Sound (main t) t.sizenode node)
    (hlinked : ∀ {i k'}, (node i).key = some k' → Linked (main t) node k' i)
    (hfull : ∀ i, lastfree ≤ i → i < t.sizenode → (node i).key ≠ none)
    (hkeys : ∀ {i k'}, (node i).key = some k' → k' = k ∨ ∃ j, (t.node j).key = some k')
    (hslot : (node p).key = some k ∧ (node p).val = none)
    (hentries : ∀ k' v, (∃ i, (node i).key = some k' ∧ (node i).val = some v) ↔
      HashEntry t k' v) :
    Inserted t { t with node := node, lastfree := lastfree } k (.node p) where
  ok := {
    sound := hsound
    linked := hlinked
    full := fun _ => hfull
    lastfree_le := hle
    outside := by
      intro i k' hi
      rcases hkeys hi with rfl | ⟨j, hj⟩
      · exact hk
      · exact hok.outside hj
    not_isNaN := by
      intro i k' hi
      rcases hkeys hi with rfl | ⟨j, hj⟩
      · exact hNaN
      · exact hok.not_isNaN hj
    sizearray_le := hok.sizearray_le
    lsizenode_le := hok.lsizenode_le
    dummy := fun h => by
      rw [show t.dummy = true from h] at hdummy
      cases hdummy }
  array := rfl
  sizearray := rfl
  lsizenode := rfl
  dummy := rfl
  slot := ⟨p, rfl, hslot⟩
  entries := hentries
  keys := by
    intro k' hk'
    obtain ⟨i, -, hi⟩ := Finset.mem_biUnion.mp hk'
    rcases hkeys (Option.mem_toFinset.mp hi) with rfl | hj
    · exact Finset.mem_insert_self _ _
    · exact Finset.mem_insert_of_mem (hok.mem_keys.mpr hj)

/-- The main position has no value. -/
theorem Ok.insert_main (hok : Ok t) (hnew : ∀ i, (t.node i).key ≠ some k)
    (hk : arrayIndex t k = none) (hNaN : Key.isNaN k = false) (hdummy : t.dummy = false)
    (hval : (t.node (main t k)).val = none) :
    Inserted t { t with node := setKey t.node (main t k) k } k (.node (main t k)) := by
  refine hok.inserted hk hNaN hdummy hok.lastfree_le
    (hok.sound.setKey_main (main_lt t k) hnew) ?_ ?_ ?_ ?_ ?_
  · intro i k' hi
    by_cases him : i = main t k
    · subst him
      rw [setKey_key_self] at hi
      obtain rfl := Option.some.inj hi
      exact linked_main (setKey_key_self _ _ _)
    · rw [setKey_of_ne _ _ him] at hi
      exact (hok.linked hi).setKey_main
  · intro i hle hlt
    by_cases him : i = main t k
    · rw [him, setKey_key_self]
      exact Option.some_ne_none k
    · rw [setKey_of_ne _ _ him]
      exact hok.full hdummy i hle hlt
  · intro i k' hi
    by_cases him : i = main t k
    · rw [him, setKey_key_self] at hi
      exact Or.inl (Option.some.inj hi).symm
    · rw [setKey_of_ne _ _ him] at hi
      exact Or.inr ⟨i, hi⟩
  · exact ⟨setKey_key_self _ _ _, (setKey_val _ _ _ _).trans hval⟩
  · intro k' v
    -- The node of the new key has no value, before and after.
    have hsame : ∀ i, (setKey t.node (main t k) k i).key = some k' ∧
        (setKey t.node (main t k) k i).val = some v ↔
          (t.node i).key = some k' ∧ (t.node i).val = some v := by
      intro i
      by_cases him : i = main t k
      · rw [setKey_val, him, hval]
        exact iff_of_false (fun h => nomatch h.2) (fun h => nomatch h.2)
      · rw [setKey_of_ne _ _ him]
    exact exists_congr hsame

/-- The element at the main position is in its own main position. -/
theorem Ok.insert_after (hok : Ok t) (hnew : ∀ i, (t.node i).key ≠ some k)
    (hk : arrayIndex t k = none) (hNaN : Key.isNaN k = false) (hdummy : t.dummy = false)
    {k₀ : α} (hk₀ : (t.node (main t k)).key = some k₀) (hmain : main t k₀ = main t k)
    {n : Nat} (hn : freeBelow t.node t.lastfree = some n) :
    Inserted t
      { t with node := chainAfter (setKey t.node n k) (main t k) n, lastfree := n } k (.node n) := by
  obtain ⟨hlt, hfree, hbetween⟩ := freeBelow_eq_some hn
  have hsize : n < t.sizenode := Nat.lt_of_lt_of_le hlt hok.lastfree_le
  have hne : n ≠ main t k := fun heq => by
    rw [← heq, hfree] at hk₀
    cases hk₀
  have hsound := hok.sound.setKey_free hsize hfree hnew
  have hlone : Lone (setKey t.node n k) n := (hok.sound.lone_of_none hfree).setKey
  have hhead : (setKey t.node n k (main t k)).key = some k₀ := by
    rw [setKey_of_ne _ _ hne.symm, hk₀]
  refine hok.inserted hk hNaN hdummy hsize.le
    (hsound.chainAfter hhead hmain (setKey_key_self _ _ _) rfl hne hlone) ?_ ?_ ?_ ?_ ?_
  · intro i k' hi
    rw [chainAfter_key] at hi
    by_cases hin : i = n
    · subst hin
      rw [setKey_key_self] at hi
      obtain rfl := Option.some.inj hi
      exact linked_chainAfter hhead hmain rfl
    · rw [setKey_of_ne _ _ hin] at hi
      exact ((hok.linked hi).setKey_of_none hfree).chainAfter hne hlone
  · intro i hle hlt'
    rw [chainAfter_key]
    by_cases hin : i = n
    · rw [hin, setKey_key_self]
      exact Option.some_ne_none k
    · rw [setKey_of_ne _ _ hin]
      rcases Nat.lt_or_ge i t.lastfree with hfar | hge
      · exact hbetween i (Nat.lt_of_le_of_ne hle (Ne.symm hin)) hfar
      · exact hok.full hdummy i hge hlt'
  · intro i k' hi
    rw [chainAfter_key] at hi
    by_cases hin : i = n
    · rw [hin, setKey_key_self] at hi
      exact Or.inl (Option.some.inj hi).symm
    · rw [setKey_of_ne _ _ hin] at hi
      exact Or.inr ⟨i, hi⟩
  · refine ⟨setKey_key_self _ _ _, ?_⟩
    rw [chainAfter_val, setKey_val, hok.sound.empty hfree]
    rfl
  · intro k' v
    refine exists_congr fun i => ?_
    rw [chainAfter_key, chainAfter_val, setKey_val]
    by_cases hin : i = n
    · rw [hin, hok.sound.empty hfree]
      exact iff_of_false (fun h => nomatch h.2) (fun h => nomatch h.2)
    · rw [setKey_of_ne _ _ hin]

/-- The element at the main position is moved to a free node. -/
theorem Ok.insert_moved (hok : Ok t) (hnew : ∀ i, (t.node i).key ≠ some k)
    (hk : arrayIndex t k = none) (hNaN : Key.isNaN k = false) (hdummy : t.dummy = false)
    {k₀ : α} (hk₀ : (t.node (main t k)).key = some k₀) (hmain : main t k₀ ≠ main t k)
    {n : Nat} (hn : freeBelow t.node t.lastfree = some n) :
    Inserted t
      { t with
        node := setKey (relocate (Equiv.swap n (main t k)) t.node) (main t k) k
        lastfree := n } k (.node (main t k)) := by
  obtain ⟨hlt, hfree, hbetween⟩ := freeBelow_eq_some hn
  have hsize : n < t.sizenode := Nat.lt_of_lt_of_le hlt hok.lastfree_le
  have hne : n ≠ main t k := fun heq => by
    rw [← heq, hfree] at hk₀
    cases hk₀
  have hmaina : ∀ k', (t.node n).key = some k' → main t k' ≠ n := fun k' h => by
    rw [hfree] at h
    cases h
  have hmainb : ∀ k', (t.node (main t k)).key = some k' → main t k' ≠ main t k := fun k' h => by
    obtain rfl := Option.some.inj (hk₀.symm.trans h)
    exact hmain
  have hsound := hok.sound.swap hsize (main_lt t k) hmaina hmainb
  -- The moved nodes: their keys, and the free one at the main position.
  generalize hr : relocate (Equiv.swap n (main t k)) t.node = node at hsound
  have hkey : ∀ i, (node i).key = (t.node (Equiv.swap n (main t k) i)).key := fun i => by
    rw [← hr, relocate_key, Equiv.symm_swap]
  have hval : ∀ i, (node i).val = (t.node (Equiv.swap n (main t k) i)).val := fun i => by
    rw [← hr, relocate_val, Equiv.symm_swap]
  have hnone : (node (main t k)).val = none := by
    rw [hval, Equiv.swap_apply_right, hok.sound.empty hfree]
    rfl
  have hnew' : ∀ i, (node i).key ≠ some k := fun i => by
    rw [hkey]
    exact hnew _
  refine hok.inserted hk hNaN hdummy hsize.le (hsound.setKey_main (main_lt t k) hnew') ?_ ?_ ?_ ?_ ?_
  · intro i k' hi
    by_cases him : i = main t k
    · subst him
      rw [setKey_key_self] at hi
      obtain rfl := Option.some.inj hi
      exact linked_main (setKey_key_self _ _ _)
    · rw [setKey_of_ne _ _ him, hkey] at hi
      have hl := hok.linked hi
      have hmoved := hl.relocate (e := Equiv.swap n (main t k))
        (Equiv.swap_apply_of_ne_of_ne (hl.main_ne hmaina) (hl.main_ne hmainb))
      rw [Equiv.swap_apply_self, hr] at hmoved
      exact hmoved.setKey_main
  · intro i hle hlt'
    by_cases him : i = main t k
    · rw [him, setKey_key_self]
      exact Option.some_ne_none k
    · rw [setKey_of_ne _ _ him, hkey]
      by_cases hin : i = n
      · rw [hin, Equiv.swap_apply_left, hk₀]
        exact Option.some_ne_none k₀
      · rw [Equiv.swap_apply_of_ne_of_ne hin him]
        rcases Nat.lt_or_ge i t.lastfree with hfar | hge
        · exact hbetween i (Nat.lt_of_le_of_ne hle (Ne.symm hin)) hfar
        · exact hok.full hdummy i hge hlt'
  · intro i k' hi
    by_cases him : i = main t k
    · rw [him, setKey_key_self] at hi
      exact Or.inl (Option.some.inj hi).symm
    · rw [setKey_of_ne _ _ him, hkey] at hi
      exact Or.inr ⟨_, hi⟩
  · exact ⟨setKey_key_self _ _ _, (setKey_val _ _ _ _).trans hnone⟩
  · intro k' v
    have hsame : ∀ i, (setKey node (main t k) k i).key = some k' ∧
        (setKey node (main t k) k i).val = some v ↔
          (node i).key = some k' ∧ (node i).val = some v := by
      intro i
      by_cases him : i = main t k
      · rw [setKey_val, him, hnone]
        exact iff_of_false (fun h => nomatch h.2) (fun h => nomatch h.2)
      · rw [setKey_of_ne _ _ him]
    rw [exists_congr hsame]
    refine (Equiv.swap n (main t k)).exists_congr fun i => ?_
    rw [hkey, hval]

end

/-! ## `newkey` without a resize -/

section

variable {t : Table α β} {k : α}
  {grow : Table α β → α → Except Error (Table α β × Slot)}

/-- **A key is put in, or there is no free node.** -/
theorem Ok.insertKey (hok : Ok t) (hnew : ∀ i, (t.node i).key ≠ some k)
    (hk : arrayIndex t k = none) (hNaN : Key.isNaN k = false) :
    (∃ t' s, insertKey grow t k = .ok (t', s) ∧ Inserted t t' k s) ∨
      (freeBelow t.node t.lastfree = none ∧
        LuaTable.insertKey grow t k = grow { t with lastfree := 0 } k) := by
  unfold LuaTable.insertKey
  rw [show mainposition t (some k) = main t k from rfl]
  by_cases hval : (t.node (main t k)).val.isSome = true ∨ t.dummy = true
  · rw [if_pos (by rw [Bool.or_eq_true]; exact hval)]
    unfold getfreepos
    cases hfree : freeBelow t.node t.lastfree with
    | none => exact Or.inr ⟨rfl, rfl⟩
    | some n =>
        left
        have hdummy : t.dummy = false := by
          by_contra h
          have hzero := (hok.dummy (by simpa using h)).1
          rw [hzero] at hfree
          cases hfree
        have hsome : (t.node (main t k)).val.isSome = true :=
          hval.resolve_right (by rw [hdummy]; exact Bool.false_ne_true)
        obtain ⟨k₀, hk₀⟩ := hok.sound.key_ne_none hsome
        obtain ⟨-, hnone, -⟩ := freeBelow_eq_some hfree
        have hne : n ≠ main t k := fun heq => by
          rw [← heq, hnone] at hk₀
          cases hk₀
        have hpos : mainposition { t with lastfree := n } (t.node (main t k)).key = main t k₀ := by
          rw [hk₀]
          rfl
        dsimp only
        rw [hpos]
        by_cases hmain : main t k₀ = main t k
        · refine ⟨_, _, ?_, hok.insert_after hnew hk hNaN hdummy hk₀ hmain hfree⟩
          rw [if_neg (not_not.mpr hmain)]
          simp only [Table.setNode, Table.next, Function.update_self, Function.update_of_ne hne,
            Function.update_of_ne hne.symm]
          rw [update_chainAfter_setKey hne]
        · refine ⟨_, _, ?_, hok.insert_moved hnew hk hNaN hdummy hk₀ hmain hfree⟩
          obtain ⟨prev, hprev, hseek⟩ := (hok.linked hk₀).prev hok.sound hmain
          have hfind : findPrevNode { t with lastfree := n } (main t k₀) (main t k) = some prev :=
            hseek
          rw [if_pos hmain, hfind]
          have hpm : main t k ≠ prev := (hok.sound.chained.ne hprev).symm
          simp only [Table.setNode, Function.update_self, Function.update_of_ne hne.symm,
            Function.update_of_ne hpm]
          rw [setKey_relocate hok.sound hprev hnone]
          rfl
  · rw [if_neg (by rw [Bool.or_eq_true]; exact hval)]
    left
    push Not at hval
    exact ⟨_, _, rfl, hok.insert_main hnew hk hNaN (by simpa using hval.2) (by simpa using hval.1)⟩

end

end LuaTable
