import EluaWebServer.LuaTable.Assign
import EluaWebServer.LuaTable.Counts
import EluaWebServer.LuaTable.Resize

/-!
# Resizing a table

`resize` moves elements between the two parts and keeps what every key holds.
It calls `newkey` for the elements of a vanishing slice of the array, and there
is a free node for each of them, if the hash part is as large as the counts say.
-/

namespace LuaTable

variable {α β : Type} [Key α] [DecidableEq α]

/-- `new` puts a key into a table that has a free node. -/
def Inserts (new : Table α β → α → Except Error (Table α β × Slot)) : Prop :=
  ∀ {t : Table α β} {k : α}, Ok t → t.dummy = false → (keys t).card < t.sizenode →
    (∀ i, (t.node i).key ≠ some k) → arrayIndex t k = none → Key.isNaN k = false →
      ∃ t' s, new t k = .ok (t', s) ∧ Inserted t t' k s

theorem inserts_newkey (depth : Nat) : Inserts (newkey (α := α) (β := β) (depth + 1)) := by
  intro t k hok hdummy hroom hnew hk hNaN
  rw [newkey]
  rcases hok.insertKey hnew hk hNaN with h | h
  · exact h
  · exact absurd h.1 (hok.freeBelow_ne_none hdummy hroom)

theorem Inserted.entry_iff {t t' : Table α β} {k : α} {s : Slot} (h : Inserted t t' k s) (k' : α)
    (v : β) : Entry t' k' v ↔ Entry t k' v := by
  have hindex : arrayIndex t' k' = arrayIndex t k' := by
    rw [arrayIndex, arrayIndex, h.sizearray]
  rw [Entry, Entry, h.entries, hindex, h.array]

/-- The new key is found at its place. -/
theorem Inserted.luaHGet {t t' : Table α β} {k : α} {s : Slot} (h : Inserted t t' k s) :
    luaHGet t' (some k) = some s := by
  obtain ⟨i, rfl, hi, -⟩ := h.slot
  rw [luaHGet_of_node (h.ok.outside hi), h.ok.findNode_eq hi]
  rfl

omit [DecidableEq α] in
theorem arrayUse_mono (array : Nat → Option β) {m n : Nat} (h : m ≤ n) :
    arrayUse array m ≤ arrayUse array n :=
  Finset.card_le_card (Finset.filter_subset_filter _ (Finset.range_mono h))

/-! ## The vanishing slice -/

/-- `s` is the table `t`, whose array part shrinks to `nasize`, with the elements up to `i` put
in again. -/
structure Reinserted (t : Table α β) (nasize i : Nat) (s : Table α β) : Prop where
  ok : Ok s
  array : s.array = t.array
  sizearray : s.sizearray = nasize
  lsizenode : s.lsizenode = t.lsizenode
  dummy : s.dummy = false
  entries : ∀ k v, (Entry s k v ∨ ∃ j, i ≤ j ∧ arrayIndex t k = some j ∧ t.array j = some v) ↔
    Entry t k v
  origin : ∀ {p k}, (s.node p).key = some k → (∃ q, (t.node q).key = some k) ∨
    ∃ j, j < i ∧ arrayIndex t k = some j
  card : (keys s).card + arrayUse t.array nasize ≤ (keys t).card + arrayUse t.array i

section

variable {t : Table α β} {nasize : Nat}

omit [DecidableEq α] in
theorem arrayIndex_shrunk (hle : nasize ≤ t.sizearray) {k : α} {j : Nat} :
    arrayIndex { t with sizearray := nasize } k = some j ↔ arrayIndex t k = some j ∧ j < nasize := by
  rw [arrayIndex_eq_some_iff, arrayIndex_eq_some_iff]
  constructor
  · rintro ⟨hindex, hlt⟩
    have hlt' : j < nasize := hlt
    exact ⟨⟨hindex, by omega⟩, hlt'⟩
  · rintro ⟨⟨hindex, -⟩, hlt⟩
    exact ⟨hindex, hlt⟩

omit [DecidableEq α] in
theorem Ok.shrunk (hok : Ok t) (hle : nasize ≤ t.sizearray) :
    Ok { t with sizearray := nasize } := by
  refine ⟨hok.sound, hok.linked, hok.full, hok.lastfree_le, fun {i k} hk => ?_, hok.not_isNaN,
    hle.trans hok.sizearray_le, hok.lsizenode_le, hok.dummy⟩
  cases h : arrayIndex { t with sizearray := nasize } k with
  | none => rfl
  | some j =>
      have hj := ((arrayIndex_shrunk hle).mp h).1
      rw [hok.outside hk] at hj
      cases hj

theorem Ok.reinserted (hok : Ok t) (hdummy : t.dummy = false) (hle : nasize ≤ t.sizearray) :
    Reinserted t nasize nasize { t with sizearray := nasize } where
  ok := hok.shrunk hle
  array := rfl
  sizearray := rfl
  lsizenode := rfl
  dummy := hdummy
  entries := by
    intro k v
    constructor
    · rintro ((⟨j, hj, hv⟩ | h) | ⟨j, -, hj, hv⟩)
      · exact Or.inl ⟨j, ((arrayIndex_shrunk hle).mp hj).1, hv⟩
      · exact Or.inr h
      · exact Or.inl ⟨j, hj, hv⟩
    · rintro (⟨j, hj, hv⟩ | h)
      · rcases Nat.lt_or_ge j nasize with hlt | hge
        · exact Or.inl (Or.inl ⟨j, (arrayIndex_shrunk hle).mpr ⟨hj, hlt⟩, hv⟩)
        · exact Or.inr ⟨j, hge, hj, hv⟩
      · exact Or.inl (Or.inr h)
  origin := fun {p k} hk => Or.inl ⟨p, hk⟩
  card := le_rfl

variable {new : Table α β → α → Except Error (Table α β × Slot)} {s : Table α β} {i : Nat}

theorem Reinserted.round (hnew : Inserts new) (hok : Ok t)
    (hroom : (keys t).card + arrayUse t.array t.sizearray ≤
      t.sizenode + arrayUse t.array nasize)
    (hle : nasize ≤ i) (hi : i < t.sizearray) (hs : Reinserted t nasize i s) :
    ∃ s', reinsert new s i = .ok s' ∧ Reinserted t nasize (i + 1) s' := by
  have hsize := hok.sizearray_le
  have hnas : nasize ≤ t.sizearray := by omega
  unfold reinsert
  rw [hs.array]
  cases hv : t.array i with
  | none =>
      refine ⟨s, rfl, ⟨hs.ok, hs.array, hs.sizearray, hs.lsizenode, hs.dummy, ?_, ?_, ?_⟩⟩
      · intro k v
        rw [← hs.entries k v]
        refine or_congr Iff.rfl (exists_congr fun j => ?_)
        constructor
        · rintro ⟨hij, h⟩
          exact ⟨by omega, h⟩
        · rintro ⟨hij, hj, hvj⟩
          have hji : j ≠ i := fun heq => by
            rw [heq, hv] at hvj
            cases hvj
          exact ⟨by omega, hj, hvj⟩
      · intro p k hk
        rcases hs.origin hk with h | ⟨j, hji, hj⟩
        · exact Or.inl h
        · exact Or.inr ⟨j, by omega, hj⟩
      · rw [arrayUse_succ, hv]
        exact hs.card
  | some v =>
      have hindex : Key.index (Key.ofInt (i + 1) : α) = some (i + 1 : Int) := by
        have hlt : MAXASIZE < 2 ^ 31 := by decide
        exact Key.index_ofInt _ (by omega) (by omega)
      have harray : arrayIndex t (Key.ofInt (i + 1) : α) = some i :=
        arrayIndex_eq_some_iff.mpr ⟨hindex, hi⟩
      have hout : arrayIndex s (Key.ofInt (i + 1) : α) = none := by
        cases h : arrayIndex s (Key.ofInt (i + 1) : α) with
        | none => rfl
        | some j =>
            obtain ⟨hj, hlt⟩ := arrayIndex_eq_some_iff.mp h
            have hji := Option.some.inj (hindex.symm.trans hj)
            rw [hs.sizearray] at hlt
            omega
      -- the key is not in the hash part yet
      have habsent : ∀ p, (s.node p).key ≠ some (Key.ofInt (i + 1) : α) := by
        intro p hp
        rcases hs.origin hp with ⟨q, hq⟩ | ⟨j, hji, hj⟩
        · rw [hok.outside hq] at harray
          cases harray
        · have hij := Option.some.inj (harray.symm.trans hj)
          omega
      have huse : arrayUse t.array (i + 1) = arrayUse t.array i + 1 := by
        rw [arrayUse_succ, hv]
        rfl
      have hmono := arrayUse_mono t.array (show i + 1 ≤ t.sizearray from hi)
      have hcard := hs.card
      have hsizenode : s.sizenode = t.sizenode := by
        rw [Table.sizenode, Table.sizenode, hs.lsizenode]
      obtain ⟨s₁, slot, hnew₁, hins⟩ := hnew hs.ok hs.dummy (by omega) habsent hout
        (Key.not_isNaN_of_index hindex)
      have hset : luaHSetnum new s (i + 1) = .ok (s₁, slot) := by
        rw [luaHSetnum, luaHGetnum, if_neg (by rw [hs.sizearray]; omega), findNode_eq_none habsent]
        exact hnew₁
      obtain ⟨p, hslot, -, -⟩ := hins.slot
      have hget := hins.luaHGet
      refine ⟨s₁.assign slot (some v), by dsimp only; rw [hset]; rfl, ?_⟩
      have hfields : (s₁.assign slot (some v)).array = t.array ∧
          (s₁.assign slot (some v)).sizearray = nasize ∧
          (s₁.assign slot (some v)).lsizenode = t.lsizenode ∧
          (s₁.assign slot (some v)).dummy = false ∧
          ∀ q, ((s₁.assign slot (some v)).node q).key = (s₁.node q).key := by
        rw [hslot]
        refine ⟨hins.array.trans hs.array, hins.sizearray.trans hs.sizearray,
          hins.lsizenode.trans hs.lsizenode, hins.dummy.trans hs.dummy, fun q => ?_⟩
        dsimp only [Table.assign, Table.setNode]
        by_cases hqp : q = p
        · rw [hqp, Function.update_self]
        · rw [Function.update_of_ne hqp]
      obtain ⟨hfarray, hfsize, hflsize, hfdummy, hfkey⟩ := hfields
      have hkeys : LuaTable.keys (s₁.assign slot (some v)) = LuaTable.keys s₁ := by
        have hsame : (s₁.assign slot (some v)).sizenode = s₁.sizenode := by
          rw [Table.sizenode, Table.sizenode, hflsize, hins.lsizenode, hs.lsizenode]
        rw [LuaTable.keys, LuaTable.keys, hsame]
        exact Finset.biUnion_congr rfl fun q _ => by rw [hfkey]
      refine ⟨hins.ok.assign hget _, hfarray, hfsize, hflsize, hfdummy, ?_, ?_, ?_⟩
      · intro k' v'
        rw [hins.ok.assign_entry hget, hins.entry_iff, ← hs.entries k' v']
        by_cases hkk : k' = Key.ofInt (i + 1)
        · rw [if_pos hkk, hkk]
          have hno : ¬Entry s (Key.ofInt (i + 1) : α) v' := by
            rintro (⟨j, hj, -⟩ | ⟨q, hq, -⟩)
            · rw [hout] at hj
              cases hj
            · exact habsent q hq
          constructor
          · rintro (hvv | ⟨j, hij, hj, -⟩)
            · exact Or.inr ⟨i, le_rfl, harray, hv.trans hvv⟩
            · have hji := Option.some.inj (harray.symm.trans hj)
              omega
          · rintro (h | ⟨j, -, hj, hvj⟩)
            · exact absurd h hno
            · obtain rfl := Option.some.inj (harray.symm.trans hj)
              exact Or.inl (hv.symm.trans hvj)
        · rw [if_neg hkk]
          refine or_congr Iff.rfl (exists_congr fun j => ?_)
          constructor
          · rintro ⟨hij, h⟩
            exact ⟨by omega, h⟩
          · rintro ⟨hij, hj, hvj⟩
            have hji : j ≠ i := fun heq => by
              rw [heq] at hj
              exact hkk (eq_of_arrayIndex hj harray)
            exact ⟨by omega, hj, hvj⟩
      · intro q k' hk'
        rw [hfkey] at hk'
        have hmem := hins.keys (hins.ok.mem_keys.mpr ⟨q, hk'⟩)
        rcases Finset.mem_insert.mp hmem with rfl | hmem
        · exact Or.inr ⟨i, Nat.lt_succ_self i, harray⟩
        · obtain ⟨p', hp'⟩ := hs.ok.mem_keys.mp hmem
          rcases hs.origin hp' with h | ⟨j, hji, hj⟩
          · exact Or.inl h
          · exact Or.inr ⟨j, by omega, hj⟩
      · rw [hkeys, huse]
        have hle' := (Finset.card_le_card hins.keys).trans (Finset.card_insert_le _ _)
        omega

/-- All elements of the vanishing slice are put in again. -/
theorem Ok.reinsert (hok : Ok t) (hdummy : t.dummy = false) (hnew : Inserts new)
    (hle : nasize ≤ t.sizearray)
    (hroom : (keys t).card + arrayUse t.array t.sizearray ≤
      t.sizenode + arrayUse t.array nasize) :
    ∃ s, (List.range' nasize (t.sizearray - nasize)).foldlM (LuaTable.reinsert new)
        { t with sizearray := nasize } = .ok s ∧ Reinserted t nasize t.sizearray s := by
  obtain ⟨s, hs, hend⟩ := Loop.foldlM_range' (n := t.sizearray - nasize) (f := LuaTable.reinsert new)
    (P := Reinserted t nasize) (hok.reinserted hdummy hle) fun i s hlow hhigh hs =>
      hs.round hnew hok hroom hlow (by omega)
  rw [Nat.add_sub_cancel' hle] at hend
  exact ⟨s, hs, hend⟩

/-! ## `resize` -/

/-- `t'` is `t` with parts of other sizes, and `need` free nodes. -/
structure Resized (t t' : Table α β) (nasize need : Nat) : Prop where
  ok : Ok t'
  sizearray : t'.sizearray = nasize
  dummy : t'.dummy = false
  entries : ∀ k v, Entry t' k v ↔ Entry t k v
  origin : ∀ {p k}, (t'.node p).key = some k →
    (∃ q, (t.node q).key = some k) ∨ arrayIndex t k ≠ none
  room : (keys t').card + need ≤ t'.sizenode

/-- The keys that have a value and stay in the hash part, next to an array part of size `n`. -/
def staying (t : Table α β) (n : Nat) : Finset α :=
  ((Finset.range t.sizenode).filter fun i =>
    (t.node i).val.isSome = true ∧ ¬hasIndex n (t.node i).key = true).biUnion
      fun i => (t.node i).key.toFinset

theorem card_staying_le (t : Table α β) (n : Nat) :
    (staying t n).card + indexUse t.node n t.sizenode ≤ hashUse t.node t.sizenode := by
  have hunion : (staying t n).card ≤ ((Finset.range t.sizenode).filter fun i =>
      (t.node i).val.isSome = true ∧ ¬hasIndex n (t.node i).key = true).card := by
    have hone := Finset.card_biUnion_le_card_mul
      ((Finset.range t.sizenode).filter fun i =>
        (t.node i).val.isSome = true ∧ ¬hasIndex n (t.node i).key = true)
      (fun i => (t.node i).key.toFinset) 1 fun i _ => by
        cases (t.node i).key with
        | none => exact Nat.zero_le 1
        | some k => exact (Finset.card_singleton k).le
    rwa [Nat.mul_one] at hone
  have hsplit := Finset.card_filter_add_card_filter_not
    (s := (Finset.range t.sizenode).filter fun i => (t.node i).val.isSome = true)
    (p := fun i => hasIndex n (t.node i).key = true)
  rw [Finset.filter_filter, Finset.filter_filter] at hsplit
  unfold indexUse hashUse
  omega

omit [DecidableEq α] in
theorem hasIndex_of_arrayIndex {n : Nat} {k : α} (hn : t.sizearray = n)
    (h : arrayIndex t k = none) : ¬hasIndex n (some k) = true := by
  intro hindex
  rw [hasIndex, Option.bind_some, Option.any_eq_true] at hindex
  obtain ⟨j, hj, hle⟩ := hindex
  rw [decide_eq_true_eq] at hle
  rw [arrayIndex, hj, Option.bind_some, if_pos (by omega)] at h
  cases h

theorem mem_staying {n : Nat} {k : α} {v : β} (hok : Ok t) (h : HashEntry t k v)
    (hout : ¬hasIndex n (some k) = true) : k ∈ staying t n := by
  obtain ⟨i, hi, hv⟩ := h
  refine Finset.mem_biUnion.mpr ⟨i, Finset.mem_filter.mpr ⟨?_, ?_, ?_⟩, ?_⟩
  · exact Finset.mem_range.mpr (hok.sound.inside hi)
  · rw [hv]
    rfl
  · rw [hi]
    exact hout
  · rw [hi]
    exact Option.mem_toFinset.mpr rfl

omit [DecidableEq α] in
theorem Ok.inside (hok : Ok t) {i : Nat} {k : α} (hk : (t.node i).key = some k) :
    t.dummy = false ∧ i < t.sizenode := by
  refine ⟨?_, hok.sound.inside hk⟩
  by_contra h
  rw [(hok.dummy (by simpa using h)).2.2 i] at hk
  cases hk

theorem Ok.resizable (hok : Ok t) {nhsize : Nat}
    (hroom : hashUse t.node t.sizenode ≤ nhsize + indexUse t.node t.sizearray t.sizenode) :
    Resizable t nhsize (staying t t.sizearray) where
  inside := hok.inside
  empty := hok.sound.empty
  distinct := hok.sound.distinct
  vacant := fun hk hj => by
    rw [hok.outside hk] at hj
    cases hj
  not_isNaN := hok.not_isNaN
  sizearray_le := hok.sizearray_le
  staying := fun h hout => mem_staying hok h (hasIndex_of_arrayIndex rfl hout)
  room := by
    have h := card_staying_le t t.sizearray
    omega

/-- The array part has grown. -/
theorem Ok.resizable_grown (hok : Ok t) {nhsize : Nat} (hmax : nasize ≤ MAXASIZE)
    (hroom : hashUse t.node t.sizenode ≤ nhsize + indexUse t.node nasize t.sizenode) :
    Resizable (setarrayvector t nasize) nhsize (LuaTable.staying t nasize) where
  inside := hok.inside
  empty := hok.sound.empty
  distinct := hok.sound.distinct
  vacant := by
    intro i k j hk hj
    have hout := hok.outside hk
    obtain ⟨hindex, hlt⟩ := arrayIndex_eq_some_iff.mp hj
    dsimp only [setarrayvector]
    refine if_neg fun h => ?_
    rw [arrayIndex_eq_some_iff.mpr ⟨hindex, h.1⟩] at hout
    cases hout
  not_isNaN := hok.not_isNaN
  sizearray_le := hmax
  staying := fun h hout => mem_staying hok h
    (hasIndex_of_arrayIndex (t := setarrayvector t nasize) rfl hout)
  room := by
    have h := card_staying_le t nasize
    omega

omit [DecidableEq α] in
theorem setarrayvector_entry (hle : t.sizearray ≤ nasize) (k : α) (v : β) :
    Entry (setarrayvector t nasize) k v ↔ Entry t k v := by
  refine or_congr (exists_congr fun j => ?_) Iff.rfl
  rw [arrayIndex_eq_some_iff, arrayIndex_eq_some_iff]
  dsimp only [setarrayvector]
  constructor
  · rintro ⟨⟨hindex, -⟩, hv⟩
    split at hv
    next h => exact ⟨⟨hindex, h.1⟩, hv⟩
    next => cases hv
  · rintro ⟨⟨hindex, hlt⟩, hv⟩
    refine ⟨⟨hindex, by omega⟩, ?_⟩
    rw [if_pos ⟨hlt, by omega⟩]
    exact hv

omit [DecidableEq α] in
theorem indexUse_mono (node : Nat → Node α β) {m n : Nat} (h : m ≤ n) (size : Nat) :
    indexUse node m size ≤ indexUse node n size := by
  refine Finset.card_le_card fun i hi => ?_
  rw [Finset.mem_filter] at hi ⊢
  refine ⟨hi.1, hi.2.1, ?_⟩
  have hindex := hi.2.2
  rw [hasIndex, Option.any_eq_true] at hindex ⊢
  obtain ⟨j, hj, hle⟩ := hindex
  rw [decide_eq_true_eq] at hle
  exact ⟨j, hj, decide_eq_true (by omega)⟩

omit [DecidableEq α] in
/-- Tables in which the keys hold the same have the same array parts. -/
theorem Ok.array_eq {t' : Table α β} (hok : Ok t) (hok' : Ok t')
    (hsize : t'.sizearray = t.sizearray) (hentries : ∀ k v, Entry t' k v ↔ Entry t k v) {j : Nat}
    (hj : j < t.sizearray) : t'.array j = t.array j := by
  have hmax := hok.sizearray_le
  have hpow : MAXASIZE < 2 ^ 31 := by decide
  have hindex : Key.index (Key.ofInt (j + 1) : α) = some (j + 1 : Int) :=
    Key.index_ofInt _ (by omega) (by omega)
  have hplace : arrayIndex t (Key.ofInt (j + 1) : α) = some j :=
    arrayIndex_eq_some_iff.mpr ⟨hindex, hj⟩
  have hplace' : arrayIndex t' (Key.ofInt (j + 1) : α) = some j :=
    arrayIndex_eq_some_iff.mpr ⟨hindex, hsize ▸ hj⟩
  have honly : ∀ {s : Table α β}, Ok s → arrayIndex s (Key.ofInt (j + 1) : α) = some j → ∀ v,
      Entry s (Key.ofInt (j + 1)) v ↔ s.array j = some v := by
    intro s hs hp v
    constructor
    · rintro (⟨i, hi, hv⟩ | ⟨i, hi, -⟩)
      · obtain rfl := Option.some.inj (hp.symm.trans hi)
        exact hv
      · rw [hs.outside hi] at hp
        cases hp
    · exact fun hv => Or.inl ⟨j, hp, hv⟩
  refine Option.ext fun v => ?_
  rw [← honly hok' hplace', ← honly hok hplace]
  exact hentries _ v

omit [Key α] [DecidableEq α] in
theorem arrayUse_congr {array array' : Nat → Option β} {m : Nat}
    (h : ∀ j, j < m → array' j = array j) : arrayUse array' m = arrayUse array m := by
  refine congrArg Finset.card (Finset.filter_congr fun j hj => ?_)
  rw [h j (Finset.mem_range.mp hj)]

theorem resize_eq (t : Table α β) (nasize nhsize : Nat) :
    resize new t nasize nhsize =
      (resizeHashpart (if t.sizearray < nasize then setarrayvector t nasize else t) nhsize).bind
        fun t₁ =>
          if nasize < t.sizearray then
            ((List.range' nasize (t.sizearray - nasize)).foldlM (LuaTable.reinsert new)
              { t₁ with sizearray := nasize }).bind fun t₂ =>
                .ok { t₂ with array := fun i => if i < nasize then t₂.array i else none }
          else .ok t₁ :=
  rfl

theorem Rebuilt.card_keys_le {t₁ t' : Table α β} {lsize : Nat} {S : Finset α}
    (hb : Rebuilt t₁ t' lsize)
    (hS : ∀ {k v}, HashEntry t₁ k v → arrayIndex t₁ k = none → k ∈ S) :
    (keys t').card ≤ S.card := by
  refine Finset.card_le_card fun k hk => ?_
  obtain ⟨p, hp⟩ := hb.ok.mem_keys.mp hk
  obtain ⟨⟨v, hv⟩, hout⟩ := hb.origin hp
  exact hS hv hout

/-- The table after the hash part has been resized, when the array part has not to shrink. -/
theorem Rebuilt.resized {t₁ t' : Table α β} {lsize need : Nat} (hb : Rebuilt t₁ t' lsize)
    (hnode : t₁.node = t.node) (hsize : t₁.sizearray = nasize)
    (hentries : ∀ k v, Entry t₁ k v ↔ Entry t k v)
    (hroom : (keys t').card + need ≤ 2 ^ lsize) : Resized t t' nasize need where
  ok := hb.ok
  sizearray := hb.sizearray.trans hsize
  dummy := hb.dummy
  entries := fun k v => (hb.entries k v).trans (hentries k v)
  origin := by
    intro p k hk
    obtain ⟨⟨v, q, hq, -⟩, -⟩ := hb.origin hk
    rw [hnode] at hq
    exact Or.inl ⟨q, hq⟩
  room := by
    rw [Table.sizenode, hb.lsizenode]
    exact hroom

omit [DecidableEq α] in
/-- The end of the array part is cut off. -/
theorem Ok.truncate (hok : Ok t) :
    Ok { t with array := fun i => if i < t.sizearray then t.array i else none } :=
  ⟨hok.sound, hok.linked, hok.full, hok.lastfree_le, hok.outside, hok.not_isNaN, hok.sizearray_le,
    hok.lsizenode_le, hok.dummy⟩

omit [DecidableEq α] in
theorem truncate_entry (t : Table α β) (k : α) (v : β) :
    Entry { t with array := fun i => if i < t.sizearray then t.array i else none } k v ↔
      Entry t k v := by
  refine or_congr (exists_congr fun j => and_congr_right fun hj => ?_) Iff.rfl
  have hlt : j < t.sizearray := (arrayIndex_eq_some_iff.mp hj).2
  dsimp only
  rw [if_pos hlt]

/-- The table after the vanishing slice has been put in again. -/
theorem Reinserted.resized {t₁ s : Table α β} {lsize need : Nat}
    (hb : Rebuilt t t₁ lsize) (hs : Reinserted t₁ nasize t.sizearray s)
    (hroom : (keys s).card + need ≤ 2 ^ lsize) :
    Resized t { s with array := fun i => if i < nasize then s.array i else none } nasize need := by
  rw [← hs.sizearray]
  refine ⟨hs.ok.truncate, rfl, hs.dummy, ?_, ?_, ?_⟩
  · intro k v
    rw [truncate_entry, ← hb.entries k v, ← hs.entries k v]
    refine ⟨Or.inl, fun h => h.resolve_right ?_⟩
    rintro ⟨j, hle, hj, -⟩
    have hlt := (arrayIndex_eq_some_iff.mp hj).2
    rw [hb.sizearray] at hlt
    omega
  · intro p k hk
    rcases hs.origin hk with ⟨q, hq⟩ | ⟨j, -, hj⟩
    · obtain ⟨⟨v, q', hq', -⟩, -⟩ := hb.origin hq
      exact Or.inl ⟨q', hq'⟩
    · refine Or.inr ?_
      rw [arrayIndex, hb.sizearray] at hj
      rw [arrayIndex, hj]
      exact Option.some_ne_none j
  · change (keys s).card + need ≤ s.sizenode
    rw [Table.sizenode, hs.lsizenode, hb.lsizenode]
    exact hroom

/-- **`resize`** keeps what every key holds and leaves the nodes free that were counted, or there
are too many nodes. -/
theorem Ok.resize (hok : Ok t) (hnew : Inserts new) (hmax : nasize ≤ MAXASIZE) {nhsize need : Nat}
    (hcount : arrayUse t.array t.sizearray + hashUse t.node t.sizenode + need ≤
      nhsize + arrayUse t.array (min nasize t.sizearray) + indexUse t.node nasize t.sizenode) :
    (MAXBITS < lsizeFor nhsize ∧ resize new t nasize nhsize = .error .overflow) ∨
      ∃ t', LuaTable.resize new t nasize nhsize = .ok t' ∧ Resized t t' nasize need := by
  rw [resize_eq]
  have hpow := le_two_pow_lsizeFor nhsize
  rcases Nat.lt_trichotomy t.sizearray nasize with hgrow | heq | hshrink
  · simp only [if_pos hgrow, if_neg (Nat.lt_asymm hgrow)]
    rw [min_eq_right hgrow.le] at hcount
    have hr : Resizable (setarrayvector t nasize) nhsize (staying t nasize) :=
      hok.resizable_grown hmax (by omega)
    rcases hr.resizeHashpart with ⟨hover, herr⟩ | ⟨-, t', ht', hb⟩
    · rw [herr]
      exact Or.inl ⟨hover, rfl⟩
    · rw [ht']
      have hcard := card_staying_le t nasize
      have hkeys := hb.card_keys_le hr.staying
      exact Or.inr ⟨t', rfl, hb.resized rfl rfl (setarrayvector_entry hgrow.le) (by omega)⟩
  · simp only [if_neg (show ¬t.sizearray < nasize by omega),
      if_neg (show ¬nasize < t.sizearray by omega)]
    rw [← heq, min_self] at hcount
    have hr : Resizable t nhsize (staying t t.sizearray) := hok.resizable (by omega)
    rcases hr.resizeHashpart with ⟨hover, herr⟩ | ⟨-, t', ht', hb⟩
    · rw [herr]
      exact Or.inl ⟨hover, rfl⟩
    · rw [ht']
      have hcard := card_staying_le t t.sizearray
      have hkeys := hb.card_keys_le hr.staying
      exact Or.inr ⟨t', rfl, hb.resized rfl heq (fun _ _ => Iff.rfl) (by omega)⟩
  · simp only [if_neg (Nat.lt_asymm hshrink), if_pos hshrink]
    rw [min_eq_left hshrink.le] at hcount
    have hmono := indexUse_mono t.node hshrink.le t.sizenode
    have harray := arrayUse_mono t.array hshrink.le
    have hr : Resizable t nhsize (staying t t.sizearray) := hok.resizable (by omega)
    rcases hr.resizeHashpart with ⟨hover, herr⟩ | ⟨-, t₁, ht₁, hb⟩
    · rw [herr]
      exact Or.inl ⟨hover, rfl⟩
    · rw [ht₁]
      right
      have hcard := card_staying_le t t.sizearray
      have hkeys := hb.card_keys_le hr.staying
      have hsame : ∀ m, m ≤ t.sizearray → arrayUse t₁.array m = arrayUse t.array m := fun m hm =>
        arrayUse_congr fun j hj =>
          hok.array_eq hb.ok hb.sizearray hb.entries (Nat.lt_of_lt_of_le hj hm)
      have hsize : t₁.sizenode = 2 ^ lsizeFor nhsize := by rw [Table.sizenode, hb.lsizenode]
      have hle : nasize ≤ t₁.sizearray := hb.sizearray ▸ hshrink.le
      obtain ⟨s, hs, hrein⟩ := hb.ok.reinsert hb.dummy hnew hle
        (by rw [hb.sizearray, hsame _ le_rfl, hsame _ hshrink.le, hsize]; omega)
      rw [hb.sizearray] at hs hrein
      have hrest := hrein.card
      rw [hsame _ le_rfl, hsame _ hshrink.le] at hrest
      refine ⟨_, ?_, hrein.resized hb (by omega)⟩
      change Except.bind ((List.range' nasize (t.sizearray - nasize)).foldlM
        (LuaTable.reinsert new) { t₁ with sizearray := nasize }) _ = _
      rw [hs]
      rfl

end

end LuaTable
