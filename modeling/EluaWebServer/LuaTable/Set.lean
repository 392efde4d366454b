import EluaWebServer.LuaTable.Rehash

/-!
# Setting an element

When no free node is left, `rehash` counts the elements and makes both parts
large enough for one more.  So `newkey` never resizes a table that is being
resized, and a key that is set has its place.
-/

namespace LuaTable

variable {α β : Type} [Key α] [DecidableEq α]

/-- The elements of a table. -/
def count (t : Table α β) : Nat := arrayUse t.array t.sizearray + hashUse t.node t.sizenode

section

variable {t : Table α β} {k : α}

omit [DecidableEq α] in
theorem hasIndex_some {n : Nat} : hasIndex n (some k) = true ↔
    ∃ j : Int, Key.index k = some j ∧ 0 < j ∧ j ≤ n := by
  rw [hasIndex, Option.bind_some, Option.any_eq_true]
  exact exists_congr fun j => and_congr_right fun _ => decide_eq_true_iff

omit [DecidableEq α] in
/-- The array indices that are counted are different, so that there are not too many of them. -/
theorem Ok.indexed_le (hok : Ok t) (hnew : ∀ i, (t.node i).key ≠ some k)
    (hk : arrayIndex t k = none) :
    t.sizearray + indexUse t.node MAXASIZE t.sizenode +
      (if hasIndex MAXASIZE (some k) = true then 1 else 0) ≤ MAXASIZE := by
  -- An index that is not in the array part lies past its end.
  have hrange : ∀ {a : α} {j : Int}, arrayIndex t a = none → Key.index a = some j → 0 < j →
      j ≤ MAXASIZE → j.toNat ∈ Finset.Ioc t.sizearray MAXASIZE := by
    intro a j hout hj hpos hle
    rw [arrayIndex, hj, Option.bind_some] at hout
    have hfar : ¬(1 ≤ j ∧ j ≤ t.sizearray) := fun h => by
      rw [if_pos h] at hout
      cases hout
    rw [Finset.mem_Ioc]
    omega
  have hnodes : ∀ i ∈ (Finset.range t.sizenode).filter fun i =>
      (t.node i).val.isSome = true ∧ hasIndex MAXASIZE (t.node i).key = true,
        ∃ a, ∃ j : Int, (t.node i).key = some a ∧ Key.index a = some j ∧
          j.toNat ∈ Finset.Ioc t.sizearray MAXASIZE ∧ 0 < j := by
    intro i hi
    obtain ⟨hval, hindex⟩ := (Finset.mem_filter.mp hi).2
    obtain ⟨a, ha⟩ := hok.sound.key_ne_none hval
    rw [ha] at hindex
    obtain ⟨j, hj, hpos, hle⟩ := hasIndex_some.mp hindex
    exact ⟨a, j, ha, hj, hrange (hok.outside ha) hj hpos hle, hpos⟩
  have : Nonempty α := ⟨k⟩
  choose! a j ha hj hmem hpos using hnodes
  have hinj : Set.InjOn (fun i => (j i).toNat) (((Finset.range t.sizenode).filter fun i =>
      (t.node i).val.isSome = true ∧ hasIndex MAXASIZE (t.node i).key = true : Finset Nat) :
        Set Nat) := by
    intro i hi i' hi' heq
    have hpi := hpos i hi
    have hpi' := hpos i' hi'
    have hjj : j i = j i' := by
      dsimp only at heq
      omega
    have haa : a i = a i' := by
      rw [← Key.ofInt_index (hj i hi), ← Key.ofInt_index (hj i' hi'), hjj]
    exact hok.sound.distinct (ha i hi) (haa ▸ ha i' hi')
  have hsize := hok.sizearray_le
  have hioc : (Finset.Ioc t.sizearray MAXASIZE).card = MAXASIZE - t.sizearray := Nat.card_Ioc ..
  have hcard := Finset.card_le_card_of_injOn _ hmem hinj
  rw [hioc] at hcard
  by_cases hindex : hasIndex MAXASIZE (some k) = true
  · -- the index of the new key is none of them
    rw [if_pos hindex]
    obtain ⟨jk, hjk, hposk, hlek⟩ := hasIndex_some.mp hindex
    have hmemk := hrange hk hjk hposk hlek
    have himage : (((Finset.range t.sizenode).filter fun i =>
        (t.node i).val.isSome = true ∧ hasIndex MAXASIZE (t.node i).key = true).image
          fun i => (j i).toNat) ⊆ (Finset.Ioc t.sizearray MAXASIZE).erase jk.toNat := by
      intro x hx
      obtain ⟨i, hi, rfl⟩ := Finset.mem_image.mp hx
      refine Finset.mem_erase.mpr ⟨fun heq => ?_, hmem i hi⟩
      have hpi := hpos i hi
      have hjj : j i = jk := by omega
      have hak : a i = k := by rw [← Key.ofInt_index (hj i hi), hjj, Key.ofInt_index hjk]
      exact hnew i (hak ▸ ha i hi)
    have hlt := Finset.card_le_card himage
    rw [Finset.card_image_of_injOn hinj, Finset.card_erase_of_mem hmemk, hioc] at hlt
    have hpos' : 0 < MAXASIZE - t.sizearray := by
      rw [← hioc]
      exact Finset.card_pos.mpr ⟨_, hmemk⟩
    unfold indexUse
    omega
  · rw [if_neg hindex]
    unfold indexUse
    omega

/-- **`rehash`** resizes the table to sizes that all of its elements and the new key fit into. -/
theorem Ok.rehash_eq (new : Table α β → α → Except Error (Table α β × Slot)) (hok : Ok t)
    (hnew : ∀ i, (t.node i).key ≠ some k)
    (hk : arrayIndex t k = none) :
    ∃ nasize nhsize, rehash new t k = LuaTable.resize new t nasize nhsize ∧ nasize ≤ MAXASIZE ∧
      nhsize ≤ count t + 1 ∧
      arrayUse t.array t.sizearray + hashUse t.node t.sizenode +
          (if hasIndex nasize (some k) = true then 0 else 1) ≤
        nhsize + arrayUse t.array (min nasize t.sizearray) +
          indexUse t.node nasize t.sizenode := by
  unfold rehash
  obtain ⟨huse, hslices⟩ := numusearray_spec hok.sizearray_le
  obtain ⟨hhash, hhslices⟩ := numusehash_spec t (numusearray t fun _ => 0).1
  obtain ⟨hextra, heslices⟩ :=
    countint_spec (numusehash t (numusearray t fun _ => 0).1).1 (some k)
  have hfirst := congrArg Prod.fst hhash
  have hsecond := congrArg Prod.snd hhash
  dsimp only at hfirst hsecond ⊢
  have harray := arrayUse_le t.array t.sizearray
  have hindexed := hok.indexed_le hnew hk
  have hnarray : (numusearray t fun _ => 0).2 + (numusehash t (numusearray t fun _ => 0).1).2.1 +
      (countint (numusehash t (numusearray t fun _ => 0).1).1 (some k)).2 ≤ MAXASIZE := by
    rw [huse, hfirst, hextra]
    omega
  obtain ⟨⟨nasize, na⟩, hbest, hcounted⟩ := computesizes_spec
    (countint (numusehash t (numusearray t fun _ => 0).1).1 (some k)).1 hnarray
  rw [hbest]
  refine ⟨nasize, _, rfl, ?_⟩
  rw [huse, hsecond]
  rcases hcounted with hzero | ⟨j, hj, hpow⟩
  · obtain ⟨rfl, rfl⟩ := Prod.mk.inj hzero
    refine ⟨Nat.zero_le _, Nat.sub_le _ _, ?_⟩
    split <;> omega
  · obtain ⟨rfl, hna⟩ := Prod.mk.inj hpow
    rw [heslices j hj, hhslices j hj, hslices j hj] at hna
    refine ⟨Nat.pow_le_pow_right (by decide) hj, Nat.sub_le _ _, ?_⟩
    split at hna
    next h =>
      rw [if_pos h]
      omega
    next h =>
      rw [if_neg h]
      omega

/-! ## `newkey` and `luaH_set` -/

/-- `s` is the place of the key in `t'`, in which all keys hold the same as in `t`. -/
structure Placed (t t' : Table α β) (k : α) (s : Slot) : Prop where
  ok : Ok t'
  get : luaHGet t' (some k) = some s
  entries : ∀ k' v, Entry t' k' v ↔ Entry t k' v

theorem Inserted.placed {t' : Table α β} {s : Slot} (h : Inserted t t' k s) : Placed t t' k s :=
  ⟨h.ok, h.luaHGet, h.entry_iff⟩

theorem lt_of_lsizeFor {nhsize : Nat} (h : MAXBITS < lsizeFor nhsize) : MAXASIZE < nhsize := by
  unfold lsizeFor at h
  split at h
  next hpos =>
    by_contra hle
    exact absurd ((ceillog2_le_iff hpos).mpr (Nat.le_of_not_lt hle)) (Nat.not_le.mpr h)
  next => exact absurd h (Nat.not_lt_zero _)

omit [DecidableEq α] in
theorem Ok.full_table (hok : Ok t) (hfree : freeBelow t.node t.lastfree = none) :
    Ok { t with lastfree := 0 } := by
  refine ⟨hok.sound, hok.linked, fun hdummy i _ hlt => ?_, Nat.zero_le _, hok.outside,
    hok.not_isNaN, hok.sizearray_le, hok.lsizenode_le, fun hdummy => ?_⟩
  · rcases Nat.lt_or_ge i t.lastfree with hbelow | hge
    · exact freeBelow_eq_none hfree i hbelow
    · exact hok.full hdummy i hge hlt
  · exact ⟨rfl, (hok.dummy hdummy).2⟩

/-- **A new key has its place**, or the table is as large as it can be. -/
theorem Ok.newkey (hok : Ok t) (hnew : ∀ i, (t.node i).key ≠ some k) (hk : arrayIndex t k = none)
    (hNaN : Key.isNaN k = false) (depth : Nat) :
    (∃ t' s, newkey (depth + 2) t k = .ok (t', s) ∧ Placed t t' k s) ∨
      (LuaTable.newkey (depth + 2) t k = .error .overflow ∧ MAXASIZE ≤ count t) := by
  rw [LuaTable.newkey]
  rcases hok.insertKey hnew hk hNaN with ⟨t', s, hkey, hins⟩ | ⟨hfree, hgrow⟩
  · exact Or.inl ⟨t', s, hkey, hins.placed⟩
  · rw [hgrow]
    have hok₀ := hok.full_table hfree
    obtain ⟨nasize, nhsize, heq, hmax, hle, hcount⟩ :=
      hok₀.rehash_eq (LuaTable.newkey (depth + 1)) hnew hk
    rw [heq]
    rcases hok₀.resize (inserts_newkey depth) hmax hcount with ⟨hover, herr⟩ | ⟨t₁, ht₁, hr⟩
    · rw [herr]
      refine Or.inr ⟨rfl, ?_⟩
      have hlt := lt_of_lsizeFor hover
      have hsame : count { t with lastfree := 0 } = count t := rfl
      omega
    · rw [ht₁]
      left
      cases hplace : arrayIndex t₁ k with
      | some j =>
          have hget := luaHGet_of_array hplace
          refine ⟨t₁, .array j, ?_, hr.ok, hget, hr.entries⟩
          change luaHSet (LuaTable.newkey (depth + 1)) t₁ (some k) = _
          rw [luaHSet, hget]
      | none =>
          have hneed := hasIndex_of_arrayIndex hr.sizearray hplace
          have hroom := hr.room
          rw [if_neg hneed] at hroom
          have habsent : ∀ p, (t₁.node p).key ≠ some k := by
            intro p hp
            rcases hr.origin hp with ⟨q, hq⟩ | hindex
            · exact hnew q hq
            · exact hindex hk
          obtain ⟨t₂, s, ht₂, hins⟩ := inserts_newkey depth hr.ok hr.dummy (by omega) habsent hplace
            hNaN
          refine ⟨t₂, s, ?_, hins.ok, hins.luaHGet, fun k' v =>
            (hins.entry_iff k' v).trans (hr.entries k' v)⟩
          change luaHSet (LuaTable.newkey (depth + 1)) t₁ (some k) = _
          rw [luaHSet, luaHGet_of_node hplace, findNode_eq_none habsent]
          dsimp only [Option.map_none]
          rw [if_neg (by rw [hNaN]; exact Bool.false_ne_true)]
          exact ht₂

/-- A key that is not found is in neither part. -/
theorem Ok.absent_of_get (hok : Ok t) (h : luaHGet t (some k) = none) :
    arrayIndex t k = none ∧ ∀ i, (t.node i).key ≠ some k := by
  cases hplace : arrayIndex t k with
  | some j =>
      rw [luaHGet_of_array hplace] at h
      cases h
  | none =>
      refine ⟨rfl, fun i hi => ?_⟩
      rw [luaHGet_of_node hplace, hok.findNode_eq hi] at h
      cases h

/-- **`luaH_set`** has the place of the key, or the table is as large as it can be. -/
theorem Ok.luaHSet (hok : Ok t) (hNaN : Key.isNaN k = false) (depth : Nat) :
    (∃ t' s, luaHSet (LuaTable.newkey (depth + 2)) t (some k) = .ok (t', s) ∧ Placed t t' k s) ∨
      (LuaTable.luaHSet (LuaTable.newkey (depth + 2)) t (some k) = .error .overflow ∧
        MAXASIZE ≤ count t) := by
  unfold LuaTable.luaHSet
  cases hget : luaHGet t (some k) with
  | some s => exact Or.inl ⟨t, s, rfl, hok, hget, fun _ _ => Iff.rfl⟩
  | none =>
      obtain ⟨hk, hnew⟩ := hok.absent_of_get hget
      dsimp only
      rw [if_neg (by rw [hNaN]; exact Bool.false_ne_true)]
      exact hok.newkey hnew hk hNaN depth

theorem luaHSet_nil (t : Table α β) : luaHSet new t none = .error .indexNil :=
  rfl

theorem luaHSet_NaN (hNaN : Key.isNaN k = true) :
    luaHSet new t (some k) = .error .indexNaN := by
  have hindex : Key.index k = none := by
    cases h : Key.index k with
    | none => rfl
    | some j =>
        rw [Key.not_isNaN_of_index h] at hNaN
        cases hNaN
  have hfind : findNode t k = none := by
    cases h : findNode t k with
    | none => rfl
    | some i =>
        rw [(findNode_spec h).2] at hNaN
        cases hNaN
  have hget : luaHGet t (some k) = none := by
    rw [luaHGet_of_node (by rw [arrayIndex, hindex]; rfl), hfind]
    rfl
  rw [luaHSet, hget]
  exact if_pos hNaN

/-- `luaH_setnum` is `luaH_set` for an `int`. -/
theorem luaHSetnum_eq {j : Int} (hlow : -(2 ^ 31) ≤ j) (hhigh : j < 2 ^ 31) :
    luaHSetnum new t j = luaHSet new t (some (Key.ofInt j)) := by
  have hindex : Key.index (Key.ofInt j : α) = some j := Key.index_ofInt j hlow hhigh
  rw [luaHSetnum, luaHSet]
  have hget : luaHGet t (some (Key.ofInt j : α)) = luaHGetnum t j := by
    rw [luaHGet, hindex]
  rw [hget]
  cases luaHGetnum t j with
  | some s => rfl
  | none =>
      dsimp only
      rw [if_neg (by rw [Key.not_isNaN_of_index hindex]; exact Bool.false_ne_true)]

/-- **`luaH_resizearray`** never fails when the array part grows. -/
theorem Ok.luaHResizearray (hok : Ok t) (hnew : Inserts new) {nasize : Nat}
    (hle : t.sizearray ≤ nasize) (hmax : nasize ≤ MAXASIZE) :
    ∃ t', luaHResizearray new t nasize = .ok t' ∧ Ok t' ∧ ∀ k v, Entry t' k v ↔ Entry t k v := by
  have huse : hashUse t.node t.sizenode ≤ if t.dummy = true then 0 else t.sizenode := by
    split
    next hdummy =>
      have hempty : ((Finset.range t.sizenode).filter fun i =>
          (t.node i).val.isSome = true) = ∅ := by
        refine Finset.filter_eq_empty_iff.mpr fun i _ h => ?_
        rw [(hok.dummy hdummy).2.2 i] at h
        cases h
      rw [hashUse, hempty]
      exact le_rfl
    next =>
      have h := Finset.card_filter_le (Finset.range t.sizenode) fun i =>
        (t.node i).val.isSome = true
      rwa [Finset.card_range] at h
  have hlsize : lsizeFor (if t.dummy = true then 0 else t.sizenode) ≤ MAXBITS := by
    split
    next => exact Nat.zero_le _
    next =>
      rw [Table.sizenode, lsizeFor, if_pos (Nat.two_pow_pos _), ceillog2_two_pow]
      exact hok.lsizenode_le
  have hcount : arrayUse t.array t.sizearray + hashUse t.node t.sizenode + 0 ≤
      (if t.dummy = true then 0 else t.sizenode) + arrayUse t.array (min nasize t.sizearray) +
        indexUse t.node nasize t.sizenode := by
    rw [min_eq_right hle]
    omega
  rcases hok.resize hnew hmax hcount with ⟨hover, -⟩ | ⟨t', ht', hr⟩
  · omega
  · exact ⟨t', ht', hr.ok, hr.entries⟩

end

end LuaTable
