import EluaWebServer.LuaTable.Insert

/-!
# Assigning to an element

A pointer to the value of an element is what `luaH_get` returns for its key.
Assigning through it changes what this key holds, and nothing else.
-/

namespace LuaTable

variable {α β : Type}

/-- The invariant of the nodes does not depend on their values. -/
theorem Sound.congr {main : α → Nat} {size : Nat} {node node' : Nat → Node α β}
    (hs : Sound main size node) (hkey : ∀ i, (node' i).key = (node i).key)
    (hnext : ∀ i, (node' i).next = (node i).next)
    (hempty : ∀ i, (node i).key = none → node' i = Node.empty) : Sound main size node' := by
  have hlinks : (fun i => (node' i).next) = fun i => (node i).next := funext hnext
  refine ⟨?_, ?_, ?_, ?_, ?_, ?_⟩
  · rw [hlinks]
    exact hs.chained
  · intro i k hk
    exact hs.inside (hkey i ▸ hk)
  · intro i hk
    exact hempty i (hkey i ▸ hk)
  · intro i j h
    rw [hkey]
    exact hs.target (hnext i ▸ h)
  · intro i j k hi hj
    exact hs.distinct (hkey i ▸ hi) (hkey j ▸ hj)
  · intro i k hk
    rcases hs.placed (hkey i ▸ hk) with hl | hl
    · refine Or.inl ?_
      rw [Linked, hlinks, hkey]
      exact hl
    · refine Or.inr ⟨(hnext i).trans hl.1, fun j hj => hl.2 j (hnext j ▸ hj)⟩

variable [Key α] [DecidableEq α]

section

variable {t : Table α β} {k : α} {s : Slot}

/-- What a pointer that `luaH_get` returns points to. -/
theorem slot_cases (h : luaHGet t (some k) = some s) :
    (∃ i, s = .array i ∧ arrayIndex t k = some i) ∨
      ∃ i, s = .node i ∧ arrayIndex t k = none ∧ (t.node i).key = some k := by
  cases harray : arrayIndex t k with
  | some i =>
      rw [luaHGet_of_array harray] at h
      exact Or.inl ⟨i, (Option.some.inj h).symm, rfl⟩
  | none =>
      rw [luaHGet_of_node harray] at h
      obtain ⟨i, hi, rfl⟩ := Option.map_eq_some_iff.mp h
      exact Or.inr ⟨i, rfl, rfl, (findNode_spec hi).1⟩

omit [DecidableEq α] in
theorem Ok.setArray (hok : Ok t) (i : Nat) (v : Option β) : Ok (t.setArray i v) :=
  ⟨hok.sound, hok.linked, hok.full, hok.lastfree_le, hok.outside, hok.not_isNaN, hok.sizearray_le,
    hok.lsizenode_le, hok.dummy⟩

omit [DecidableEq α] in
theorem Ok.setVal (hok : Ok t) {i : Nat} (hk : (t.node i).key = some k) (v : Option β) :
    Ok (t.setNode i { t.node i with val := v }) := by
  have hkey : ∀ j, ((t.setNode i { t.node i with val := v }).node j).key = (t.node j).key := by
    intro j
    by_cases hj : j = i
    · rw [hj]
      dsimp only [Table.setNode]
      rw [Function.update_self]
    · dsimp only [Table.setNode]
      rw [Function.update_of_ne hj]
  have hnext : ∀ j, ((t.setNode i { t.node i with val := v }).node j).next = (t.node j).next := by
    intro j
    by_cases hj : j = i
    · rw [hj]
      dsimp only [Table.setNode]
      rw [Function.update_self]
    · dsimp only [Table.setNode]
      rw [Function.update_of_ne hj]
  refine ⟨hok.sound.congr hkey hnext ?_, ?_, ?_, hok.lastfree_le, ?_, ?_, hok.sizearray_le,
    hok.lsizenode_le, ?_⟩
  · intro j hj
    have hji : j ≠ i := fun heq => by
      rw [heq, hk] at hj
      cases hj
    exact (Function.update_of_ne hji ..).trans (hok.sound.empty hj)
  · intro j k' hk'
    rw [Linked, funext hnext, hkey]
    exact hok.linked (hkey j ▸ hk')
  · intro hdummy j hle hlt
    rw [hkey]
    exact hok.full hdummy j hle hlt
  · intro j k' hk'
    exact hok.outside (hkey j ▸ hk')
  · intro j k' hk'
    exact hok.not_isNaN (hkey j ▸ hk')
  · intro hdummy
    rw [(hok.dummy hdummy).2.2 i] at hk
    cases hk

/-- **Assignment** keeps the table in order. -/
theorem Ok.assign (hok : Ok t) (hs : luaHGet t (some k) = some s) (v : Option β) :
    Ok (t.assign s v) := by
  rcases slot_cases hs with ⟨i, rfl, -⟩ | ⟨i, rfl, -, hk⟩
  · exact hok.setArray i v
  · exact hok.setVal hk v

/-- **Assignment** changes what the key holds. -/
theorem Ok.assign_entry (hok : Ok t) (hs : luaHGet t (some k) = some s) (v : Option β) (k' : α)
    (v' : β) :
    Entry (t.assign s v) k' v' ↔ if k' = k then v = some v' else Entry t k' v' := by
  rcases slot_cases hs with ⟨i, rfl, hi⟩ | ⟨i, rfl, hout, hk⟩
  · have hself : Function.update t.array i v i = v := Function.update_self ..
    have hne : ∀ j, j ≠ i → Function.update t.array i v j = t.array j := fun j hj =>
      Function.update_of_ne hj ..
    change ((∃ j, arrayIndex t k' = some j ∧ Function.update t.array i v j = some v') ∨
      HashEntry t k' v') ↔ _
    by_cases hkk : k' = k
    · rw [if_pos hkk, hkk]
      constructor
      · rintro (⟨j, hj, hv⟩ | ⟨j, hj, -⟩)
        · obtain rfl := Option.some.inj (hi.symm.trans hj)
          rwa [hself] at hv
        · rw [hok.outside hj] at hi
          cases hi
      · intro hv
        exact Or.inl ⟨i, hi, hself.trans hv⟩
    · rw [if_neg hkk]
      refine or_congr (exists_congr fun j => and_congr_right fun hj => ?_) Iff.rfl
      have hji : j ≠ i := fun heq => by
        rw [heq] at hj
        have h := (arrayIndex_eq_some_iff.mp hi).1
        have h' := (arrayIndex_eq_some_iff.mp hj).1
        exact hkk ((Key.ofInt_index h').symm.trans (Key.ofInt_index h))
      rw [hne j hji]
  · have hself : Function.update t.node i { t.node i with val := v } i =
        { t.node i with val := v } := Function.update_self ..
    have hne : ∀ j, j ≠ i → Function.update t.node i { t.node i with val := v } j = t.node j :=
      fun j hj => Function.update_of_ne hj ..
    change ((∃ j, arrayIndex t k' = some j ∧ t.array j = some v') ∨
      ∃ j, (Function.update t.node i { t.node i with val := v } j).key = some k' ∧
        (Function.update t.node i { t.node i with val := v } j).val = some v') ↔ _
    by_cases hkk : k' = k
    · rw [if_pos hkk, hkk]
      constructor
      · rintro (⟨j, hj, -⟩ | ⟨j, hj, hv⟩)
        · rw [hout] at hj
          cases hj
        · have hji : j = i := by
            by_contra hji
            rw [hne j hji] at hj
            exact hji (hok.sound.distinct hj hk)
          rw [hji, hself] at hv
          exact hv
      · intro hv
        exact Or.inr ⟨i, (congrArg Node.key hself).trans hk, (congrArg Node.val hself).trans hv⟩
    · rw [if_neg hkk]
      refine or_congr Iff.rfl (exists_congr fun j => ?_)
      by_cases hji : j = i
      · rw [hji, hself, hk]
        exact iff_of_false (fun h => hkk (Option.some.inj h.1).symm)
          fun h => hkk (Option.some.inj h.1).symm
      · rw [hne j hji]

end

end LuaTable
