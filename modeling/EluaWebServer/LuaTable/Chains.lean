import EluaWebServer.LuaTable.Table

/-!
# The chains of the hash part

`Sound` is the invariant of the node vector, also in the midst of a resize: an
element is either in the chain of its main position, and then the element at
that position is in its own, or it is alone.
-/

namespace LuaTable

variable {α β : Type}

/-- The element of key `k` at `i` is in the chain of its main position. -/
def Linked (main : α → Nat) (node : Nat → Node α β) (k : α) (i : Nat) : Prop :=
  Links.Reach (fun i => (node i).next) (main k) i ∧
    ∃ k', (node (main k)).key = some k' ∧ main k' = main k

/-- A node outside of every chain. -/
def Lone (node : Nat → Node α β) (i : Nat) : Prop :=
  (node i).next = none ∧ ∀ j, (node j).next ≠ some i

structure Sound (main : α → Nat) (size : Nat) (node : Nat → Node α β) : Prop where
  chained : Links.Chained fun i => (node i).next
  inside : ∀ {i k}, (node i).key = some k → i < size
  empty : ∀ {i}, (node i).key = none → node i = Node.empty
  target : ∀ {i j}, (node i).next = some j → (node j).key ≠ none
  distinct : ∀ {i j k}, (node i).key = some k → (node j).key = some k → i = j
  placed : ∀ {i k}, (node i).key = some k → Linked main node k i ∨ Lone node i

section

variable {main : α → Nat} {size : Nat} {node : Nat → Node α β}

theorem linked_main {k : α} (h : (node (main k)).key = some k) : Linked main node k (main k) :=
  ⟨Links.Reach.refl _, k, h, rfl⟩

theorem Sound.key_ne_none (hs : Sound main size node) {i : Nat} (h : (node i).val.isSome = true) :
    ∃ k, (node i).key = some k := by
  cases hk : (node i).key with
  | none =>
      rw [hs.empty hk] at h
      cases h
  | some k => exact ⟨k, rfl⟩

/-- A node without a key is outside of every chain. -/
theorem Sound.lone_of_none (hs : Sound main size node) {i : Nat} (h : (node i).key = none) :
    Lone node i := by
  refine ⟨?_, fun j hj => hs.target hj h⟩
  rw [hs.empty h]
  rfl

theorem Sound.next_mem (hs : Sound main size node) {i j : Nat} (h : (node i).next = some j) :
    j ∈ Finset.range size := by
  obtain ⟨k, hk⟩ := Option.ne_none_iff_exists'.mp (hs.target h)
  exact Finset.mem_range.mpr (hs.inside hk)

theorem Linked.main_mem (hs : Sound main size node) {k : α} {i : Nat}
    (h : Linked main node k i) : main k ∈ Finset.range size := by
  obtain ⟨-, k', hk', -⟩ := h
  exact Finset.mem_range.mpr (hs.inside hk')

/-- **An element of a chain is found** from its main position, if nothing else is like it. -/
theorem Linked.seek_eq (hs : Sound main size node) {k : α} {i : Nat} {p : Nat → Bool}
    (hl : Linked main node k i) (hp : p i = true) (hone : ∀ j, p j = true → j = i) :
    Links.seek (fun i => (node i).next) p size (main k) = some i :=
  hs.chained.seek_eq_some (S := Finset.range size) (fun _ _ h => hs.next_mem h)
    (hl.main_mem hs) (Finset.card_range size).le hl.1 hp hone

/-- The node before an element that is not at the beginning of its chain. -/
theorem Linked.prev (hs : Sound main size node) {k : α} {i : Nat} (hl : Linked main node k i)
    (hne : main k ≠ i) :
    ∃ prev, (node prev).next = some i ∧
      Links.seek (fun i => (node i).next) (fun j => decide ((node j).next = some i)) size (main k) =
        some prev := by
  obtain ⟨prev, hreach, hprev⟩ := hl.1.before hne
  refine ⟨prev, hprev, ?_⟩
  refine hs.chained.seek_eq_some (S := Finset.range size) (fun _ _ h => hs.next_mem h)
    (hl.main_mem hs) (Finset.card_range size).le hreach (decide_eq_true hprev) ?_
  intro j hj
  exact hs.chained.injective (of_decide_eq_true hj) hprev

theorem Lone.seek_prev {i start : Nat} (hl : Lone node i) (n : Nat) :
    Links.seek (fun i => (node i).next) (fun j => decide ((node j).next = some i)) n start = none :=
  Links.seek_eq_none fun j _ => decide_eq_false (hl.2 j)

end

/-! ## Exchanging nodes -/

section

variable {main : α → Nat} {size : Nat} {node : Nat → Node α β}

/-- The nodes have been moved, and the links with them. -/
def relocate (e : Equiv.Perm Nat) (node : Nat → Node α β) (i : Nat) : Node α β :=
  { node (e.symm i) with next := (node (e.symm i)).next.map e }

@[simp] theorem relocate_key (e : Equiv.Perm Nat) (node : Nat → Node α β) (i : Nat) :
    (relocate e node i).key = (node (e.symm i)).key :=
  rfl

@[simp] theorem relocate_val (e : Equiv.Perm Nat) (node : Nat → Node α β) (i : Nat) :
    (relocate e node i).val = (node (e.symm i)).val :=
  rfl

theorem relocate_next (e : Equiv.Perm Nat) (node : Nat → Node α β) :
    (fun i => (relocate e node i).next) = Links.rename e fun i => (node i).next :=
  rfl

theorem relocate_next_eq_some {e : Equiv.Perm Nat} {i j : Nat} :
    (relocate e node i).next = some j ↔ (node (e.symm i)).next = some (e.symm j) :=
  Links.rename_eq_some e fun i => (node i).next

theorem Linked.relocate {e : Equiv.Perm Nat} {k : α} {i : Nat} (hl : Linked main node k i)
    (hmain : e (main k) = main k) : Linked main (relocate e node) k (e i) := by
  obtain ⟨hreach, k', hk', hsame⟩ := hl
  refine ⟨?_, k', ?_, hsame⟩
  · rw [relocate_next]
    have hmoved := hreach.rename e
    rwa [hmain] at hmoved
  · rw [relocate_key, (Equiv.symm_apply_eq e).mpr hmain.symm]
    exact hk'

theorem Lone.relocate {e : Equiv.Perm Nat} {i : Nat} (hl : Lone node i) :
    Lone (relocate e node) (e i) := by
  refine ⟨?_, fun j hj => ?_⟩
  · rw [LuaTable.relocate, Equiv.symm_apply_apply, hl.1]
    rfl
  · rw [relocate_next_eq_some, Equiv.symm_apply_apply] at hj
    exact hl.2 _ hj

/-- **Nodes can be moved** as long as no chain begins at a node that is. -/
theorem Sound.relocate (hs : Sound main size node) {e : Equiv.Perm Nat}
    (hsize : ∀ i, i < size → e i < size)
    (hmain : ∀ {k i}, (node i).key = some k → Linked main node k i → e (main k) = main k) :
    Sound main size (relocate e node) where
  chained := by
    rw [relocate_next]
    exact hs.chained.rename e
  inside := by
    intro i k hk
    have hlt := hsize _ (hs.inside hk)
    rwa [e.apply_symm_apply] at hlt
  empty := by
    intro i hk
    rw [LuaTable.relocate, hs.empty hk]
    rfl
  target := by
    intro i j hnext
    exact hs.target (relocate_next_eq_some.mp hnext)
  distinct := by
    intro i j k hi hj
    exact e.symm.injective (hs.distinct hi hj)
  placed := by
    intro i k hk
    rw [← e.apply_symm_apply i]
    rcases hs.placed hk with hl | hl
    · exact Or.inl (hl.relocate (hmain hk hl))
    · exact Or.inr hl.relocate

/-- No chain begins at a node whose element has its main position elsewhere. -/
theorem Linked.main_ne {a : Nat} {k : α} {i : Nat} (hl : Linked main node k i)
    (ha : ∀ k', (node a).key = some k' → main k' ≠ a) : main k ≠ a := by
  obtain ⟨-, k', hk', hsame⟩ := hl
  intro heq
  rw [heq] at hk' hsame
  exact ha k' hk' hsame

/-- Two nodes are exchanged at which no chain begins. -/
theorem Sound.swap (hs : Sound main size node) {a b : Nat} (ha : a < size) (hb : b < size)
    (hmaina : ∀ k, (node a).key = some k → main k ≠ a)
    (hmainb : ∀ k, (node b).key = some k → main k ≠ b) :
    Sound main size (LuaTable.relocate (Equiv.swap a b) node) := by
  refine hs.relocate ?_ ?_
  · intro i hi
    rw [Equiv.swap_apply_def]
    split
    next => exact hb
    next =>
      split
      next => exact ha
      next => exact hi
  · intro k i _ hl
    exact Equiv.swap_apply_of_ne_of_ne (hl.main_ne hmaina) (hl.main_ne hmainb)

theorem map_swap_of_ne {a b : Nat} {next : Option Nat} (ha : next ≠ some a) (hb : next ≠ some b) :
    next.map (Equiv.swap a b) = next := by
  cases next with
  | none => rfl
  | some j =>
      rw [Option.map_some, Equiv.swap_apply_of_ne_of_ne]
      · exact fun heq => ha (heq ▸ rfl)
      · exact fun heq => hb (heq ▸ rfl)

theorem relocate_swap_left {a b : Nat} (ha : (node b).next ≠ some a) (hb : (node b).next ≠ some b) :
    relocate (Equiv.swap a b) node a = node b := by
  rw [relocate, Equiv.symm_swap, Equiv.swap_apply_left, map_swap_of_ne ha hb]

theorem relocate_swap_right {a b : Nat} (ha : (node a).next ≠ some a)
    (hb : (node a).next ≠ some b) : relocate (Equiv.swap a b) node b = node a := by
  rw [relocate, Equiv.symm_swap, Equiv.swap_apply_right, map_swap_of_ne ha hb]

theorem relocate_swap_of_ne {a b i : Nat} (hia : i ≠ a) (hib : i ≠ b)
    (ha : (node i).next ≠ some a) (hb : (node i).next ≠ some b) :
    relocate (Equiv.swap a b) node i = node i := by
  rw [relocate, Equiv.symm_swap, Equiv.swap_apply_of_ne_of_ne hia hib, map_swap_of_ne ha hb]

/-- The node before one that is moved. -/
theorem relocate_swap_prev {a b i : Nat} (hia : i ≠ a) (hib : i ≠ b)
    (hb : (node i).next = some b) :
    relocate (Equiv.swap a b) node i = { node i with next := some a } := by
  rw [relocate, Equiv.symm_swap, Equiv.swap_apply_of_ne_of_ne hia hib, hb, Option.map_some,
    Equiv.swap_apply_right]

/-- **A node moves to a free one**, link by link, and a key is put in its place. -/
theorem setKey_relocate {main : α → Nat} {size prev mp n : Nat} {k : α}
    (hs : Sound main size node) (hprev : (node prev).next = some mp) (hn : (node n).key = none) :
    Function.update
      (Function.update
        (Function.update (Function.update node prev { node prev with next := some n }) n (node mp))
        mp { node mp with next := none, val := none })
      mp ⟨some k, none, none⟩ =
    Function.update (relocate (Equiv.swap n mp) node) mp
      { relocate (Equiv.swap n mp) node mp with key := some k } := by
  have hlone := hs.lone_of_none hn
  have hpm : prev ≠ mp := hs.chained.ne hprev
  have hpn : prev ≠ n := fun heq => by
    rw [heq, hlone.1] at hprev
    cases hprev
  funext i
  by_cases him : i = mp
  · rw [him, Function.update_self, Function.update_self, relocate_swap_right (hlone.2 n)
      (by rw [hlone.1]; exact (Option.some_ne_none mp).symm), hs.empty hn]
    rfl
  · rw [Function.update_of_ne him, Function.update_of_ne him, Function.update_of_ne him]
    by_cases hin : i = n
    · rw [hin, Function.update_self,
        relocate_swap_left (hlone.2 mp) fun h => hs.chained.ne h rfl]
    · rw [Function.update_of_ne hin]
      by_cases hip : i = prev
      · rw [hip, Function.update_self, relocate_swap_prev hpn hpm hprev]
      · rw [Function.update_of_ne hip, relocate_swap_of_ne hin him (hlone.2 i) fun h =>
          hip (hs.chained.injective h hprev)]

end

/-! ## Putting nodes in -/

section

variable {main : α → Nat} {size : Nat} {node : Nat → Node α β}

/-- A lone element goes after the one at its main position. -/
def chainAfter (node : Nat → Node α β) (a n i : Nat) : Node α β :=
  { node i with next := Links.insertAfter (fun i => (node i).next) a n i }

@[simp] theorem chainAfter_key (node : Nat → Node α β) (a n i : Nat) :
    (chainAfter node a n i).key = (node i).key :=
  rfl

@[simp] theorem chainAfter_val (node : Nat → Node α β) (a n i : Nat) :
    (chainAfter node a n i).val = (node i).val :=
  rfl

/-- The links as the code sets them. -/
theorem update_chainAfter {a n : Nat} (hne : n ≠ a) :
    Function.update (Function.update node n { node n with next := (node a).next }) a
      { node a with next := some n } = chainAfter node a n := by
  funext i
  rw [chainAfter]
  by_cases hia : i = a
  · rw [hia, Function.update_self, Links.insertAfter_self]
  · rw [Function.update_of_ne hia]
    by_cases hin : i = n
    · rw [hin, Function.update_self, Links.insertAfter_new _ hne]
    · rw [Function.update_of_ne hin, Links.insertAfter_of_ne _ hia hin]

theorem Linked.chainAfter {a n : Nat} {k : α} {i : Nat} (hl : Linked main node k i) (hne : n ≠ a)
    (hlone : Lone node n) : Linked main (chainAfter node a n) k i := by
  obtain ⟨hreach, k', hk', hsame⟩ := hl
  exact ⟨hreach.insertAfter hne hlone.1, k', hk', hsame⟩

/-- The element that is put in is in its chain then. -/
theorem linked_chainAfter {a n : Nat} {ka kn : α} (ha : (node a).key = some ka)
    (hmaina : main ka = a) (hmainn : main kn = a) :
    Linked main (chainAfter node a n) kn n := by
  refine ⟨Links.Reach.single ?_, ka, ?_, ?_⟩
  · rw [hmainn]
    exact Links.insertAfter_self _ a n
  · rw [hmainn]
    exact ha
  · rw [hmaina, hmainn]

theorem Lone.chainAfter {a n i : Nat} (hl : Lone node i) (ha : i ≠ a) (hn : i ≠ n) (hne : n ≠ a) :
    Lone (chainAfter node a n) i := by
  refine ⟨(Links.insertAfter_of_ne _ ha hn).trans hl.1, fun j hj => ?_⟩
  have hnext : Links.insertAfter (fun i => (node i).next) a n j = some i := hj
  by_cases hja : j = a
  · rw [hja, Links.insertAfter_self] at hnext
    exact hn (Option.some.inj hnext).symm
  · by_cases hjn : j = n
    · rw [hjn, Links.insertAfter_new _ hne] at hnext
      exact hl.2 a hnext
    · rw [Links.insertAfter_of_ne _ hja hjn] at hnext
      exact hl.2 j hnext

theorem Sound.chainAfter (hs : Sound main size node) {a n : Nat} {ka kn : α}
    (ha : (node a).key = some ka) (hmaina : main ka = a) (hn : (node n).key = some kn)
    (hmainn : main kn = a) (hne : n ≠ a) (hlone : Lone node n) :
    Sound main size (chainAfter node a n) where
  chained := hs.chained.insertAfter hne hlone.1 hlone.2
  inside := hs.inside
  empty := by
    intro i hk
    have hia : i ≠ a := fun heq => by
      rw [chainAfter_key, heq, ha] at hk
      cases hk
    have hin : i ≠ n := fun heq => by
      rw [chainAfter_key, heq, hn] at hk
      cases hk
    rw [LuaTable.chainAfter, Links.insertAfter_of_ne _ hia hin]
    exact hs.empty hk
  target := by
    intro i j hnext
    have hnext' : Links.insertAfter (fun i => (node i).next) a n i = some j := hnext
    by_cases hia : i = a
    · rw [hia, Links.insertAfter_self] at hnext'
      rw [← Option.some.inj hnext', chainAfter_key, hn]
      exact Option.some_ne_none kn
    · by_cases hin : i = n
      · rw [hin, Links.insertAfter_new _ hne] at hnext'
        exact hs.target hnext'
      · rw [Links.insertAfter_of_ne _ hia hin] at hnext'
        exact hs.target hnext'
  distinct := hs.distinct
  placed := by
    intro i k hk
    rw [chainAfter_key] at hk
    by_cases hin : i = n
    · subst hin
      obtain rfl := Option.some.inj (hk.symm.trans hn)
      exact Or.inl (linked_chainAfter ha hmaina hmainn)
    · by_cases hia : i = a
      · subst hia
        obtain rfl := Option.some.inj (hk.symm.trans ha)
        have hself : Linked main (LuaTable.chainAfter node i n) k (main k) :=
          linked_main (by rw [hmaina]; exact ha)
        rw [hmaina] at hself
        exact Or.inl hself
      · rcases hs.placed hk with hl | hl
        · exact Or.inl (hl.chainAfter hne hlone)
        · exact Or.inr (hl.chainAfter hia hin hne)

/-! ## Setting a key -/

/-- A node gets a key; its place in the chains stays. -/
def setKey (node : Nat → Node α β) (p : Nat) (k : α) : Nat → Node α β :=
  Function.update node p { node p with key := some k }

theorem setKey_key_self (node : Nat → Node α β) (p : Nat) (k : α) :
    (setKey node p k p).key = some k := by
  rw [setKey, Function.update_self]

theorem setKey_of_ne (node : Nat → Node α β) {p i : Nat} (k : α) (h : i ≠ p) :
    setKey node p k i = node i := by
  rw [setKey, Function.update_of_ne h]

theorem setKey_next (node : Nat → Node α β) (p : Nat) (k : α) :
    (fun i => (setKey node p k i).next) = fun i => (node i).next := by
  funext i
  by_cases hi : i = p
  · subst hi
    rw [setKey, Function.update_self]
  · rw [setKey_of_ne node k hi]

@[simp] theorem setKey_val (node : Nat → Node α β) (p : Nat) (k : α) (i : Nat) :
    (setKey node p k i).val = (node i).val := by
  by_cases hi : i = p
  · subst hi
    rw [setKey, Function.update_self]
  · rw [setKey_of_ne node k hi]

theorem setKey_next_eq (node : Nat → Node α β) (p : Nat) (k : α) (i : Nat) :
    (setKey node p k i).next = (node i).next :=
  congrFun (setKey_next node p k) i

/-- The links as the code sets them, and then the key. -/
theorem update_chainAfter_setKey {a n : Nat} {k : α} (hne : n ≠ a) :
    Function.update
      (Function.update (Function.update node n { node n with next := (node a).next }) a
        { node a with next := some n })
      n ⟨some k, (node n).val, (node a).next⟩ = chainAfter (setKey node n k) a n := by
  rw [update_chainAfter hne]
  funext i
  by_cases hin : i = n
  · rw [hin, Function.update_self, chainAfter, Links.insertAfter_new _ hne, setKey_next_eq, setKey,
      Function.update_self]
  · rw [Function.update_of_ne hin, chainAfter, chainAfter, setKey_of_ne node k hin, setKey_next]

theorem Lone.setKey {p i : Nat} {k : α} (hl : Lone node i) : Lone (setKey node p k) i := by
  refine ⟨(setKey_next_eq node p k i).trans hl.1, fun j hj => ?_⟩
  rw [setKey_next_eq] at hj
  exact hl.2 j hj

/-- What is the same for every place that a new key is put at. -/
theorem Sound.setKey (hs : Sound main size node) {p : Nat} {k : α} (hp : p < size)
    (hnew : ∀ i, (node i).key ≠ some k)
    (hplaced : ∀ {i k'}, (setKey node p k i).key = some k' →
      Linked main (setKey node p k) k' i ∨ Lone (setKey node p k) i) :
    Sound main size (setKey node p k) where
  chained := by
    rw [setKey_next]
    exact hs.chained
  inside := by
    intro i k' hk
    by_cases hi : i = p
    · rw [hi]
      exact hp
    · rw [setKey_of_ne node k hi] at hk
      exact hs.inside hk
  empty := by
    intro i hk
    have hi : i ≠ p := fun heq => by
      rw [heq, setKey_key_self] at hk
      cases hk
    rw [setKey_of_ne node k hi] at hk ⊢
    exact hs.empty hk
  target := by
    intro i j hnext
    rw [setKey_next_eq] at hnext
    by_cases hj : j = p
    · rw [hj, setKey_key_self]
      exact Option.some_ne_none k
    · rw [setKey_of_ne node k hj]
      exact hs.target hnext
  distinct := by
    intro i j k' hi hj
    by_cases hip : i = p <;> by_cases hjp : j = p
    · rw [hip, hjp]
    · rw [hip, setKey_key_self] at hi
      rw [setKey_of_ne node k hjp, ← hi] at hj
      exact absurd hj (hnew j)
    · rw [hjp, setKey_key_self] at hj
      rw [setKey_of_ne node k hip, ← hj] at hi
      exact absurd hi (hnew i)
    · rw [setKey_of_ne node k hip] at hi
      rw [setKey_of_ne node k hjp] at hj
      exact hs.distinct hi hj
  placed := hplaced

/-- An element in a chain stays there when the node at its beginning gets a key of that chain. -/
theorem Linked.setKey_main {k k' : α} {i : Nat} (hl : Linked main node k' i) :
    Linked main (setKey node (main k) k) k' i := by
  obtain ⟨hreach, k'', hk'', hsame⟩ := hl
  refine ⟨(setKey_next node (main k) k).symm ▸ hreach, ?_⟩
  by_cases hmain : main k' = main k
  · refine ⟨k, ?_, hmain.symm⟩
    rw [hmain, setKey_key_self]
  · refine ⟨k'', ?_, hsame⟩
    rw [setKey_of_ne node k hmain]
    exact hk''

/-- **A key is put at its main position**, which is free or has an element without a value. -/
theorem Sound.setKey_main (hs : Sound main size node) {k : α} (hp : main k < size)
    (hnew : ∀ i, (node i).key ≠ some k) : Sound main size (LuaTable.setKey node (main k) k) := by
  refine hs.setKey hp hnew ?_
  intro i k' hk
  by_cases hi : i = main k
  · subst hi
    rw [setKey_key_self] at hk
    obtain rfl := Option.some.inj hk
    exact Or.inl (linked_main (setKey_key_self node (main k) k))
  · rw [setKey_of_ne node k hi] at hk
    rcases hs.placed hk with hl | hl
    · exact Or.inl hl.setKey_main
    · exact Or.inr hl.setKey

theorem Linked.setKey_of_none {k k' : α} {p i : Nat} (hl : Linked main node k' i)
    (hfree : (node p).key = none) : Linked main (setKey node p k) k' i := by
  obtain ⟨hreach, k'', hk'', hsame⟩ := hl
  refine ⟨(setKey_next node p k).symm ▸ hreach, k'', ?_, hsame⟩
  have hne : main k' ≠ p := fun heq => by
    rw [heq, hfree] at hk''
    cases hk''
  rw [setKey_of_ne node k hne]
  exact hk''

/-- A key is put at a free node, outside of the chains. -/
theorem Sound.setKey_free (hs : Sound main size node) {p : Nat} {k : α} (hp : p < size)
    (hfree : (node p).key = none) (hnew : ∀ i, (node i).key ≠ some k) :
    Sound main size (LuaTable.setKey node p k) := by
  refine hs.setKey hp hnew ?_
  intro i k' hk
  by_cases hi : i = p
  · subst hi
    exact Or.inr (hs.lone_of_none hfree).setKey
  · rw [setKey_of_ne node k hi] at hk
    rcases hs.placed hk with hl | hl
    · exact Or.inl (hl.setKey_of_none hfree)
    · exact Or.inr hl.setKey

end

end LuaTable
