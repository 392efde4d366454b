import EluaWebServer.LuaTable.Insert
import EluaWebServer.Lib.Loop

/-!
# Putting the nodes back into chains

In the last loop of `resize_hashpart` every element is moved to its main
position or put in its chain.  A node that is moved away from a main position
may have to be moved in turn; each such round puts one more element at its main
position, so that the rounds end.
-/

namespace LuaTable

variable {α β : Type}

/-- The same elements, at other places. -/
def Permuted (node node' : Nat → Node α β) : Prop :=
  ∃ e : Equiv.Perm Nat, ∀ i, (node' i).key = (node (e i)).key ∧ (node' i).val = (node (e i)).val

theorem Permuted.refl (node : Nat → Node α β) : Permuted node node :=
  ⟨Equiv.refl Nat, fun _ => ⟨rfl, rfl⟩⟩

theorem Permuted.trans {node₁ node₂ node₃ : Nat → Node α β} (h₁₂ : Permuted node₁ node₂)
    (h₂₃ : Permuted node₂ node₃) : Permuted node₁ node₃ := by
  obtain ⟨e, he⟩ := h₁₂
  obtain ⟨e', he'⟩ := h₂₃
  refine ⟨e'.trans e, fun i => ?_⟩
  rw [Equiv.trans_apply]
  exact ⟨(he' i).1.trans (he (e' i)).1, (he' i).2.trans (he (e' i)).2⟩

theorem permuted_relocate (node : Nat → Node α β) (e : Equiv.Perm Nat) :
    Permuted node (relocate e node) :=
  ⟨e.symm, fun _ => ⟨rfl, rfl⟩⟩

theorem permuted_chainAfter (node : Nat → Node α β) (a n : Nat) :
    Permuted node (chainAfter node a n) :=
  ⟨Equiv.refl Nat, fun _ => ⟨rfl, rfl⟩⟩

/-- What there is under a key. -/
theorem Permuted.exists_iff {node node' : Nat → Node α β} (h : Permuted node node') {k : α}
    {v : Option β} :
    (∃ i, (node' i).key = some k ∧ (node' i).val = v) ↔
      ∃ i, (node i).key = some k ∧ (node i).val = v := by
  obtain ⟨e, he⟩ := h
  refine e.exists_congr fun i => ?_
  rw [(he i).1, (he i).2]

/-- A key with a value, or none of both. -/
def Live (node : Nat → Node α β) : Prop :=
  ∀ i, (node i).val = none → (node i).key = none

theorem Permuted.live {node node' : Nat → Node α β} (h : Permuted node node') (hl : Live node) :
    Live node' := by
  obtain ⟨e, he⟩ := h
  intro i hi
  rw [(he i).1]
  rw [(he i).2] at hi
  exact hl (e i) hi

/-- The element at `i`, if any, is in its chain. -/
def Settled (main : α → Nat) (node : Nat → Node α β) (i : Nat) : Prop :=
  ∀ k, (node i).key = some k → Linked main node k i

/-- The nodes with an element that is at its main position. -/
def own (main : α → Nat) (size : Nat) (node : Nat → Node α β) : Finset Nat :=
  (Finset.range size).filter fun i => (node i).key.any (fun k => decide (main k = i)) = true

theorem mem_own {main : α → Nat} {size : Nat} {node : Nat → Node α β} {i : Nat} :
    i ∈ own main size node ↔ i < size ∧ ∃ k, (node i).key = some k ∧ main k = i := by
  rw [own, Finset.mem_filter, Finset.mem_range, Option.any_eq_true]
  refine and_congr_right fun _ => exists_congr fun k => ?_
  rw [decide_eq_true_eq]

variable [Key α]

/-- What `move_node` does to the table. -/
structure Moved (t t' : Table α β) (i : Nat) : Prop where
  eq : t' = { t with node := t'.node }
  sound : Sound (main t) t.sizenode t'.node
  permuted : Permuted t.node t'.node
  settled : ∀ j, j ≠ i → Settled (main t) t.node j → Settled (main t) t'.node j

theorem Moved.refl {t : Table α β} (hs : Sound (main t) t.sizenode t.node) (i : Nat) :
    Moved t t i :=
  ⟨rfl, hs, Permuted.refl _, fun _ _ h => h⟩

theorem Moved.main_eq {t t' : Table α β} {i : Nat} (h : Moved t t' i) : main t' = main t := by
  rw [h.eq]
  rfl

theorem Moved.sizenode_eq {t t' : Table α β} {i : Nat} (h : Moved t t' i) :
    t'.sizenode = t.sizenode := by
  rw [h.eq]
  rfl

theorem Moved.trans {t₁ t₂ t₃ : Table α β} {i : Nat} (h₁₂ : Moved t₁ t₂ i)
    (h₂₃ : Moved t₂ t₃ i) : Moved t₁ t₃ i where
  eq := by
    rw [h₂₃.eq, h₁₂.eq]
  sound := by
    rw [← h₁₂.main_eq, ← h₁₂.sizenode_eq]
    exact h₂₃.sound
  permuted := h₁₂.permuted.trans h₂₃.permuted
  settled := fun j hj h => by
    have h' := h₁₂.settled j hj h
    rw [← h₁₂.main_eq] at h' ⊢
    exact h₂₃.settled j hj h'

section

variable {t : Table α β} {i : Nat} {k : α}

/-- The element at `i` is exchanged with what is at its main position, and does not belong there. -/
theorem moved_swap (hs : Sound (main t) t.sizenode t.node) (hk : (t.node i).key = some k)
    (hne : main t k ≠ i) (hother : ∀ k', (t.node (main t k)).key = some k' → main t k' ≠ main t k) :
    Moved t { t with node := relocate (Equiv.swap i (main t k)) t.node } i := by
  have hown : ∀ k', (t.node i).key = some k' → main t k' ≠ i := fun k' h => by
    obtain rfl := Option.some.inj (hk.symm.trans h)
    exact hne
  refine ⟨rfl, hs.swap (hs.inside hk) (main_lt t k) hown hother, permuted_relocate _ _, ?_⟩
  intro j hj hsettled k' hk'
  dsimp only at hk' ⊢
  rw [relocate_key, Equiv.symm_swap] at hk'
  by_cases hjm : j = main t k
  · rw [hjm, Equiv.swap_apply_right] at hk'
    obtain rfl := Option.some.inj (hk.symm.trans hk')
    rw [hjm]
    refine linked_main ?_
    rw [relocate_key, Equiv.symm_swap, Equiv.swap_apply_right]
    exact hk
  · rw [Equiv.swap_apply_of_ne_of_ne hj hjm] at hk'
    have hl := hsettled k' hk'
    have hmoved := hl.relocate (e := Equiv.swap i (main t k))
      (Equiv.swap_apply_of_ne_of_ne (hl.main_ne hown) (hl.main_ne hother))
    rwa [Equiv.swap_apply_of_ne_of_ne hj hjm] at hmoved

/-- The exchange puts one more element at its main position. -/
theorem own_swap (hk : (t.node i).key = some k)
    (hne : main t k ≠ i) (hother : ∀ k', (t.node (main t k)).key = some k' → main t k' ≠ main t k) :
    (own (main t) t.sizenode t.node).card <
      (own (main t) t.sizenode (relocate (Equiv.swap i (main t k)) t.node)).card := by
  apply Finset.card_lt_card
  refine Finset.ssubset_iff_of_subset ?_ |>.mpr ⟨main t k, ?_, ?_⟩
  · intro j hj
    obtain ⟨hlt, k', hk', hmain⟩ := mem_own.mp hj
    refine mem_own.mpr ⟨hlt, k', ?_, hmain⟩
    have hji : j ≠ i := fun heq => by
      rw [heq] at hk' hmain
      obtain rfl := Option.some.inj (hk.symm.trans hk')
      exact hne hmain
    have hjm : j ≠ main t k := fun heq => by
      rw [heq] at hk' hmain
      exact hother k' hk' hmain
    rw [relocate_key, Equiv.symm_swap, Equiv.swap_apply_of_ne_of_ne hji hjm]
    exact hk'
  · refine mem_own.mpr ⟨main_lt t k, k, ?_, rfl⟩
    rw [relocate_key, Equiv.symm_swap, Equiv.swap_apply_right]
    exact hk
  · intro h
    obtain ⟨-, k', hk', hmain⟩ := mem_own.mp h
    exact hother k' hk' hmain

/-! The nodes as `move_node` sets them. -/

omit [Key α] in
theorem update_swap {mp : Nat} {node : Nat → Node α β} (hi : Lone node i) (hmp : Lone node mp) :
    Function.update (Function.update node i (node mp)) mp (node i) =
      relocate (Equiv.swap i mp) node := by
  funext j
  by_cases hjm : j = mp
  · rw [hjm, Function.update_self, relocate_swap_right (hi.2 i) (hmp.2 i)]
  · rw [Function.update_of_ne hjm]
    by_cases hji : j = i
    · rw [hji, Function.update_self, relocate_swap_left (hi.2 mp) (hmp.2 mp)]
    · rw [Function.update_of_ne hji, relocate_swap_of_ne hji hjm (hi.2 j) (hmp.2 j)]

omit [Key α] in
theorem update_swap_prev {main : α → Nat} {size mp prev : Nat} {node : Nat → Node α β}
    (hs : Sound main size node) (hi : Lone node i) (hprev : (node prev).next = some mp) :
    Function.update
      (Function.update (Function.update node prev { node prev with next := some i }) i (node mp))
      mp (node i) = relocate (Equiv.swap i mp) node := by
  have hpm : prev ≠ mp := hs.chained.ne hprev
  have hpi : prev ≠ i := fun heq => by
    rw [heq, hi.1] at hprev
    cases hprev
  funext j
  by_cases hjm : j = mp
  · rw [hjm, Function.update_self, relocate_swap_right (hi.2 i)
      (by rw [hi.1]; exact (Option.some_ne_none mp).symm)]
  · rw [Function.update_of_ne hjm]
    by_cases hji : j = i
    · rw [hji, Function.update_self,
        relocate_swap_left (hi.2 mp) fun h => hs.chained.ne h rfl]
    · rw [Function.update_of_ne hji]
      by_cases hjp : j = prev
      · rw [hjp, Function.update_self, relocate_swap_prev hpi hpm hprev]
      · rw [Function.update_of_ne hjp, relocate_swap_of_ne hji hjm (hi.2 j) fun h =>
          hjp (hs.chained.injective h hprev)]

/-! ## One move -/

/-- An element that is not found behind its main position, nor at it, is alone. -/
theorem lone_of_not_found (hs : Sound (main t) t.sizenode t.node) (hk : (t.node i).key = some k)
    (hne : main t k ≠ i) (hfind : ¬(findPrevNode t (main t k) i).isSome = true) :
    Lone t.node i := by
  rcases hs.placed hk with hl | hl
  · obtain ⟨prev, -, hseek⟩ := hl.prev hs hne
    have hfound : findPrevNode t (main t k) i = some prev := hseek
    rw [hfound] at hfind
    exact absurd rfl hfind
  · exact hl

/-- What the result of `move_node` says about the node it was called for. -/
def MoveResult (t t' : Table α β) (i : Nat) : Bool → Prop
  | true => Settled (main t) t'.node i
  | false => (∃ k, (t'.node i).key = some k) ∧
      (own (main t) t.sizenode t.node).card < (own (main t) t.sizenode t'.node).card

/-- **One call of `move_node`.**  The element that it was called for is in its chain then, or one
more element is at its main position. -/
theorem moveNode_spec (hs : Sound (main t) t.sizenode t.node) (hlive : Live t.node)
    (hdummy : t.dummy = false) (hk : (t.node i).key = some k) :
    Moved t (moveNode t i).1 i ∧ MoveResult t (moveNode t i).1 i (moveNode t i).2 := by
  unfold moveNode
  rw [hk, show mainposition t (some k) = main t k from rfl]
  by_cases hne : main t k = i
  · rw [if_pos hne]
    refine ⟨Moved.refl hs i, ?_⟩
    intro k' hk'
    obtain rfl := Option.some.inj (hk.symm.trans hk')
    rw [← hne]
    exact linked_main (hne.symm ▸ hk)
  · rw [if_neg hne]
    by_cases hfind : (findPrevNode t (main t k) i).isSome = true
    · rw [if_pos hfind]
      refine ⟨Moved.refl hs i, ?_⟩
      intro k' hk'
      obtain rfl := Option.some.inj (hk.symm.trans hk')
      refine (hs.placed hk).resolve_right fun hl => ?_
      have hnone : findPrevNode t (main t k) i = none := hl.seek_prev _
      rw [hnone] at hfind
      cases hfind
    · rw [if_neg hfind, hdummy, Bool.or_false]
      have hlone := lone_of_not_found hs hk hne hfind
      have hmi : i ≠ main t k := fun h => hne h.symm
      by_cases hval : (t.node (main t k)).val.isSome = true
      · rw [if_pos hval]
        obtain ⟨k₀, hk₀⟩ := hs.key_ne_none hval
        rw [hk₀, show mainposition t (some k₀) = main t k₀ from rfl]
        by_cases hmain : main t k₀ = main t k
        · -- the element at the main position is in its own
          rw [if_neg (not_not.mpr hmain)]
          simp only [Table.setNode, Table.next, Function.update_of_ne hmi.symm]
          rw [update_chainAfter hmi]
          refine ⟨⟨rfl, hs.chainAfter hk₀ hmain hk rfl hmi hlone, permuted_chainAfter _ _ _, ?_⟩, ?_⟩
          · intro j _ hsettled k' hk'
            exact (hsettled k' hk').chainAfter hmi hlone
          · intro k' hk'
            obtain rfl := Option.some.inj (hk.symm.trans hk')
            exact linked_chainAfter hk₀ hmain rfl
        · rw [if_pos hmain]
          have hother : ∀ k', (t.node (main t k)).key = some k' → main t k' ≠ main t k :=
            fun k' h => by
              obtain rfl := Option.some.inj (hk₀.symm.trans h)
              exact hmain
          rcases hs.placed hk₀ with hl | hl
          · -- it is in the chain of another position
            obtain ⟨prev, hprev, hseek⟩ := hl.prev hs hmain
            have hfound : findPrevNode t (main t k₀) (main t k) = some prev := hseek
            have hmp : main t k ≠ prev := (hs.chained.ne hprev).symm
            simp only [hfound, Table.setNode, Function.update_of_ne hmp]
            rw [update_swap_prev hs hlone hprev]
            refine ⟨moved_swap hs hk hne hother, ?_⟩
            intro k' hk'
            rw [relocate_key, Equiv.symm_swap, Equiv.swap_apply_left] at hk'
            obtain rfl := Option.some.inj (hk₀.symm.trans hk')
            have hmaini : main t k₀ ≠ i := hl.main_ne fun k' h => by
              obtain rfl := Option.some.inj (hk.symm.trans h)
              exact hne
            have hmoved := hl.relocate (e := Equiv.swap i (main t k))
              (Equiv.swap_apply_of_ne_of_ne hmaini hmain)
            rwa [Equiv.swap_apply_right] at hmoved
          · -- it is alone, and has to be moved in turn
            have hnone : findPrevNode t (main t k₀) (main t k) = none := hl.seek_prev _
            simp only [hnone, Table.setNode]
            rw [update_swap hlone hl]
            refine ⟨moved_swap hs hk hne hother, ?_⟩
            refine ⟨⟨k₀, ?_⟩, own_swap hk hne hother⟩
            rw [relocate_key, Equiv.symm_swap, Equiv.swap_apply_left]
            exact hk₀
      · rw [if_neg hval]
        have hnone : (t.node (main t k)).val = none := by simpa using hval
        have hempty := hs.empty (hlive _ hnone)
        have hfree : Function.update (Function.update t.node (main t k) (t.node i)) i Node.empty =
            relocate (Equiv.swap i (main t k)) t.node := by
          rw [← update_swap hlone (hs.lone_of_none (hlive _ hnone)), hempty,
            Function.update_comm hmi]
        simp only [Table.setNode]
        rw [hfree]
        refine ⟨moved_swap hs hk hne ?_, ?_⟩
        · intro k' hk'
          rw [hlive _ hnone] at hk'
          cases hk'
        · intro k' hk'
          rw [relocate_key, Equiv.symm_swap, Equiv.swap_apply_left, hlive _ hnone] at hk'
          cases hk'

/-! ## All moves -/

theorem moveNodes_spec {n : Nat} (hs : Sound (main t) t.sizenode t.node) (hlive : Live t.node)
    (hdummy : t.dummy = false) (hk : ∃ k, (t.node i).key = some k)
    (hn : t.sizenode < n + (own (main t) t.sizenode t.node).card) :
    ∃ t', moveNodes i n t = some t' ∧ Moved t t' i ∧ Settled (main t) t'.node i := by
  induction n generalizing t with
  | zero =>
      have hle := Finset.card_filter_le (Finset.range t.sizenode)
        fun i => (t.node i).key.any (fun k => decide (main t k = i)) = true
      rw [Finset.card_range] at hle
      rw [own] at hn
      omega
  | succ n ih =>
      obtain ⟨k, hk⟩ := hk
      obtain ⟨hmoved, hresult⟩ := moveNode_spec hs hlive hdummy hk
      rw [moveNodes]
      cases hr : moveNode t i with
      | mk t₁ b =>
          rw [hr] at hmoved hresult
          dsimp only at hmoved hresult ⊢
          cases b with
          | true => exact ⟨t₁, rfl, hmoved, hresult⟩
          | false =>
              obtain ⟨hkey, hgrown⟩ := hresult
              have hdummy₁ : t₁.dummy = false := by
                rw [hmoved.eq]
                exact hdummy
              have hs₁ : Sound (main t₁) t₁.sizenode t₁.node := by
                rw [hmoved.main_eq, hmoved.sizenode_eq]
                exact hmoved.sound
              obtain ⟨t', ht', hmoved', hsettled⟩ := ih hs₁ (hmoved.permuted.live hlive) hdummy₁
                hkey (by rw [hmoved.main_eq, hmoved.sizenode_eq]; omega)
              refine ⟨t', ht', hmoved.trans hmoved', ?_⟩
              rwa [hmoved.main_eq] at hsettled

/-- **The last loop of `resize_hashpart`**: every element is put in its chain. -/
theorem rechain_spec (hs : Sound (main t) t.sizenode t.node) (hlive : Live t.node)
    (hdummy : t.dummy = false) :
    ∃ t', (List.range t.sizenode).foldlM rechain t = .ok t' ∧ t' = { t with node := t'.node } ∧
      Sound (main t) t.sizenode t'.node ∧ Permuted t.node t'.node ∧
        ∀ i, Settled (main t) t'.node i := by
  obtain ⟨t', ht', heq, hsound, hperm, hsettled⟩ := Loop.foldlM_range (n := t.sizenode) (s := t)
    (f := rechain)
    (P := fun n t' => t' = { t with node := t'.node } ∧ Sound (main t) t.sizenode t'.node ∧
      Permuted t.node t'.node ∧ ∀ i, i < n → Settled (main t) t'.node i)
    ⟨rfl, hs, Permuted.refl _, fun i hi => absurd hi (Nat.not_lt_zero i)⟩ (by
      rintro i t₁ hi ⟨heq, hsound, hperm, hsettled⟩
      have hmain : main t₁ = main t := by
        rw [heq]
        rfl
      have hsize : t₁.sizenode = t.sizenode := by
        rw [heq]
        rfl
      unfold rechain
      by_cases hval : (t₁.node i).val.isSome = true
      · rw [if_pos hval]
        have hs₁ : Sound (main t₁) t₁.sizenode t₁.node := by
          rw [hmain, hsize]
          exact hsound
        obtain ⟨t', ht', hmoved, hlast⟩ := moveNodes_spec (n := t₁.sizenode + 1) hs₁
          (hperm.live hlive) (by rw [heq]; exact hdummy) (hs₁.key_ne_none hval) (by omega)
        rw [ht']
        refine ⟨t', rfl, ?_, ?_, hperm.trans hmoved.permuted, ?_⟩
        · rw [hmoved.eq, heq]
        · rw [← hmain, ← hsize]
          exact hmoved.sound
        · rw [hmain] at hlast
          intro j hj
          by_cases hji : j = i
          · rw [hji]
            exact hlast
          · have hkept := hmoved.settled j hji
            rw [hmain] at hkept
            exact hkept (hsettled j (by omega))
      · rw [if_neg hval]
        refine ⟨t₁, rfl, heq, hsound, hperm, fun j hj => ?_⟩
        rcases Nat.lt_succ_iff_lt_or_eq.mp hj with hlt | rfl
        · exact hsettled j hlt
        · intro k hk
          rw [hperm.live hlive j (by simpa using hval)] at hk
          cases hk)
  refine ⟨t', ht', heq, hsound, hperm, fun i k hk => hsettled i (hsound.inside hk) k hk⟩

end

end LuaTable
