import EluaWebServer.Lib.Loop
import Mathlib.Data.List.Induction

/-!
# Doubly linked chains

A store gives each address a node with the addresses of its neighbours and a
tag.  `Chain` says that a list of addresses and tags is what is found by
following the `next` fields, that the `prev` fields agree, and what lies
before and after.  A chain is changed in three ways: a tag is changed, a node
is put in, and a stretch of nodes is taken out.
-/

namespace Chain

variable {α τ : Type}

structure Node (α τ : Type) where
  next : α
  prev : α
  tag : τ

/-- The address of the first node of a chain, or what comes after it. -/
def first (after : α) : List (α × τ) → α
  | [] => after
  | b :: _ => b.1

/-- The address of the last node of a chain, or what comes before it. -/
def last (before : α) : List (α × τ) → α
  | [] => before
  | b :: bs => last b.1 bs

/-- The nodes of `bs` are linked in this order between `before` and `after`. -/
def Linked (h : α → Node α τ) (before : α) : List (α × τ) → α → Prop
  | [], _ => True
  | b :: bs, after => h b.1 = ⟨first after bs, before, b.2⟩ ∧ Linked h b.1 bs after

theorem first_append (after : α) (xs ys : List (α × τ)) :
    first after (xs ++ ys) = first (first after ys) xs := by
  cases xs with
  | nil => rfl
  | cons b bs => rfl

theorem last_append (before : α) (xs ys : List (α × τ)) :
    last before (xs ++ ys) = last (last before xs) ys := by
  induction xs generalizing before with
  | nil => rfl
  | cons b bs ih => exact ih b.1

theorem first_eq_of_ne_nil (after : α) {bs : List (α × τ)} (h : bs ≠ []) :
    ∃ b ∈ bs, first after bs = b.1 := by
  cases bs with
  | nil => exact absurd rfl h
  | cons b bs => exact ⟨b, List.mem_cons_self, rfl⟩

theorem last_eq_of_ne_nil (before : α) {bs : List (α × τ)} (h : bs ≠ []) :
    ∃ b ∈ bs, last before bs = b.1 := by
  induction bs generalizing before with
  | nil => exact absurd rfl h
  | cons b bs ih =>
      by_cases hbs : bs = []
      · subst hbs
        exact ⟨b, List.mem_cons_self, rfl⟩
      · obtain ⟨c, hc, hlast⟩ := ih b.1 hbs
        exact ⟨c, List.mem_cons_of_mem b hc, hlast⟩

/-- Two stretches of a chain and the seam between them. -/
theorem linked_append {h : α → Node α τ} {before after : α} {xs ys : List (α × τ)} :
    Linked h before (xs ++ ys) after ↔
      Linked h before xs (first after ys) ∧ Linked h (last before xs) ys after := by
  induction xs generalizing before with
  | nil => exact ⟨fun hl => ⟨trivial, hl⟩, fun hl => hl.2⟩
  | cons b bs ih =>
      simp only [List.cons_append, Linked, last, first_append, ih, and_assoc]

section

variable {h h' : α → Node α τ} {before after : α}

/-- A chain only depends on its own nodes. -/
theorem Linked.congr {bs : List (α × τ)} (hl : Linked h before bs after)
    (hsame : ∀ b ∈ bs, h' b.1 = h b.1) : Linked h' before bs after := by
  induction bs generalizing before with
  | nil => trivial
  | cons b bs ih =>
      obtain ⟨hb, hbs⟩ := hl
      refine ⟨(hsame b List.mem_cons_self).trans hb, ih hbs fun c hc => ?_⟩
      exact hsame c (List.mem_cons_of_mem b hc)

/-- The node at a place of a chain. -/
theorem Linked.node {xs ys : List (α × τ)} {p : α} {t : τ}
    (hl : Linked h before (xs ++ (p, t) :: ys) after) :
    h p = ⟨first after ys, last before xs, t⟩ :=
  (linked_append.mp hl).2.1

/-- The tag of a node of a chain. -/
theorem Linked.tag {bs : List (α × τ)} (hl : Linked h before bs after) {b : α × τ} (hb : b ∈ bs) :
    (h b.1).tag = b.2 := by
  obtain ⟨xs, ys, rfl⟩ := List.append_of_mem hb
  have hnode : h b.1 = ⟨first after ys, last before xs, b.2⟩ := hl.node
  rw [hnode]

/-- Changing a tag. -/
theorem Linked.retag {xs ys : List (α × τ)} {p : α} {t t' : τ}
    (hl : Linked h before (xs ++ (p, t) :: ys) after) (hp : h' p = { h p with tag := t' })
    (hrest : ∀ b ∈ xs ++ ys, h' b.1 = h b.1) :
    Linked h' before (xs ++ (p, t') :: ys) after := by
  have hnode := hl.node
  obtain ⟨hxs, -, hys⟩ := linked_append.mp hl
  refine linked_append.mpr ⟨?_, ?_, ?_⟩
  · exact hxs.congr fun b hb => hrest b (List.mem_append_left _ hb)
  · rw [hp, hnode]
  · exact hys.congr fun b hb => hrest b (List.mem_append_right _ hb)

/-- Putting a node in after `p`. -/
theorem Linked.insert {xs ys : List (α × τ)} {p q n : α} {t u v : τ}
    (hl : Linked h before (xs ++ (p, t) :: (q, u) :: ys) after)
    (hp : h' p = { h p with next := n }) (hn : h' n = ⟨q, p, v⟩)
    (hq : h' q = { h q with prev := n }) (hrest : ∀ b ∈ xs ++ ys, h' b.1 = h b.1) :
    Linked h' before (xs ++ (p, t) :: (n, v) :: (q, u) :: ys) after := by
  obtain ⟨hxs, hnode, hqnode, hys⟩ := linked_append.mp hl
  refine linked_append.mpr ⟨?_, ?_, hn, ?_, ?_⟩
  · exact hxs.congr fun b hb => hrest b (List.mem_append_left _ hb)
  · rw [hp, hnode]
    rfl
  · rw [hq, hqnode]
  · exact hys.congr fun b hb => hrest b (List.mem_append_right _ hb)

/-- Taking the nodes between `p` and `q` out. -/
theorem Linked.remove {xs run ys : List (α × τ)} {p q : α} {t u : τ}
    (hl : Linked h before (xs ++ (p, t) :: (run ++ (q, u) :: ys)) after)
    (hp : h' p = { h p with next := q }) (hq : h' q = { h q with prev := p })
    (hrest : ∀ b ∈ xs ++ ys, h' b.1 = h b.1) :
    Linked h' before (xs ++ (p, t) :: (q, u) :: ys) after := by
  obtain ⟨hxs, hnode, hrun⟩ := linked_append.mp hl
  obtain ⟨-, hqnode, hys⟩ := linked_append.mp hrun
  refine linked_append.mpr ⟨?_, ?_, ?_, ?_⟩
  · exact hxs.congr fun b hb => hrest b (List.mem_append_left _ hb)
  · rw [hp, hnode]
    rfl
  · rw [hq, hqnode]
  · exact hys.congr fun b hb => hrest b (List.mem_append_right _ hb)

/-- Replacing a stretch of a chain by one that begins at the same address
keeps the `next` fields outside of the stretch. -/
theorem Linked.next_eq {before before' : α} {pre post : List (α × τ)} {g e : α} {t u : τ}
    (mid mid' : List (α × τ)) (hl : Linked h before (pre ++ (g, t) :: (mid ++ (e, u) :: post)) after)
    (hl' : Linked h' before' (pre ++ (g, t) :: (mid' ++ (e, u) :: post)) after)
    (hfirst : first e mid' = first e mid) {b : α × τ}
    (hb : b ∈ pre ++ (g, t) :: (e, u) :: post) : (h' b.1).next = (h b.1).next := by
  rcases List.mem_append.mp hb with hb | hb
  · obtain ⟨xs, ys, rfl⟩ := List.append_of_mem hb
    rw [List.append_assoc, List.cons_append] at hl hl'
    have hnode : h b.1 = ⟨_, _, b.2⟩ := hl.node
    have hnode' : h' b.1 = ⟨_, _, b.2⟩ := hl'.node
    rw [hnode, hnode', first_append, first_append]
    rfl
  · rcases List.mem_cons.mp hb with rfl | hb
    · rw [hl.node, hl'.node, first_append, first_append]
      exact hfirst
    · have hend := (linked_append.mp (linked_append.mp hl).2.2).2
      have hend' := (linked_append.mp (linked_append.mp hl').2.2).2
      rcases List.mem_cons.mp hb with rfl | hb
      · rw [hend.1, hend'.1]
      · obtain ⟨xs, ys, rfl⟩ := List.append_of_mem hb
        have hnode : h b.1 = ⟨_, _, b.2⟩ := hend.2.node
        have hnode' : h' b.1 = ⟨_, _, b.2⟩ := hend'.2.node
        rw [hnode, hnode']

/-! Following a chain while a condition on the address holds. -/

variable {cond : α → Bool}

theorem Linked.whileLoop_next {step : α → α} (hstep : ∀ a, step a = (h a).next)
    {xs ys : List (α × τ)} {q : α} {u : τ} (hl : Linked h before (xs ++ (q, u) :: ys) after) (hxs : ∀ b ∈ xs, cond b.1 = true)
    (hq : cond q = false) {n : Nat} (hn : xs.length < n) :
    Loop.whileLoop cond step n (first q xs) = some q := by
  induction xs generalizing before n with
  | nil => exact Loop.whileLoop_of_false hq (by omega)
  | cons b bs ih =>
      rw [List.cons_append] at hl
      obtain ⟨hb, hbs⟩ := hl
      obtain ⟨n, rfl⟩ := Nat.exists_eq_succ_of_ne_zero (Nat.ne_zero_of_lt hn)
      rw [first, Loop.whileLoop_of_true (hxs b List.mem_cons_self), hstep, hb, first_append]
      refine ih hbs (fun c hc => hxs c (List.mem_cons_of_mem b hc)) ?_
      rw [List.length_cons] at hn
      omega

theorem Linked.whileLoop_prev {step : α → α} (hstep : ∀ a, step a = (h a).prev)
    {xs ys : List (α × τ)} {g : α} {t : τ} (hl : Linked h before (xs ++ (g, t) :: ys) after) (hys : ∀ b ∈ ys, cond b.1 = true)
    (hg : cond g = false) {n : Nat} (hn : ys.length < n) :
    Loop.whileLoop cond step n (last g ys) = some g := by
  induction ys using List.reverseRecOn generalizing after n with
  | nil => exact Loop.whileLoop_of_false hg (by omega)
  | append_singleton ys b ih =>
      obtain ⟨n, rfl⟩ := Nat.exists_eq_succ_of_ne_zero (Nat.ne_zero_of_lt hn)
      have hassoc : xs ++ (g, t) :: (ys ++ [b]) = (xs ++ (g, t) :: ys) ++ [b] := by
        rw [List.append_assoc, List.cons_append]
      rw [hassoc] at hl
      obtain ⟨hinit, hb, -⟩ := linked_append.mp hl
      have hprev : (h b.1).prev = last g ys := by
        rw [hb, last_append]
        rfl
      rw [last_append, last, last, Loop.whileLoop_of_true (hys b (by simp)), hstep, hprev]
      refine ih hinit (fun c hc => hys c (List.mem_append_left _ hc)) ?_
      rw [List.length_append, List.length_singleton] at hn
      omega

end

end Chain
