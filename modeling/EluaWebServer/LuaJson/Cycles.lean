import EluaWebServer.LuaJson.Graph

/-!
# Tables that reach themselves

`addToList` leaves `baseList` as it is, `NULL`, and so no table is ever found in the
list.  A call then returns exactly if no table that it gets to reaches itself, and without
such a table there is nothing to mark.
-/

namespace LuaJson.Graph

open LuaJson Relation

variable {n : Nat} {g : Tables n}

/-! ## Loops -/

section Loops

variable {f : Lists → Ref n → Option (Lists × List Piece)} {text : Ref n → List Piece}

/-- A call for a value appends its text and leaves the list empty. -/
def Writes (f : Lists → Ref n → Option (Lists × List Piece)) (text : Ref n → List Piece)
    (v : Ref n) : Prop :=
  ∀ s : Lists, s.baseList = none → ∃ s', f s v = some (s', text v) ∧ s'.baseList = none

/-- The texts after the first one, each after a comma. -/
def commas (texts : List (List Piece)) : List Piece :=
  texts.flatMap fun text => .char 0x2C :: text

theorem intercalate_cons (text : List Piece) (texts : List (List Piece)) :
    [Piece.char 0x2C].intercalate (text :: texts) = text ++ commas texts := by
  induction texts generalizing text with
  | nil => simp [commas]
  | cons text' texts ih =>
      rw [List.intercalate_cons_cons, ih]
      simp [commas]

/-- What a loop appends, as far as the first text has no comma. -/
def joinedFrom (first : Bool) (texts : List (List Piece)) : List Piece :=
  if first then [Piece.char 0x2C].intercalate texts else commas texts

theorem joinedFrom_cons (first : Bool) (text : List Piece) (texts : List (List Piece)) :
    joinedFrom first (text :: texts) = comma first ++ text ++ joinedFrom false texts := by
  cases first with
  | true =>
      rw [joinedFrom, if_pos rfl, intercalate_cons]
      rfl
  | false => rfl

theorem joinedFrom_nil (first : Bool) : joinedFrom first [] = [] := by
  cases first <;> rfl

theorem ipairsLoop_eq {vs : List (Ref n)} (h : ∀ v ∈ vs, Writes f text v) (first : Bool)
    {s : Lists} (hs : s.baseList = none) :
    ∃ s', ipairsLoop f first s vs = some (s', joinedFrom first (vs.map text)) ∧
      s'.baseList = none := by
  induction vs generalizing first s with
  | nil => exact ⟨s, by rw [ipairsLoop, List.map_nil, joinedFrom_nil], hs⟩
  | cons v vs ih =>
      rw [List.forall_mem_cons] at h
      obtain ⟨s₁, hv, hs₁⟩ := h.1 s hs
      obtain ⟨s₂, hvs, hs₂⟩ := ih h.2 false hs₁
      refine ⟨s₂, ?_, hs₂⟩
      rw [ipairsLoop, hv, List.map_cons, joinedFrom_cons]
      simp only [Option.bind_eq_bind, Option.bind_some, hvs, Option.pure_def]

theorem members_cons_of_pos {k : Key} {v : Ref n} (h : k.isString = true)
    (es : List (Key × Ref n)) : members ((k, v) :: es) = (k, v) :: members es :=
  List.filter_cons_of_pos h

theorem members_cons_of_neg {k : Key} {v : Ref n} (h : ¬k.isString = true)
    (es : List (Key × Ref n)) : members ((k, v) :: es) = members es :=
  List.filter_cons_of_neg h

/-- The texts of the entries of an object. -/
def memberText (text : Ref n → List Piece) (e : Key × Ref n) : List Piece :=
  .key e.1 :: .char 0x3A :: text e.2

theorem pairsLoop_eq {es : List (Key × Ref n)} (h : ∀ e ∈ members es, Writes f text e.2)
    (first : Bool) {s : Lists} (hs : s.baseList = none) :
    ∃ s', pairsLoop f first s es =
        some (s', joinedFrom first ((members es).map (memberText text))) ∧
      s'.baseList = none := by
  induction es generalizing first s with
  | nil => exact ⟨s, by rw [pairsLoop]; exact congrArg _ (congrArg _ (joinedFrom_nil first).symm), hs⟩
  | cons e es ih =>
      obtain ⟨k, v⟩ := e
      by_cases hk : k.isString = true
      · rw [members_cons_of_pos hk] at h ⊢
        rw [List.forall_mem_cons] at h
        obtain ⟨s₁, hv, hs₁⟩ := h.1 s hs
        obtain ⟨s₂, hes, hs₂⟩ := ih h.2 false hs₁
        refine ⟨s₂, ?_, hs₂⟩
        rw [pairsLoop, if_pos hk, List.map_cons, joinedFrom_cons]
        simp only [hv, Option.bind_eq_bind, Option.bind_some, hes, Option.pure_def, memberText]
      · rw [members_cons_of_neg hk] at h ⊢
        obtain ⟨s', hes, hs'⟩ := ih h first hs
        refine ⟨s', ?_, hs'⟩
        rw [pairsLoop, if_neg hk, hes]

end Loops

/-! ## Tables -/

section Tables

variable {f : Lists → Ref n → Option (Lists × List Piece)} {text : Ref n → List Piece}

theorem findInList_null (cells : Cells) (Match m : Nat) :
    findInList cells Match m none = some none := by
  cases m <;> rfl

/-- The new cell is lost. -/
theorem addToList_null (value m : Nat) (cells : Cells) :
    addToList value m none cells = some (cells ++ [some ⟨value, none⟩]) := by
  cases m <;> rfl

theorem removeLastFromList_null (m : Nat) (Last : Option Nat) (cells : Cells) :
    removeLastFromList m none Last cells = some cells := by
  cases m <;> rfl

/-- The entries of a table are written when those that are followed are. -/
theorem stringifyEntries_eq {es : List (Key × Ref n)} (h : ∀ v ∈ followed es, Writes f text v)
    {s : Lists} (hs : s.baseList = none) :
    ∃ s', stringifyEntries f es s = some (s', tableText (onValues text es)) ∧
      s'.baseList = none := by
  unfold stringifyEntries followed tableText at *
  rw [get_onValues]
  cases hget : get es (index 1) with
  | none =>
      rw [hget] at h
      have hmembers : ∀ e ∈ members es, Writes f text e.2 :=
        fun e he => h e.2 (List.mem_map_of_mem he)
      obtain ⟨s', hloop, hs'⟩ := pairsLoop_eq hmembers true hs
      refine ⟨s', ?_, hs'⟩
      dsimp only [Option.map_none]
      rw [hloop, members_onValues, List.map_map]
      rfl
  | some v =>
      rw [hget] at h
      obtain ⟨s', hloop, hs'⟩ := ipairsLoop_eq h true hs
      refine ⟨s', ?_, hs'⟩
      dsimp only [Option.map_some]
      rw [hloop, items_onValues]
      rfl

/-- With an empty list a table is never found. -/
theorem stringifyTable_null {s : Lists} (hs : s.baseList = none) (t : Fin n) :
    stringifyTable f g s t =
      (stringifyEntries f (g t) ⟨s.cells ++ [some ⟨t, none⟩], none⟩).bind fun r =>
        (removeLastFromList r.1.cells.length r.1.baseList none r.1.cells).map fun cells =>
          (⟨cells, r.1.baseList⟩, r.2) := by
  rw [stringifyTable, hs, findInList_null, addToList_null]
  simp only [Option.bind_eq_bind, Option.bind_some, if_true]
  cases stringifyEntries f (g t) ⟨s.cells ++ [some ⟨t, none⟩], none⟩ with
  | none => rfl
  | some r =>
      simp only [Option.bind_some]
      cases removeLastFromList r.1.cells.length r.1.baseList none r.1.cells <;> rfl

/-- **A table.**  Its entries are written, and the list is empty again. -/
theorem stringifyTable_eq {t : Fin n} (h : ∀ v ∈ followed (g t), Writes f text v) {s : Lists}
    (hs : s.baseList = none) :
    ∃ s', stringifyTable f g s t = some (s', tableText (onValues text (g t))) ∧
      s'.baseList = none := by
  obtain ⟨s', hentries, hs'⟩ := stringifyEntries_eq h
    (s := ⟨s.cells ++ [some ⟨t, none⟩], none⟩) rfl
  refine ⟨s', ?_, hs'⟩
  rw [stringifyTable_null hs, hentries, Option.bind_some, hs', removeLastFromList_null,
    Option.map_some, ← hs']

end Tables

/-! ## Without cycles -/

/-- **Without cycles.**  The tables that are being written are those on the way to the
value, so none of them is reached again, and there are at most `n`. -/
theorem stringify_eq {fuel : Nat} {anc : Finset (Fin n)} {v : Ref n}
    (hanc : ∀ t, v = .table t → ∀ a ∈ anc, TransGen (Follows g) a t) (hac : Acyclic g v)
    (hfuel : n ≤ fuel + anc.card) : Writes (stringify g fuel) (serial g anc) v := by
  have hnew : ∀ t, v = .table t → t ∉ anc :=
    fun t hv ht => hac t hv t .refl (hanc t hv t ht)
  induction fuel generalizing anc v with
  | zero =>
      cases v with
      | leaf v =>
          intro s hs
          exact ⟨s, by rw [stringify, serial], hs⟩
      | table t =>
          have hall : anc = Finset.univ := by
            apply Finset.eq_univ_of_card
            have hle := Finset.card_le_univ anc
            rw [Fintype.card_fin] at hle ⊢
            omega
          exact absurd (hall ▸ Finset.mem_univ t) (hnew t rfl)
  | succ fuel ih =>
      cases v with
      | leaf v =>
          intro s hs
          exact ⟨s, by rw [stringify, serial], hs⟩
      | table t =>
          have ht := hnew t rfl
          have hfollowed : ∀ v ∈ followed (g t),
              Writes (stringify g fuel) (serial g (insert t anc)) v := by
            intro v hv
            have hac' : Acyclic g v := by
              intro u hu w hw
              subst hu
              exact hac t rfl w (.head hv hw)
            have hanc' : ∀ u, v = .table u → ∀ a ∈ insert t anc, TransGen (Follows g) a u := by
              intro u hu a ha
              subst hu
              rcases Finset.mem_insert.mp ha with rfl | ha
              · exact .single hv
              · exact (hanc t rfl a ha).tail hv
            refine ih hanc' hac' ?_ fun u hu hmem => hac' u hu u .refl (hanc' u hu u hmem)
            rw [Finset.card_insert_of_notMem ht]
            omega
          intro s hs
          rw [serial, if_neg ht]
          exact stringifyTable_eq hfollowed hs

/-! ## With cycles -/

section Returns

variable {f : Lists → Ref n → Option (Lists × List Piece)}

/-- Calls leave the list empty. -/
def KeepsEmpty (f : Lists → Ref n → Option (Lists × List Piece)) : Prop :=
  ∀ s v s' text, s.baseList = none → f s v = some (s', text) → s'.baseList = none

/-- A call for a value returns. -/
def Returns (f : Lists → Ref n → Option (Lists × List Piece)) (v : Ref n) : Prop :=
  ∃ s r, s.baseList = none ∧ f s v = some r

theorem ipairsLoop_inv (hf : KeepsEmpty f) {first : Bool} {s s' : Lists} {vs : List (Ref n)}
    {text : List Piece} (hs : s.baseList = none)
    (h : ipairsLoop f first s vs = some (s', text)) :
    s'.baseList = none ∧ ∀ v ∈ vs, Returns f v := by
  induction vs generalizing first s text with
  | nil =>
      obtain ⟨rfl, -⟩ := Prod.mk.inj (Option.some.inj h)
      exact ⟨hs, nofun⟩
  | cons v vs ih =>
      simp only [ipairsLoop, Option.bind_eq_bind, Option.bind_eq_some_iff, Prod.exists] at h
      obtain ⟨s₁, text₁, hv, s₂, text₂, hvs, heq⟩ := h
      obtain ⟨rfl, -⟩ := Prod.mk.inj (Option.some.inj heq)
      obtain ⟨hs₂, hall⟩ := ih (hf s v s₁ text₁ hs hv) hvs
      rw [List.forall_mem_cons]
      exact ⟨hs₂, ⟨s, _, hs, hv⟩, hall⟩

theorem pairsLoop_inv (hf : KeepsEmpty f) {first : Bool} {s s' : Lists}
    {es : List (Key × Ref n)} {text : List Piece} (hs : s.baseList = none)
    (h : pairsLoop f first s es = some (s', text)) :
    s'.baseList = none ∧ ∀ e ∈ members es, Returns f e.2 := by
  induction es generalizing first s text with
  | nil =>
      obtain ⟨rfl, -⟩ := Prod.mk.inj (Option.some.inj h)
      exact ⟨hs, nofun⟩
  | cons e es ih =>
      obtain ⟨k, v⟩ := e
      by_cases hk : k.isString = true
      · rw [pairsLoop, if_pos hk] at h
        simp only [Option.bind_eq_bind, Option.bind_eq_some_iff, Prod.exists] at h
        obtain ⟨s₁, text₁, hv, s₂, text₂, hes, heq⟩ := h
        obtain ⟨rfl, -⟩ := Prod.mk.inj (Option.some.inj heq)
        obtain ⟨hs₂, hall⟩ := ih (hf s v s₁ text₁ hs hv) hes
        rw [members_cons_of_pos hk, List.forall_mem_cons]
        exact ⟨hs₂, ⟨s, _, hs, hv⟩, hall⟩
      · rw [pairsLoop, if_neg hk] at h
        rw [members_cons_of_neg hk]
        exact ih hs h

/-- When a table has been written, so have the values in it that are followed. -/
theorem stringifyTable_inv (hf : KeepsEmpty f) {s s' : Lists} {t : Fin n} {text : List Piece}
    (hs : s.baseList = none) (h : stringifyTable f g s t = some (s', text)) :
    s'.baseList = none ∧ ∀ v ∈ followed (g t), Returns f v := by
  rw [stringifyTable_null hs] at h
  simp only [Option.bind_eq_some_iff, Option.map_eq_some_iff] at h
  obtain ⟨⟨s₁, text₁⟩, hentries, cells, -, heq⟩ := h
  obtain ⟨rfl, -⟩ := Prod.mk.inj heq
  unfold stringifyEntries followed at *
  cases hget : get (g t) (index 1) with
  | none =>
      rw [hget] at hentries
      obtain ⟨⟨s₂, text₂⟩, hloop, heq⟩ := Option.map_eq_some_iff.mp hentries
      obtain ⟨rfl, -⟩ := Prod.mk.inj heq
      obtain ⟨hs₂, hall⟩ := pairsLoop_inv hf rfl hloop
      refine ⟨hs₂, fun v hv => ?_⟩
      obtain ⟨e, he, rfl⟩ := List.mem_map.mp hv
      exact hall e he
  | some v =>
      rw [hget] at hentries
      obtain ⟨⟨s₂, text₂⟩, hloop, heq⟩ := Option.map_eq_some_iff.mp hentries
      obtain ⟨rfl, -⟩ := Prod.mk.inj heq
      obtain ⟨hs₂, hall⟩ := ipairsLoop_inv hf rfl hloop
      exact ⟨hs₂, hall⟩

end Returns

theorem stringify_keepsEmpty (fuel : Nat) : KeepsEmpty (stringify g fuel) := by
  induction fuel with
  | zero =>
      intro s v s' text hs h
      cases v with
      | leaf v =>
          rw [stringify] at h
          obtain ⟨rfl, -⟩ := Prod.mk.inj (Option.some.inj h)
          exact hs
      | table t => cases h
  | succ fuel ih =>
      intro s v s' text hs h
      cases v with
      | leaf v =>
          rw [stringify] at h
          obtain ⟨rfl, -⟩ := Prod.mk.inj (Option.some.inj h)
          exact hs
      | table t => exact (stringifyTable_inv ih hs h).1

/-- The calls for the tables in a table are deeper. -/
theorem returns_of_follows {fuel : Nat} {t u : Fin n}
    (h : Returns (stringify g fuel) (.table t)) (hfollows : Follows g t u) :
    ∃ fuel' < fuel, Returns (stringify g fuel') (.table u) := by
  obtain ⟨s, ⟨s', text⟩, hs, hcall⟩ := h
  cases fuel with
  | zero => cases hcall
  | succ fuel =>
      have hall := (stringifyTable_inv (stringify_keepsEmpty fuel) hs hcall).2
      exact ⟨fuel, Nat.lt_succ_self fuel, hall _ hfollows⟩

theorem returns_of_transGen {fuel : Nat} {t u : Fin n}
    (h : Returns (stringify g fuel) (.table t)) (hpath : TransGen (Follows g) t u) :
    ∃ fuel' < fuel, Returns (stringify g fuel') (.table u) := by
  induction hpath with
  | single hfollows => exact returns_of_follows h hfollows
  | tail _ hfollows ih =>
      obtain ⟨fuel₁, hlt₁, hreturns⟩ := ih
      obtain ⟨fuel₂, hlt₂, hreturns⟩ := returns_of_follows hreturns hfollows
      exact ⟨fuel₂, Nat.lt_trans hlt₂ hlt₁, hreturns⟩

/-- **With a cycle.**  A call for a table on it never returns. -/
theorem not_returns_of_cycle {t : Fin n} (hcycle : TransGen (Follows g) t t) (fuel : Nat) :
    ¬Returns (stringify g fuel) (.table t) := by
  induction fuel using Nat.strong_induction_on with
  | _ fuel ih =>
      intro h
      obtain ⟨fuel', hlt, hreturns⟩ := returns_of_transGen h hcycle
      exact ih fuel' hlt hreturns

theorem acyclic_of_returns {fuel : Nat} {v : Ref n} (h : Returns (stringify g fuel) v) :
    Acyclic g v := by
  rintro t rfl u hpath hcycle
  rcases reflTransGen_iff_eq_or_transGen.mp hpath with rfl | hpath
  · exact not_returns_of_cycle hcycle fuel h
  · obtain ⟨fuel', -, hreturns⟩ := returns_of_transGen h hpath
    exact not_returns_of_cycle hcycle fuel' hreturns

/-- **Tables in tables.**  A call returns, with references to the tables on the way
marked, everything else written in full and an empty list, exactly if no table that it gets to
reaches itself. -/
theorem serialises_iff (g : Tables n) (cells : Cells) (v : Ref n) :
    Serialises g cells v ↔ Acyclic g v := by
  constructor
  · rintro ⟨fuel, s, hcall, -⟩
    exact acyclic_of_returns ⟨⟨cells, none⟩, _, rfl, hcall⟩
  · intro hac
    have hwrites : Writes (stringify g n) (serial g ∅) v :=
      stringify_eq (fun t _ a ha => absurd ha (Finset.notMem_empty a)) hac (Nat.le_add_right n _)
    obtain ⟨s, hcall, hs⟩ := hwrites ⟨cells, none⟩ rfl
    exact ⟨n, s, hcall, hs⟩

/-- `t = {}; t.a = t`. -/
def selfTable : Tables 1 := fun _ => [(.string [0x61], .table 0)]

/-- It is written for ever. -/
theorem not_serialises_self : ¬Serialises selfTable [] (.table 0) := by
  have hfollows : Follows selfTable 0 0 := List.mem_singleton.mpr rfl
  rintro ⟨fuel, s, hcall, -⟩
  exact not_returns_of_cycle (.single hfollows) fuel ⟨⟨[], none⟩, _, rfl, hcall⟩

end LuaJson.Graph
