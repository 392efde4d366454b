import EluaWebServer.LuaTable.Contents

/-!
# Traversals

`luaH_next` goes through the array part and then through the nodes, from the
place of the key that it is given.  The elements of a table may be assigned to
during a traversal, also nil; then every key keeps its place.
-/

namespace LuaTable

variable {α β : Type} [Key α] [DecidableEq α]

/-- `findindex`; the index before the first one is -1. -/
def findindex (t : Table α β) : Option α → Except Error Int
  | none => .ok (-1)
  | some k =>
      match arrayIndex t k with
      | some i => .ok i
      | none =>
          match findNode t k with
          | some i => .ok (i + t.sizearray)
          | none => .error .invalidKey

def luaHNext (t : Table α β) (key : Option α) : Except Error (Option (α × β)) := do
  let i := ((← findindex t key) + 1).toNat
  match (List.range' i (t.sizearray - i)).find? fun i => (t.array i).isSome with
  | some i => .ok ((t.array i).map fun v => (Key.ofInt (i + 1), v))
  | none =>
      let i := i - t.sizearray
      match (List.range' i (t.sizenode - i)).find? fun i => (t.node i).val.isSome with
      | some i =>
          .ok ((t.node i).key.bind fun k => (t.node i).val.map fun v => (k, v))
      | none => .ok none

/-! ## The places of a traversal -/

/-- The key at a place; the places of the nodes come after those of the array part. -/
def keyAt (t : Table α β) (p : Nat) : Option α :=
  if p < t.sizearray then some (Key.ofInt (p + 1)) else (t.node (p - t.sizearray)).key

def valAt (t : Table α β) (p : Nat) : Option β :=
  if p < t.sizearray then t.array p else (t.node (p - t.sizearray)).val

def places (t : Table α β) : Nat := t.sizearray + t.sizenode

section

variable {t t' : Table α β} {k : α} {p : Nat}

omit [DecidableEq α] in
theorem Ok.arrayIndex_ofInt (hok : Ok t) (hp : p < t.sizearray) :
    arrayIndex t (Key.ofInt (p + 1) : α) = some p := by
  have hsize := hok.sizearray_le
  have hpow : MAXASIZE < 2 ^ 31 := by decide
  exact arrayIndex_eq_some_iff.mpr ⟨Key.index_ofInt _ (by omega) (by omega), hp⟩

/-- A key is found at its place. -/
theorem Ok.findindex_eq (hok : Ok t) (hk : keyAt t p = some k) :
    findindex t (some k) = .ok p := by
  unfold keyAt at hk
  unfold findindex
  split at hk
  next hp =>
    obtain rfl := Option.some.inj hk
    dsimp only
    rw [hok.arrayIndex_ofInt hp]
  next hp =>
    dsimp only
    rw [hok.outside hk, hok.findNode_eq hk]
    exact congrArg Except.ok (by omega)

omit [DecidableEq α] in
/-- Two places have different keys. -/
theorem Ok.keyAt_inj (hok : Ok t) {q : Nat} (hp : keyAt t p = some k) (hq : keyAt t q = some k) :
    p = q := by
  unfold keyAt at hp hq
  split at hp <;> split at hq
  next hps hqs =>
    have h := hok.arrayIndex_ofInt hps
    rw [Option.some.inj hp, ← Option.some.inj hq, hok.arrayIndex_ofInt hqs] at h
    exact (Option.some.inj h).symm
  next hps hqs =>
    have h := hok.arrayIndex_ofInt hps
    rw [Option.some.inj hp, hok.outside hq] at h
    cases h
  next hps hqs =>
    have h := hok.arrayIndex_ofInt hqs
    rw [Option.some.inj hq, hok.outside hp] at h
    cases h
  next hps hqs =>
    have h := hok.sound.distinct hp hq
    omega

omit [DecidableEq α] in
theorem Ok.keyAt_lt (hok : Ok t) (hk : keyAt t p = some k) : p < places t := by
  unfold keyAt at hk
  unfold places
  split at hk
  next hp => omega
  next hp =>
    have h := hok.sound.inside hk
    omega

omit [DecidableEq α] in
/-- What a key holds is at its place. -/
theorem Ok.entry_iff_place (hok : Ok t) {v : β} :
    Entry t k v ↔ ∃ p, keyAt t p = some k ∧ valAt t p = some v := by
  unfold keyAt valAt
  constructor
  · rintro (⟨i, hi, hv⟩ | ⟨i, hi, hv⟩)
    · obtain ⟨hindex, hlt⟩ := arrayIndex_eq_some_iff.mp hi
      refine ⟨i, ?_, ?_⟩
      · rw [if_pos hlt, Key.ofInt_index hindex]
      · rw [if_pos hlt]
        exact hv
    · refine ⟨i + t.sizearray, ?_, ?_⟩
      · rw [if_neg (by omega), Nat.add_sub_cancel]
        exact hi
      · rw [if_neg (by omega), Nat.add_sub_cancel]
        exact hv
  · rintro ⟨p, hk, hv⟩
    split at hk
    next hp =>
      rw [if_pos hp] at hv
      obtain rfl := Option.some.inj hk
      exact Or.inl ⟨p, hok.arrayIndex_ofInt hp, hv⟩
    next hp =>
      rw [if_neg hp] at hv
      exact Or.inr ⟨_, hk, hv⟩

/-! ## One step -/

omit [Key α] [DecidableEq α] in
theorem find?_range'_eq_some {f : Nat → Bool} {a n i : Nat}
    (h : (List.range' a n).find? f = some i) :
    a ≤ i ∧ i < a + n ∧ f i = true ∧ ∀ j, a ≤ j → j < i → f j = false := by
  induction n generalizing a with
  | zero => cases h
  | succ n ih =>
      rw [List.range'_succ, List.find?_cons] at h
      split at h
      next hf =>
        obtain rfl := Option.some.inj h
        exact ⟨le_rfl, by omega, hf, fun j hle hlt => by omega⟩
      next hf =>
        obtain ⟨hle, hlt, hi, hbefore⟩ := ih h
        refine ⟨by omega, by omega, hi, fun j haj hji => ?_⟩
        rcases Nat.lt_or_ge a j with hlt' | hge
        · exact hbefore j hlt' hji
        · obtain rfl : j = a := by omega
          simpa using hf

omit [Key α] [DecidableEq α] in
theorem find?_range'_eq_none {f : Nat → Bool} {a n : Nat}
    (h : (List.range' a n).find? f = none) {j : Nat} (haj : a ≤ j) (hj : j < a + n) :
    f j = false := by
  have hall := List.find?_eq_none.mp h j (List.mem_range'_1.mpr ⟨haj, hj⟩)
  simpa using hall

/-- The places from `i` on up to `n` have no value. -/
def Vacant (t : Table α β) (i n : Nat) : Prop := ∀ p, i ≤ p → p < n → valAt t p = none

/-- **`luaH_next`** goes to the next place with a value. -/
theorem Ok.luaHNext_spec (hok : Ok t) {key : Option α} {i : Nat}
    (hstart : findindex t key = .ok ((i : Int) - 1)) :
    (luaHNext t key = .ok none ∧ Vacant t i (places t)) ∨
      ∃ p k v, luaHNext t key = .ok (some (k, v)) ∧ i ≤ p ∧ Vacant t i p ∧
        keyAt t p = some k ∧ valAt t p = some v := by
  unfold luaHNext
  rw [hstart]
  simp only [bind, Except.bind, show ((i : Int) - 1 + 1).toNat = i by omega]
  cases harray : (List.range' i (t.sizearray - i)).find? fun j => (t.array j).isSome with
  | some p =>
      right
      obtain ⟨hle, hlt, hval, hbefore⟩ := find?_range'_eq_some harray
      have hp : p < t.sizearray := by omega
      obtain ⟨v, hv⟩ := Option.isSome_iff_exists.mp hval
      refine ⟨p, Key.ofInt (p + 1), v, ?_, hle, fun q hiq hqp => ?_, if_pos hp, ?_⟩
      · dsimp only
        rw [hv]
        rfl
      · rw [valAt, if_pos (by omega)]
        simpa using hbefore q hiq hqp
      · rw [valAt, if_pos hp]
        exact hv
  | none =>
      have hno : Vacant t i t.sizearray := fun p hip hp => by
        rw [valAt, if_pos hp]
        simpa using find?_range'_eq_none harray hip (by omega)
      dsimp only
      cases hnode : (List.range' (i - t.sizearray) (t.sizenode - (i - t.sizearray))).find?
          fun j => (t.node j).val.isSome with
      | some p =>
          right
          obtain ⟨hle, hlt, hval, hbefore⟩ := find?_range'_eq_some hnode
          obtain ⟨v, hv⟩ := Option.isSome_iff_exists.mp hval
          obtain ⟨k, hk⟩ := hok.sound.key_ne_none hval
          refine ⟨p + t.sizearray, k, v, ?_, by omega, fun q hiq hqp => ?_, ?_, ?_⟩
          · dsimp only
            rw [hk, hv]
            rfl
          · rcases Nat.lt_or_ge q t.sizearray with hlt' | hge
            · exact hno q hiq hlt'
            · rw [valAt, if_neg (by omega)]
              simpa using hbefore (q - t.sizearray) (by omega) (by omega)
          · rw [keyAt, if_neg (by omega), Nat.add_sub_cancel]
            exact hk
          · rw [valAt, if_neg (by omega), Nat.add_sub_cancel]
            exact hv
      | none =>
          refine Or.inl ⟨rfl, fun q hiq hq => ?_⟩
          rcases Nat.lt_or_ge q t.sizearray with hlt' | hge
          · exact hno q hiq hlt'
          · unfold places at hq
            rw [valAt, if_neg (by omega)]
            simpa using find?_range'_eq_none hnode (j := q - t.sizearray) (by omega) (by omega)

/-! ## Assignments during a traversal -/

/-- Elements have been assigned to, and none has come in. -/
inductive Reassigned : Table α β → Table α β → Prop where
  | refl (t : Table α β) : Reassigned t t
  | assign {t t' : Table α β} {k : α} {s : Slot} (v : Option β) (hs : luaHGet t (some k) = some s)
      (h : Reassigned (t.assign s v) t') : Reassigned t t'

/-- The keys are at the same places. -/
structure SameKeys (t t' : Table α β) : Prop where
  ok : Ok t'
  places : places t' = places t
  keyAt : ∀ p, keyAt t' p = keyAt t p

theorem Ok.assign_sameKeys (hok : Ok t) {s : Slot} (hs : luaHGet t (some k) = some s)
    (v : Option β) : SameKeys t (t.assign s v) := by
  refine ⟨hok.assign hs v, ?_, fun p => ?_⟩
  · cases s <;> rfl
  · cases s with
    | array i => rfl
    | node i =>
        unfold LuaTable.keyAt
        dsimp only [Table.assign, Table.setNode]
        by_cases hi : p - t.sizearray = i
        · rw [hi, Function.update_self]
          rfl
        · rw [Function.update_of_ne hi]
          rfl

theorem Reassigned.sameKeys (h : Reassigned t t') (hok : Ok t) : SameKeys t t' := by
  induction h with
  | refl t => exact ⟨hok, rfl, fun _ => rfl⟩
  | assign v hs _ ih =>
      have hone := hok.assign_sameKeys hs v
      have hrest := ih hone.ok
      exact ⟨hrest.ok, hrest.places.trans hone.places,
        fun p => (hrest.keyAt p).trans (hone.keyAt p)⟩

/-! ## Whole traversals -/

/-- The rounds of a traversal, each with its table and what `luaH_next` has given for it; `act` is
what is done to the table after each of them, and may be something else in each. -/
def traverse (act : Nat → Table α β → Table α β) :
    Nat → Table α β → Option α → Except Error (List (Table α β × Option (α × β)))
  | 0, _, _ => .error .fault
  | n + 1, t, key => do
      match ← luaHNext t key with
      | none => .ok [(t, none)]
      | some (k, v) =>
          let rounds ← traverse act n (act n t) (some k)
          .ok ((t, some (k, v)) :: rounds)

/-- The keys that have been visited. -/
def visited (rounds : List (Table α β × Option (α × β))) : List α :=
  rounds.filterMap fun r => r.2.map Prod.fst

/-- What is known of the rounds from place `i` on. -/
structure Traversed (t : Table α β) (i : Nat) (rounds : List (Table α β × Option (α × β))) :
    Prop where
  first : ∃ r, (t, r) ∈ rounds
  nodup : (visited rounds).Nodup
  later : ∀ k ∈ visited rounds, ∃ p, i ≤ p ∧ keyAt t p = some k
  values : ∀ t' k v, (t', some (k, v)) ∈ rounds → content t' k = some v
  all : ∀ p k, i ≤ p → keyAt t p = some k → (∀ r ∈ rounds, content r.1 k ≠ none) →
    k ∈ visited rounds

theorem Ok.content_of_place (hok : Ok t) {v : β} (hk : keyAt t p = some k)
    (hv : valAt t p = some v) : content t k = some v :=
  hok.lookup_eq_some_iff.mpr (hok.entry_iff_place.mpr ⟨p, hk, hv⟩)

theorem Ok.content_of_vacant (hok : Ok t) (hk : keyAt t p = some k) (hv : valAt t p = none) :
    content t k = none := by
  refine Option.eq_none_iff_forall_ne_some.mpr fun v hsome => ?_
  obtain ⟨q, hq, hvq⟩ := hok.entry_iff_place.mp (hok.lookup_eq_some_iff.mp hsome)
  rw [hok.keyAt_inj hq hk, hv] at hvq
  cases hvq

/-- A traversal from place `i` on. -/
theorem Ok.traverse_from (hok : Ok t) {act : Nat → Table α β → Table α β}
    (hact : ∀ n t, Reassigned t (act n t)) {n i : Nat} {key : Option α}
    (hstart : findindex t key = .ok ((i : Int) - 1)) (hi : i ≤ places t) (hn : places t < n + i) :
    ∃ rounds, traverse act n t key = .ok rounds ∧ Traversed t i rounds := by
  induction n generalizing t i key with
  | zero => omega
  | succ n ih =>
      rw [traverse]
      rcases hok.luaHNext_spec hstart with ⟨hnext, hvacant⟩ | ⟨p, k, v, hnext, hip, hvacant, hk, hv⟩
      · rw [hnext]
        refine ⟨_, rfl, ⟨none, List.mem_cons_self⟩, List.nodup_nil, fun k hk => ?_, fun t' k v h => ?_, ?_⟩
        · cases hk
        · cases List.mem_singleton.mp h
        · intro p k hip hk hall
          exact absurd (hok.content_of_vacant hk (hvacant p hip (hok.keyAt_lt hk)))
            (hall (t, none) List.mem_cons_self)
      · rw [hnext]
        have hsame := (hact n t).sameKeys hok
        have hp := hok.keyAt_lt hk
        have hplaces := hsame.places
        have hstart' : findindex (act n t) (some k) = .ok (((p + 1 : Nat) : Int) - 1) := by
          rw [hsame.ok.findindex_eq ((hsame.keyAt p).trans hk)]
          exact congrArg Except.ok (by omega)
        obtain ⟨rounds, hrounds, ht⟩ := ih hsame.ok hstart' (by omega) (by omega)
        have hvisited : visited ((t, some (k, v)) :: rounds) = k :: visited rounds := rfl
        refine ⟨(t, some (k, v)) :: rounds, ?_, ⟨_, List.mem_cons_self⟩, ?_, ?_, ?_, ?_⟩
        · change (traverse act n (act n t) (some k)).bind _ = _
          rw [hrounds]
          rfl
        · rw [hvisited]
          refine List.nodup_cons.mpr ⟨fun hmem => ?_, ht.nodup⟩
          obtain ⟨q, hpq, hq⟩ := ht.later k hmem
          rw [hsame.keyAt] at hq
          have := hok.keyAt_inj hq hk
          omega
        · intro k' hk'
          rw [hvisited] at hk'
          rcases List.mem_cons.mp hk' with rfl | hmem
          · exact ⟨p, hip, hk⟩
          · obtain ⟨q, hpq, hq⟩ := ht.later k' hmem
            exact ⟨q, by omega, (hsame.keyAt q) ▸ hq⟩
        · intro t' k' v' hmem
          rcases List.mem_cons.mp hmem with heq | hmem
          · obtain ⟨rfl, hkv⟩ := Prod.mk.inj heq
            obtain ⟨rfl, rfl⟩ := Prod.mk.inj (Option.some.inj hkv)
            exact hok.content_of_place hk hv
          · exact ht.values t' k' v' hmem
        · intro q k' hiq hq hall
          rw [hvisited]
          rcases Nat.lt_trichotomy q p with hlt | heq | hgt
          · exact absurd (hok.content_of_vacant hq (hvacant q hiq hlt))
              (hall (t, some (k, v)) List.mem_cons_self)
          · rw [heq, hk] at hq
            obtain rfl := Option.some.inj hq
            exact List.mem_cons_self
          · refine List.mem_cons_of_mem _ (ht.all q k' hgt ((hsame.keyAt q).trans hq) ?_)
            exact fun r hr => hall r (List.mem_cons_of_mem _ hr)

end

/-- **A traversal visits every element once**, whatever is assigned to the elements on the way: an
element that is never nil is visited, no key is visited twice, and each visit shows what the key
holds then.  The traversal ends. -/
theorem traversal {narray nhash : Nat} {t₀ t : Table α β} (hnew : luaHNew narray nhash = .ok t₀)
    (hsize : narray ≤ MAXASIZE) {ops : List (Op α β)} (hfits : ∀ op ∈ ops, op.Fits)
    (hrun : ops.foldlM perform t₀ = .ok t) {act : Nat → Table α β → Table α β}
    (hact : ∀ n t, Reassigned t (act n t)) :
    ∃ rounds, traverse act (t.sizearray + t.sizenode + 1) t none = .ok rounds ∧
      (visited rounds).Nodup ∧
      (∀ t' k v, (t', some (k, v)) ∈ rounds → content t' k = some v) ∧
      ∀ k, (∀ r ∈ rounds, content r.1 k ≠ none) → k ∈ visited rounds := by
  have hok := (luaHNew_ok hnew hsize).1.of_run hfits hrun
  have hstart : findindex t none = .ok (((0 : Nat) : Int) - 1) := rfl
  obtain ⟨rounds, hrounds, ht⟩ :=
    hok.traverse_from hact (n := places t + 1) hstart (Nat.zero_le _) (by omega)
  refine ⟨rounds, hrounds, ht.nodup, ht.values, fun k hall => ?_⟩
  obtain ⟨r, hr⟩ := ht.first
  obtain ⟨v, hv⟩ := Option.ne_none_iff_exists'.mp (hall (t, r) hr)
  obtain ⟨p, hp, -⟩ := hok.entry_iff_place.mp (hok.lookup_eq_some_iff.mp hv)
  exact ht.all p k (Nat.zero_le p) hp hall

/-- Each round clears the element of 2. -/
def clearSecond (_ : Nat) (t : Table TKey Nat) : Table TKey Nat :=
  match luaHGet t (some (.number 2)) with
  | some s => t.assign s none
  | none => t

theorem reassigned_clearSecond (n : Nat) (t : Table TKey Nat) : Reassigned t (clearSecond n t) := by
  unfold clearSecond
  cases hs : luaHGet t (some (.number 2)) with
  | some s => exact .assign none hs (.refl _)
  | none => exact .refl t

theorem traversal_sample :
    ∃ t₀ t : Table TKey Nat, luaHNew 2 0 = .ok t₀ ∧
      [Op.setnum 1 (some 5), Op.setnum 2 (some 6)].foldlM perform t₀ = .ok t ∧
      ∃ rounds, traverse clearSecond (t.sizearray + t.sizenode + 1) t none = .ok rounds ∧
        (visited rounds).Nodup ∧
        (∀ t' k v, (t', some (k, v)) ∈ rounds → content t' k = some v) ∧
        ∀ k, (∀ r ∈ rounds, content r.1 k ≠ none) → k ∈ visited rounds := by
  obtain ⟨t₀, ht₀⟩ : ∃ t : Table TKey Nat, luaHNew 2 0 = .ok t := ⟨_, rfl⟩
  have hrun : ∃ t, [Op.setnum 1 (some 5), Op.setnum 2 (some 6)].foldlM perform t₀ = .ok t := by
    obtain rfl := Except.ok.inj ht₀
    exact ⟨_, rfl⟩
  obtain ⟨t, ht⟩ := hrun
  refine ⟨t₀, t, ht₀, ht, traversal ht₀ (by decide) ?_ ht reassigned_clearSecond⟩
  simp [Op.Fits]

end LuaTable
