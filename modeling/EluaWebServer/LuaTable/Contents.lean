import EluaWebServer.LuaTable.Keys
import EluaWebServer.LuaTable.Set

/-!
# What a table holds

A script sees a table as a map from keys to values.  Whatever is assigned, and
whenever the table is resized on the way, the map is the one that the
assignments alone say.
-/

namespace LuaTable

variable {α β : Type} [Key α] [DecidableEq α]

/-! ## A new table -/

section

omit [DecidableEq α] in
/-- A table without elements. -/
theorem ok_of_empty {t : Table α β} (hnode : ∀ i, t.node i = Node.empty)
    (hsize : t.sizearray ≤ MAXASIZE) (hlsize : t.lsizenode ≤ MAXBITS)
    (hfree : t.lastfree = if t.dummy = true then 0 else t.sizenode)
    (hdummy : t.dummy = true → t.lsizenode = 0) : Ok t := by
  have hkey : ∀ {i k}, (t.node i).key ≠ some k := fun {i k} h => by
    rw [hnode i] at h
    cases h
  have hnext : ∀ i, (t.node i).next = none := fun i => by
    rw [hnode i]
    rfl
  refine ⟨⟨⟨?_, fun _ => 0, ?_⟩, ?_, fun _ => hnode _, ?_, ?_, ?_⟩, ?_, ?_, ?_, ?_, ?_, hsize, hlsize,
    fun h => ⟨?_, hdummy h, hnode⟩⟩
  · intro a b c h
    rw [hnext] at h
    cases h
  · intro a b h
    rw [hnext] at h
    cases h
  · exact fun h => absurd h hkey
  · intro i j h
    rw [hnext] at h
    cases h
  · exact fun h => absurd h hkey
  · exact fun h => absurd h hkey
  · exact fun h => absurd h hkey
  · intro h i hle hlt
    rw [hfree, h, if_neg Bool.false_ne_true] at hle
    omega
  · rw [hfree]
    split <;> omega
  · exact fun h => absurd h hkey
  · exact fun h => absurd h hkey
  · rw [hfree, if_pos h]

omit [DecidableEq α] in
/-- A new table is in order and holds nothing. -/
theorem luaHNew_ok {narray nhash : Nat} {t : Table α β} (h : luaHNew narray nhash = .ok t)
    (hsize : narray ≤ MAXASIZE) : Ok t ∧ ∀ k v, ¬Entry t k v := by
  have hentry : ∀ {t : Table α β}, (∀ i, t.node i = Node.empty) → (∀ i, t.array i = none) →
      ∀ k v, ¬Entry t k v := by
    rintro t hnode harray k v (⟨i, -, hv⟩ | ⟨i, hk, -⟩)
    · rw [harray] at hv
      cases hv
    · rw [hnode] at hk
      cases hk
  have harray : ∀ i, (if i < 0 ∧ i < narray then (none : Option β) else none) = none := fun i =>
    ite_self _
  unfold luaHNew resizenodevector at h
  dsimp only [setarrayvector] at h
  split at h
  next =>
    obtain rfl := Except.ok.inj h
    refine ⟨ok_of_empty (fun _ => rfl) hsize (Nat.zero_le _) rfl fun _ => rfl, ?_⟩
    exact hentry (fun _ => rfl) harray
  next =>
    split at h
    next => cases h
    next hlsize =>
      obtain rfl := Except.ok.inj h
      have hnode : ∀ i, (if i < 0 ∧ i < 2 ^ ceillog2 nhash then (Node.empty : Node α β)
          else Node.empty) = Node.empty := fun i => ite_self _
      refine ⟨ok_of_empty hnode hsize (Nat.le_of_not_lt hlsize) rfl
        (fun h => nomatch h), ?_⟩
      exact hentry hnode harray

end

/-! ## The map -/

/-- The map that a script sees. -/
def content (t : Table α β) (k : α) : Option β := lookup t (some k)

section

variable {t t' : Table α β} {k : α}

theorem Ok.content_eq (hok : Ok t) (hok' : Ok t')
    (hentries : ∀ k v, Entry t' k v ↔ Entry t k v) : content t' = content t := by
  funext k
  refine Option.ext fun v => ?_
  rw [content, content, hok'.lookup_eq_some_iff, hok.lookup_eq_some_iff, hentries]

/-- An assignment through the place of a key updates the map. -/
theorem Placed.assign {s : Slot} (hp : Placed t t' k s) (hok : Ok t) (v : Option β) :
    Ok (t'.assign s v) ∧ content (t'.assign s v) = Function.update (content t) k v := by
  have hassign := hp.ok.assign hp.get v
  refine ⟨hassign, funext fun k' => Option.ext fun v' => ?_⟩
  rw [content, hassign.lookup_eq_some_iff, hp.ok.assign_entry hp.get, hp.entries]
  by_cases hkk : k' = k
  · rw [if_pos hkk, hkk, Function.update_self]
  · rw [if_neg hkk, Function.update_of_ne hkk, content, hok.lookup_eq_some_iff]

/-- The keys that hold something are as many as the elements. -/
theorem Ok.exists_keys (hok : Ok t) :
    ∃ S : Finset α, S.card = count t ∧ ∀ k ∈ S, content t k ≠ none := by
  have hsize := hok.sizearray_le
  have hpow : MAXASIZE < 2 ^ 31 := by decide
  have hindex : ∀ j, j < t.sizearray → Key.index (Key.ofInt (j + 1) : α) = some (j + 1 : Int) :=
    fun j hj => Key.index_ofInt _ (by omega) (by omega)
  have hplace : ∀ j, j < t.sizearray → arrayIndex t (Key.ofInt (j + 1) : α) = some j := fun j hj =>
    arrayIndex_eq_some_iff.mpr ⟨hindex j hj, hj⟩
  have hnodes : ∀ i ∈ (Finset.range t.sizenode).filter fun i => (t.node i).val.isSome = true,
      ∃ k, (t.node i).key = some k := fun i hi =>
    hok.sound.key_ne_none (Finset.mem_filter.mp hi).2
  have hentry : ∀ k, (∃ v, Entry t k v) → content t k ≠ none := by
    rintro k ⟨v, hv⟩ hnone
    rw [content, hok.lookup_eq_some_iff.mpr hv] at hnone
    cases hnone
  by_cases hα : Nonempty α
  · choose! f hf using hnodes
    refine ⟨(((Finset.range t.sizearray).filter fun i => (t.array i).isSome = true).image
      fun j : Nat => (Key.ofInt (j + 1) : α)) ∪
        (((Finset.range t.sizenode).filter fun i => (t.node i).val.isSome = true).image f), ?_, ?_⟩
    · rw [Finset.card_union_of_disjoint, Finset.card_image_of_injOn, Finset.card_image_of_injOn]
      · rfl
      · intro i hi i' hi' heq
        exact hok.sound.distinct (hf i hi) (heq ▸ hf i' hi')
      · intro j hj j' hj' heq
        have hlt := Finset.mem_range.mp (Finset.mem_filter.mp hj).1
        have hlt' := Finset.mem_range.mp (Finset.mem_filter.mp hj').1
        have h := hplace j hlt
        rw [show (Key.ofInt (j + 1) : α) = Key.ofInt (j' + 1) from heq, hplace j' hlt'] at h
        exact (Option.some.inj h).symm
      · rw [Finset.disjoint_left]
        intro k hk hk'
        obtain ⟨j, hj, rfl⟩ := Finset.mem_image.mp hk
        obtain ⟨i, hi, heq⟩ := Finset.mem_image.mp hk'
        have hout := hok.outside (hf i hi)
        rw [heq, hplace j (Finset.mem_range.mp (Finset.mem_filter.mp hj).1)] at hout
        cases hout
    · intro k hk
      refine hentry k ?_
      rcases Finset.mem_union.mp hk with hk | hk
      · obtain ⟨j, hj, rfl⟩ := Finset.mem_image.mp hk
        obtain ⟨hlt, hsome⟩ := Finset.mem_filter.mp hj
        obtain ⟨v, hv⟩ := Option.isSome_iff_exists.mp hsome
        exact ⟨v, Or.inl ⟨j, hplace j (Finset.mem_range.mp hlt), hv⟩⟩
      · obtain ⟨i, hi, rfl⟩ := Finset.mem_image.mp hk
        obtain ⟨v, hv⟩ := Option.isSome_iff_exists.mp (Finset.mem_filter.mp hi).2
        exact ⟨v, Or.inr ⟨i, hf i hi, hv⟩⟩
  · have hno : ∀ k : α, False := fun k => hα ⟨k⟩
    refine ⟨∅, ?_, fun k _ => (hno k).elim⟩
    have harray : arrayUse t.array t.sizearray = 0 := by
      refine Finset.card_eq_zero.mpr (Finset.filter_eq_empty_iff.mpr fun j _ _ => ?_)
      exact hno (Key.ofInt 0)
    have hhash : hashUse t.node t.sizenode = 0 := by
      refine Finset.card_eq_zero.mpr (Finset.filter_eq_empty_iff.mpr fun i _ h => ?_)
      obtain ⟨k, -⟩ := hok.sound.key_ne_none h
      exact hno k
    rw [count, harray, hhash]
    rfl

end

/-! ## Runs -/

/-- What is done to a table. -/
inductive Op (α β : Type) where
  /-- `t[key] = v` -/
  | set (key : Option α) (v : Option β)
  /-- `lua_rawseti`, and an element of `OP_SETLIST` -/
  | setnum (key : Int32) (v : Option β)
  /-- `OP_SETLIST` makes room for its elements. -/
  | presize (last : Nat)

def perform (t : Table α β) : Op α β → Except Error (Table α β)
  | .set key v => do
      let (t, s) ← luaHSet (newkey 2) t key
      .ok (t.assign s v)
  | .setnum key v => do
      let (t, s) ← luaHSetnum (newkey 2) t key.toInt
      .ok (t.assign s v)
  | .presize last =>
      if t.sizearray < last then luaHResizearray (newkey 2) t last else .ok t

/-- What is done to the map. -/
def update (m : α → Option β) : Op α β → Except Error (α → Option β)
  | .set none _ => .error .indexNil
  | .set (some k) v => if Key.isNaN k then .error .indexNaN else .ok (Function.update m k v)
  | .setnum key v => .ok (Function.update m (Key.ofInt key.toInt) v)
  | .presize _ => .ok m

/-- The array part is made no larger than it can be. -/
def Op.Fits : Op α β → Prop
  | .presize last => last ≤ MAXASIZE
  | _ => True

/-- The outcome of a run from `m` is the one that the map has, or the table is full on the way. -/
def Agrees (ops : List (Op α β)) (m : α → Option β) : Except Error (Table α β) → Prop
  | .ok t => ops.foldlM update m = .ok (content t)
  | .error e => ops.foldlM update m = .error e ∨
      (e = .overflow ∧ ∃ done m', ∃ S : Finset α, done <+: ops ∧ done.foldlM update m = .ok m' ∧
        MAXASIZE ≤ S.card ∧ ∀ k ∈ S, m' k ≠ none)

section

variable {t : Table α β}

theorem Ok.set (hok : Ok t) {k : α} (hNaN : Key.isNaN k = false) (v : Option β) :
    (∃ t', perform t (.set (some k) v) = .ok t' ∧ Ok t' ∧
      content t' = Function.update (content t) k v) ∨
        (perform t (.set (some k) v) = .error .overflow ∧ MAXASIZE ≤ count t) := by
  rcases hok.luaHSet hNaN 0 with ⟨t', s, ht', hp⟩ | ⟨herr, hfull⟩
  · obtain ⟨hok', hcontent⟩ := hp.assign hok v
    refine Or.inl ⟨t'.assign s v, ?_, hok', hcontent⟩
    rw [perform, ht']
    rfl
  · refine Or.inr ⟨?_, hfull⟩
    rw [perform, herr]
    rfl

/-- **One operation** does to the map what it says, unless the table is full. -/
theorem Ok.perform (hok : Ok t) {op : Op α β} (hfits : op.Fits) :
    (∃ t', perform t op = .ok t' ∧ Ok t' ∧ update (content t) op = .ok (content t')) ∨
      (∃ e, LuaTable.perform t op = .error e ∧ update (content t) op = .error e) ∨
        (LuaTable.perform t op = .error .overflow ∧ MAXASIZE ≤ count t) := by
  cases op with
  | set key v =>
      cases key with
      | none =>
          refine Or.inr (Or.inl ⟨.indexNil, ?_, rfl⟩)
          rw [LuaTable.perform, luaHSet_nil]
          rfl
      | some k =>
          cases hNaN : Key.isNaN k with
          | true =>
              refine Or.inr (Or.inl ⟨.indexNaN, ?_, ?_⟩)
              · rw [LuaTable.perform, luaHSet_NaN hNaN]
                rfl
              · rw [update, if_pos hNaN]
          | false =>
              rcases hok.set hNaN v with ⟨t', ht', hok', hcontent⟩ | h
              · refine Or.inl ⟨t', ht', hok', ?_⟩
                rw [update, hNaN, hcontent]
                rfl
              · exact Or.inr (Or.inr h)
  | setnum key v =>
      have hlow := key.le_toInt
      have hhigh := key.toInt_lt
      have hindex : Key.index (Key.ofInt key.toInt : α) = some key.toInt :=
        Key.index_ofInt _ (by omega) (by omega)
      have heq : LuaTable.perform t (.setnum key v) =
          LuaTable.perform t (.set (some (Key.ofInt key.toInt)) v) := by
        rw [LuaTable.perform, LuaTable.perform, luaHSetnum_eq (by omega) (by omega)]
      rw [heq]
      rcases hok.set (Key.not_isNaN_of_index hindex) v with ⟨t', ht', hok', hcontent⟩ | h
      · refine Or.inl ⟨t', ht', hok', ?_⟩
        rw [update, hcontent]
      · exact Or.inr (Or.inr h)
  | presize last =>
      left
      rw [LuaTable.perform]
      by_cases hgrow : t.sizearray < last
      · rw [if_pos hgrow]
        obtain ⟨t', ht', hok', hentries⟩ :=
          hok.luaHResizearray (inserts_newkey 1) hgrow.le hfits
        refine ⟨t', ht', hok', ?_⟩
        rw [update, hok.content_eq hok' hentries]
      · rw [if_neg hgrow]
        exact ⟨t, rfl, hok, rfl⟩

/-- A run from a table in order. -/
theorem Ok.run (hok : Ok t) {ops : List (Op α β)} (hfits : ∀ op ∈ ops, op.Fits) :
    Agrees ops (content t) (ops.foldlM LuaTable.perform t) := by
  induction ops generalizing t with
  | nil => exact rfl
  | cons op ops ih =>
      rw [List.foldlM_cons]
      rcases hok.perform (hfits op List.mem_cons_self) with
        ⟨t', ht', hok', hupdate⟩ | ⟨e, he, hupdate⟩ | ⟨herr, hfull⟩
      · have hrest := ih hok' fun op' h => hfits op' (List.mem_cons_of_mem op h)
        have hfirst : ∀ ops', (op :: ops').foldlM update (content t) =
            ops'.foldlM update (content t') := fun ops' => by
          rw [List.foldlM_cons, hupdate]
          rfl
        rw [ht']
        change Agrees (op :: ops) (content t) (ops.foldlM LuaTable.perform t')
        cases hrun : ops.foldlM LuaTable.perform t' with
        | ok t₁ =>
            rw [hrun] at hrest
            exact (hfirst ops).trans hrest
        | error e =>
            rw [hrun] at hrest
            rcases hrest with h | ⟨he, done, m, S, hdone, hm, hS⟩
            · exact Or.inl ((hfirst ops).trans h)
            · exact Or.inr ⟨he, op :: done, m, S, List.cons_prefix_cons.mpr ⟨rfl, hdone⟩,
                (hfirst done).trans hm, hS⟩
      · rw [he]
        refine Or.inl ?_
        rw [List.foldlM_cons, hupdate]
        rfl
      · rw [herr]
        obtain ⟨S, hcard, hS⟩ := hok.exists_keys
        exact Or.inr ⟨rfl, [], content t, S, List.nil_prefix, rfl, hcard ▸ hfull, hS⟩

/-- A run that does not fail leaves the table in order. -/
theorem Ok.of_run (hok : Ok t) {ops : List (Op α β)} (hfits : ∀ op ∈ ops, op.Fits)
    {t' : Table α β} (hrun : ops.foldlM LuaTable.perform t = .ok t') : Ok t' := by
  induction ops generalizing t with
  | nil =>
      obtain rfl := Except.ok.inj hrun
      exact hok
  | cons op ops ih =>
      rw [List.foldlM_cons] at hrun
      rcases hok.perform (hfits op List.mem_cons_self) with
        ⟨t₁, ht₁, hok₁, -⟩ | ⟨e, he, -⟩ | ⟨herr, -⟩
      · rw [ht₁] at hrun
        exact ih hok₁ (fun op' h => hfits op' (List.mem_cons_of_mem op h)) hrun
      · rw [he] at hrun
        cases hrun
      · rw [herr] at hrun
        cases hrun

end

/-- On the way the hash part grows in place and gives elements to the array part. -/
def sampleOps : List (Op TKey Nat) :=
  [.set (some (.string [97])) (some 1), .setnum 1 (some 2), .setnum 2 (some 3), .setnum 3 (some 4),
    .set (some (.boolean true)) (some 5), .setnum 4 (some 6), .set (some (.string [97])) none,
    .presize 8, .set none (some 7)]

end LuaTable
