import EluaWebServer.LuaRpc.Reading

/-!
# Values get from one end to the other

A tree without functions and helpers stands for a value that unfolds to the
same tree, in new tables, and all older tables are as they were.
-/

namespace LuaRpc

open Bytes

variable {N F F' R : Type} [LuaNumber N] [DecidableEq F] [DecidableEq F']

/-! ## Values and trees -/

section

variable {l : Link N F} {P Q : Nat → Prop} {heap heap' : Heap N F}

mutual

/-- Only the tables in the tree matter. -/
theorem unfoldsIn_mono (h : ∀ ref, P ref → Q ref ∧ heap'[ref]? = heap[ref]?) :
    ∀ (t : Tree N) (v : Val N F), UnfoldsIn l P heap v t → UnfoldsIn l Q heap' v t
  | .nil, _, hv => hv
  | .boolean _, _, hv => hv
  | .number _, _, hv => hv
  | .string _, _, hv => hv
  | .table es, _, hv => by
      obtain ⟨ref, t, rfl, hP, hheap, hentries⟩ := hv
      obtain ⟨hQ, hsame⟩ := h ref hP
      exact ⟨ref, t, rfl, hQ, hsame.trans hheap, entriesUnfoldIn_mono h es t.entries hentries⟩
  | .function _, _, hv => hv
  | .remote _, _, hv => hv

theorem entriesUnfoldIn_mono (h : ∀ ref, P ref → Q ref ∧ heap'[ref]? = heap[ref]?) :
    ∀ (es : Entries N) (entries : List (Val N F × Val N F)),
      EntriesUnfoldIn l P heap entries es → EntriesUnfoldIn l Q heap' entries es
  | .nil, _, hes => hes
  | .cons k v rest, _, hes => by
      obtain ⟨key, value, later, rfl, hkey, hvalue, hlater⟩ := hes
      exact ⟨key, value, later, rfl, unfoldsIn_mono h k key hkey, unfoldsIn_mono h v value hvalue,
        entriesUnfoldIn_mono h rest later hlater⟩

end

theorem isKey_eq {t : Tree N} {v : Val N F} (h : UnfoldsIn l P heap v t) : v.isKey = t.isKey := by
  cases t with
  | table es =>
      obtain ⟨ref, t, rfl, -⟩ := h
      rfl
  | function code =>
      obtain ⟨f, rfl, -⟩ := h
      rfl
  | remote path =>
      obtain ⟨h, rfl, -⟩ := h
      rfl
  | _ =>
      rw [UnfoldsIn] at h
      rw [h]
      rfl

theorem isNil_eq {t : Tree N} {v : Val N F} (h : UnfoldsIn l P heap v t) : v.isNil = t.isNil := by
  cases t with
  | table es =>
      obtain ⟨ref, t, rfl, -⟩ := h
      rfl
  | function code =>
      obtain ⟨f, rfl, -⟩ := h
      rfl
  | remote path =>
      obtain ⟨h, rfl, -⟩ := h
      rfl
  | _ =>
      rw [UnfoldsIn] at h
      rw [h]
      rfl

/-- Values that are different keys have trees that are. -/
theorem sameKey_of_rawEq {t t' : Tree N} {v v' : Val N F} (h : UnfoldsIn l P heap v t)
    (h' : UnfoldsIn l Q heap' v' t') (hne : rawEq v v' = false) : t.sameKey t' = false := by
  cases t <;> cases t' <;> first | rfl | (rw [UnfoldsIn] at h h'; rw [h, h'] at hne; exact hne)

/-- And the other way, when no table is in both. -/
theorem rawEq_of_sameKey {t t' : Tree N} {v v' : Val N F} (h : UnfoldsIn l P heap v t)
    (h' : UnfoldsIn l Q heap' v' t') (hplain : t'.Plain) (hdisjoint : ∀ ref, P ref → ¬ Q ref)
    (hne : t.sameKey t' = false) : rawEq v v' = false := by
  cases t' with
  | function code => exact hplain.elim
  | remote path => exact hplain.elim
  | table es' =>
      obtain ⟨ref', -, rfl, hQ, -⟩ := h'
      cases t with
      | table es =>
          obtain ⟨ref, -, rfl, hP, -⟩ := h
          refine beq_eq_false_iff_ne.mpr ?_
          rintro rfl
          exact hdisjoint ref hP hQ
      | function code =>
          obtain ⟨f, rfl, -⟩ := h
          rfl
      | remote path =>
          obtain ⟨h, rfl, -⟩ := h
          rfl
      | _ =>
          rw [UnfoldsIn] at h
          rw [h]
          rfl
  | _ =>
      rw [UnfoldsIn] at h'
      cases t with
      | table es =>
          obtain ⟨ref, -, rfl, -⟩ := h
          rw [h']
          rfl
      | function code =>
          obtain ⟨f, rfl, -⟩ := h
          rw [h']
          rfl
      | remote path =>
          obtain ⟨h, rfl, -⟩ := h
          rw [h']
          rfl
      | _ =>
          rw [UnfoldsIn] at h
          rw [h, h']
          exact hne

/-- Every key tree is that of the key of an entry, and the other way. -/
theorem keys_unfold : ∀ {es : Entries N} {entries : List (Val N F × Val N F)},
    EntriesUnfoldIn l P heap entries es →
    (∀ k ∈ es.keys, ∃ e ∈ entries, UnfoldsIn l P heap e.1 k) ∧
      ∀ e ∈ entries, ∃ k ∈ es.keys, UnfoldsIn l P heap e.1 k
  | .nil, _, h => by
      obtain rfl := h
      simp [Entries.keys]
  | .cons k v rest, _, h => by
      obtain ⟨key, value, later, rfl, hkey, -, hlater⟩ := h
      obtain ⟨htrees, hvalues⟩ := keys_unfold hlater
      constructor
      · intro k' hk'
        rcases List.mem_cons.mp hk' with rfl | hk'
        · exact ⟨_, List.mem_cons_self, hkey⟩
        · obtain ⟨e, he, hunfold⟩ := htrees k' hk'
          exact ⟨e, List.mem_cons_of_mem _ he, hunfold⟩
      · intro e he
        rcases List.mem_cons.mp he with rfl | he
        · exact ⟨k, List.mem_cons_self, hkey⟩
        · obtain ⟨k', hk', hunfold⟩ := hvalues e he
          exact ⟨k', List.mem_cons_of_mem _ hk', hunfold⟩

mutual

theorem wellKeyed_of_unfolds :
    ∀ (t : Tree N) (v : Val N F), UnfoldsIn l P heap v t → t.WellKeyed
  | .nil, _, _ => trivial
  | .boolean _, _, _ => trivial
  | .number _, _, _ => trivial
  | .string _, _, _ => trivial
  | .table es, _, h => by
      obtain ⟨ref, t, rfl, -, -, hentries⟩ := h
      exact wellKeyed_of_entries es t.entries hentries t.keys t.values t.distinct
  | .function _, _, _ => trivial
  | .remote _, _, _ => trivial

theorem wellKeyed_of_entries :
    ∀ (es : Entries N) (entries : List (Val N F × Val N F)),
      EntriesUnfoldIn l P heap entries es → (∀ e ∈ entries, e.1.isKey = true) →
      (∀ e ∈ entries, e.2.isNil = false) →
      (entries.Pairwise fun a b => rawEq a.1 b.1 = false) → es.WellKeyed
  | .nil, _, _, _, _, _ => trivial
  | .cons k v rest, _, h, hkeys, hvalues, hdistinct => by
      obtain ⟨key, value, later, rfl, hkey, hvalue, hlater⟩ := h
      obtain ⟨hfirst, hrest⟩ := List.pairwise_cons.mp hdistinct
      refine ⟨?_, ?_, ?_, wellKeyed_of_unfolds k key hkey, wellKeyed_of_unfolds v value hvalue, ?_⟩
      · rw [← isKey_eq hkey]
        exact hkeys _ List.mem_cons_self
      · rw [← isNil_eq hvalue]
        exact hvalues _ List.mem_cons_self
      · intro k' hk'
        obtain ⟨e, he, hunfold⟩ := (keys_unfold hlater).1 k' hk'
        exact sameKey_of_rawEq hkey hunfold (hfirst e he)
      · exact wellKeyed_of_entries rest later hlater
          (fun e he => hkeys e (List.mem_cons_of_mem _ he))
          (fun e he => hvalues e (List.mem_cons_of_mem _ he)) hrest

end

theorem entriesUnfoldIn_append {k v : Tree N} {key value : Val N F}
    (hkey : UnfoldsIn l P heap key k) (hvalue : UnfoldsIn l P heap value v) :
    ∀ (es : Entries N) (entries : List (Val N F × Val N F)),
      EntriesUnfoldIn l P heap entries es →
      EntriesUnfoldIn l P heap (entries ++ [(key, value)]) (es.append (.cons k v .nil))
  | .nil, _, h => by
      obtain rfl := h
      exact ⟨key, value, [], rfl, hkey, hvalue, rfl⟩
  | .cons _ _ es, _, h => by
      obtain ⟨key', value', later, rfl, hkey', hvalue', hlater⟩ := h
      exact ⟨key', value', _, rfl, hkey', hvalue', entriesUnfoldIn_append hkey hvalue es later hlater⟩

end

/-! ## The value that is read -/

/-- No table was lost, and the older ones are as they were. -/
def Kept (heap heap' : Heap N F) : Prop :=
  heap.length ≤ heap'.length ∧ ∀ i < heap.length, heap'[i]? = heap[i]?

theorem Kept.trans {h₁ h₂ h₃ : Heap N F} (h : Kept h₁ h₂) (h' : Kept h₂ h₃) : Kept h₁ h₃ :=
  ⟨Nat.le_trans h.1 h'.1, fun i hi => (h'.2 i (Nat.lt_of_lt_of_le hi h.1)).trans (h.2 i hi)⟩

variable (l : Link N F) (vm : Vm N F R)

mutual

/-- A tree of immediate values and tables stands for a value that unfolds to
it, in tables that are new. -/
theorem build_plain :
    ∀ (t : Tree N) (lua : Lua N F R), t.Plain → t.WellKeyed →
      ∃ v lua', build vm t lua = .ok (v, lua') ∧ Kept lua.heap lua'.heap ∧
        UnfoldsIn l (fun i => lua.heap.length ≤ i ∧ i < lua'.heap.length) lua'.heap v t
  | .nil, lua, _, _ => ⟨_, _, rfl, ⟨Nat.le_refl _, fun _ _ => rfl⟩, rfl⟩
  | .boolean _, lua, _, _ => ⟨_, _, rfl, ⟨Nat.le_refl _, fun _ _ => rfl⟩, rfl⟩
  | .number _, lua, _, _ => ⟨_, _, rfl, ⟨Nat.le_refl _, fun _ _ => rfl⟩, rfl⟩
  | .string _, lua, _, _ => ⟨_, _, rfl, ⟨Nat.le_refl _, fun _ _ => rfl⟩, rfl⟩
  | .table es, lua, hplain, hkeyed => by
      have hlen : lua.newTable.heap.length = lua.heap.length + 1 := List.length_append
      have hnew : lua.newTable.heap[lua.heap.length]? = some Table.empty :=
        List.getElem?_concat_length
      obtain ⟨lua', t', hbuild, hle, hkept, htable, hentries⟩ :=
        buildEntries_plain es lua.newTable lua.heap.length .empty .nil hplain hkeyed hnew
          (fun k hk => by cases hk) rfl
      have hlt : lua.heap.length < lua'.heap.length := by omega
      refine ⟨.table lua.heap.length, lua', ?_, ⟨by omega, ?_⟩, ?_⟩
      · change (do
          let lua' ← buildEntries vm lua.heap.length es lua.newTable
          pure (Val.table lua.heap.length, lua')) = _
        rw [hbuild]
        rfl
      · intro i hi
        rw [hkept i (by omega) (by omega)]
        exact List.getElem?_append_left hi
      · refine ⟨lua.heap.length, t', rfl, ⟨Nat.le_refl _, hlt⟩, htable, ?_⟩
        exact entriesUnfoldIn_mono (fun i hi => ⟨⟨by omega, hi.2⟩, rfl⟩) es _ hentries
  | .function _, _, hplain, _ => hplain.elim
  | .remote _, _, hplain, _ => hplain.elim

/-- The entries are added to those that the table has. -/
theorem buildEntries_plain :
    ∀ (es : Entries N) (lua : Lua N F R) (ref : Nat) (t : Table N F) (before : Entries N),
      es.Plain → es.WellKeyed → lua.heap[ref]? = some t →
      (∀ k ∈ before.keys, ∀ k' ∈ es.keys, k.sameKey k' = false) →
      EntriesUnfoldIn l (fun i => ref < i ∧ i < lua.heap.length) lua.heap t.entries before →
      ∃ lua' t', buildEntries vm ref es lua = .ok lua' ∧
        lua.heap.length ≤ lua'.heap.length ∧
        (∀ i < lua.heap.length, i ≠ ref → lua'.heap[i]? = lua.heap[i]?) ∧
        lua'.heap[ref]? = some t' ∧
        EntriesUnfoldIn l (fun i => ref < i ∧ i < lua'.heap.length) lua'.heap t'.entries
          (before.append es)
  | .nil, lua, ref, t, before, _, _, ht, _, hbefore => by
      refine ⟨lua, t, rfl, Nat.le_refl _, fun _ _ _ => rfl, ht, ?_⟩
      rw [append_nil]
      exact hbefore
  | .cons k v rest, lua, ref, t, before, hplain, hkeyed, ht, hdistinct, hbefore => by
      obtain ⟨hkplain, hvplain, hrplain⟩ := hplain
      obtain ⟨hkkey, hvnil, hkrest, hkkeyed, hvkeyed, hrkeyed⟩ := hkeyed
      have href : ref < lua.heap.length := (List.getElem?_eq_some_iff.mp ht).1
      obtain ⟨key, lua₁, hbuildk, hkept₁, hkey⟩ := build_plain k lua hkplain hkkeyed
      obtain ⟨value, lua₂, hbuildv, hkept₂, hvalue⟩ := build_plain v lua₁ hvplain hvkeyed
      have hkept : Kept lua.heap lua₂.heap := hkept₁.trans hkept₂
      -- the key is new in the table
      have hnew : ∀ e ∈ t.entries, rawEq e.1 key = false := by
        intro e he
        obtain ⟨k', hk', hunfold⟩ := (keys_unfold hbefore).2 e he
        exact rawEq_of_sameKey hunfold hkey hkplain (fun i hi hi' => by omega)
          (hdistinct k' hk' k List.mem_cons_self)
      obtain ⟨t', hset, hentries⟩ := rawset_new ((isKey_eq hkey).trans hkkey)
        ((isNil_eq hvalue).trans hvnil) hnew
      have hrawset : lua₂.rawset ref key value =
          .ok { lua₂ with heap := lua₂.heap.set ref t' } := by
        rw [Lua.rawset, hkept.2 ref href, ht]
        simp only [hset]
      have hother : ∀ i, i ≠ ref → (lua₂.heap.set ref t')[i]? = lua₂.heap[i]? :=
        fun i hi => List.getElem?_set_ne (Ne.symm hi)
      have hlen : (lua₂.heap.set ref t').length = lua₂.heap.length := List.length_set
      have hle := hkept.1
      have hle₁ := hkept₁.1
      have hle₂ := hkept₂.1
      have hsofar : EntriesUnfoldIn l (fun i => ref < i ∧ i < (lua₂.heap.set ref t').length)
          (lua₂.heap.set ref t') t'.entries (before.append (.cons k v .nil)) := by
        rw [hentries]
        refine entriesUnfoldIn_append ?_ ?_ before t.entries ?_
        · refine unfoldsIn_mono (fun i hi => ⟨by omega, ?_⟩) k key hkey
          rw [hother i (by omega), hkept₂.2 i hi.2]
        · refine unfoldsIn_mono (fun i hi => ⟨by omega, ?_⟩) v value hvalue
          rw [hother i (by omega)]
        · refine entriesUnfoldIn_mono (fun i hi => ⟨by omega, ?_⟩) before t.entries hbefore
          rw [hother i (by omega), hkept.2 i hi.2]
      have hkeys : ∀ a ∈ (before.append (.cons k v .nil)).keys, ∀ b ∈ rest.keys,
          a.sameKey b = false := by
        intro a ha b hb
        rw [keys_append] at ha
        rcases List.mem_append.mp ha with ha | ha
        · exact hdistinct a ha b (List.mem_cons_of_mem _ hb)
        · obtain rfl : a = k := List.mem_singleton.mp ha
          exact hkrest b hb
      obtain ⟨lua', t'', hbuild, hle', hkept', htable, hall⟩ :=
        buildEntries_plain rest { lua₂ with heap := lua₂.heap.set ref t' } ref t' _ hrplain
          hrkeyed (List.getElem?_set_self (by omega)) hkeys hsofar
      replace hle' : (lua₂.heap.set ref t').length ≤ lua'.heap.length := hle'
      refine ⟨lua', t'', ?_, by omega, ?_, htable, ?_⟩
      · change (do
          let p ← build vm k lua
          let q ← build vm v p.2
          let lua ← q.2.rawset ref p.1 q.1
          buildEntries vm ref rest lua) = _
        rw [hbuildk]
        change (do
          let q ← build vm v lua₁
          let lua ← q.2.rawset ref key q.1
          buildEntries vm ref rest lua) = _
        rw [hbuildv]
        change (do
          let lua ← lua₂.rawset ref key value
          buildEntries vm ref rest lua) = _
        rw [hrawset]
        exact hbuild
      · intro i hi hne
        rw [hkept' i (show i < (lua₂.heap.set ref t').length by omega) hne, hother i hne]
        exact hkept.2 i hi
      · rw [append_cons] at hall
        exact hall

end

omit [LuaNumber N] [DecidableEq F] [DecidableEq F'] in
/-- What the reader needs is enough for the writer. -/
theorem writes_of_transmits {w : Link N F} {r : Link N F'} {t : Tree N}
    (h : Transmits w r t) : w.Writes t := by
  refine Tree.All.imp ?_ ?_ t h
  · rintro x ⟨bytes, hwrite, -⟩
    exact ⟨bytes, hwrite⟩
  · intro s hs
    have hsmall := r.room_small
    omega

/-- **Value round trip.**  What is written of a value without functions and
helpers, all of whose numbers get to the reader and whose strings have room
there, is read as one value that unfolds to the same tree: nothing of what
follows is read, and both stacks are otherwise as they were. -/
theorem value_round_trip (w : Link N F) (r : Link N F') (vm : Vm N F' R)
    (hnet : SameNet w r) {heap : Heap N F} {v : Val N F} {t : Tree N}
    (hunfold : Unfolds w heap v t) (hplain : t.Plain) (htransmits : Transmits w r t)
    {stack : Stack N F} {i : Nat} (hat : stack.at i = some v) :
    ∃ bytes,
      (∀ fuel ≥ t.size, writeVariable w heap fuel stack i = .ok (bytes, stack)) ∧
      ∀ (lua : Lua N F' R) (stack' : Stack N F') (rest : List UInt8), ∃ v' lua',
        (∀ fuel ≥ t.size, readVariable r vm fuel ⟨lua, stack', bytes ++ rest⟩ =
          .ok (true, ⟨lua', v' :: stack', rest⟩)) ∧
        Unfolds r lua'.heap v' t ∧ Kept lua.heap lua'.heap := by
  refine ⟨w.encode t, fun fuel hfuel => ?_, fun lua stack' rest => ?_⟩
  · exact writeVariable_eq w _ heap t v stack i fuel hunfold (writes_of_transmits htransmits) hat
      hfuel
  · obtain ⟨v', lua', hbuild, hkept, hv'⟩ :=
      build_plain r vm t lua hplain (wellKeyed_of_unfolds t v hunfold)
    refine ⟨v', lua', fun fuel hfuel => ?_, ?_, hkept⟩
    · rw [readVariable_eq w r vm hnet t lua stack' rest fuel htransmits hfuel, hbuild]
      rfl
    · exact unfoldsIn_mono (fun i _ => ⟨trivial, rfl⟩) t v' hv'

/-! ## Two ends with the same numbers -/

/-- Between two ends with the same numbers, all of them get to the other end,
but for four-byte floating-point numbers. -/
theorem roundTrips_same {F F' : Type} (e : Endpoint) (hok : CodecOk e e) (netLittle : Bool)
    (dump : F → Option (List UInt8)) (dump' : F' → Option (List UInt8)) (handle handle' : Option Nat)
    {room room' : Nat} (hroom : room + 64 ≤ 2 ^ 31) (hroom' : room' + 64 ≤ 2 ^ 31) {x : Nat}
    (hx : x < 2 ^ (8 * e.size)) :
    RoundTrips (Link.ofEndpoint e (agreed e e netLittle) dump handle room hroom)
      (Link.ofEndpoint e (agreed e e netLittle) dump' handle' room' hroom') x := by
  have hpos : 0 < e.size := by rcases e.size_ok with h | h <;> omega
  have hwrite : transportWriteNumber e (agreed e e netLittle) x =
      some (native netLittle e.size x) := by
    cases hint : e.integral with
    | true =>
        have hnumber : IsNumber e x (signed e.size x) := ⟨hx, by rw [hint, if_pos rfl]⟩
        have hrange : InRange (min e.size e.size) (signed e.size x) := by
          rw [Nat.min_self]
          exact signed_inRange hpos hx
        rw [write_int (by rw [hint]; rfl) hnumber hrange, Nat.min_self, wrap_signed hx]
    | false =>
        have height : e.size = 8 := (hok.1 hint hint).1
        have hall : (native e.little 8 x).take 8 = native e.little 8 x :=
          List.take_of_length_le (Nat.le_of_eq (length_native _ _ _))
        have horder := order_native (agreed e e netLittle) 8 x
        unfold transportWriteNumber
        simp only [agreed, hint, height, Bool.or_false, if_neg Bool.false_ne_true,
          if_neg (Nat.lt_irrefl 8), hall] at horder ⊢
        rw [horder]
  have hread (rest : List UInt8) : transportReadNumber e (agreed e e netLittle)
      (native netLittle e.size x ++ rest) = some (x, rest) := by
    rw [read_eq e.size x (Nat.min_self _).symm, Bool.or_self, if_neg (not_not.mpr rfl),
      if_neg (Nat.lt_irrefl _), ofNative_native _ hx]
  refine ⟨native netLittle e.size x, ?_, fun rest => ?_⟩
  · simp only [Link.ofEndpoint, hwrite]
  · have hlen : ¬ (native netLittle e.size x ++ rest).length <
        (agreed e e netLittle).lnumBytes := by
      rw [List.length_append, length_native]
      change ¬ e.size + rest.length < min e.size e.size
      omega
    simp only [Link.ofEndpoint, hread, if_neg hlen]

/-- An end with four-byte integers. -/
def smallEnd : Endpoint := ⟨true, 4, true, .inl rfl⟩

/-- Integers are equal if their bits are. -/
instance smallNumber : LuaNumber Nat where
  eq := fun x y => x == y
  str := fun x => (toString (signed 4 x)).toUTF8.toList

/-- A connection of such ends, whose functions have no code to dump. -/
def smallLink (handle : Option Nat) : Link Nat Unit :=
  Link.ofEndpoint smallEnd (agreed smallEnd smallEnd true) (fun _ => none) handle 1024 (by decide)

/-- `lua_rawget` of the name of a variable. -/
def rawget (heap : Heap Nat Unit) (ref : Nat) (s : List UInt8) : Val Nat Unit :=
  match heap[ref]?.bind fun t => t.entries.find? fun e => rawEq e.1 (.string s) with
  | some e => e.2
  | none => .nil

/-- An interpreter without metatables whose globals are the first table, and
whose only function returns its arguments. -/
def smallVm : Vm Nat Unit Unit where
  load := fun _ lua => (.string [], lua)
  getGlobal := fun s lua => .ok (rawget lua.heap 0 s, lua)
  getField := fun v s lua =>
    match v with
    | .table ref => .ok (rawget lua.heap ref s, lua)
    | _ => .error .luaError
  setTable := fun v key value lua =>
    match v with
    | .table ref => lua.rawset ref key value
    | _ => .error .luaError
  setGlobal := fun s value lua => lua.rawset 0 (.string s) value
  pcall := fun _ args lua => (.values args, lua)

/-- `{ [7] = true, sub = { [-1] = "ab" } }`. -/
def sampleTree : Tree Nat :=
  .table (.cons (.number 7) (.boolean true)
    (.cons (.string [115, 117, 98])
      (.table (.cons (.number 4294967295) (.string [97, 98]) .nil)) .nil))

def sampleHeap : Heap Nat Unit :=
  [⟨[(.number 7, .boolean true), (.string [115, 117, 98], .table 1)], by decide, by decide,
      by decide⟩,
    ⟨[(.number 4294967295, .string [97, 98])], by decide, by decide, by decide⟩]

theorem value_round_trip_sample : ∃ bytes,
    (∀ fuel ≥ sampleTree.size, writeVariable (smallLink (some 0)) sampleHeap fuel [.table 0] 1 =
      .ok (bytes, [.table 0])) ∧
    ∀ (lua : Lua Nat Unit Unit) (stack' : Stack Nat Unit) (rest : List UInt8), ∃ v' lua',
      (∀ fuel ≥ sampleTree.size, readVariable (smallLink none) smallVm fuel
        ⟨lua, stack', bytes ++ rest⟩ = .ok (true, ⟨lua', v' :: stack', rest⟩)) ∧
      Unfolds (smallLink none) lua'.heap v' sampleTree ∧ Kept lua.heap lua'.heap := by
  have hnumber {x : Nat} (hx : x < 2 ^ 32) : RoundTrips (smallLink (some 0)) (smallLink none) x :=
    roundTrips_same smallEnd (by decide) true _ _ _ _ _ _ hx
  have hunfold : Unfolds (smallLink (some 0)) sampleHeap (.table 0) sampleTree :=
    ⟨0, _, rfl, trivial, rfl, _, _, _, rfl, rfl, rfl, _, _, _, rfl, rfl,
      ⟨1, _, rfl, trivial, rfl, _, _, _, rfl, rfl, rfl, rfl⟩, rfl⟩
  have htransmits : Transmits (smallLink (some 0)) (smallLink none) sampleTree :=
    ⟨hnumber (by decide), trivial, show 3 < 1024 by decide,
      ⟨hnumber (by decide), show 2 < 1024 by decide, trivial⟩, trivial⟩
  have hplain : sampleTree.Plain :=
    ⟨trivial, trivial, trivial, ⟨trivial, trivial, trivial⟩, trivial⟩
  exact value_round_trip (smallLink (some 0)) (smallLink none) smallVm rfl hunfold hplain htransmits
    rfl

end LuaRpc
