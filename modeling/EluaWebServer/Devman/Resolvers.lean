import EluaWebServer.Devman.Descriptors

/-!
# Two ways to find a device

`_open_r` takes the path apart at its second slash and compares the device part with the names of
the devices.  `dm_opendir` takes the device with the longest name that the path begins with.
-/

namespace Devman

open CaseFold

variable {φ : Type}

/-- The path begins with the name of the device, ignoring case. -/
def prefixed (name : List UInt8) (d : Option (Device φ)) : Bool :=
  d.any fun d => strncasecmpEq d.name.length name d.name

/-- `strlen( dm_list[ i ]->name )`. -/
def nameLength (d : Option (Device φ)) : Nat := (d.map fun d => d.name.length).getD 0

/-- The loop of `dm_device_id_from_name` from index `i` on. -/
def longestMatch (name : List UInt8) :
    List (Option (Device φ)) → (i matchlen pos : Nat) → Nat × Nat
  | [], _, matchlen, pos => (matchlen, pos)
  | d :: ds, i, matchlen, pos =>
      if prefixed name d ∧ matchlen < nameLength d then
        longestMatch name ds (i + 1) (nameLength d) i
      else longestMatch name ds (i + 1) matchlen pos

/-- A device ID from its name, and the remaining part of the name. -/
def dmDeviceIdFromName (t : Table φ) (name : List UInt8) : Option (Nat × List UInt8) :=
  let (matchlen, pos) := longestMatch name (t.dmList.take t.dmNumDevs) 0 0 0
  if matchlen = 0 then none else some (pos, name.drop (nameLength (t.dmList[pos]?).join))

/-! ## What the paths consist of -/

/-- The index of the second slash, if there is one. -/
def secondSlash (path : List UInt8) : Option Nat :=
  let preal := (path.drop 1).findIdx (· = 0x2F) + 1
  if preal < path.length then some preal else none

/-- The device of a path: what is in front of the second slash, or `/`.  It is not empty. -/
def devicePart (path : List UInt8) : Option (List UInt8) :=
  match secondSlash path with
  | none => some [0x2F]
  | some preal => if preal = 1 then none else some (path.take preal)

/-- The file or directory of a path. -/
def filePart (path : List UInt8) : List UInt8 := path.drop ((secondSlash path).getD 0 + 1)

/-- Of the registered names that the path begins with, none is longer than one that is the device
part; there are none without such a one. -/
def LongestIsDevice (t : Table φ) (path : List UInt8) : Prop :=
  ∀ d, some d ∈ t.dmList.take t.dmNumDevs → strncasecmpEq d.name.length path d.name = true →
    ∃ part e, devicePart path = some part ∧ some e ∈ t.dmList.take t.dmNumDevs ∧
      strcasecmpEq part e.name = true ∧ d.name.length ≤ e.name.length

/-! ## Tables -/

/-- The entries in use are devices with names that `dm_register` takes. -/
structure Filled (t : Table φ) : Prop where
  length : t.dmList.length = DM_MAX_DEVICES
  num : t.dmNumDevs ≤ t.dmList.length
  devices : ∀ slot ∈ t.dmList.take t.dmNumDevs, ∃ d, slot = some d ∧ invalidName d.name = false

variable {t : Table φ} {name path part : List UInt8}

theorem Filled.length_take (h : Filled t) : (t.dmList.take t.dmNumDevs).length = t.dmNumDevs := by
  rw [List.length_take]
  exact Nat.min_eq_left h.num

theorem filled_register (h : Filled t) (pdev : Option (Device φ)) :
    Filled (dmRegister t pdev).1 := by
  rcases dmRegister_cases t pdev with ⟨err, -, hcall⟩ | ⟨d, -, hname, -, hspace, hcall⟩
  · rw [hcall]
    exact h
  · have hnum := h.num
    have hlength := h.length
    have hlt : t.dmNumDevs < t.dmList.length := by omega
    have hset : t.dmNumDevs < (t.dmList.set t.dmNumDevs (some d)).length := by
      rw [List.length_set]
      exact hlt
    rw [hcall]
    refine ⟨List.length_set.trans hlength, hset, fun slot hslot => ?_⟩
    dsimp only at hslot
    rw [List.take_succ_eq_append_getElem hset, List.take_set_of_le (Nat.le_refl _),
      List.getElem_set_self] at hslot
    rcases List.mem_append.mp hslot with hslot | hslot
    · exact h.devices slot hslot
    · exact ⟨d, List.mem_singleton.mp hslot, hname⟩

theorem mem_take_of_getElem? {α : Type} {l : List α} {j n : Nat} {x : α} (hj : j < n)
    (hget : l[j]? = some x) : x ∈ l.take n :=
  List.mem_of_getElem? ((List.getElem?_take_of_lt hj).trans hget)

/-- Removing a device leaves entries that have been in use. -/
theorem filled_unregister (h : Filled t) (name : Option (List UInt8)) :
    Filled (dmUnregister t name).1 := by
  rcases dmUnregister_cases t name with ⟨err, -, hcall⟩ | ⟨chars, -, hold, hcall⟩
  · rw [hcall]
    exact h
  · have hnum := h.num
    have hle : t.search chars ≤ t.dmNumDevs := by
      have hfind : (t.dmList.take t.dmNumDevs).findIdx (named chars) ≤
          (t.dmList.take t.dmNumDevs).length := List.findIdx_le_length
      rwa [h.length_take] at hfind
    rw [hcall]
    dsimp only
    by_cases hlast : t.search chars ≠ t.dmNumDevs - 1
    · rw [if_pos hlast]
      have hroom : t.search chars + 1 + 1 ≤ t.dmList.length := by omega
      have hslice := Buffer.slice_length hroom
      have hsplice : t.search chars +
          (Buffer.slice t.dmList (t.search chars + 1) 1).length ≤ t.dmList.length := by omega
      refine ⟨(Buffer.splice_length hsplice).trans h.length, ?_,
        fun slot hslot => h.devices slot ?_⟩
      · rw [Buffer.splice_length hsplice]
        exact Nat.le_trans (Nat.sub_le _ _) hnum
      · obtain ⟨j, hj⟩ := List.mem_iff_getElem?.mp hslot
        dsimp only at hj
        have hlt : j < t.dmNumDevs - 1 := by
          by_contra hge
          rw [List.getElem?_take_eq_none (Nat.le_of_not_lt hge)] at hj
          cases hj
        rw [List.getElem?_take_of_lt hlt] at hj
        rcases Nat.lt_trichotomy j (t.search chars) with hbefore | rfl | hbehind
        · rw [Buffer.getElem?_splice_of_lt hbefore (by omega)] at hj
          exact mem_take_of_getElem? (by omega) hj
        · -- the slot of the device gets the pointer behind it
          have hhead := congrArg (·[0]?) (@Buffer.slice_splice _ t.dmList (t.search chars)
            (Buffer.slice t.dmList (t.search chars + 1) 1) (by omega))
          rw [hslice] at hhead
          simp only [Buffer.slice, List.getElem?_take_of_lt Nat.one_pos, List.getElem?_drop,
            Nat.add_zero] at hhead
          refine mem_take_of_getElem? (show t.search chars + 1 < t.dmNumDevs by omega) ?_
          rw [← hhead, ← hj]
          rfl
        · rw [Buffer.getElem?_splice_of_ge (by omega) hsplice] at hj
          exact mem_take_of_getElem? (by omega) hj
    · rw [if_neg hlast]
      refine ⟨h.length, Nat.le_trans (Nat.sub_le _ _) hnum, fun slot hslot => h.devices slot ?_⟩
      exact (List.take_subset_take_left _ (Nat.sub_le _ _)) hslot

/-- The table in every state that calls lead to. -/
theorem filled_of_run {calls : List (Call φ)} {s : System φ}
    (hrun : Transition.run step System.init calls = some s) : Filled s.table := by
  have hinit : Filled (System.init : System φ).table :=
    ⟨List.length_replicate, Nat.zero_le _, fun slot hslot => by cases hslot⟩
  have hstep : ∀ (s : System φ) (c : Call φ) (s' : System φ), Filled s.table →
      step s c = some s' → Filled s'.table := by
    intro s c s' hfilled hs'
    rw [← Option.some.inj hs']
    cases c with
    | register pdev => exact filled_register hfilled pdev
    | unregister name => exact filled_unregister hfilled name
  exact Transition.invariant_of_steps hstep hinit hrun

/-! ## The first of the longest names -/

/-- **The loop** finds nothing longer than before, or the first of the longest names. -/
theorem longestMatch_cases (name : List UInt8) (ds : List (Option (Device φ)))
    (i matchlen pos : Nat) :
    (longestMatch name ds i matchlen pos = (matchlen, pos) ∧
      ∀ d ∈ ds, prefixed name d = true → nameLength d ≤ matchlen) ∨
    ∃ before d after, ds = before ++ d :: after ∧ prefixed name d = true ∧
      matchlen < nameLength d ∧
      longestMatch name ds i matchlen pos = (nameLength d, i + before.length) ∧
      (∀ c ∈ before, prefixed name c = true → nameLength c < nameLength d) ∧
      ∀ c ∈ after, prefixed name c = true → nameLength c ≤ nameLength d := by
  induction ds generalizing i matchlen pos with
  | nil => exact .inl ⟨rfl, fun d hd => absurd hd List.not_mem_nil⟩
  | cons d ds ih =>
      rw [longestMatch]
      by_cases hlonger : prefixed name d = true ∧ matchlen < nameLength d
      · rw [if_pos hlonger]
        rcases ih (i + 1) (nameLength d) i with ⟨heq, hrest⟩ |
          ⟨before, e, after, rfl, he, hlt, heq, hbefore, hafter⟩
        · exact .inr ⟨[], d, ds, rfl, hlonger.1, hlonger.2, heq,
            fun c hc => absurd hc List.not_mem_nil, hrest⟩
        · refine .inr ⟨d :: before, e, after, rfl, he, Nat.lt_trans hlonger.2 hlt, ?_, ?_, hafter⟩
          · rw [heq, List.length_cons, Nat.add_assoc, Nat.add_comm 1]
          · intro c hc hprefixed
            rcases List.mem_cons.mp hc with rfl | hc
            · exact hlt
            · exact hbefore c hc hprefixed
      · rw [if_neg hlonger]
        rcases ih (i + 1) matchlen pos with ⟨heq, hrest⟩ |
          ⟨before, e, after, rfl, he, hlt, heq, hbefore, hafter⟩
        · refine .inl ⟨heq, fun c hc hprefixed => ?_⟩
          rcases List.mem_cons.mp hc with rfl | hc
          · exact Nat.le_of_not_lt fun hlt => hlonger ⟨hprefixed, hlt⟩
          · exact hrest c hc hprefixed
        · refine .inr ⟨d :: before, e, after, rfl, he, hlt, ?_, ?_, hafter⟩
          · rw [heq, List.length_cons, Nat.add_assoc, Nat.add_comm 1]
          · intro c hc hprefixed
            rcases List.mem_cons.mp hc with rfl | hc
            · exact Nat.lt_of_le_of_lt
                (Nat.le_of_not_lt fun hlt => hlonger ⟨hprefixed, hlt⟩) hlt
            · exact hbefore c hc hprefixed

/-! ## The device part -/

/-- The device part is what the path begins with. -/
theorem take_devicePart (habs : path.head? = some 0x2F) (hpart : devicePart path = some part) :
    path.take part.length = part ∧ part ≠ [] := by
  obtain ⟨c, rest, rfl⟩ := List.exists_cons_of_ne_nil (l := path) (by rintro rfl; cases habs)
  obtain rfl := Option.some.inj habs
  unfold devicePart secondSlash at hpart
  dsimp only at hpart
  split at hpart
  · obtain rfl := Option.some.inj hpart
    exact ⟨rfl, List.cons_ne_nil _ _⟩
  · rename_i preal hslash
    split at hpart
    · cases hpart
    · obtain rfl := Option.some.inj hpart
      have hpos : 0 < preal := by
        split at hslash
        · rw [← Option.some.inj hslash]
          exact Nat.succ_pos _
        · cases hslash
      obtain ⟨n, rfl⟩ := Nat.exists_eq_succ_of_ne_zero (Nat.ne_of_gt hpos)
      refine ⟨?_, nofun⟩
      rw [List.length_take, List.take_eq_take_iff]
      omega

/-- A device with the device part as its name is one that the path begins with. -/
theorem prefixed_of_named {d : Option (Device φ)} (htake : path.take part.length = part)
    (hnamed : named part d = true) :
    prefixed path d = true ∧ nameLength d = part.length := by
  obtain ⟨e, rfl⟩ : ∃ e, d = some e := by
    cases d with
    | none => cases hnamed
    | some e => exact ⟨e, rfl⟩
  have heq := strcasecmpEq_iff.mp hnamed
  have hlength : part.length = e.name.length := by
    have hmap := congrArg List.length heq
    rwa [List.length_map, List.length_map] at hmap
  refine ⟨?_, hlength.symm⟩
  change strcasecmpEq (path.take e.name.length) (e.name.take e.name.length) = true
  rw [← hlength, htake, hlength, List.take_length]
  exact hnamed

/-- The longest such device has that name. -/
theorem named_of_prefixed {d : Option (Device φ)} (htake : path.take part.length = part)
    (hlength : nameLength d = part.length) (hprefixed : prefixed path d = true) :
    named part d = true := by
  cases d with
  | none => cases hprefixed
  | some e =>
      have hname : e.name.length = part.length := hlength
      change strcasecmpEq (path.take e.name.length) (e.name.take e.name.length) = true at hprefixed
      rwa [List.take_length, hname, htake] at hprefixed

/-! ## What the resolvers find -/

/-- The search ends behind the last device exactly if none has the name. -/
theorem Filled.search_eq_iff (h : Filled t) :
    t.search name = t.dmNumDevs ↔ ∀ d ∈ t.dmList.take t.dmNumDevs, named name d = false := by
  rw [Table.search, ← List.findIdx_eq_length, h.length_take]

/-- The first device with the name. -/
theorem search_append {before after : List (Option (Device φ))} {d : Option (Device φ)}
    (hslots : t.dmList.take t.dmNumDevs = before ++ d :: after) (hd : named name d = true)
    (hbefore : ∀ c ∈ before, named name c = false) : t.search name = before.length := by
  rw [Table.search, hslots, List.findIdx_append, List.findIdx_eq_length.mpr hbefore,
    if_neg (Nat.lt_irrefl _), List.findIdx_cons, hd]
  exact Nat.zero_add _

/-- The device of `_open_r` is the first one with the device part as its name. -/
theorem findDmEntry_eq {t : Table Functions} (h : Filled t) (habs : path.head? = some 0x2F)
    (hfile : filePart path ≠ []) :
    (findDmEntry t (some path)).map Prod.fst =
      (devicePart path).bind fun part =>
        if t.search part = t.dmNumDevs then none else some (t.search part) := by
  unfold filePart secondSlash at hfile
  unfold findDmEntry devicePart secondSlash
  dsimp only at hfile ⊢
  rw [if_neg (not_not.mpr habs)]
  by_cases hfound : (path.drop 1).findIdx (· = 0x2F) + 1 < path.length
  · rw [if_pos hfound] at hfile
    simp only [hfound, true_and, if_true]
    rw [Option.getD_some] at hfile
    generalize (path.drop 1).findIdx (· = 0x2F) + 1 = preal at hfound hfile ⊢
    by_cases hone : preal = 1
    · rw [if_pos (.inr hone), if_pos hone]
      rfl
    by_cases hlong : DM_MAX_DEV_NAME < preal
    · -- no registered name is that long
      have hnone : t.search (path.take preal) = t.dmNumDevs := by
        refine h.search_eq_iff.mpr fun d hd => ?_
        obtain ⟨e, rfl, hname⟩ := h.devices d hd
        by_contra hnamed
        rw [Bool.not_eq_false] at hnamed
        have hlength := congrArg List.length (strcasecmpEq_iff.mp hnamed)
        rw [List.length_map, List.length_map, List.length_take,
          Nat.min_eq_left (Nat.le_of_lt hfound)] at hlength
        have hshort : ¬ DM_MAX_DEV_NAME < e.name.length := by
          intro hlt
          rw [invalidName, decide_eq_true (Or.inr hlt)] at hname
          cases hname
        exact hshort (hlength ▸ hlong)
      rw [if_pos (.inl hlong), if_neg hone, Option.bind_some, if_pos hnone]
      rfl
    · rw [if_neg (not_or.mpr ⟨hlong, hone⟩), if_neg hone, Option.bind_some]
      by_cases hnone : t.search (path.take preal) = t.dmNumDevs
      · rw [if_pos hnone, if_pos hnone]
        rfl
      · rw [if_neg hnone, if_neg hnone, if_neg hfile]
        rfl
  · rw [if_neg hfound] at hfile
    simp only [hfound, false_and, if_false, Option.bind_some]
    rw [Option.getD_none] at hfile
    by_cases hnone : t.search [0x2F] = t.dmNumDevs
    · rw [if_pos hnone, if_pos hnone]
      rfl
    · rw [if_neg hnone, if_neg hnone, if_neg hfile]
      rfl

/-- Registered names are not empty. -/
theorem Filled.nameLength_pos (h : Filled t) {d : Option (Device φ)}
    (hd : d ∈ t.dmList.take t.dmNumDevs) : 0 < nameLength d := by
  obtain ⟨e, rfl, hname⟩ := h.devices d hd
  change 0 < e.name.length
  rw [List.length_pos_iff]
  intro hnil
  rw [invalidName, hnil] at hname
  cases hname

/-- The device of `dm_opendir` is the first of those with the longest name. -/
theorem dmDeviceIdFromName_cases (h : Filled t) (name : List UInt8) :
    ((dmDeviceIdFromName t name).map Prod.fst = none ∧
      ∀ d ∈ t.dmList.take t.dmNumDevs, prefixed name d = false) ∨
    ∃ before d after, t.dmList.take t.dmNumDevs = before ++ d :: after ∧ prefixed name d = true ∧
      (dmDeviceIdFromName t name).map Prod.fst = some before.length ∧
      (∀ c ∈ before, prefixed name c = true → nameLength c < nameLength d) ∧
      ∀ c ∈ t.dmList.take t.dmNumDevs, prefixed name c = true → nameLength c ≤ nameLength d := by
  unfold dmDeviceIdFromName
  rcases longestMatch_cases name (t.dmList.take t.dmNumDevs) 0 0 0 with ⟨heq, hnone⟩ |
    ⟨before, d, after, hslots, hd, hpos, heq, hbefore, hafter⟩
  · refine .inl ⟨?_, fun d hd => ?_⟩
    · rw [heq]
      rfl
    · by_contra hprefixed
      exact absurd (hnone d hd (Bool.not_eq_false _ ▸ hprefixed))
        (Nat.not_le_of_lt (h.nameLength_pos hd))
  · refine .inr ⟨before, d, after, hslots, hd, ?_, hbefore, fun c hc hprefixed => ?_⟩
    · rw [heq, Nat.zero_add]
      dsimp only
      rw [if_neg (Nat.ne_of_gt hpos)]
      rfl
    · rw [hslots] at hc
      rcases List.mem_append.mp hc with hc | hc
      · exact Nat.le_of_lt (hbefore c hc hprefixed)
      · rcases List.mem_cons.mp hc with rfl | hc
        · exact Nat.le_refl _
        · exact hafter c hc hprefixed

/-! ## When they agree -/

theorem Filled.resolvers_iff {t : Table Functions} (h : Filled t) (habs : path.head? = some 0x2F)
    (hfile : filePart path ≠ []) :
    (dmDeviceIdFromName t path).map Prod.fst = (findDmEntry t (some path)).map Prod.fst ↔
      LongestIsDevice t path := by
  rw [findDmEntry_eq h habs hfile]
  rcases dmDeviceIdFromName_cases h path with ⟨hid, hnone⟩ |
    ⟨before, d, after, hslots, hd, hid, hbefore, hlongest⟩
  · rw [hid]
    refine iff_of_true ?_ fun d hmem hprefixed =>
      absurd hprefixed (Bool.eq_false_iff.mp (hnone (some d) hmem))
    cases hpart : devicePart path with
    | none => rfl
    | some part =>
        have hsearch : t.search part = t.dmNumDevs := by
          refine h.search_eq_iff.mpr fun d hmem => ?_
          by_contra hnamed
          have hprefixed := (prefixed_of_named (take_devicePart habs hpart).1
            (Bool.not_eq_false _ ▸ hnamed)).1
          exact Bool.eq_false_iff.mp (hnone d hmem) hprefixed
        rw [Option.bind_some, if_pos hsearch]
  · have hdmem : d ∈ t.dmList.take t.dmNumDevs := by
      rw [hslots]
      exact List.mem_append_right _ List.mem_cons_self
    rw [hid]
    constructor
    · intro hsame c hmem hprefixed
      cases hpart : devicePart path with
      | none =>
          rw [hpart] at hsame
          cases hsame
      | some part =>
          rw [hpart, Option.bind_some] at hsame
          split at hsame
          · cases hsame
          rename_i hfound
          obtain ⟨e, rfl, -⟩ := h.devices d hdmem
          refine ⟨part, e, rfl, hdmem, ?_, hlongest (some c) hmem hprefixed⟩
          -- the entry that the search has stopped at
          have hlt : t.search part < (t.dmList.take t.dmNumDevs).length :=
            Nat.lt_of_le_of_ne List.findIdx_le_length (h.length_take.symm ▸ hfound)
          have hnamed : named part ((t.dmList.take t.dmNumDevs).get ⟨_, hlt⟩) = true :=
            List.findIdx_getElem
          have hget : (t.dmList.take t.dmNumDevs)[t.search part]? = some (some e) := by
            rw [← Option.some.inj hsame, hslots, List.getElem?_append_right (Nat.le_refl _),
              Nat.sub_self]
            rfl
          rw [List.getElem?_eq_getElem hlt] at hget
          rwa [List.get_eq_getElem, Option.some.inj hget] at hnamed
    · intro hok
      obtain ⟨c, rfl, -⟩ := h.devices d hdmem
      obtain ⟨part, e, hpart, hmem, hnamed, hle⟩ := hok c hdmem hd
      have htake := (take_devicePart habs hpart).1
      obtain ⟨hprefixed, hlength⟩ := @prefixed_of_named Functions path part (some e) htake hnamed
      have hsame : nameLength (some c) = part.length :=
        hlength ▸ Nat.le_antisymm hle (hlongest (some e) hmem hprefixed)
      have hfirst : t.search part = before.length := by
        refine search_append hslots (named_of_prefixed htake hsame hd) fun b hb => ?_
        by_contra hnamedb
        obtain ⟨hprefixedb, hlengthb⟩ :=
          prefixed_of_named htake (Bool.not_eq_false _ ▸ hnamedb)
        have hlt := hbefore b hb hprefixedb
        omega
      have hlt : before.length < t.dmNumDevs := by
        have hlen := congrArg List.length hslots
        rw [h.length_take, List.length_append, List.length_cons] at hlen
        omega
      rw [hpart, Option.bind_some, hfirst, if_neg (Nat.ne_of_lt hlt)]

/-- **Two resolvers.**  Whatever devices are registered, `dm_device_id_from_name` and
`find_dm_entry` select the same device for an absolute path with a file or directory part exactly
if no registered name that the path begins with is longer than the device part, or is there
without it. -/
theorem resolvers_agree_iff {calls : List (Call Functions)} {s : System Functions}
    (hrun : Transition.run step System.init calls = some s) {path : List UInt8}
    (habs : path.head? = some 0x2F) (hfile : filePart path ≠ []) :
    (dmDeviceIdFromName s.table path).map Prod.fst =
        (findDmEntry s.table (some path)).map Prod.fst ↔ LongestIsDevice s.table path :=
  (filled_of_run hrun).resolvers_iff habs hfile

/-- The devices "/r" and "/rom". -/
def romDevices : List (Call Functions) :=
  [.register (some ⟨[0x2F, 0x72], ⟨true, []⟩⟩),
    .register (some ⟨[0x2F, 0x72, 0x6F, 0x6D], ⟨true, []⟩⟩)]

/-- The path "/ROM/a". -/
theorem resolvers_agree_rom :
    ∃ s, Transition.run step System.init romDevices = some s ∧
      ((dmDeviceIdFromName s.table [0x2F, 0x52, 0x4F, 0x4D, 0x2F, 0x61]).map Prod.fst =
          (findDmEntry s.table (some [0x2F, 0x52, 0x4F, 0x4D, 0x2F, 0x61])).map Prod.fst ↔
        LongestIsDevice s.table [0x2F, 0x52, 0x4F, 0x4D, 0x2F, 0x61]) :=
  ⟨_, rfl, @resolvers_agree_iff romDevices _ rfl _ (by decide) (by decide)⟩

/-- The path "/romx/a" is one of the device "/rom" for `dm_opendir`, and of none for `_open_r`. -/
theorem resolvers_disagree :
    ¬ ∀ (calls : List (Call Functions)) (s : System Functions) (path : List UInt8),
      Transition.run step System.init calls = some s → path.head? = some 0x2F →
      filePart path ≠ [] →
      (dmDeviceIdFromName s.table path).map Prod.fst =
        (findDmEntry s.table (some path)).map Prod.fst := by
  intro hall
  have hsame := hall romDevices _ [0x2F, 0x72, 0x6F, 0x6D, 0x78, 0x2F, 0x61] rfl rfl (by decide)
  exact absurd hsame (by decide)

end Devman
