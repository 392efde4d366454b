import EluaWebServer.Lib.Buffer
import EluaWebServer.Lib.CaseFold
import EluaWebServer.Lib.Transition

/-!
# The device table

`dm_list` holds pointers to devices, of which the first `dm_num_devs` are in
use.  A device is what the table stores: its name, up to the terminator, and
its functions.  Next to the table runs the list of the devices that were
registered and not unregistered since, which only sees the calls and what they
return.
-/

namespace Devman

open CaseFold

def DM_MAX_DEVICES : Nat := 16
def DM_MAX_DEV_NAME : Nat := 12

def DM_ERR_ALREADY_REGISTERED : Int := -1
def DM_ERR_NOT_REGISTERED : Int := -2
def DM_ERR_NO_SPACE : Int := -3
def DM_ERR_INVALID_NAME : Int := -4
def DM_OK : Int := 0

/-- The device's name and functions. -/
structure Device (φ : Type) where
  name : List UInt8
  functions : φ
  deriving DecidableEq, Repr

/-- `dm_list` and `dm_num_devs`; an entry that was never set is null. -/
structure Table (φ : Type) where
  dmList : List (Option (Device φ))
  dmNumDevs : Nat
  deriving DecidableEq, Repr

variable {φ : Type}

def Table.init : Table φ := ⟨List.replicate DM_MAX_DEVICES none, 0⟩

/-- `!strcasecmp( name, dm_list[ i ]->name )`. -/
def named (name : List UInt8) (d : Option (Device φ)) : Bool :=
  d.any fun d => strcasecmpEq name d.name

/-- Where the loops over the registered devices stop: at the first one with
this name, or behind the last one. -/
def Table.search (t : Table φ) (name : List UInt8) : Nat :=
  (t.dmList.take t.dmNumDevs).findIdx (named name)

/-- The first character of the name must be '/'. -/
def invalidName (name : List UInt8) : Bool :=
  name.head? ≠ some 0x2F ∨ DM_MAX_DEV_NAME < name.length

/-- Register a device.  Returns the index of the device in the device table. -/
def dmRegister (t : Table φ) : Option (Device φ) → Table φ × Int
  | none => (t, DM_ERR_INVALID_NAME)
  | some pdev =>
      if invalidName pdev.name then (t, DM_ERR_INVALID_NAME)
      else if t.search pdev.name < t.dmNumDevs then (t, DM_ERR_ALREADY_REGISTERED)
      else if t.dmNumDevs = DM_MAX_DEVICES then (t, DM_ERR_NO_SPACE)
      else
        (⟨t.dmList.set t.dmNumDevs (some pdev), t.dmNumDevs + 1⟩, t.dmNumDevs)

/-- Unregister a device. -/
def dmUnregister (t : Table φ) : Option (List UInt8) → Table φ × Int
  | none => (t, DM_ERR_INVALID_NAME)
  | some name =>
      if invalidName name then (t, DM_ERR_INVALID_NAME)
      else
        let i := t.search name
        if i = t.dmNumDevs then (t, DM_ERR_NOT_REGISTERED)
        else
          -- memmove of a single pointer
          let dmList := if i ≠ t.dmNumDevs - 1 then
            Buffer.splice t.dmList i (Buffer.slice t.dmList (i + 1) 1) else t.dmList
          (⟨dmList, t.dmNumDevs - 1⟩, DM_OK)

/-- Get a device entry. -/
def dmGetDeviceAt (t : Table φ) (idx : Int) : Option (Device φ) :=
  if idx < 0 ∨ t.dmNumDevs ≤ idx then none else (t.dmList[idx.toNat]?).join

/-- Returns the number of registered devices. -/
def dmGetNumDevices (t : Table φ) : Nat := t.dmNumDevs

/-! ## Calls -/

inductive Call (φ : Type) where
  | register (pdev : Option (Device φ))
  | unregister (name : Option (List UInt8))

def call (t : Table φ) : Call φ → Table φ × Int
  | .register pdev => dmRegister t pdev
  | .unregister name => dmUnregister t name

/-- The table, and the devices registered and not since unregistered. -/
structure System (φ : Type) where
  table : Table φ
  registered : List (Device φ)

def System.init : System φ := ⟨.init, []⟩

/-- What a successful call means for the list. -/
def record (registered : List (Device φ)) : Call φ → List (Device φ)
  | .register pdev => registered ++ pdev.toList
  | .unregister name => registered.filter fun d => !(name.any (strcasecmpEq · d.name))

def step (s : System φ) (c : Call φ) : Option (System φ) :=
  let (table, result) := call s.table c
  some ⟨table, if 0 ≤ result then record s.registered c else s.registered⟩

/-- The table holds exactly the registered devices. -/
structure Holds (t : Table φ) (registered : List (Device φ)) : Prop where
  entries : t.dmList.take t.dmNumDevs = registered.map some
  distinct : registered.Pairwise fun d e => strcasecmpEq d.name e.name = false
  deviceAt : ∀ idx : Int,
    dmGetDeviceAt t idx = if idx < 0 then none else registered[idx.toNat]?
  numDevices : dmGetNumDevices t = registered.length

/-- What holds after every call. -/
def System.Ok (s : System φ) : Prop :=
  Holds s.table s.registered ∧ ∀ c, (call s.table c).2 < 0 → (call s.table c).1 = s.table

/-- A device is unregistered only when at most one device was registered after
it. -/
def CallOk (s : System φ) : Call φ → Prop
  | .register _ => True
  | .unregister name =>
      s.registered.length ≤ s.registered.findIdx (fun d => name.any (strcasecmpEq · d.name)) + 2

instance (s : System φ) : (c : Call φ) → Decidable (CallOk s c)
  | .register _ => inferInstanceAs (Decidable True)
  | .unregister _ => inferInstanceAs (Decidable (_ ≤ _))

/-! ## The invariant -/

/-- The slots of the table and the registered devices in the first of them. -/
structure Inv (s : System φ) : Prop where
  length : s.table.dmList.length = DM_MAX_DEVICES
  num : s.table.dmNumDevs = s.registered.length
  fits : s.registered.length ≤ DM_MAX_DEVICES
  entries : s.table.dmList.take s.registered.length = s.registered.map some
  distinct : s.registered.Pairwise fun d e => strcasecmpEq d.name e.name = false

/-- What `dm_register` can do. -/
theorem dmRegister_cases (t : Table φ) (pdev : Option (Device φ)) :
    (∃ err : Int, err < 0 ∧ dmRegister t pdev = (t, err)) ∨
      ∃ d, pdev = some d ∧ invalidName d.name = false ∧ ¬ t.search d.name < t.dmNumDevs ∧
        t.dmNumDevs ≠ DM_MAX_DEVICES ∧ dmRegister t pdev =
          (Table.mk (t.dmList.set t.dmNumDevs (some d)) (t.dmNumDevs + 1),
            (t.dmNumDevs : Int)) := by
  cases pdev with
  | none => exact .inl ⟨DM_ERR_INVALID_NAME, by decide, rfl⟩
  | some d =>
      by_cases hname : invalidName d.name = true
      · exact .inl ⟨DM_ERR_INVALID_NAME, by decide, by rw [dmRegister, if_pos hname]⟩
      by_cases hold : t.search d.name < t.dmNumDevs
      · exact .inl ⟨DM_ERR_ALREADY_REGISTERED, by decide,
          by rw [dmRegister, if_neg hname, if_pos hold]⟩
      by_cases hfull : t.dmNumDevs = DM_MAX_DEVICES
      · exact .inl ⟨DM_ERR_NO_SPACE, by decide,
          by rw [dmRegister, if_neg hname, if_neg hold, if_pos hfull]⟩
      · exact .inr ⟨d, rfl, Bool.eq_false_iff.mpr hname, hold, hfull,
          by rw [dmRegister, if_neg hname, if_neg hold, if_neg hfull]⟩

/-- What `dm_unregister` can do. -/
theorem dmUnregister_cases (t : Table φ) (name : Option (List UInt8)) :
    (∃ err : Int, err < 0 ∧ dmUnregister t name = (t, err)) ∨
      ∃ chars, name = some chars ∧ t.search chars ≠ t.dmNumDevs ∧
        dmUnregister t name =
          (Table.mk (if t.search chars ≠ t.dmNumDevs - 1 then
              Buffer.splice t.dmList (t.search chars) (Buffer.slice t.dmList (t.search chars + 1) 1)
            else t.dmList) (t.dmNumDevs - 1), DM_OK) := by
  cases name with
  | none => exact .inl ⟨DM_ERR_INVALID_NAME, by decide, rfl⟩
  | some chars =>
      by_cases hname : invalidName chars = true
      · exact .inl ⟨DM_ERR_INVALID_NAME, by decide, by rw [dmUnregister, if_pos hname]⟩
      by_cases hnone : t.search chars = t.dmNumDevs
      · exact .inl ⟨DM_ERR_NOT_REGISTERED, by decide,
          by simp only [dmUnregister, if_neg hname, if_pos hnone]⟩
      · exact .inr ⟨chars, rfl, hnone, by simp only [dmUnregister, if_neg hname, if_neg hnone]⟩

/-- An error leaves the table unchanged. -/
theorem call_error (t : Table φ) (c : Call φ) (h : (call t c).2 < 0) : (call t c).1 = t := by
  cases c with
  | register pdev =>
      rcases dmRegister_cases t pdev with ⟨err, -, hcall⟩ | ⟨d, -, -, -, -, hcall⟩
      · rw [call, hcall]
      · rw [call, hcall] at h
        exact absurd h (Int.not_lt.mpr (Int.natCast_nonneg _))
  | unregister name =>
      rcases dmUnregister_cases t name with ⟨err, -, hcall⟩ | ⟨chars, -, -, hcall⟩
      · rw [call, hcall]
      · rw [call, hcall] at h
        exact absurd h (Int.lt_irrefl 0)

theorem Inv.ok {s : System φ} (h : Inv s) : s.Ok := by
  refine ⟨⟨?_, h.distinct, fun idx => ?_, h.num⟩, call_error s.table⟩
  · rw [h.num]
    exact h.entries
  · unfold dmGetDeviceAt
    by_cases hneg : idx < 0
    · rw [if_pos (.inl hneg), if_pos hneg]
    rw [if_neg hneg, h.num]
    by_cases hbeyond : (s.registered.length : Int) ≤ idx
    · rw [if_pos (.inr hbeyond), List.getElem?_eq_none (by omega)]
    · rw [if_neg (by omega)]
      have hlt : idx.toNat < s.registered.length := by omega
      have hget := congrArg (·[idx.toNat]?) h.entries
      simp only [List.getElem?_take_of_lt hlt, List.getElem?_map] at hget
      rw [hget, List.getElem?_eq_getElem hlt]
      rfl

theorem inv_init : Inv (System.init : System φ) :=
  ⟨List.length_replicate, rfl, Nat.zero_le _, rfl, .nil⟩

/-- The loops find the device as the list has it. -/
theorem Inv.search {s : System φ} (h : Inv s) (name : List UInt8) :
    s.table.search name = s.registered.findIdx fun d => strcasecmpEq name d.name := by
  rw [Table.search, h.num, h.entries, List.findIdx_map]
  rfl

/-- A failed call changes neither the table nor the list. -/
theorem step_of_error {s : System φ} {c : Call φ} {err : Int} (herr : err < 0)
    (hcall : call s.table c = (s.table, err)) : step s c = some s := by
  simp only [step, hcall, if_neg (Int.not_le.mpr herr)]

theorem inv_register {s s' : System φ} (h : Inv s) (pdev : Option (Device φ))
    (hstep : step s (.register pdev) = some s') : Inv s' := by
  rcases dmRegister_cases s.table pdev with ⟨err, herr, hcall⟩ | ⟨d, rfl, -, hnew, hspace, hcall⟩
  · rw [step_of_error (c := .register pdev) herr hcall, Option.some.injEq] at hstep
    exact hstep ▸ h
  · simp only [step, call, hcall, if_pos (Int.natCast_nonneg s.table.dmNumDevs), record,
      Option.toList_some, Option.some.injEq] at hstep
    subst hstep
    obtain ⟨hlength, hnum, hfits, hentries, hdistinct⟩ := h
    have hsearch := (Inv.search ⟨hlength, hnum, hfits, hentries, hdistinct⟩ d.name)
    have hroom : s.registered.length < s.table.dmList.length := by omega
    refine ⟨?_, ?_, ?_, ?_, ?_⟩
    · rw [List.length_set]
      exact hlength
    · rw [List.length_append, List.length_singleton, hnum]
    · rw [List.length_append, List.length_singleton]
      omega
    · have hlast : s.registered.length < (s.table.dmList.set s.registered.length (some d)).length := by
        rw [List.length_set]
        exact hroom
      rw [List.length_append, List.length_singleton, List.map_append, hnum,
        List.take_succ_eq_append_getElem hlast, List.take_set_of_le (Nat.le_refl _), hentries,
        List.getElem_set_self]
      rfl
    · -- the name is new
      refine List.pairwise_append.mpr ⟨hdistinct, List.pairwise_singleton _ _, ?_⟩
      intro e he f hf
      rw [List.mem_singleton.mp hf]
      by_contra hsame
      rw [Bool.not_eq_false] at hsame
      rw [hsearch, hnum, List.findIdx_lt_length] at hnew
      exact hnew ⟨e, he, strcasecmpEq_symm hsame⟩

/-- The device that a name finds, and the list without it. -/
theorem split_at_name {registered : List (Device φ)} {name : List UInt8}
    (hdistinct : registered.Pairwise fun d e => strcasecmpEq d.name e.name = false)
    (hfound : registered.findIdx (fun d => strcasecmpEq name d.name) < registered.length) :
    ∃ pre d post, registered = pre ++ d :: post ∧
      registered.findIdx (fun d => strcasecmpEq name d.name) = pre.length ∧
      registered.filter (fun d => !strcasecmpEq name d.name) = pre ++ post := by
  induction registered with
  | nil => exact absurd hfound (Nat.not_lt_zero _)
  | cons d rest ih =>
      obtain ⟨hd, hrest⟩ := List.pairwise_cons.mp hdistinct
      by_cases hname : strcasecmpEq name d.name = true
      · refine ⟨[], d, rest, rfl, by simp [List.findIdx_cons, hname], ?_⟩
        rw [List.filter_cons_of_neg (by simp [hname]), List.nil_append]
        refine List.filter_eq_self.mpr fun e he => ?_
        rw [Bool.not_eq_true', ← Bool.not_eq_true]
        intro hsame
        have hde := hd e he
        rw [strcasecmpEq_trans (strcasecmpEq_symm hname) hsame] at hde
        cases hde
      · rw [Bool.not_eq_true] at hname
        simp only [List.findIdx_cons, hname, cond_false, List.length_cons,
          Nat.add_lt_add_iff_right] at hfound
        obtain ⟨pre, c, post, rfl, hidx, hfilter⟩ := ih hrest hfound
        refine ⟨d :: pre, c, post, rfl, ?_, ?_⟩
        · simp only [List.findIdx_cons, hname, cond_false, hidx, List.length_cons]
        · rw [List.filter_cons_of_pos (by simp [hname]), hfilter, List.cons_append]

/-- The slots after the pointer to `d` was removed, with one more pointer
behind it at most. -/
theorem take_removed {slots : List (Option (Device φ))} {pre post : List (Device φ)}
    {d : Device φ} (hpost : post.length ≤ 1)
    (h : slots.take (pre.length + post.length + 1) = (pre ++ d :: post).map some) :
    (if pre.length ≠ pre.length + post.length then
        Buffer.splice slots pre.length (Buffer.slice slots (pre.length + 1) 1)
      else slots).take (pre.length + post.length) = (pre ++ post).map some := by
  have hslots : slots = (pre ++ d :: post).map some ++ slots.drop (pre.length + post.length + 1) := by
    rw [← h, List.take_append_drop]
  generalize slots.drop (pre.length + post.length + 1) = rest at hslots
  subst hslots
  match post, hpost with
  | [], _ => simp
  | [e], _ =>
      rw [if_pos (by simp)]
      simp [Buffer.splice, Buffer.slice, List.take_append, List.drop_append,
        List.take_of_length_le, List.drop_eq_nil_of_le]

theorem inv_unregister {s s' : System φ} (h : Inv s) (name : Option (List UInt8))
    (hok : CallOk s (.unregister name)) (hstep : step s (.unregister name) = some s') :
    Inv s' := by
  rcases dmUnregister_cases s.table name with ⟨err, herr, hcall⟩ | ⟨chars, rfl, hold, hcall⟩
  · rw [step_of_error (c := .unregister name) herr hcall, Option.some.injEq] at hstep
    exact hstep ▸ h
  · have hsearch := h.search chars
    obtain ⟨hlength, hnum, hfits, hentries, hdistinct⟩ := h
    have hle : s.registered.findIdx (fun d => strcasecmpEq chars d.name) ≤ s.registered.length :=
      List.findIdx_le_length
    obtain ⟨pre, d, post, hsplit, hidx, hfilter⟩ := split_at_name hdistinct
      (Nat.lt_of_le_of_ne hle fun heq => hold (hsearch.trans (heq.trans hnum.symm)))
    have hlen : s.registered.length = pre.length + post.length + 1 := by
      rw [hsplit, List.length_append, List.length_cons]
      omega
    have hpost : post.length ≤ 1 := by
      have hlast : s.registered.length ≤
          s.registered.findIdx (fun d => strcasecmpEq chars d.name) + 2 := hok
      omega
    have hsub : (pre ++ post).Sublist s.registered := by
      rw [hsplit]
      exact (List.Sublist.refl _).append (List.sublist_cons_self d post)
    simp only [step, call, hcall, record, Option.any_some, DM_OK, Int.le_refl, if_true,
      hsearch, hidx, hnum, hlen, Nat.add_sub_cancel, Option.some.injEq] at hstep
    rw [hfilter] at hstep
    subst hstep
    rw [hlen, hsplit] at hentries
    refine ⟨?_, ?_, Nat.le_trans hsub.length_le hfits, ?_, hdistinct.sublist hsub⟩
    · by_cases hmove : pre.length ≠ pre.length + post.length
      · rw [if_pos hmove]
        refine (Buffer.splice_length ?_).trans hlength
        rw [Buffer.slice, List.length_take, List.length_drop]
        omega
      · rw [if_neg hmove]
        exact hlength
    · exact List.length_append.symm
    · rw [List.length_append]
      exact take_removed hpost hentries

theorem inv_step {s s' : System φ} {c : Call φ} (h : Inv s) (hok : CallOk s c)
    (hstep : step s c = some s') : Inv s' := by
  cases c with
  | register pdev => exact inv_register h pdev hstep
  | unregister name => exact inv_unregister h name hok hstep

/-- **The device table.**  As long as a device is unregistered only with at
most one device behind it, the table holds exactly the registered devices in
order, and errors leave it unchanged. -/
theorem dm_table_ok {calls : List (Call φ)} {s : System φ}
    (hok : Transition.Conforming step CallOk (System.init : System φ) calls)
    (hrun : Transition.run step System.init calls = some s) : s.Ok :=
  (Transition.invariant_of_run (fun _ _ _ => inv_step) inv_init hok hrun).ok

/-- The names "/a", "/b" and "/c". -/
def device (letter : UInt8) : Device Unit := ⟨[0x2F, letter], ()⟩

/-- Three devices, of which the second one is removed. -/
theorem dm_table_ok_second_of_three :
    (System.mk ⟨[some (device 0x61), some (device 0x63), some (device 0x63)] ++
      List.replicate 13 none, 2⟩ [device 0x61, device 0x63]).Ok :=
  @dm_table_ok _ [.register (some (device 0x61)), .register (some (device 0x62)),
    .register (some (device 0x63)), .unregister (some [0x2F, 0x62])] _ (by decide) rfl

/-- Removing the first of three devices loses the third one. -/
theorem dm_table_not_ok :
    ¬ ∀ (calls : List (Call Unit)) (s : System Unit),
      Transition.run step System.init calls = some s → s.Ok := by
  intro h
  have hok := h [.register (some (device 0x61)), .register (some (device 0x62)),
    .register (some (device 0x63)), .unregister (some [0x2F, 0x61])] _ rfl
  exact absurd hok.1.entries (by decide)

end Devman
