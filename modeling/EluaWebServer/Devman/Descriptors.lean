import EluaWebServer.Devman.Table
import Mathlib.Algebra.Ring.Int.Defs
import Mathlib.Algebra.Ring.Nat

/-!
# Descriptors

The stubs of Newlib find a device by name when a file is opened, pack its index
in the table and its own descriptor into one number, and unpack this number in
every later operation.  Next to the table runs the list of the open files, which
only sees the calls and what they return.
-/

namespace Devman

open CaseFold

def DM_MAX_DEVICES_BITS : Nat := 4

/-- The bits below the index of the device. -/
def DM_FD_BITS : Nat := 15 - DM_MAX_DEVICES_BITS

/-- `DM_MAKE_DESC`. -/
def dmMakeDesc (devid fd : Nat) : Int := ((devid <<< DM_FD_BITS ||| fd : Nat) : Int)

/-- `DM_GET_DEVID`, an arithmetic shift. -/
def dmGetDevid (desc : Int) : Int := desc / 2 ^ DM_FD_BITS

/-- `DM_GET_FD`, a mask. -/
def dmGetFd (desc : Int) : Int := desc % 2 ^ DM_FD_BITS

/-- The operations on descriptors. -/
inductive Op where
  | close
  | read
  | write
  | lseek
  deriving DecidableEq, Repr

/-- The functions of a device that are not null. -/
structure Functions where
  opens : Bool
  provided : List Op
  deriving DecidableEq, Repr

abbrev FileDevice := Device Functions

/-- The index of the device of a name, and the actual file name. -/
def findDmEntry (t : Table Functions) : Option (List UInt8) → Option (Nat × List UInt8)
  | none => none
  | some name =>
      if name.head? ≠ some 0x2F then none
      else
        -- strchr( name + 1, '/' )
        let preal := (name.drop 1).findIdx (· = 0x2F) + 1
        let found := preal < name.length
        if found ∧ (DM_MAX_DEV_NAME < preal ∨ preal = 1) then none
        else
          let tempname := if found then name.take preal else [0x2F]
          let i := t.search tempname
          let actname := name.drop ((if found then preal else 0) + 1)
          if i = t.dmNumDevs then none
          else if actname = [] then none
          else some (i, actname)

/-- `_open_r`: what it returns, and the device that has opened the file.  The
answer is what `p_open_r` returns. -/
def openR (t : Table Functions) (name : Option (List UInt8)) (answer : Int) :
    Int × Option FileDevice :=
  match findDmEntry t name with
  | none => (-1, none)
  | some (devid, _) =>
      match dmGetDeviceAt t devid with
      | none => (-1, none)
      | some pdev =>
          if pdev.functions.opens then
            if answer < 0 then (answer, none) else (dmMakeDesc devid answer.toNat, some pdev)
          else (-1, none)

/-- What an operation comes to. -/
inductive Outcome where
  /-- The function of a device is called with the device's own descriptor. -/
  | called (pdev : FileDevice) (op : Op) (fd : Int)
  /-- `ENOSYS`. -/
  | notProvided
  /-- The entry of the table is null. -/
  | fault
  deriving DecidableEq

/-- An operation of a device. -/
def request (pdev : FileDevice) (op : Op) (fd : Int) : Outcome :=
  if op ∈ pdev.functions.provided then .called pdev op fd else .notProvided

/-- The device and its descriptor that a descriptor stands for. -/
def route (t : Table Functions) (file : Int) : Option (FileDevice × Int) :=
  (dmGetDeviceAt t (dmGetDevid file)).map fun pdev => (pdev, dmGetFd file)

/-- `_close_r`, `_read_r`, `_write_r` and `_lseek_r`. -/
def operate (t : Table Functions) (op : Op) (file : Int) : Outcome :=
  match route t file with
  | none => .fault
  | some (pdev, fd) => request pdev op fd

/-! ## Runs -/

/-- An open file: its descriptor, and the device that has opened it with the
device's own descriptor. -/
structure Handle where
  desc : Int
  device : FileDevice
  fd : Int
  deriving DecidableEq

structure Files where
  table : Table Functions
  handles : List Handle
  deriving DecidableEq

def Files.init : Files := ⟨.init, []⟩

inductive Event where
  | register (pdev : Option FileDevice)
  | unregister (name : Option (List UInt8))
  | openR (name : Option (List UInt8)) (answer : Int)
  | operate (op : Op) (file : Int)

/-- The file that is open after a call of `_open_r`. -/
def opened (t : Table Functions) (name : Option (List UInt8)) (answer : Int) : Option Handle :=
  (openR t name answer).2.map fun pdev => ⟨(openR t name answer).1, pdev, answer⟩

/-- The files of a device are gone with it. -/
def Files.step (s : Files) : Event → Option Files
  | .register pdev => some { s with table := (dmRegister s.table pdev).1 }
  | .unregister name =>
      some
        { table := (dmUnregister s.table name).1
          handles :=
            if 0 ≤ (dmUnregister s.table name).2 then
              s.handles.filter fun h => !(name.any (strcasecmpEq · h.device.name))
            else s.handles }
  | .openR name answer =>
      some { s with handles := (opened s.table name answer).toList ++ s.handles }
  | .operate .close file => some { s with handles := s.handles.filter fun h => h.desc ≠ file }
  | .operate _ _ => some s

/-- Every operation on an open file reaches the device that opened it, with the
device's own descriptor. -/
def Files.Ok (s : Files) : Prop :=
  ∀ h ∈ s.handles, route s.table h.desc = some (h.device, h.fd) ∧
    ∀ op, operate s.table op h.desc = request h.device op h.fd

/-- The device's own descriptor fits its bits, and a device other than the last
one in the table is unregistered only when the last one has no other open
files. -/
def EventOk (s : Files) : Event → Prop
  | .openR name answer => ∀ h ∈ opened s.table name answer, answer < 2 ^ DM_FD_BITS
  | .unregister (some name) =>
      invalidName name = false → s.table.search name + 1 < s.table.dmNumDevs →
        ∀ h ∈ s.handles, strcasecmpEq name h.device.name = false →
          dmGetDevid h.desc + 1 ≠ s.table.dmNumDevs
  | _ => True

instance (s : Files) : (e : Event) → Decidable (EventOk s e)
  | .openR _ _ => inferInstanceAs (Decidable (∀ _ ∈ _, _))
  | .unregister (some _) => inferInstanceAs (Decidable (_ → _ → ∀ _ ∈ _, _ → _))
  | .unregister none => inferInstanceAs (Decidable True)
  | .register _ => inferInstanceAs (Decidable True)
  | .operate _ _ => inferInstanceAs (Decidable True)

/-! ## Packing -/

theorem dmMakeDesc_eq {fd : Nat} (h : fd < 2 ^ DM_FD_BITS) (devid : Nat) :
    dmMakeDesc devid fd = ((devid * 2 ^ DM_FD_BITS + fd : Nat) : Int) := by
  rw [dmMakeDesc, ← Nat.shiftLeft_add_eq_or_of_lt h, Nat.shiftLeft_eq]

/-- A descriptor with room for the device's own one is unpacked to what it was
made from. -/
theorem unpack_dmMakeDesc {fd : Nat} (h : fd < 2 ^ DM_FD_BITS) (devid : Nat) :
    dmGetDevid (dmMakeDesc devid fd) = devid ∧ dmGetFd (dmMakeDesc devid fd) = fd := by
  rw [dmMakeDesc_eq h, dmGetDevid, dmGetFd]
  change fd < 2048 at h
  change ((devid * 2048 + fd : Nat) : Int) / 2048 = devid ∧
    ((devid * 2048 + fd : Nat) : Int) % 2048 = fd
  omega

theorem dmGetFd_lt (desc : Int) : dmGetFd desc < 2 ^ DM_FD_BITS := by
  change desc % 2048 < 2048
  omega

/-! ## Routes -/

theorem operate_of_route {t : Table Functions} {file fd : Int} {pdev : FileDevice}
    (h : route t file = some (pdev, fd)) (op : Op) : operate t op file = request pdev op fd := by
  rw [operate, h]

/-- Routes alone decide. -/
theorem Files.ok_iff (s : Files) :
    s.Ok ↔ ∀ h ∈ s.handles, route s.table h.desc = some (h.device, h.fd) :=
  ⟨fun hok h hh => (hok h hh).1, fun hok h hh => ⟨hok h hh, operate_of_route (hok h hh)⟩⟩

/-- The entry of the table that a routed descriptor goes through. -/
theorem route_eq_some {t : Table Functions} {file fd : Int} {pdev : FileDevice} :
    route t file = some (pdev, fd) ↔
      0 ≤ dmGetDevid file ∧ dmGetDevid file < t.dmNumDevs ∧
        t.dmList[(dmGetDevid file).toNat]? = some (some pdev) ∧ dmGetFd file = fd := by
  unfold route dmGetDeviceAt
  by_cases h : dmGetDevid file < 0 ∨ t.dmNumDevs ≤ dmGetDevid file
  · rw [if_pos h, Option.map_none]
    exact iff_of_false nofun fun hroute => by omega
  · rw [if_neg h, Option.map_eq_some_iff]
    constructor
    · rintro ⟨d, hd, heq⟩
      obtain ⟨rfl, rfl⟩ := Prod.mk.inj heq
      exact ⟨by omega, by omega, Option.join_eq_some_iff.mp hd, rfl⟩
    · rintro ⟨-, -, hd, rfl⟩
      exact ⟨pdev, by rw [hd]; rfl, rfl⟩

/-- Registering a device moves no other one. -/
theorem route_register {t : Table Functions} {file : Int} {r : FileDevice × Int}
    (h : route t file = some r) (pdev : Option FileDevice) :
    route (dmRegister t pdev).1 file = some r := by
  rcases dmRegister_cases t pdev with ⟨err, -, hcall⟩ | ⟨d, -, -, -, -, hcall⟩
  · rw [hcall]
    exact h
  · obtain ⟨hlow, hhigh, hentry, hfd⟩ := route_eq_some.mp h
    rw [hcall]
    refine route_eq_some.mpr ⟨hlow, ?_, ?_, hfd⟩
    · change dmGetDevid file < ((t.dmNumDevs + 1 : Nat) : Int)
      omega
    · rw [List.getElem?_set_ne (by omega)]
      exact hentry

/-- The device that `_open_r` finds. -/
theorem openR_device {t : Table Functions} {name : Option (List UInt8)} {answer : Int}
    {h : Handle} (hopen : h ∈ opened t name answer) :
    ∃ devid : Nat, dmGetDeviceAt t devid = some h.device ∧ 0 ≤ answer ∧ h.fd = answer ∧
      h.desc = dmMakeDesc devid answer.toNat := by
  obtain ⟨d, hd, rfl⟩ := Option.map_eq_some_iff.mp hopen
  unfold openR at hd ⊢
  cases hentry : findDmEntry t name with
  | none =>
      rw [hentry] at hd
      cases hd
  | some entry =>
      obtain ⟨devid, actname⟩ := entry
      rw [hentry] at hd
      dsimp only at hd ⊢
      cases hdevice : dmGetDeviceAt t devid with
      | none =>
          rw [hdevice] at hd
          cases hd
      | some pdev =>
          rw [hdevice] at hd
          dsimp only at hd ⊢
          by_cases hopens : pdev.functions.opens = true
          · by_cases hneg : answer < 0
            · rw [if_pos hopens, if_pos hneg] at hd
              cases hd
            · rw [if_pos hopens, if_neg hneg] at hd ⊢
              exact ⟨devid, hdevice.trans hd, Int.not_lt.mp hneg, rfl, rfl⟩
          · rw [if_neg hopens] at hd
            cases hd

/-- A file is routed from its opening exactly if the device's own descriptor
fits. -/
theorem route_opened {t : Table Functions} {name : Option (List UInt8)} {answer : Int}
    {h : Handle} (hopen : h ∈ opened t name answer) :
    route t h.desc = some (h.device, h.fd) ↔ answer < 2 ^ DM_FD_BITS := by
  obtain ⟨devid, hdevice, hpos, hfd, hdesc⟩ := openR_device hopen
  constructor
  · intro hroute
    have hunpacked := (route_eq_some.mp hroute).2.2.2
    rw [← hfd, ← hunpacked]
    exact dmGetFd_lt h.desc
  · intro hlt
    have hfits : answer.toNat < 2 ^ DM_FD_BITS := by
      change answer < 2048 at hlt
      change answer.toNat < 2048
      omega
    obtain ⟨hdevid, hgetFd⟩ := unpack_dmMakeDesc hfits devid
    rw [route, hdesc, hdevid, hgetFd, hdevice, hfd, Int.toNat_of_nonneg hpos]
    rfl

/-! ## Unregistering -/

/-- The table has all its slots, and uses no more of them. -/
structure Sized (t : Table Functions) : Prop where
  length : t.dmList.length = DM_MAX_DEVICES
  num : t.dmNumDevs ≤ DM_MAX_DEVICES

theorem sized_register {t : Table Functions} (h : Sized t) (pdev : Option FileDevice) :
    Sized (dmRegister t pdev).1 := by
  rcases dmRegister_cases t pdev with ⟨err, -, hcall⟩ | ⟨d, -, -, -, hspace, hcall⟩
  · rw [hcall]
    exact h
  · rw [hcall]
    exact ⟨List.length_set.trans h.length, Nat.lt_of_le_of_ne h.num hspace⟩

/-- The search does not go beyond the registered devices, and stops before their
end only at a device with the name. -/
theorem search_found {t : Table Functions} (h : Sized t) {name : List UInt8}
    (hfound : t.search name ≠ t.dmNumDevs) :
    t.search name < t.dmNumDevs ∧
      ∃ e, t.dmList[t.search name]? = some e ∧ named name e = true := by
  have hlength : (t.dmList.take t.dmNumDevs).length = t.dmNumDevs := by
    rw [List.length_take, h.length]
    exact Nat.min_eq_left h.num
  have hlt : t.search name < (t.dmList.take t.dmNumDevs).length :=
    Nat.lt_of_le_of_ne List.findIdx_le_length fun heq => hfound (heq.trans hlength)
  have hnamed : named name ((t.dmList.take t.dmNumDevs).get ⟨_, hlt⟩) = true :=
    List.findIdx_getElem
  have hentry := List.getElem?_eq_getElem hlt
  have hhead : t.search name < t.dmNumDevs := hlength ▸ hlt
  rw [List.getElem?_take_of_lt hhead] at hentry
  exact ⟨hhead, _, hentry, hnamed⟩

/-- The slots after the pointer behind the removed one was moved. -/
theorem slots_unregister {t : Table Functions} (h : Sized t) {i : Nat}
    (hi : i < t.dmNumDevs) :
    (if i ≠ t.dmNumDevs - 1 then Buffer.splice t.dmList i (Buffer.slice t.dmList (i + 1) 1)
      else t.dmList).length = DM_MAX_DEVICES ∧
    ∀ j, j ≠ i → (if i ≠ t.dmNumDevs - 1 then
      Buffer.splice t.dmList i (Buffer.slice t.dmList (i + 1) 1) else t.dmList)[j]? =
        t.dmList[j]? := by
  have hnum := h.num
  by_cases hlast : i ≠ t.dmNumDevs - 1
  · have hroom : i + 1 + 1 ≤ t.dmList.length := by
      rw [h.length]
      omega
    have hslice := Buffer.slice_length hroom
    have hfits : i + (Buffer.slice t.dmList (i + 1) 1).length ≤ t.dmList.length := by
      omega
    rw [if_pos hlast]
    refine ⟨(Buffer.splice_length hfits).trans h.length, ?_⟩
    intro j hj
    rcases Nat.lt_or_gt_of_ne hj with hlt | hgt
    · exact Buffer.getElem?_splice_of_lt hlt (by omega)
    · exact Buffer.getElem?_splice_of_ge (by omega) hfits
  · rw [if_neg hlast]
    exact ⟨h.length, fun _ _ => rfl⟩

/-- A call that fails, or the removal of the device with the name. -/
theorem unregister_cases {t : Table Functions} (h : Sized t) (name : Option (List UInt8)) :
    (¬0 ≤ (dmUnregister t name).2 ∧ (dmUnregister t name).1 = t ∧
      ∀ chars, name = some chars → invalidName chars = true ∨ t.search chars = t.dmNumDevs) ∨
    ∃ chars e, name = some chars ∧ invalidName chars = false ∧ 0 ≤ (dmUnregister t name).2 ∧
      t.search chars < t.dmNumDevs ∧ t.dmList[t.search chars]? = some e ∧
      named chars e = true ∧ Sized (dmUnregister t name).1 ∧
      (dmUnregister t name).1.dmNumDevs = t.dmNumDevs - 1 ∧
      ∀ j, j ≠ t.search chars → (dmUnregister t name).1.dmList[j]? = t.dmList[j]? := by
  cases name with
  | none => exact .inl ⟨(by decide : ¬(0 : Int) ≤ DM_ERR_INVALID_NAME), rfl, nofun⟩
  | some chars =>
      by_cases hname : invalidName chars = true
      · refine .inl ⟨?_, ?_, fun _ heq => .inl (Option.some.inj heq ▸ hname)⟩
        · rw [dmUnregister, if_pos hname]
          exact (by decide : ¬(0 : Int) ≤ DM_ERR_INVALID_NAME)
        · rw [dmUnregister, if_pos hname]
      by_cases hnone : t.search chars = t.dmNumDevs
      · refine .inl ⟨?_, ?_, fun _ heq => .inr (Option.some.inj heq ▸ hnone)⟩
        · simp only [dmUnregister, if_neg hname, if_pos hnone]
          exact (by decide : ¬(0 : Int) ≤ DM_ERR_NOT_REGISTERED)
        · simp only [dmUnregister, if_neg hname, if_pos hnone]
      · obtain ⟨hlt, e, hentry, hnamed⟩ := search_found h hnone
        obtain ⟨hlength, hslots⟩ := slots_unregister h hlt
        have hcall : dmUnregister t (some chars) =
            (Table.mk (if t.search chars ≠ t.dmNumDevs - 1 then
                Buffer.splice t.dmList (t.search chars)
                  (Buffer.slice t.dmList (t.search chars + 1) 1)
              else t.dmList) (t.dmNumDevs - 1), DM_OK) := by
          simp only [dmUnregister, if_neg hname, if_neg hnone]
        have hnum := h.num
        refine .inr ⟨chars, e, rfl, Bool.not_eq_true _ ▸ hname, ?_, hlt, hentry, hnamed, ?_, ?_, ?_⟩
        · rw [hcall]
          exact Int.le_refl 0
        · rw [hcall]
          exact ⟨hlength, Nat.le_trans (Nat.sub_le _ _) hnum⟩
        · rw [hcall]
        · rw [hcall]
          exact hslots

/-- Where a removal leaves a route to another device: the entry of the device
that is removed is the only one that changes, and the last one is gone. -/
theorem route_unregister {t t' : Table Functions} {i : Nat} {e : Option FileDevice}
    {name : List UInt8} {file fd : Int} {pdev : FileDevice} (hi : i < t.dmNumDevs)
    (hentry : t.dmList[i]? = some e) (hnamed : named name e = true)
    (hnum : t'.dmNumDevs = t.dmNumDevs - 1) (hslots : ∀ j, j ≠ i → t'.dmList[j]? = t.dmList[j]?)
    (h : route t file = some (pdev, fd)) (hother : strcasecmpEq name pdev.name = false) :
    route t' file = some (pdev, fd) ↔
      (i + 1 < t.dmNumDevs → dmGetDevid file + 1 ≠ t.dmNumDevs) := by
  obtain ⟨hlow, hhigh, hslot, hfd⟩ := route_eq_some.mp h
  have hne : (dmGetDevid file).toNat ≠ i := by
    intro heq
    rw [heq, hentry, Option.some.injEq] at hslot
    rw [hslot] at hnamed
    exact absurd (hnamed.symm.trans hother) nofun
  rw [route_eq_some, hslots _ hne, hnum]
  constructor
  · rintro ⟨-, hroom, -, -⟩ - hlast
    omega
  · intro hlast
    refine ⟨hlow, ?_, hslot, hfd⟩
    by_contra hroom
    exact hlast (by omega) (by omega)

/-! ## Steps and runs -/

/-- What holds between the steps of a run in which all went well. -/
def Files.Inv (s : Files) : Prop := Sized s.table ∧ s.Ok

/-- A step keeps the table in shape. -/
theorem sized_step {s s' : Files} {e : Event} (h : Sized s.table) (hstep : s.step e = some s') :
    Sized s'.table := by
  cases e with
  | register pdev =>
      rw [← Option.some.inj hstep]
      exact sized_register h pdev
  | unregister name =>
      rw [← Option.some.inj hstep]
      rcases unregister_cases h name with ⟨-, hsame, -⟩ | ⟨_, _, -, -, -, -, -, -, hsized, -⟩
      · exact hsame.symm ▸ h
      · exact hsized
  | openR name answer =>
      rw [← Option.some.inj hstep]
      exact h
  | operate op file =>
      cases op <;> exact Option.some.inj hstep ▸ h

theorem ok_unregister {s : Files} (h : s.Inv) (name : Option (List UInt8)) :
    (∃ s', s.step (.unregister name) = some s' ∧ (s'.Ok ↔ EventOk s (.unregister name))) := by
  obtain ⟨hsized, hok⟩ := h
  rw [Files.ok_iff] at hok
  refine ⟨_, rfl, ?_⟩
  rw [Files.ok_iff]
  rcases unregister_cases hsized name with
    ⟨hfail, hsame, hwhy⟩ | ⟨chars, e, rfl, hvalid, hsucc, hlt, hentry, hnamed, -, hnum, hslots⟩
  · rw [hsame, if_neg hfail]
    refine iff_of_true hok ?_
    cases name with
    | none => trivial
    | some chars =>
        intro hvalid hbefore
        rcases hwhy chars rfl with hinvalid | hnone
        · exact absurd (hinvalid.symm.trans hvalid) nofun
        · omega
  · rw [if_pos hsucc]
    have hroute := fun (h' : Handle) hh hother =>
      route_unregister hlt hentry hnamed hnum hslots (hok h' hh) hother
    constructor
    · intro hafter _ hbefore h' hh hother
      have hmem : h' ∈ s.handles.filter fun h => !((some chars).any (strcasecmpEq · h.device.name)) :=
        List.mem_filter.mpr ⟨hh, by rw [Option.any_some, hother]; rfl⟩
      exact (hroute h' hh hother).mp (hafter h' hmem) hbefore
    · intro hcond h' hmem
      obtain ⟨hh, hother⟩ := List.mem_filter.mp hmem
      rw [Option.any_some, Bool.not_eq_true'] at hother
      exact (hroute h' hh hother).mpr fun hbefore => hcond hvalid hbefore h' hh hother

/-- **One step.**  After a step all files are routed exactly if the step meets
the condition. -/
theorem ok_step {s : Files} (h : s.Inv) (e : Event) :
    ∃ s', s.step e = some s' ∧ (s'.Ok ↔ EventOk s e) := by
  cases e with
  | unregister name => exact ok_unregister h name
  | register pdev =>
      refine ⟨_, rfl, iff_of_true ?_ trivial⟩
      exact (Files.ok_iff _).mpr fun h' hh => route_register ((Files.ok_iff s).mp h.2 h' hh) pdev
  | openR name answer =>
      refine ⟨_, rfl, ?_⟩
      rw [Files.ok_iff]
      constructor
      · intro hafter h' hopen
        exact (route_opened hopen).mp
          (hafter h' (List.mem_append_left _ (Option.mem_toList.mpr hopen)))
      · intro hcond h' hmem
        rcases List.mem_append.mp hmem with hnew | hold
        · have hopen := Option.mem_toList.mp hnew
          exact (route_opened hopen).mpr (hcond h' hopen)
        · exact (Files.ok_iff s).mp h.2 h' hold
  | operate op file =>
      have hclosed : Files.Ok { s with handles := s.handles.filter fun h => h.desc ≠ file } :=
        fun h' hh => h.2 h' (List.mem_of_mem_filter hh)
      cases op with
      | close => exact ⟨_, rfl, iff_of_true hclosed trivial⟩
      | read => exact ⟨_, rfl, iff_of_true h.2 trivial⟩
      | write => exact ⟨_, rfl, iff_of_true h.2 trivial⟩
      | lseek => exact ⟨_, rfl, iff_of_true h.2 trivial⟩

theorem inv_files_init : Files.init.Inv := by
  refine ⟨⟨List.length_replicate, Nat.zero_le _⟩, ?_⟩
  intro h hh
  exact absurd hh List.not_mem_nil

/-- **Descriptor routing.**  In every state of a run the operations on every
open file reach the device that opened it, with its own descriptor, exactly if
all the steps of the run meet the condition. -/
theorem descriptors_routed (events : List Event) :
    (∀ n s, Transition.run Files.step .init (events.take n) = some s → s.Ok) ↔
      Transition.Conforming Files.step EventOk .init events := by
  refine Transition.forall_states_iff (fun s hinv => hinv.2) ?_ inv_files_init
  intro s e hinv
  obtain ⟨s', hstep, hiff⟩ := ok_step hinv e
  exact ⟨s', hstep, fun hok => ⟨sized_step hinv.1 hstep, hok⟩, hiff⟩

/-- A device with all functions, "/a". -/
def fileDevice : FileDevice := ⟨[0x2F, 0x61], ⟨true, [.close, .read, .write, .lseek]⟩⟩

/-- A device's own descriptor that is too large for its bits. -/
theorem descriptors_not_routed :
    ¬∀ (events : List Event) (n : Nat) (s : Files),
      Transition.run Files.step .init (events.take n) = some s → s.Ok := by
  intro h
  have hok := h [.register (some fileDevice), .openR (some [0x2F, 0x61, 0x2F, 0x66]) 2048] 2 _ rfl
  exact absurd (hok ⟨2048, fileDevice, 2048⟩ (by decide)).1 (by decide)

end Devman
