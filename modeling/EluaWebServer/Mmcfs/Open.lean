import EluaWebServer.Lib.Buffer
import EluaWebServer.Lib.CString
import EluaWebServer.Lib.Slots
import EluaWebServer.Lib.Transition
import EluaWebServer.Newlib.Fcntl

/-!
# Opening files of the MMC file system

The flags of `open` are translated to a mode of FatFs, the path is put together in a buffer
of 40 bytes, and what FatFs opens is copied to a free slot.  For which flags, files and paths
this is what POSIX says is an equivalence.
-/

namespace Mmcfs

open Buffer Fcntl

/-! ## FatFs -/

def FA_READ : UInt8 := 0x01
def FA_OPEN_EXISTING : UInt8 := 0x00
def FA_WRITE : UInt8 := 0x02
def FA_CREATE_NEW : UInt8 := 0x04
def FA_CREATE_ALWAYS : UInt8 := 0x08
def FA_OPEN_ALWAYS : UInt8 := 0x10
def FA_WRITTEN : UInt8 := 0x20

inductive FResult where
  | FR_NO_FILE
  | FR_DENIED
  | FR_EXIST
  /-- The path leads nowhere, or the medium fails, is full or is protected. -/
  | unreachable
  deriving DecidableEq

/-- What a path leads to. -/
inductive Entry where
  /-- There is no such name, but room for it. -/
  | missing
  | file (data : List UInt8) (readOnly : Bool)
  | directory
  | unreachable
  deriving DecidableEq

abbrev Volume := List UInt8 → Entry

/-- `FIL`, with whether `fs` is set. -/
structure Fil where
  fs : Bool
  flag : UInt8
  fptr : Nat
  fsize : Nat
  deriving DecidableEq

/-- `f_open`. -/
def fOpen (v : Volume) (path : List UInt8) (mode : UInt8) : Volume × Except FResult Fil :=
  if mode &&& (FA_CREATE_ALWAYS ||| FA_OPEN_ALWAYS ||| FA_CREATE_NEW) ≠ 0 then
    match v path with
    | .unreachable => (v, .error .unreachable)
    | .missing =>
        (Function.update v path (.file [] false),
          .ok ⟨true, mode ||| FA_CREATE_ALWAYS ||| FA_WRITTEN, 0, 0⟩)
    | .directory => (v, .error (if mode &&& FA_CREATE_NEW ≠ 0 then .FR_EXIST else .FR_DENIED))
    | .file data readOnly =>
        if mode &&& FA_CREATE_NEW ≠ 0 then (v, .error .FR_EXIST)
        else if readOnly then (v, .error .FR_DENIED)
        else if mode &&& FA_CREATE_ALWAYS ≠ 0 then
          (Function.update v path (.file [] false), .ok ⟨true, mode ||| FA_WRITTEN, 0, 0⟩)
        else (v, .ok ⟨true, mode, 0, data.length⟩)
  else
    match v path with
    | .unreachable => (v, .error .unreachable)
    | .missing | .directory => (v, .error .FR_NO_FILE)
    | .file data readOnly =>
        if mode &&& FA_WRITE ≠ 0 ∧ readOnly then (v, .error .FR_DENIED)
        else (v, .ok ⟨true, mode, 0, data.length⟩)

/-! ## The file system -/

def MMCFS_MAX_FDS : Nat := 4

def PATH_BUF_SIZE : Nat := 40

/-- A slot that is free. -/
def Fil.Free (f : Fil) : Prop := f.fs = false

instance : DecidablePred Fil.Free := fun f => inferInstanceAs (Decidable (f.fs = false))

/-- `mmcfs_fd_table`, `mmcfs_num_fd` and `mmc_pathBuf`. -/
structure FdTable where
  fds : Fin MMCFS_MAX_FDS → Fil
  numFd : Int
  pathBuf : List UInt8

inductive Errno where
  | ENFILE
  | EINVAL
  | ENOENT
  deriving DecidableEq

def mmcfsFindEmptyFd (t : FdTable) : Option (Fin MMCFS_MAX_FDS) := Slots.findEmpty Fil.Free t.fds

/-- `strcat`; `none` when it writes outside the buffer. -/
def strcat (buf s : List UInt8) : Option (List UInt8) :=
  storeAll buf (CString.text buf).length (s ++ [0])

/-- The path, with the top directory if none is given. -/
def copyPath (buf path : List UInt8) : Option (List UInt8) :=
  (store buf 0 0).bind fun buf =>
    (if 47 ∈ path then some buf else strcat buf [47]).bind fun buf => strcat buf path

/-- The translation of the flags, with or without `O_BINARY` in `fcntl.h`. -/
def mmcMode (binary : Bool) (flags : UInt32) : Option UInt8 :=
  let flags := if binary then flags &&& ~~~O_BINARY else flags
  let open_ : Option UInt8 :=
    if flags &&& (O_CREAT ||| O_TRUNC) = O_CREAT ||| O_TRUNC ∧ flags &&& (O_RDWR ||| O_WRONLY) ≠ 0
    then some FA_CREATE_ALWAYS
    else if flags &&& (O_CREAT ||| O_EXCL) = O_CREAT ||| O_EXCL then some FA_OPEN_EXISTING
    else if flags &&& O_CREAT = O_CREAT then some FA_OPEN_ALWAYS
    else if flags = O_RDONLY ∨ flags = O_WRONLY ∨ flags = O_RDWR then some FA_OPEN_EXISTING
    else none
  open_.bind fun mode =>
    if flags &&& O_ACCMODE = O_RDONLY then some (mode ||| FA_READ)
    else if flags &&& O_ACCMODE = O_WRONLY then some (mode ||| FA_WRITE)
    else if flags &&& O_ACCMODE = O_RDWR then some (mode ||| (FA_READ ||| FA_WRITE))
    else none

/-- `mmcfs_open_r`: the files, the table and the descriptor.  There is no result when memory
outside of `mmc_pathBuf` or of the table is written. -/
def mmcfsOpenR (binary : Bool) (v : Volume) (t : FdTable) (path : List UInt8)
    (flags mode : UInt32) : Option (Volume × FdTable × Except Errno (Fin MMCFS_MAX_FDS)) :=
  if t.numFd = MMCFS_MAX_FDS then some (v, t, .error .ENFILE)
  else
    (copyPath t.pathBuf path).bind fun buf =>
      let t := { t with pathBuf := buf }
      match mmcMode binary flags with
      | none => some (v, t, .error .EINVAL)
      | some m =>
          match fOpen v (CString.text buf) m with
          | (v, .error _) => some (v, t, .error .ENOENT)
          | (v, .ok fil) =>
              let fil := if mode &&& O_APPEND ≠ 0 then { fil with fptr := fil.fsize } else fil
              (mmcfsFindEmptyFd t).map fun fd =>
                (v, { t with fds := Function.update t.fds fd fil, numFd := t.numFd + 1 }, .ok fd)

/-- `mmcfs_close_r`. -/
def mmcfsCloseR (t : FdTable) (fd : Fin MMCFS_MAX_FDS) : FdTable :=
  { t with fds := Function.update t.fds fd ⟨false, 0, 0, 0⟩, numFd := t.numFd - 1 }

def mmcfsInit : FdTable := ⟨fun _ => ⟨false, 0, 0, 0⟩, 0, List.replicate PATH_BUF_SIZE 0⟩

/-! ## What POSIX says -/

def fullPath (path : List UInt8) : List UInt8 := if 47 ∈ path then path else 47 :: path

/-- A file is opened. -/
def Opens (f : Flags) : Entry → Prop
  | .missing => f.creat = true
  | .file _ readOnly => ¬(f.creat = true ∧ f.excl = true) ∧ ¬(f.writes = true ∧ readOnly = true)
  | .directory | .unreachable => False

/-- The file after it has been opened. -/
def opened (f : Flags) : Entry → Entry
  | .missing => .file [] false
  | .file data readOnly => .file (if f.trunc && f.writes then [] else data) readOnly
  | e => e

def Entry.size : Entry → Nat
  | .file data _ => data.length
  | _ => 0

/-- The effect of an open, from the files and the table before it to those after it. -/
structure Posix (f : Flags) (path : List UInt8) (v : Volume) (t : FdTable) (v' : Volume)
    (t' : FdTable) (r : Except Errno (Fin MMCFS_MAX_FDS)) : Prop where
  opens : (∃ fd, r = .ok fd) ↔ (∃ fd, (t.fds fd).Free) ∧ Opens f (v (fullPath path))
  files : ∀ fd, r = .ok fd →
    v' = Function.update v (fullPath path) (opened f (v (fullPath path)))
  position : ∀ fd, r = .ok fd → f.writes = true →
    (t'.fds fd).fptr = if f.append then (v' (fullPath path)).size else 0
  failure : ∀ e, r = .error e → v' = v ∧ t'.fds = t.fds ∧ t'.numFd = t.numFd

/-- The open has the effect that POSIX says, and writes in its buffer only. -/
def PosixEffect (binary : Bool) (v : Volume) (t : FdTable) (path : List UInt8) (f : Flags)
    (mode : UInt32) : Prop :=
  ∃ v' t' r, mmcfsOpenR binary v t path f.bits mode = some (v', t', r) ∧ Posix f path v t v' t' r

/-- The flags do for this file what they say: `mode` is looked at for `O_APPEND`. -/
def Translated (f : Flags) (mode : UInt32) : Entry → Prop
  | .missing => f.creat = true → f.excl = true → f.trunc = true ∧ f.writes = true
  | .file data readOnly =>
      (f.writes = true ∧ readOnly = true) ∨
        (¬(f.creat = true ∧ f.excl = true) ∧
          (f.creat = false → f.excl = false ∧ f.trunc = false ∧ f.append = false) ∧
          (f.creat = true → readOnly = false) ∧
          (f.writes = true → ¬(f.creat = true ∧ f.trunc = true) →
            data = [] ∨ (f.append = true ↔ mode &&& O_APPEND ≠ 0)))
  | .directory | .unreachable => True

/-! ## The translation -/

/-- The mode for the access alone. -/
def accessMode : Access → UInt8
  | .readOnly => FA_READ
  | .writeOnly => FA_WRITE
  | .readWrite => FA_READ ||| FA_WRITE

theorem mmcMode_bits (binary : Bool) (f : Flags) :
    mmcMode binary f.bits =
      if f.creat && f.trunc && f.writes then some (FA_CREATE_ALWAYS ||| accessMode f.access)
      else if f.creat && f.excl then some (FA_OPEN_EXISTING ||| accessMode f.access)
      else if f.creat then some (FA_OPEN_ALWAYS ||| accessMode f.access)
      else if f.excl || f.trunc || f.append then none
      else some (FA_OPEN_EXISTING ||| accessMode f.access) := by
  obtain ⟨access, creat, excl, trunc, append⟩ := f
  cases binary <;> cases access <;> cases creat <;> cases excl <;> cases trunc <;>
    cases append <;> rfl

/-- The file as `FA_CREATE_ALWAYS` opens it. -/
def createAlways : Entry → Option Entry
  | .missing => some (.file [] false)
  | .file _ readOnly => if readOnly then none else some (.file [] false)
  | .directory | .unreachable => none

def openAlways : Entry → Option Entry
  | .missing => some (.file [] false)
  | .file data readOnly => if readOnly then none else some (.file data readOnly)
  | .directory | .unreachable => none

def openExisting (writes : Bool) : Entry → Option Entry
  | .file data readOnly => if writes && readOnly then none else some (.file data readOnly)
  | .missing | .directory | .unreachable => none

/-- The file as it is opened, if it is. -/
def outcome (f : Flags) (e : Entry) : Option Entry :=
  if f.creat && f.trunc && f.writes then createAlways e
  else if f.creat && f.excl then openExisting f.writes e
  else if f.creat then openAlways e
  else if f.excl || f.trunc || f.append then none
  else openExisting f.writes e

/-- FatFs opens the file, which is then as it says, or gives an error and changes nothing. -/
def Answers (v : Volume) (path : List UInt8) (mode : UInt8) : Option Entry → Prop
  | none => ∃ error, fOpen v path mode = (v, .error error)
  | some e => ∃ flag, fOpen v path mode =
      (Function.update v path e, .ok ⟨true, flag, 0, e.size⟩)

section

variable {v : Volume} {path : List UInt8} (access : Access)

/-- A file that may only be read is not opened to be created. -/
theorem fOpen_readOnly {mode : UInt8} {data : List UInt8}
    (hcreating : mode &&& (FA_CREATE_ALWAYS ||| FA_OPEN_ALWAYS ||| FA_CREATE_NEW) ≠ 0)
    (hnew : ¬mode &&& FA_CREATE_NEW ≠ 0) (hv : v path = .file data true) :
    fOpen v path mode = (v, .error .FR_DENIED) := by
  rw [fOpen, if_pos hcreating, hv]
  dsimp only
  rw [if_neg hnew, if_pos rfl]

theorem answers_createAlways :
    Answers v path (FA_CREATE_ALWAYS ||| accessMode access) (createAlways (v path)) := by
  have hcreating : (FA_CREATE_ALWAYS ||| accessMode access) &&&
      (FA_CREATE_ALWAYS ||| FA_OPEN_ALWAYS ||| FA_CREATE_NEW) ≠ 0 := by
    cases access <;> decide
  have hnew : ¬(FA_CREATE_ALWAYS ||| accessMode access) &&& FA_CREATE_NEW ≠ 0 := by
    cases access <;> decide
  have halways : (FA_CREATE_ALWAYS ||| accessMode access) &&& FA_CREATE_ALWAYS ≠ 0 := by
    cases access <;> decide
  cases hv : v path with
  | missing => exact ⟨_, by rw [fOpen, if_pos hcreating, hv]; rfl⟩
  | file data readOnly =>
      cases readOnly with
      | false =>
          refine ⟨(FA_CREATE_ALWAYS ||| accessMode access) ||| FA_WRITTEN, ?_⟩
          rw [fOpen, if_pos hcreating, hv]
          dsimp only
          rw [if_neg hnew, if_neg Bool.false_ne_true, if_pos halways]
          rfl
      | true => exact ⟨.FR_DENIED, fOpen_readOnly hcreating hnew hv⟩
  | directory => exact ⟨_, by rw [fOpen, if_pos hcreating, hv]⟩
  | unreachable => exact ⟨_, by rw [fOpen, if_pos hcreating, hv]⟩

theorem answers_openAlways :
    Answers v path (FA_OPEN_ALWAYS ||| accessMode access) (openAlways (v path)) := by
  have hcreating : (FA_OPEN_ALWAYS ||| accessMode access) &&&
      (FA_CREATE_ALWAYS ||| FA_OPEN_ALWAYS ||| FA_CREATE_NEW) ≠ 0 := by
    cases access <;> decide
  have hnew : ¬(FA_OPEN_ALWAYS ||| accessMode access) &&& FA_CREATE_NEW ≠ 0 := by
    cases access <;> decide
  have halways : ¬(FA_OPEN_ALWAYS ||| accessMode access) &&& FA_CREATE_ALWAYS ≠ 0 := by
    cases access <;> decide
  cases hv : v path with
  | missing => exact ⟨_, by rw [fOpen, if_pos hcreating, hv]; rfl⟩
  | file data readOnly =>
      cases readOnly with
      | false =>
          refine ⟨FA_OPEN_ALWAYS ||| accessMode access, ?_⟩
          rw [fOpen, if_pos hcreating, hv]
          dsimp only
          rw [if_neg hnew, if_neg Bool.false_ne_true, if_neg halways, ← hv,
            Function.update_eq_self, hv]
          rfl
      | true => exact ⟨.FR_DENIED, fOpen_readOnly hcreating hnew hv⟩
  | directory => exact ⟨_, by rw [fOpen, if_pos hcreating, hv]⟩
  | unreachable => exact ⟨_, by rw [fOpen, if_pos hcreating, hv]⟩

theorem answers_openExisting :
    Answers v path (FA_OPEN_EXISTING ||| accessMode access)
      (openExisting (decide (access ≠ .readOnly)) (v path)) := by
  have hcreating : ¬(FA_OPEN_EXISTING ||| accessMode access) &&&
      (FA_CREATE_ALWAYS ||| FA_OPEN_ALWAYS ||| FA_CREATE_NEW) ≠ 0 := by
    cases access <;> decide
  have hwrite : (FA_OPEN_EXISTING ||| accessMode access) &&& FA_WRITE ≠ 0 ↔
      access ≠ .readOnly := by
    cases access <;> decide
  cases hv : v path with
  | missing => exact ⟨_, by rw [fOpen, if_neg hcreating, hv]⟩
  | file data readOnly =>
      by_cases hdenied : access ≠ .readOnly ∧ readOnly = true
      · have hnone : openExisting (decide (access ≠ .readOnly)) (.file data readOnly) = none := by
          simp [openExisting, hdenied]
        rw [hnone]
        refine ⟨.FR_DENIED, ?_⟩
        rw [fOpen, if_neg hcreating, hv]
        dsimp only
        rw [if_pos ⟨hwrite.mpr hdenied.1, hdenied.2⟩]
      · have hsome : openExisting (decide (access ≠ .readOnly)) (.file data readOnly) =
            some (.file data readOnly) := by
          have hcond : ¬(decide (access ≠ .readOnly) && readOnly) = true := by simpa using hdenied
          rw [openExisting, if_neg hcond]
        rw [hsome]
        refine ⟨FA_OPEN_EXISTING ||| accessMode access, ?_⟩
        rw [fOpen, if_neg hcreating, hv]
        dsimp only
        rw [if_neg fun h => hdenied ⟨hwrite.mp h.1, h.2⟩, ← hv, Function.update_eq_self, hv]
        rfl
  | directory => exact ⟨_, by rw [fOpen, if_neg hcreating, hv]⟩
  | unreachable => exact ⟨_, by rw [fOpen, if_neg hcreating, hv]⟩

end

/-! ## The path -/

section

variable {buf xs ys rest path : List UInt8}

theorem strcat_eq (h : 0 ∉ xs) :
    strcat (xs ++ 0 :: rest) ys = storeAll (xs ++ 0 :: rest) xs.length (ys ++ [0]) := by
  rw [strcat, CString.text_append_zero h]

theorem strcat_of_fits (h : 0 ∉ xs) (hfits : xs.length + ys.length ≤ xs.length + rest.length) :
    ∃ rest', strcat (xs ++ 0 :: rest) ys = some (xs ++ ys ++ 0 :: rest') ∧
      (xs ++ ys ++ 0 :: rest').length = (xs ++ 0 :: rest).length := by
  have hroom : xs.length + (ys ++ [0]).length ≤ (xs ++ 0 :: rest).length := by
    simp only [List.length_append, List.length_cons, List.length_nil]
    omega
  have hsplice : splice (xs ++ 0 :: rest) xs.length (ys ++ [0]) =
      xs ++ ys ++ 0 :: (xs ++ 0 :: rest).drop (xs.length + (ys ++ [0]).length) := by
    simp [splice]
  refine ⟨(xs ++ 0 :: rest).drop (xs.length + (ys ++ [0]).length), ?_, ?_⟩
  · rw [strcat_eq h, storeAll_eq_splice hroom, hsplice]
  · rw [← hsplice, splice_length hroom]

theorem strcat_of_not_fits (h : 0 ∉ xs) (hlong : rest.length < ys.length) :
    strcat (xs ++ 0 :: rest) ys = none := by
  rw [strcat_eq h]
  apply storeAll_eq_none
  · simp only [List.length_append, List.length_cons, List.length_nil]
    omega
  · simp

/-- A buffer that starts with a string of its own size less the zero and some rest. -/
theorem copyPath_eq (hbuf : buf.length = PATH_BUF_SIZE) :
    ∃ rest, rest.length + 1 + (if 47 ∈ path then 0 else 1) = PATH_BUF_SIZE ∧
      copyPath buf path = strcat ((if 47 ∈ path then [] else [47]) ++ 0 :: rest) path := by
  obtain ⟨b, bs, rfl⟩ : ∃ b bs, buf = b :: bs := by
    cases buf with
    | nil => cases hbuf
    | cons b bs => exact ⟨b, bs, rfl⟩
  rw [List.length_cons] at hbuf
  have hstore : store (b :: bs) 0 0 = some (0 :: bs) := if_pos (Nat.succ_pos _)
  rw [copyPath, hstore, Option.bind_some]
  by_cases hslash : 47 ∈ path
  · exact ⟨bs, by rw [if_pos hslash]; exact hbuf, by rw [if_pos hslash, if_pos hslash]; rfl⟩
  · have hroom : ([] : List UInt8).length + [47].length ≤ ([] : List UInt8).length + bs.length := by
      have hsize : PATH_BUF_SIZE = 40 := rfl
      simp only [List.length_cons, List.length_nil]
      omega
    obtain ⟨rest, hcat, hlen⟩ := @strcat_of_fits [] [47] bs List.not_mem_nil hroom
    refine ⟨rest, ?_, ?_⟩
    · rw [if_neg hslash]
      simp only [List.nil_append, List.length_append, List.length_cons, List.length_nil] at hlen
      omega
    · rw [if_neg hslash, if_neg hslash]
      change (strcat ([] ++ 0 :: bs) [47]).bind _ = _
      rw [hcat]
      rfl

theorem fullPath_eq (path : List UInt8) :
    fullPath path = (if 47 ∈ path then [] else [47]) ++ path := by
  unfold fullPath
  split_ifs <;> rfl

/-- The buffer holds the path if it is long enough. -/
theorem copyPath_of_fits (hbuf : buf.length = PATH_BUF_SIZE) (hpath : 0 ∉ path)
    (hfits : (fullPath path).length < PATH_BUF_SIZE) :
    ∃ buf', copyPath buf path = some buf' ∧ CString.text buf' = fullPath path ∧
      buf'.length = PATH_BUF_SIZE := by
  obtain ⟨rest, hrest, hcopy⟩ := @copyPath_eq buf path hbuf
  have hfirst : (0 : UInt8) ∉ (if 47 ∈ path then [] else [47] : List UInt8) := by
    split_ifs <;> decide
  have hlen : (if 47 ∈ path then [] else [47] : List UInt8).length =
      if 47 ∈ path then 0 else 1 := by
    split_ifs <;> rfl
  rw [fullPath_eq, List.length_append] at hfits
  obtain ⟨rest', hcat, hsame⟩ := @strcat_of_fits _ path rest hfirst (by omega)
  refine ⟨_, hcopy.trans hcat, ?_, ?_⟩
  · rw [← fullPath_eq]
    apply CString.text_append_zero
    rw [fullPath_eq, List.mem_append, not_or]
    exact ⟨hfirst, hpath⟩
  · rw [hsame, List.length_append, List.length_cons, hlen]
    omega

theorem copyPath_of_not_fits (hbuf : buf.length = PATH_BUF_SIZE)
    (hlong : PATH_BUF_SIZE ≤ (fullPath path).length) : copyPath buf path = none := by
  obtain ⟨rest, hrest, hcopy⟩ := @copyPath_eq buf path hbuf
  have hfirst : (0 : UInt8) ∉ (if 47 ∈ path then [] else [47] : List UInt8) := by
    split_ifs <;> decide
  have hlen : (if 47 ∈ path then [] else [47] : List UInt8).length =
      if 47 ∈ path then 0 else 1 := by
    split_ifs <;> rfl
  rw [fullPath_eq, List.length_append] at hlong
  rw [hcopy]
  exact strcat_of_not_fits hfirst (by omega)

theorem strcat_length (h : strcat buf xs = some ys) : ys.length = buf.length := by
  obtain ⟨rfl, hroom⟩ := storeAll_eq_some h
  exact splice_length (hroom (by simp))

theorem copyPath_length {buf' : List UInt8} (h : copyPath buf path = some buf') :
    buf'.length = buf.length := by
  obtain ⟨buf₁, hstore, h⟩ := Option.bind_eq_some_iff.mp h
  obtain ⟨buf₂, hcat, h⟩ := Option.bind_eq_some_iff.mp h
  have hfirst : buf₁.length = buf.length := by
    rw [store, Option.ite_none_right_eq_some] at hstore
    rw [← Option.some.inj hstore.2, List.length_set]
  have hsecond : buf₂.length = buf₁.length := by
    split at hcat
    next => exact congrArg List.length (Option.some.inj hcat).symm
    next => exact strcat_length hcat
  rw [strcat_length h, hsecond, hfirst]

end

/-! ## One call -/

/-- The counter is the number of slots in use. -/
structure Counted (t : FdTable) : Prop where
  numFd : t.numFd = (Slots.used Fil.Free t.fds).card
  pathBuf : t.pathBuf.length = PATH_BUF_SIZE

section

variable {binary : Bool} {v : Volume} {t : FdTable} {path : List UInt8} {f : Flags} {mode : UInt32}

theorem numFd_eq_iff (h : Counted t) : t.numFd = MMCFS_MAX_FDS ↔ ¬∃ fd, (t.fds fd).Free := by
  rw [h.numFd, Int.natCast_inj, not_exists]
  exact Slots.card_used_eq_iff

theorem mmcMode_answers (binary : Bool) (f : Flags) (v : Volume) (path : List UInt8) :
    (mmcMode binary f.bits = none ∧ outcome f (v path) = none) ∨
      ∃ m, mmcMode binary f.bits = some m ∧ Answers v path m (outcome f (v path)) := by
  rw [mmcMode_bits]
  unfold outcome
  split_ifs
  · exact .inr ⟨_, rfl, answers_createAlways f.access⟩
  · exact .inr ⟨_, rfl, answers_openExisting f.access⟩
  · exact .inr ⟨_, rfl, answers_openAlways f.access⟩
  · exact .inl ⟨rfl, rfl⟩
  · exact .inr ⟨_, rfl, answers_openExisting f.access⟩

/-- An open that is refused, by the translation of the flags or by FatFs. -/
theorem mmcfsOpenR_none (hfull : t.numFd ≠ MMCFS_MAX_FDS) {buf : List UInt8}
    (hcopy : copyPath t.pathBuf path = some buf) (htext : CString.text buf = fullPath path)
    (hnone : outcome f (v (fullPath path)) = none) :
    ∃ e, mmcfsOpenR binary v t path f.bits mode =
      some (v, { t with pathBuf := buf }, .error e) := by
  rcases mmcMode_answers binary f v (fullPath path) with ⟨hmode, -⟩ | ⟨m, hmode, hanswer⟩
  · refine ⟨.EINVAL, ?_⟩
    rw [mmcfsOpenR, if_neg hfull, hcopy, Option.bind_some]
    dsimp only
    rw [hmode]
  · rw [hnone] at hanswer
    obtain ⟨error, hopen⟩ := hanswer
    refine ⟨.ENOENT, ?_⟩
    rw [mmcfsOpenR, if_neg hfull, hcopy, Option.bind_some]
    dsimp only
    rw [hmode]
    dsimp only
    rw [htext, hopen]

/-- An open that is done. -/
theorem mmcfsOpenR_some (hfull : t.numFd ≠ MMCFS_MAX_FDS) {buf : List UInt8}
    (hcopy : copyPath t.pathBuf path = some buf) (htext : CString.text buf = fullPath path)
    {e : Entry} (hsome : outcome f (v (fullPath path)) = some e) {fd : Fin MMCFS_MAX_FDS}
    (hfd : mmcfsFindEmptyFd t = some fd) :
    ∃ flag, mmcfsOpenR binary v t path f.bits mode =
      some (Function.update v (fullPath path) e,
        { fds := Function.update t.fds fd
            ⟨true, flag, if mode &&& O_APPEND ≠ 0 then e.size else 0, e.size⟩
          numFd := t.numFd + 1
          pathBuf := buf }, .ok fd) := by
  rcases mmcMode_answers binary f v (fullPath path) with ⟨-, hnone⟩ | ⟨m, hmode, hanswer⟩
  · rw [hnone] at hsome
    cases hsome
  · rw [hsome] at hanswer
    obtain ⟨flag, hopen⟩ := hanswer
    refine ⟨flag, ?_⟩
    have hfd' : mmcfsFindEmptyFd { t with pathBuf := buf } = some fd := hfd
    rw [mmcfsOpenR, if_neg hfull, hcopy, Option.bind_some]
    dsimp only
    rw [hmode]
    dsimp only
    rw [htext, hopen]
    dsimp only
    rw [hfd', Option.map_some]
    by_cases happend : mode &&& O_APPEND ≠ 0
    · rw [if_pos happend, if_pos happend]
    · rw [if_neg happend, if_neg happend]

/-- What is opened is what POSIX says, and is written from where it says. -/
def Agrees (f : Flags) (mode : UInt32) (e : Entry) : Option Entry → Prop
  | none => ¬Opens f e
  | some e' => Opens f e ∧ e' = opened f e ∧
      (f.writes = true →
        (if mode &&& O_APPEND ≠ 0 then e'.size else 0) = if f.append then e'.size else 0)

theorem agrees_missing (f : Flags) (mode : UInt32) :
    Agrees f mode .missing (outcome f .missing) ↔ Translated f mode .missing := by
  obtain ⟨access, creat, excl, trunc, append⟩ := f
  cases creat <;> cases excl <;> cases trunc <;> cases access <;>
    simp [outcome, createAlways, openExisting, openAlways, Agrees, Opens, opened, Translated,
      Flags.writes, Entry.size]

theorem agrees_file (f : Flags) (mode : UInt32) (data : List UInt8) (readOnly : Bool) :
    Agrees f mode (.file data readOnly) (outcome f (.file data readOnly)) ↔
      Translated f mode (.file data readOnly) := by
  by_cases hmode : mode &&& O_APPEND = 0 <;> cases happend : f.append <;>
    cases hcreat : f.creat <;> cases hexcl : f.excl <;> cases htrunc : f.trunc <;>
    cases hwrites : f.writes <;> cases readOnly <;>
    simp [outcome, createAlways, openExisting, openAlways, Agrees, Opens, opened, Translated,
      Entry.size, hmode, happend, hcreat, hexcl, htrunc, hwrites, @eq_comm Nat 0]

theorem agrees_iff (f : Flags) (mode : UInt32) (e : Entry) :
    Agrees f mode e (outcome f e) ↔ Translated f mode e := by
  cases e with
  | missing => exact agrees_missing f mode
  | file data readOnly => exact agrees_file f mode data readOnly
  | directory =>
      have hnone : outcome f .directory = none := by
        unfold outcome
        split_ifs <;> rfl
      rw [hnone]
      exact iff_of_true id trivial
  | unreachable =>
      have hnone : outcome f .unreachable = none := by
        unfold outcome
        split_ifs <;> rfl
      rw [hnone]
      exact iff_of_true id trivial

theorem outcome_eq {v' v₁ : Volume} {t' t₁ : FdTable}
    {r r₁ : Except Errno (Fin MMCFS_MAX_FDS)} {o : Option (Volume × FdTable × Except Errno _)}
    (h₁ : o = some (v₁, t₁, r₁)) (h' : o = some (v', t', r)) : v₁ = v' ∧ t₁ = t' ∧ r₁ = r := by
  have heq := Option.some.inj (h₁.symm.trans h')
  obtain ⟨hv, hrest⟩ := Prod.mk.inj heq
  obtain ⟨ht, hr⟩ := Prod.mk.inj hrest
  exact ⟨hv, ht, hr⟩

/-- **One call.** -/
theorem posixEffect_iff_translated (h : Counted t) (hpath : 0 ∉ path) (binary : Bool) (v : Volume)
    (f : Flags) (mode : UInt32) :
    PosixEffect binary v t path f mode ↔ (¬∃ fd, (t.fds fd).Free) ∨
      (fullPath path).length < PATH_BUF_SIZE ∧ Translated f mode (v (fullPath path)) := by
  by_cases hfull : t.numFd = MMCFS_MAX_FDS
  · -- No slot is free, and nothing is done.
    have hnone := (numFd_eq_iff h).mp hfull
    apply iff_of_true _ (.inl hnone)
    refine ⟨v, t, .error .ENFILE, by rw [mmcfsOpenR, if_pos hfull], ?_, ?_, ?_, ?_⟩
    · apply iff_of_false
      · intro hok
        obtain ⟨fd, hfd⟩ := hok
        cases hfd
      · exact fun hopens => hnone hopens.1
    · exact nofun
    · exact nofun
    · exact fun _ _ => ⟨rfl, rfl, rfl⟩
  have hfree : ∃ fd, (t.fds fd).Free := not_not.mp (mt (numFd_eq_iff h).mpr hfull)
  rw [or_iff_right (not_not.mpr hfree)]
  rcases Nat.lt_or_ge (fullPath path).length PATH_BUF_SIZE with hfits | hlong
  · rw [and_iff_right hfits, ← agrees_iff f mode]
    obtain ⟨buf, hcopy, htext, -⟩ := copyPath_of_fits h.pathBuf hpath hfits
    cases houtcome : outcome f (v (fullPath path)) with
    | none =>
        obtain ⟨e, hopen⟩ :=
          @mmcfsOpenR_none binary v t path f mode hfull buf hcopy htext houtcome
        have hopens : (∃ fd, (Except.error e : Except Errno (Fin MMCFS_MAX_FDS)) = .ok fd) ↔
            False := by simp
        constructor
        · intro heffect hopened
          obtain ⟨v', t', r, hrun, hposix⟩ := heffect
          obtain ⟨-, -, rfl⟩ := outcome_eq hopen hrun
          exact hopens.mp (hposix.opens.mpr ⟨hfree, hopened⟩)
        · intro hnot
          refine ⟨_, _, _, hopen, ?_, nofun, nofun, fun _ _ => ⟨rfl, rfl, rfl⟩⟩
          rw [hopens]
          exact iff_of_false id fun hopened => hnot hopened.2
    | some e =>
        obtain ⟨fd, hfd⟩ : ∃ fd, mmcfsFindEmptyFd t = some fd := by
          cases hfind : mmcfsFindEmptyFd t with
          | some fd => exact ⟨fd, rfl⟩
          | none =>
              obtain ⟨fd, hfd⟩ := hfree
              exact absurd hfd (Slots.findEmpty_eq_none.mp hfind fd)
        obtain ⟨flag, hopen⟩ :=
          @mmcfsOpenR_some binary v t path f mode hfull buf hcopy htext e houtcome fd hfd
        have hat : Function.update v (fullPath path) e (fullPath path) = e :=
          Function.update_self _ _ _
        constructor
        · intro heffect
          obtain ⟨v', t', r, hrun, hposix⟩ := heffect
          obtain ⟨rfl, rfl, rfl⟩ := outcome_eq hopen hrun
          have hfiles := congrFun (hposix.files fd rfl) (fullPath path)
          rw [hat, Function.update_self] at hfiles
          refine ⟨(hposix.opens.mp ⟨fd, rfl⟩).2, hfiles, ?_⟩
          intro hwrites
          have hposition := hposix.position fd rfl hwrites
          dsimp only at hposition
          rwa [hat, Function.update_self] at hposition
        · intro hagrees
          obtain ⟨hopens, hopened, hposition⟩ := hagrees
          refine ⟨_, _, _, hopen, iff_of_true ⟨fd, rfl⟩ ⟨hfree, hopens⟩, ?_, ?_, nofun⟩
          · intro fd' _
            rw [hopened]
          · intro fd' hfd' hwrites
            obtain rfl := Except.ok.inj hfd'
            dsimp only
            rw [hat, Function.update_self]
            exact hposition hwrites
  · apply iff_of_false
    · intro heffect
      obtain ⟨v', t', r, hrun, -⟩ := heffect
      rw [mmcfsOpenR, if_neg hfull, copyPath_of_not_fits h.pathBuf hlong] at hrun
      cases hrun
    · intro hcond
      omega

end

/-! ## Runs -/

inductive Call where
  | open_ (binary : Bool) (v : Volume) (path : List UInt8) (flags mode : UInt32)
  | close (fd : Fin MMCFS_MAX_FDS)

/-- One call; paths are C strings, and only open descriptors are closed. -/
def step (t : FdTable) : Call → Option FdTable
  | .open_ binary v path flags mode =>
      if 0 ∈ path then none else (mmcfsOpenR binary v t path flags mode).map (·.2.1)
  | .close fd => if (t.fds fd).Free then none else some (mmcfsCloseR t fd)

section

variable {t t' : FdTable}

theorem fOpen_fs {v v' : Volume} {path : List UInt8} {mode : UInt8} {fil : Fil}
    (h : fOpen v path mode = (v', .ok fil)) : ¬fil.Free := by
  have hfs : fil.fs = true := by
    have hok := congrArg Prod.snd h
    unfold fOpen at hok
    cases hv : v path with
    | missing =>
        simp only [hv] at hok
        split at hok
        next => obtain rfl := Except.ok.inj hok; rfl
        next => cases hok
    | file data readOnly =>
        simp only [hv] at hok
        split_ifs at hok
        all_goals
          obtain rfl := Except.ok.inj hok
          rfl
    | directory =>
        simp only [hv] at hok
        split_ifs at hok
    | unreachable =>
        simp only [hv] at hok
        split_ifs at hok
  intro hfree
  rw [Fil.Free, hfs] at hfree
  cases hfree

theorem counted_open (h : Counted t) {binary : Bool} {v v' : Volume} {path : List UInt8}
    {flags mode : UInt32} {r : Except Errno (Fin MMCFS_MAX_FDS)}
    (hopen : mmcfsOpenR binary v t path flags mode = some (v', t', r)) : Counted t' := by
  by_cases hfull : t.numFd = MMCFS_MAX_FDS
  · rw [mmcfsOpenR, if_pos hfull] at hopen
    obtain ⟨-, rfl, -⟩ := outcome_eq hopen rfl
    exact h
  · rw [mmcfsOpenR, if_neg hfull, Option.bind_eq_some_iff] at hopen
    obtain ⟨buf, hcopy, hopen⟩ := hopen
    have hbuf : buf.length = PATH_BUF_SIZE := (copyPath_length hcopy).trans h.pathBuf
    dsimp only at hopen
    cases hmode : mmcMode binary flags with
    | none =>
        rw [hmode] at hopen
        obtain ⟨-, rfl, -⟩ := outcome_eq rfl hopen
        exact ⟨h.numFd, hbuf⟩
    | some m =>
        rw [hmode] at hopen
        dsimp only at hopen
        cases hanswer : fOpen v (CString.text buf) m with
        | mk v₁ answer =>
            rw [hanswer] at hopen
            cases answer with
            | error error =>
                obtain ⟨-, rfl, -⟩ := outcome_eq rfl hopen
                exact ⟨h.numFd, hbuf⟩
            | ok fil =>
                dsimp only at hopen
                rw [Option.map_eq_some_iff] at hopen
                obtain ⟨fd, hfd, hopen⟩ := hopen
                obtain ⟨-, rfl, -⟩ := outcome_eq rfl (congrArg some hopen)
                refine ⟨?_, hbuf⟩
                have hfree : (t.fds fd).Free := Slots.free_of_findEmpty hfd
                have hfil := fOpen_fs hanswer
                have hused : ¬Fil.Free (if mode &&& O_APPEND ≠ 0 then
                    { fil with fptr := fil.fsize } else fil) := by
                  split_ifs
                  · exact hfil
                  · exact hfil
                have hcard := Slots.card_used_fill hfree hused
                change t.numFd + 1 = ((Slots.used Fil.Free _).card : Int)
                rw [hcard, h.numFd]
                rfl

theorem counted_close (h : Counted t) {fd : Fin MMCFS_MAX_FDS} (hopen : ¬(t.fds fd).Free) :
    Counted (mmcfsCloseR t fd) := by
  have hcard := @Slots.card_used_clear _ _ Fil.Free _ t.fds fd ⟨false, 0, 0, 0⟩ hopen rfl
  refine ⟨?_, h.pathBuf⟩
  change t.numFd - 1 = ((Slots.used Fil.Free _).card : Int)
  rw [h.numFd, ← hcard, Int.natCast_succ, Int.add_sub_cancel]
  rfl

theorem counted_step (h : Counted t) {call : Call} (hstep : step t call = some t') :
    Counted t' := by
  cases call with
  | open_ binary v path flags mode =>
      rw [step, Option.ite_none_left_eq_some, Option.map_eq_some_iff] at hstep
      obtain ⟨-, ⟨v', t', r⟩, hopen, rfl⟩ := hstep
      exact counted_open h hopen
  | close fd =>
      rw [step, Option.ite_none_left_eq_some, Option.some.injEq] at hstep
      obtain ⟨hopen, rfl⟩ := hstep
      exact counted_close h hopen

theorem counted_init : Counted mmcfsInit := by
  refine ⟨?_, rfl⟩
  have hempty : Slots.used Fil.Free mmcfsInit.fds = ∅ := Slots.used_eq_empty fun _ => rfl
  rw [hempty]
  rfl

/-- **Open flags.**  After every run of calls an open has the effect that POSIX says exactly if
no descriptor is left, or the path fits the buffer and the flags are translated to what they
say for the file that is there. -/
theorem posixEffect_iff {calls : List Call} (hrun : Transition.run step mmcfsInit calls = some t)
    {path : List UInt8} (hpath : 0 ∉ path) (binary : Bool) (v : Volume) (f : Flags)
    (mode : UInt32) :
    PosixEffect binary v t path f mode ↔ (¬∃ fd, (t.fds fd).Free) ∨
      (fullPath path).length < PATH_BUF_SIZE ∧ Translated f mode (v (fullPath path)) :=
  posixEffect_iff_translated
    (Transition.invariant_of_steps (fun _ _ _ h hstep => counted_step h hstep) counted_init hrun)
    hpath binary v f mode

end

/-! ## A new file -/

/-- Nothing but room. -/
def emptyVolume : Volume := fun _ => .missing

/-- `O_RDWR | O_CREAT` and a file with two bytes. -/
theorem posixEffect_create :
    PosixEffect false emptyVolume mmcfsInit [97] ⟨.readWrite, true, false, false, false⟩ 0 :=
  (@posixEffect_iff mmcfsInit [] rfl [97] (by decide) false emptyVolume
    ⟨.readWrite, true, false, false, false⟩ 0).mpr (.inr ⟨by decide, fun _ h => by cases h⟩)

/-- `O_RDWR | O_CREAT | O_EXCL` and a file that is not there: it is not created. -/
theorem not_posixEffect_exclusive :
    ¬PosixEffect false emptyVolume mmcfsInit [97] ⟨.readWrite, true, true, false, false⟩ 0 := by
  intro heffect
  obtain ⟨v', t', r, hrun, hposix⟩ := heffect
  have hfails : mmcfsOpenR false emptyVolume mmcfsInit [97]
      (Flags.bits ⟨.readWrite, true, true, false, false⟩) 0 =
      some (emptyVolume, { mmcfsInit with pathBuf := [47, 97] ++ List.replicate 38 0 },
        .error .ENOENT) := rfl
  obtain ⟨-, -, rfl⟩ := outcome_eq hfails hrun
  obtain ⟨fd, hfd⟩ := hposix.opens.mpr ⟨⟨⟨0, by decide⟩, rfl⟩, rfl⟩
  cases hfd

end Mmcfs
