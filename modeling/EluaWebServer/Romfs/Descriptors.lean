import Mathlib.Data.Finset.Card
import EluaWebServer.Lib.Transition
import EluaWebServer.Romfs.Lookup

/-!
# File descriptors of the ROM file system

The table of open files and the operations on it, as a system that is called,
and an abstract one, where a descriptor is a file with a position in it.  Every
sequence of calls gives the results that the abstract one may give.
-/

namespace Romfs

open Memory

def ROMFS_MAX_FDS : Nat := 4

inductive Errno where
  | ENFILE
  | ENOENT
  deriving DecidableEq, Repr

def SEEK_SET : Int := 0
def SEEK_CUR : Int := 1
def SEEK_END : Int := 2

/-- `romfs_fd_table` and `romfs_num_fd`. -/
structure Table where
  fds : Nat → FS
  numFd : Int

/-- A slot that was zeroed. -/
def FS.zero : FS := ⟨0, 0, 0, none⟩

def Table.set (t : Table) (fd : Nat) (pfs : FS) : Table :=
  { t with fds := fun i => if i = fd then pfs else t.fds i }

/-- The first slot that is free. -/
def romfsFindEmptyFd (t : Table) : Option Nat :=
  (List.range ROMFS_MAX_FDS).find? fun i => (t.fds i).pReadFunc.isNone

/-- `romfs_open_r`; there is no result when the loop of `romfs_open_file` has
not ended, or when it would write in front of the table. -/
def romfsOpenR (fuel : Nat) (mem : Mem) (t : Table) (path : List UInt8) :
    Option (Table × Except Errno Nat) :=
  if t.numFd = ROMFS_MAX_FDS then some (t, .error .ENFILE)
  else
    (romfsOpenFile fuel path mem FS.zero).bind fun (status, tempfs) =>
      if status ≠ .FS_FILE_OK then some (t, .error .ENOENT)
      else
        (romfsFindEmptyFd t).map fun i =>
          ({ t.set i tempfs with numFd := t.numFd + 1 }, .ok i)

def romfsCloseR (t : Table) (fd : Nat) : Table :=
  { t.set fd FS.zero with numFd := t.numFd - 1 }

/-- `romfs_read_r`: the table and the bytes that were read. -/
def romfsReadR (mem : Mem) (t : Table) (fd len : Nat) : Table × List UInt8 :=
  let pfs := t.fds fd
  let actlen := min len (u32 (pfs.size + 2 ^ 32 - pfs.offset))
  (t.set fd { pfs with offset := u32 (pfs.offset + actlen) },
    loadBytes mem (pfs.offset + pfs.baseaddr) actlen)

/-- The position that a seek is to, in 32 bits. -/
def newpos (pfs : FS) (off : BitVec 32) (whence : Int) : Option Nat :=
  if whence = SEEK_SET then some off.toNat
  else if whence = SEEK_CUR then some (u32 (pfs.offset + off.toNat))
  else if whence = SEEK_END then some (u32 (pfs.size + off.toNat))
  else none

/-- `romfs_lseek_r`: the table and the result. -/
def romfsLseekR (t : Table) (fd : Nat) (off : BitVec 32) (whence : Int) : Table × Int :=
  let pfs := t.fds fd
  match newpos pfs off whence with
  | none => (t, -1)
  | some pos => if pos > pfs.size then (t, -1) else (t.set fd { pfs with offset := pos }, pos)

/-! ## Sequences of calls -/

inductive Call where
  | openPath (path : List UInt8)
  | read (fd len : Nat)
  | lseek (fd : Nat) (off : BitVec 32) (whence : Int)
  | close (fd : Nat)

inductive Result where
  | fd (i : Nat)
  | errno (e : Errno)
  | bytes (bs : List UInt8)
  | pos (n : Int)
  | closed

/-- The result of an open. -/
def Result.ofOpen : Except Errno Nat → Result
  | .ok i => .fd i
  | .error e => .errno e

/-- The table, and the calls so far with their results. -/
structure System where
  table : Table
  trace : List (Call × Result)

def System.init : System := ⟨⟨fun _ => FS.zero, 0⟩, []⟩

/-- One call, of a descriptor in the table. -/
def step (fuel : Nat) (mem : Mem) (s : System) : Call → Option System
  | .openPath path =>
      (romfsOpenR fuel mem s.table path).map fun (t, r) =>
        ⟨t, s.trace ++ [(.openPath path, .ofOpen r)]⟩
  | .read fd len =>
      if fd < ROMFS_MAX_FDS then
        let (t, bs) := romfsReadR mem s.table fd len
        some ⟨t, s.trace ++ [(.read fd len, .bytes bs)]⟩
      else none
  | .lseek fd off whence =>
      if fd < ROMFS_MAX_FDS then
        let (t, n) := romfsLseekR s.table fd off whence
        some ⟨t, s.trace ++ [(.lseek fd off whence, .pos n)]⟩
      else none
  | .close fd =>
      if fd < ROMFS_MAX_FDS then
        some ⟨romfsCloseR s.table fd, s.trace ++ [(.close fd, .closed)]⟩
      else none

/-- The slots in use. -/
def Table.used (t : Table) : Finset Nat :=
  (Finset.range ROMFS_MAX_FDS).filter fun fd => (t.fds fd).pReadFunc.isSome

/-- Descriptors are in the table, and only open ones are closed. -/
def CallOk (s : System) : Call → Prop
  | .openPath _ => True
  | .read fd _ => fd < ROMFS_MAX_FDS
  | .lseek fd _ _ => fd < ROMFS_MAX_FDS
  | .close fd => fd ∈ s.table.used

instance (s : System) : (c : Call) → Decidable (CallOk s c)
  | .openPath _ => inferInstanceAs (Decidable True)
  | .read fd _ => inferInstanceAs (Decidable (fd < ROMFS_MAX_FDS))
  | .lseek fd _ _ => inferInstanceAs (Decidable (fd < ROMFS_MAX_FDS))
  | .close fd => inferInstanceAs (Decidable (fd ∈ s.table.used))

/-! ## Files with positions -/

/-- An open file. -/
structure OpenFile where
  data : List UInt8
  pos : Nat
  pos_le : pos ≤ data.length

namespace OpenFile

variable (g : OpenFile)

/-- At most `len` bytes from the position on. -/
def get (len : Nat) : List UInt8 := (g.data.drop g.pos).take len

/-- Moved on by what `get` reads. -/
def advance (len : Nat) : OpenFile :=
  ⟨g.data, g.pos + min len (g.data.length - g.pos), by have := g.pos_le; omega⟩

/-- Where a seek is to, as a signed number. -/
def target (off : Int) (whence : Int) : Option Int :=
  if whence = SEEK_SET then some off
  else if whence = SEEK_CUR then some (g.pos + off)
  else if whence = SEEK_END then some (g.data.length + off)
  else none

/-- The beginning of a file. -/
def start (data : List UInt8) : OpenFile := ⟨data, 0, Nat.zero_le _⟩

end OpenFile

/-- The open files by their descriptors. -/
abbrev Fds : Type := Nat → Option OpenFile

def Fds.set (a : Fds) (fd : Nat) (g : Option OpenFile) : Fds := fun i => if i = fd then g else a i

/-- What a call may return, and the open files after it. -/
inductive Spec (files : List File) (a : Fds) : Call → Result → Fds → Prop
  | full {path : List UInt8} :
      (∀ fd, fd < ROMFS_MAX_FDS → a fd ≠ none) →
      Spec files a (.openPath path) (.errno .ENFILE) a
  | missing {path : List UInt8} :
      (∃ fd, fd < ROMFS_MAX_FDS ∧ a fd = none) → lookup path 0 files = none →
      Spec files a (.openPath path) (.errno .ENOENT) a
  | opened {path : List UInt8} {fd base : Nat} {f : File} :
      fd < ROMFS_MAX_FDS → a fd = none → lookup path 0 files = some (base, f) →
      Spec files a (.openPath path) (.fd fd) (Fds.set a fd (some (.start f.data)))
  | read {fd len : Nat} {g : OpenFile} :
      a fd = some g →
      Spec files a (.read fd len) (.bytes (g.get len)) (Fds.set a fd (some (g.advance len)))
  | readClosed {fd len : Nat} {r : Result} : a fd = none → Spec files a (.read fd len) r a
  | seek {fd pos : Nat} {off : BitVec 32} {whence : Int} {g : OpenFile} (h : pos ≤ g.data.length) :
      a fd = some g → g.target off.toInt whence = some (pos : Int) →
      Spec files a (.lseek fd off whence) (.pos pos) (Fds.set a fd (some ⟨g.data, pos, h⟩))
  | seekRefused {fd : Nat} {off : BitVec 32} {whence : Int} {g : OpenFile} :
      a fd = some g →
      (∀ pos, g.target off.toInt whence = some pos → pos < 0 ∨ (g.data.length : Int) < pos) →
      Spec files a (.lseek fd off whence) (.pos (-1)) a
  | seekClosed {fd : Nat} {off : BitVec 32} {whence : Int} {r : Result} :
      a fd = none → Spec files a (.lseek fd off whence) r a
  | close {fd : Nat} {g : OpenFile} :
      a fd = some g → Spec files a (.close fd) .closed (Fds.set a fd none)

/-- A whole sequence of calls, beginning with no file open. -/
inductive Runs (files : List File) : List (Call × Result) → Fds → Prop
  | nil : Runs files [] fun _ => none
  | snoc {trace : List (Call × Result)} {a a' : Fds} {c : Call} {r : Result} :
      Runs files trace a → Spec files a c r a' → Runs files (trace ++ [(c, r)]) a'

/-! ## The table refines the open files -/

/-- A slot of the table, and what is open there. -/
def Matches (mem : Mem) (pfs : FS) : Option OpenFile → Prop
  | none => pfs.pReadFunc = none ∧ pfs.offset = 0 ∧ pfs.size = 0
  | some g =>
      pfs.pReadFunc.isSome = true ∧ pfs.offset = g.pos ∧ pfs.size = g.data.length ∧
        g.data.length < 2 ^ 16 ∧ At mem pfs.baseaddr g.data

/-- The table holds the open files, and their number. -/
structure Abs (mem : Mem) (t : Table) (a : Fds) : Prop where
  numFd : t.numFd = t.used.card
  slots : ∀ fd, fd < ROMFS_MAX_FDS → Matches mem (t.fds fd) (a fd)

variable {mem : Mem} {t : Table} {a : Fds} {files : List File}

theorem mem_used {fd : Nat} :
    fd ∈ t.used ↔ fd < ROMFS_MAX_FDS ∧ (t.fds fd).pReadFunc.isSome = true := by
  rw [Table.used, Finset.mem_filter, Finset.mem_range]

theorem Table.set_fds_self (t : Table) (fd : Nat) (pfs : FS) : (t.set fd pfs).fds fd = pfs :=
  if_pos rfl

theorem Table.set_fds_of_ne (t : Table) {fd i : Nat} (pfs : FS) (h : i ≠ fd) :
    (t.set fd pfs).fds i = t.fds i :=
  if_neg h

theorem Abs.used_iff (h : Abs mem t a) {fd : Nat} (hfd : fd < ROMFS_MAX_FDS) :
    fd ∈ t.used ↔ a fd ≠ none := by
  have hslot := h.slots fd hfd
  rw [mem_used]
  cases hg : a fd with
  | none =>
      rw [hg] at hslot
      rw [hslot.1]
      simp
  | some g =>
      rw [hg] at hslot
      simp [hfd, hslot.1]

/-- One slot changes; the number changes with the use of that slot. -/
theorem Abs.set (h : Abs mem t a) {fd : Nat} {pfs : FS} {g : Option OpenFile}
    (hmatch : Matches mem pfs g) {n : Int}
    (hn : n = (Table.used (t.set fd pfs)).card) :
    Abs mem { t.set fd pfs with numFd := n } (Fds.set a fd g) := by
  refine ⟨hn, fun i hi => ?_⟩
  by_cases heq : i = fd
  · subst heq
    simp only [Table.set_fds_self, Fds.set]
    exact hmatch
  · simp only [Table.set_fds_of_ne t pfs heq, Fds.set, if_neg heq]
    exact h.slots i hi

theorem used_set_same {fd : Nat} {pfs : FS}
    (h : pfs.pReadFunc.isSome = (t.fds fd).pReadFunc.isSome) :
    (t.set fd pfs).used = t.used := by
  refine Finset.filter_congr fun i _ => ?_
  by_cases heq : i = fd
  · subst heq
    rw [Table.set_fds_self, h]
  · rw [Table.set_fds_of_ne t pfs heq]

/-- A slot that stays in use, or stays free, does not change the number. -/
theorem Abs.update (h : Abs mem t a) {fd : Nat} {pfs : FS} {g : Option OpenFile}
    (hmatch : Matches mem pfs g) (huse : pfs.pReadFunc.isSome = (t.fds fd).pReadFunc.isSome) :
    Abs mem (t.set fd pfs) (Fds.set a fd g) :=
  h.set hmatch (n := t.numFd) (by rw [used_set_same huse, h.numFd])

theorem Fds.set_self {fd : Nat} {g : Option OpenFile} (h : a fd = g) : Fds.set a fd g = a := by
  funext i
  by_cases heq : i = fd
  · rw [Fds.set, if_pos heq, heq, h]
  · exact if_neg heq

/-- Without a free slot the table is full, and otherwise it is not. -/
theorem Abs.full_iff (h : Abs mem t a) :
    t.numFd = ROMFS_MAX_FDS ↔ ∀ fd, fd < ROMFS_MAX_FDS → a fd ≠ none := by
  rw [h.numFd, Int.natCast_inj]
  constructor
  · intro hcard fd hfd
    have hall : t.used = Finset.range ROMFS_MAX_FDS :=
      Finset.eq_of_subset_of_card_le (Finset.filter_subset _ _)
        (by rw [hcard, Finset.card_range])
    exact (h.used_iff hfd).mp (hall ▸ Finset.mem_range.mpr hfd)
  · intro hall
    have huse : t.used = Finset.range ROMFS_MAX_FDS := by
      refine Finset.filter_true_of_mem fun fd hfd => ?_
      have hlt := Finset.mem_range.mp hfd
      exact (mem_used.mp ((h.used_iff hlt).mpr (hall fd hlt))).2
    rw [huse, Finset.card_range]

/-- The empty slot that `romfs_find_empty_fd` finds. -/
theorem Abs.findEmpty (h : Abs mem t a) (hfree : t.numFd ≠ ROMFS_MAX_FDS) :
    ∃ fd, romfsFindEmptyFd t = some fd ∧ fd < ROMFS_MAX_FDS ∧ a fd = none ∧ fd ∉ t.used := by
  rw [Ne, h.full_iff] at hfree
  push Not at hfree
  obtain ⟨fd, hfd, hnone⟩ := hfree
  cases hfind : romfsFindEmptyFd t with
  | none =>
      have hslot := h.slots fd hfd
      rw [hnone] at hslot
      have hused := List.find?_eq_none.mp hfind fd (List.mem_range.mpr hfd)
      rw [hslot.1] at hused
      exact absurd rfl hused
  | some i =>
      have hi : i < ROMFS_MAX_FDS := List.mem_range.mp (List.mem_of_find?_eq_some hfind)
      have hempty := List.find?_some hfind
      have hunused : i ∉ t.used := by
        rw [mem_used]
        rintro ⟨-, hsome⟩
        rw [Option.isNone_iff_eq_none] at hempty
        rw [hempty] at hsome
        cases hsome
      refine ⟨i, rfl, hi, ?_, hunused⟩
      by_contra hne
      exact hunused ((h.used_iff hi).mpr hne)

theorem lookup_at {path : List UInt8} {i base : Nat} {f : File} (h : Laid mem i files)
    (hfound : lookup path i files = some (base, f)) : At mem base f.data := by
  induction files generalizing i with
  | nil => cases hfound
  | cons g files ih =>
      rw [lookup] at hfound
      split at hfound
      · obtain ⟨rfl, rfl⟩ := Prod.mk.inj (Option.some.inj hfound)
        exact h.record.data
      · exact ih h.tail hfound

theorem open_refines (h : Abs mem t a) (hmem : Laid mem 0 files) {fuel : Nat}
    (hfuel : files.length < fuel) (path : List UInt8) :
    ∃ t' r a', romfsOpenR fuel mem t path = some (t', r) ∧
      Spec files a (.openPath path) (.ofOpen r) a' ∧ Abs mem t' a' := by
  rw [romfsOpenR]
  by_cases hfull : t.numFd = ROMFS_MAX_FDS
  · rw [if_pos hfull]
    exact ⟨t, _, a, rfl, .full (h.full_iff.mp hfull), h⟩
  rw [if_neg hfull, romfsOpenFile, findFile_eq hmem hfuel, Option.bind_some]
  obtain ⟨fd, hfind, hfd, hnone, hunused⟩ := h.findEmpty hfull
  cases hlookup : lookup path 0 files with
  | none => exact ⟨t, _, a, rfl, .missing ⟨fd, hfd, hnone⟩ hlookup, h⟩
  | some found =>
      obtain ⟨base, f⟩ := found
      have hcard : (Table.used (t.set fd ⟨base, 0, f.data.length, some mem⟩)) =
          insert fd t.used := by
        ext i
        by_cases heq : i = fd
        · subst heq
          simp [mem_used, Table.set_fds_self, hfd]
        · simp [mem_used, Table.set_fds_of_ne t _ heq, heq]
      simp only [opened, ne_eq, not_true, if_false, hfind, Option.map_some]
      refine ⟨_, _, _, rfl, .opened hfd hnone hlookup, h.set ?_ ?_⟩
      · exact ⟨rfl, rfl, rfl, f.data_length, lookup_at hmem hlookup⟩
      · rw [hcard, Finset.card_insert_of_notMem hunused, h.numFd]
        rfl

theorem read_refines (files : List File) (h : Abs mem t a) {fd : Nat} (hfd : fd < ROMFS_MAX_FDS) (len : Nat) :
    ∃ a', Spec files a (.read fd len) (.bytes (romfsReadR mem t fd len).2) a' ∧
      Abs mem (romfsReadR mem t fd len).1 a' := by
  have hslot := h.slots fd hfd
  cases hg : a fd with
  | none =>
      rw [hg] at hslot
      obtain ⟨hread, hoffset, hsize⟩ := hslot
      refine ⟨_, .readClosed hg, ?_⟩
      rw [← Fds.set_self hg]
      refine h.update ⟨hread, ?_, hsize⟩ rfl
      rw [hoffset, hsize]
      simp [u32]
  | some g =>
      rw [hg] at hslot
      obtain ⟨hread, hoffset, hsize, hlen, hat⟩ := hslot
      have hpos := g.pos_le
      have hact : u32 (g.data.length + 2 ^ 32 - g.pos) = g.data.length - g.pos := by
        rw [u32, show g.data.length + 2 ^ 32 - g.pos = g.data.length - g.pos + 2 ^ 32 by omega,
          Nat.add_mod_right]
        exact Nat.mod_eq_of_lt (by omega)
      have hbytes : (romfsReadR mem t fd len).2 = g.get len := by
        simp only [romfsReadR, hoffset, hsize, hact]
        rw [Nat.add_comm g.pos, hat.loadBytes_drop (by omega), OpenFile.get]
        by_cases hle : len ≤ g.data.length - g.pos
        · rw [Nat.min_eq_left hle]
        · rw [Nat.min_eq_right (by omega), List.take_of_length_le (by rw [List.length_drop]),
            List.take_of_length_le (by rw [List.length_drop]; omega)]
      rw [hbytes]
      refine ⟨_, .read hg, h.update ⟨hread, ?_, hsize, hlen, hat⟩ rfl⟩
      rw [hoffset, hsize, hact]
      exact Nat.mod_eq_of_lt (by omega)

/-- A seek is within the file exactly when its 32-bit position is. -/
theorem newpos_eq {pfs : FS} {g : OpenFile} (hoffset : pfs.offset = g.pos)
    (hsize : pfs.size = g.data.length) (hlen : g.data.length < 2 ^ 16) (off : BitVec 32)
    (whence : Int) :
    (newpos pfs off whence = none ∧ g.target off.toInt whence = none) ∨
    ∃ pos target, newpos pfs off whence = some pos ∧
      g.target off.toInt whence = some target ∧
      (pos ≤ g.data.length → target = pos) ∧
      (g.data.length < pos → target < 0 ∨ (g.data.length : Int) < target) := by
  have hlt := off.isLt
  have hint := off.toInt_eq_toNat_cond
  have hpos := g.pos_le
  unfold newpos OpenFile.target
  by_cases hset : whence = SEEK_SET
  · rw [if_pos hset, if_pos hset]
    refine .inr ⟨_, _, rfl, rfl, ?_⟩
    split at hint <;> omega
  rw [if_neg hset, if_neg hset]
  by_cases hcur : whence = SEEK_CUR
  · rw [if_pos hcur, if_pos hcur]
    refine .inr ⟨_, _, rfl, rfl, ?_⟩
    rw [u32, hoffset]
    split at hint <;> omega
  rw [if_neg hcur, if_neg hcur]
  by_cases hend : whence = SEEK_END
  · rw [if_pos hend, if_pos hend]
    refine .inr ⟨_, _, rfl, rfl, ?_⟩
    rw [u32, hsize]
    split at hint <;> omega
  rw [if_neg hend, if_neg hend]
  exact .inl ⟨rfl, rfl⟩

theorem lseek_refines (files : List File) (h : Abs mem t a) {fd : Nat} (hfd : fd < ROMFS_MAX_FDS) (off : BitVec 32)
    (whence : Int) :
    ∃ a', Spec files a (.lseek fd off whence) (.pos (romfsLseekR t fd off whence).2) a' ∧
      Abs mem (romfsLseekR t fd off whence).1 a' := by
  have hslot := h.slots fd hfd
  cases hg : a fd with
  | none =>
      rw [hg] at hslot
      obtain ⟨hread, hoffset, hsize⟩ := hslot
      refine ⟨_, .seekClosed hg, ?_⟩
      unfold romfsLseekR
      cases hnew : newpos (t.fds fd) off whence with
      | none =>
          simp only [hnew]
          exact h
      | some pos =>
          by_cases hgt : pos > (t.fds fd).size
          · simp only [hnew, if_pos hgt]
            exact h
          · simp only [hnew, if_neg hgt]
            rw [← Fds.set_self hg]
            exact h.update ⟨hread, show pos = 0 by omega, hsize⟩ rfl
  | some g =>
      rw [hg] at hslot
      obtain ⟨hread, hoffset, hsize, hlen, hat⟩ := hslot
      unfold romfsLseekR
      rcases newpos_eq hoffset hsize hlen off whence with
        ⟨hnew, htarget⟩ | ⟨pos, target, hnew, htarget, hin, hout⟩
      · simp only [hnew]
        refine ⟨a, .seekRefused hg fun pos hpos => ?_, h⟩
        rw [htarget] at hpos
        cases hpos
      · by_cases hgt : pos > (t.fds fd).size
        · simp only [hnew, if_pos hgt]
          refine ⟨a, .seekRefused hg fun n hn => ?_, h⟩
          rw [htarget] at hn
          obtain rfl := Option.some.inj hn
          exact hout (hsize ▸ hgt)
        · simp only [hnew, if_neg hgt]
          have hle : pos ≤ g.data.length := by omega
          exact ⟨_, .seek hle hg (by rw [htarget, hin hle]),
            h.update ⟨hread, rfl, hsize, hlen, hat⟩ rfl⟩

theorem close_refines (files : List File) (h : Abs mem t a) {fd : Nat} (hused : fd ∈ t.used) :
    ∃ a', Spec files a (.close fd) .closed a' ∧ Abs mem (romfsCloseR t fd) a' := by
  have hfd := (mem_used.mp hused).1
  obtain ⟨g, hg⟩ := Option.ne_none_iff_exists'.mp ((h.used_iff hfd).mp hused)
  have hcard : (Table.used (t.set fd FS.zero)) = t.used.erase fd := by
    ext i
    by_cases heq : i = fd
    · subst heq
      simp [mem_used, Table.set_fds_self, FS.zero]
    · simp [mem_used, Table.set_fds_of_ne t _ heq, heq]
  refine ⟨_, .close hg, h.set (show Matches mem FS.zero none from ⟨rfl, rfl, rfl⟩) ?_⟩
  have hpos : 0 < t.used.card := Finset.card_pos.mpr ⟨fd, hused⟩
  rw [hcard, Finset.card_erase_of_mem hused, h.numFd]
  omega

/-- Every call returns, with a result that the open files may give. -/
theorem step_refines {s : System} (h : Abs mem s.table a) (hrun : Runs files s.trace a)
    (hmem : Laid mem 0 files) {fuel : Nat} (hfuel : files.length < fuel) {c : Call}
    (hok : CallOk s c) :
    ∃ s', step fuel mem s c = some s' ∧ ∃ a', Runs files s'.trace a' ∧ Abs mem s'.table a' := by
  cases c with
  | openPath path =>
      obtain ⟨t', r, a', hopen, hspec, habs⟩ := open_refines h hmem hfuel path
      refine ⟨⟨t', s.trace ++ [(.openPath path, .ofOpen r)]⟩, ?_, a', hrun.snoc hspec, habs⟩
      rw [step, hopen, Option.map_some]
  | read fd len =>
      obtain ⟨a', hspec, habs⟩ := read_refines files h hok len
      exact ⟨_, if_pos hok, a', hrun.snoc hspec, habs⟩
  | lseek fd off whence =>
      obtain ⟨a', hspec, habs⟩ := lseek_refines files h hok off whence
      exact ⟨_, if_pos hok, a', hrun.snoc hspec, habs⟩
  | close fd =>
      obtain ⟨a', hspec, habs⟩ := close_refines files h hok
      exact ⟨_, if_pos (mem_used.mp hok).1, a', hrun.snoc hspec, habs⟩

theorem abs_init : Abs mem System.init.table fun _ => none :=
  ⟨rfl, fun _ _ => ⟨rfl, rfl, rfl⟩⟩

/-- **Refinement.**  Every sequence of calls on the image of some files runs to
its end, and its results are those of independent files with positions; the
number of descriptors is that of the used slots. -/
theorem romfs_refines (hmem : Laid mem 0 files) {fuel : Nat} (hfuel : files.length < fuel)
    {calls : List Call}
    (hok : Transition.Conforming (step fuel mem) CallOk System.init calls) :
    ∃ s, Transition.run (step fuel mem) System.init calls = some s ∧
      ∃ a, Runs files s.trace a ∧ Abs mem s.table a :=
  @Transition.run_of_total _ _ (step fuel mem) CallOk
    (fun s => ∃ a, Runs files s.trace a ∧ Abs mem s.table a)
    (fun _ _ ⟨_, hrun, habs⟩ hok => step_refines habs hrun hmem hfuel hok)
    _ _ ⟨_, .nil, abs_init⟩ hok

/-- A file of one byte is opened twice, and one descriptor is moved and closed. -/
theorem romfs_refines_two_opens :
    ∃ s, Transition.run (step 3 (memOf (mkfs twoFiles.files))) System.init
        [.openPath [0x62], .openPath [0x42], .read 0 9, .lseek 1 (-1) SEEK_CUR, .lseek 1 1 SEEK_SET,
          .close 0, .openPath [0x63]] = some s ∧
      ∃ a, Runs twoFiles.files s.trace a ∧ Abs (memOf (mkfs twoFiles.files)) s.table a :=
  romfs_refines (by decide +kernel) (by decide) (by decide +kernel)

end Romfs
