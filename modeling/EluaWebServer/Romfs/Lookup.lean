import EluaWebServer.Romfs.Image

/-!
# Looking up files in an image

`romfs_open_file` and `romfs_readdir_r` walk through the records of an image,
reading bytes at 32-bit addresses.  Loops that need not end on arbitrary memory
have a bound on their iterations, and are `none` when it is reached.
-/

namespace Romfs

open Memory CaseFold

inductive Status where
  | FS_FILE_NOT_FOUND
  | FS_FILE_OK
  deriving DecidableEq, Repr

/-- A small "FILE" structure. -/
structure FS where
  baseaddr : Nat
  offset : Nat
  size : Nat
  pReadFunc : Option Mem

/-- The value of an unsigned 32-bit expression. -/
def u32 (n : Nat) : Nat := n % 2 ^ 32

/-- Read a file name: the characters from `i` to the terminator, at most `n`. -/
def nameAt (read : Mem) : Nat → Nat → List UInt8
  | _, 0 => []
  | i, n + 1 => if read (u32 i) = 0 then [] else read (u32 i) :: nameAt read (i + 1) n

/-- Read the size. -/
def sizeAt (read : Mem) (j : Nat) : Nat :=
  (read (u32 j)).toNat + (read (u32 (j + 1))).toNat <<< 8

/-- The loop of `romfs_open_file`, at address `i`. -/
def findFile (fname : List UInt8) (read : Mem) (pfs : FS) : Nat → Nat → Option (Status × FS)
  | 0, _ => none
  | fuel + 1, i =>
      let fsname := nameAt read i DM_MAX_FNAME_LENGTH
      if fsname = [] then some (.FS_FILE_NOT_FOUND, pfs)
      else
        let j := u32 (i + fsname.length + 1)
        let fsize := sizeAt read j
        if strncasecmpEq DM_MAX_FNAME_LENGTH fname fsname then
          some (.FS_FILE_OK, ⟨u32 (j + 2), 0, fsize, some read⟩)
        else findFile fname read pfs fuel (u32 (j + 2 + fsize))

/-- Open the given file. -/
def romfsOpenFile (fuel : Nat) (fname : List UInt8) (read : Mem) (pfs : FS) :
    Option (Status × FS) :=
  findFile fname read pfs fuel 0

/-! ## Directory operations -/

structure Dirent where
  fname : List UInt8
  fsize : Nat
  ftime : Nat
  deriving DecidableEq, Repr

/-- The directory position that `romfs_opendir_r` returns, for `/` or no name. -/
def romfsOpendir (dname : Option (List UInt8)) : Option Nat :=
  match dname with
  | none => some 0
  | some [] => some 0
  | some [c] => if c = 0x2F then some 0 else none
  | some _ => none

/-- The characters from `off` to the terminator. -/
def charsAt (read : Mem) : Nat → Nat → Option (List UInt8)
  | 0, _ => none
  | n + 1, off =>
      if read (u32 off) = 0 then some []
      else (charsAt read n (off + 1)).map (read (u32 off) :: ·)

/-- The next directory entry, or none, and the next position. -/
def romfsReaddir (fuel : Nat) (read : Mem) (d : Nat) : Option (Option Dirent × Nat) :=
  if read d = 0 then some (none, d)
  else
    (charsAt read fuel d).map fun fname =>
      let off := u32 (d + fname.length + 1)
      let fsize := sizeAt read off
      (some ⟨fname, fsize, 0⟩, u32 (off + 2 + fsize))

/-- What `n` calls of `romfs_readdir_r` return. -/
def listDir (fuel : Nat) (read : Mem) : Nat → Nat → Option (List (Option Dirent))
  | 0, _ => some []
  | n + 1, d =>
      (romfsReaddir fuel read d).bind fun r => (listDir fuel read n r.2).map (r.1 :: ·)

/-! ## Records -/

/-- What the walkers read at a record of the image. -/
structure RecordAt (mem : Mem) (i : Nat) (f : File) : Prop where
  start : u32 i = i
  name : nameAt mem i DM_MAX_FNAME_LENGTH = f.name
  chars : ∀ fuel, DM_MAX_FNAME_LENGTH < fuel → charsAt mem fuel i = some f.name
  sizeAddr : u32 (i + f.name.length + 1) = i + f.name.length + 1
  size : sizeAt mem (i + f.name.length + 1) = f.data.length
  baseaddr : u32 (i + f.name.length + 1 + 2) = i + f.name.length + 3
  data : At mem (i + f.name.length + 3) f.data
  next : u32 (i + f.name.length + 1 + 2 + f.data.length) = i + f.record.length

variable {mem : Mem}

theorem nameAt_eq {i n : Nat} {name rest : List UInt8} (hat : At mem i (name ++ 0 :: rest))
    (hchars : 0 ∉ name) (hlen : name.length ≤ n) (hfits : i + name.length < 2 ^ 32) :
    nameAt mem i n = name := by
  induction name generalizing i n with
  | nil =>
      cases n with
      | zero => rfl
      | succ n =>
          obtain ⟨hbyte, -⟩ := at_cons.mp hat
          rw [List.length_nil, Nat.add_zero] at hfits
          rw [nameAt, u32, Nat.mod_eq_of_lt hfits, hbyte, if_pos rfl]
  | cons c name ih =>
      rw [List.length_cons] at hlen hfits
      obtain ⟨hbyte, hrest⟩ := at_cons.mp hat
      obtain ⟨n, rfl⟩ := Nat.exists_eq_succ_of_ne_zero (show n ≠ 0 by omega)
      have hc : c ≠ 0 := fun h => hchars (h ▸ List.mem_cons_self)
      have hname : 0 ∉ name := fun h => hchars (List.mem_cons_of_mem c h)
      rw [Nat.succ_eq_add_one, nameAt, u32, Nat.mod_eq_of_lt (by omega), hbyte, if_neg hc,
        ih hrest hname (by omega) (by omega)]

theorem charsAt_eq {i fuel : Nat} {name rest : List UInt8} (hat : At mem i (name ++ 0 :: rest))
    (hchars : 0 ∉ name) (hlen : name.length < fuel) (hfits : i + name.length < 2 ^ 32) :
    charsAt mem fuel i = some name := by
  induction name generalizing i fuel with
  | nil =>
      obtain ⟨fuel, rfl⟩ := Nat.exists_eq_succ_of_ne_zero (Nat.ne_of_gt hlen)
      obtain ⟨hbyte, -⟩ := at_cons.mp hat
      rw [List.length_nil, Nat.add_zero] at hfits
      rw [Nat.succ_eq_add_one, charsAt, u32, Nat.mod_eq_of_lt hfits, hbyte, if_pos rfl]
  | cons c name ih =>
      rw [List.length_cons] at hlen hfits
      obtain ⟨hbyte, hrest⟩ := at_cons.mp hat
      obtain ⟨fuel, rfl⟩ := Nat.exists_eq_succ_of_ne_zero (show fuel ≠ 0 by omega)
      have hc : c ≠ 0 := fun h => hchars (h ▸ List.mem_cons_self)
      have hname : 0 ∉ name := fun h => hchars (List.mem_cons_of_mem c h)
      rw [Nat.succ_eq_add_one, charsAt, u32, Nat.mod_eq_of_lt (by omega), hbyte, if_neg hc,
        ih hrest hname (by omega) (by omega), Option.map_some]

/-- The size that `mkfs` packed. -/
theorem sizeAt_eq {j n : Nat} (hat : At mem j (packShort n)) (hn : n < 2 ^ 16)
    (hfits : j + 1 < 2 ^ 32) : sizeAt mem j = n := by
  obtain ⟨hlow, hrest⟩ := at_cons.mp hat
  obtain ⟨hhigh, -⟩ := at_cons.mp hrest
  rw [sizeAt, u32, u32, Nat.mod_eq_of_lt (by omega), Nat.mod_eq_of_lt hfits, hlow, hhigh,
    UInt8.toNat_ofNat', UInt8.toNat_ofNat', Nat.shiftRight_eq_div_pow, Nat.shiftLeft_eq]
  omega

theorem Laid.record {i : Nat} {f : File} {files : List File} (h : Laid mem i (f :: files)) :
    RecordAt mem i f := by
  have hlt := h.next_lt
  have hhead := h.head
  rw [length_record] at hlt
  rw [File.record, List.append_assoc] at hhead
  have hsize : At mem (i + f.name.length + 1) (packShort f.data.length ++ f.data) :=
    (at_cons.mp (at_append.mp hhead).2).2
  rw [at_append] at hsize
  refine ⟨Nat.mod_eq_of_lt (by omega), nameAt_eq hhead f.name_chars f.name_length (by omega),
    fun fuel hfuel => charsAt_eq hhead f.name_chars
      (Nat.lt_of_le_of_lt f.name_length hfuel) (by omega),
    Nat.mod_eq_of_lt (by omega), sizeAt_eq hsize.1 f.data_length (by omega), ?_, hsize.2, ?_⟩
  · exact Nat.mod_eq_of_lt (by omega)
  · rw [length_record, u32, Nat.mod_eq_of_lt (by omega)]
    omega

/-- The terminator of the image. -/
theorem Laid.final {i : Nat} (h : Laid mem i []) : mem i = 0 ∧ u32 i = i :=
  ⟨(at_cons.mp h.bytes).1, Nat.mod_eq_of_lt h.fits⟩

/-! ## Opening -/

/-- The first of the files at address `i` with the given name, and where its
data is. -/
def lookup (fname : List UInt8) : Nat → List File → Option (Nat × File)
  | _, [] => none
  | i, f :: files =>
      if strncasecmpEq DM_MAX_FNAME_LENGTH fname f.name then some (i + f.name.length + 3, f)
      else lookup fname (i + f.record.length) files

/-- What `romfs_open_file` returns when it has found that. -/
def opened (read : Mem) (pfs : FS) : Option (Nat × File) → Status × FS
  | none => (.FS_FILE_NOT_FOUND, pfs)
  | some (base, f) => (.FS_FILE_OK, ⟨base, 0, f.data.length, some read⟩)

/-- The walk through an image ends, with the first file of that name. -/
theorem findFile_eq {i fuel : Nat} {files : List File} (h : Laid mem i files)
    (hfuel : files.length < fuel) (fname : List UInt8) (pfs : FS) :
    findFile fname mem pfs fuel i = some (opened mem pfs (lookup fname i files)) := by
  induction files generalizing i fuel with
  | nil =>
      obtain ⟨fuel, rfl⟩ := Nat.exists_eq_succ_of_ne_zero (Nat.ne_of_gt hfuel)
      obtain ⟨hbyte, hstart⟩ := h.final
      have hname : nameAt mem i DM_MAX_FNAME_LENGTH = [] := by
        rw [DM_MAX_FNAME_LENGTH, nameAt, hstart, hbyte, if_pos rfl]
      rw [Nat.succ_eq_add_one, findFile, hname, if_pos rfl]
      rfl
  | cons f files ih =>
      obtain ⟨fuel, rfl⟩ := Nat.exists_eq_succ_of_ne_zero (Nat.ne_of_gt (Nat.zero_lt_of_lt hfuel))
      have hrec := h.record
      simp only [findFile, hrec.name, if_neg f.name_ne, hrec.sizeAddr,
        hrec.size, hrec.baseaddr, hrec.next, lookup]
      by_cases hmatch : strncasecmpEq DM_MAX_FNAME_LENGTH fname f.name = true
      · rw [if_pos hmatch, if_pos hmatch]
        rfl
      · rw [if_neg hmatch, if_neg hmatch]
        exact ih h.tail (by simpa using hfuel)

/-- Names within the maximum length are compared as a whole. -/
theorem strncasecmpEq_of_le {fname : List UInt8} (h : fname.length ≤ DM_MAX_FNAME_LENGTH)
    (f : File) :
    strncasecmpEq DM_MAX_FNAME_LENGTH fname f.name = strcasecmpEq fname f.name := by
  rw [strncasecmpEq, List.take_of_length_le h, List.take_of_length_le f.name_length]

theorem lookup_none {fname : List UInt8} (hlen : fname.length ≤ DM_MAX_FNAME_LENGTH) {i : Nat}
    {files : List File} (h : ∀ f ∈ files, strcasecmpEq fname f.name = false) :
    lookup fname i files = none := by
  induction files generalizing i with
  | nil => rfl
  | cons f files ih =>
      rw [lookup, strncasecmpEq_of_le hlen, h f List.mem_cons_self, if_neg Bool.false_ne_true]
      exact ih fun g hg => h g (List.mem_cons_of_mem f hg)

/-- The first file of the name is found behind the records before it. -/
theorem lookup_some {fname : List UInt8} (hlen : fname.length ≤ DM_MAX_FNAME_LENGTH) {i : Nat}
    {before after : List File} {f : File}
    (hbefore : ∀ g ∈ before, strcasecmpEq fname g.name = false)
    (hf : strcasecmpEq fname f.name = true) :
    lookup fname i (before ++ f :: after) =
      some (i + (before.flatMap File.record).length + f.name.length + 3, f) := by
  induction before generalizing i with
  | nil =>
      rw [List.nil_append, lookup, strncasecmpEq_of_le hlen, if_pos hf]
      rfl
  | cons g before ih =>
      rw [List.cons_append, lookup, strncasecmpEq_of_le hlen, hbefore g List.mem_cons_self,
        if_neg Bool.false_ne_true, ih fun x hx => hbefore x (List.mem_cons_of_mem g hx),
        List.flatMap_cons, List.length_append, ← Nat.add_assoc]

/-- In a volume no earlier file has a name that equals this one. -/
theorem Volume.before_ne (v : Volume) {before after : List File} {f : File}
    (hfiles : v.files = before ++ f :: after) {fname : List UInt8}
    (hf : strcasecmpEq fname f.name = true) :
    ∀ g ∈ before, strcasecmpEq fname g.name = false := by
  intro g hg
  have hdistinct := v.distinct
  rw [hfiles, List.pairwise_append] at hdistinct
  have hne := hdistinct.2.2 g hg f List.mem_cons_self
  by_contra hmatch
  rw [Bool.not_eq_false] at hmatch
  have heq := strcasecmpEq_trans (strcasecmpEq_symm hmatch) hf
  rw [heq] at hne
  cases hne

/-- The data of a file is behind its name and its size. -/
theorem Laid.dataAt {i : Nat} {before after : List File} {f : File}
    (h : Laid mem i (before ++ f :: after)) :
    At mem (i + (before.flatMap File.record).length + f.name.length + 3) f.data := by
  induction before generalizing i with
  | nil => exact h.record.data
  | cons g before ih =>
      have hrest := ih h.tail
      rwa [Nat.add_assoc i, ← List.length_append, ← List.flatMap_cons] at hrest

/-! ## Listing -/

def File.dirent (f : File) : Dirent := ⟨f.name, f.data.length, 0⟩

theorem romfsReaddir_cons {i fuel : Nat} {f : File} {files : List File}
    (h : Laid mem i (f :: files)) (hfuel : DM_MAX_FNAME_LENGTH < fuel) :
    romfsReaddir fuel mem i = some (some f.dirent, i + f.record.length) := by
  have hrec := h.record
  have hbyte : mem i ≠ 0 := by
    obtain ⟨c, name, hname⟩ := List.exists_cons_of_ne_nil f.name_ne
    have hhead := h.head
    rw [File.record, hname] at hhead
    have hc := (at_cons.mp hhead).1
    rw [hc]
    rintro rfl
    exact f.name_chars (hname ▸ List.mem_cons_self)
  rw [romfsReaddir, if_neg hbyte, hrec.chars fuel hfuel, Option.map_some]
  simp only [hrec.sizeAddr, hrec.size, hrec.next]
  rfl

/-- Listing goes through the files in order, and stays at the end. -/
theorem listDir_eq {i fuel : Nat} {files : List File} (h : Laid mem i files)
    (hfuel : DM_MAX_FNAME_LENGTH < fuel) (n : Nat) :
    listDir fuel mem n i =
      some (((files.map fun f : File => some f.dirent) ++ List.replicate n none).take n) := by
  induction n generalizing i files with
  | zero => rfl
  | succ n ih =>
      cases files with
      | nil =>
          obtain ⟨hbyte, -⟩ := h.final
          rw [listDir, romfsReaddir, if_pos hbyte, Option.bind_some, ih h]
          rfl
      | cons f files =>
          have hlen : n ≤ ((files.map fun f : File => some f.dirent) ++
              List.replicate n none).length := by
            rw [List.length_append, List.length_replicate]
            exact Nat.le_add_left n _
          rw [listDir, romfsReaddir_cons h hfuel, Option.bind_some, ih h.tail, Option.map_some,
            List.map_cons, List.cons_append, List.take_succ_cons, List.replicate_succ',
            ← List.append_assoc, List.take_append_of_le_length hlen]

/-- The memory of a list of bytes. -/
def memOf (bs : List UInt8) : Mem := ⟨fun i => bs.getD i 0⟩

/-- Two files, the first with a name of the maximum length and with data that
looks like a record. -/
def twoFiles : Volume where
  files :=
    [⟨List.replicate 30 0x61, [0x62, 0, 1, 0, 0x63], by decide, by decide, by decide, by decide⟩,
      ⟨[0x62], [0x64], by decide, by decide, by decide, by decide⟩]
  distinct := by decide

end Romfs
