import EluaWebServer.Lib.Memory
import EluaWebServer.Lib.CaseFold

/-!
# ROM file system images

The image that `mkfs` makes of a list of files: for each file its name with a
terminator, its size in 16 bits and its data, and a terminator behind the last.
-/

namespace Romfs

open Memory

def DM_MAX_FNAME_LENGTH : Nat := 30

/-- A file that `mkfs` takes. -/
structure File where
  name : List UInt8
  data : List UInt8
  name_ne : name ≠ []
  name_chars : 0 ∉ name
  name_length : name.length ≤ DM_MAX_FNAME_LENGTH
  data_length : data.length < 2 ^ 16

/-- `string.pack( "<h", n )`. -/
def packShort (n : Nat) : List UInt8 := [UInt8.ofNat n, UInt8.ofNat (n >>> 8)]

/-- What `mkfs` writes for a file. -/
def File.record (f : File) : List UInt8 :=
  f.name ++ 0 :: packShort f.data.length ++ f.data

/-- The image, with the final terminator. -/
def mkfs : List File → List UInt8
  | [] => [0]
  | f :: files => f.record ++ mkfs files

/-- Files whose names are pairwise distinct ignoring case. -/
structure Volume where
  files : List File
  distinct : files.Pairwise fun f g => CaseFold.strcasecmpEq f.name g.name = false

/-- The image of the files is at an address, within the 32-bit address space. -/
structure Laid (mem : Mem) (i : Nat) (files : List File) : Prop where
  bytes : At mem i (mkfs files)
  fits : i + (mkfs files).length ≤ 2 ^ 32

instance (mem : Mem) (i : Nat) (files : List File) : Decidable (Laid mem i files) :=
  decidable_of_iff (At mem i (mkfs files) ∧ i + (mkfs files).length ≤ 2 ^ 32)
    ⟨fun h => ⟨h.1, h.2⟩, fun h => ⟨h.1, h.2⟩⟩

theorem length_record (f : File) : f.record.length = f.name.length + 3 + f.data.length := by
  simp only [File.record, packShort, List.length_append, List.length_cons, List.length_nil]

theorem mkfs_pos (files : List File) : 0 < (mkfs files).length := by
  cases files with
  | nil => exact Nat.one_pos
  | cons f files =>
      rw [mkfs, List.length_append, length_record]
      omega

variable {mem : Mem} {i : Nat} {f : File} {files : List File}

theorem Laid.head (h : Laid mem i (f :: files)) : At mem i f.record := (at_append.mp h.bytes).1

theorem Laid.tail (h : Laid mem i (f :: files)) : Laid mem (i + f.record.length) files := by
  have hfits := h.fits
  rw [mkfs, List.length_append] at hfits
  exact ⟨(at_append.mp h.bytes).2, by omega⟩

/-- There is at least the terminator behind a record. -/
theorem Laid.next_lt (h : Laid mem i (f :: files)) : i + f.record.length < 2 ^ 32 := by
  have hfits := h.tail.fits
  have hpos := mkfs_pos files
  omega

end Romfs
