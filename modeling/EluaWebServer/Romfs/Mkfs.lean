import EluaWebServer.Romfs.Lookup

/-!
# Making images

`mkfs` reads the files of a directory on the host, changes them according to its mode and writes
them as the bytes of a C array.  What the host has and does is a parameter.
-/

namespace Mkfs

open Romfs Memory

def maxlen : Nat := 30

inductive Mode where
  | verbatim
  | compile
  | compress
  /-- Anything else. -/
  | other
  deriving DecidableEq

/-- The computer that `mkfs` runs on, with a state. -/
structure Host (σ : Type) where
  windows : Bool
  /-- `io.open( outfname, "wb" )`. -/
  create : σ → Option σ
  isFile : σ → List UInt8 → Bool
  /-- What is in a file that can be opened. -/
  read : σ → List UInt8 → Option (List UInt8)
  /-- `compcmd`, with the new name and the name. -/
  execute : σ → List UInt8 → List UInt8 → Int × σ
  remove : σ → List UInt8 → σ

variable {σ : Type}

def Host.dirSep (h : Host σ) : UInt8 := if h.windows then 0x5C else 0x2F

def dot : UInt8 := 0x2E
def extLua : List UInt8 := [0x2E, 0x6C, 0x75, 0x61]
def extLc : List UInt8 := [0x2E, 0x6C, 0x63]
def extLuaTmp : List UInt8 := [0x2E, 0x6C, 0x75, 0x61, 0x2E, 0x74, 0x6D, 0x70]

/-- The parts in front of the last dot and from it on, if there is one. -/
def splitPath (s : List UInt8) : List UInt8 × Option (List UInt8) :=
  let behind := (s.reverse.takeWhile (· ≠ dot)).length
  if behind = s.length then (s, none)
  else (s.take (s.length - behind - 1), some (s.drop (s.length - behind - 1)))

/-- A name in the image, and what is stored under it. -/
abbrev Entry := List UInt8 × List UInt8

/-! ## Taking a file -/

/-- A source file is compiled or compressed into another file, which is read and removed. -/
def process (h : Host σ) (mode : Mode) (realname fname : List UInt8) (s : σ) :
    Option (Entry × σ) :=
  let fnamepart := (splitPath realname).1
  let newname := fnamepart ++ if mode = .compress then extLuaTmp else extLc
  let (code, s) := h.execute s newname realname
  if code ≠ 0 then none
  else
    (h.read s newname).map fun filedata =>
      ((if mode = .compile then (splitPath fname).1 ++ extLc else fname, filedata),
        h.remove s newname)

/-- One file of the list: it is skipped, or it is what it is stored as.  There is no result when
`mkfs` gives up. -/
def takeFile (h : Host σ) (dirname : List UInt8) (mode : Mode) (fname : List UInt8) (s : σ) :
    Option (Option Entry × σ) :=
  let realname := dirname ++ h.dirSep :: fname
  if maxlen < fname.length ∨ h.isFile s realname = false then some (none, s)
  else
    match h.read s realname with
    | none => none
    | some filedata =>
        if (mode = .compile ∨ mode = .compress) ∧ (splitPath realname).2 = some extLua then
          (process h mode realname fname s).map fun (e, s) => (some e, s)
        else some (some (fname, filedata), s)

/-- What the files of the list are stored as. -/
def takeFiles (h : Host σ) (dirname : List UInt8) (mode : Mode) :
    List (List UInt8) → σ → Option (List Entry)
  | [], _ => some []
  | fname :: flist, s =>
      (takeFile h dirname mode fname s).bind fun (e, s) =>
        (takeFiles h dirname mode flist s).map (e.toList ++ ·)

/-- They are taken when the output file is there. -/
def taken (h : Host σ) (dirname : List UInt8) (flist : List (List UInt8)) (mode : Mode) (s : σ) :
    Option (List Entry) :=
  (h.create s).bind (takeFiles h dirname mode flist)

/-! ## Writing the array -/

/-- The line that is being made and how many bytes are in it, the lines written, and how many
bytes there are. -/
structure Writer where
  crtline : List UInt8
  numdata : Nat
  bytecnt : Nat
  written : List UInt8

def Writer.start : Writer := ⟨[], 0, 0, []⟩

def addData (w : Writer) (data : UInt8) (moredata : Bool) : Writer :=
  let crtline := w.crtline ++ [data]
  if w.numdata + 1 = 16 ∨ moredata = false then ⟨[], 0, w.bytecnt + 1, w.written ++ crtline⟩
  else ⟨crtline, w.numdata + 1, w.bytecnt + 1, w.written⟩

/-- The bytes of a file's record, one after the other. -/
def record (e : Entry) : List UInt8 := e.1 ++ 0 :: packShort e.2.length ++ e.2

def addRecord (w : Writer) (e : Entry) : Writer :=
  (record e).foldl (fun w data => addData w data true) w

/-- What `mkfs` leaves behind: the array, what it has reported for each file and the total. -/
structure Image where
  bytes : List UInt8
  encoded : List Entry
  total : Nat

/-- The loop over the files. -/
def mkfsLoop (h : Host σ) (dirname : List UInt8) (mode : Mode) :
    List (List UInt8) → σ → Writer → List Entry → Option (Writer × List Entry)
  | [], _, w, encoded => some (w, encoded)
  | fname :: flist, s, w, encoded =>
      match takeFile h dirname mode fname s with
      | none => none
      | some (none, s) => mkfsLoop h dirname mode flist s w encoded
      | some (some e, s) => mkfsLoop h dirname mode flist s (addRecord w e) (encoded ++ [e])

/-- The image, when `mkfs` returns true. -/
def mkfs (h : Host σ) (dirname : List UInt8) (flist : List (List UInt8)) (mode : Mode) (s : σ) :
    Option Image :=
  (h.create s).bind fun s =>
    (mkfsLoop h dirname mode flist s .start []).map fun (w, encoded) =>
      let w := addData w 0 false
      ⟨w.written, encoded, w.bytecnt⟩

/-! ## The format -/

/-- Names with a terminator, sizes in 16 bits and data, until an empty name. -/
def decode : Nat → List UInt8 → Option (List Entry)
  | 0, _ => none
  | fuel + 1, bytes =>
      let name := bytes.takeWhile (· ≠ 0)
      match bytes.drop name.length with
      | [] => none
      | _ :: rest =>
          if name = [] then some []
          else
            match rest with
            | lo :: hi :: rest =>
                let size := lo.toNat + hi.toNat <<< 8
                if rest.length < size then none
                else (decode fuel (rest.drop size)).map ((name, rest.take size) :: ·)
            | _ => none

/-- The image can be in a memory and gives back the entries, and every name leads to its own
one. -/
structure Faithful (image : Image) : Prop where
  fits : image.bytes.length ≤ 2 ^ 32
  decoded : decode image.bytes.length image.bytes = some image.encoded
  resolves : ∀ before e after, image.encoded = before ++ e :: after →
    ∀ mem, At mem 0 image.bytes → ∀ pfs, ∃ n, ∀ fuel, n ≤ fuel →
      romfsOpenFile fuel e.1 mem pfs = some (.FS_FILE_OK,
        ⟨(before.flatMap record).length + e.1.length + 3, 0, e.2.length, some mem⟩) ∧
      loadBytes mem ((before.flatMap record).length + e.1.length + 3) e.2.length = e.2

/-- What a record can hold: the name is not empty and contains no terminator, and the size fits
in 16 bits. -/
structure Recordable (e : Entry) : Prop where
  name_ne : e.1 ≠ []
  name_chars : 0 ∉ e.1
  data_length : e.2.length < 2 ^ 16

/-- Entries that an image can hold: records of them, with names that differ by more than case. -/
structure Storable (entries : List Entry) : Prop where
  recordable : ∀ e ∈ entries, Recordable e
  distinct : entries.Pairwise fun e e' => CaseFold.strcasecmpEq e.1 e'.1 = false
  fits : (entries.flatMap record).length < 2 ^ 32

/-! ## Names -/

section

variable {h : Host σ} {dirname fname realname : List UInt8} {mode : Mode} {s s' : σ} {e : Entry}

theorem length_splitPath_le (s : List UInt8) : (splitPath s).1.length ≤ s.length := by
  unfold splitPath
  dsimp only
  split
  · exact Nat.le_refl _
  · show (List.take _ s).length ≤ s.length
    rw [List.length_take]
    exact Nat.min_le_right _ _

/-- The two parts make up the path. -/
theorem splitPath_append {s ext : List UInt8} (hext : (splitPath s).2 = some ext) :
    (splitPath s).1 ++ ext = s := by
  unfold splitPath at hext ⊢
  dsimp only at hext ⊢
  split at hext
  · cases hext
  · rename_i hdot
    rw [if_neg hdot, ← Option.some.inj hext]
    exact List.take_append_drop _ _

theorem splitPath_lua (p : List UInt8) : splitPath (p ++ extLua) = (p, some extLua) := by
  have hbehind : ((p ++ extLua).reverse.takeWhile (· ≠ dot)).length = 3 := by
    rw [List.reverse_append]
    rfl
  have hlength : (p ++ extLua).length = p.length + 4 := List.length_append
  have hfront : (p ++ extLua).length - 3 - 1 = p.length := by omega
  unfold splitPath
  dsimp only
  rw [hbehind, if_neg (by omega), hfront, List.take_left, List.drop_left]

/-- A name whose ending is changed does not become longer than names may be. -/
theorem length_changed (hext : (splitPath (dirname ++ h.dirSep :: fname)).2 = some extLua)
    (hlength : fname.length ≤ maxlen) : ((splitPath fname).1 ++ extLc).length ≤ maxlen := by
  rw [List.length_append]
  have hlc : extLc.length = 3 := rfl
  have hmax : maxlen = 30 := rfl
  rcases Nat.lt_or_ge fname.length 4 with hshort | hlong
  · have hle := length_splitPath_le fname
    omega
  · -- the last four characters of the path are those of the name
    have hpath := splitPath_append hext
    generalize (splitPath (dirname ++ h.dirSep :: fname)).1 = p at hpath
    have hsuffix : extLua <:+ fname := by
      have hname : fname <:+ dirname ++ h.dirSep :: fname :=
        (List.suffix_cons h.dirSep fname).trans (List.suffix_append dirname _)
      exact List.suffix_of_suffix_length_le ⟨p, hpath⟩ hname hlong
    obtain ⟨q, rfl⟩ := hsuffix
    rw [splitPath_lua]
    rw [List.length_append] at hlength
    have hlua : extLua.length = 4 := rfl
    dsimp only
    omega

theorem length_takeFile (htake : takeFile h dirname mode fname s = some (some e, s')) :
    e.1.length ≤ maxlen := by
  unfold takeFile at htake
  dsimp only at htake
  split at htake
  · cases htake
  rename_i hskip
  have hlength : fname.length ≤ maxlen := Nat.le_of_not_lt fun hlt => hskip (.inl hlt)
  split at htake
  · cases htake
  split at htake
  · rename_i hext
    obtain ⟨⟨e', s₁⟩, hprocess, heq⟩ := Option.map_eq_some_iff.mp htake
    obtain rfl := Option.some.inj (Prod.mk.inj heq).1
    rw [process] at hprocess
    generalize (splitPath (dirname ++ h.dirSep :: fname)).1 ++ _ = newname at hprocess
    dsimp only at hprocess
    split at hprocess
    · cases hprocess
    · obtain ⟨filedata, -, heq⟩ := Option.map_eq_some_iff.mp hprocess
      rw [← (Prod.mk.inj heq).1]
      dsimp only
      split
      · exact length_changed hext.2 hlength
      · exact hlength
  · rw [← Option.some.inj (Prod.mk.inj (Option.some.inj htake)).1]
    exact hlength

theorem length_takeFiles {flist : List (List UInt8)} {es : List Entry}
    (htake : takeFiles h dirname mode flist s = some es) : ∀ e ∈ es, e.1.length ≤ maxlen := by
  induction flist generalizing s es with
  | nil =>
      obtain rfl := Option.some.inj htake
      exact fun e he => absurd he List.not_mem_nil
  | cons fname flist ih =>
      obtain ⟨⟨r, s'⟩, hfile, hrest⟩ := Option.bind_eq_some_iff.mp htake
      obtain ⟨es', hes', rfl⟩ := Option.map_eq_some_iff.mp hrest
      intro e he
      rcases List.mem_append.mp he with he | he
      · obtain rfl := Option.mem_toList.mp he
        exact length_takeFile hfile
      · exact ih hes' e he

/-! ## What is written -/

/-- All bytes so far. -/
def Writer.bytes (w : Writer) : List UInt8 := w.written ++ w.crtline

theorem addData_bytes (w : Writer) (data : UInt8) (moredata : Bool) :
    (addData w data moredata).bytes = w.bytes ++ [data] := by
  unfold addData Writer.bytes
  dsimp only
  split
  · rw [List.append_nil, List.append_assoc]
  · rw [List.append_assoc]

theorem addData_bytecnt (w : Writer) (data : UInt8) (moredata : Bool) :
    (addData w data moredata).bytecnt = w.bytecnt + 1 := by
  unfold addData
  dsimp only
  split <;> rfl

/-- The counter is that of the bytes. -/
def Writer.Counted (w : Writer) : Prop := w.bytecnt = w.bytes.length

theorem Writer.Counted.addData {w : Writer} (hw : w.Counted) (data : UInt8) (moredata : Bool) :
    (addData w data moredata).Counted := by
  unfold Writer.Counted at hw ⊢
  rw [addData_bytes, addData_bytecnt, List.length_append, hw]
  rfl

theorem foldl_addData (bytes : List UInt8) {w : Writer} (hw : w.Counted) :
    (bytes.foldl (fun w data => addData w data true) w).bytes = w.bytes ++ bytes ∧
      (bytes.foldl (fun w data => addData w data true) w).Counted := by
  induction bytes generalizing w with
  | nil => exact ⟨(List.append_nil _).symm, hw⟩
  | cons b bytes ih =>
      obtain ⟨hbytes, hcounted⟩ := ih (hw.addData b true)
      rw [List.foldl_cons]
      refine ⟨?_, hcounted⟩
      rw [hbytes, addData_bytes, List.append_assoc]
      rfl

/-- **The loop** writes the records of what it takes. -/
theorem mkfsLoop_eq {flist : List (List UInt8)} {w w' : Writer} {encoded encoded' : List Entry}
    (hw : w.Counted)
    (hloop : mkfsLoop h dirname mode flist s w encoded = some (w', encoded')) :
    ∃ es, takeFiles h dirname mode flist s = some es ∧ encoded' = encoded ++ es ∧
      w'.bytes = w.bytes ++ es.flatMap record ∧ w'.Counted := by
  induction flist generalizing s w encoded with
  | nil =>
      obtain ⟨rfl, rfl⟩ := Prod.mk.inj (Option.some.inj hloop)
      exact ⟨[], rfl, (List.append_nil _).symm, (List.append_nil _).symm, hw⟩
  | cons fname flist ih =>
      rw [mkfsLoop] at hloop
      rw [takeFiles]
      cases hfile : takeFile h dirname mode fname s with
      | none =>
          rw [hfile] at hloop
          cases hloop
      | some r =>
          obtain ⟨e, s'⟩ := r
          rw [hfile] at hloop
          cases e with
          | none =>
              obtain ⟨es, htake, hencoded, hbytes, hcounted⟩ := ih hw hloop
              refine ⟨es, ?_, hencoded, hbytes, hcounted⟩
              rw [Option.bind_some]
              dsimp only
              rw [htake]
              rfl
          | some e =>
              obtain ⟨hrecord, hwrecord⟩ := foldl_addData (record e) hw
              obtain ⟨es, htake, hencoded, hbytes, hcounted⟩ := ih hwrecord hloop
              refine ⟨e :: es, ?_, ?_, ?_, hcounted⟩
              · rw [Option.bind_some]
                dsimp only
                rw [htake]
                rfl
              · rw [hencoded, List.append_assoc]
                rfl
              · rw [hbytes, hrecord, List.flatMap_cons, List.append_assoc]

/-- **The array** is the records of what has been taken, and a terminator. -/
theorem mkfs_eq {flist : List (List UInt8)} {image : Image}
    (hmkfs : mkfs h dirname flist mode s = some image) :
    taken h dirname flist mode s = some image.encoded ∧
      image.bytes = image.encoded.flatMap record ++ [0] ∧ image.total = image.bytes.length := by
  obtain ⟨s₁, hcreate, hrest⟩ := Option.bind_eq_some_iff.mp hmkfs
  obtain ⟨⟨w, encoded⟩, hloop, rfl⟩ := Option.map_eq_some_iff.mp hrest
  obtain ⟨es, htake, hencoded, hbytes, hcounted⟩ := mkfsLoop_eq (w := .start) rfl hloop
  obtain rfl : encoded = es := hencoded
  have htaken : taken h dirname flist mode s = some encoded :=
    Option.bind_eq_some_iff.mpr ⟨s₁, hcreate, htake⟩
  have hwritten : (addData w 0 false).written = encoded.flatMap record ++ [0] := by
    have hall := addData_bytes w 0 false
    rw [hbytes] at hall
    have hline : (addData w 0 false).crtline = [] := by simp [addData]
    rwa [Writer.bytes, hline, List.append_nil] at hall
  refine ⟨htaken, hwritten, ?_⟩
  have hcount := addData_bytecnt w 0 false
  rw [hcounted, hbytes, ← List.length_singleton (a := (0 : UInt8)), ← List.length_append] at hcount
  exact hcount.trans (congrArg List.length hwritten.symm)

/-! ## Decoding -/

theorem length_record (e : Entry) : (record e).length = e.1.length + 3 + e.2.length := by
  simp only [record, packShort, List.length_append, List.length_cons, List.length_nil]

/-- What is decoded could be in records. -/
theorem decode_sound {fuel : Nat} {bytes : List UInt8} {es : List Entry}
    (hdecode : decode fuel bytes = some es) : ∀ e ∈ es, Recordable e := by
  induction fuel generalizing bytes es with
  | zero => cases hdecode
  | succ fuel ih =>
      rw [decode] at hdecode
      dsimp only at hdecode
      split at hdecode
      · cases hdecode
      split at hdecode
      · obtain rfl := Option.some.inj hdecode
        exact fun e he => absurd he List.not_mem_nil
      rename_i hname
      split at hdecode
      · rename_i lo hi rest _
        split at hdecode
        · cases hdecode
        · rename_i hsize
          obtain ⟨es', hes', rfl⟩ := Option.map_eq_some_iff.mp hdecode
          intro e he
          rcases List.mem_cons.mp he with rfl | he
          · refine ⟨hname, ?_, ?_⟩
            · intro hzero
              have hne := List.all_eq_true.mp List.all_takeWhile _ hzero
              exact absurd hne (by decide)
            · have hlo := lo.toNat_lt
              have hhi := hi.toNat_lt
              rw [List.length_take, Nat.shiftLeft_eq]
              omega
          · exact ih hes' e he
      · cases hdecode

/-- A record is decoded to what it was made of. -/
theorem decode_record {fuel : Nat} {e : Entry} (he : Recordable e) (bytes : List UInt8) :
    decode (fuel + 1) (record e ++ bytes) = (decode fuel bytes).map (e :: ·) := by
  obtain ⟨name, data⟩ := e
  obtain ⟨hne, hchars, hlength⟩ := he
  have htake : (record (name, data) ++ bytes).takeWhile (· ≠ 0) = name := by
    rw [record, List.append_assoc, List.append_assoc, List.takeWhile_append_of_pos]
    · simp
    · intro c hc
      have hzero : c ≠ 0 := fun hzero => hchars (hzero ▸ hc)
      simpa using hzero
  have hdrop : (record (name, data) ++ bytes).drop name.length =
      0 :: UInt8.ofNat data.length :: UInt8.ofNat (data.length >>> 8) :: (data ++ bytes) := by
    rw [record, List.append_assoc, List.append_assoc, List.drop_left]
    rfl
  have hsize : (UInt8.ofNat data.length).toNat + (UInt8.ofNat (data.length >>> 8)).toNat <<< 8 =
      data.length := by
    rw [UInt8.toNat_ofNat', UInt8.toNat_ofNat', Nat.shiftRight_eq_div_pow, Nat.shiftLeft_eq]
    dsimp only at hlength
    omega
  rw [decode]
  dsimp only
  rw [htake, hdrop]
  dsimp only at hne ⊢
  rw [if_neg hne, hsize, if_neg (by rw [List.length_append]; omega), List.drop_left,
    List.take_left]

theorem length_le_records (es : List Entry) : es.length ≤ (es.flatMap record).length := by
  induction es with
  | nil => exact Nat.le_refl _
  | cons e es ih =>
      rw [List.flatMap_cons, List.length_append, length_record, List.length_cons]
      omega

/-- Records are decoded up to the terminator. -/
theorem decode_records {fuel : Nat} {es : List Entry} (hes : ∀ e ∈ es, Recordable e)
    (hfuel : es.length < fuel) : decode fuel (es.flatMap record ++ [0]) = some es := by
  induction es generalizing fuel with
  | nil =>
      obtain ⟨fuel, rfl⟩ := Nat.exists_eq_succ_of_ne_zero (Nat.ne_of_gt hfuel)
      rfl
  | cons e es ih =>
      obtain ⟨fuel, rfl⟩ := Nat.exists_eq_succ_of_ne_zero (Nat.ne_of_gt (Nat.zero_lt_of_lt hfuel))
      rw [List.flatMap_cons, List.append_assoc, Nat.succ_eq_add_one,
        decode_record (hes e List.mem_cons_self),
        ih (fun e' he' => hes e' (List.mem_cons_of_mem e he')) (Nat.lt_of_succ_lt_succ hfuel)]
      rfl

/-! ## Opening -/

theorem at_memOf (bytes : List UInt8) : At (memOf bytes) 0 bytes := by
  apply List.ext_getElem (length_loadBytes _ _ _)
  intro i hi hi'
  simp [loadBytes, memOf, List.getElem?_eq_getElem hi']

/-- A file of an image, as an entry. -/
def fileEntry (f : File) : Entry := (f.name, f.data)

theorem exists_files {es : List Entry} (hes : ∀ e ∈ es, Recordable e ∧ e.1.length ≤ maxlen) :
    ∃ files : List File, files.map fileEntry = es := by
  induction es with
  | nil => exact ⟨[], rfl⟩
  | cons e es ih =>
      obtain ⟨files, rfl⟩ := ih fun e' he' => hes e' (List.mem_cons_of_mem e he')
      obtain ⟨⟨hne, hchars, hdata⟩, hlength⟩ := hes e List.mem_cons_self
      exact ⟨⟨e.1, e.2, hne, hchars, hlength, hdata⟩ :: files, rfl⟩

theorem flatMap_record (files : List File) :
    (files.map fileEntry).flatMap record = files.flatMap File.record := by
  rw [List.flatMap_map]
  rfl

/-- What `mkfs` writes is the image of the files. -/
theorem mkfs_files (files : List File) :
    (files.map fileEntry).flatMap record ++ [0] = Romfs.mkfs files := by
  induction files with
  | nil => rfl
  | cons f files ih =>
      rw [List.map_cons, List.flatMap_cons, List.append_assoc, ih]
      rfl

/-- A name that an earlier file has leads to where that one is, or in front of it. -/
theorem lookup_before {fname : List UInt8} (hlength : fname.length ≤ DM_MAX_FNAME_LENGTH)
    {i : Nat} {before after : List File} {f : File} (hf : f ∈ before)
    (hmatch : CaseFold.strcasecmpEq fname f.name = true) :
    ∃ base g, lookup fname i (before ++ after) = some (base, g) ∧
      base ≤ i + (before.flatMap File.record).length := by
  induction before generalizing i with
  | nil => exact absurd hf List.not_mem_nil
  | cons g before ih =>
      have hrecord := Romfs.length_record g
      rw [List.cons_append, lookup, strncasecmpEq_of_le hlength, List.flatMap_cons,
        List.length_append]
      by_cases hg : CaseFold.strcasecmpEq fname g.name = true
      · rw [if_pos hg]
        exact ⟨_, g, rfl, by omega⟩
      · rw [if_neg hg]
        have hmem : f ∈ before := by
          rcases List.mem_cons.mp hf with rfl | hmem
          · exact absurd hmatch hg
          · exact hmem
        obtain ⟨base, g', hlookup, hle⟩ := ih (i := i + g.record.length) hmem
        exact ⟨base, g', hlookup, by omega⟩

/-- **Resolving.**  In the image of files whose names differ by more than case every name leads to
its own file. -/
theorem resolves {files : List File}
    (hdistinct : files.Pairwise fun f g => CaseFold.strcasecmpEq f.name g.name = false)
    {mem : Mem} (hlaid : Laid mem 0 files) {before after : List File} {f : File}
    (hfiles : files = before ++ f :: after) (pfs : FS) {fuel : Nat}
    (hfuel : files.length < fuel) :
    romfsOpenFile fuel f.name mem pfs = some (.FS_FILE_OK,
        ⟨(before.flatMap File.record).length + f.name.length + 3, 0, f.data.length, some mem⟩) ∧
      loadBytes mem ((before.flatMap File.record).length + f.name.length + 3) f.data.length =
        f.data := by
  have hself : CaseFold.strcasecmpEq f.name f.name = true := CaseFold.strcasecmpEq_iff.mpr rfl
  have hfound := @lookup_some _ f.name_length 0 before after f
    (Volume.before_ne ⟨files, hdistinct⟩ hfiles hself) hself
  rw [Nat.zero_add, ← hfiles] at hfound
  constructor
  · rw [romfsOpenFile, findFile_eq hlaid hfuel, hfound]
    rfl
  · have hdata := (hfiles ▸ hlaid).dataAt
    rwa [Nat.zero_add] at hdata

/-- Otherwise one of them does not. -/
theorem distinct_of_resolves {files : List File} {mem : Mem} (hlaid : Laid mem 0 files)
    (hresolves : ∀ before f after, files = before ++ f :: after → ∃ n, ∀ fuel, n ≤ fuel →
      romfsOpenFile fuel f.name mem ⟨0, 0, 0, none⟩ = some (.FS_FILE_OK,
        ⟨(before.flatMap File.record).length + f.name.length + 3, 0, f.data.length, some mem⟩)) :
    files.Pairwise fun f g => CaseFold.strcasecmpEq f.name g.name = false := by
  rw [List.pairwise_iff_forall_sublist]
  intro f g hsub
  by_contra hmatch
  rw [Bool.not_eq_false] at hmatch
  obtain ⟨start, rest, rfl, hf, hg⟩ := List.cons_sublist_iff.mp hsub
  obtain ⟨mid, after, rfl⟩ := List.append_of_mem (List.singleton_sublist.mp hg)
  have hfiles : start ++ (mid ++ g :: after) = (start ++ mid) ++ g :: after :=
    (List.append_assoc _ _ _).symm
  obtain ⟨n, hopen⟩ := hresolves (start ++ mid) g after hfiles
  rw [hfiles] at hlaid
  generalize hall : (start ++ mid) ++ g :: after = files at hlaid
  obtain ⟨base, x, hlookup, hle⟩ := @lookup_before _ g.name_length 0 _ (g :: after) _
    (List.mem_append_left mid hf) (CaseFold.strcasecmpEq_symm hmatch)
  have heq := hopen (n + files.length + 1) (by omega)
  rw [romfsOpenFile, findFile_eq hlaid (by omega), ← hall, hlookup] at heq
  have hbase := congrArg FS.baseaddr (Prod.mk.inj (Option.some.inj heq)).2
  dsimp only [opened] at hbase
  omega

/-- **Making an image** that is faithful, exactly when it can hold what `mkfs` takes. -/
theorem faithful_iff_storable {flist : List (List UInt8)} {image : Image}
    (hmkfs : mkfs h dirname flist mode s = some image) :
    Faithful image ↔ Storable image.encoded := by
  obtain ⟨htaken, hbytes, -⟩ := mkfs_eq hmkfs
  obtain ⟨s₁, -, htake⟩ := Option.bind_eq_some_iff.mp htaken
  have hnames := length_takeFiles htake
  constructor
  · intro hfaithful
    have hrecordable := decode_sound hfaithful.decoded
    obtain ⟨files, hfiles⟩ := exists_files fun e he => ⟨hrecordable e he, hnames e he⟩
    have himage : image.bytes = Romfs.mkfs files := by rw [hbytes, ← hfiles, mkfs_files]
    have hfits := hfaithful.fits
    have hlaid : Laid (memOf image.bytes) 0 files :=
      ⟨himage ▸ at_memOf image.bytes, by rw [← himage]; omega⟩
    refine ⟨hrecordable, ?_, ?_⟩
    · have hdistinct := distinct_of_resolves hlaid fun before f after hsplit => by
        have hencoded : image.encoded =
            before.map fileEntry ++ fileEntry f :: after.map fileEntry := by
          rw [← hfiles, hsplit, List.map_append, List.map_cons]
        obtain ⟨n, hopen⟩ :=
          hfaithful.resolves _ _ _ hencoded _ (at_memOf image.bytes) ⟨0, 0, 0, none⟩
        rw [flatMap_record] at hopen
        exact ⟨n, fun fuel hfuel => (hopen fuel hfuel).1⟩
      rw [← hfiles, List.pairwise_map]
      exact hdistinct
    · rw [hbytes, List.length_append] at hfits
      exact hfits
  · intro hstorable
    obtain ⟨files, hfiles⟩ := exists_files fun e he => ⟨hstorable.recordable e he, hnames e he⟩
    have himage : image.bytes = Romfs.mkfs files := by rw [hbytes, ← hfiles, mkfs_files]
    have hfits : image.bytes.length ≤ 2 ^ 32 := by
      rw [hbytes, List.length_append]
      exact hstorable.fits
    refine ⟨hfits, ?_, ?_⟩
    · rw [hbytes]
      refine decode_records hstorable.recordable ?_
      rw [List.length_append]
      exact Nat.lt_succ_of_le (length_le_records _)
    · intro before e after hencoded mem hmem pfs
      rw [← hfiles] at hencoded
      obtain ⟨before', rest, hsplit, rfl, hrest⟩ := List.map_eq_append_iff.mp hencoded
      obtain ⟨f, after', rfl, rfl, rfl⟩ := List.map_eq_cons_iff.mp hrest
      have hdistinct := hstorable.distinct
      rw [← hfiles, List.pairwise_map] at hdistinct
      have hlaid : Laid mem 0 files := ⟨himage ▸ hmem, by rw [← himage]; omega⟩
      rw [flatMap_record]
      exact ⟨files.length + 1, fun fuel hfuel => resolves hdistinct hlaid hsplit pfs hfuel⟩

end

/-- **Success.**  The image that `mkfs` makes is faithful exactly when an image can hold the
entries that it takes. -/
theorem mkfs_faithful_iff (h : Host σ) (dirname : List UInt8) (flist : List (List UInt8))
    (mode : Mode) (s : σ) (image : Image) (hmkfs : mkfs h dirname flist mode s = some image) :
    Faithful image ↔ ∀ es, taken h dirname flist mode s = some es → Storable es := by
  rw [faithful_iff_storable hmkfs, (mkfs_eq hmkfs).1]
  constructor
  · intro hstorable es hes
    exact Option.some.inj hes ▸ hstorable
  · intro hall
    exact hall _ rfl

/-- A computer with one content for all files, which it keeps when it compiles. -/
def hostWith (data : List UInt8) : Host Unit :=
  ⟨false, some, fun _ _ => true, fun _ _ => some data, fun s _ _ => (0, s), fun s _ => s⟩

theorem mkfs_faithful_iff_one :
    ∃ image, mkfs (hostWith [1, 2]) [0x2E] [[0x61, 0x2E, 0x6C, 0x75, 0x61]] .compile () =
      some image ∧ image.encoded = [([0x61, 0x2E, 0x6C, 0x63], [1, 2])] ∧ Faithful image := by
  refine ⟨_, rfl, rfl, (mkfs_faithful_iff (hostWith [1, 2]) [0x2E]
    [[0x61, 0x2E, 0x6C, 0x75, 0x61]] .compile () _ rfl).mpr ?_⟩
  intro es hes
  obtain rfl : [([0x61, 0x2E, 0x6C, 0x63], [1, 2])] = es := Option.some.inj hes
  refine ⟨fun e he => ?_, List.pairwise_singleton _ _, by decide⟩
  obtain rfl := List.mem_singleton.mp he
  exact ⟨by decide, by decide, by decide⟩

/-- A file whose size does not fit. -/
theorem not_faithful_large :
    ∃ image, mkfs (hostWith (List.replicate (2 ^ 16) 0)) [0x2E] [[0x61]] .verbatim () =
      some image ∧ ¬ Faithful image := by
  refine ⟨_, rfl, fun hfaithful => ?_⟩
  have hstorable := (@faithful_iff_storable _ (hostWith (List.replicate (2 ^ 16) 0)) [0x2E]
    .verbatim () [[0x61]] _ rfl).mp hfaithful
  have hlength := (hstorable.recordable _ List.mem_cons_self).data_length
  rw [List.length_replicate] at hlength
  exact absurd hlength (Nat.lt_irrefl _)

end Mkfs
