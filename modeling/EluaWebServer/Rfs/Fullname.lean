import EluaWebServer.Lib.CString
import EluaWebServer.Lib.StringArray
import EluaWebServer.Rfs.Server

/-!
# The server's path, byte by byte

`server_open`, `server_opendir` and `server_readdir` build the path of a file in the array
`server_fullname`.  The bound that they give to `strncat` is the size of the array and not of the
room that is left, so the path fits only when the base directory, a separator and the name
together do.
-/

namespace Rfs

open StringArray

/-- The characters of a name; `NULL` counts as an empty one. -/
def nameChars (filename : Option CString) : List UInt8 := (filename.map CString.chars).getD []

/-- `server_fullname` after `strncpy`. -/
def copyBasedir (fullname : List UInt8) (basedir : CString) : Option (List UInt8) := do
  let fullname ← Buffer.store fullname PLATFORM_MAX_FNAME_LEN 0
  let fullname ← Buffer.store fullname 0 0
  strncpy fullname basedir.chars PLATFORM_MAX_FNAME_LEN

/-- `server_fullname[ strlen( server_fullname ) - 1 ]`.  `below` is the byte before the array, which
is looked at when the base directory is empty. -/
def lastChar (below : UInt8) (fullname : List UInt8) : Option UInt8 :=
  (strlen fullname).bind fun len => if len = 0 then some below else fullname[len - 1]?

/-- The separator and the name. -/
def appendName (below : UInt8) (fullname name : List UInt8) : Option (List UInt8) :=
  (lastChar below fullname).bind fun last =>
    (if last ≠ PLATFORM_PATH_SEPARATOR then
      StringArray.strncat fullname [PLATFORM_PATH_SEPARATOR] PLATFORM_MAX_FNAME_LEN
    else some fullname).bind fun fullname =>
      StringArray.strncat fullname name PLATFORM_MAX_FNAME_LEN

/-- The lines that the three handlers have in common. -/
def buildFullname (below : UInt8) (fullname : List UInt8) (basedir : CString)
    (filename : Option CString) : Option (List UInt8) := do
  let fullname ← copyBasedir fullname basedir
  if (nameChars filename).length > 0 then
    appendName below fullname (nameChars filename)
  else
    return fullname

/-- The base directory with one separator behind it. -/
def withSeparator (basedir : List UInt8) : List UInt8 :=
  if basedir.getLast? = some PLATFORM_PATH_SEPARATOR then basedir
  else basedir ++ [PLATFORM_PATH_SEPARATOR]

/-- The path that should be in the array; without a name it is the base directory. -/
def expectedPath (basedir name : List UInt8) : List UInt8 :=
  (if name = [] then basedir else withSeparator basedir ++ name).take PLATFORM_MAX_FNAME_LEN

/-- The path is built, inside of the array. -/
def PathBuilt (below : UInt8) (fullname : List UInt8) (basedir : CString)
    (filename : Option CString) : Prop :=
  ∃ full, buildFullname below fullname basedir filename = some full ∧
    Holds (PLATFORM_MAX_FNAME_LEN + 1) full (expectedPath basedir.chars (nameChars filename))

/-- There is no name, or the whole path fits; behind an empty base directory, the byte before the
array is no separator, unless the name begins with so many that one more does not matter. -/
def PathFits (below : UInt8) (basedir name : List UInt8) : Prop :=
  name = [] ∨
    (basedir = [] → below ≠ PLATFORM_PATH_SEPARATOR) ∧
      (withSeparator basedir ++ name).length ≤ PLATFORM_MAX_FNAME_LEN ∨
    basedir = [] ∧ below = PLATFORM_PATH_SEPARATOR ∧
      List.replicate PLATFORM_MAX_FNAME_LEN PLATFORM_PATH_SEPARATOR <+: name

variable {below : UInt8} {fullname : List UInt8} {basedir : CString} {filename : Option CString}

theorem zero_not_mem_nameChars (filename : Option CString) : 0 ∉ nameChars filename := by
  cases filename with
  | none => exact List.not_mem_nil
  | some name => exact name.noNul

/-- One more of the same character in front changes nothing where there are only these. -/
theorem take_eq_take_cons_iff {n : Nat} {c : UInt8} {xs : List UInt8} :
    xs.take n = (c :: xs).take n ↔ List.replicate n c <+: xs := by
  induction n generalizing xs with
  | zero => simp
  | succ n ih =>
      rw [List.take_succ_cons, List.replicate_succ]
      cases xs with
      | nil => simp
      | cons x xs =>
          rw [List.take_succ_cons, List.cons.injEq, List.cons_prefix_cons]
          constructor
          · rintro ⟨rfl, htail⟩
            exact ⟨rfl, ih.mp htail⟩
          · rintro ⟨rfl, htail⟩
            exact ⟨rfl, ih.mpr htail⟩

/-- The base directory in the array. -/
theorem copyBasedir_holds (hlen : fullname.length = PLATFORM_MAX_FNAME_LEN + 1)
    (basedir : CString) :
    ∃ full, copyBasedir fullname basedir = some full ∧
      Holds (PLATFORM_MAX_FNAME_LEN + 1) full (basedir.chars.take PLATFORM_MAX_FNAME_LEN) := by
  have hpos : 0 < PLATFORM_MAX_FNAME_LEN := by decide
  have hset : ((fullname.set PLATFORM_MAX_FNAME_LEN 0).set 0 0).length =
      PLATFORM_MAX_FNAME_LEN + 1 := by
    rw [List.length_set, List.length_set, hlen]
  have hlast : ((fullname.set PLATFORM_MAX_FNAME_LEN 0).set 0 0)[PLATFORM_MAX_FNAME_LEN]? =
      some 0 := by
    rw [List.getElem?_set_ne (Nat.ne_of_lt hpos), List.getElem?_set_self (by omega)]
  obtain ⟨full, hcopy, hholds⟩ := holds_strncpy hset hlast basedir.noNul
  refine ⟨full, ?_, hholds⟩
  rw [copyBasedir, Buffer.store, if_pos (by omega), Option.bind_eq_bind, Option.bind_some,
    Buffer.store, if_pos (by rw [List.length_set]; omega)]
  exact hcopy

section Append

variable {full xs name : List UInt8}

/-- What is in front of the name. -/
def nameFront (below : UInt8) (xs : List UInt8) : List UInt8 :=
  if xs.getLast?.getD below ≠ PLATFORM_PATH_SEPARATOR then xs ++ [PLATFORM_PATH_SEPARATOR] else xs

theorem lastChar_eq {size : Nat} (h : Holds size full xs) :
    lastChar below full = some (xs.getLast?.getD below) := by
  rw [lastChar, h.strlen, Option.bind_some]
  by_cases hnil : xs = []
  · rw [hnil]
    rfl
  · rw [if_neg fun hzero => hnil (List.length_eq_zero_iff.mp hzero), h.getElem?_pred hnil,
      List.getLast?_eq_getLast_of_ne_nil hnil]
    rfl

/-- The separator is appended when there is room for it. -/
theorem strncat_separator (h : Holds (PLATFORM_MAX_FNAME_LEN + 1) full xs) :
    if xs.length + 1 ≤ PLATFORM_MAX_FNAME_LEN then
      ∃ full', StringArray.strncat full [PLATFORM_PATH_SEPARATOR] PLATFORM_MAX_FNAME_LEN =
          some full' ∧
        Holds (PLATFORM_MAX_FNAME_LEN + 1) full' (xs ++ [PLATFORM_PATH_SEPARATOR])
    else StringArray.strncat full [PLATFORM_PATH_SEPARATOR] PLATFORM_MAX_FNAME_LEN = none := by
  have htake : ([PLATFORM_PATH_SEPARATOR] : List UInt8).take PLATFORM_MAX_FNAME_LEN =
      [PLATFORM_PATH_SEPARATOR] := rfl
  split
  · rename_i hroom
    have hnul : 0 ∉ [PLATFORM_PATH_SEPARATOR] := by decide
    have hfits : xs.length + (([PLATFORM_PATH_SEPARATOR] : List UInt8).take
        PLATFORM_MAX_FNAME_LEN).length < PLATFORM_MAX_FNAME_LEN + 1 := Nat.lt_succ_of_le hroom
    have hcat := h.strncat hnul hfits
    rwa [htake] at hcat
  · rename_i hroom
    refine h.strncat_eq_none ?_
    rw [htake]
    exact Nat.lt_of_not_le hroom

/-- The name is appended when it fits, as far as it is copied. -/
theorem appendName_fits (h : Holds (PLATFORM_MAX_FNAME_LEN + 1) full xs) (hname : 0 ∉ name)
    (hfits : (nameFront below xs).length + (name.take PLATFORM_MAX_FNAME_LEN).length ≤
      PLATFORM_MAX_FNAME_LEN) :
    ∃ full', appendName below full name = some full' ∧
      Holds (PLATFORM_MAX_FNAME_LEN + 1) full'
        (nameFront below xs ++ name.take PLATFORM_MAX_FNAME_LEN) := by
  rw [appendName, lastChar_eq h, Option.bind_some]
  unfold nameFront at hfits ⊢
  split
  · rename_i hsep
    rw [if_pos hsep] at hfits
    have hlen : (xs ++ [PLATFORM_PATH_SEPARATOR]).length = xs.length + 1 := by
      rw [List.length_append, List.length_singleton]
    have hcat := strncat_separator h
    rw [if_pos (by omega)] at hcat
    obtain ⟨full', hcat, h'⟩ := hcat
    rw [hcat, Option.bind_some]
    exact h'.strncat hname (Nat.lt_succ_of_le hfits)
  · rename_i hsep
    rw [if_neg hsep] at hfits
    exact h.strncat hname (Nat.lt_succ_of_le hfits)

/-- A name that does not fit is stored outside of the array. -/
theorem appendName_eq_none (h : Holds (PLATFORM_MAX_FNAME_LEN + 1) full xs)
    (hlong : PLATFORM_MAX_FNAME_LEN <
      (nameFront below xs).length + (name.take PLATFORM_MAX_FNAME_LEN).length) :
    appendName below full name = none := by
  rw [appendName, lastChar_eq h, Option.bind_some]
  unfold nameFront at hlong
  split
  · rename_i hsep
    rw [if_pos hsep] at hlong
    have hcat := strncat_separator h
    split at hcat
    · obtain ⟨full', hcat, h'⟩ := hcat
      rw [hcat, Option.bind_some]
      exact h'.strncat_eq_none hlong
    · rw [hcat, Option.bind_none]
  · rename_i hsep
    rw [if_neg hsep] at hlong
    exact h.strncat_eq_none hlong

end Append

/-! ## When the path is built -/

/-- What stands in front of the name is the base directory with a separator. -/
theorem nameFront_eq {xs : List UInt8} (hbelow : xs = [] → below ≠ PLATFORM_PATH_SEPARATOR) :
    nameFront below xs = withSeparator xs := by
  unfold nameFront withSeparator
  by_cases hlast : xs.getLast? = some PLATFORM_PATH_SEPARATOR
  · rw [if_pos hlast, hlast, Option.getD_some, if_neg (not_not.mpr rfl)]
  · rw [if_neg hlast, if_pos]
    cases hx : xs.getLast? with
    | none => exact hbelow (List.getLast?_eq_none_iff.mp hx)
    | some x =>
        rintro rfl
        exact hlast hx

theorem length_withSeparator (xs : List UInt8) :
    xs.length ≤ (withSeparator xs).length ∧ 0 < (withSeparator xs).length := by
  unfold withSeparator
  split
  · rename_i hlast
    refine ⟨Nat.le_refl _, List.length_pos_of_ne_nil ?_⟩
    rintro rfl
    cases hlast
  · rw [List.length_append, List.length_singleton]
    omega

/-- A base directory that is cut leaves no room for a name. -/
theorem front_fits_iff (base : List UInt8) {name : List UInt8} (hname : name ≠ []) :
    (withSeparator (base.take PLATFORM_MAX_FNAME_LEN)).length +
        (name.take PLATFORM_MAX_FNAME_LEN).length ≤ PLATFORM_MAX_FNAME_LEN ↔
      (withSeparator base ++ name).length ≤ PLATFORM_MAX_FNAME_LEN := by
  have hpos := List.length_pos_of_ne_nil hname
  have hmax : 0 < PLATFORM_MAX_FNAME_LEN := by decide
  rw [List.length_append, List.length_take]
  by_cases hlong : PLATFORM_MAX_FNAME_LEN < base.length
  · have hcut := (length_withSeparator (base.take PLATFORM_MAX_FNAME_LEN)).1
    have hbase := (length_withSeparator base).1
    rw [List.length_take] at hcut
    exact iff_of_false (by omega) (by omega)
  · have hbase := (length_withSeparator base).2
    rw [List.take_of_length_le (Nat.le_of_not_lt hlong)]
    omega

/-- What the handlers build when there is a name. -/
theorem buildFullname_name (below : UInt8) (hlen : fullname.length = PLATFORM_MAX_FNAME_LEN + 1)
    (basedir : CString) (hne : nameChars filename ≠ []) :
    ∃ full, Holds (PLATFORM_MAX_FNAME_LEN + 1) full (basedir.chars.take PLATFORM_MAX_FNAME_LEN) ∧
      buildFullname below fullname basedir filename =
        appendName below full (nameChars filename) := by
  obtain ⟨full, hcopy, hholds⟩ := copyBasedir_holds hlen basedir
  refine ⟨full, hholds, ?_⟩
  rw [buildFullname, hcopy, Option.bind_eq_bind, Option.bind_some,
    if_pos (List.length_pos_of_ne_nil hne)]

/-- Without a name, the path is the base directory. -/
theorem pathBuilt_of_no_name (hlen : fullname.length = PLATFORM_MAX_FNAME_LEN + 1)
    (hnil : nameChars filename = []) : PathBuilt below fullname basedir filename := by
  obtain ⟨full, hcopy, hholds⟩ := copyBasedir_holds hlen basedir
  refine ⟨full, ?_, ?_⟩
  · rw [buildFullname, hcopy, hnil]
    rfl
  · rw [expectedPath, if_pos hnil]
    exact hholds

/-- With a name, the path is built when it fits. -/
theorem pathBuilt_of_separator (hlen : fullname.length = PLATFORM_MAX_FNAME_LEN + 1)
    (hne : nameChars filename ≠ [])
    (hbelow : basedir.chars = [] → below ≠ PLATFORM_PATH_SEPARATOR) :
    PathBuilt below fullname basedir filename ↔
      (withSeparator basedir.chars ++ nameChars filename).length ≤ PLATFORM_MAX_FNAME_LEN := by
  obtain ⟨full, hholds, hbuild⟩ := buildFullname_name below hlen basedir hne
  have hfront : nameFront below (basedir.chars.take PLATFORM_MAX_FNAME_LEN) =
      withSeparator (basedir.chars.take PLATFORM_MAX_FNAME_LEN) := by
    refine nameFront_eq fun hnil => hbelow ?_
    exact (List.take_eq_nil_iff.mp hnil).resolve_left (by decide)
  have hfits := front_fits_iff basedir.chars hne
  rw [← hfront] at hfits
  unfold PathBuilt expectedPath
  rw [hbuild, if_neg hne]
  constructor
  · rintro ⟨full', happend, -⟩
    by_contra hroom
    rw [appendName_eq_none hholds (Nat.lt_of_not_le fun hle => hroom (hfits.mp hle))] at happend
    cases happend
  · intro hroom
    obtain ⟨full', happend, h'⟩ :=
      appendName_fits hholds (zero_not_mem_nameChars filename) (hfits.mpr hroom)
    refine ⟨full', happend, ?_⟩
    rw [List.take_of_length_le hroom]
    have hbase := (length_withSeparator basedir.chars).1
    rw [List.length_append] at hroom
    rw [hfront, List.take_of_length_le (by omega), List.take_of_length_le (by omega)] at h'
    exact h'

/-- Behind an empty base directory, a byte before the array that is a separator is taken for the
end of the directory. -/
theorem pathBuilt_of_below (hlen : fullname.length = PLATFORM_MAX_FNAME_LEN + 1)
    (hne : nameChars filename ≠ []) (hbase : basedir.chars = []) :
    PathBuilt PLATFORM_PATH_SEPARATOR fullname basedir filename ↔
      List.replicate PLATFORM_MAX_FNAME_LEN PLATFORM_PATH_SEPARATOR <+: nameChars filename := by
  obtain ⟨full, hholds, hbuild⟩ := buildFullname_name PLATFORM_PATH_SEPARATOR hlen basedir hne
  rw [hbase, List.take_nil] at hholds
  obtain ⟨full', happend, h'⟩ := appendName_fits hholds (zero_not_mem_nameChars filename) (by
    rw [show nameFront PLATFORM_PATH_SEPARATOR [] = [] from rfl, List.length_nil, Nat.zero_add,
      List.length_take]
    exact Nat.min_le_left _ _)
  have hpath : withSeparator [] ++ nameChars filename =
      PLATFORM_PATH_SEPARATOR :: nameChars filename := rfl
  unfold PathBuilt expectedPath
  rw [hbuild, if_neg hne, hbase, hpath, ← take_eq_take_cons_iff]
  constructor
  · rintro ⟨full'', happend', h''⟩
    obtain rfl := Option.some.inj (happend.symm.trans happend')
    exact h'.unique h''
  · intro htake
    exact ⟨full', happend, htake ▸ h'⟩

/-- **The path in `server_fullname`.**  Whatever the array holds from earlier requests, it ends up
with the path of the file exactly when there is no name or the whole path fits. -/
theorem pathBuilt_iff (below : UInt8) {fullname : List UInt8}
    (hlen : fullname.length = PLATFORM_MAX_FNAME_LEN + 1) (basedir : CString)
    (filename : Option CString) :
    PathBuilt below fullname basedir filename ↔
      PathFits below basedir.chars (nameChars filename) := by
  unfold PathFits
  by_cases hne : nameChars filename = []
  · exact iff_of_true (pathBuilt_of_no_name hlen hne) (.inl hne)
  · rw [or_iff_right hne]
    by_cases hbelow : basedir.chars = [] → below ≠ PLATFORM_PATH_SEPARATOR
    · rw [pathBuilt_of_separator hlen hne hbelow, and_iff_right hbelow, or_iff_left]
      rintro ⟨hbase, hsep, -⟩
      exact hbelow hbase hsep
    · obtain ⟨hbase, hsep⟩ := Classical.not_imp.mp hbelow
      obtain rfl := Decidable.not_not.mp hsep
      rw [pathBuilt_of_below hlen hne hbase, or_iff_right fun h => hbelow h.1]
      exact ⟨fun h => ⟨hbase, rfl, h⟩, fun h => h.2.2⟩

theorem pathBuilt_two_names :
    PathBuilt 0 (List.replicate 2049 0xFF) ⟨[0x2F, 0x72], by decide⟩ (some ⟨[0x61], by decide⟩) :=
  (pathBuilt_iff 0 List.length_replicate ⟨[0x2F, 0x72], by decide⟩
    (some ⟨[0x61], by decide⟩)).mpr (.inr (.inl ⟨by decide, by decide⟩))

/-- A base directory of 2048 characters, and a name of one. -/
theorem not_pathBuilt_long :
    ¬ ∀ (below : UInt8) (fullname : List UInt8), fullname.length = PLATFORM_MAX_FNAME_LEN + 1 →
      ∀ (basedir : CString) (filename : Option CString),
        PathBuilt below fullname basedir filename := by
  intro hall
  have hnul : 0 ∉ List.replicate 2048 (0x61 : UInt8) := by
    rw [List.mem_replicate]
    decide
  have hne : nameChars (some ⟨[0x61], by decide⟩) ≠ [] := List.cons_ne_nil _ _
  have hlong := (pathBuilt_of_separator List.length_replicate hne fun _ => by decide).mp
    (hall 0 (List.replicate 2049 0) List.length_replicate ⟨List.replicate 2048 0x61, hnul⟩
      (some ⟨[0x61], by decide⟩))
  have hbase := (length_withSeparator (List.replicate 2048 0x61)).1
  rw [List.length_replicate] at hbase
  rw [List.length_append] at hlong
  exact absurd (Nat.le_trans (Nat.add_le_add_right hbase 1) hlong) (by decide)

/-! ## The string that the host is given -/

theorem text_of_holds {size : Nat} {full xs : List UInt8} (h : Holds size full xs) :
    CString.text full = xs := by
  obtain ⟨hnul, ys, rfl, -⟩ := h
  rw [CString.text, List.takeWhile_append_of_pos, List.takeWhile_cons_of_neg, List.append_nil]
  · simp
  · intro b hb
    exact decide_eq_true fun heq => hnul (heq ▸ hb)

theorem strncat_text {full xs src : List UInt8} (h : Holds (PLATFORM_MAX_FNAME_LEN + 1) full xs)
    (hsrc : 0 ∉ src) :
    (StringArray.strncat full src PLATFORM_MAX_FNAME_LEN).map CString.text =
      strncat (PLATFORM_MAX_FNAME_LEN + 1) xs src PLATFORM_MAX_FNAME_LEN := by
  unfold strncat
  split
  · rename_i hroom
    obtain ⟨full', hcat, h'⟩ := h.strncat hsrc hroom
    rw [hcat, Option.map_some, text_of_holds h']
  · rename_i hroom
    rw [h.strncat_eq_none (Nat.le_of_not_lt hroom), Option.map_none]

/-- Behind a base directory, the handlers' strings are those of the array. -/
theorem appendName_text {full xs name : List UInt8}
    (h : Holds (PLATFORM_MAX_FNAME_LEN + 1) full xs) (hne : xs ≠ []) (hname : 0 ∉ name) :
    (appendName below full name).map CString.text =
      (xs.getLast?).bind fun last =>
        (if last ≠ PLATFORM_PATH_SEPARATOR then
          strncat (PLATFORM_MAX_FNAME_LEN + 1) xs [PLATFORM_PATH_SEPARATOR] PLATFORM_MAX_FNAME_LEN
        else some xs).bind fun xs =>
          strncat (PLATFORM_MAX_FNAME_LEN + 1) xs name PLATFORM_MAX_FNAME_LEN := by
  rw [appendName, lastChar_eq h, List.getLast?_eq_getLast_of_ne_nil hne, Option.getD_some,
    Option.bind_some, Option.bind_some]
  split
  · rw [← strncat_text h (by decide)]
    have hcat := strncat_separator h
    split at hcat
    · obtain ⟨full', hcat, h'⟩ := hcat
      rw [hcat, Option.bind_some, Option.map_some, Option.bind_some, text_of_holds h',
        strncat_text h' hname]
    · rw [hcat]
      rfl
  · rw [Option.bind_some, Option.bind_some, strncat_text h hname]

/-- **What the host is given.**  With a base directory, it is the string in the array. -/
theorem buildFullname_eq_serverFullname (below : UInt8)
    (hlen : fullname.length = PLATFORM_MAX_FNAME_LEN + 1) (hbase : basedir.chars ≠ []) :
    (buildFullname below fullname basedir filename).map CString.text =
      serverFullname basedir.chars (nameChars filename) := by
  obtain ⟨full, hcopy, hholds⟩ := copyBasedir_holds hlen basedir
  rw [buildFullname, hcopy, serverFullname, Option.bind_eq_bind, Option.bind_some]
  split
  · have htake : basedir.chars.take PLATFORM_MAX_FNAME_LEN ≠ [] := by
      rw [Ne, List.take_eq_nil_iff, not_or]
      exact ⟨by decide, hbase⟩
    rw [appendName_text hholds htake (zero_not_mem_nameChars filename)]
    refine congrArg _ (funext fun last => ?_)
    split <;> rfl
  · exact congrArg some (text_of_holds hholds)

end Rfs
