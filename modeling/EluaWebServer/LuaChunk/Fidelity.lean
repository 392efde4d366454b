import EluaWebServer.LuaChunk.Size

/-!
# What a chunk keeps from one machine to the other

A prototype that has been dumped for a target is loaded on a platform.  The header makes sure
of the sizes of integers and strings, and that no fractions come to a platform without them.
It does not compare the sizes of numbers, so number constants are kept by some pairs only.
-/

namespace LuaChunk

open Bytes Ieee Stream

section

variable (target : DumpTargetInfo) (platform : Platform)

/-- The targets of the cross compiler. -/
structure Accepted : Prop where
  int : target.sizeof_int = 1 ∨ target.sizeof_int = 2 ∨ target.sizeof_int = 4
  strsize : target.sizeof_strsize_t = 1 ∨ target.sizeof_strsize_t = 2 ∨
    target.sizeof_strsize_t = 4
  number : target.sizeof_lua_Number = 1 ∨ target.sizeof_lua_Number = 2 ∨
    target.sizeof_lua_Number = 4 ∨ target.sizeof_lua_Number = 8

/-- The number type of the target has the number. -/
def Represents (x : UInt64) : Prop :=
  if target.lua_Number_integral then
    ∃ n, IsInt double x.toNat n ∧ InRange target.sizeof_lua_Number n
  else ∃ y, Equal double (format target.sizeof_lua_Number) x.toNat y

/-- The number of the platform is the number of the compiler. -/
def SameNumber (x : UInt64) (y : Nat) : Prop :=
  if platform.integral then IsInt double x.toNat (signed platform.size y)
  else Equal double (format platform.size) x.toNat y

/-- `luaU_undump` fails in `LoadHeader`, or has the prototype. -/
def Reconstructs (checkcode : Proto Unit → Bool) (room : Nat) (strip : Bool) (f : Proto UInt64)
    (chunk : List UInt8) : Prop :=
  (∃ e, loadHeader platform chunk = .error e) ∨
    ∃ g, luaUUndump platform checkcode room chunk = .ok g ∧
      Agrees strip (SameNumber platform) f g

/-- `LoadHeader` does not fail. -/
def HeaderAccepted : Prop :=
  target.sizeof_int = 4 ∧ target.sizeof_strsize_t = 4 ∧
    (platform.integral = true → target.lua_Number_integral = true)

instance : Decidable (HeaderAccepted target platform) := inferInstanceAs (Decidable (_ ∧ _))

/-- The platform has the number type of the target but for the order of words, or converts the
integers of the target. -/
def SameNumbers : Prop :=
  if target.lua_Number_integral then
    if platform.integral then target.sizeof_lua_Number = 4 ∧ platform.size = 4
    else target.sizeof_lua_Number ≠ 8
  else target.sizeof_lua_Number = platform.size

/-- The numbers are the same also in the order of words of the platform. -/
def KeepsNumbers (xs : List UInt64) : Prop :=
  SameNumbers target platform ∧
    (target.lua_Number_integral = false → platform.size = 8 →
      target.is_arm_fpa = platform.armFpa ∨
        ∀ x ∈ xs, Equal double double x.toNat (swapWords x.toNat))

/-- Doubles are loaded as numbers of four bytes. -/
def Narrows : Prop :=
  target.lua_Number_integral = false ∧ platform.integral = false ∧
    target.sizeof_lua_Number = 8 ∧ platform.size = 4

def headerBytes : List UInt8 :=
  signature ++ [LUAC_VERSION, LUAC_FORMAT, target.little_endian.toUInt8,
    UInt8.ofNat target.sizeof_int, UInt8.ofNat target.sizeof_strsize_t, 4,
    UInt8.ofNat target.sizeof_lua_Number, target.lua_Number_integral.toUInt8]

/-- What `LoadHeader` finds out. -/
def loadState : LoadState :=
  ⟨target.little_endian ≠ platform.little, UInt8.ofNat target.sizeof_lua_Number,
    target.lua_Number_integral && !platform.integral⟩

/-- The bits that are loaded for a number of the compiler. -/
def loadedNumber (host : Host) (x : UInt64) : Nat :=
  if target.lua_Number_integral then
    if platform.integral then wrap 4 (castInt host x)
    else ofInt (format platform.size) (castInt host x)
  else if target.sizeof_lua_Number = 4 then convert double single x.toNat
  else if target.is_arm_fpa = platform.armFpa then x.toNat
  else swapWords x.toNat

/-- The size of the numbers that are dumped. -/
def writeSize : Nat :=
  if target.lua_Number_integral ∧ target.sizeof_lua_Number = 8 ∨
      target.lua_Number_integral = false ∧ target.sizeof_lua_Number < 4 then 0
  else target.sizeof_lua_Number

end

variable {host : Host} {target : DumpTargetInfo} {platform : Platform}

/-! ## The header -/

theorem loadHeader_eq (h : Accepted target) (rest : List UInt8) :
    loadHeader platform (headerBytes target ++ rest) =
      if HeaderAccepted target platform then .ok (loadState target platform, rest)
      else .error .badHeader := by
  have hblock : loadBlock LUAC_HEADERSIZE (headerBytes target ++ rest) =
      .ok (headerBytes target, rest) := reads_loadBlock (headerBytes target) rest
  rw [loadHeader, bind_of_ok hblock]
  obtain ⟨le, sizeof_int, strsize, number, integral, fpa⟩ := target
  obtain ⟨little, size, integral', fpa', hsize⟩ := platform
  obtain ⟨hint, hstr, hnumber⟩ := h
  dsimp only at hint hstr hnumber
  simp only [luaUHeader, headerBytes, signature, List.cons_append, List.nil_append,
    List.set_cons_succ, List.set_cons_zero, List.getD_cons_succ, List.getD_cons_zero, HeaderAccepted, loadState]
  have hfour (n : Nat) (hn : n = 1 ∨ n = 2 ∨ n = 4) : (4 : UInt8) = UInt8.ofNat n ↔ n = 4 := by
    rcases hn with rfl | rfl | rfl
    all_goals decide
  have hbool : ∀ a b : Bool, a.toUInt8 = b.toUInt8 ↔ a = b := by decide
  have hlt : false.toUInt8 < true.toUInt8 := by decide
  have hnlt : ¬ true.toUInt8 < false.toUInt8 := by decide
  by_cases hfits : sizeof_int = 4 ∧ strsize = 4
  · obtain ⟨rfl, rfl⟩ := hfits
    cases integral
    all_goals cases integral'
    all_goals simp [hbool, hlt, hnlt]
    all_goals rfl
  · cases integral
    all_goals cases integral'
    all_goals simp [hbool, hlt, hnlt, hfour _ hint, hfour _ hstr, hfits]
    all_goals rfl

theorem loadState_swap :
    (loadState target platform).swap = true ↔ target.little_endian ≠ platform.little :=
  decide_eq_true_iff

/-! ## Numbers -/

/-- A number of an integral target is an `int` of the compiler. -/
theorem castInt_eq (h : Accepted target) (hintegral : target.lua_Number_integral = true)
    (hsize : target.sizeof_lua_Number ≠ 8) {x : UInt64} (hx : Represents target x) :
    IsInt double x.toNat (castInt host x) ∧
      InRange target.sizeof_lua_Number (castInt host x) := by
  rw [Represents, if_pos hintegral] at hx
  obtain ⟨n, hint, hrange⟩ := hx
  have hfour : InRange 4 n := by
    apply hrange.mono
    rcases h.number with hn | hn | hn | hn
    all_goals omega
  have hcast : castInt host x = n := by
    rw [castInt, toInt_of_isInt hint]
    exact if_pos hfour
  rw [hcast]
  exact ⟨hint, hrange⟩

theorem length_numberBytes (h : Accepted target) (x : UInt64) :
    (numberBytes host target x).length = writeSize target := by
  have hnumber := h.number
  unfold numberBytes writeSize sizedBytes
  cases hintegral : target.lua_Number_integral with
  | true =>
      rw [if_pos rfl]
      by_cases hsize : target.sizeof_lua_Number = 8
      · rw [if_neg (by omega), if_pos (.inl ⟨rfl, hsize⟩)]
        rfl
      · rw [if_pos (by omega), if_neg (by simp [hsize]), length_native]
  | false =>
      rw [if_neg (by decide)]
      by_cases hfour : target.sizeof_lua_Number = 4
      · rw [if_pos hfour, if_neg (by simp [hfour]), length_native, hfour]
      · rw [if_neg hfour]
        by_cases height : target.sizeof_lua_Number = 8
        · have hbytes : (if target.is_arm_fpa then
              swapHalves (native target.little_endian 8 x.toNat)
              else native target.little_endian 8 x.toNat).length = 8 := by
            split
            · rw [swapHalves_native _ x.toNat_lt, length_native]
            · exact length_native _ _ _
          rw [if_pos height, hbytes, if_neg (by simp [height]), height]
        · rw [if_neg height, if_pos (.inr ⟨rfl, by omega⟩)]
          rfl

/-- An integer is read and converted. -/
theorem reads_loadInteger {S : LoadState} {little : Bool} {n : Nat} {y : Int}
    (hswap : S.swap = true ↔ little ≠ platform.little) (hn : n = 1 ∨ n = 2 ∨ n = 4)
    (hy : InRange n y) :
    Reads (loadInteger platform S n) (sizedBytes little n y) (ofInt (format platform.size) y) := by
  have hhandled : Handled n := by
    unfold Handled
    omega
  rw [sizedBytes, if_pos hn]
  apply ((reads_loadVar hswap hhandled (wrap_lt n y)).andPure _).congr rfl
  rw [signed_wrap (by omega) hy]

/-- A variable is read as it is. -/
theorem reads_loadMem_one {S : LoadState} {little : Bool} {size : Nat}
    (hswap : S.swap = true ↔ little ≠ platform.little) (hsize : Handled size) (x : Nat) :
    Reads (loadMem S 1 size) (native little size x) [native platform.little size x] :=
  (reads_loadMem hswap hsize id [x]).congr (List.flatMap_singleton _ _) rfl

/-- A number is read from the bytes that were written. -/
theorem reads_loadNumber (h : Accepted target) (hheader : HeaderAccepted target platform)
    (hsame : SameNumbers target platform) {x : UInt64} (hx : Represents target x) :
    Reads (loadNumber platform (loadState target platform)) (numberBytes host target x)
      (loadedNumber target platform host x) := by
  have hswap := @loadState_swap target platform
  have hnumber := h.number
  cases hintegral : target.lua_Number_integral with
  | true =>
      have hcast (hsize : target.sizeof_lua_Number ≠ 8) :=
        @castInt_eq host target h hintegral hsize x hx
      rw [numberBytes, loadedNumber, if_pos hintegral, if_pos hintegral]
      rw [SameNumbers, if_pos hintegral] at hsame
      cases hintegral' : platform.integral with
      | true =>
          -- four bytes as they are
          rw [if_pos hintegral'] at hsame
          have htoflt : (loadState target platform).toflt = false := by
            rw [loadState, hintegral, hintegral']
            rfl
          rw [loadNumber, if_neg (by simp [htoflt]), hsame.1, hsame.2, if_pos rfl, sizedBytes,
            if_pos (by decide)]
          apply ((reads_loadMem_one hswap (.inr (.inr (.inl rfl))) _).bind _).congr
            (List.append_nil _) rfl
          rw [if_neg (by simp)]
          apply (reads_pure _).congr rfl
          rw [List.flatten_singleton, ofNative_native _ (wrap_lt 4 _)]
      | false =>
          -- converted from the size of the target
          rw [if_neg (by simp [hintegral'])] at hsame
          obtain ⟨_, hrange⟩ := hcast hsame
          have htoflt : (loadState target platform).toflt = true := by
            rw [loadState, hintegral, hintegral']
            rfl
          have hsize : (loadState target platform).numsize =
              UInt8.ofNat target.sizeof_lua_Number := rfl
          rw [loadNumber, if_pos htoflt, if_neg (by simp), hsize]
          rcases hnumber with hn | hn | hn | hn
          · rw [hn] at hrange ⊢
            exact reads_loadInteger hswap (by decide) hrange
          · rw [hn] at hrange ⊢
            exact reads_loadInteger hswap (by decide) hrange
          · rw [hn] at hrange ⊢
            exact reads_loadInteger hswap (by decide) hrange
          · exact (hsame hn).elim
  | false =>
      rw [SameNumbers, if_neg (by simp [hintegral])] at hsame
      have hintegral' : platform.integral = false := by
        cases hp : platform.integral with
        | false => rfl
        | true => exact absurd (hheader.2.2 hp) (by simp [hintegral])
      have htoflt : (loadState target platform).toflt = false := by
        rw [loadState, hintegral]
        rfl
      have hnot : ¬ target.lua_Number_integral = true := by simp [hintegral]
      rw [loadNumber, if_neg (by simp [htoflt]), numberBytes, if_neg hnot, loadedNumber,
        if_neg hnot]
      rcases platform.size_ok with hsize | hsize
      · -- single precision
        rw [hsize] at hsame ⊢
        rw [if_pos hsame, if_pos hsame]
        rw [Represents, if_neg (by simp [hintegral]), hsame] at hx
        obtain ⟨y, hy⟩ := hx
        apply ((reads_loadMem_one hswap (.inr (.inr (.inl rfl))) _).bind _).congr
          (List.append_nil _) rfl
        rw [if_neg (by simp)]
        apply (reads_pure _).congr rfl
        rw [List.flatten_singleton, ofNative_native _ (equal_convert (by decide) hy).2]
      · -- double precision, in some order of words
        rw [hsize] at hsame ⊢
        have hfour : ¬ target.sizeof_lua_Number = 4 := by omega
        rw [if_neg hfour, if_pos hsame, if_neg hfour]
        generalize hbits : (if target.is_arm_fpa then swapWords x.toNat else x.toNat) = bits
        have hlt : bits < 2 ^ (8 * 8) := by
          rw [← hbits]
          split
          · exact swapWords_lt x.toNat_lt
          · exact x.toNat_lt
        have hbytes : (if target.is_arm_fpa then
            swapHalves (native target.little_endian 8 x.toNat)
            else native target.little_endian 8 x.toNat) = native target.little_endian 8 bits := by
          rw [← hbits]
          split
          · exact swapHalves_native _ x.toNat_lt
          · rfl
        rw [hbytes]
        apply ((reads_loadMem_one hswap (.inr (.inr (.inr rfl))) bits).bind _).congr
          (List.append_nil _) rfl
        cases hfpa' : platform.armFpa with
        | true =>
            rw [if_pos ⟨rfl, rfl, hintegral'⟩]
            apply (reads_pure _).congr rfl
            rw [List.flatten_singleton, swapHalves_native _ hlt, ofNative_native _ (swapWords_lt hlt),
              ← hbits]
            cases hfpa : target.is_arm_fpa with
            | true => exact swapWords_swapWords x.toNat_lt
            | false => rfl
        | false =>
            rw [if_neg (by simp)]
            apply (reads_pure _).congr rfl
            rw [List.flatten_singleton, ofNative_native _ hlt, ← hbits]
            cases hfpa : target.is_arm_fpa with
            | true => rfl
            | false => rfl

/-- Which numbers are the same after that. -/
theorem sameNumber_loadedNumber (h : Accepted target) (hheader : HeaderAccepted target platform)
    (hsame : SameNumbers target platform) {x : UInt64} (hx : Represents target x)
    (hchecked : Checked host target x) :
    SameNumber platform x (loadedNumber target platform host x) ↔
      (target.lua_Number_integral = false → platform.size = 8 →
        target.is_arm_fpa = platform.armFpa ∨
          Equal double double x.toNat (swapWords x.toNat)) := by
  cases hintegral : target.lua_Number_integral with
  | true =>
      rw [SameNumbers, if_pos hintegral] at hsame
      rw [loadedNumber, if_pos hintegral]
      apply iff_of_true _ fun hfalse => by contradiction
      cases hintegral' : platform.integral with
      | true =>
          rw [if_pos hintegral'] at hsame
          obtain ⟨hint, hrange⟩ := @castInt_eq host target h hintegral (by omega) x hx
          rw [hsame.1] at hrange
          rw [SameNumber, if_pos hintegral', if_pos rfl, hsame.2, signed_wrap (by decide) hrange]
          exact hint
      | false =>
          have hnot : ¬ platform.integral = true := by simp [hintegral']
          rw [if_neg hnot] at hsame
          obtain ⟨hint, -⟩ := @castInt_eq host target h hintegral hsame x hx
          rw [SameNumber, if_neg hnot, if_neg (by simp)]
          rcases platform.size_ok with hsize | hsize
          · -- compared when it was dumped
            rw [hsize]
            exact (hchecked hintegral).symm
          · rw [hsize]
            exact equal_of_isInt hint (isInt_ofInt (by decide) hint).1
  | false =>
      have hnot : ¬ target.lua_Number_integral = true := by simp [hintegral]
      have hnot' : ¬ platform.integral = true := fun hp => hnot (hheader.2.2 hp)
      rw [SameNumbers, if_neg hnot] at hsame
      rw [Represents, if_neg hnot, hsame] at hx
      obtain ⟨y, hy⟩ := hx
      rw [SameNumber, if_neg hnot', loadedNumber, if_neg hnot]
      rcases platform.size_ok with hsize | hsize
      · rw [hsize] at hsame hy ⊢
        rw [if_pos hsame]
        apply iff_of_true
        · exact (equal_convert (by decide) hy).1
        · intro _ height
          contradiction
      · rw [hsize] at hsame hy ⊢
        rw [if_neg (by omega)]
        by_cases hfpa : target.is_arm_fpa = platform.armFpa
        · rw [if_pos hfpa]
          exact iff_of_true hy.self fun _ _ => .inl hfpa
        · rw [if_neg hfpa]
          constructor
          · exact fun heq _ _ => .inr heq
          · exact fun hall => (hall rfl rfl).resolve_left hfpa

/-- Where numbers are not the same, the platform reads more for them than there is. -/
theorem writeSize_lt (h : Accepted target) (hheader : HeaderAccepted target platform)
    (hnarrows : ¬ Narrows target platform) (hsame : ¬ SameNumbers target platform) :
    writeSize target < readSize platform (loadState target platform) := by
  have hnumber := h.number
  have hsize := platform.size_ok
  unfold SameNumbers at hsame
  unfold Narrows at hnarrows
  cases hintegral : target.lua_Number_integral with
  | true =>
      rw [if_pos hintegral] at hsame
      cases hintegral' : platform.integral with
      | true =>
          have htoflt : (loadState target platform).toflt = false := by
            rw [loadState, hintegral, hintegral']
            rfl
          have hread : readSize platform (loadState target platform) = platform.size :=
            if_neg (by simp [htoflt])
          rw [if_pos hintegral'] at hsame
          rw [writeSize, hread]
          split
          · omega
          · rename_i hwrite
            have height : target.sizeof_lua_Number ≠ 8 := fun h8 => hwrite (.inl ⟨hintegral, h8⟩)
            omega
      | false =>
          have htoflt : (loadState target platform).toflt = true := by
            rw [loadState, hintegral, hintegral']
            rfl
          rw [if_neg (by simp [hintegral']), not_not] at hsame
          rw [writeSize, if_pos (.inl ⟨hintegral, hsame⟩), readSize, if_pos htoflt]
          change 0 < (UInt8.ofNat target.sizeof_lua_Number).toNat
          rw [hsame]
          decide
  | false =>
      have hnot : ¬ target.lua_Number_integral = true := by simp [hintegral]
      have hintegral' : platform.integral = false :=
        Bool.eq_false_iff.mpr fun hp => hnot (hheader.2.2 hp)
      have htoflt : (loadState target platform).toflt = false := by
        rw [loadState, hintegral]
        rfl
      have hread : readSize platform (loadState target platform) = platform.size :=
        if_neg (by simp [htoflt])
      rw [if_neg hnot] at hsame
      rw [writeSize, hread]
      have hnarrow : ¬ (target.sizeof_lua_Number = 8 ∧ platform.size = 4) :=
        fun hsizes => hnarrows ⟨hintegral, hintegral', hsizes⟩
      split
      · omega
      · rename_i hwrite
        have hfour : ¬ target.sizeof_lua_Number < 4 := fun hlt => hwrite (.inr ⟨hintegral, hlt⟩)
        omega

/-! ## The whole chunk -/

/-- What a dump with status zero has written. -/
theorem dumped {write : List UInt8 → List UInt8 → Nat} {strip : Bool} {f : Proto UInt64}
    (hint : target.sizeof_int = 4) (hstr : target.sizeof_strsize_t = 4)
    (hshort : ∀ g ∈ (f.image strip id).functions, ∀ s ∈ g.strings, Short s)
    (hstatus : (luaUDumpCrosscompile host target write strip f).status = 0) :
    (luaUDumpCrosscompile host target write strip f).out = headerBytes target ++
      functionBytes target.little_endian (numberBytes host target)
        (if strip then some unknownSource else none) (f.image strip id) ∧
    (∀ g ∈ (f.image strip id).functions, g.Fits) ∧ ∀ x ∈ f.numbers, Checked host target x := by
  have hdump := @emits_dumpFunction host target write hint hstr strip none _ f rfl hshort
  have hheader : Emits (dumpHeader target write) (headerBytes target) True := emits_block write _
  obtain ⟨-, hout, -, hfits, hchecked⟩ := hheader.andThen hdump ⟨[], 0⟩ hstatus
  exact ⟨hout, hfits, hchecked⟩

theorem dumped_header (write : List UInt8 → List UInt8 → Nat) (strip : Bool)
    (f : Proto UInt64) :
    ∃ rest, (luaUDumpCrosscompile host target write strip f).out = headerBytes target ++ rest := by
  obtain ⟨rest, hrest⟩ := @appends_dumpFunction host target write strip none f
    (dumpHeader target write ⟨[], 0⟩).2
  exact ⟨rest, hrest⟩

/-- The functions of a chunk come after its header. -/
theorem luaUUndump_eq {checkcode : Proto Unit → Bool} {room : Nat} (h : Accepted target)
    (hheader : HeaderAccepted target platform) (bytes : List UInt8) :
    luaUUndump platform checkcode room (headerBytes target ++ bytes) =
      (loadFunction platform (loadState target platform) checkcode room unknownSource
        bytes).map Prod.fst := by
  have hload := @loadHeader_eq target platform h bytes
  rw [if_pos hheader] at hload
  rw [luaUUndump, luaUUndumpFrom, bind_of_ok hload]

/-- What is loaded when the platform reads the numbers that were written. -/
theorem luaUUndump_dumped {write : List UInt8 → List UInt8 → Nat} {strip : Bool}
    {f : Proto UInt64} {checkcode : Proto Unit → Bool} {room : Nat} (h : Accepted target)
    (hheader : HeaderAccepted target platform)
    (hrepresents : ∀ x ∈ f.numbers, Represents target x)
    (hshort : ∀ g ∈ (f.image strip id).functions, ∀ s ∈ g.strings, Short s)
    (hcode : ∀ g ∈ (f.image strip id).functions, checkcode g.shape = true)
    (hdepth : f.depth ≤ room)
    (hstatus : (luaUDumpCrosscompile host target write strip f).status = 0)
    (hsame : f.numbers = [] ∨ SameNumbers target platform) :
    luaUUndump platform checkcode room (luaUDumpCrosscompile host target write strip f).out =
      .ok (f.image strip (loadedNumber target platform host)) := by
  obtain ⟨hout, hfits, -⟩ := dumped hheader.1 hheader.2.1 hshort hstatus
  have hnum : ∀ x ∈ (f.image strip id).numbers,
      Reads (loadNumber platform (loadState target platform)) (numberBytes host target x)
        (loadedNumber target platform host x) := by
    rw [numbers_image, List.map_id]
    intro x hx
    apply reads_loadNumber h hheader _ (hrepresents x hx)
    apply hsame.resolve_left
    exact List.ne_nil_of_mem hx
  have hread := @reads_loadFunction platform _ target.little_endian loadState_swap _ _ _ checkcode
    room (if strip then some unknownSource else none) unknownSource (f.image strip id) hfits hcode
    hnum (by rwa [depth_image]) (by cases strip <;> simp)
  rw [hout, luaUUndump_eq h hheader, ← List.append_nil (functionBytes _ _ _ _), hread,
    image_image]
  rfl

/-- **Which chunks are loaded as the prototypes that were dumped.** -/
theorem crosscompiled_reconstructs {write : List UInt8 → List UInt8 → Nat} {strip : Bool}
    {f : Proto UInt64} {checkcode : Proto Unit → Bool} {room : Nat} (h : Accepted target)
    (hrepresents : ∀ x ∈ f.numbers, Represents target x)
    (hshort : ∀ g ∈ (f.image strip id).functions, ∀ s ∈ g.strings, Short s)
    (hcode : ∀ g ∈ (f.image strip id).functions, checkcode g.shape = true)
    (hdepth : f.depth ≤ room)
    (hstatus : (luaUDumpCrosscompile host target write strip f).status = 0) :
    ((HeaderAccepted target platform →
        f.numbers = [] ∨ KeepsNumbers target platform f.numbers) →
      Reconstructs platform checkcode room strip f
        (luaUDumpCrosscompile host target write strip f).out) ∧
    (¬ Narrows target platform →
      Reconstructs platform checkcode room strip f
        (luaUDumpCrosscompile host target write strip f).out →
      HeaderAccepted target platform →
        f.numbers = [] ∨ KeepsNumbers target platform f.numbers) := by
  have hundump (hheader : HeaderAccepted target platform) := @luaUUndump_dumped host target platform
    write strip f checkcode room h hheader hrepresents hshort hcode hdepth hstatus
  have hnumber (hheader : HeaderAccepted target platform) (hsame : SameNumbers target platform)
      (x : UInt64) (hx : x ∈ f.numbers) :=
    sameNumber_loadedNumber h hheader hsame (hrepresents x hx)
      ((dumped hheader.1 hheader.2.1 hshort hstatus).2.2 x hx)
  obtain ⟨rest, hrest⟩ := @dumped_header host target write strip f
  have hload := @loadHeader_eq target platform h rest
  constructor
  · intro hkeeps
    by_cases hheader : HeaderAccepted target platform
    · right
      have hkeeps' := hkeeps hheader
      refine ⟨_, hundump hheader (hkeeps'.imp_right And.left), agrees_image.mpr ?_⟩
      intro x hx
      obtain ⟨hsame, hwords⟩ := hkeeps'.resolve_left (List.ne_nil_of_mem hx)
      apply (hnumber hheader hsame x hx).mpr
      intro hfloat hsize
      exact (hwords hfloat hsize).imp_right fun hall => hall x hx
    · left
      rw [if_neg hheader] at hload
      exact ⟨.badHeader, hrest ▸ hload⟩
  · intro hnarrows hreconstructs hheader
    by_cases hnumbers : f.numbers = []
    · exact .inl hnumbers
    right
    rcases hreconstructs with ⟨e, herror⟩ | ⟨g, hg, hagrees⟩
    · rw [hrest, hload, if_pos hheader] at herror
      cases herror
    by_cases hsame : SameNumbers target platform
    · rw [hundump hheader (.inr hsame)] at hg
      cases hg
      have hall := agrees_image.mp hagrees
      refine ⟨hsame, fun hfloat hsize => ?_⟩
      by_cases hfpa : target.is_arm_fpa = platform.armFpa
      · exact .inl hfpa
      · right
        intro x hx
        have hwords := (hnumber hheader hsame x hx).mp (hall x hx) hfloat hsize
        exact hwords.resolve_left hfpa
    · -- no prototype of that shape is loaded from less than its size
      obtain ⟨hout, hfits, -⟩ := dumped hheader.1 hheader.2.1 hshort hstatus
      have hlt := writeSize_lt h hheader hnarrows hsame
      have hshape : g.shape = (f.image strip id).shape := by
        rw [hagrees.shape, Proto.shape, image_image]
      rw [hout, luaUUndump_eq h hheader] at hg
      generalize hrun : loadFunction platform _ checkcode room unknownSource _ = run at hg
      cases run with
      | error e => contradiction
      | ok loaded =>
          cases hg
          have hsource := (hfits _ (mem_functions_self _)).2.strings _ mem_strings_source
          have hnum : ∀ x ∈ (f.image strip id).numbers,
              (numberBytes host target x).length = writeSize target :=
            fun x _ => length_numberBytes h x
          have hnumbers' : (f.image strip id).numbers ≠ [] := by
            rwa [numbers_image, List.map_id]
          have hparent : ∀ s, (if strip then some unknownSource else none) = some s →
              unknownSource = s := by
            cases strip with
            | true => exact fun s hs => Option.some.inj hs
            | false => exact fun s hs => by contradiction
          exact (not_loaded loadState_swap hparent hsource hnum hlt hnumbers' hshape hrun).elim

/-- A function that returns its only constant, the number one. -/
def constantOne : Proto UInt64 where
  source := [0x40, 0x61]
  linedefined := 0
  lastlinedefined := 0
  nups := 0
  numparams := 0
  is_vararg := 2
  maxstacksize := 2
  code := [0x00000001, 0x0100001E, 0x0080001E]
  k := [.number 0x3FF0000000000000]
  lineinfo := [1, 1, 1]
  locvars := []
  upvalues := []
  p := []

theorem constantOne_short :
    ∀ g ∈ (constantOne.image false id).functions, ∀ s ∈ g.strings, Short s := by
  intro g hg s hs bs heq
  obtain rfl : g = constantOne.image false id := List.mem_singleton.mp hg
  obtain rfl : s = some [0x40, 0x61] := List.mem_singleton.mp hs
  cases heq
  decide

theorem crosscompiled_reconstructs_int :
    Reconstructs ⟨true, 8, false, false, .inr rfl⟩ (fun _ => true) 200 false constantOne
      (luaUDumpCrosscompile ⟨true, fun _ => 0⟩ ⟨false, 4, 4, 2, true, false⟩ (fun _ _ => 0) false
        constantOne).out := by
  have hrepresents : ∀ x ∈ constantOne.numbers, Represents ⟨false, 4, 4, 2, true, false⟩ x := by
    intro x hx
    obtain rfl : x = 0x3FF0000000000000 := List.mem_singleton.mp hx
    exact ⟨1, by decide +kernel, by decide⟩
  apply (@crosscompiled_reconstructs ⟨true, fun _ => 0⟩ ⟨false, 4, 4, 2, true, false⟩
    ⟨true, 8, false, false, .inr rfl⟩ (fun _ _ => 0) false constantOne (fun _ => true) 200
    ⟨by decide, by decide, by decide⟩ hrepresents constantOne_short (fun _ _ => rfl) (by decide)
    (by decide +kernel)).1
  intro _
  exact .inr ⟨show 2 ≠ 8 by decide, fun hfloat => by contradiction⟩

/-- Numbers of four bytes are loaded where a `lua_Number` has eight. -/
theorem not_crosscompiled_reconstructs :
    ¬ ∀ (host : Host) (target : DumpTargetInfo) (platform : Platform)
      (write : List UInt8 → List UInt8 → Nat) (strip : Bool) (f : Proto UInt64)
      (checkcode : Proto Unit → Bool) (room : Nat), Accepted target →
      (∀ x ∈ f.numbers, Represents target x) →
      (∀ g ∈ (f.image strip id).functions, ∀ s ∈ g.strings, Short s) →
      (∀ g ∈ (f.image strip id).functions, checkcode g.shape = true) →
      f.depth ≤ room → (luaUDumpCrosscompile host target write strip f).status = 0 →
      Reconstructs platform checkcode room strip f
        (luaUDumpCrosscompile host target write strip f).out := by
  intro hall
  have hrepresents : ∀ x ∈ constantOne.numbers, Represents ⟨true, 4, 4, 4, false, false⟩ x := by
    intro x hx
    obtain rfl : x = 0x3FF0000000000000 := List.mem_singleton.mp hx
    exact ⟨0x3F800000, by decide +kernel⟩
  have hreconstructs := hall ⟨true, fun _ => 0⟩ ⟨true, 4, 4, 4, false, false⟩
    ⟨true, 8, false, false, .inr rfl⟩ (fun _ _ => 0) false constantOne (fun _ => true) 200
    ⟨by decide, by decide, by decide⟩ hrepresents constantOne_short (fun _ _ => rfl) (by decide)
    (by decide +kernel)
  rcases hreconstructs with ⟨e, he⟩ | ⟨g, hg, -⟩
  · have hok : (loadHeader ⟨true, 8, false, false, .inr rfl⟩
        (luaUDumpCrosscompile ⟨true, fun _ => 0⟩ ⟨true, 4, 4, 4, false, false⟩ (fun _ _ => 0) false
          constantOne).out).toBool = true := by decide +kernel
    rw [he] at hok
    contradiction
  · have herror : (luaUUndump ⟨true, 8, false, false, .inr rfl⟩ (fun _ => true) 200
        (luaUDumpCrosscompile ⟨true, fun _ => 0⟩ ⟨true, 4, 4, 4, false, false⟩ (fun _ _ => 0) false
          constantOne).out).toBool = false := by decide +kernel
    rw [hg] at herror
    contradiction

end LuaChunk
