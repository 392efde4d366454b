import EluaWebServer.LuaChunk.Dump

/-!
# The format of a chunk

What `luaU_dump_crosscompile` has written when its status is zero, on a target with integers
and sizes of four bytes.  Then all integers were in the range of the target.
-/

namespace LuaChunk

open Bytes Ieee Stream

/-- The largest integer that is dumped in four bytes. -/
def maxInt : Nat := 0x7FFFFFFE

/-- The size with the terminator is an `int32_t`. -/
def Short (s : Option (List UInt8)) : Prop := ∀ bs, s = some bs → bs.length + 1 < 2 ^ 31

/-- The integers of a function are those of the target, and its strings are short. -/
structure ProtoFields.Fits {ν : Type} (f : ProtoFields ν) : Prop where
  linedefined : f.linedefined ≤ maxInt
  lastlinedefined : f.lastlinedefined ≤ maxInt
  sizecode : f.code.length ≤ maxInt
  sizek : f.k.length ≤ maxInt
  sizelineinfo : f.lineinfo.length ≤ maxInt
  lineinfo : ∀ x ∈ f.lineinfo, InRange 4 x
  sizelocvars : f.locvars.length ≤ maxInt
  locvars : ∀ v ∈ f.locvars, v.startpc ≤ maxInt ∧ v.endpc ≤ maxInt
  sizeupvalues : f.upvalues.length ≤ maxInt
  strings : ∀ s ∈ f.strings, Short s

def Proto.Fits {ν : Type} (f : Proto ν) : Prop := f.p.length ≤ maxInt ∧ f.toProtoFields.Fits

/-! ## The format -/

section

variable {ν : Type} (little : Bool) (num : ν → List UInt8)

def intBytes (x : Int) : List UInt8 := native little 4 (wrap 4 x)

def stringBytes : Option (List UInt8) → List UInt8
  | none => native little 4 0
  | some s => native little 4 (s.length + 1) ++ (s ++ [0])

def codeBytes (code : List UInt32) : List UInt8 :=
  intBytes little code.length ++ code.flatMap fun i => native little 4 i.toNat

def constantBytes : Constant ν → List UInt8
  | .nil => [LUA_TNIL]
  | .boolean b => [LUA_TBOOLEAN, b.toUInt8]
  | .number x => LUA_TNUMBER :: num x
  | .string s => LUA_TSTRING :: stringBytes little s

def constantsBytes (k : List (Constant ν)) : List UInt8 :=
  intBytes little k.length ++ k.flatMap (constantBytes little num)

def lineinfoBytes (lineinfo : List Int) : List UInt8 :=
  intBytes little lineinfo.length ++ lineinfo.flatMap (intBytes little)

def locvarBytes (v : LocVar) : List UInt8 :=
  stringBytes little v.varname ++ (intBytes little v.startpc ++ intBytes little v.endpc)

def locvarsBytes (locvars : List LocVar) : List UInt8 :=
  intBytes little locvars.length ++ locvars.flatMap (locvarBytes little)

def upvaluesBytes (upvalues : List (Option (List UInt8))) : List UInt8 :=
  intBytes little upvalues.length ++ upvalues.flatMap (stringBytes little)

def debugBytes (f : ProtoFields ν) : List UInt8 :=
  lineinfoBytes little f.lineinfo ++ (locvarsBytes little f.locvars ++
    upvaluesBytes little f.upvalues)

/-- The source, unless it is that of the function around. -/
def sourceBytes (parent : Option (List UInt8)) (source : List UInt8) : List UInt8 :=
  stringBytes little (if parent = some source then none else some source)

/-- From the source to the code. -/
def fixedBytes (f : ProtoFields ν) : List UInt8 :=
  intBytes little f.linedefined ++ (intBytes little f.lastlinedefined ++
    ([f.nups] ++ ([f.numparams] ++ ([f.is_vararg] ++ ([f.maxstacksize] ++
      codeBytes little f.code)))))

mutual

/-- A function after its source. -/
def bodyBytes : Proto ν → List UInt8
  | ⟨f, p⟩ => fixedBytes little f ++ (constantsBytes little num f.k ++
      (intBytes little p.length ++ (functionsBytes f.source p ++ debugBytes little f)))

/-- The functions defined inside a function with that source. -/
def functionsBytes (parent : List UInt8) : List (Proto ν) → List UInt8
  | [] => []
  | f :: fs => sourceBytes little (some parent) f.source ++ bodyBytes f ++
      functionsBytes parent fs

end

def functionBytes (parent : Option (List UInt8)) (f : Proto ν) : List UInt8 :=
  sourceBytes little parent f.source ++ bodyBytes little num f

end

/-- An integer of the given size; other sizes are not handled. -/
def sizedBytes (little : Bool) (size : Nat) (x : Int) : List UInt8 :=
  if size = 1 ∨ size = 2 ∨ size = 4 then native little size (wrap size x) else []

/-- A number constant. -/
def numberBytes (host : Host) (target : DumpTargetInfo) (x : UInt64) : List UInt8 :=
  if target.lua_Number_integral then
    sizedBytes target.little_endian target.sizeof_lua_Number (castInt host x)
  else if target.sizeof_lua_Number = 4 then
    native target.little_endian 4 (convert double single x.toNat)
  else if target.sizeof_lua_Number = 8 then
    if target.is_arm_fpa then swapHalves (native target.little_endian 8 x.toNat)
    else native target.little_endian 8 x.toNat
  else []

/-- `DumpNumber` has compared the number with its integer in single precision. -/
def Checked (host : Host) (target : DumpTargetInfo) (x : UInt64) : Prop :=
  target.lua_Number_integral = true → Equal single double (ofInt single (castInt host x)) x.toNat

theorem functionsBytes_eq {ν : Type} (little : Bool) (num : ν → List UInt8)
    (parent : List UInt8) (fs : List (Proto ν)) :
    functionsBytes little num parent fs =
      fs.flatMap (functionBytes little num (some parent)) := by
  induction fs with
  | nil => rw [functionsBytes, List.flatMap_nil]
  | cons f fs ih => rw [functionsBytes, List.flatMap_cons, ih, functionBytes]

theorem bodyBytes_eq {ν : Type} (little : Bool) (num : ν → List UInt8) (f : Proto ν) :
    bodyBytes little num f = fixedBytes little f.toProtoFields ++
      (constantsBytes little num f.k ++ (intBytes little f.p.length ++
        (f.p.flatMap (functionBytes little num (some f.source)) ++
          debugBytes little f.toProtoFields))) := by
  cases f with
  | mk f p => rw [bodyBytes, functionsBytes_eq]

/-! ## What is dumped -/

variable {host : Host} {target : DumpTargetInfo} {write : List UInt8 → List UInt8 → Nat}

theorem emits_dumpChar (y : UInt8) : Emits (dumpChar write y) [y] True := emits_block write [y]

theorem emits_native (n x : Nat) :
    Emits (block write (maybeByteSwap host target (native host.little n x)))
      (native target.little_endian n x) True := by
  rw [maybeByteSwap_native]
  exact emits_block write _

theorem native_one (little : Bool) (x : Nat) : native little 1 x = [UInt8.ofNat x] := by
  cases little with
  | false => rfl
  | true => rfl

theorem emits_dumpIntWithSize (x : Int) (size : Nat) :
    Emits (dumpIntWithSize host target write x size) (sizedBytes target.little_endian size x)
      (size = 4 → -0x7FFFFFFF ≤ x ∧ x ≤ 0x7FFFFFFE) := by
  have hcheck (c : Prop) [Decidable c] := emits_setStatusIf c (by decide : LUA_ERR_CC_INTOVERFLOW ≠ 0)
  unfold dumpIntWithSize sizedBytes
  split
  · rw [if_pos (by decide), native_one]
    apply ((hcheck _).andThen (emits_dumpChar _)).imp (List.nil_append _)
    intro _ hsize
    contradiction
  · rw [if_pos (by decide)]
    apply ((hcheck _).andThen (emits_native _ _)).imp (List.nil_append _)
    intro _ hsize
    contradiction
  · rw [if_pos (by decide)]
    apply ((hcheck _).andThen (emits_native _ _)).imp (List.nil_append _)
    intro hp _
    omega
  · rename_i h1 h2 h4
    rw [if_neg (by rintro (h | h | h); exacts [h1 h, h2 h, h4 h])]
    apply emits_pure.imp rfl
    intro _ hsize
    exact (h4 hsize).elim

section

variable (hint : target.sizeof_int = 4) (hstr : target.sizeof_strsize_t = 4)
include hint

theorem emits_dumpInt (x : Int) :
    Emits (dumpInt host target write x) (intBytes target.little_endian x) (InRange 4 x) := by
  have h := @emits_dumpIntWithSize host target write x 4
  rw [dumpInt, hint]
  apply h.imp rfl
  intro hrange
  obtain ⟨hlow, hhigh⟩ := hrange rfl
  constructor
  · norm_num
    omega
  · norm_num
    omega

theorem emits_dumpNat (n : Nat) :
    Emits (dumpInt host target write n) (intBytes target.little_endian n) (n ≤ maxInt) := by
  have h := @emits_dumpIntWithSize host target write n 4
  rw [dumpInt, hint]
  apply h.imp rfl
  intro hrange
  unfold maxInt
  have := (hrange rfl).2
  omega

theorem emits_dumpCode (code : List UInt32) :
    Emits (dumpCode host target write code) (codeBytes target.little_endian code)
      (code.length ≤ maxInt) := by
  have hloop := emits_forM code fun i _ => @emits_native host target write 4 i.toNat
  apply ((emits_dumpNat hint _).andThen hloop).imp rfl
  exact And.left

omit hint
include hstr

theorem emits_dumpString {s : Option (List UInt8)} (hs : Short s) :
    Emits (dumpString host target write s) (stringBytes target.little_endian s) True := by
  have hsize (x : Nat) (hx : x < 2 ^ 31) :
      Emits (dumpSize host target write x) (native target.little_endian 4 x) True := by
    have hwrap : wrap 4 x = x := wrap_natCast (by omega)
    rw [dumpSize, hstr]
    apply ((emits_setStatusIf _ (by decide)).andThen (emits_native _ _)).imp
    · rw [List.nil_append, hwrap]
    · exact fun _ => trivial
  cases s with
  | none => exact hsize 0 (by decide)
  | some s =>
      have hshort := hs s rfl
      have hmod : (s.length + 1) % 2 ^ 32 = s.length + 1 := Nat.mod_eq_of_lt (by omega)
      have hsigned : signed 4 (s.length + 1) = ((s.length + 1 : Nat) : Int) := if_pos hshort
      have htake : (s ++ [0]).take (s.length + 1) = s ++ [0] :=
        List.take_of_length_le (by rw [List.length_append]; rfl)
      rw [dumpString]
      simp only [hmod, hsigned, htake]
      apply ((hsize _ hshort).andThen (emits_block write _)).imp rfl
      exact fun _ => trivial

end

/-- The number is written, and it has been checked. -/
theorem emits_dumpNumber (x : UInt64) :
    Emits (dumpNumber host target write x) (numberBytes host target x)
      (Checked host target x) := by
  unfold dumpNumber numberBytes Checked
  by_cases hintegral : target.lua_Number_integral = true
  · rw [if_pos hintegral, if_pos hintegral]
    apply ((emits_setStatusIf _ (by decide)).andThen (emits_dumpIntWithSize _ _)).imp
    · exact List.nil_append _
    · exact fun hp _ => not_not.mp hp.1
  · rw [if_neg hintegral, if_neg hintegral]
    split
    · rename_i h4
      rw [if_pos h4]
      apply (emits_native 4 _).imp rfl
      exact fun _ h => (hintegral h).elim
    · rename_i h8
      rw [if_neg (by omega), if_pos h8]
      by_cases hfpa : target.is_arm_fpa = true
      · -- the halves are exchanged in either byte order
        have hswap : maybeByteSwap host target (swapHalves (native host.little 8 x.toNat)) =
            swapHalves (native target.little_endian 8 x.toNat) := by
          rw [← @maybeByteSwap_native host, maybeByteSwap, maybeByteSwap, exchanges_half,
            exchanges_half]
          split
          · exact reverse_swapHalves (length_native _ _ _)
          · rfl
        simp only [if_pos hfpa, hswap]
        apply (emits_block write _).imp rfl
        exact fun _ h => (hintegral h).elim
      · simp only [if_neg hfpa]
        apply (emits_native 8 _).imp rfl
        exact fun _ h => (hintegral h).elim
    · rename_i h4 h8
      rw [if_neg (fun h => h4 h), if_neg (fun h => h8 h)]
      apply emits_pure.imp rfl
      exact fun _ h => (hintegral h).elim

section

variable (hint : target.sizeof_int = 4) (hstr : target.sizeof_strsize_t = 4)
include hint hstr

omit hint in
theorem emits_dumpConstant {o : Constant UInt64} (hs : ∀ s, o = .string s → Short s) :
    Emits (dumpConstant host target write o)
      (constantBytes target.little_endian (numberBytes host target) o)
      (∀ x ∈ o.numbers, Checked host target x) := by
  cases o with
  | nil =>
      apply (emits_dumpChar _).imp rfl
      intro _ x hx
      exact absurd hx List.not_mem_nil
  | boolean b =>
      apply ((emits_dumpChar _).andThen (emits_dumpChar _)).imp rfl
      intro _ x hx
      exact absurd hx List.not_mem_nil
  | number x =>
      apply ((emits_dumpChar _).andThen (emits_dumpNumber x)).imp rfl
      intro hp y hy
      rw [List.mem_singleton.mp hy]
      exact hp.2
  | string s =>
      apply ((emits_dumpChar _).andThen (emits_dumpString hstr (hs s rfl))).imp rfl
      intro _ x hx
      exact absurd hx List.not_mem_nil

theorem emits_dumpConstants {strip : Bool} {f : ProtoFields UInt64}
    (hs : ∀ s ∈ (f.image strip id).strings, Short s) :
    Emits (dumpConstants host target write f)
      (constantsBytes target.little_endian (numberBytes host target) (f.image strip id).k)
      (f.k.length ≤ maxInt ∧ ∀ x ∈ f.k.flatMap Constant.numbers, Checked host target x) := by
  have hk : (f.image strip id).k = f.k := by
    rw [ProtoFields.image]
    exact (List.map_congr_left fun o _ => o.map_id).trans (List.map_id f.k)
  have hstring : ∀ o ∈ f.k, ∀ s, o = .string s → Short s := by
    intro o ho s heq
    rw [← hk, heq] at ho
    exact hs s (mem_strings_of_mem ho)
  rw [hk]
  have hloop := emits_forM f.k fun o ho =>
    @emits_dumpConstant host target write hstr o (hstring o ho)
  apply ((emits_dumpNat hint _).andThen hloop).imp rfl
  intro hp
  refine ⟨hp.1, fun x hx => ?_⟩
  obtain ⟨o, ho, hxo⟩ := List.mem_flatMap.mp hx
  exact hp.2 o ho x hxo

theorem emits_dumpLocvar {v : LocVar} (hs : Short v.varname) :
    Emits (dumpLocvar host target write v) (locvarBytes target.little_endian v)
      (v.startpc ≤ maxInt ∧ v.endpc ≤ maxInt) := by
  apply ((emits_dumpString hstr hs).andThen
    ((emits_dumpNat hint _).andThen (emits_dumpNat hint _))).imp rfl
  exact And.right

theorem emits_dumpDebug (strip : Bool) {f : ProtoFields UInt64}
    (hs : ∀ s ∈ (f.image strip id).strings, Short s) :
    Emits (dumpDebug host target write strip f)
      (debugBytes target.little_endian (f.image strip id))
      ((f.image strip id).lineinfo.length ≤ maxInt ∧
        (∀ x ∈ (f.image strip id).lineinfo, InRange 4 x) ∧
        (f.image strip id).locvars.length ≤ maxInt ∧
        (∀ v ∈ (f.image strip id).locvars, v.startpc ≤ maxInt ∧ v.endpc ≤ maxInt) ∧
        (f.image strip id).upvalues.length ≤ maxInt) := by
  have hnat (n : Nat) := @emits_dumpNat host target write hint n
  have hlines := emits_forM (f.image strip id).lineinfo fun x _ =>
    @emits_dumpInt host target write hint x
  have hvars := emits_forM (f.image strip id).locvars fun v hv =>
    @emits_dumpLocvar host target write hint hstr v
      (hs _ (List.mem_append_left _ (List.mem_append_right _ (List.mem_map_of_mem hv))))
  have hups := emits_forM (f.image strip id).upvalues fun s hmem =>
    @emits_dumpString host target write hstr s (hs s (List.mem_append_right _ hmem))
  have hall := (hnat (f.image strip id).lineinfo.length).andThen (hlines.andThen
    ((hnat (f.image strip id).locvars.length).andThen (hvars.andThen
      ((hnat (f.image strip id).upvalues.length).andThen hups))))
  apply Emits.imp hall
  · simp only [debugBytes, lineinfoBytes, locvarsBytes, upvaluesBytes, List.append_assoc]
  · intro hp
    exact ⟨hp.1, hp.2.1, hp.2.2.1, hp.2.2.2.1, hp.2.2.2.2.1⟩

theorem emits_dumpHead {strip : Bool} {parent parent' : Option (List UInt8)}
    {f : ProtoFields UInt64}
    (hparent : parent' = if strip then some unknownSource else parent)
    (hs : Short (some (f.image strip id).source)) :
    Emits (dumpHead host target write strip parent f)
      (sourceBytes target.little_endian parent' (f.image strip id).source ++
        fixedBytes target.little_endian (f.image strip id))
      (f.linedefined ≤ maxInt ∧ f.lastlinedefined ≤ maxInt ∧ f.code.length ≤ maxInt) := by
  have hsource : Emits (dumpString host target write
      (if some f.source = parent ∨ strip then none else some f.source))
      (sourceBytes target.little_endian parent' (f.image strip id).source) True := by
    rw [sourceBytes]
    cases strip with
    | true =>
        rw [if_pos (.inr rfl), hparent, if_pos rfl]
        exact emits_dumpString hstr fun _ hnone => by contradiction
    | false =>
        change parent' = parent at hparent
        change Emits _ (stringBytes _ (if parent' = some f.source then none else some f.source)) _
        by_cases heq : some f.source = parent
        · rw [if_pos (.inl heq), hparent, if_pos heq.symm]
          exact emits_dumpString hstr fun _ hnone => by contradiction
        · rw [if_neg (by simpa using heq), hparent, if_neg (Ne.symm heq)]
          exact emits_dumpString hstr hs
  have hnat (n : Nat) := @emits_dumpNat host target write hint n
  have hchar (y : UInt8) := @emits_dumpChar write y
  have hcode := @emits_dumpCode host target write hint f.code
  have hall := hsource.andThen ((hnat f.linedefined).andThen ((hnat f.lastlinedefined).andThen
    ((hchar f.nups).andThen ((hchar f.numparams).andThen ((hchar f.is_vararg).andThen
      ((hchar f.maxstacksize).andThen hcode))))))
  apply Emits.imp hall rfl
  intro hp
  exact ⟨hp.2.1, hp.2.2.1, hp.2.2.2.2.2.2.2⟩

/-- **A dump with status zero has written the format**, with the integers in range. -/
theorem emits_dumpFunction {strip : Bool} {parent parent' : Option (List UInt8)}
    (f : Proto UInt64) (hparent : parent' = if strip then some unknownSource else parent)
    (hs : ∀ g ∈ (f.image strip id).functions, ∀ s ∈ g.strings, Short s) :
    Emits (dumpFunction host target write strip parent f)
      (functionBytes target.little_endian (numberBytes host target) parent' (f.image strip id))
      ((∀ g ∈ (f.image strip id).functions, g.Fits) ∧ ∀ x ∈ f.numbers, Checked host target x) := by
  induction f using Proto.induct generalizing parent parent' with
  | proto f ih =>
      have hself := hs _ (mem_functions_self _)
      rw [image_fields] at hself
      have hnested : Emits (dumpFunctions host target write strip (some f.source) f.p)
          ((f.image strip id).p.flatMap (functionBytes target.little_endian
            (numberBytes host target) (some (f.image strip id).source)))
          (∀ g ∈ f.p, (∀ h ∈ (g.image strip id).functions, h.Fits) ∧
            ∀ x ∈ g.numbers, Checked host target x) := by
        rw [dumpFunctions_eq, image_p, List.flatMap_map]
        apply emits_forM f.p
        intro g hg
        apply ih g hg
        · rw [image_fields]
          cases strip with
          | false => rfl
          | true => rfl
        · intro h hh
          apply hs h
          apply mem_functions_of_mem _ hh
          rw [image_p]
          exact List.mem_map_of_mem hg
      have hall := (@emits_dumpHead host target write hint hstr strip _ _ f.toProtoFields hparent
        (hself _ List.mem_cons_self)).andThen
          ((@emits_dumpConstants host target write hint hstr strip _ hself).andThen
            ((@emits_dumpNat host target write hint f.p.length).andThen (hnested.andThen
              (@emits_dumpDebug host target write hint hstr strip _ hself))))
      rw [dumpFunction_eq]
      apply Emits.imp hall
      · rw [functionBytes, bodyBytes_eq, image_fields, image_p, List.length_map]
        simp only [List.append_assoc]
      · rintro ⟨⟨hline, hlast, hcode⟩, ⟨hk, hchecked⟩, hp, hnested, hlines, hlineinfo, hvars,
          hlocvars, hups⟩
        constructor
        · apply (forall_functions (P := Proto.Fits)).mpr
          constructor
          · rw [Proto.Fits, image_p, List.length_map, image_fields]
            exact ⟨hp, hline, hlast, hcode, by rwa [ProtoFields.image, List.length_map], hlines,
              hlineinfo, hvars, hlocvars, hups, hself⟩
          · rw [image_p]
            intro g hg
            obtain ⟨g, hmem, rfl⟩ := List.mem_map.mp hg
            exact (hnested g hmem).1
        · apply (forall_numbers (P := Checked host target)).mpr
          exact ⟨hchecked, fun g hg => (hnested g hg).2⟩

end

end LuaChunk
