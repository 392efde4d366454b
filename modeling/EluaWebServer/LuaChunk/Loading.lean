import EluaWebServer.LuaChunk.Format
import EluaWebServer.LuaChunk.Undump

/-!
# What is loaded from the format

A chunk with integers and sizes of four bytes is loaded in whatever byte order it is, as long
as each number constant is read from exactly the bytes that were written for it.
-/

namespace LuaChunk

open Bytes Ieee Stream

variable {platform : Platform} {S : LoadState} {little : Bool}

theorem elements_flatMap {α : Type} {size : Nat} {enc : α → List UInt8} (xs : List α)
    (h : ∀ x ∈ xs, (enc x).length = size) :
    elements size xs.length (xs.flatMap enc) = xs.map enc := by
  induction xs with
  | nil => rfl
  | cons x xs ih =>
      have hx := h x List.mem_cons_self
      rw [List.flatMap_cons, List.length_cons, elements, ← hx, List.take_left, List.drop_left, hx,
        ih fun y hy => h y (List.mem_cons_of_mem x hy), List.map_cons]

theorem reads_loadBlock (bs : List UInt8) : Reads (loadBlock bs.length) bs bs := by
  intro rest
  rw [loadBlock, if_neg, List.take_left, List.drop_left]
  rw [List.length_append]
  omega

/-- The sizes whose byte order is handled. -/
def Handled (size : Nat) : Prop := size = 1 ∨ size = 2 ∨ size = 4 ∨ size = 8

section

variable (hswap : S.swap = true ↔ little ≠ platform.little)
include hswap

/-- The elements come in the byte order of the machine. -/
theorem reads_loadMem {α : Type} {size : Nat} (hsize : Handled size) (bits : α → Nat)
    (xs : List α) :
    Reads (loadMem S xs.length size) (xs.flatMap fun x => native little size (bits x))
      (xs.map fun x => native platform.little size (bits x)) := by
  have hlength : (xs.flatMap fun x => native little size (bits x)).length = xs.length * size := by
    rw [List.length_flatMap]
    simp [length_native]
  have helements := elements_flatMap xs fun x _ => length_native little size (bits x)
  have hblock := @reads_loadBlock (xs.flatMap fun x => native little size (bits x))
  rw [hlength] at hblock
  have horder : Reads (if S.swap then
        if size = 1 ∨ size = 2 ∨ size = 4 ∨ size = 8 then
          pure ((elements size xs.length
            (xs.flatMap fun x => native little size (bits x))).map List.reverse)
        else throw .badSize
      else pure (elements size xs.length (xs.flatMap fun x => native little size (bits x))) :
        Load (List (List UInt8))) []
      (xs.map fun x => native platform.little size (bits x)) := by
    rw [helements]
    by_cases hs : S.swap = true
    · rw [if_pos hs, if_pos (show size = 1 ∨ size = 2 ∨ size = 4 ∨ size = 8 from hsize),
        List.map_map]
      apply (reads_pure _).congr rfl
      exact List.map_congr_left fun x _ => reverse_native (hswap.mp hs) size (bits x)
    · have hlittle : little = platform.little := not_not.mp (mt hswap.mpr hs)
      rw [if_neg hs, hlittle]
      exact reads_pure _
  apply (hblock.bind horder).congr _ rfl
  exact List.append_nil _

theorem reads_loadVar {size x : Nat} (hsize : Handled size) (hx : x < 2 ^ (8 * size)) :
    Reads (loadVar platform S size) (native little size x) x := by
  have hmem := @reads_loadMem platform S little hswap Nat size hsize id [x]
  apply (hmem.andPure _).congr
  · exact List.flatMap_singleton _ _
  · change ofNative platform.little [native platform.little size x].flatten = x
    rw [List.flatten_singleton, ofNative_native _ hx]

theorem reads_loadChar (y : UInt8) : Reads (loadChar platform S) [y] y := by
  have hvar := @reads_loadVar platform S little hswap 1 y.toNat (.inl rfl) y.toNat_lt
  rw [native_one, UInt8.ofNat_toNat] at hvar
  apply (hvar.andPure _).congr rfl
  exact UInt8.ofNat_toNat

theorem reads_loadInt {n : Nat} (hn : n ≤ maxInt) :
    Reads (loadInt platform S) (intBytes little n) n := by
  unfold maxInt at hn
  have hlt : n < 2 ^ (8 * 4) := by omega
  have hsigned : ¬ signed 4 n < 0 := by
    rw [signed, if_pos (by omega)]
    omega
  rw [intBytes, wrap_natCast hlt]
  apply ((reads_loadVar hswap (.inr (.inr (.inl rfl))) hlt).bind _).congr (List.append_nil _) rfl
  rw [if_neg hsigned]
  exact reads_pure n

theorem reads_loadString {s : Option (List UInt8)} (hs : Short s) :
    Reads (loadString platform S) (stringBytes little s) s := by
  have hfour : Handled 4 := .inr (.inr (.inl rfl))
  cases s with
  | none =>
      apply ((reads_loadVar hswap hfour (by decide)).bind _).congr (List.append_nil _) rfl
      exact reads_pure none
  | some s =>
      have hshort := hs s rfl
      have hsigned : ¬ signed 4 (s.length + 1) < 0 := by
        rw [signed, if_pos (by omega)]
        omega
      have hblock := reads_loadBlock (s ++ [0])
      rw [List.length_append] at hblock
      apply ((reads_loadVar hswap hfour (by omega)).bind _).congr rfl rfl
      rw [if_neg (by omega), if_neg hsigned]
      apply (hblock.andPure _).congr rfl
      rw [Nat.add_sub_cancel, List.take_left]

theorem reads_loadCode {code : List UInt32} (h : code.length ≤ maxInt) :
    Reads (loadCode platform S) (codeBytes little code) code := by
  have hmem := reads_loadMem hswap (.inr (.inr (.inl rfl))) UInt32.toNat code
  apply ((reads_loadInt hswap h).bind (hmem.andPure _)).congr
  · rw [codeBytes]
  · rw [List.map_map]
    apply (List.map_congr_left _).trans (List.map_id code)
    intro i _
    change UInt32.ofNat (ofNative platform.little (native platform.little 4 i.toNat)) = i
    rw [ofNative_native _ i.toNat_lt, UInt32.ofNat_toNat]

theorem reads_loadLineinfo {lineinfo : List Int} (h : lineinfo.length ≤ maxInt)
    (hrange : ∀ x ∈ lineinfo, InRange 4 x) :
    Reads (loadLineinfo platform S) (lineinfoBytes little lineinfo) lineinfo := by
  have hmem := reads_loadMem hswap (.inr (.inr (.inl rfl))) (wrap 4) lineinfo
  apply ((reads_loadInt hswap h).bind (hmem.andPure _)).congr
  · rfl
  · rw [List.map_map]
    apply (List.map_congr_left _).trans (List.map_id lineinfo)
    intro x hx
    change signed 4 (ofNative platform.little (native platform.little 4 (wrap 4 x))) = x
    rw [ofNative_native _ (wrap_lt 4 x), signed_wrap (by decide) (hrange x hx)]

theorem reads_loadLocvar {v : LocVar} (hs : Short v.varname) (hstart : v.startpc ≤ maxInt)
    (hend : v.endpc ≤ maxInt) : Reads (loadLocvar platform S) (locvarBytes little v) v := by
  apply ((reads_loadString hswap hs).bind ((reads_loadInt hswap hstart).bind
    ((reads_loadInt hswap hend).andPure _))).congr
  · rfl
  · rfl

theorem reads_loadLocvars {locvars : List LocVar} (h : locvars.length ≤ maxInt)
    (hvars : ∀ v ∈ locvars, v.startpc ≤ maxInt ∧ v.endpc ≤ maxInt)
    (hs : ∀ v ∈ locvars, Short v.varname) :
    Reads (loadLocvars platform S) (locvarsBytes little locvars) locvars := by
  have hloop := reads_many locvars fun v hv =>
    reads_loadLocvar hswap (hs v hv) (hvars v hv).1 (hvars v hv).2
  apply ((reads_loadInt hswap h).bind hloop).congr rfl
  exact List.map_id locvars

theorem reads_loadUpvalues {upvalues : List (Option (List UInt8))}
    (h : upvalues.length ≤ maxInt) (hs : ∀ s ∈ upvalues, Short s) :
    Reads (loadUpvalues platform S) (upvaluesBytes little upvalues) upvalues := by
  have hloop := reads_many upvalues fun s hmem => reads_loadString hswap (hs s hmem)
  apply ((reads_loadInt hswap h).bind hloop).congr rfl
  exact List.map_id upvalues

/-! ## Constants and functions -/

variable {ν : Type} {num : ν → List UInt8} {φ : ν → Nat}

theorem reads_loadConstant {o : Constant ν}
    (hnum : ∀ x, o = .number x → Reads (loadNumber platform S) (num x) (φ x))
    (hs : ∀ s, o = .string s → Short s) :
    Reads (loadConstant platform S) (constantBytes little num o) (o.map φ) := by
  have hchar (y : UInt8) := @reads_loadChar platform S little hswap y
  cases o with
  | nil => exact (hchar LUA_TNIL).bind (reads_pure _)
  | boolean b =>
      apply ((hchar LUA_TBOOLEAN).bind ((hchar b.toUInt8).andPure _)).congr rfl
      cases b with
      | false => rfl
      | true => rfl
  | number x => exact (hchar LUA_TNUMBER).bind ((hnum x rfl).andPure _)
  | string s => exact (hchar LUA_TSTRING).bind ((reads_loadString hswap (hs s rfl)).andPure _)

theorem reads_loadConstants {f : ProtoFields ν} (hfits : f.Fits)
    (hnum : ∀ x ∈ f.k.flatMap Constant.numbers, Reads (loadNumber platform S) (num x) (φ x)) :
    Reads (loadConstants platform S) (constantsBytes little num f.k) (f.k.map (Constant.map φ)) := by
  have hconstant : ∀ o ∈ f.k,
      Reads (loadConstant platform S) (constantBytes little num o) (o.map φ) := by
    intro o ho
    apply reads_loadConstant hswap
    · intro x hx
      apply hnum
      exact List.mem_flatMap.mpr ⟨o, ho, by rw [hx]; exact List.mem_singleton_self x⟩
    · intro s heq
      exact hfits.strings s (mem_strings_of_mem (heq ▸ ho))
  exact (reads_loadInt hswap hfits.sizek).bind (reads_many f.k hconstant)

variable {checkcode : Proto Unit → Bool}

theorem reads_loadBody {f : Proto ν} {nested : List UInt8 → Load (Proto Nat)} (hfits : f.Fits)
    (hcode : checkcode f.shape = true)
    (hnum : ∀ x ∈ f.k.flatMap Constant.numbers, Reads (loadNumber platform S) (num x) (φ x))
    (hnested : ∀ g ∈ f.p, Reads (nested f.source)
      (functionBytes little num (some f.source) g) (g.image false φ)) :
    Reads (loadBody platform S checkcode nested f.source) (bodyBytes little num f)
      (f.image false φ) := by
  obtain ⟨hp, hf⟩ := hfits
  have hvars : ∀ v ∈ f.locvars, Short v.varname := by
    intro v hv
    apply hf.strings
    exact List.mem_append_left _ (List.mem_append_right _ (List.mem_map_of_mem hv))
  have hups : ∀ s ∈ f.upvalues, Short s := fun s hs => hf.strings s (List.mem_append_right _ hs)
  have hfunctions : Reads (loadFunctions platform S (nested f.source))
      (intBytes little f.p.length ++
        f.p.flatMap (functionBytes little num (some f.source)))
      (f.p.map (Proto.image false φ)) :=
    (reads_loadInt hswap hp).bind (reads_many f.p hnested)
  have hchar (y : UInt8) := @reads_loadChar platform S little hswap y
  -- what is put together from the values read
  generalize himage : f.image false φ = g
  have hloaded : g = { f.toProtoFields with
      k := f.k.map (Constant.map φ), p := f.p.map (Proto.image false φ) } := by
    rw [← himage]
    apply proto_ext
    · rw [image_fields]
      rfl
    · exact image_p false φ f
  have hshape : g.shape = f.shape := by
    rw [← himage, Proto.shape, image_image]
    rfl
  have hlast : Reads (if checkcode g.shape then pure g else throw .badCode :
      Load (Proto Nat)) [] g := by
    rw [hshape, if_pos hcode]
    exact reads_pure g
  rw [bodyBytes_eq, loadBody]
  rw [hloaded] at hlast
  apply Reads.congr ((reads_loadInt hswap hf.linedefined).bind
    ((reads_loadInt hswap hf.lastlinedefined).bind ((hchar f.nups).bind
      ((hchar f.numparams).bind ((hchar f.is_vararg).bind ((hchar f.maxstacksize).bind
        ((reads_loadCode hswap hf.sizecode).bind ((reads_loadConstants hswap hf hnum).bind
          (hfunctions.bind ((reads_loadLineinfo hswap hf.sizelineinfo hf.lineinfo).bind
            ((reads_loadLocvars hswap hf.sizelocvars hf.locvars hvars).bind
              ((reads_loadUpvalues hswap hf.sizeupvalues hups).bind hlast))))))))))))
  · simp only [fixedBytes, debugBytes, List.append_assoc, List.append_nil]
  · exact hloaded.symm

/-- The source is read, or it is that of the function around. -/
theorem reads_source {parent : Option (List UInt8)} {p source : List UInt8}
    (hparent : ∀ s, parent = some s → p = s) (hs : Short (some source)) :
    ∃ v, Reads (loadString platform S) (sourceBytes little parent source) v ∧
      v.getD p = source := by
  rw [sourceBytes]
  by_cases hsame : parent = some source
  · rw [if_pos hsame]
    exact ⟨none, reads_loadString hswap fun _ hnone => by contradiction, hparent _ hsame⟩
  · rw [if_neg hsame]
    exact ⟨some source, reads_loadString hswap hs, rfl⟩

/-- **A function in the format is loaded** with the numbers that are read for its own. -/
theorem reads_loadFunction {room : Nat} {parent : Option (List UInt8)} {p : List UInt8}
    (f : Proto ν) (hfits : ∀ g ∈ f.functions, g.Fits)
    (hcode : ∀ g ∈ f.functions, checkcode g.shape = true)
    (hnum : ∀ x ∈ f.numbers, Reads (loadNumber platform S) (num x) (φ x))
    (hdepth : f.depth ≤ room) (hparent : ∀ s, parent = some s → p = s) :
    Reads (loadFunction platform S checkcode room p) (functionBytes little num parent f)
      (f.image false φ) := by
  induction f using Proto.induct generalizing room parent p with
  | proto f ih =>
      cases room with
      | zero => exact absurd (depth_pos f) (Nat.not_lt.mpr hdepth)
      | succ room =>
          obtain ⟨hf, hfits'⟩ := (forall_functions (P := Proto.Fits)).mp hfits
          obtain ⟨hnum', hnums⟩ := forall_numbers.mp hnum
          have hnested : ∀ g ∈ f.p, Reads (loadFunction platform S checkcode room f.source)
              (functionBytes little num (some f.source) g) (g.image false φ) := by
            intro g hg
            have hdepth' := depth_of_mem hg
            apply ih g hg (hfits' g hg)
            · intro h hh
              exact hcode h (mem_functions_of_mem hg hh)
            · exact hnums g hg
            · omega
            · exact fun s hs => Option.some.inj hs
          have hbody := reads_loadBody hswap hf (hcode f (mem_functions_self f)) hnum' hnested
          obtain ⟨v, hv, hsource⟩ := reads_source hswap hparent (hf.2.strings _ mem_strings_source)
          rw [loadFunction, functionBytes]
          apply hv.bind
          rw [hsource]
          exact hbody

end

end LuaChunk
