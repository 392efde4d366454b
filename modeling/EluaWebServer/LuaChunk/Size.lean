import EluaWebServer.LuaChunk.Loading

/-!
# The size of a chunk

The size of a function in the format is known but for the size of its numbers.  A machine
that loads a function has read at least its size with numbers of the size that it reads, so
a chunk with smaller numbers is too short.
-/

namespace LuaChunk

open Bytes Stream

section

variable {ν μ : Type} (w : Nat)

def stringSize : Option (List UInt8) → Nat
  | none => 4
  | some s => 4 + (s.length + 1)

def constantSize : Constant ν → Nat
  | .nil => 1
  | .boolean _ => 2
  | .number _ => 1 + w
  | .string s => 1 + stringSize s

def fieldsSize (f : ProtoFields ν) : Nat :=
  12 + (4 + 4 * f.code.length) + (4 + (f.k.map (constantSize w)).sum) +
    (4 + 4 * f.lineinfo.length) +
    (4 + (f.locvars.map fun v => stringSize v.varname + 8).sum) +
    (4 + (f.upvalues.map stringSize).sum)

/-- The source of a function is left out if it is that of the function around. -/
def sourceSize (parent source : List UInt8) : Nat :=
  if parent = source then 4 else stringSize (some source)

mutual

/-- The size of a function after its source. -/
def bodySize : Proto ν → Nat
  | ⟨f, p⟩ => fieldsSize w f + 4 + functionsSize f.source p

def functionsSize (parent : List UInt8) : List (Proto ν) → Nat
  | [] => 0
  | f :: fs => sourceSize parent f.source + bodySize f + functionsSize parent fs

end

def functionSize (parent : List UInt8) (f : Proto ν) : Nat :=
  sourceSize parent f.source + bodySize w f

theorem functionsSize_eq (parent : List UInt8) (fs : List (Proto ν)) :
    functionsSize w parent fs = (fs.map (functionSize w parent)).sum := by
  induction fs with
  | nil => rw [functionsSize, List.map_nil, List.sum_nil]
  | cons f fs ih => rw [functionsSize, List.map_cons, List.sum_cons, ih, functionSize]

theorem bodySize_eq (f : Proto ν) :
    bodySize w f = fieldsSize w f.toProtoFields + 4 +
      (f.p.map (functionSize w f.source)).sum := by
  cases f with
  | mk f p => rw [bodySize, functionsSize_eq]

/-! ## The size of numbers -/

/-- The size depends on no number. -/
theorem bodySize_image (φ : ν → μ) (f : Proto ν) : bodySize w (f.image false φ) = bodySize w f := by
  induction f using Proto.induct with
  | proto f ih =>
      have hconstants : (f.k.map (Constant.map φ)).map (constantSize w) =
          f.k.map (constantSize w) := by
        rw [List.map_map]
        apply List.map_congr_left
        intro o _
        cases o with
        | nil => rfl
        | boolean b => rfl
        | number x => rfl
        | string s => rfl
      have hfields : fieldsSize w (f.toProtoFields.image false φ) =
          fieldsSize w f.toProtoFields := by
        rw [fieldsSize, fieldsSize, ProtoFields.image, hconstants]
        rfl
      have hnested : (f.p.map (Proto.image false φ)).map (functionSize w f.source) =
          f.p.map (functionSize w f.source) := by
        rw [List.map_map]
        apply List.map_congr_left
        intro g hg
        change functionSize w f.source (g.image false φ) = _
        rw [functionSize, functionSize, ih g hg, image_fields]
        rfl
      rw [bodySize_eq, bodySize_eq, image_p, image_fields, hfields]
      exact congrArg (fun sizes => _ + 4 + sizes.sum) hnested

/-- What the numbers add. -/
theorem bodySize_numbers (f : Proto ν) : bodySize w f = bodySize 0 f + w * f.numbers.length := by
  induction f using Proto.induct with
  | proto f ih =>
      have hconstants : (f.k.map (constantSize w)).sum =
          (f.k.map (constantSize 0)).sum + w * (f.k.flatMap Constant.numbers).length := by
        induction f.k with
        | nil => rfl
        | cons o k ihk =>
            rw [List.map_cons, List.map_cons, List.sum_cons, List.sum_cons, List.flatMap_cons,
              List.length_append, Nat.mul_add, ihk]
            cases o with
            | nil => simp [constantSize, Constant.numbers]; omega
            | boolean b => simp [constantSize, Constant.numbers]; omega
            | number x => simp [constantSize, Constant.numbers]; omega
            | string s => simp [constantSize, Constant.numbers]; omega
      have hnested : ∀ fs : List (Proto ν), (∀ g ∈ fs, g ∈ f.p) →
          (fs.map (functionSize w f.source)).sum =
            (fs.map (functionSize 0 f.source)).sum + w * (fs.flatMap Proto.numbers).length := by
        intro fs hfs
        induction fs with
        | nil => rfl
        | cons g fs ihfs =>
            have hg := ih g (hfs g List.mem_cons_self)
            have htail := ihfs fun h hh => hfs h (List.mem_cons_of_mem g hh)
            rw [List.map_cons, List.map_cons, List.sum_cons, List.sum_cons, List.flatMap_cons,
              List.length_append, Nat.mul_add, htail, functionSize, functionSize, hg]
            omega
      have hall := hnested f.p fun _ hg => hg
      rw [bodySize_eq, bodySize_eq, numbers_eq, List.length_append, Nat.mul_add, hall, fieldsSize,
        fieldsSize, hconstants]
      omega

end

/-! ## The format has that size -/

section

variable {ν : Type} {little : Bool} {num : ν → List UInt8} {w : Nat}

theorem length_stringBytes (s : Option (List UInt8)) :
    (stringBytes little s).length = stringSize s := by
  cases s with
  | none => exact length_native little 4 0
  | some s => rw [stringBytes, List.length_append, length_native, List.length_append]; rfl

theorem length_sourceBytes (parent source : List UInt8) :
    (sourceBytes little (some parent) source).length = sourceSize parent source := by
  rw [sourceBytes, sourceSize, length_stringBytes]
  by_cases hsame : parent = source
  · rw [if_pos (congrArg some hsame), if_pos hsame]
    rfl
  · rw [if_neg (mt Option.some.inj hsame), if_neg hsame]

theorem length_bodyBytes {f : Proto ν} (hnum : ∀ x ∈ f.numbers, (num x).length = w) :
    (bodyBytes little num f).length = bodySize w f := by
  induction f using Proto.induct with
  | proto f ih =>
      obtain ⟨hnum', hnums⟩ := forall_numbers.mp hnum
      have hconstants : (f.k.flatMap (constantBytes little num)).length =
          (f.k.map (constantSize w)).sum := by
        rw [List.length_flatMap]
        congr 1
        apply List.map_congr_left
        intro o ho
        cases o with
        | nil => rfl
        | boolean b => rfl
        | number x =>
            have hx := hnum' x (List.mem_flatMap.mpr ⟨_, ho, List.mem_singleton_self x⟩)
            rw [constantBytes, List.length_cons, hx, constantSize, Nat.add_comm]
        | string s => rw [constantBytes, List.length_cons, length_stringBytes, constantSize, Nat.add_comm]
      have hnested : (f.p.flatMap (functionBytes little num (some f.source))).length =
          (f.p.map (functionSize w f.source)).sum := by
        rw [List.length_flatMap]
        congr 1
        apply List.map_congr_left
        intro g hg
        rw [functionBytes, List.length_append, length_sourceBytes, ih g hg (hnums g hg),
          functionSize]
      rw [bodyBytes_eq, bodySize_eq, fieldsSize]
      have hlocvars : (f.locvars.flatMap (locvarBytes little)).length =
          (f.locvars.map fun v => stringSize v.varname + 8).sum := by
        rw [List.length_flatMap]
        congr 1
        apply List.map_congr_left
        intro v _
        simp only [locvarBytes, intBytes, List.length_append, length_stringBytes, length_native]
      have hupvalues : (f.upvalues.flatMap (stringBytes little)).length =
          (f.upvalues.map stringSize).sum := by
        rw [List.length_flatMap]
        exact congrArg List.sum (List.map_congr_left fun s _ => length_stringBytes s)
      simp only [fixedBytes, codeBytes, constantsBytes, debugBytes, lineinfoBytes, locvarsBytes,
        upvaluesBytes, List.length_append, hconstants, hnested, hlocvars, hupvalues]
      simp only [intBytes, List.length_flatMap, length_native, List.map_const', List.sum_replicate_nat,
        List.length_singleton]
      omega

end

/-! ## What is read at least -/

section

variable {platform : Platform} {S : LoadState}

/-- The size of the numbers that a machine reads. -/
def readSize (platform : Platform) (S : LoadState) : Nat :=
  if S.toflt then S.numsize.toNat else platform.size

theorem needs_loadBlock (size : Nat) : Needs (loadBlock size) fun _ => size := by
  intro z bs z' hread
  unfold loadBlock at hread
  by_cases hlt : z.length < size
  · rw [if_pos hlt] at hread
    contradiction
  · rw [if_neg hlt] at hread
    cases hread
    change (z.drop size).length + size ≤ z.length
    rw [List.length_drop]
    omega

theorem length_elements (size n : Nat) (b : List UInt8) : (elements size n b).length = n := by
  induction n generalizing b with
  | zero => rfl
  | succ n ih => rw [elements, List.length_cons, ih]

/-- All bytes that were asked for, which are those of the elements. -/
theorem needs_loadMem (n size : Nat) :
    Needs (loadMem S n size) fun bs => max (n * size) (bs.length * size) := by
  apply (needs_loadBlock (n * size)).bind
  intro b
  split
  · split
    · apply needs_pure
      rw [List.length_map, length_elements, Nat.max_self, Nat.sub_self]
    · exact needs_throw _ _
  · apply needs_pure
    rw [length_elements, Nat.max_self, Nat.sub_self]

theorem needs_loadVar (size : Nat) : Needs (loadVar platform S size) fun _ => size := by
  apply (needs_loadMem 1 size).bind
  intro bs
  apply needs_pure
  omega

theorem needs_loadChar : Needs (loadChar platform S) fun _ => 1 := by
  apply (needs_loadVar 1).bind
  intro x
  exact needs_pure rfl

theorem needs_loadInt : Needs (loadInt platform S) fun _ => 4 := by
  apply (needs_loadVar 4).bind
  intro x
  split
  · exact needs_throw _ _
  · exact needs_pure rfl

theorem needs_loadInteger (size : Nat) : Needs (loadInteger platform S size) fun _ => size := by
  apply (needs_loadVar size).bind
  intro y
  exact needs_pure (Nat.sub_self size)

theorem needs_loadNumber : Needs (loadNumber platform S) fun _ => readSize platform S := by
  unfold loadNumber readSize
  by_cases htoflt : S.toflt = true
  · rw [if_pos htoflt, if_pos htoflt]
    split
    · rename_i hsize
      rw [hsize]
      exact needs_loadInteger 1
    · rename_i hsize
      rw [hsize]
      exact needs_loadInteger 2
    · rename_i hsize
      rw [hsize]
      exact needs_loadInteger 4
    · rename_i hsize
      rw [hsize]
      exact needs_loadInteger 8
    · exact needs_throw _ _
  · rw [if_neg htoflt, if_neg htoflt]
    apply (needs_loadMem 1 platform.size).bind
    intro bs
    split
    · apply needs_pure
      omega
    · apply needs_pure
      omega

theorem needs_loadString : Needs (loadString platform S) stringSize := by
  apply (needs_loadVar 4).bind
  intro size
  split
  · exact needs_pure rfl
  · split
    · exact needs_throw _ _
    · rename_i hsize _
      apply (needs_loadBlock size).bind
      intro s
      apply needs_pure
      rw [stringSize, List.length_take]
      omega

theorem needs_loadConstant :
    Needs (loadConstant platform S) (constantSize (readSize platform S)) := by
  apply needs_loadChar.bind
  intro t
  split
  · exact needs_pure rfl
  split
  · apply needs_loadChar.bind
    intro b
    exact needs_pure rfl
  split
  · apply needs_loadNumber.bind
    intro x
    apply needs_pure
    rw [constantSize]
    omega
  split
  · apply needs_loadString.bind
    intro s
    apply needs_pure
    rw [constantSize]
    omega
  · exact needs_throw _ _

/-- A number of things. -/
theorem needs_counted {α : Type} {r : Load α} {size : α → Nat} (h : Needs r size) :
    Needs (do
      let n ← loadInt platform S
      readMany r n) fun vs => 4 + (vs.map size).sum := by
  apply needs_loadInt.bind
  intro n
  apply (needs_many h n).mono
  intro vs
  omega

/-- A number of elements of four bytes. -/
theorem needs_elements {α : Type} (dec : List UInt8 → α) :
    Needs (do
      let n ← loadInt platform S
      let bs ← loadMem S n 4
      pure (bs.map dec)) fun vs => 4 + 4 * vs.length := by
  apply needs_loadInt.bind
  intro n
  apply (needs_loadMem n 4).bind
  intro bs
  apply needs_pure
  rw [List.length_map]
  omega

theorem needs_loadLocvar :
    Needs (loadLocvar platform S) fun v => stringSize v.varname + 8 := by
  apply needs_loadString.bind
  intro varname
  apply needs_loadInt.bind
  intro startpc
  apply needs_loadInt.bind
  intro endpc
  apply needs_pure
  change stringSize varname + 8 - stringSize varname - 4 - 4 = 0
  omega

variable {checkcode : Proto Unit → Bool}

theorem needs_loadBody {nested : List UInt8 → Load (Proto Nat)} {source : List UInt8}
    {size : Proto Nat → Nat}
    (h : ∀ parent, Needs (nested parent) (functionSize (readSize platform S) parent))
    (hsize : ∀ f : Proto Nat, f.source = source → size f ≤ bodySize (readSize platform S) f) :
    Needs (loadBody platform S checkcode nested source) size := by
  apply needs_loadInt.bind
  intro linedefined
  apply needs_loadInt.bind
  intro lastlinedefined
  apply needs_loadChar.bind
  intro nups
  apply needs_loadChar.bind
  intro numparams
  apply needs_loadChar.bind
  intro is_vararg
  apply needs_loadChar.bind
  intro maxstacksize
  apply (needs_elements _).bind
  intro code
  apply (needs_counted needs_loadConstant).bind
  intro k
  apply (needs_counted (h source)).bind
  intro p
  apply (needs_elements _).bind
  intro lineinfo
  apply (needs_counted needs_loadLocvar).bind
  intro locvars
  apply (needs_counted needs_loadString).bind
  intro upvalues
  dsimp only
  split
  · apply needs_pure
    have hle := hsize ⟨⟨source, linedefined, lastlinedefined, nups, numparams, is_vararg,
      maxstacksize, code, k, lineinfo, locvars, upvalues⟩, p⟩ rfl
    rw [bodySize_eq, fieldsSize] at hle
    dsimp only at hle
    omega
  · exact needs_throw _ _

theorem needs_loadFunction (room : Nat) (parent : List UInt8) :
    Needs (loadFunction platform S checkcode room parent)
      (functionSize (readSize platform S) parent) := by
  induction room generalizing parent with
  | zero => exact needs_throw _ _
  | succ room ih =>
      apply needs_loadString.bind
      intro source
      apply needs_loadBody ih
      intro f hsource
      have hle : sourceSize parent f.source ≤ stringSize source := by
        rw [hsource, sourceSize]
        cases source with
        | none =>
            rw [Option.getD_none, if_pos rfl]
            exact Nat.le_refl 4
        | some s =>
            rw [Option.getD_some, stringSize]
            split
            · omega
            · exact Nat.le_refl _
      rw [functionSize]
      omega

/-- **A chunk with smaller numbers is too short**: no function of its shape is loaded. -/
theorem not_loaded {ν : Type} {little : Bool} {num : ν → List UInt8} {w room : Nat}
    {parent : Option (List UInt8)} {p z : List UInt8} {f : Proto ν} {g : Proto Nat}
    (hswap : S.swap = true ↔ little ≠ platform.little)
    (hparent : ∀ s, parent = some s → p = s) (hshort : Short (some f.source))
    (hnum : ∀ x ∈ f.numbers, (num x).length = w) (hw : w < readSize platform S)
    (hnumbers : f.numbers ≠ []) (hshape : g.shape = f.shape) :
    loadFunction platform S checkcode room p (functionBytes little num parent f) ≠
      .ok (g, z) := by
  intro hload
  cases room with
  | zero => contradiction
  | succ room =>
      obtain ⟨v, hread, hsource⟩ := reads_source hswap hparent hshort
      rw [loadFunction, functionBytes] at hload
      obtain ⟨v', z₁, hv, hbody⟩ := bind_ok.mp hload
      rw [hread] at hv
      cases hv
      have hneeds := (@needs_loadBody platform S checkcode _ (v.getD p) _
        (needs_loadFunction room) fun _ _ => Nat.le_refl _) _ g z hbody
      have hsize : bodySize (readSize platform S) g = bodySize (readSize platform S) f := by
        rw [← bodySize_image _ (fun _ => ()) g, ← bodySize_image _ (fun _ => ()) f]
        exact congrArg _ hshape
      have hcount : 0 < f.numbers.length := List.length_pos_iff.mpr hnumbers
      have hmore : w * f.numbers.length < readSize platform S * f.numbers.length :=
        Nat.mul_lt_mul_of_pos_right hw hcount
      rw [hsize, length_bodyBytes hnum, bodySize_numbers, bodySize_numbers w] at hneeds
      omega

end

end LuaChunk
