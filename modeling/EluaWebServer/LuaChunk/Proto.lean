import Mathlib.Data.List.Basic
import Mathlib.Data.List.Forall2

/-!
# Function prototypes

A prototype of the compiler holds the functions defined inside it.  Prototypes are over a
type of numbers, since the compiler and the machine that loads a chunk need not have the
same.  A `TString *` that may be `NULL` is an option.
-/

namespace LuaChunk

/-- A `TValue` of the constants of a function. -/
inductive Constant (ν : Type) where
  | nil
  | boolean (b : Bool)
  | number (x : ν)
  | string (s : Option (List UInt8))
  deriving DecidableEq, Repr

structure LocVar where
  varname : Option (List UInt8)
  startpc : Nat
  endpc : Nat
  deriving DecidableEq, Repr

/-- A `Proto` but for the functions defined inside.  The source always has a name; the sizes
are those of the lists. -/
structure ProtoFields (ν : Type) where
  source : List UInt8
  linedefined : Nat
  lastlinedefined : Nat
  nups : UInt8
  numparams : UInt8
  is_vararg : UInt8
  maxstacksize : UInt8
  code : List UInt32
  k : List (Constant ν)
  lineinfo : List Int
  locvars : List LocVar
  upvalues : List (Option (List UInt8))
  deriving DecidableEq, Repr

structure Proto (ν : Type) extends ProtoFields ν where
  p : List (Proto ν)

/-- The source of a chunk that does not name it, `"=?"`. -/
def unknownSource : List UInt8 := [0x3D, 0x3F]

section

variable {ν μ : Type}

def Constant.map (φ : ν → μ) : Constant ν → Constant μ
  | .nil => .nil
  | .boolean b => .boolean b
  | .number x => .number (φ x)
  | .string s => .string s

def Constant.numbers : Constant ν → List ν
  | .number x => [x]
  | _ => []

/-- The fields with other numbers, and without what is stripped. -/
def ProtoFields.image (strip : Bool) (φ : ν → μ) (f : ProtoFields ν) : ProtoFields μ where
  source := if strip then unknownSource else f.source
  linedefined := f.linedefined
  lastlinedefined := f.lastlinedefined
  nups := f.nups
  numparams := f.numparams
  is_vararg := f.is_vararg
  maxstacksize := f.maxstacksize
  code := f.code
  k := f.k.map (Constant.map φ)
  lineinfo := if strip then [] else f.lineinfo
  locvars := if strip then [] else f.locvars
  upvalues := if strip then [] else f.upvalues

/-- The strings of the fields. -/
def ProtoFields.strings (f : ProtoFields ν) : List (Option (List UInt8)) :=
  some f.source :: f.k.filterMap (fun
    | .string s => some s
    | _ => none) ++ f.locvars.map LocVar.varname ++ f.upvalues

mutual

/-- The prototype with other numbers, and without what is stripped. -/
def Proto.image (strip : Bool) (φ : ν → μ) : Proto ν → Proto μ
  | ⟨f, p⟩ => ⟨f.image strip φ, imageAll strip φ p⟩

def imageAll (strip : Bool) (φ : ν → μ) : List (Proto ν) → List (Proto μ)
  | [] => []
  | f :: fs => f.image strip φ :: imageAll strip φ fs

end

mutual

/-- The function and all those defined inside it. -/
def Proto.functions : Proto ν → List (Proto ν)
  | ⟨f, p⟩ => ⟨f, p⟩ :: functionsAll p

def functionsAll : List (Proto ν) → List (Proto ν)
  | [] => []
  | f :: fs => f.functions ++ functionsAll fs

end

mutual

/-- How deep functions are nested. -/
def Proto.depth : Proto ν → Nat
  | ⟨_, p⟩ => depthAll p + 1

def depthAll : List (Proto ν) → Nat
  | [] => 0
  | f :: fs => max f.depth (depthAll fs)

end

/-- The number constants, in the order of the chunk but for the debug information. -/
def Proto.numbers (f : Proto ν) : List ν :=
  f.functions.flatMap fun g => g.k.flatMap Constant.numbers

/-- Everything but the numbers. -/
def Proto.shape (f : Proto ν) : Proto Unit := f.image false fun _ => ()

/-- The second prototype is the first one, stripped or not, with numbers that are related. -/
structure Agrees (strip : Bool) (R : ν → μ → Prop) (f : Proto ν) (g : Proto μ) : Prop where
  shape : g.shape = f.image strip fun _ => ()
  numbers : List.Forall₂ R f.numbers g.numbers

end

variable {ν μ ρ : Type}

/-! ## Induction over what is defined inside -/

@[elab_as_elim]
theorem Proto.induct {P : Proto ν → Prop} (proto : ∀ f : Proto ν, (∀ g ∈ f.p, P g) → P f)
    (f : Proto ν) : P f := by
  induction f using Proto.rec (motive_2 := fun fs => ∀ g ∈ fs, P g) with
  | mk f p ih => exact proto _ ih
  | nil => contradiction
  | cons f fs ihf ihfs =>
      rename_i g hg
      exact (List.mem_cons.mp hg).elim (fun heq => heq ▸ ihf) (ihfs g)

theorem imageAll_eq (strip : Bool) (φ : ν → μ) (fs : List (Proto ν)) :
    imageAll strip φ fs = fs.map (Proto.image strip φ) := by
  induction fs with
  | nil => rw [imageAll, List.map_nil]
  | cons f fs ih => rw [imageAll, List.map_cons, ih]

@[simp] theorem image_fields (strip : Bool) (φ : ν → μ) (f : Proto ν) :
    (f.image strip φ).toProtoFields = f.toProtoFields.image strip φ := by
  cases f with
  | mk f p => rw [Proto.image]

@[simp] theorem image_p (strip : Bool) (φ : ν → μ) (f : Proto ν) :
    (f.image strip φ).p = f.p.map (Proto.image strip φ) := by
  cases f with
  | mk f p => rw [Proto.image, imageAll_eq]

theorem functionsAll_eq (fs : List (Proto ν)) :
    functionsAll fs = fs.flatMap Proto.functions := by
  induction fs with
  | nil => rw [functionsAll, List.flatMap_nil]
  | cons f fs ih => rw [functionsAll, List.flatMap_cons, ih]

theorem functions_eq (f : Proto ν) : f.functions = f :: f.p.flatMap Proto.functions := by
  cases f with
  | mk f p => rw [Proto.functions, functionsAll_eq]

theorem forall_functions {P : Proto ν → Prop} {f : Proto ν} :
    (∀ g ∈ f.functions, P g) ↔ P f ∧ ∀ g ∈ f.p, ∀ h ∈ g.functions, P h := by
  rw [functions_eq, List.forall_mem_cons]
  apply and_congr_right
  intro _
  exact List.forall_mem_flatMap

theorem numbers_eq (f : Proto ν) :
    f.numbers = f.k.flatMap Constant.numbers ++ f.p.flatMap Proto.numbers := by
  rw [Proto.numbers, functions_eq, List.flatMap_cons, List.flatMap_assoc]
  rfl

theorem forall_numbers {P : ν → Prop} {f : Proto ν} :
    (∀ x ∈ f.numbers, P x) ↔
      (∀ x ∈ f.k.flatMap Constant.numbers, P x) ∧ ∀ g ∈ f.p, ∀ x ∈ g.numbers, P x := by
  rw [numbers_eq, List.forall_mem_append]
  apply and_congr_right
  intro _
  exact List.forall_mem_flatMap

theorem mem_functions_self (f : Proto ν) : f ∈ f.functions := by
  rw [functions_eq]
  exact List.mem_cons_self

theorem mem_functions_of_mem {f g h : Proto ν} (hg : g ∈ f.p) (hh : h ∈ g.functions) :
    h ∈ f.functions := by
  rw [functions_eq]
  exact List.mem_cons_of_mem f (List.mem_flatMap_of_mem hg hh)

theorem depth_of_mem {f g : Proto ν} (hg : g ∈ f.p) : g.depth + 1 ≤ f.depth := by
  cases f with
  | mk f p =>
      rw [Proto.depth]
      apply Nat.succ_le_succ
      change g ∈ p at hg
      induction p with
      | nil => exact absurd hg List.not_mem_nil
      | cons h hs ih =>
          rw [depthAll]
          rcases List.mem_cons.mp hg with heq | hmem
          · rw [heq]
            exact Nat.le_max_left _ _
          · exact Nat.le_trans (ih hmem) (Nat.le_max_right _ _)

theorem depth_pos (f : Proto ν) : 0 < f.depth := by
  cases f with
  | mk f p =>
      rw [Proto.depth]
      exact Nat.succ_pos _

theorem proto_ext {f g : Proto ν} (hfields : f.toProtoFields = g.toProtoFields)
    (hp : f.p = g.p) : f = g := by
  cases f
  cases g
  cases hfields
  cases hp
  rfl

theorem mem_strings_source {f : ProtoFields ν} : some f.source ∈ f.strings :=
  List.mem_append_left _ (List.mem_append_left _ List.mem_cons_self)

theorem mem_strings_of_mem {f : ProtoFields ν} {s : Option (List UInt8)}
    (h : .string s ∈ f.k) : s ∈ f.strings := by
  apply List.mem_append_left
  apply List.mem_append_left
  apply List.mem_cons_of_mem
  exact List.mem_filterMap.mpr ⟨.string s, h, rfl⟩

/-! ## Images -/

theorem Constant.map_map (φ : ν → μ) (ψ : μ → ρ) (c : Constant ν) :
    (c.map φ).map ψ = c.map (ψ ∘ φ) := by
  cases c with
  | nil => rfl
  | boolean b => rfl
  | number x => rfl
  | string s => rfl

theorem Constant.map_id (c : Constant ν) : c.map id = c := by
  cases c with
  | nil => rfl
  | boolean b => rfl
  | number x => rfl
  | string s => rfl

theorem Constant.numbers_map (φ : ν → μ) (c : Constant ν) :
    (c.map φ).numbers = c.numbers.map φ := by
  cases c with
  | nil => rfl
  | boolean b => rfl
  | number x => rfl
  | string s => rfl

/-- What is stripped once is stripped. -/
theorem ProtoFields.image_image (strip : Bool) (φ : ν → μ) (ψ : μ → ρ) (f : ProtoFields ν) :
    (f.image strip φ).image false ψ = f.image strip (ψ ∘ φ) := by
  have hk : (f.k.map (Constant.map φ)).map (Constant.map ψ) =
      f.k.map (Constant.map (ψ ∘ φ)) := by
    rw [List.map_map]
    exact List.map_congr_left fun c _ => c.map_map φ ψ
  simp only [ProtoFields.image, hk, Bool.false_eq_true, if_false]

theorem image_image (strip : Bool) (φ : ν → μ) (ψ : μ → ρ) (f : Proto ν) :
    (f.image strip φ).image false ψ = f.image strip (ψ ∘ φ) := by
  induction f using Proto.induct with
  | proto f ih =>
      apply proto_ext
      · rw [image_fields, image_fields, image_fields, ProtoFields.image_image]
      · rw [image_p, image_p, image_p, List.map_map]
        exact List.map_congr_left ih

theorem depth_image (strip : Bool) (φ : ν → μ) (f : Proto ν) :
    (f.image strip φ).depth = f.depth := by
  induction f using Proto.induct with
  | proto f ih =>
      cases f with
      | mk f p =>
          have hall : depthAll (imageAll strip φ p) = depthAll p := by
            change ∀ g ∈ p, _ at ih
            induction p with
            | nil => rfl
            | cons g gs ihgs =>
                rw [imageAll, depthAll, depthAll, ih g List.mem_cons_self,
                  ihgs fun h hh => ih h (List.mem_cons_of_mem g hh)]
          rw [Proto.image, Proto.depth, Proto.depth, hall]

theorem functions_image (strip : Bool) (φ : ν → μ) (f : Proto ν) :
    (f.image strip φ).functions = f.functions.map (Proto.image strip φ) := by
  induction f using Proto.induct with
  | proto f ih =>
      rw [functions_eq, functions_eq, List.map_cons, image_p, List.map_flatMap,
        List.flatMap_map]
      congr 1
      exact List.flatMap_congr ih

theorem numbers_image (strip : Bool) (φ : ν → μ) (f : Proto ν) :
    (f.image strip φ).numbers = f.numbers.map φ := by
  rw [Proto.numbers, Proto.numbers, functions_image, List.flatMap_map, List.map_flatMap]
  apply List.flatMap_congr
  intro g _
  rw [image_fields, ProtoFields.image, List.flatMap_map, List.map_flatMap]
  exact List.flatMap_congr fun c _ => c.numbers_map φ

/-- An image agrees when each number is related to its own. -/
theorem agrees_image {strip : Bool} {R : ν → μ → Prop} {f : Proto ν} {φ : ν → μ} :
    Agrees strip R f (f.image strip φ) ↔ ∀ x ∈ f.numbers, R x (φ x) := by
  constructor
  · intro h
    have hnumbers := h.numbers
    rw [numbers_image, List.forall₂_map_right_iff] at hnumbers
    exact fun x hx => List.forall₂_same.mp hnumbers x hx
  · intro h
    refine ⟨image_image strip φ _ f, ?_⟩
    rw [numbers_image, List.forall₂_map_right_iff]
    exact List.forall₂_same.mpr h

end LuaChunk
