import EluaWebServer.LuaRpc.RoundTrip

/-!
# What is written when writing fails

`write_variable` writes while it goes through a value, and what it has written by the time an error
is raised is not taken back.  Here it keeps the bytes in either case.
-/

namespace LuaRpc

open Bytes

/-- The bytes that have been written, and how it ended. -/
structure Sent (α : Type) where
  bytes : List UInt8
  result : Except Failure α

namespace Sent

variable {α β : Type}

def bind (x : Sent α) (f : α → Sent β) : Sent β :=
  match x.result with
  | .error e => ⟨x.bytes, .error e⟩
  | .ok a => ⟨x.bytes ++ (f a).bytes, (f a).result⟩

instance : Monad Sent where
  pure a := ⟨[], .ok a⟩
  bind := bind

/-- `transport_write_buffer`. -/
def write (bytes : List UInt8) : Sent Unit := ⟨bytes, .ok ()⟩

def fail (e : Failure) : Sent α := ⟨[], .error e⟩

/-- Without what has been written before a failure. -/
def toExcept (x : Sent α) : Except Failure (List UInt8 × α) := x.result.map (x.bytes, ·)

theorem bind_ok (bytes : List UInt8) (a : α) (f : α → Sent β) :
    (⟨bytes, .ok a⟩ : Sent α) >>= f = ⟨bytes ++ (f a).bytes, (f a).result⟩ := rfl

theorem toExcept_bind (x : Sent α) (f : α → Sent β) :
    (x >>= f).toExcept =
      x.toExcept.bind fun r => (f r.2).toExcept.map fun r' => (r.1 ++ r'.1, r'.2) := by
  obtain ⟨bytes, result⟩ := x
  cases result with
  | error e => rfl
  | ok a =>
      change (⟨bytes ++ (f a).bytes, (f a).result⟩ : Sent β).toExcept =
        (f a).toExcept.map fun r => (bytes ++ r.1, r.2)
      rw [toExcept, toExcept]
      cases (f a).result with
      | error e => rfl
      | ok b => rfl

/-- What has succeeded has done so in all parts. -/
theorem exists_of_bind_ok {x : Sent α} {f : α → Sent β} {b : β} (h : (x >>= f).result = .ok b) :
    ∃ bytes a, x = ⟨bytes, .ok a⟩ ∧ (f a).result = .ok b := by
  obtain ⟨bytes, result⟩ := x
  cases result with
  | error e => cases h
  | ok a => exact ⟨bytes, a, rfl, h⟩

end Sent

variable {N F : Type} [LuaNumber N] [DecidableEq F]

mutual

/-- `write_table`, after nil has been pushed: one more turn of the loop. -/
def sendTable (l : Link N F) (heap : Heap N F) : Nat → Stack N F → Nat → Sent (Stack N F)
  | 0, _, _ => .fail .deep
  | fuel + 1, stack, tableIndex =>
      match stack, stack.at tableIndex with
      | key :: below, some (.table ref) =>
          match heap[ref]?.bind fun t => t.next key with
          | none => .fail .luaError
          | some none => return below
          | some (some (k, v)) => do
              let stack := v :: k :: below
              let stack ← sendVariable l heap fuel stack (stack.length - 1)
              let stack ← sendVariable l heap fuel stack stack.length
              sendTable l heap fuel stack.tail tableIndex
      | _, _ => .fail .undefined

/-- `write_variable`. -/
def sendVariable (l : Link N F) (heap : Heap N F) : Nat → Stack N F → Nat → Sent (Stack N F)
  | 0, _, _ => .fail .deep
  | fuel + 1, stack, varIndex =>
      match stack.at varIndex with
      | some (.number x) => do
          Sent.write [RpcType.number.toByte]
          let bytes ← (⟨[], l.writeNumber x⟩ : Sent (List UInt8))
          Sent.write bytes
          return stack
      | some (.string s) => do
          Sent.write [RpcType.string.toByte]
          Sent.write (l.writeU32 s.length)
          Sent.write (writeString s)
          return stack
      | some (.table _) => do
          Sent.write [RpcType.table.toByte]
          let stack ← sendTable l heap fuel (.nil :: stack) varIndex
          Sent.write [RpcType.tableEnd.toByte]
          return stack
      | some .nil => do
          Sent.write [RpcType.nil.toByte]
          return stack
      | some (.boolean b) => do
          Sent.write [RpcType.boolean.toByte]
          Sent.write [b.toUInt8]
          return stack
      | some (.function f) => do
          Sent.write [RpcType.function.toByte]
          -- `write_function`
          match l.dump f with
          | none => .fail .undefined
          | some code =>
              let stack := .string code :: .function f :: stack
              let stack ← sendVariable l heap fuel stack stack.length
              Sent.write [RpcType.functionEnd.toByte]
              return stack.drop 2
      | some (.helper h) => do
          Sent.write [RpcType.remote.toByte]
          -- the names go to the handle of the helper
          if l.handle = some h.handle then
            Sent.write (l.helperRemoteIndex h)
            return stack
          else return stack
      | some (.userdata _) => .fail .luaError
      | some (.thread _) => .fail .luaError
      | some (.lightuserdata _) => .fail .luaError
      | some (.rotable _) => return stack
      | some (.lightfunction _) => return stack
      | none => return stack

end

/-! ## The bytes of what succeeds -/

@[simp] theorem Sent.toExcept_write (bytes : List UInt8) :
    (Sent.write bytes).toExcept = .ok (bytes, ()) := rfl

@[simp] theorem Sent.toExcept_pure {α : Type} (a : α) :
    (pure a : Sent α).toExcept = .ok ([], a) := rfl

section

variable {l : Link N F} {heap : Heap N F} {fuel : Nat}

/-- One turn of the loop of `write_table`. -/
theorem sendTable_succ_toExcept
    (hvariable : ∀ stack i,
      (sendVariable l heap fuel stack i).toExcept = writeVariable l heap fuel stack i)
    (htable : ∀ stack i, (sendTable l heap fuel stack i).toExcept = writeTable l heap fuel stack i)
    (stack : Stack N F) (i : Nat) :
    (sendTable l heap (fuel + 1) stack i).toExcept = writeTable l heap (fuel + 1) stack i := by
  unfold sendTable writeTable
  cases stack with
  | nil => rfl
  | cons key below =>
      cases Stack.at (key :: below) i with
      | none => rfl
      | some v =>
          cases v with
          | table ref =>
              simp only
              cases heap[ref]?.bind fun t => t.next key with
              | none => rfl
              | some next =>
                  cases next with
                  | none => rfl
                  | some entry =>
                      simp only [Sent.toExcept_bind, hvariable, htable]
                      cases writeVariable l heap fuel (entry.2 :: entry.1 :: below)
                          ((entry.2 :: entry.1 :: below).length - 1) with
                      | error e => rfl
                      | ok x =>
                          change Except.map _ (Except.bind _ _) =
                            (writeVariable l heap fuel x.2 x.2.length).bind fun y =>
                              (writeTable l heap fuel y.2.tail i).bind fun z =>
                                .ok (x.1 ++ y.1 ++ z.1, z.2)
                          cases writeVariable l heap fuel x.2 x.2.length with
                          | error e => rfl
                          | ok y =>
                              change Except.map _ (Except.map _ _) =
                                (writeTable l heap fuel y.2.tail i).bind fun z =>
                                  .ok (x.1 ++ y.1 ++ z.1, z.2)
                              cases writeTable l heap fuel y.2.tail i with
                              | error e => rfl
                              | ok z =>
                                  refine congrArg Except.ok (Prod.ext ?_ rfl)
                                  exact (List.append_assoc _ _ _).symm
          | _ => rfl

theorem sendVariable_succ_toExcept
    (hvariable : ∀ stack i,
      (sendVariable l heap fuel stack i).toExcept = writeVariable l heap fuel stack i)
    (htable : ∀ stack i, (sendTable l heap fuel stack i).toExcept = writeTable l heap fuel stack i)
    (stack : Stack N F) (i : Nat) :
    (sendVariable l heap (fuel + 1) stack i).toExcept =
      writeVariable l heap (fuel + 1) stack i := by
  rw [sendVariable, writeVariable]
  cases stack.at i with
  | none => rfl
  | some v =>
      cases v with
      | number x =>
          simp only
          cases l.writeNumber x with
          | error e => rfl
          | ok bytes =>
              refine congrArg Except.ok (Prod.ext ?_ rfl)
              change [RpcType.number.toByte] ++ ([] ++ (bytes ++ [])) = _
              rw [List.append_nil, List.nil_append, List.singleton_append]
      | string s =>
          refine congrArg Except.ok (Prod.ext ?_ rfl)
          change [RpcType.string.toByte] ++ (l.writeU32 s.length ++ (writeString s ++ [])) = _
          rw [List.append_nil, List.singleton_append]
      | table ref =>
          simp only [Sent.toExcept_bind, Sent.toExcept_write, Sent.toExcept_pure, htable]
          cases writeTable l heap fuel (.nil :: stack) i with
          | error e => rfl
          | ok r => rfl
      | function f =>
          simp only
          cases l.dump f with
          | none => rfl
          | some code =>
              simp only [Sent.toExcept_bind, Sent.toExcept_write, Sent.toExcept_pure, hvariable]
              cases writeVariable l heap fuel (.string code :: .function f :: stack)
                  (Val.string code :: .function f :: stack).length with
              | error e => rfl
              | ok r => rfl
      | helper h =>
          simp only
          by_cases hhandle : l.handle = some h.handle
          · rw [if_pos hhandle, if_pos hhandle]
            refine congrArg Except.ok (Prod.ext ?_ rfl)
            change [RpcType.remote.toByte] ++ (l.helperRemoteIndex h ++ []) = _
            rw [List.append_nil, List.singleton_append]
          · rw [if_neg hhandle, if_neg hhandle]
            rfl
      | _ => rfl

end

/-- **What succeeds** is what `writeVariable` and `writeTable` do. -/
theorem send_toExcept (l : Link N F) (heap : Heap N F) (fuel : Nat) :
    (∀ stack i, (sendVariable l heap fuel stack i).toExcept = writeVariable l heap fuel stack i) ∧
      ∀ stack i,
        (sendTable l heap fuel stack i).toExcept = writeTable l heap fuel stack i := by
  induction fuel with
  | zero => exact ⟨fun _ _ => rfl, fun _ _ => rfl⟩
  | succ fuel ih =>
      exact ⟨sendVariable_succ_toExcept ih.1 ih.2, sendTable_succ_toExcept ih.1 ih.2⟩

end LuaRpc
