import EluaWebServer.LuaRpc.RoundTrip

/-!
# Reading any bytes

`read_variable` leaves what it reads on the Lua stack, and its callers take for granted what they
find there.  The format says what a stream of variables is without a stack.  Every call leaves the
stack as it should exactly if the bytes follow the format as far as they are read.
-/

namespace LuaRpc

open Bytes

variable {N F R : Type} [LuaNumber N] [DecidableEq F]

/-- What is being read when a variable begins. -/
inductive Container where
  | table
  | function
  deriving DecidableEq

def Container.endMarker : Container → RpcType
  | .table => .tableEnd
  | .function => .functionEnd

/-- An exception is thrown, or an error is raised. -/
def Failure.Raised : Failure → Prop
  | .luaError => True
  | .thrown _ => True
  | .deep => False
  | .undefined => False

/-! ## Calls -/

/-- What a call of `read_variable` is allowed to do: to throw or to raise an error, to return 1
after pushing one value, or to return 0 for the end marker of the innermost container. -/
def CallOk (inner : Option Container) (c : Conn N F R) :
    Except Failure (Bool × Conn N F R) → Prop
  | .error e => e.Raised
  | .ok (true, c') => ∃ v, c'.stack = v :: c.stack
  | .ok (false, c') => c'.stack = c.stack ∧
      ∃ container, inner = some container ∧ c.input = container.endMarker.toByte :: c'.input

mutual

/-- Every turn of the loop of `read_table` is as it should be: `lua_rawset` finds a key and a value
above the table. -/
def TableOk (l : Link N F) (vm : Vm N F R) : Nat → Nat → Conn N F R → Prop
  | 0, _, _ => False
  | fuel + 1, tableIndex, c =>
      VariableOk l vm fuel (some .table) c ∧
        ∀ c₁, readVariable l vm fuel c = .ok (true, c₁) →
          VariableOk l vm fuel (some .table) c₁ ∧
            ∀ normal c₂, readVariable l vm fuel c₁ = .ok (normal, c₂) →
              (∃ k v, c₂.stack = v :: k :: c.stack) ∧
                ∀ c₃, c₂.rawset tableIndex = .ok c₃ → TableOk l vm fuel tableIndex c₃

/-- Every turn of the loop of `read_function` is as it should be. -/
def FunctionOk (l : Link N F) (vm : Vm N F R) : Nat → Conn N F R → Prop
  | 0, _ => False
  | fuel + 1, c =>
      VariableOk l vm fuel (some .function) c ∧
        ∀ c₁ c₂, readVariable l vm fuel c = .ok (true, c₁) → c₁.load vm = .ok c₂ →
          FunctionOk l vm fuel c₂

/-- A call of `read_variable` and all calls that it makes are as they should be. -/
def VariableOk (l : Link N F) (vm : Vm N F R) : Nat → Option Container → Conn N F R → Prop
  | 0, _, _ => False
  | fuel + 1, inner, c =>
      CallOk inner c (readVariable l vm (fuel + 1) c) ∧
        match c.input with
        | [] => True
        | type :: input =>
            match RpcType.ofByte type with
            | some .table => TableOk l vm fuel (c.stack.length + 1)
                (Conn.newTable { c with input := input })
            | some .function => FunctionOk l vm fuel { c with input := input }
            | _ => True

end

/-! ## The format -/

/-- Where a reader without a stack is. -/
structure Source (N F R : Type) [LuaNumber N] [DecidableEq F] where
  lua : Lua N F R
  input : List UInt8

def Conn.source (c : Conn N F R) : Source N F R := ⟨c.lua, c.input⟩

/-- The string of a function is loaded. -/
def loadValue (vm : Vm N F R) (v : Val N F) (s : Source N F R) :
    Except Failure (Val N F × Source N F R) :=
  match v with
  | .string str => .ok ((vm.load str s.lua).1, { s with lua := (vm.load str s.lua).2 })
  | .number x =>
      let str := LuaNumber.str x
      .ok ((vm.load str s.lua).1, { s with lua := (vm.load str s.lua).2 })
  | _ => .error .luaError

mutual

/-- The entries of a table up to its end marker. -/
def parseEntries (l : Link N F) (vm : Vm N F R) (ref : Nat) :
    Nat → Source N F R → Except Failure (Source N F R)
  | 0, _ => .error .deep
  | fuel + 1, s => do
      match ← parseVariable l vm fuel (some .table) s with
      | (none, s) => return s
      | (some key, s) =>
          match ← parseVariable l vm fuel (some .table) s with
          | (none, _) => .error .undefined
          | (some value, s) =>
              let lua ← s.lua.rawset ref key value
              parseEntries l vm ref fuel { s with lua := lua }

/-- The code of a function up to its end marker: just one string, `loaded` are those before. -/
def parseCode (l : Link N F) (vm : Vm N F R) :
    Nat → List (Val N F) → Source N F R → Except Failure (Val N F × Source N F R)
  | 0, _, _ => .error .deep
  | fuel + 1, loaded, s => do
      match ← parseVariable l vm fuel (some .function) s with
      | (some v, s) =>
          let (f, s) ← loadValue vm v s
          parseCode l vm fuel (f :: loaded) s
      | (none, s) =>
          match loaded with
          | [f] => return (f, s)
          | _ => .error .undefined

/-- One variable, or the end marker of the innermost container. -/
def parseVariable (l : Link N F) (vm : Vm N F R) :
    Nat → Option Container → Source N F R → Except Failure (Option (Val N F) × Source N F R)
  | 0, _, _ => .error .deep
  | fuel + 1, inner, s => do
      let (type, input) ← readU8 s.input
      match RpcType.ofByte type with
      | some .nil => return (some .nil, { s with input := input })
      | some .boolean =>
          let (b, input) ← readU8 input
          return (some (.boolean (b ≠ 0)), { s with input := input })
      | some .number =>
          let (x, input) ← l.readNumber input
          return (some (.number x), { s with input := input })
      | some .string =>
          let (str, input) ← l.readString input
          return (some (.string str), { s with input := input })
      | some .table =>
          let ref := s.lua.heap.length
          let s ← parseEntries l vm ref fuel ⟨s.lua.newTable, input⟩
          return (some (.table ref), s)
      | some .tableEnd =>
          if inner = some .table then return (none, { s with input := input })
          else .error .undefined
      | some .function =>
          let (f, s) ← parseCode l vm fuel [] { s with input := input }
          return (some f, s)
      | some .functionEnd =>
          if inner = some .function then return (none, { s with input := input })
          else .error .undefined
      | some .remote =>
          let (path, input) ← l.readString input
          let (v, lua) ← lookup vm (strtok [] path).1 s.lua
          return (some v, ⟨lua, input⟩)
      | none => .error (.thrown true)

end

/-- A result, or a failure that is raised. -/
def Defined {α : Type} : Except Failure α → Prop
  | .ok _ => True
  | .error e => e.Raised

/-! ## The stack and the format -/

def Source.conn (s : Source N F R) (stack : Stack N F) : Conn N F R := ⟨s.lua, stack, s.input⟩

/-- What `read_variable` does if the format is followed. -/
def onStack (stack : Stack N F) :
    Except Failure (Option (Val N F) × Source N F R) → Except Failure (Bool × Conn N F R)
  | .error e => .error e
  | .ok (some v, s) => .ok (true, s.conn (v :: stack))
  | .ok (none, s) => .ok (false, s.conn stack)

variable (l : Link N F) (vm : Vm N F R)

def VariableAgrees (fuel : Nat) : Prop :=
  ∀ inner (c : Conn N F R),
    (VariableOk l vm fuel inner c ↔ Defined (parseVariable l vm fuel inner c.source)) ∧
      (Defined (parseVariable l vm fuel inner c.source) →
        readVariable l vm fuel c = onStack c.stack (parseVariable l vm fuel inner c.source))

/-- The failure of a loop is that of the call that it belongs to. -/
def TableAgrees (fuel : Nat) : Prop :=
  ∀ ref tableIndex (c : Conn N F R), c.stack.at tableIndex = some (.table ref) →
    (Defined (parseEntries l vm ref fuel c.source) → TableOk l vm fuel tableIndex c ∧
      readTable l vm fuel tableIndex c =
        (parseEntries l vm ref fuel c.source).map fun s => s.conn c.stack) ∧
    (TableOk l vm fuel tableIndex c → Defined (readTable l vm fuel tableIndex c) →
      Defined (parseEntries l vm ref fuel c.source))

/-- The functions that have been loaded are on the stack. -/
def FunctionAgrees (fuel : Nat) : Prop :=
  ∀ loaded stack (c : Conn N F R), c.stack = loaded ++ stack →
    (Defined (parseCode l vm fuel loaded c.source) → FunctionOk l vm fuel c ∧
      readFunction l vm fuel c =
        (parseCode l vm fuel loaded c.source).map fun r => r.2.conn (r.1 :: stack)) ∧
    (FunctionOk l vm fuel c → Defined (readFunction l vm fuel c) →
      (∀ c', readFunction l vm fuel c = .ok c' → ∃ v, c'.stack = v :: stack) →
      Defined (parseCode l vm fuel loaded c.source))

variable {l vm} {fuel : Nat}

/-- What is parsed of an entry after its key. -/
def parseValue (l : Link N F) (vm : Vm N F R) (ref fuel : Nat) (key : Val N F)
    (s : Source N F R) : Except Failure (Source N F R) := do
  match ← parseVariable l vm fuel (some .table) s with
  | (none, _) => .error .undefined
  | (some value, s) =>
      let lua ← s.lua.rawset ref key value
      parseEntries l vm ref fuel { s with lua := lua }

/-- What `read_table` does of an entry after its key. -/
def readValue (l : Link N F) (vm : Vm N F R) (tableIndex fuel : Nat) (c : Conn N F R) :
    Except Failure (Conn N F R) := do
  let (_, c) ← readVariable l vm fuel c
  let c ← c.rawset tableIndex
  readTable l vm fuel tableIndex c

/-- The rest of a turn of the loop is as it should be. -/
def ValueOk (l : Link N F) (vm : Vm N F R) (tableIndex fuel : Nat) (stack : Stack N F)
    (c : Conn N F R) : Prop :=
  VariableOk l vm fuel (some .table) c ∧
    ∀ normal c₂, readVariable l vm fuel c = .ok (normal, c₂) →
      (∃ k v, c₂.stack = v :: k :: stack) ∧
        ∀ c₃, c₂.rawset tableIndex = .ok c₃ → TableOk l vm fuel tableIndex c₃

theorem valueAgrees (hvariable : VariableAgrees l vm fuel) (htable : TableAgrees l vm fuel)
    {ref tableIndex : Nat} {stack : Stack N F} (hat : stack.at tableIndex = some (.table ref))
    (key : Val N F) (s : Source N F R) :
    (Defined (parseValue l vm ref fuel key s) →
      ValueOk l vm tableIndex fuel stack (s.conn (key :: stack)) ∧
        readValue l vm tableIndex fuel (s.conn (key :: stack)) =
          (parseValue l vm ref fuel key s).map fun s => s.conn stack) ∧
      (ValueOk l vm tableIndex fuel stack (s.conn (key :: stack)) →
        Defined (readValue l vm tableIndex fuel (s.conn (key :: stack))) →
        Defined (parseValue l vm ref fuel key s)) := by
  obtain ⟨hvalueOk, hvalueEq⟩ := hvariable (some .table) (s.conn (key :: stack))
  have hsource : (s.conn (key :: stack)).source = s := rfl
  have hstack : (s.conn (key :: stack)).stack = key :: stack := rfl
  rw [hsource] at hvalueOk hvalueEq
  rw [hstack] at hvalueEq
  cases hvalue : parseVariable l vm fuel (some .table) s with
  | error e =>
      rw [hvalue] at hvalueOk hvalueEq
      have hparse : parseValue l vm ref fuel key s = .error e := by
        rw [parseValue, hvalue]
        rfl
      rw [hparse]
      refine ⟨fun hraised => ⟨⟨hvalueOk.mpr hraised, fun normal c₂ h => ?_⟩, ?_⟩,
        fun hok _ => hvalueOk.mp hok.1⟩
      · rw [hvalueEq hraised] at h
        cases h
      · rw [readValue, hvalueEq hraised]
        rfl
  | ok r =>
      obtain ⟨v, s₂⟩ := r
      rw [hvalue] at hvalueOk hvalueEq
      have hread := hvalueEq trivial
      cases v with
      | none =>
          -- the end marker in the place of a value
          refine ⟨fun h => ?_, fun hok _ => ?_⟩
          · rw [parseValue, hvalue] at h
            exact h.elim
          · obtain ⟨⟨k, v, hshort⟩, -⟩ := hok.2 _ _ hread
            have hlen := congrArg List.length hshort
            simp only [Source.conn, List.length_cons] at hlen
            omega
      | some value =>
          have hset : Conn.rawset (s₂.conn (value :: key :: stack)) tableIndex = _ :=
            conn_rawset_eq hat
          rw [onStack] at hread
          cases hlua : s₂.lua.rawset ref key value with
          | error e =>
              have hparse : parseValue l vm ref fuel key s = .error e := by
                rw [parseValue, hvalue]
                change (s₂.lua.rawset ref key value).bind _ = _
                rw [hlua]
                rfl
              have hrest : readValue l vm tableIndex fuel (s.conn (key :: stack)) = .error e := by
                rw [readValue, hread]
                change (Conn.rawset (s₂.conn (value :: key :: stack)) tableIndex).bind _ = _
                rw [hset, hlua]
                rfl
              rw [hparse, hrest]
              refine ⟨fun hraised => ⟨⟨hvalueOk.mpr trivial, fun normal c₂ h => ?_⟩, rfl⟩,
                fun _ hraised => hraised⟩
              rw [hread] at h
              obtain ⟨rfl, rfl⟩ := Prod.mk.inj (Except.ok.inj h)
              refine ⟨⟨key, value, rfl⟩, fun c₃ h => ?_⟩
              rw [hset, hlua] at h
              cases h
          | ok lua =>
              obtain ⟨hnext, hback⟩ := htable ref tableIndex (Source.conn ⟨lua, s₂.input⟩ stack) hat
              have hparse : parseValue l vm ref fuel key s =
                  parseEntries l vm ref fuel ⟨lua, s₂.input⟩ := by
                rw [parseValue, hvalue]
                change (s₂.lua.rawset ref key value).bind _ = _
                rw [hlua]
                rfl
              have hrest : readValue l vm tableIndex fuel (s.conn (key :: stack)) =
                  readTable l vm fuel tableIndex (Source.conn ⟨lua, s₂.input⟩ stack) := by
                rw [readValue, hread]
                change (Conn.rawset (s₂.conn (value :: key :: stack)) tableIndex).bind _ = _
                rw [hset, hlua]
                rfl
              have hsetOk : ∀ c₃,
                  Conn.rawset (s₂.conn (value :: key :: stack)) tableIndex = .ok c₃ →
                  c₃ = Source.conn ⟨lua, s₂.input⟩ stack := by
                intro c₃ h
                rw [hset, hlua] at h
                exact (Except.ok.inj h).symm
              rw [hparse, hrest]
              refine ⟨fun hdefined => ⟨⟨hvalueOk.mpr trivial, fun normal c₂ h => ?_⟩,
                (hnext hdefined).2⟩, fun hok => hback ?_⟩
              · rw [hread] at h
                obtain ⟨rfl, rfl⟩ := Prod.mk.inj (Except.ok.inj h)
                refine ⟨⟨key, value, rfl⟩, fun c₃ h => ?_⟩
                rw [hsetOk c₃ h]
                exact (hnext hdefined).1
              · obtain ⟨-, hsets⟩ := hok.2 _ _ hread
                refine hsets _ ?_
                rw [hset, hlua]
                rfl

/-- One more turn of the loop over a table. -/
theorem tableAgrees_succ (hvariable : VariableAgrees l vm fuel) (htable : TableAgrees l vm fuel) :
    TableAgrees l vm (fuel + 1) := by
  intro ref tableIndex c hat
  obtain ⟨hkeyOk, hkeyEq⟩ := hvariable (some .table) c
  cases hkey : parseVariable l vm fuel (some .table) c.source with
  | error e =>
      rw [hkey] at hkeyOk hkeyEq
      have hparse : parseEntries l vm ref (fuel + 1) c.source = .error e := by
        rw [parseEntries, hkey]
        rfl
      rw [hparse]
      refine ⟨fun hraised => ⟨⟨hkeyOk.mpr hraised, fun c₁ h => ?_⟩, ?_⟩,
        fun hok _ => hkeyOk.mp hok.1⟩
      · rw [hkeyEq hraised] at h
        cases h
      · rw [readTable, hkeyEq hraised]
        rfl
  | ok r =>
      obtain ⟨k, s₁⟩ := r
      rw [hkey] at hkeyOk hkeyEq
      have hkeyRead := hkeyEq trivial
      cases k with
      | none =>
          have hparse : parseEntries l vm ref (fuel + 1) c.source = .ok s₁ := by
            rw [parseEntries, hkey]
            rfl
          rw [hparse]
          refine ⟨fun _ => ⟨⟨hkeyOk.mpr trivial, fun c₁ h => ?_⟩, ?_⟩, fun _ _ => trivial⟩
          · rw [hkeyRead] at h
            cases h
          · rw [readTable, hkeyRead]
            rfl
      | some key =>
          obtain ⟨hnext, hback⟩ := valueAgrees hvariable htable hat key s₁
          have hparse : parseEntries l vm ref (fuel + 1) c.source =
              parseValue l vm ref fuel key s₁ := by
            rw [parseEntries, hkey]
            rfl
          have hread : readTable l vm (fuel + 1) tableIndex c =
              readValue l vm tableIndex fuel (s₁.conn (key :: c.stack)) := by
            rw [readTable, hkeyRead]
            rfl
          rw [hparse, hread]
          refine ⟨fun hdefined => ⟨⟨hkeyOk.mpr trivial, fun c₁ h => ?_⟩, (hnext hdefined).2⟩,
            fun hok => hback (hok.2 _ hkeyRead)⟩
          rw [hkeyRead] at h
          obtain ⟨-, rfl⟩ := Prod.mk.inj (Except.ok.inj h)
          exact (hnext hdefined).1

theorem load_eq (vm : Vm N F R) (s : Source N F R) (v : Val N F) (stack : Stack N F) :
    (s.conn (v :: stack)).load vm =
      (loadValue vm v s).map fun r => r.2.conn (r.1 :: stack) := by
  cases v <;> rfl

/-- One more turn of the loop over the code of a function. -/
theorem functionAgrees_succ (hvariable : VariableAgrees l vm fuel)
    (hfunction : FunctionAgrees l vm fuel) : FunctionAgrees l vm (fuel + 1) := by
  intro loaded stack c hstack
  obtain ⟨hcodeOk, hcodeEq⟩ := hvariable (some .function) c
  cases hcode : parseVariable l vm fuel (some .function) c.source with
  | error e =>
      rw [hcode] at hcodeOk hcodeEq
      have hparse : parseCode l vm (fuel + 1) loaded c.source = .error e := by
        rw [parseCode, hcode]
        rfl
      rw [hparse]
      refine ⟨fun hraised => ⟨⟨hcodeOk.mpr hraised, fun c₁ c₂ h => ?_⟩, ?_⟩,
        fun hok _ _ => hcodeOk.mp hok.1⟩
      · rw [hcodeEq hraised] at h
        cases h
      · rw [readFunction, hcodeEq hraised]
        rfl
  | ok r =>
      obtain ⟨v, s⟩ := r
      rw [hcode] at hcodeOk hcodeEq
      have hread := hcodeEq trivial
      rw [onStack.eq_def] at hread
      cases v with
      | none =>
          have hend : readFunction l vm (fuel + 1) c = .ok (s.conn c.stack) := by
            rw [readFunction, hread]
            rfl
          have hok : FunctionOk l vm (fuel + 1) c := by
            refine ⟨hcodeOk.mpr trivial, fun c₁ c₂ h => ?_⟩
            rw [hread] at h
            cases h
          have hnotOne : loaded.length ≠ 1 → (∀ c', readFunction l vm (fuel + 1) c = .ok c' →
              ∃ v, c'.stack = v :: stack) → False := by
            intro hlen hone
            obtain ⟨v, hv⟩ := hone _ hend
            have hlens := congrArg List.length (hstack.symm.trans hv)
            rw [List.length_append, List.length_cons] at hlens
            omega
          match loaded with
          | [f] =>
              have hparse : parseCode l vm (fuel + 1) [f] c.source = .ok (f, s) := by
                rw [parseCode, hcode]
                rfl
              rw [hparse, hend, hstack]
              exact ⟨fun _ => ⟨hok, rfl⟩, fun _ _ _ => trivial⟩
          | [] =>
              refine ⟨fun h => ?_, fun _ _ hone => (hnotOne nofun hone).elim⟩
              rw [parseCode, hcode] at h
              exact h.elim
          | f :: g :: more =>
              refine ⟨fun h => ?_, fun _ _ hone => (hnotOne ?_ hone).elim⟩
              · rw [parseCode, hcode] at h
                exact h.elim
              · rw [List.length_cons, List.length_cons]
                omega
      | some v =>
          have hload := load_eq vm s v c.stack
          cases hvalue : loadValue vm v s with
          | error e =>
              rw [hvalue] at hload
              have hparse : parseCode l vm (fuel + 1) loaded c.source = .error e := by
                rw [parseCode, hcode]
                change (loadValue vm v s).bind _ = _
                rw [hvalue]
                rfl
              have hrest : readFunction l vm (fuel + 1) c = .error e := by
                rw [readFunction, hread]
                change ((s.conn (v :: c.stack)).load vm).bind _ = _
                rw [hload]
                rfl
              rw [hparse, hrest]
              refine ⟨fun _ => ⟨⟨hcodeOk.mpr trivial, fun c₁ c₂ h hc₂ => ?_⟩, rfl⟩,
                fun _ hraised _ => hraised⟩
              rw [hread] at h
              obtain ⟨-, rfl⟩ := Prod.mk.inj (Except.ok.inj h)
              rw [hload] at hc₂
              cases hc₂
          | ok r =>
              obtain ⟨f, s'⟩ := r
              rw [hvalue] at hload
              obtain ⟨hnext, hback⟩ := hfunction (f :: loaded) stack (s'.conn (f :: c.stack))
                (congrArg (f :: ·) hstack)
              have hparse : parseCode l vm (fuel + 1) loaded c.source =
                  parseCode l vm fuel (f :: loaded) s' := by
                rw [parseCode, hcode]
                change (loadValue vm v s).bind _ = _
                rw [hvalue]
                rfl
              have hrest : readFunction l vm (fuel + 1) c =
                  readFunction l vm fuel (s'.conn (f :: c.stack)) := by
                rw [readFunction, hread]
                change ((s.conn (v :: c.stack)).load vm).bind _ = _
                rw [hload]
                rfl
              rw [hparse, hrest]
              refine ⟨fun hdefined => ⟨⟨hcodeOk.mpr trivial, fun c₁ c₂ h hc₂ => ?_⟩,
                (hnext hdefined).2⟩, fun hok => hback (hok.2 _ _ hread hload)⟩
              rw [hread] at h
              obtain ⟨-, rfl⟩ := Prod.mk.inj (Except.ok.inj h)
              rw [hload] at hc₂
              rw [← Except.ok.inj hc₂]
              exact (hnext hdefined).1

/-! ## One variable -/

theorem eq_toByte_of_ofByte {b : UInt8} {t : RpcType} (h : RpcType.ofByte b = some t) :
    b = t.toByte := by
  unfold RpcType.ofByte at h
  split_ifs at h with h0 h1 h2 h3 h4 h5 h6 h7 h8
  all_goals
    obtain rfl := Option.some.inj h
    assumption

/-- A variable whose contents are read by a loop. -/
theorem nestedAgrees {inner : Option Container} {c : Conn N F R}
    (x : Except Failure (Val N F × Source N F R)) {loopOk : Prop}
    {loop : Except Failure (Conn N F R)}
    (hok : VariableOk l vm (fuel + 1) inner c ↔
      CallOk inner c (readVariable l vm (fuel + 1) c) ∧ loopOk)
    (hparse : parseVariable l vm (fuel + 1) inner c.source = x.map fun r => (some r.1, r.2))
    (hread : readVariable l vm (fuel + 1) c = loop.map fun c => (true, c))
    (hnext : Defined x → loopOk ∧ loop = x.map fun r => r.2.conn (r.1 :: c.stack))
    (hback : loopOk → Defined loop → (∀ c', loop = .ok c' → ∃ v, c'.stack = v :: c.stack) →
      Defined x) :
    (VariableOk l vm (fuel + 1) inner c ↔
      Defined (parseVariable l vm (fuel + 1) inner c.source)) ∧
      (Defined (parseVariable l vm (fuel + 1) inner c.source) →
        readVariable l vm (fuel + 1) c =
          onStack c.stack (parseVariable l vm (fuel + 1) inner c.source)) := by
  have hdefined : Defined (x.map fun r => (some r.1, r.2)) ↔ Defined x := by
    cases x <;> exact Iff.rfl
  rw [hok, hparse, hread, hdefined]
  constructor
  · constructor
    · rintro ⟨hcall, hloopOk⟩
      cases loop with
      | error e => exact hback hloopOk hcall nofun
      | ok c₁ =>
          refine hback hloopOk trivial fun c' h => ?_
          rw [← Except.ok.inj h]
          exact hcall
    · intro hx
      obtain ⟨hloopOk, rfl⟩ := hnext hx
      refine ⟨?_, hloopOk⟩
      cases x with
      | error e => exact hx
      | ok r => exact ⟨r.1, rfl⟩
  · intro hx
    rw [(hnext hx).2]
    cases x <;> rfl

/-- A variable that contains no other. -/
theorem leafAgrees {inner : Option Container} {c : Conn N F R}
    (x : Except Failure (Val N F × Source N F R))
    (hok : VariableOk l vm (fuel + 1) inner c ↔
      CallOk inner c (readVariable l vm (fuel + 1) c) ∧ True)
    (hparse : parseVariable l vm (fuel + 1) inner c.source = x.map fun r => (some r.1, r.2))
    (hread : readVariable l vm (fuel + 1) c = x.map fun r => (true, r.2.conn (r.1 :: c.stack))) :
    (VariableOk l vm (fuel + 1) inner c ↔
      Defined (parseVariable l vm (fuel + 1) inner c.source)) ∧
      (Defined (parseVariable l vm (fuel + 1) inner c.source) →
        readVariable l vm (fuel + 1) c =
          onStack c.stack (parseVariable l vm (fuel + 1) inner c.source)) := by
  have hmap : readVariable l vm (fuel + 1) c =
      (x.map fun r => r.2.conn (r.1 :: c.stack)).map fun c => (true, c) := by
    rw [hread]
    cases x <;> rfl
  refine nestedAgrees x hok hparse hmap (fun _ => ⟨trivial, rfl⟩) ?_
  intro _ hx _
  cases x <;> exact hx

/-- An end marker. -/
theorem markerAgrees {inner : Option Container} (container : Container) {c : Conn N F R}
    {input : List UInt8} (hinput : c.input = container.endMarker.toByte :: input)
    (hok : VariableOk l vm (fuel + 1) inner c ↔
      CallOk inner c (readVariable l vm (fuel + 1) c) ∧ True)
    (hparse : parseVariable l vm (fuel + 1) inner c.source =
      if inner = some container then .ok (none, ⟨c.lua, input⟩) else .error .undefined)
    (hread : readVariable l vm (fuel + 1) c = .ok (false, ⟨c.lua, c.stack, input⟩)) :
    (VariableOk l vm (fuel + 1) inner c ↔
      Defined (parseVariable l vm (fuel + 1) inner c.source)) ∧
      (Defined (parseVariable l vm (fuel + 1) inner c.source) →
        readVariable l vm (fuel + 1) c =
          onStack c.stack (parseVariable l vm (fuel + 1) inner c.source)) := by
  rw [hok, and_true, hparse, hread]
  by_cases hinner : inner = some container
  · rw [if_pos hinner]
    exact ⟨iff_of_true ⟨rfl, container, hinner, hinput⟩ trivial, fun _ => rfl⟩
  · rw [if_neg hinner]
    refine ⟨iff_of_false ?_ id, fun h => h.elim⟩
    rintro ⟨-, other, rfl, hmarker⟩
    rw [hinput] at hmarker
    have hbyte := (List.cons.inj hmarker).1
    cases container <;> cases other <;> first | exact hinner rfl | exact absurd hbyte (by decide)

theorem tableVariableAgrees (htable : TableAgrees l vm fuel) {inner : Option Container}
    {lua : Lua N F R} {stack : Stack N F} {input : List UInt8} :
    (VariableOk l vm (fuel + 1) inner ⟨lua, stack, RpcType.table.toByte :: input⟩ ↔
      Defined (parseVariable l vm (fuel + 1) inner ⟨lua, RpcType.table.toByte :: input⟩)) ∧
      (Defined (parseVariable l vm (fuel + 1) inner ⟨lua, RpcType.table.toByte :: input⟩) →
        readVariable l vm (fuel + 1) ⟨lua, stack, RpcType.table.toByte :: input⟩ =
          onStack stack
            (parseVariable l vm (fuel + 1) inner ⟨lua, RpcType.table.toByte :: input⟩)) := by
  obtain ⟨hnext, hback⟩ := htable lua.heap.length (stack.length + 1)
    ⟨lua.newTable, .table lua.heap.length :: stack, input⟩ (Stack.at_top _ _)
  have hsource : (⟨lua.newTable, .table lua.heap.length :: stack, input⟩ : Conn N F R).source =
      ⟨lua.newTable, input⟩ := rfl
  rw [hsource] at hnext hback
  have hread : readVariable l vm (fuel + 1) ⟨lua, stack, RpcType.table.toByte :: input⟩ =
      (readTable l vm fuel (stack.length + 1)
        ⟨lua.newTable, .table lua.heap.length :: stack, input⟩).map fun c => (true, c) := rfl
  have hdefined : Defined ((parseEntries l vm lua.heap.length fuel ⟨lua.newTable, input⟩).map
      fun s => ((.table lua.heap.length : Val N F), s)) ↔
        Defined (parseEntries l vm lua.heap.length fuel ⟨lua.newTable, input⟩) := by
    cases parseEntries l vm lua.heap.length fuel ⟨lua.newTable, input⟩ <;> exact Iff.rfl
  refine nestedAgrees (c := ⟨lua, stack, RpcType.table.toByte :: input⟩)
    ((parseEntries l vm lua.heap.length fuel ⟨lua.newTable, input⟩).map
      fun s => (.table lua.heap.length, s)) Iff.rfl ?_ hread ?_ ?_
  · change (parseEntries l vm lua.heap.length fuel ⟨lua.newTable, input⟩).bind _ = _
    cases parseEntries l vm lua.heap.length fuel ⟨lua.newTable, input⟩ <;> rfl
  · intro hentries
    obtain ⟨htableOk, heq⟩ := hnext (hdefined.mp hentries)
    refine ⟨htableOk, ?_⟩
    rw [heq]
    cases parseEntries l vm lua.heap.length fuel ⟨lua.newTable, input⟩ <;> rfl
  · intro htableOk hloop _
    exact hdefined.mpr (hback htableOk hloop)

theorem functionVariableAgrees (hfunction : FunctionAgrees l vm fuel) {inner : Option Container}
    {lua : Lua N F R} {stack : Stack N F} {input : List UInt8} :
    (VariableOk l vm (fuel + 1) inner ⟨lua, stack, RpcType.function.toByte :: input⟩ ↔
      Defined (parseVariable l vm (fuel + 1) inner ⟨lua, RpcType.function.toByte :: input⟩)) ∧
      (Defined (parseVariable l vm (fuel + 1) inner ⟨lua, RpcType.function.toByte :: input⟩) →
        readVariable l vm (fuel + 1) ⟨lua, stack, RpcType.function.toByte :: input⟩ =
          onStack stack
            (parseVariable l vm (fuel + 1) inner ⟨lua, RpcType.function.toByte :: input⟩)) := by
  obtain ⟨hnext, hback⟩ := hfunction [] stack ⟨lua, stack, input⟩ rfl
  have hread : readVariable l vm (fuel + 1) ⟨lua, stack, RpcType.function.toByte :: input⟩ =
      (readFunction l vm fuel ⟨lua, stack, input⟩).map fun c => (true, c) := rfl
  exact nestedAgrees (c := ⟨lua, stack, RpcType.function.toByte :: input⟩)
    (parseCode l vm fuel [] ⟨lua, input⟩) Iff.rfl rfl hread hnext hback

theorem variableAgrees_succ (htable : TableAgrees l vm fuel)
    (hfunction : FunctionAgrees l vm fuel) : VariableAgrees l vm (fuel + 1) := by
  intro inner c
  obtain ⟨lua, stack, input⟩ := c
  cases input with
  | nil => exact leafAgrees (.error (.thrown false)) Iff.rfl rfl rfl
  | cons type input =>
      cases htype : RpcType.ofByte type with
      | none =>
          refine leafAgrees (.error (.thrown true)) ?_ ?_ ?_
          · simp only [VariableOk, htype]
          · simp only [Conn.source, parseVariable, readU8, bind, Except.bind, htype]
            rfl
          · simp only [readVariable, readU8, bind, Except.bind, htype]
            rfl
      | some t =>
          obtain rfl := eq_toByte_of_ofByte htype
          cases t with
          | nil => exact leafAgrees (.ok (.nil, ⟨lua, input⟩)) Iff.rfl rfl rfl
          | boolean =>
              cases input with
              | nil => exact leafAgrees (.error (.thrown false)) Iff.rfl rfl rfl
              | cons b input =>
                  exact leafAgrees (.ok (.boolean (b ≠ 0), ⟨lua, input⟩)) Iff.rfl rfl rfl
          | number =>
              refine leafAgrees ((l.readNumber input).map fun r => (.number r.1, ⟨lua, r.2⟩))
                Iff.rfl ?_ ?_
              · change (l.readNumber input).bind _ = _
                cases l.readNumber input <;> rfl
              · change (l.readNumber input).bind _ = _
                cases l.readNumber input <;> rfl
          | string =>
              refine leafAgrees ((l.readString input).map fun r => (.string r.1, ⟨lua, r.2⟩))
                Iff.rfl ?_ ?_
              · change (l.readString input).bind _ = _
                cases l.readString input <;> rfl
              · change (l.readString input).bind _ = _
                cases l.readString input <;> rfl
          | table => exact tableVariableAgrees htable
          | tableEnd => exact markerAgrees .table rfl Iff.rfl rfl rfl
          | function => exact functionVariableAgrees hfunction
          | functionEnd => exact markerAgrees .function rfl Iff.rfl rfl rfl
          | remote =>
              refine leafAgrees ((l.readString input).bind fun p =>
                (lookup vm (strtok [] p.1).1 lua).map fun r => (r.1, ⟨r.2, p.2⟩)) Iff.rfl ?_ ?_
              · change (l.readString input).bind _ = _
                cases l.readString input with
                | error e => rfl
                | ok p =>
                    dsimp only [Except.bind]
                    change (lookup vm (strtok [] p.1).1 lua).bind _ = _
                    cases lookup vm (strtok [] p.1).1 lua <;> rfl
              · change ((l.readString input).bind fun p =>
                  (lookup vm (strtok [] p.1).1 lua).bind fun r =>
                    .ok (⟨r.2, r.1 :: stack, p.2⟩ : Conn N F R)).bind _ = _
                cases l.readString input with
                | error e => rfl
                | ok p =>
                    dsimp only [Except.bind]
                    cases lookup vm (strtok [] p.1).1 lua <;> rfl

/-- **The stack and the format.** -/
theorem variableAgrees (l : Link N F) (vm : Vm N F R) :
    ∀ fuel, VariableAgrees l vm fuel ∧ TableAgrees l vm fuel ∧ FunctionAgrees l vm fuel
  | 0 => ⟨fun _ _ => ⟨Iff.rfl, fun h => h.elim⟩, fun _ _ _ _ => ⟨fun h => h.elim, fun h => h.elim⟩,
      fun _ _ _ _ => ⟨fun h => h.elim, fun h => h.elim⟩⟩
  | fuel + 1 => by
      obtain ⟨hvariable, htable, hfunction⟩ := variableAgrees l vm fuel
      exact ⟨variableAgrees_succ htable hfunction, tableAgrees_succ hvariable htable,
        functionAgrees_succ hvariable hfunction⟩

/-- Bytes that leave the format. -/
theorem not_variableOk_of_undefined {fuel : Nat} {c : Conn N F R}
    (h : parseVariable l vm fuel none c.source = .error .undefined) :
    ¬ VariableOk l vm fuel none c := by
  rw [((variableAgrees l vm fuel).1 none c).1, h]
  exact id

example : parseVariable (smallLink none) smallVm 10 none
    ⟨⟨[], ()⟩, [4, 3, 1, 0, 0, 0, 97, 2, 1, 5]⟩ =
      .ok (some (.table 0),
        ⟨⟨[⟨[(.string [97], .boolean true)], by decide, by decide, by decide⟩], ()⟩, []⟩) := rfl

end LuaRpc
