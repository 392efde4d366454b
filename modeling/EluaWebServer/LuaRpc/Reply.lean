import EluaWebServer.LuaRpc.Dispatch
import EluaWebServer.LuaRpc.RoundTrip
import Mathlib.Algebra.Order.BigOperators.Group.List

/-!
# One reply for a request

What a request asks the interpreter for, what the reply to it has to be, and
when the server writes it.
-/

namespace LuaRpc

variable {N C F R : Type} [LuaNumber N] [DecidableEq F]

/-! ## Requests and what they come to -/

/-- The requests of a client, with a name and trees. -/
inductive Request (N : Type) where
  | call (path : List UInt8) (args : List (Tree N))
  | get (path : List UInt8)
  | newindex (path : List UInt8) (key value : Tree N)

/-- The bytes of some trees. -/
def Link.encodeAll (l : Link N C) (ts : List (Tree N)) : List UInt8 := ts.flatMap l.encode

/-- The bytes of a request. -/
def Link.request (l : Link N C) : Request N → List UInt8
  | .call path args => RpcCmd.call.toByte ::
      (l.text path ++ (l.writeU32 args.length ++ l.encodeAll args))
  | .get path => RpcCmd.get.toByte :: l.text path
  | .newindex path k v => RpcCmd.newindex.toByte :: (l.text path ++ l.encodeAll [k, v])

/-- The trees of a request. -/
def Request.trees : Request N → List (Tree N)
  | .call _ args => args
  | .get _ => []
  | .newindex _ k v => [k, v]

def Request.path : Request N → List UInt8
  | .call path _ => path
  | .get path => path
  | .newindex path _ _ => path

/-- A request that a client can send, and that the server has room for. -/
structure Request.WellFormed (w : Link N C) (r : Link N F) (req : Request N) : Prop where
  path : req.path.length < r.room
  trees : ∀ t ∈ req.trees, Transmits w r t
  /-- They are counted by an `int`. -/
  count : req.trees.length < 2 ^ 31

/-- What a request comes to. -/
inductive Reply (N F : Type) where
  | values (vs : List (Val N F))
  | error (code : Nat) (message : List UInt8)
  | value (v : Val N F)
  | done

/-- The values that are made of some trees. -/
def buildAll (vm : Vm N F R) :
    List (Tree N) → Lua N F R → Except Failure (List (Val N F) × Lua N F R)
  | [], lua => .ok ([], lua)
  | t :: ts, lua => do
      let (v, lua) ← build vm t lua
      let (vs, lua) ← buildAll vm ts lua
      return (v :: vs, lua)

/-- What the request asks the interpreter for. -/
def perform (vm : Vm N F R) (req : Request N) (lua : Lua N F R) :
    Except Failure (Reply N F × Lua N F R) :=
  match req with
  | .call path args => do
      let (f, lua) ← lookup vm (strtok [] path).1 lua
      let (vs, lua) ← buildAll vm args lua
      if f.isCallable then
        match vm.pcall f vs lua with
        | (.error code object, lua) => return (.error code.code (object.toString?.getD []), lua)
        | (.values vs, lua) => return (.values vs, lua)
      else return (.error PcallError.run.code (undefinedFunction ++ (strtok [] path).2), lua)
  | .get path => do
      let (v, lua) ← lookup vm (strtok [] path).1 lua
      return (.value v, lua)
  | .newindex path k v =>
      if 0 < (cString path).length then do
        let (t, lua) ← lookup vm (strtok [] path).1 lua
        let (key, lua) ← build vm k lua
        let (value, lua) ← build vm v lua
        let lua ← vm.setTable t key value lua
        return (.done, lua)
      else do
        let (key, lua) ← build vm k lua
        let (value, lua) ← build vm v lua
        match key.toString? with
        | none => .error .undefined
        | some name =>
            let lua ← vm.setGlobal (cString name) value lua
            return (.done, lua)

/-! ## The bytes of a reply -/

/-- A value has a tree that can be written. -/
def Sendable (l : Link N F) (heap : Heap N F) (v : Val N F) (t : Tree N) : Prop :=
  Unfolds l heap v t ∧ l.Writes t

/-- The bytes say what the request came to, in the form that the client reads. -/
def Conveys (l : Link N F) (heap : Heap N F) : Reply N F → List UInt8 → Prop
  | .values vs, bytes => vs.length < 2 ^ 31 ∧ ∃ ts, List.Forall₂ (Sendable l heap) vs ts ∧
      bytes = 0 :: (l.writeU32 ts.length ++ l.encodeAll ts)
  | .error code message, bytes => message.length < 2 ^ 31 ∧
      bytes = 1 :: (l.writeU32 code ++ l.text message)
  | .value v, bytes => ∃ t, Sendable l heap v t ∧ bytes = l.encode t
  | .done, bytes => bytes = [0]

/-- The server answers a request: with enough room for its calls it reads
exactly the bytes of the request, writes that it is ready and one reply, which
says what the request came to, and leaves the stack empty and the connection
ready for the next request. -/
def Answers (w : Link N C) (r : Link N F) (vm : Vm N F R)
    (negotiate : Conn N F R → Except Failure (List UInt8 × Conn N F R)) (lua : Lua N F R)
    (stack : Stack N F) (req : Request N) : Prop :=
  ∃ depth lua' bytes,
    (∀ fuel ≥ depth, ∀ rest, dispatch r vm negotiate fuel ⟨lua, stack, w.request req ++ rest⟩ =
      .ok ⟨RPC_READY :: bytes, ⟨lua', [], rest⟩, 0⟩) ∧
    ∀ reply lua'', perform vm req lua = .ok (reply, lua'') → Conveys r lua'.heap reply bytes

/-! ## What the server does -/

/-- The end of a command: the reply is written. -/
def writeReply (l : Link N F) (heap : Heap N F) (fuel : Nat) (stack : Stack N F) :
    Reply N F → Except Failure (List UInt8)
  | .values vs => do
      let bytes ← writeVariables l heap fuel vs.length (vs.reverse ++ stack) (stack.length + 1)
      return 0 :: (l.writeU32 vs.length ++ bytes)
  | .error code message => .ok (l.writeError code message.length (writeString message))
  | .value v => do
      let (bytes, _) ← writeVariable l heap fuel (v :: stack) (stack.length + 1)
      return bytes
  | .done => .ok [0]

theorem ok_bind {α β : Type} (a : α) (f : α → Except Failure β) : (Except.ok a >>= f) = f a := rfl

theorem pure_ok {α : Type} (a : α) : (pure a : Except Failure α) = .ok a := rfl

theorem strtok_length : ∀ (s token : List UInt8), (strtok token s).2.length = s.length
  | [], _ => rfl
  | b :: s, token => by
      have hnil := strtok_length s []
      have hcons := strtok_length s (token ++ [b])
      rw [strtok]
      split
      · rfl
      · split
        · dsimp only
          split
          · exact congrArg (· + 1) hnil
          · exact congrArg (· + 1) hnil
        · exact congrArg (· + 1) hcons

theorem buildAll_length {vm : Vm N F R} : ∀ {ts : List (Tree N)} {lua : Lua N F R}
    {vs : List (Val N F)} {lua' : Lua N F R}, buildAll vm ts lua = .ok (vs, lua') →
      vs.length = ts.length
  | [], _, _, _, h => by
      cases h
      rfl
  | t :: ts, lua, vs, lua', h => by
      rw [buildAll] at h
      cases ht : build vm t lua with
      | error e =>
          rw [ht] at h
          cases h
      | ok p =>
          rw [ht] at h
          change (do
            let q ← buildAll vm ts p.2
            pure (p.1 :: q.1, q.2)) = _ at h
          cases hts : buildAll vm ts p.2 with
          | error e =>
              rw [hts] at h
              cases h
          | ok q =>
              rw [hts] at h
              cases h
              exact congrArg (· + 1) (buildAll_length hts)

/-- Reading the trees of a request, one after the other. -/
theorem readVariables_eq {w : Link N C} {r : Link N F} (vm : Vm N F R) (hnet : SameNet w r)
    {fuel : Nat} : ∀ (ts : List (Tree N)) (lua : Lua N F R) (stack : Stack N F)
      (rest : List UInt8), (∀ t ∈ ts, Transmits w r t ∧ t.size ≤ fuel) →
      readVariables r vm fuel ts.length ⟨lua, stack, w.encodeAll ts ++ rest⟩ =
        (buildAll vm ts lua).map fun p => ⟨p.2, p.1.reverse ++ stack, rest⟩
  | [], lua, stack, rest, _ => rfl
  | t :: ts, lua, stack, rest, h => by
      obtain ⟨htransmits, hsize⟩ := h t List.mem_cons_self
      have hbytes : w.encodeAll (t :: ts) ++ rest = w.encode t ++ (w.encodeAll ts ++ rest) := by
        rw [← List.append_assoc]
        rfl
      rw [hbytes, List.length_cons, readVariables,
        readVariable_eq w r vm hnet t lua stack _ fuel htransmits hsize, buildAll]
      cases build vm t lua with
      | error e => rfl
      | ok p =>
          have hlater := readVariables_eq vm hnet ts p.2 (p.1 :: stack) rest
            (fun t' ht' => h t' (List.mem_cons_of_mem _ ht'))
          change readVariables r vm fuel ts.length ⟨p.2, p.1 :: stack, w.encodeAll ts ++ rest⟩ = _
          rw [hlater]
          change _ = (do
            let q ← buildAll vm ts p.2
            pure (p.1 :: q.1, q.2)).map _
          cases buildAll vm ts p.2 with
          | error e => rfl
          | ok q =>
              change Except.ok (Conn.mk q.2 (q.1.reverse ++ p.1 :: stack) rest) =
                Except.ok (Conn.mk q.2 ((p.1 :: q.1).reverse ++ stack) rest)
              rw [List.reverse_cons, List.append_assoc]
              rfl

variable {w : Link N C} {r : Link N F} {vm : Vm N F R} {fuel : Nat} {lua : Lua N F R}
  {stack : Stack N F} {rest : List UInt8}

theorem readCmdCall_eq (hnet : SameNet w r) {path : List UInt8} {args : List (Tree N)}
    (hpath : path.length < r.room) (hcount : args.length < 2 ^ 31)
    (hargs : ∀ t ∈ args, Transmits w r t ∧ t.size ≤ fuel) :
    readCmdCall r vm fuel ⟨lua, stack, w.text path ++ (w.writeU32 args.length ++
      (w.encodeAll args ++ rest))⟩ = do
        let (reply, lua') ← perform vm (.call path args) lua
        let bytes ← writeReply r lua'.heap fuel stack reply
        return (bytes, ⟨lua', [], rest⟩) := by
  have hu32 := readU32_eq hnet (show args.length < 2 ^ 32 by omega) (w.encodeAll args ++ rest)
  rw [readCmdCall, readString_eq hnet hpath, perform]
  simp only [ok_bind]
  cases lookup vm (strtok [] path).1 lua with
  | error e => rfl
  | ok p =>
      obtain ⟨f, lua₁⟩ := p
      simp only [ok_bind, hu32, if_pos hcount]
      rw [readVariables_eq vm hnet args lua₁ (f :: stack) rest hargs]
      cases hbuild : buildAll vm args lua₁ with
      | error e => rfl
      | ok q =>
          obtain ⟨vs, lua₂⟩ := q
          have hlen := buildAll_length hbuild
          have hdrop : (vs.reverse ++ f :: stack).drop args.length = f :: stack :=
            List.drop_left' (by rw [List.length_reverse, hlen])
          have htake : (vs.reverse ++ f :: stack).take args.length = vs.reverse :=
            List.take_left' (by rw [List.length_reverse, hlen])
          simp only [Except.map, ok_bind, hdrop, htake, List.reverse_reverse]
          by_cases hcallable : f.isCallable = true
          · rw [if_pos hcallable, if_pos hcallable]
            cases hcall : vm.pcall f vs lua₂ with
            | mk outcome lua₃ =>
                cases outcome with
                | error code object => rfl
                | values vs' =>
                    have hret : (vs'.reverse ++ stack).length - stack.length = vs'.length := by
                      rw [List.length_append, List.length_reverse]
                      omega
                    simp only [hret]
                    simp only [pure_ok, ok_bind, writeReply]
                    cases writeVariables r lua₃.heap fuel vs'.length (vs'.reverse ++ stack)
                        (stack.length + 1) with
                    | error e => rfl
                    | ok bytes => rfl
          · rw [if_neg hcallable, if_neg hcallable]
            have hroom := r.room_small
            have hbuffer := strtok_length path []
            have htwenty : undefinedFunction.length = 20 := rfl
            have hshort : (strtok [] path).2.length < 2 ^ 31 := by omega
            have hmessage : (undefinedFunction ++ (strtok [] path).2).length < 2 ^ 31 := by
              rw [List.length_append]
              omega
            change Except.ok _ = Except.ok (r.writeError _ _ _, Conn.mk lua₂ [] rest)
            rw [writeString_eq hshort, writeString_eq hmessage, List.length_append, hbuffer]
            rfl

theorem readCmdGet_eq (hnet : SameNet w r) {path : List UInt8} (hpath : path.length < r.room) :
    readCmdGet r vm fuel ⟨lua, stack, w.text path ++ rest⟩ = do
      let (reply, lua') ← perform vm (.get path : Request N) lua
      let bytes ← writeReply r lua'.heap fuel stack reply
      return (bytes, ⟨lua', [], rest⟩) := by
  rw [readCmdGet, readString_eq hnet hpath, perform]
  simp only [ok_bind]
  cases lookup vm (strtok [] path).1 lua with
  | error e => rfl
  | ok p =>
      obtain ⟨v, lua'⟩ := p
      simp only [pure_ok, ok_bind, writeReply, List.length_cons]
      cases writeVariable r lua'.heap fuel (v :: stack) (stack.length + 1) with
      | error e => rfl
      | ok q => rfl

theorem readCmdNewindex_eq (hnet : SameNet w r) {path : List UInt8} {k v : Tree N}
    (hpath : path.length < r.room) (htrees : ∀ t ∈ [k, v], Transmits w r t ∧ t.size ≤ fuel) :
    readCmdNewindex r vm fuel ⟨lua, stack, w.text path ++ (w.encodeAll [k, v] ++ rest)⟩ = do
      let (reply, lua') ← perform vm (.newindex path k v) lua
      let bytes ← writeReply r lua'.heap fuel stack reply
      return (bytes, ⟨lua', [], rest⟩) := by
  have hread (lua₁ : Lua N F R) (stack₁ : Stack N F) :
      readVariables r vm fuel 2 ⟨lua₁, stack₁, w.encodeAll [k, v] ++ rest⟩ = do
        let (key, lua) ← build vm k lua₁
        let (value, lua) ← build vm v lua
        return ⟨lua, value :: key :: stack₁, rest⟩ := by
    refine (readVariables_eq vm hnet [k, v] lua₁ stack₁ rest htrees).trans ?_
    simp only [buildAll, pure_ok]
    cases build vm k lua₁ with
    | error e => rfl
    | ok key =>
        simp only [ok_bind]
        cases build vm v key.2 with
        | error e => rfl
        | ok value => rfl
  rw [readCmdNewindex, readString_eq hnet hpath, perform]
  simp only [ok_bind]
  by_cases hname : 0 < (cString path).length
  · rw [if_pos hname, if_pos hname]
    cases lookup vm (strtok [] path).1 lua with
    | error e => rfl
    | ok p =>
        simp only [ok_bind, hread]
        cases build vm k p.2 with
        | error e => rfl
        | ok key =>
            simp only [ok_bind]
            cases build vm v key.2 with
            | error e => rfl
            | ok value =>
                simp only [pure_ok, ok_bind]
                cases vm.setTable p.1 key.1 value.1 value.2 with
                | error e => rfl
                | ok lua' => rfl
  · rw [if_neg hname, if_neg hname]
    simp only [hread]
    cases build vm k lua with
    | error e => rfl
    | ok key =>
        simp only [ok_bind]
        cases build vm v key.2 with
        | error e => rfl
        | ok value =>
            simp only [pure_ok, ok_bind]
            cases key.1.toString? with
            | none => rfl
            | some name =>
                dsimp only
                cases vm.setGlobal (cString name) value.1 value.2 with
                | error e => rfl
                | ok lua' => rfl

/-- How deep reading a request gets. -/
def Request.depth (req : Request N) : Nat := (req.trees.map Tree.size).sum

omit [LuaNumber N] in
theorem size_le_depth {ts : List (Tree N)} {t : Tree N} (h : t ∈ ts) :
    t.size ≤ (ts.map Tree.size).sum :=
  List.le_sum_of_mem (List.mem_map_of_mem h)

/-- The server does what the request asks the interpreter for, and then writes
the reply. -/
theorem dispatch_eq (hnet : SameNet w r)
    (negotiate : Conn N F R → Except Failure (List UInt8 × Conn N F R)) {req : Request N}
    (hreq : req.WellFormed w r) (hfuel : req.depth ≤ fuel) :
    dispatch r vm negotiate fuel ⟨lua, stack, w.request req ++ rest⟩ = do
      let (reply, lua') ← perform vm req lua
      let bytes ← writeReply r lua'.heap fuel stack reply
      return ⟨RPC_READY :: bytes, ⟨lua', [], rest⟩, 0⟩ := by
  have htrees : ∀ t ∈ req.trees, Transmits w r t ∧ t.size ≤ fuel :=
    fun t ht => ⟨hreq.trees t ht, Nat.le_trans (size_le_depth ht) hfuel⟩
  cases req with
  | call path args =>
      have hbytes : w.request (.call path args) ++ rest = RpcCmd.call.toByte ::
          (w.text path ++ (w.writeU32 args.length ++ (w.encodeAll args ++ rest))) := by
        rw [Link.request, List.cons_append, List.append_assoc, List.append_assoc]
      rw [hbytes, dispatch, readU8]
      simp only [ok_bind, cmd_ofByte_toByte]
      have hpath : path.length < r.room := hreq.path
      have hcount : args.length < 2 ^ 31 := hreq.count
      rw [readCmdCall_eq hnet hpath hcount htrees]
      simp only [bind_assoc, pure_bind]
  | get path =>
      rw [Link.request, List.cons_append, dispatch, readU8]
      simp only [ok_bind, cmd_ofByte_toByte]
      have hpath : path.length < r.room := hreq.path
      rw [readCmdGet_eq hnet hpath]
      simp only [bind_assoc, pure_bind]
  | newindex path k v =>
      rw [Link.request, List.cons_append, List.append_assoc, dispatch, readU8]
      simp only [ok_bind, cmd_ofByte_toByte]
      have hpath : path.length < r.room := hreq.path
      rw [readCmdNewindex_eq hnet hpath htrees]
      simp only [bind_assoc, pure_bind]

omit [LuaNumber N] [DecidableEq F] in
/-- The value at its index among some values above a stack. -/
theorem at_values (before later : List (Val N F)) (v : Val N F) (stack : Stack N F) :
    Stack.at ((before ++ v :: later).reverse ++ stack) (stack.length + 1 + before.length) =
      some v := by
  have hlist : (before ++ v :: later).reverse ++ stack =
      later.reverse ++ v :: (before.reverse ++ stack) := by
    simp
  have hlen : (later.reverse ++ v :: (before.reverse ++ stack)).length =
      stack.length + 1 + before.length + later.reverse.length := by
    simp only [List.length_append, List.length_reverse, List.length_cons]
    omega
  rw [hlist, Stack.at, if_neg (by omega), hlen, Nat.add_sub_cancel_left,
    List.getElem?_append_right (Nat.le_refl _), Nat.sub_self]
  rfl

/-- Values with trees are written one after the other. -/
theorem writeVariables_eq {heap : Heap N F} {vs : List (Val N F)} {ts : List (Tree N)}
    (h : List.Forall₂ (Sendable r heap) vs ts) (hsize : ∀ t ∈ ts, t.size ≤ fuel)
    (before : List (Val N F)) (stack : Stack N F) :
    writeVariables r heap fuel vs.length ((before ++ vs).reverse ++ stack)
      (stack.length + 1 + before.length) = .ok (r.encodeAll ts) := by
  induction h generalizing before with
  | nil => rfl
  | @cons v t vs ts hfirst _ ih =>
      obtain ⟨hunfold, hwrites⟩ := hfirst
      have hwrite := writeVariable_eq r _ heap t v _ _ fuel hunfold hwrites
        (at_values before vs v stack) (hsize t List.mem_cons_self)
      have hlater := ih (fun t' ht' => hsize t' (List.mem_cons_of_mem _ ht')) (before ++ [v])
      rw [List.append_assoc, List.length_append] at hlater
      rw [List.length_cons, writeVariables, hwrite]
      simp only [ok_bind]
      change (writeVariables r heap fuel vs.length ((before ++ v :: vs).reverse ++ stack)
        (stack.length + 1 + (before.length + 1)) >>= fun later => pure (r.encode t ++ later)) = _
      rw [show before ++ v :: vs = before ++ ([v] ++ vs) from rfl]
      rw [show before.length + 1 = before.length + [v].length from rfl, hlater]
      rfl

/-- A reply is written if there are bytes that convey it. -/
theorem writeReply_eq {heap : Heap N F} {reply : Reply N F} {bytes : List UInt8}
    (h : Conveys r heap reply bytes) (stack : Stack N F) :
    ∃ depth, ∀ fuel ≥ depth, writeReply r heap fuel stack reply = .ok bytes := by
  cases reply with
  | values vs =>
      obtain ⟨-, ts, hts, rfl⟩ := h
      refine ⟨(ts.map Tree.size).sum, fun fuel hfuel => ?_⟩
      have hsize : ∀ t ∈ ts, t.size ≤ fuel := fun t ht => Nat.le_trans (size_le_depth ht) hfuel
      have hwrite := writeVariables_eq hts hsize [] stack
      change (writeVariables r heap fuel vs.length (vs.reverse ++ stack) (stack.length + 1) >>=
        fun bytes => pure (0 :: (r.writeU32 vs.length ++ bytes))) = _
      rw [show vs.reverse ++ stack = ([] ++ vs).reverse ++ stack from rfl]
      rw [show stack.length + 1 = stack.length + 1 + ([] : List (Val N F)).length from rfl, hwrite,
        hts.length_eq]
      rfl
  | error code message =>
      obtain ⟨hshort, rfl⟩ := h
      refine ⟨0, fun fuel _ => ?_⟩
      rw [writeReply, writeString_eq hshort, Link.writeError, Link.text, List.append_assoc]
  | value v =>
      obtain ⟨t, ⟨hunfold, hwrites⟩, rfl⟩ := h
      refine ⟨t.size, fun fuel hfuel => ?_⟩
      rw [writeReply, writeVariable_eq r _ heap t v _ _ fuel hunfold hwrites
        (Stack.at_top v stack) hfuel]
      rfl
  | done =>
      obtain rfl : bytes = [0] := h
      exact ⟨0, fun _ _ => rfl⟩

/-- An interpreter whose global `f` is a function that returns its arguments. -/
def smallLua : Lua Nat Unit Unit :=
  ⟨[⟨[(.string [102], .function ())], by decide, by decide, by decide⟩], ()⟩

end LuaRpc
