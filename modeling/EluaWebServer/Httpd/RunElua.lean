import EluaWebServer.Httpd.Params

/-!
# Running a script for a request

`http_run_elua` with all that it does to the stack of Lua: a new state is set up or
the old one is used again, the parameters are put into `reqdata`, and the script
is run.  There is memory for what Lua allocates.
-/

namespace Httpd.Params

/-- `sizeof( s->http_params )`. -/
def HTTP_PARAMS_SIZE : Nat := 30

/-- `http_params`. -/
abbrev HttpParams := { b : List UInt8 // b.length = HTTP_PARAMS_SIZE }

/-- What is used of a `struct httpd_state`; the first byte of `write_buffer` comes
right after `http_params`. -/
structure HttpdState where
  newPhtPage : Bool
  L : Option Lua
  httpParams : HttpParams
  writeBuffer : UInt8

/-- Whether a script can be loaded, and what running it does: whether there is no
error, and the tables and `reqdata` afterwards. -/
structure Script where
  loads : Bool
  run : (Nat → Table) → Value → Bool × (Nat → Table) × Value

/-- The value at an index from the base. -/
def Lua.at (L : Lua) (idx : Nat) : Option Value := L.stack.reverse[idx]?

/-- `lua_rawgeti`. -/
def Lua.rawgeti (L : Lua) (idx n : Nat) : Except Fault Lua :=
  match L.at idx with
  | some (.table ref) => .ok (L.push (L.heap ref (.number n)))
  | _ => .error .undefined

/-- `lua_rawseti`. -/
def Lua.rawseti (L : Lua) (idx n : Nat) : Except Fault Lua :=
  match L.stack, L.at idx with
  | v :: rest, some (.table ref) =>
      .ok { L with stack := rest, heap := setAt L.heap ref (.number n) v }
  | _, _ => .error .undefined

/-- `lua_setfield` of `reqdata` in the table of globals. -/
def Lua.setReqdata (L : Lua) : Except Fault Lua :=
  match L.stack with
  | v :: rest =>
      .ok { L with stack := rest, reqdata := v, underflow := L.underflow || decide (L.gettop < 1) }
  | [] => .error .undefined

/-- `lua_open` and `luaL_openlibs`. -/
def luaOpen : Lua := ⟨[.nil], fun _ _ => .nil, .nil, false⟩

/-- A new state. -/
def freshState : Except Fault Lua := do
  let L ← (luaOpen.push (.table 0)).setReqdata
  let L ← L.pop 1
  return L.push L.reqdata

/-- The state that is used again, if there is one. -/
def HttpdState.reused (s : HttpdState) : Option Lua :=
  if s.newPhtPage then none else s.L

/-- The state of the request. -/
def openState (s : HttpdState) : Except Fault Lua :=
  match s.reused with
  | some L => .ok { L with underflow := false }
  | none => freshState

/-- `for (i = 2; i < c; i++)`, for the turns from `i` on. -/
def shiftLoop (tableIdx : Nat) : Nat → Nat → Lua → Except Fault Lua
  | 0, _, L => .ok L
  | turns + 1, i, L => do
      let L ← L.rawgeti tableIdx i
      let L ← L.rawseti tableIdx (i - 1)
      shiftLoop tableIdx turns (i + 1) L

section

variable (objlen : Table → Nat)

/-- `reqdata` is pushed, and if it has elements, the first one is pushed and
others are shifted. -/
def pushReqdata (L : Lua) : Except Fault Lua := do
  let L := L.push L.reqdata
  let tableIdx := L.stack.length - 1
  match L.at tableIdx with
  | some (.table ref) =>
      let c := objlen (L.heap ref)
      if 0 < c then
        let L ← L.rawgeti tableIdx 1
        shiftLoop tableIdx (c - 2) 2 L
      else return L
  | _ => .error .luaError

/-- The parameters: how many bytes the loop goes over, and the state. -/
def parseParams (s : HttpdState) (L : Lua) : Except Fault (Nat × Lua) :=
  if s.httpParams.1.headD 0 ≠ 0 then do
    let r ← scan s.writeBuffer s.httpParams.1 ⟨0, [], false, L⟩
    let L ← r.lua.pop 1
    return (r.read, L)
  else return (0, L)

/-- `luaL_loadbuffer`, `lua_pcall` and the removal of an error message. -/
def runScript (script : Script) (L : Lua) : Except Fault (Bool × Lua) :=
  if script.loads then
    -- the function is pushed, and removed by the call
    let (done, heap, reqdata) := script.run L.heap L.reqdata
    let L := { L with heap := heap, reqdata := reqdata }
    if done then .ok (false, L)
    else ((L.push (.other 0)).pop 1).map fun L => (true, L)
  else ((L.push (.other 0)).pop 1).map fun L => (true, L)

/-- `http_run_elua` up to where the script is loaded. -/
def parseStep (s : HttpdState) : Except Fault (Nat × Lua) := do
  let L ← openState s
  let L ← pushReqdata objlen L
  parseParams s L

/-- `http_run_elua`. -/
def httpRunElua (script : Script) (s : HttpdState) : Except Fault (Bool × HttpdState) := do
  let (_, L) ← parseStep objlen s
  let (error, L) ← runScript script L
  return (error, { s with
    newPhtPage := s.newPhtPage && s.L.isNone
    L := some L })

/-- How many values are on the stack before the call. -/
def HttpdState.height (s : HttpdState) : Int :=
  match s.reused with
  | some L => L.gettop
  | none => 0

/-- The call ends with as many values on the stack as before, and nothing has
been removed that was not there. -/
def StackNeutral (script : Script) (s : HttpdState) : Prop :=
  ∃ error s' L, httpRunElua objlen script s = .ok (error, s') ∧ s'.L = some L ∧
    L.gettop = s.height ∧ L.underflow = false

end

/-! ## What the parts do to the stack -/

variable {L L' : Lua} {s : HttpdState} {objlen : Table → Nat}

theorem ok_bind {α β : Type} (a : α) (f : α → Except Fault β) : (Except.ok a >>= f) = f a := rfl

theorem exists_of_bind_ok {α β : Type} {x : Except Fault α} {f : α → Except Fault β} {b : β}
    (h : (x >>= f) = .ok b) : ∃ a, x = .ok a ∧ f a = .ok b := by
  cases x with
  | error e => cases h
  | ok a => exact ⟨a, rfl, h⟩

theorem pop_one (v : Value) (hne : L.stack ≠ []) : (L.push v).pop 1 = .ok L := by
  have hlen := List.length_pos_of_ne_nil hne
  have hpop : (1 : Nat) ≤ (L.push v).stack.length := Nat.succ_le_succ (Nat.zero_le _)
  have hnot : ¬ (L.push v).gettop < (1 : Nat) := by
    rw [Lua.gettop, Lua.push, List.length_cons]
    omega
  rw [Lua.pop, if_pos hpop, decide_eq_false hnot, Bool.or_false]
  rfl

/-- A pop that is done removes that many values. -/
theorem pop_ok {n : Nat} (h : L.pop n = .ok L') :
    L'.stack.length + n = L.stack.length ∧ (L'.underflow = false → L.underflow = false) := by
  rw [Lua.pop] at h
  split at h
  · rename_i hn
    obtain rfl := Except.ok.inj h
    refine ⟨by rw [List.length_drop]; omega, fun hunder => ?_⟩
    exact (Bool.or_eq_false_iff.mp hunder).1
  · cases h

theorem settable_ok (h : L.settable = .ok L') :
    L.stack.length = L'.stack.length + 2 ∧ L'.underflow = L.underflow := by
  rw [Lua.settable] at h
  split at h
  · rename_i hstack
    obtain rfl := Except.ok.inj h
    exact ⟨by rw [hstack]; rfl, rfl⟩
  · cases h
  · cases h

/-- The loop takes nothing from the stack but the key that it has pushed. -/
theorem scan_height {after : UInt8} {bs : List UInt8} {r r' : Scan} (h : scan after bs r = .ok r') :
    r.lua.stack.length ≤ r'.lua.stack.length + (if r.pair then 1 else 0) ∧
      r'.lua.underflow = r.lua.underflow := by
  induction bs generalizing r with
  | nil =>
      obtain rfl := Except.ok.inj h
      exact ⟨Nat.le_add_right _ _, rfl⟩
  | cons b bs ih =>
      rw [scan] at h
      split at h
      swap
      · cases h
      split at h
      · obtain ⟨hlen, hunder⟩ := ih h
        refine ⟨?_, hunder⟩
        rw [Lua.push, List.length_cons] at hlen
        dsimp only at hlen
        rw [if_pos rfl] at hlen
        omega
      split at h
      · rename_i hzero
        obtain ⟨lua, hset, rfl⟩ : ∃ lua, (r.lua.push (.string (CString.text r.str))).settable = .ok lua ∧
            (⟨r.read + 1, r.str, true, lua⟩ : Scan) = r' := by
          cases hset : (r.lua.push (.string (CString.text r.str))).settable with
          | error e => rw [hset] at h; cases h
          | ok lua => rw [hset] at h; exact ⟨lua, rfl, Except.ok.inj h⟩
        obtain ⟨hlen, hunder⟩ := settable_ok hset
        rw [Lua.push, List.length_cons] at hlen
        rw [if_pos hzero.2]
        exact ⟨by dsimp only; omega, hunder⟩
      split at h
      · rename_i hamp
        obtain ⟨lua, hset, hrest⟩ := exists_of_bind_ok h
        obtain ⟨hlen, hunder⟩ := settable_ok hset
        obtain ⟨hlen', hunder'⟩ := ih hrest
        rw [Lua.push, List.length_cons] at hlen
        dsimp only at hlen' hunder'
        rw [if_neg Bool.false_ne_true] at hlen'
        rw [if_pos hamp.2]
        exact ⟨by omega, hunder'.trans hunder⟩
      · exact ih (r := ⟨r.read + 1, r.str ++ [unplus b], r.pair, r.lua⟩) h

theorem rawgeti_ok {idx n : Nat} (h : L.rawgeti idx n = .ok L') :
    L'.stack.length = L.stack.length + 1 ∧ L'.underflow = L.underflow := by
  rw [Lua.rawgeti] at h
  split at h
  · obtain rfl := Except.ok.inj h
    exact ⟨rfl, rfl⟩
  · cases h

theorem rawseti_ok {idx n : Nat} (h : L.rawseti idx n = .ok L') :
    L.stack.length = L'.stack.length + 1 ∧ L'.underflow = L.underflow := by
  rw [Lua.rawseti] at h
  split at h
  · rename_i hstack _
    obtain rfl := Except.ok.inj h
    exact ⟨by rw [hstack]; rfl, rfl⟩
  · cases h

theorem shiftLoop_ok {idx turns i : Nat} (h : shiftLoop idx turns i L = .ok L') :
    L'.stack.length = L.stack.length ∧ L'.underflow = L.underflow := by
  induction turns generalizing i L with
  | zero =>
      obtain rfl := Except.ok.inj h
      exact ⟨rfl, rfl⟩
  | succ turns ih =>
      obtain ⟨L₁, hget, hrest⟩ := exists_of_bind_ok h
      obtain ⟨L₂, hset, hrest⟩ := exists_of_bind_ok hrest
      have h₁ := rawgeti_ok hget
      have h₂ := rawseti_ok hset
      have h₃ := ih hrest
      exact ⟨by omega, h₃.2.trans (h₂.2.trans h₁.2)⟩

/-- What is on the stack at the top. -/
theorem at_top (L : Lua) (v : Value) : (L.push v).at ((L.push v).stack.length - 1) = some v := by
  rw [Lua.at, Lua.push, List.reverse_cons, List.length_cons, Nat.add_sub_cancel,
    ← List.length_reverse, List.getElem?_concat_length]

/-- `reqdata` is pushed, and one more value if it has elements. -/
theorem pushReqdata_ok (h : pushReqdata objlen L = .ok L') :
    ∃ ref, L.reqdata = .table ref ∧ L'.underflow = L.underflow ∧
      (if 0 < objlen (L.heap ref) then L'.stack.length = L.stack.length + 2
        else L' = L.push L.reqdata) := by
  unfold pushReqdata at h
  dsimp only at h
  rw [at_top] at h
  cases hreq : L.reqdata with
  | table ref =>
      rw [hreq] at h
      refine ⟨ref, rfl, ?_⟩
      dsimp only at h
      change (if 0 < objlen (L.heap ref) then _ else _) = _ at h
      split at h
      · rename_i hpos
        obtain ⟨L₁, hget, hshift⟩ := exists_of_bind_ok h
        have h₁ := rawgeti_ok hget
        have h₂ := shiftLoop_ok hshift
        refine ⟨h₂.2.trans h₁.2, ?_⟩
        rw [if_pos hpos, h₂.1, h₁.1]
        rfl
      · rename_i hzero
        obtain rfl := Except.ok.inj h
        exact ⟨rfl, by rw [if_neg hzero]⟩
  | _ =>
      rw [hreq] at h
      cases h

theorem pushReqdata_eq {ref : Nat} (hreq : L.reqdata = .table ref)
    (hlen : objlen (L.heap ref) = 0) : pushReqdata objlen L = .ok (L.push (.table ref)) := by
  have hzero : ¬ 0 < objlen ((L.push (.table ref)).heap ref) := by
    rw [show (L.push (.table ref)).heap = L.heap from rfl, hlen]
    exact Nat.lt_irrefl 0
  unfold pushReqdata
  dsimp only
  rw [at_top, hreq]
  exact if_neg hzero

theorem runScript_ok {script : Script} {error : Bool} (h : runScript script L = .ok (error, L')) :
    L'.stack.length = L.stack.length ∧ (L'.underflow = false → L.underflow = false) := by
  have hmessage : ∀ L₁ : Lua, ((L₁.push (.other 0)).pop 1).map (fun L => (true, L)) = .ok (error, L') →
      L'.stack.length = L₁.stack.length ∧ (L'.underflow = false → L₁.underflow = false) := by
    intro L₁ hmap
    cases hpop : (L₁.push (.other 0)).pop 1 with
    | error e => rw [hpop] at hmap; cases hmap
    | ok L₂ =>
        rw [hpop] at hmap
        obtain ⟨-, rfl⟩ := Prod.mk.inj (Except.ok.inj hmap)
        have hlen := pop_ok hpop
        rw [Lua.push, List.length_cons] at hlen
        exact ⟨by omega, hlen.2⟩
  unfold runScript at h
  dsimp only at h
  split at h
  · split at h
    · obtain ⟨-, rfl⟩ := Prod.mk.inj (Except.ok.inj h)
      exact ⟨rfl, id⟩
    · have hsame := hmessage _ h
      exact hsame
  · exact hmessage _ h

theorem runScript_total (script : Script) (hne : L.stack ≠ []) :
    ∃ error L', runScript script L = .ok (error, L') ∧ L'.stack = L.stack ∧
      L'.underflow = L.underflow := by
  unfold runScript
  dsimp only
  split
  · split
    · exact ⟨_, _, rfl, rfl, rfl⟩
    · rw [pop_one _ (by exact hne)]
      exact ⟨_, _, rfl, rfl, rfl⟩
  · rw [pop_one _ hne]
    exact ⟨_, _, rfl, rfl, rfl⟩

/-! ## The whole call -/

/-- In a new state the table is removed when it is not there. -/
theorem freshState_eq :
    freshState = .ok ⟨[.table 0], fun _ _ => .nil, .table 0, true⟩ := rfl

/-- Once something has been removed that is not there, it stays so. -/
theorem parseParams_ok {n : Nat} (h : parseParams s L = .ok (n, L')) :
    L'.underflow = false → L.underflow = false := by
  unfold parseParams at h
  split at h
  · obtain ⟨r, hscan, hrest⟩ := exists_of_bind_ok h
    obtain ⟨L₁, hpop, hrest⟩ := exists_of_bind_ok hrest
    obtain ⟨-, rfl⟩ := Prod.mk.inj (Except.ok.inj hrest)
    intro hunder
    exact (scan_height hscan).2 ▸ (pop_ok hpop).2 hunder
  · obtain ⟨-, rfl⟩ := Prod.mk.inj (Except.ok.inj h)
    exact id

/-- The parts of a call that comes to an end. -/
theorem exists_of_httpRunElua {script : Script} {error : Bool} {s' : HttpdState}
    (h : httpRunElua objlen script s = .ok (error, s')) :
    ∃ L₀ L₁ n L₂ L₃, openState s = .ok L₀ ∧ pushReqdata objlen L₀ = .ok L₁ ∧
      parseParams s L₁ = .ok (n, L₂) ∧ runScript script L₂ = .ok (error, L₃) ∧ s'.L = some L₃ := by
  obtain ⟨⟨n, L₂⟩, hstep, h⟩ := exists_of_bind_ok h
  obtain ⟨L₀, hopen, hstep⟩ := exists_of_bind_ok hstep
  obtain ⟨L₁, hpush, hparse⟩ := exists_of_bind_ok hstep
  obtain ⟨⟨error', L₃⟩, hrun, h⟩ := exists_of_bind_ok h
  obtain ⟨rfl, rfl⟩ := Prod.mk.inj (Except.ok.inj h)
  exact ⟨L₀, L₁, n, L₂, L₃, hopen, hpush, hparse, hrun, rfl⟩

/-- There are parameters, and they are fields. -/
def HaveFields (s : HttpdState) : Prop :=
  s.httpParams.1.headD 0 ≠ 0 ∧ ∃ fs n, Fields s.writeBuffer s.httpParams.1 fs n

/-- What the parameters do to a stack with `reqdata` on it. -/
theorem parseParams_height {n ref : Nat} {below : List Value}
    (hstack : L.stack = .table ref :: below) (h : parseParams s L = .ok (n, L'))
    (hlen : L'.stack.length = below.length) : HaveFields s := by
  unfold parseParams at h
  split at h
  · rename_i hparams
    obtain ⟨r, hscan, hrest⟩ := exists_of_bind_ok h
    obtain ⟨L₁, hpop, hrest⟩ := exists_of_bind_ok hrest
    obtain ⟨-, rfl⟩ := Prod.mk.inj (Except.ok.inj hrest)
    have hone := (pop_ok hpop).1
    rcases fields_of_scan hstack hscan with hfields | ⟨hlonger, -⟩
    · exact ⟨hparams, hfields⟩
    · rw [hstack, List.length_cons] at hlonger
      omega
  · obtain ⟨-, rfl⟩ := Prod.mk.inj (Except.ok.inj h)
    rw [hstack, List.length_cons] at hlen
    omega

/-- A longer stack does not get as short as it should be. -/
theorem parseParams_longer {n : Nat} (h : parseParams s L = .ok (n, L')) :
    L.stack.length ≤ L'.stack.length + 1 := by
  unfold parseParams at h
  split at h
  · obtain ⟨r, hscan, hrest⟩ := exists_of_bind_ok h
    obtain ⟨L₁, hpop, hrest⟩ := exists_of_bind_ok hrest
    obtain ⟨-, rfl⟩ := Prod.mk.inj (Except.ok.inj hrest)
    have hone := (pop_ok hpop).1
    have hheight := (scan_height hscan).1
    rw [if_neg Bool.false_ne_true] at hheight
    dsimp only at hheight
    omega
  · obtain ⟨-, rfl⟩ := Prod.mk.inj (Except.ok.inj h)
    exact Nat.le_succ _

/-- With fields the table is removed again. -/
theorem parseParams_eq {ref : Nat} (h : HaveFields s) (hne : L.stack ≠ []) :
    ∃ n L', parseParams s (L.push (.table ref)) = .ok (n, L') ∧ L'.stack = L.stack ∧
      L'.underflow = L.underflow := by
  obtain ⟨hparams, fs, n, hfields⟩ := h
  obtain ⟨str, pair, hscan⟩ := @scan_fields _ _ _ _ hfields 0 (L.push (.table ref)) ref L.stack rfl
  have hpop := pop_one (L := { L with heap := assign L.heap ref fs }) (.table ref) hne
  refine ⟨0 + n, { L with heap := assign L.heap ref fs }, ?_, rfl, rfl⟩
  rw [parseParams, if_pos hparams, hscan, ok_bind]
  change (({ L with heap := assign L.heap ref fs } : Lua).push (.table ref)).pop 1 >>=
    (fun L => pure (0 + n, L)) = _
  rw [hpop, ok_bind]
  rfl

/-- **The stack of Lua.**  A request leaves the stack as high as it was, without
removing what is not there, if and only if the state is used again, `reqdata`
is a table without elements, and there are parameters that are fields. -/
theorem stackNeutral_iff (objlen : Table → Nat) (script : Script) {s : HttpdState}
    (hbase : ∀ L, s.L = some L → L.stack ≠ []) :
    StackNeutral objlen script s ↔
      ∃ L ref, s.reused = some L ∧ L.reqdata = .table ref ∧ objlen (L.heap ref) = 0 ∧
        HaveFields s := by
  constructor
  · rintro ⟨error, s', L₄, hrun, hL₄, hheight, hunder⟩
    obtain ⟨L₀, L₁, n, L₂, L₃, hopen, hpush, hparse, hscript, hL₃⟩ := exists_of_httpRunElua hrun
    obtain rfl := Option.some.inj (hL₃.symm.trans hL₄)
    obtain ⟨ref, hreq, hunder₁, hpushed⟩ := pushReqdata_ok hpush
    have hscripted := runScript_ok hscript
    have hfalse : L₀.underflow = false :=
      hunder₁ ▸ parseParams_ok hparse (hscripted.2 hunder)
    unfold openState at hopen
    unfold HttpdState.height at hheight
    cases hreused : s.reused with
    | none =>
        rw [hreused] at hopen
        obtain rfl := Except.ok.inj (freshState_eq.symm.trans hopen)
        cases hfalse
    | some L =>
        rw [hreused] at hopen hheight
        obtain rfl := Except.ok.inj hopen
        have hsame : (L₃.stack.length : Int) - 1 = (L.stack.length : Int) - 1 := hheight
        refine ⟨L, ref, rfl, hreq, ?_⟩
        split at hpushed
        · have hlonger := parseParams_longer hparse
          dsimp only at hpushed
          omega
        · rename_i hzero
          rw [hpushed, hreq] at hparse
          refine ⟨Nat.eq_zero_of_not_pos hzero, parseParams_height rfl hparse ?_⟩
          dsimp only
          omega
  · rintro ⟨L, ref, hreused, hreq, hlen, hfields⟩
    have hne : L.stack ≠ [] := by
      apply hbase
      rw [HttpdState.reused] at hreused
      split at hreused
      · cases hreused
      · exact hreused
    obtain ⟨n, L₂, hparse, hstack₂, hunder₂⟩ :=
      @parseParams_eq { L with underflow := false } s ref hfields hne
    obtain ⟨error, L₃, hscript, hstack₃, hunder₃⟩ :=
      runScript_total script (show L₂.stack ≠ [] by rw [hstack₂]; exact hne)
    have hopen : openState s = .ok { L with underflow := false } := by
      unfold openState
      rw [hreused]
    have hpush := @pushReqdata_eq { L with underflow := false } objlen ref hreq hlen
    refine ⟨error, { s with newPhtPage := s.newPhtPage && s.L.isNone, L := some L₃ }, L₃, ?_, rfl,
      ?_, hunder₃.trans hunder₂⟩
    · unfold httpRunElua parseStep
      rw [hopen, ok_bind, hpush, ok_bind, hparse, ok_bind]
      dsimp only
      rw [hscript, ok_bind]
      rfl
    · unfold HttpdState.height
      rw [hreused, Lua.gettop, hstack₃, hstack₂]
      rfl

/-- A state with an empty `reqdata`, and nothing on the stack. -/
def idleState : Lua := ⟨[.nil], fun _ _ => .nil, .table 0, false⟩

/-- A script that does nothing. -/
def emptyScript : Script := ⟨true, fun heap reqdata => (true, heap, reqdata)⟩

/-- A connection that goes on with a state, with some parameters. -/
def continued (L : Lua) (params : List UInt8) (h : params.length ≤ HTTP_PARAMS_SIZE) : HttpdState :=
  ⟨false, some L, ⟨params ++ List.replicate (HTTP_PARAMS_SIZE - params.length) 0, by
    rw [List.length_append, List.length_replicate]
    omega⟩, 0⟩

/-- The parameters `a=1`. -/
theorem stackNeutral_one_field :
    StackNeutral (fun _ => 0) emptyScript (continued idleState [97, 61, 49] (by decide)) := by
  have hbase : ∀ L, (continued idleState [97, 61, 49] (by decide)).L = some L → L.stack ≠ [] := by
    intro L hL
    obtain rfl := Option.some.inj hL
    exact List.cons_ne_nil _ _
  refine (stackNeutral_iff (fun _ => 0) emptyScript hbase).mpr
    ⟨idleState, 0, rfl, rfl, rfl, by decide, [([97], [49])], 4, ?_⟩
  exact @Fields.last 0 [97] [49] (List.replicate 26 0) ⟨nofun, nofun, trivial⟩ (by decide)
    (List.cons_ne_nil _ _) ⟨nofun, fun _ => by decide, trivial⟩ (by decide)

/-- Without parameters the table stays on the stack. -/
theorem not_stackNeutral_no_parameters :
    ¬ StackNeutral (fun _ => 0) emptyScript (continued idleState [] (by decide)) := by
  rintro ⟨error, s', L, hrun, hL, hheight, -⟩
  have hcall : httpRunElua (fun _ => 0) emptyScript (continued idleState [] (by decide)) =
      .ok (false, { continued idleState [] (by decide) with
        L := some ⟨[.table 0, .nil], fun _ _ => .nil, .table 0, false⟩ }) := rfl
  rw [hcall] at hrun
  obtain ⟨-, rfl⟩ := Prod.mk.inj (Except.ok.inj hrun)
  obtain rfl := Option.some.inj hL
  exact absurd hheight (by decide)

end Httpd.Params
