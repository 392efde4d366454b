import EluaWebServer.Tcp.Packet

/-!
# The options of a segment

The loop that looks for the maximum segment size finds it in every list of options that is well
formed.  In others the length of an option can lead back to a position that the loop has already
been at; then `uip_process` does not return.
-/

namespace Tcp

open TcpState

variable {n : Nat} {c : Config}

/-! ## Lists of options -/

inductive TcpOption where
  | noop
  | mss (v : UInt16)
  | other (kind : UInt8) (data : List UInt8)

/-- The option as it stands in the header. -/
def TcpOption.bytes : TcpOption → List UInt8
  | .noop => [1]
  | .mss v => [2, 4] ++ netBytes v
  | .other kind data => kind :: UInt8.ofNat (data.length + 2) :: data

/-- Options that are not one of the three that the loop knows. -/
def TcpOption.Legal : TcpOption → Prop
  | .other kind data => kind ≠ 0 ∧ kind ≠ 1 ∧ ¬ (kind = 2 ∧ data.length = 2)
  | _ => True

/-- The first option for the maximum segment size. -/
def firstMss : List TcpOption → Option UInt16
  | [] => none
  | .mss v :: _ => some v
  | _ :: os => firstMss os

/-- How the loop has to end. -/
def scanned (os : List TcpOption) : OptScan := ((firstMss os).map .found).getD .ended

/-- What fills the header after the options: nothing, or the end of the list and anything. -/
def Padding (pad : List UInt8) : Prop := pad = [] ∨ pad.head? = some 0

theorem optByte_append (pre post : List UInt8) (k : Nat) :
    optByte (pre ++ post) (pre.length + k) = optByte post k := by
  rw [optByte, optByte, List.getD_append_right _ _ _ _ (Nat.le_add_right _ _),
    Nat.add_sub_cancel_left]

section

variable {tcpoffset : Nat} {pre post : List UInt8}

/-- The loop at a position of the header. -/
theorem optStep_at (hlimit : (tcpoffset - 5) * 4 ≤ 40) (h : pre.length < (tcpoffset - 5) * 4) :
    optStep tcpoffset (pre ++ post) (.at (UInt8.ofNat pre.length)) =
      if optByte post 0 = 0 then .ended
      else if optByte post 0 = 1 then .at (UInt8.ofNat (pre.length + 1))
      else if optByte post 0 = 2 ∧ optByte post 1 = 4 then
        .found ((optByte post 2).toUInt16 <<< 8 ||| (optByte post 3).toUInt16)
      else if optByte post 1 = 0 then .ended
      else .at (UInt8.ofNat (pre.length + (optByte post 1).toNat)) := by
  have hc : (UInt8.ofNat pre.length).toNat = pre.length := by
    rw [UInt8.toNat_ofNat', Nat.mod_eq_of_lt (by omega)]
  have h0 := optByte_append pre post 0
  have h1 := optByte_append pre post 1
  have h2 := optByte_append pre post 2
  have h3 := optByte_append pre post 3
  rw [Nat.add_zero] at h0
  rw [optStep, hc, if_pos h, Nat.add_comm 1, Nat.add_comm 2, Nat.add_comm 3, h0, h1, h2, h3,
    UInt8.ofNat_add, UInt8.ofNat_add, UInt8.ofNat_toNat]
  rfl

theorem optStep_end (hlimit : (tcpoffset - 5) * 4 ≤ 40) (h : pre.length = (tcpoffset - 5) * 4)
    (buf : List UInt8) : optStep tcpoffset buf (.at (UInt8.ofNat pre.length)) = .ended := by
  have hc : (UInt8.ofNat pre.length).toNat = pre.length := by
    rw [UInt8.toNat_ofNat', Nat.mod_eq_of_lt (by omega)]
  rw [optStep, hc, if_neg (by omega)]

theorem or_netBytes (v : UInt16) :
    ((v >>> 8) &&& 0xFF).toUInt8.toUInt16 <<< 8 ||| (v &&& 0xFF).toUInt8.toUInt16 = v := by
  rw [UInt16.or_comm]
  exact Word.ofBytes16_bytes16 v

/-- An option is passed, or it is the one that is looked for. -/
theorem optStep_option (hlimit : (tcpoffset - 5) * 4 ≤ 40) {o : TcpOption} (hlegal : o.Legal)
    (hfits : pre.length + o.bytes.length ≤ (tcpoffset - 5) * 4) (post : List UInt8) :
    optStep tcpoffset (pre ++ (o.bytes ++ post)) (.at (UInt8.ofNat pre.length)) =
      match o with
      | .mss v => .found v
      | o => .at (UInt8.ofNat (pre ++ o.bytes).length) := by
  cases o with
  | noop =>
      rw [optStep_at hlimit (by simp [TcpOption.bytes] at hfits; omega)]
      simp [TcpOption.bytes, optByte]
  | mss v =>
      rw [optStep_at hlimit (by simp [TcpOption.bytes] at hfits; omega)]
      exact congrArg OptScan.found (or_netBytes v)
  | other kind data =>
      obtain ⟨hend, hnoop, hmss⟩ := hlegal
      have hlen : (UInt8.ofNat (data.length + 2)).toNat = data.length + 2 := by
        rw [UInt8.toNat_ofNat', Nat.mod_eq_of_lt (by simp [TcpOption.bytes] at hfits; omega)]
      have hzero : UInt8.ofNat (data.length + 2) ≠ 0 := by
        intro h
        rw [h] at hlen
        exact absurd hlen (by simp)
      have hfour : ¬ (kind = 2 ∧ UInt8.ofNat (data.length + 2) = 4) := by
        rintro ⟨hkind, hdata⟩
        rw [hdata] at hlen
        exact hmss ⟨hkind, by simpa using hlen.symm⟩
      rw [optStep_at hlimit (by simp [TcpOption.bytes] at hfits; omega)]
      simp only [TcpOption.bytes, List.cons_append, optByte, List.getD_cons_zero,
        List.getD_cons_succ]
      rw [if_neg hend, if_neg hnoop, if_neg hfour, if_neg hzero, hlen]
      simp only [List.length_append, List.length_cons]

end

/-- **Well-formed options.**  The loop ends, with the first option for the maximum segment size. -/
theorem optLoop_options {tcpoffset : Nat} (hoffset : tcpoffset ≤ 15) {os : List TcpOption}
    (hlegal : ∀ o ∈ os, o.Legal) {pad : List UInt8} (hpad : Padding pad)
    (hlen : (os.flatMap TcpOption.bytes).length + pad.length = (tcpoffset - 5) * 4)
    (rest : List UInt8) :
    optLoop tcpoffset (os.flatMap TcpOption.bytes ++ (pad ++ rest)) 257 = some (scanned os) := by
  have hlimit : (tcpoffset - 5) * 4 ≤ 40 := by omega
  -- from any position, with the options that are left
  have hfrom : ∀ (os : List TcpOption) (pre : List UInt8) (rounds : Nat), (∀ o ∈ os, o.Legal) →
      pre.length + (os.flatMap TcpOption.bytes).length + pad.length = (tcpoffset - 5) * 4 →
      Loop.whileLoop OptScan.running
        (optStep tcpoffset (pre ++ (os.flatMap TcpOption.bytes ++ (pad ++ rest))))
        (os.length + rounds + 2) (.at (UInt8.ofNat pre.length)) = some (scanned os) := by
    intro os
    induction os with
    | nil =>
        intro pre rounds _ hlen
        have hstop : optStep tcpoffset (pre ++ ([] ++ (pad ++ rest))) (.at (UInt8.ofNat pre.length)) =
            .ended := by
          rcases hpad with rfl | hhead
          · exact optStep_end hlimit (by simpa using hlen) _
          · obtain ⟨pad, rfl⟩ : ∃ t, pad = 0 :: t := by
              cases pad with
              | nil => cases hhead
              | cons b t => exact ⟨t, by rw [Option.some.inj hhead]⟩
            rw [optStep_at hlimit (by simp at hlen; omega)]
            rfl
        rw [Loop.whileLoop_of_true rfl]
        exact (congrArg _ hstop).trans (Loop.whileLoop_of_false rfl (Nat.succ_pos _))
    | cons o os ih =>
        intro pre rounds hlegal hlen
        rw [List.forall_mem_cons] at hlegal
        rw [List.flatMap_cons, List.length_append] at hlen
        have hfits : pre.length + o.bytes.length ≤ (tcpoffset - 5) * 4 := by omega
        have hstep := optStep_option hlimit hlegal.1 hfits
          (os.flatMap TcpOption.bytes ++ (pad ++ rest))
        have hrounds : (o :: os).length + rounds + 2 = os.length + rounds + 2 + 1 := by
          rw [List.length_cons]
          omega
        rw [List.flatMap_cons, List.append_assoc, hrounds, Loop.whileLoop_of_true rfl, hstep]
        cases o with
        | mss v => exact Loop.whileLoop_of_false rfl (Nat.succ_pos _)
        | noop =>
            rw [← List.append_assoc pre]
            exact ih _ rounds hlegal.2 (by rw [List.length_append]; omega)
        | other kind data =>
            rw [← List.append_assoc pre]
            exact ih _ rounds hlegal.2 (by rw [List.length_append]; omega)
  have hcount : os.length ≤ (os.flatMap TcpOption.bytes).length := by
    have hmap : (os.map fun o => o.bytes.length).length = os.length := List.length_map _
    rw [List.length_flatMap, ← hmap]
    refine List.length_le_sum_of_one_le _ fun k hk => ?_
    obtain ⟨o, -, rfl⟩ := List.mem_map.mp hk
    cases o <;> simp [TcpOption.bytes]
  have hmain := hfrom os [] (255 - os.length) hlegal (by simpa using hlen)
  have hrounds : os.length + (255 - os.length) + 2 = 257 := by omega
  rwa [hrounds] at hmain

theorem optLoop_options_sample :
    optLoop 8 (([.noop, .mss 536, .other 3 [7]] : List TcpOption).flatMap TcpOption.bytes ++
      ([0, 0, 0, 0] ++ [65])) 257 = some (.found 536) :=
  optLoop_options (by decide) (by simp [TcpOption.Legal]) (.inr rfl) (by decide) [65]

/-! ## Options that lead back -/

/-- Where the loop is after a number of rounds. -/
def scan (tcpoffset : Nat) (buf : List UInt8) (k : Nat) : OptScan := (optStep tcpoffset buf)^[k] (.at 0)

/-- The loop comes to a position where it has been before. -/
def OptionsReturn (tcpoffset : Nat) (buf : List UInt8) : Prop :=
  ∃ j k, j < k ∧ scan tcpoffset buf j = scan tcpoffset buf k ∧ (scan tcpoffset buf k).running = true

/-- What has ended stays so. -/
theorem running_of_running_succ {tcpoffset : Nat} {buf : List UInt8} {s : OptScan}
    (h : (optStep tcpoffset buf s).running = true) : s.running = true := by
  cases s with
  | «at» c => rfl
  | found mss => exact h
  | ended => exact h

theorem running_of_le {tcpoffset : Nat} {buf : List UInt8} {i k : Nat} (hik : i ≤ k)
    (h : (scan tcpoffset buf k).running = true) : (scan tcpoffset buf i).running = true := by
  induction k with
  | zero => rwa [Nat.le_zero.mp hik]
  | succ k ih =>
      rcases Nat.le_succ_iff.mp hik with hle | rfl
      · rw [scan, Function.iterate_succ_apply'] at h
        exact ih hle (running_of_running_succ h)
      · exact h

/-- **The loop ends unless it comes back.**  It does not matter for how many rounds it is run, if
there are more than there are positions. -/
theorem optLoop_eq_none_iff {tcpoffset : Nat} {buf : List UInt8} :
    optLoop tcpoffset buf 257 = none ↔ OptionsReturn tcpoffset buf := by
  constructor
  · intro h
    let number : OptScan → Fin 256 := fun s =>
      s.casesOn (fun c => ⟨c.toNat, c.toNat_lt⟩) (fun _ => 0) 0
    obtain ⟨j, k, hjk, heq, hall⟩ := Loop.exists_return_of_none number (by
      intro s t hs ht heq
      cases s with
      | «at» a =>
          cases t with
          | «at» b => exact congrArg OptScan.at (UInt8.toNat_inj.mp (congrArg Fin.val heq))
          | found mss => cases ht
          | ended => cases ht
      | found mss => cases hs
      | ended => cases hs) h
    exact ⟨j, k, hjk, heq, hall k le_rfl⟩
  · rintro ⟨j, k, hjk, heq, hrun⟩
    exact Loop.whileLoop_none_of_return hjk heq (fun i hi => running_of_le hi.le hrun) 257

/-! ## Where options are read -/

/-- The segment opens a connection, or answers one that is being opened. -/
def readsOptions (c : Config) (w : World n) (seg : Segment) : Prop :=
  (c.hostaddr = (0, 0) ∨ seg.destipaddr = c.hostaddr) ∧ 5 < seg.tcpoffset ∧
    match demultiplex w.conns seg with
    | some i =>
        (w.conns i).tcpstate = SYN_SENT ∧ seg.flags = .SYNACK ∧ acknowledges (w.conns i) seg = true
    | none =>
        seg.flags = .SYN ∧ seg.destport ∈ w.listenports ∧
          (findUnused w.conns (List.finRange n) none).isSome = true

theorem parseOptions_eq_none_iff {seg : Segment} {buf : List UInt8} {conn : Conn} :
    parseOptions c seg buf conn = none ↔ 5 < seg.tcpoffset ∧ OptionsReturn seg.tcpoffset buf := by
  unfold parseOptions
  split
  next hlt => rw [Option.map_eq_none_iff, optLoop_eq_none_iff, and_iff_right hlt]
  next hlt => exact iff_of_false (by simp) fun h => hlt h.1

theorem synSent_eq_none_iff {conn : Conn} {acked : Bool} {seg : Segment} {buf : List UInt8}
    {calls : List Call} :
    synSent c conn acked seg buf calls = none ↔
      (acked = true ∧ seg.flags = .SYNACK) ∧ 5 < seg.tcpoffset ∧
        OptionsReturn seg.tcpoffset buf := by
  unfold synSent
  split
  next h =>
    rw [Option.map_eq_none_iff, parseOptions_eq_none_iff]
    rw [Bool.and_eq_true, decide_eq_true_eq] at h
    rw [and_iff_right h]
  next h =>
    rw [Bool.and_eq_true, decide_eq_true_eq] at h
    exact iff_of_false (by simp) fun h' => h h'.1

/-- Options are read only while a connection is being opened. -/
theorem found_eq_none_iff {conn : Conn} {seg : Segment} {buf : List UInt8} {calls : List Call} :
    found c conn seg buf calls = none ↔
      (conn.tcpstate = SYN_SENT ∧ seg.flags = .SYNACK ∧ acknowledges conn seg = true) ∧
        5 < seg.tcpoffset ∧ OptionsReturn seg.tcpoffset buf := by
  have hbyState : ∀ (conn' : Conn) (acked : Bool), conn'.tcpstate = conn.tcpstate →
      (byState c conn' acked seg buf calls = none ↔ conn.tcpstate = SYN_SENT ∧
        (acked = true ∧ seg.flags = .SYNACK) ∧ 5 < seg.tcpoffset ∧
          OptionsReturn seg.tcpoffset buf) := by
    intro conn' acked hstate
    unfold byState
    rw [hstate]
    cases hs : conn.tcpstate
    case SYN_SENT => rw [synSent_eq_none_iff, and_iff_right rfl]
    all_goals exact iff_of_false (by simp) fun h => by cases h.1
  unfold found
  split
  next hrst =>
    refine iff_of_false (by simp) fun h => ?_
    rw [h.1.2.1] at hrst
    cases hrst
  split
  next horder =>
    refine iff_of_false (by simp) fun h => ?_
    rw [outOfOrder, h.1.1, h.1.2.1] at horder
    simp at horder
  split
  next hack =>
    rw [hbyState _ _ (tcpstate_acked conn), hack]
    tauto
  next hack =>
    rw [hbyState _ _ rfl]
    tauto

theorem uipInput_eq_none_iff {w : World n} {seg : Segment} {calls : List Call} :
    uipInput c w seg calls = none ↔
      readsOptions c w seg ∧
        OptionsReturn seg.tcpoffset (seg.data ++ w.buf.drop seg.data.length) := by
  unfold uipInput readsOptions
  dsimp only
  split
  next hother => exact iff_of_false (by simp) fun h => h.1.1.elim hother.1 hother.2
  next hother =>
    have hhost : c.hostaddr = (0, 0) ∨ seg.destipaddr = c.hostaddr := by tauto
    rw [and_iff_right hhost]
    cases demultiplex w.conns seg with
    | some i =>
        dsimp only
        rw [Option.map_eq_none_iff, found_eq_none_iff]
        tauto
    | none =>
        dsimp only
        split
        next hlisten =>
          rw [and_iff_right hlisten.1, and_iff_right hlisten.2]
          cases findUnused w.conns (List.finRange n) none with
          | none => simp
          | some i =>
              dsimp only
              rw [Option.map_eq_none_iff, parseOptions_eq_none_iff]
              exact ⟨fun h => ⟨⟨h.1, rfl⟩, h.2⟩, fun h => ⟨h.1.1, h.2⟩⟩
        next hlisten => exact iff_of_false (by simp) fun h => hlisten ⟨h.1.2.1, h.1.2.2.1⟩

/-- **When `uip_process` does not return.**  A step of the system has a result, in every state, but
for a segment that opens a connection, or answers one that is being opened, with options that lead
back to a position where the loop has been before. -/
theorem step_eq_none_iff (hn : n < 27904) (w : World n) (a : Action n) :
    step c w a = none ↔
      ∃ seg calls, a = .input seg calls ∧ readsOptions c w seg ∧
        OptionsReturn seg.tcpoffset (seg.data ++ w.buf.drop seg.data.length) := by
  obtain ⟨port, hport, -, -⟩ := exists_unused_port hn w
  cases a with
  | input seg calls =>
      rw [step, Option.map_eq_none_iff]
      have hone : (∃ seg' calls', Action.input seg calls = Action.input (n := n) seg' calls' ∧
          readsOptions c w seg' ∧
            OptionsReturn seg'.tcpoffset (seg'.data ++ w.buf.drop seg'.data.length)) ↔
          readsOptions c w seg ∧
            OptionsReturn seg.tcpoffset (seg.data ++ w.buf.drop seg.data.length) := by
        constructor
        · rintro ⟨seg', calls', heq, h⟩
          cases heq
          exact h
        · exact fun h => ⟨seg, calls, rfl, h⟩
      rw [hone]
      exact uipInput_eq_none_iff
  | connect ripaddr rport => simp [step, outcome, uipConnect, hport]
  | connectSocket i ripaddr rport =>
      simp only [step, outcome, uipConnectSocket, hport]
      split <;> simp
  | periodic i forced calls => simp [step, outcome]
  | socket => simp [step, outcome]
  | listen port => simp [step, outcome]
  | unlisten port => simp [step, outcome]

/-- An option at the second position whose length leads back to the first. -/
def sampleReturning : Segment :=
  { sampleSyn with tcpoffset := 6, data := [1, 3, 255, 0] }

theorem step_eq_none_iff_sample :
    step sampleConfig (uipListen (uipInit 4 4 []) 80) (.input sampleReturning []) = none := by
  refine (step_eq_none_iff (by decide) _ _).mpr ⟨sampleReturning, [], rfl, ?_, ?_⟩
  · exact ⟨.inr rfl, by decide, rfl, by decide, rfl⟩
  · exact ⟨0, 2, by decide, by decide, by decide⟩

end Tcp
