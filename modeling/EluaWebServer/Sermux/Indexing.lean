import EluaWebServer.Lib.Transition
import EluaWebServer.Sermux.RoundTrip
import Mathlib.Data.List.Induction
import Mathlib.Data.FinEnum

/-!
# Which service port the mux uses

The mux accepts every service id of the protocol, and takes the index of `services` from it when
a data byte comes.  The index is inside exactly when no data byte comes under the id of a port
that was not opened; with fewer ports than ids some streams use an index behind the array.
-/

namespace Sermux

/-- A round of the main loop takes a byte of the transport, or one that is to be sent. -/
inductive MuxInput where
  | transport (c : UInt8)
  | service (service : MuxService) (c : UInt8)
  deriving DecidableEq, Repr

section

variable (cfg : MuxConfig) (m : Mux)

/-- A round of the main loop, `none` when it ends the program. -/
def muxRound : MuxInput → Option Mux
  | .transport c => (muxReceive cfg m c).toOption.map (·.1)
  | .service service c => some (muxSend cfg m service c).1

/-- `service_id_in - SERMUX_SERVICE_ID_FIRST - service_offset`. -/
def MuxConfig.servicesIndex (s : UInt8) : Int :=
  (s.toNat : Int) - SERMUX_SERVICE_ID_FIRST.toNat - cfg.serviceOffset

/-- The indexes of `services` that a round uses. -/
def roundIndexes : MuxInput → List Int
  | .transport c =>
      if needsEscape c then []
      else if m.gotEsc && !needsEscape (c ^^^ SERMUX_ESCAPE_XOR_MASK) then []
      else
        match m.serviceIdIn with
        | none => []
        | some s =>
            if cfg.rfsmux ∧ s = SERMUX_SERVICE_ID_FIRST then [] else [cfg.servicesIndex s]
  | .service _ _ => []

/-- The indexes that opening the service ports uses. -/
def MuxConfig.setupIndexes : List Int := (List.range cfg.vportNum).map Int.ofNat

/-- An index of an element of `services`. -/
def MuxConfig.Inside (i : Int) : Prop := 0 ≤ i ∧ i < cfg.vportNum

/-- Every index that the program uses on the inputs. -/
def IndexesInside (inputs : List MuxInput) : Prop :=
  (∀ i ∈ cfg.setupIndexes, cfg.Inside i) ∧
    ∀ before input m, before ++ [input] <+: inputs →
      Transition.run (muxRound cfg) Mux.init before = some m →
      ∀ i ∈ roundIndexes cfg m input, cfg.Inside i

/-! ## What the bytes say -/

/-- The ids that are in use: that of the RFS server and those of the ports. -/
def MuxConfig.Opened (s : UInt8) : Prop :=
  s.toNat < SERMUX_SERVICE_ID_FIRST.toNat + cfg.serviceOffset + cfg.vportNum

end

/-- The last service id on the transport. -/
def lastServiceId (inputs : List MuxInput) : Option UInt8 :=
  inputs.foldl (fun last input =>
    match input with
    | .transport c =>
        if SERMUX_SERVICE_ID_FIRST ≤ c && c ≤ SERMUX_SERVICE_ID_LAST then some c else last
    | .service _ _ => last) none

/-- An escape character has come since the last data byte. -/
def escapePending (inputs : List MuxInput) : Bool :=
  inputs.foldl (fun pending input =>
    match input with
    | .transport c => if needsEscape c then pending || c = SERMUX_ESCAPE_CHAR else false
    | .service _ _ => pending) false

/-- A byte was sent since the last request to send again. -/
def canSendAgain (inputs : List MuxInput) : Bool :=
  inputs.foldl (fun sent input =>
    match input with
    | .transport c => sent && c ≠ SERMUX_FORCE_SID_CHAR
    | .service _ _ => true) false

/-- The protocol errors, with which the program ends. -/
def ProtocolError (before : List MuxInput) (c : UInt8) : Prop :=
  c = SERMUX_FORCE_SID_CHAR ∧ canSendAgain before = false ∨
    needsEscape c = false ∧ escapePending before = true ∧
      needsEscape (c ^^^ SERMUX_ESCAPE_XOR_MASK) = false

instance (before : List MuxInput) (c : UInt8) : Decidable (ProtocolError before c) :=
  inferInstanceAs (Decidable (_ ∨ _))

def NoProtocolError (inputs : List MuxInput) : Prop :=
  ∀ before c, before ++ [.transport c] <+: inputs → ¬ ProtocolError before c

/-- Up to the first protocol error, every data byte that comes after a service id comes after
one that is in use. -/
def OpenedOnly (cfg : MuxConfig) (inputs : List MuxInput) : Prop :=
  ∀ before c, before ++ [.transport c] <+: inputs → NoProtocolError (before ++ [.transport c]) →
    needsEscape c = false → ∀ s ∈ lastServiceId before, cfg.Opened s

/-! ## One round -/

variable {cfg : MuxConfig} {m m' : Mux} {inputs : List MuxInput}

/-- The variables of the loop are what the bytes say. -/
structure Tracks (m : Mux) (inputs : List MuxInput) : Prop where
  serviceIdIn : m.serviceIdIn = lastServiceId inputs
  gotEsc : m.gotEsc = escapePending inputs
  prevSent : m.prevSent.isSome = canSendAgain inputs

theorem tracks_init : Tracks Mux.init [] := ⟨rfl, rfl, rfl⟩

/-- A character is a control character or a data byte. -/
theorem control_or_data (c : UInt8) :
    c = SERMUX_ESCAPE_CHAR ∨ (SERMUX_SERVICE_ID_FIRST ≤ c && c ≤ SERMUX_SERVICE_ID_LAST) = true ∨
      c = SERMUX_FORCE_SID_CHAR ∨ needsEscape c = false := by
  cases hc : needsEscape c with
  | false => exact .inr (.inr (.inr rfl))
  | true =>
      simp only [needsEscape, Bool.or_eq_true, decide_eq_true_eq] at hc
      rcases hc with (hesc | hforce) | hid
      · exact .inl hesc
      · exact .inr (.inr (.inl hforce))
      · exact .inr (.inl hid)

/-- The service is missing when the index is outside. -/
theorem service?_eq_none_iff {s : UInt8} :
    cfg.service? s = none ↔
      ¬ (cfg.rfsmux = true ∧ s = SERMUX_SERVICE_ID_FIRST) ∧ ¬ cfg.Inside (cfg.servicesIndex s) := by
  unfold MuxConfig.service? MuxConfig.Inside MuxConfig.servicesIndex
  by_cases hrfs : cfg.rfsmux = true ∧ s = SERMUX_SERVICE_ID_FIRST
  · simp [hrfs]
  · rw [if_neg hrfs]
    simp only [hrfs, not_false_iff, true_and]
    split <;> simp_all

/-- The index of a service id is inside if the id is that of an opened port. -/
theorem inside_iff_opened {s : UInt8} (hs : SERMUX_SERVICE_ID_FIRST.toNat ≤ s.toNat)
    (hrfs : ¬ (cfg.rfsmux = true ∧ s = SERMUX_SERVICE_ID_FIRST)) :
    cfg.Inside (cfg.servicesIndex s) ↔ cfg.Opened s := by
  have hoffset : cfg.serviceOffset ≤ s.toNat - SERMUX_SERVICE_ID_FIRST.toNat := by
    unfold MuxConfig.serviceOffset
    split
    · rename_i hmode
      have hne : s.toNat ≠ SERMUX_SERVICE_ID_FIRST.toNat :=
        fun heq => hrfs ⟨hmode, UInt8.toNat_inj.mp heq⟩
      omega
    · exact Nat.zero_le _
  unfold MuxConfig.Inside MuxConfig.servicesIndex MuxConfig.Opened
  omega

theorem service?_isSome_iff {s : UInt8} (hs : SERMUX_SERVICE_ID_FIRST.toNat ≤ s.toNat) :
    (cfg.service? s).isSome = true ↔ cfg.Opened s := by
  rw [← Option.ne_none_iff_isSome, Ne, service?_eq_none_iff, not_and_not_right]
  by_cases hrfs : cfg.rfsmux = true ∧ s = SERMUX_SERVICE_ID_FIRST
  · refine iff_of_true (fun hno => absurd hrfs hno) ?_
    unfold MuxConfig.Opened MuxConfig.serviceOffset
    rw [if_pos hrfs.1, hrfs.2]
    omega
  · rw [← inside_iff_opened hs hrfs]
    exact ⟨fun h => h hrfs, fun h _ => h⟩

section

variable {c : UInt8}

theorem lastServiceId_append (input : MuxInput) :
    lastServiceId (inputs ++ [input]) =
      match input with
      | .transport c =>
          if SERMUX_SERVICE_ID_FIRST ≤ c && c ≤ SERMUX_SERVICE_ID_LAST then some c
          else lastServiceId inputs
      | .service _ _ => lastServiceId inputs := by
  rw [lastServiceId, List.foldl_append]
  rfl

theorem escapePending_append (input : MuxInput) :
    escapePending (inputs ++ [input]) =
      match input with
      | .transport c =>
          if needsEscape c then escapePending inputs || c = SERMUX_ESCAPE_CHAR else false
      | .service _ _ => escapePending inputs := by
  rw [escapePending, List.foldl_append]
  rfl

theorem canSendAgain_append (input : MuxInput) :
    canSendAgain (inputs ++ [input]) =
      match input with
      | .transport c => canSendAgain inputs && c ≠ SERMUX_FORCE_SID_CHAR
      | .service _ _ => true := by
  rw [canSendAgain, List.foldl_append]
  rfl

/-- What is taken for a service id is one. -/
theorem lastServiceId_range (inputs : List MuxInput) :
    ∀ s ∈ lastServiceId inputs, SERMUX_SERVICE_ID_FIRST.toNat ≤ s.toNat ∧
      s.toNat ≤ SERMUX_SERVICE_ID_LAST.toNat := by
  induction inputs using List.reverseRecOn with
  | nil => exact fun s hs => absurd hs (Option.not_mem_none s)
  | append_singleton inputs input ih =>
      rw [lastServiceId_append]
      cases input with
      | transport c =>
          dsimp only
          split
          · rename_i hid
            rintro s hs
            obtain rfl := Option.mem_some_iff.mp hs
            rwa [Bool.and_eq_true, decide_eq_true_eq, decide_eq_true_eq] at hid
          · exact ih
      | service service c => exact ih

/-- The indexes of a data byte that is no protocol error. -/
theorem roundIndexes_data (ht : Tracks m inputs) (hdata : needsEscape c = false)
    (hok : ¬ ProtocolError inputs c) :
    (∀ i ∈ roundIndexes cfg m (.transport c), cfg.Inside i) ↔
      ∀ s ∈ m.serviceIdIn, (cfg.service? s).isSome = true := by
  have hvalid : (m.gotEsc && !needsEscape (c ^^^ SERMUX_ESCAPE_XOR_MASK)) = false := by
    rw [ht.gotEsc]
    by_contra hinvalid
    rw [Bool.not_eq_false, Bool.and_eq_true, Bool.not_eq_true'] at hinvalid
    exact hok (.inr ⟨hdata, hinvalid⟩)
  rw [roundIndexes, hdata, hvalid, if_neg Bool.false_ne_true, if_neg Bool.false_ne_true]
  cases m.serviceIdIn with
  | none => simp
  | some s =>
      simp only [Option.mem_some_iff, forall_eq', ← Option.ne_none_iff_isSome, Ne,
        service?_eq_none_iff]
      by_cases hrfs : cfg.rfsmux = true ∧ s = SERMUX_SERVICE_ID_FIRST
      · simp [hrfs]
      · simp [hrfs]

/-- A data byte that is a protocol error is not passed on. -/
theorem roundIndexes_of_protocolError (ht : Tracks m inputs) (hdata : needsEscape c = false)
    (herr : ProtocolError inputs c) : roundIndexes cfg m (.transport c) = [] := by
  rcases herr with ⟨rfl, -⟩ | ⟨-, hesc, hinvalid⟩
  · exact absurd hdata (by decide)
  · rw [roundIndexes, hdata, if_neg Bool.false_ne_true, if_pos]
    rw [ht.gotEsc, hesc, hinvalid]
    rfl

/-- A protocol error ends the program. -/
theorem muxRound_of_protocolError (ht : Tracks m inputs) (herr : ProtocolError inputs c) :
    muxRound cfg m (.transport c) = none := by
  rw [muxRound]
  rcases herr with ⟨rfl, hsent⟩ | ⟨hdata, hesc, hinvalid⟩
  · have hprev : m.prevSent = none := by
      rw [← ht.prevSent, Option.isSome_eq_false_iff, Option.isNone_iff_eq_none] at hsent
      exact hsent
    rw [muxReceive, if_pos (by decide), if_neg (by decide), if_pos rfl, hprev]
    rfl
  · have hgot : m.gotEsc = true := ht.gotEsc.trans hesc
    rw [muxReceive, if_pos (ne_escape hdata), not_serviceId hdata, if_neg Bool.false_ne_true,
      if_neg (ne_force hdata)]
    simp only [hgot, if_true, hinvalid, Bool.not_false, Bool.and_self]
    rfl

/-- What a data byte that is no protocol error does. -/
theorem muxRound_data (ht : Tracks m inputs) (hdata : needsEscape c = false)
    (hok : ¬ ProtocolError inputs c) :
    muxRound cfg m (.transport c) =
      if ∀ s ∈ m.serviceIdIn, (cfg.service? s).isSome = true then some { m with gotEsc := false }
      else none := by
  have hesc : m.gotEsc = true → needsEscape (unescape true c) = true := by
    intro hgot
    by_contra hinvalid
    rw [Bool.not_eq_true] at hinvalid
    exact hok (.inr ⟨hdata, ht.gotEsc.symm.trans hgot, hinvalid⟩)
  rw [muxRound, muxReceive_char hdata hesc]
  cases hin : m.serviceIdIn with
  | none => simp [Except.toOption]
  | some s => cases hs : cfg.service? s <;> simp [hs, Except.toOption]

theorem Tracks.of_transport (ht : Tracks m inputs)
    (hid : m'.serviceIdIn =
      if SERMUX_SERVICE_ID_FIRST ≤ c && c ≤ SERMUX_SERVICE_ID_LAST then some c else m.serviceIdIn)
    (hesc : m'.gotEsc = if needsEscape c then m.gotEsc || c = SERMUX_ESCAPE_CHAR else false)
    (hprev : m'.prevSent.isSome = (m.prevSent.isSome && c ≠ SERMUX_FORCE_SID_CHAR)) :
    Tracks m' (inputs ++ [.transport c]) := by
  refine ⟨?_, ?_, ?_⟩
  · rw [lastServiceId_append, ← ht.serviceIdIn, hid]
  · rw [escapePending_append, ← ht.gotEsc, hesc]
  · rw [canSendAgain_append, ← ht.prevSent, hprev]

/-- A round that goes on keeps the variables what the bytes say. -/
theorem Tracks.round {input : MuxInput} (ht : Tracks m inputs)
    (hround : muxRound cfg m input = some m') : Tracks m' (inputs ++ [input]) := by
  cases input with
  | service service c =>
      obtain rfl := Option.some.inj hround
      refine ⟨?_, ?_, ?_⟩
      · rw [lastServiceId_append]
        exact ht.serviceIdIn
      · rw [escapePending_append]
        exact ht.gotEsc
      · rw [canSendAgain_append]
        rfl
  | transport c =>
      rcases control_or_data c with rfl | hservice | rfl | hdata
      · rw [muxRound, muxReceive_escape] at hround
        obtain rfl := Option.some.inj hround
        exact ht.of_transport rfl (Bool.or_true _).symm (Bool.and_true _).symm
      · rw [muxRound, muxReceive_service hservice] at hround
        obtain rfl := Option.some.inj hround
        have hneeds : needsEscape c = true := by
          rw [needsEscape, hservice, Bool.or_true]
        have hesc : c ≠ SERMUX_ESCAPE_CHAR := by
          rintro rfl
          exact absurd hservice (by decide)
        have hforce : c ≠ SERMUX_FORCE_SID_CHAR := by
          rintro rfl
          exact absurd hservice (by decide)
        refine ht.of_transport ?_ ?_ ?_
        · rw [if_pos hservice]
        · rw [if_pos hneeds, decide_eq_false hesc, Bool.or_false]
        · rw [decide_eq_true hforce, Bool.and_true]
      · cases hlast : m.prevSent with
        | none =>
            rw [muxRound_of_protocolError ht (.inl ⟨rfl, ?_⟩)] at hround
            · cases hround
            · rw [← ht.prevSent, hlast]
              rfl
        | some last =>
            rw [muxRound, muxReceive_force hlast] at hround
            obtain rfl := Option.some.inj hround
            exact ht.of_transport rfl (Bool.or_false _).symm (Bool.and_false _).symm
      · by_cases herr : ProtocolError inputs c
        · rw [muxRound_of_protocolError ht herr] at hround
          cases hround
        · rw [muxRound_data ht hdata herr] at hround
          split at hround
          · obtain rfl := Option.some.inj hround
            refine ht.of_transport ?_ ?_ ?_
            · rw [not_serviceId hdata, if_neg Bool.false_ne_true]
            · rw [hdata, if_neg Bool.false_ne_true]
            · rw [decide_eq_true (ne_force hdata), Bool.and_true]
          · cases hround

/-- A round ends the program only on a protocol error, or with an index outside. -/
theorem muxRound_isSome (ht : Tracks m inputs) (hok : ¬ ProtocolError inputs c)
    (hinside : ∀ i ∈ roundIndexes cfg m (.transport c), cfg.Inside i) :
    (muxRound cfg m (.transport c)).isSome = true := by
  rcases control_or_data c with rfl | hservice | rfl | hdata
  · rw [muxRound, muxReceive_escape]
    rfl
  · rw [muxRound, muxReceive_service hservice]
    rfl
  · cases hlast : m.prevSent with
    | none =>
        refine absurd (.inl ⟨rfl, ?_⟩) hok
        rw [← ht.prevSent, hlast]
        rfl
    | some last =>
        rw [muxRound, muxReceive_force hlast]
        rfl
  · rw [muxRound_data ht hdata hok, if_pos ((roundIndexes_data ht hdata hok).mp hinside)]
    rfl

end

/-! ## Runs -/

theorem noProtocolError_nil : NoProtocolError [] :=
  fun before c hpre => by simp at hpre

theorem NoProtocolError.of_append {rest : List MuxInput} (h : NoProtocolError (inputs ++ rest)) :
    NoProtocolError inputs :=
  fun before c hpre => h before c (hpre.trans (List.prefix_append inputs rest))

theorem NoProtocolError.append {input : MuxInput} (h : NoProtocolError inputs)
    (hinput : ∀ c, input = .transport c → ¬ ProtocolError inputs c) :
    NoProtocolError (inputs ++ [input]) := by
  intro before c hpre
  rcases List.prefix_concat_iff.mp hpre with heq | hpre
  · obtain ⟨rfl, hc⟩ := List.append_inj' heq rfl
    exact hinput c (List.singleton_inj.mp hc).symm
  · exact h before c hpre

/-- The variables after a run are what the bytes say, and none of them was a protocol error. -/
theorem tracks_of_run (hrun : Transition.run (muxRound cfg) Mux.init inputs = some m) :
    Tracks m inputs ∧ NoProtocolError inputs := by
  induction inputs using List.reverseRecOn generalizing m with
  | nil =>
      obtain rfl := Option.some.inj hrun
      exact ⟨tracks_init, noProtocolError_nil⟩
  | append_singleton inputs input ih =>
      rw [Transition.run_append_singleton, Option.bind_eq_some_iff] at hrun
      obtain ⟨m₁, hbefore, hround⟩ := hrun
      obtain ⟨ht, hno⟩ := ih hbefore
      refine ⟨ht.round hround, hno.append ?_⟩
      rintro c rfl herr
      rw [muxRound_of_protocolError ht herr] at hround
      cases hround

/-- With all indexes inside and no protocol error, the program runs on. -/
theorem run_of_inside (hno : NoProtocolError inputs)
    (hinside : ∀ before input m, before ++ [input] <+: inputs →
      Transition.run (muxRound cfg) Mux.init before = some m →
      ∀ i ∈ roundIndexes cfg m input, cfg.Inside i) :
    ∃ m, Transition.run (muxRound cfg) Mux.init inputs = some m := by
  induction inputs using List.reverseRecOn with
  | nil => exact ⟨_, rfl⟩
  | append_singleton inputs input ih =>
      obtain ⟨m, hrun⟩ := ih hno.of_append fun before x m hpre =>
        hinside before x m (hpre.trans (List.prefix_append inputs [input]))
      have ht := (tracks_of_run hrun).1
      rw [Transition.run_append_singleton, hrun, Option.bind_some]
      cases input with
      | service service c => exact ⟨_, rfl⟩
      | transport c =>
          have hround := muxRound_isSome ht (hno inputs c (List.prefix_refl _))
            (hinside inputs _ m (List.prefix_refl _) hrun)
          exact Option.isSome_iff_exists.mp hround

/-- **The indexes of `services`.**  They are inside exactly when every data byte comes under the
id of an opened port or of the RFS server, or before any id. -/
theorem indexesInside_iff (cfg : MuxConfig) (inputs : List MuxInput) :
    IndexesInside cfg inputs ↔ OpenedOnly cfg inputs := by
  constructor
  · rintro ⟨-, hinside⟩ before c hpre hno hdata s hs
    have hbefore : before <+: inputs := (List.prefix_append before [.transport c]).trans hpre
    obtain ⟨m, hrun⟩ := run_of_inside hno.of_append fun b x m hb => hinside b x m (hb.trans hbefore)
    have ht := (tracks_of_run hrun).1
    have hindexes := hinside before (.transport c) m hpre hrun
    rw [roundIndexes_data ht hdata (hno before c (List.prefix_refl _)), ht.serviceIdIn] at hindexes
    exact (service?_isSome_iff (lastServiceId_range before s hs).1).mp (hindexes s hs)
  · intro hopened
    refine ⟨fun i hi => ?_, fun before input m hpre hrun => ?_⟩
    · obtain ⟨n, hn, rfl⟩ := List.mem_map.mp hi
      exact ⟨Int.natCast_nonneg n, Int.ofNat_lt.mpr (List.mem_range.mp hn)⟩
    · obtain ⟨ht, hno⟩ := tracks_of_run hrun
      cases input with
      | service service c => exact fun i hi => absurd hi List.not_mem_nil
      | transport c =>
          cases hdata : needsEscape c with
          | true =>
              rw [roundIndexes, if_pos hdata]
              exact fun i hi => absurd hi List.not_mem_nil
          | false =>
              by_cases herr : ProtocolError before c
              · rw [roundIndexes_of_protocolError ht hdata herr]
                exact fun i hi => absurd hi List.not_mem_nil
              · refine (roundIndexes_data ht hdata herr).mpr fun s hs => ?_
                rw [ht.serviceIdIn] at hs
                refine (service?_isSome_iff (lastServiceId_range before s hs).1).mpr ?_
                refine hopened before c hpre (hno.append fun d hd => ?_) hdata s hs
                obtain rfl := MuxInput.transport.inj hd
                exact herr

/-- With an id for every port and a port for every id, all streams are safe, and only then. -/
theorem forall_indexesInside_iff (cfg : MuxConfig) :
    (∀ inputs, IndexesInside cfg inputs) ↔
      SERMUX_SERVICE_MAX ≤ cfg.serviceOffset + cfg.vportNum := by
  have hfirst : SERMUX_SERVICE_ID_FIRST.toNat = 208 := rfl
  have hlast : SERMUX_SERVICE_ID_LAST.toNat = 215 := rfl
  have hmax : SERMUX_SERVICE_MAX = 8 := rfl
  constructor
  · intro hall
    have hopened := (indexesInside_iff cfg _).mp (hall [.transport 0xD7, .transport 0])
      [.transport 0xD7] 0 (List.prefix_refl _) ?_ rfl 0xD7 rfl
    · have hlt : 215 < SERMUX_SERVICE_ID_FIRST.toNat + cfg.serviceOffset + cfg.vportNum := hopened
      omega
    · have hone : NoProtocolError [.transport 0xD7] := by
        refine noProtocolError_nil.append fun c hc => ?_
        obtain rfl := MuxInput.transport.inj hc
        decide
      refine hone.append fun c hc => ?_
      obtain rfl := MuxInput.transport.inj hc
      decide
  · intro hmany inputs
    refine (indexesInside_iff cfg inputs).mpr fun before c _ _ _ s hs => ?_
    have hrange := lastServiceId_range before s hs
    unfold MuxConfig.Opened
    omega

/-- One service port; the data byte comes under the id of a second one. -/
theorem not_indexesInside_second_port :
    ¬ ∀ (cfg : MuxConfig) (inputs : List MuxInput), IndexesInside cfg inputs := by
  intro hall
  have hinside := (hall ⟨false, 1⟩ [.transport 0xD1, .transport 0x61]).2 [.transport 0xD1]
    (.transport 0x61) ⟨some 0xD1, none, false, none⟩ (List.prefix_refl _) rfl 1 List.mem_cons_self
  exact absurd hinside.2 (by decide)

end Sermux
