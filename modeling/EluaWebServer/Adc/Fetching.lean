import EluaWebServer.Adc.Serving

/-!
# Reading the samples of a request

Each step of the main program moves a sample on, from the buffer or from its place in
`sample_buf` to the values that are returned, or leaves the samples where they are.
-/

namespace Adc

open Charbuf Charbuf.System Memory

variable {n : Nat} {s : Sys n} {id : Fin n} {v v' : View n} {q : Request}
  {waiting : List UInt16}

/-! ## The steps of the main program -/

/-- A step about another channel. -/
theorem Serving.main_other (h : Serving id (view id s) q waiting) (hch : s.main.channel ≠ some id) :
    returned id s = [] ∧ Serving id (view id (mainStep s)) q waiting := by
  obtain ⟨hch', hsame⟩ := mainStep_other hch
  obtain ⟨hseq, hactive, hrunning, hbuf⟩ := mainStep_dev s
  refine ⟨?_, h.congr ?_ (congrFun hactive id) ?_ ?_ ?_ ?_ ?_ fun hself => absurd hself hch'⟩
  · unfold returned
    split
    · rename_i j sample hmain
      rw [hmain] at hch
      rw [if_neg fun heq => hch (congrArg some heq.1)]
    · rename_i j sample reqsamples hmain
      rw [hmain] at hch
      rw [if_neg fun heq => hch (congrArg some heq)]
    · rfl
  · change Unaffected _ (s.dev.ch id) ((mainStep s).dev.ch id)
    rw [hsame]
    exact Unaffected.refl _ _
  · intro hsampled
    have hsampled' := h.sampled
    simp only [view, hrunning, hseq.chState, hactive] at hsampled hsampled' ⊢
    exact hsampled' hsampled
  · intro _ _ _
    simp only [view, hbuf, hsame]
  · exact (if_neg hch').trans (if_neg hch).symm
  · simp [view, loaded, hch, hch']
  · exact (readerOf_other hch').trans (readerOf_other hch).symm

/-- The main program has no sample of a channel in its hands, and is not reading. -/
structure Quiet (main : Main n) : Prop where
  removed : main.removed = []
  loaded : main.loaded = false
  reader : main.reader = .idle

theorem removed_of_quiet {main : Main n} (h : Quiet main) : removed id main = [] := by
  unfold removed
  split
  · exact h.removed
  · rfl

theorem loaded_of_quiet {main : Main n} (h : Quiet main) : loaded id main = false := by
  rw [loaded, h.loaded, Bool.and_false]

/-- From one quiet place to another. -/
theorem Serving.quiet (h : Serving id v q waiting) (hquiet : Quiet v.main) {main : Main n}
    (hquiet' : Quiet main)
    (hfound : main.channel = some id → Found v.channel q waiting main) :
    Serving id { v with main := main } q waiting := by
  refine h.congr (Unaffected.refl _ _) rfl h.sampled (fun _ _ _ => rfl) ?_ ?_ ?_ hfound
  · exact (removed_of_quiet hquiet').trans (removed_of_quiet hquiet).symm
  · exact (loaded_of_quiet hquiet').trans (loaded_of_quiet hquiet).symm
  · exact (readerOf_idle hquiet'.reader).trans (readerOf_idle hquiet.reader).symm

theorem afterAvailable_eq {c : Channel} (hsmooth : c.logsmoothlen = 0) (id : Fin n)
    (available : Nat) :
    afterAvailable c id available = if 0 < available then .testFresh id else .idle := by
  unfold afterAvailable
  rw [hsmooth, if_neg (Nat.lt_irrefl 0)]

theorem quiet_afterWait (id : Fin n) (samples available : Nat) (stage : Stage) :
    Quiet (afterWait id samples available stage) := by
  cases stage with
  | first | loop =>
      dsimp only [afterWait]
      split <;> exact ⟨rfl, rfl, rfl⟩
  | last => exact ⟨rfl, rfl, rfl⟩

theorem found_afterWait (c : Channel) (id : Fin n) (samples available : Nat) (stage : Stage) :
    Found c q waiting (afterWait id samples available stage) := by
  cases stage with
  | first | loop =>
      dsimp only [afterWait]
      split <;> trivial
  | last => trivial

theorem removed_self {main : Main n} (h : main.channel = some id) :
    removed id main = main.removed :=
  if_pos h

/-- The fresh sample is loaded. -/
theorem Serving.loadValue (h : Serving id v q waiting) (hmain : v.main = .loadValue id) :
    Serving id { v with main := .loadFlags id v.value } q waiting := by
  have hfresh : Fresh v.channel q := by
    have hfound := h.found (by rw [hmain]; rfl)
    rwa [hmain] at hfound
  have hquiet : Quiet v.main := hmain ▸ ⟨rfl, rfl, rfl⟩
  have hlen := h.length_eq
  have hlast := h.fresh hfresh
  have hconv := h.conversions
  rw [removed_of_quiet hquiet, freshSample_eq hfresh (loaded_of_quiet hquiet)] at hlen hconv
  rw [List.length_nil, List.length_singleton] at hlen
  have hwaiting : waiting = [] := List.eq_nil_of_length_eq_zero (by omega)
  rw [hwaiting, List.append_nil, List.append_nil] at hconv
  refine { h with conversions := ?_, buffered := ?_, found := fun _ => hfresh }
  · rw [freshSample_loaded (by simp [loaded, Main.channel, Main.loaded]),
      removed_self rfl, Main.removed, hwaiting, List.append_nil, List.append_nil]
    exact hconv
  · have hbuffered := h.buffered
    rw [readerOf_idle hquiet.reader] at hbuffered
    rw [readerOf_idle rfl]
    exact hbuffered

/-- The mark is taken back. -/
theorem Serving.storeFlags {sample : UInt16} {flags : Flags} (h : Serving id v q waiting)
    (hmain : v.main = .storeFlags id sample flags) :
    Serving id { v with
      channel := { v.channel with flags := { flags with valueFresh := false } }
      main := .testReq id sample } q waiting := by
  have hfound := h.found (by rw [hmain]; rfl)
  rw [hmain] at hfound
  have hunmarked : ∀ q' : Request,
      ¬ Fresh { v.channel with flags := { flags with valueFresh := false } } q' := by
    intro q' hfresh
    cases hfresh.2
  have hconv := h.conversions
  have hbuffered := h.buffered
  rw [hmain, removed_self rfl,
    freshSample_loaded (by simp [hmain, loaded, Main.channel, Main.loaded])] at hconv
  rw [hmain, readerOf_idle rfl] at hbuffered
  refine { h with
    freerunning := hfound.2
    conversions := ?_
    fresh := fun hfresh => absurd hfresh (hunmarked q)
    buffered := ?_
    found := fun _ => trivial }
  · rw [freshSample_eq_nil (hunmarked q), removed_self rfl]
    exact hconv
  · rw [readerOf_idle rfl]
    exact hbuffered

/-- The count of requested samples is stored. -/
theorem Serving.storeReq {sample reqsamples : UInt16} (h : Serving id v q waiting)
    (hmain : v.main = .storeReq id sample reqsamples) :
    Serving id { v with channel := { v.channel with reqsamples := reqsamples - 1 }, main := .idle }
      { q with values := q.values ++ [sample] } waiting := by
  have hreq : reqsamples = v.channel.reqsamples := by
    have hfound := h.found (by rw [hmain]; rfl)
    rwa [hmain] at hfound
  have hloaded : loaded id v.main = false := by simp [hmain, loaded, Main.loaded]
  have hremoved : removed id v.main = [sample] := by
    rw [hmain, removed_self rfl]
    rfl
  have hlen := h.length_eq
  have henough := h.enough
  have hsum := h.reqsamples
  rw [hremoved, List.length_singleton] at hlen
  -- the sample that is returned is not the fresh one
  have hnot : ¬ Fresh v.channel q := by
    intro hfresh
    have hlast := h.fresh hfresh
    rw [freshSample_eq hfresh hloaded, List.length_singleton] at hlen
    omega
  have hpos : (1 : UInt16) ≤ reqsamples := by
    rw [hreq, UInt16.le_iff_toNat_le]
    change 1 ≤ v.channel.reqsamples.toNat
    omega
  have hdec : (reqsamples - 1).toNat = v.channel.reqsamples.toNat - 1 := by
    rw [UInt16.toNat_sub_of_le _ _ hpos, hreq]
    rfl
  have hconv := h.conversions
  have hbuffered := h.buffered
  rw [hremoved, freshSample_eq_nil hnot, List.append_nil] at hconv
  rw [hmain, readerOf_idle rfl] at hbuffered
  refine { h with
    reqsamples := ?_
    conversions := ?_
    fresh := fun hfresh => absurd hfresh hnot
    buffered := ?_
    found := fun hch => by cases hch }
  · rw [hdec, List.length_append, List.length_singleton]
    dsimp only
    omega
  · have hsample : freshSample id
        { v with channel := { v.channel with reqsamples := reqsamples - 1 }, main := .idle }
        { q with values := q.values ++ [sample] } = [] := freshSample_eq_nil hnot
    rw [hsample, List.append_nil]
    exact hconv.trans (by rw [removed, if_neg (fun hch => by cases hch), List.append_nil])
  · rw [readerOf_idle rfl]
    exact hbuffered

/-- What a step of `buf_read` has taken out of the buffer, if it finds an element. -/
theorem removed_afterBufRead (id : Fin n) (p : BufDesc) (reader : Reader)
    (hsome : ∀ a, reader = .entered a → readEmpty p = false) :
    removed id (afterBufRead id reader (bufReadStep p reader).2) =
      ((System.readStep ⟨p, reader, [], []⟩).got ++
        held (System.readStep ⟨p, reader, [], []⟩).reader).map ofSample := by
  rw [removed_self (channel_afterBufRead id _ _)]
  cases reader with
  | entered a =>
      have hstep : System.readStep ⟨p, .entered a, [], []⟩ = ⟨p, .tested a, [], []⟩ := by
        simp [System.readStep, hsome a rfl]
      rw [bufReadStep, hstep]
      rfl
  | idle | tested a | copied bs | decremented bs => rfl

theorem loaded_afterBufRead (id : Fin n) (reader reader' : Reader) :
    loaded id (afterBufRead id reader reader') = false := by
  unfold loaded afterBufRead
  split <;> simp [Main.loaded]

/-- A step of `buf_read` on what is waiting. -/
theorem Buffered.bufRead {p : BufDesc} {reader : Reader} {samples : Nat}
    (h : Buffered p reader samples waiting) (hsome : held reader = [] → waiting ≠ []) :
    ∃ waiting', Buffered (bufReadStep p reader).1 (bufReadStep p reader).2 samples waiting' ∧
      removed id (afterBufRead id reader (bufReadStep p reader).2) ++ waiting' =
        (held reader).map ofSample ++ waiting ∧
      ((bufReadStep p reader).2 ≠ .idle → held (bufReadStep p reader).2 = [] → waiting' ≠ []) := by
  rcases h with ⟨hone, rfl, hcount⟩ | ⟨r, unread, hread, hslots, hdsize, rfl⟩
  · -- nothing is waiting: only the read pointer is left to move
    cases reader with
    | decremented bs =>
        exact ⟨[], .inl ⟨hone, rfl, hcount⟩, by rw [removed_self rfl]; rfl,
          fun hne => absurd rfl hne⟩
    | idle | entered a | tested a | copied bs => exact absurd rfl (hsome rfl)
  · have hempty : ∀ a, reader = .entered a → readEmpty p = false := by
      intro a hreader
      subst hreader
      have hne : unread ≠ [] := fun hnil => hsome rfl (by rw [hnil, List.map_nil])
      have hcount : p.count ≠ 0 := by
        rw [hread.count]
        exact mt List.eq_nil_of_length_eq_zero hne
      have henabled : p.logsize ≠ BUF_SIZE_NONE := hread.holding.sized.enabled
      simp [readEmpty, hcount, henabled]
    obtain ⟨r', unread', hread', hsize, hdsize', -, hsame⟩ :=
      @Reading.readStep ⟨p, reader, [], []⟩ r unread hread
    have hsamples := congrArg (List.map ofSample) hsame
    simp only [List.map_append, List.map_map, List.nil_append] at hsamples
    refine ⟨unread'.map fun e => ofSample e.2,
      .inr ⟨r', unread', hread', ?_, hdsize'.trans hdsize, rfl⟩, ?_, ?_⟩
    · rw [← hslots]
      exact congrArg₂ (fun a b => 2 ^ (min a 16 - b)) hsize hdsize'
    · rw [removed_afterBufRead id p reader hempty, List.map_append]
      exact hsamples
    · intro hidle hheld hnil
      -- an element that was there before the step is still there
      have hgot : (System.readStep ⟨p, reader, [], []⟩).got = [] := by
        cases reader with
        | decremented bs => exact absurd rfl hidle
        | idle | entered a | tested a | copied bs => rfl
      have hnil' : unread' = [] := List.map_eq_nil_iff.mp hnil
      change held (System.readStep ⟨p, reader, [], []⟩).reader = [] at hheld
      rw [hgot, hheld, hnil'] at hsame
      have hnone := List.append_eq_nil_iff.mp hsame.symm
      exact hsome hnone.1 (by rw [List.map_eq_nil_iff.mp hnone.2, List.map_nil])

/-- A step of `buf_read`. -/
theorem Serving.bufRead {reader : Reader} (h : Serving id v q waiting)
    (hmain : v.main = .bufRead id reader) :
    ∃ waiting', Serving id { v with
      channel := { v.channel with desc := (bufReadStep v.channel.desc reader).1 }
      main := afterBufRead id reader (bufReadStep v.channel.desc reader).2 } q waiting' := by
  have hfound := h.found (by rw [hmain]; rfl)
  have hbuffered := h.buffered
  have hconv := h.conversions
  have hloaded : loaded id v.main = false := by simp [hmain, loaded, Main.loaded]
  rw [hmain] at hfound
  rw [hmain, readerOf_self rfl, Main.reader] at hbuffered
  obtain ⟨waiting', hbuffered', hsame, hnext⟩ := @Buffered.bufRead n id _ _ _ _ hbuffered hfound
  have hsample : freshSample id { v with
      channel := { v.channel with desc := (bufReadStep v.channel.desc reader).1 }
      main := afterBufRead id reader (bufReadStep v.channel.desc reader).2 } q =
        freshSample id v q := by
    simp only [freshSample, hloaded, loaded_afterBufRead]
  refine ⟨waiting', { h with conversions := ?_, buffered := ?_, found := fun _ => ?_ }⟩
  · have hremoved : removed id v.main = (held reader).map ofSample := by
      rw [hmain, removed_self rfl]
      rfl
    rw [hsample]
    dsimp only
    rw [List.append_assoc q.values, hsame, ← hremoved, ← List.append_assoc]
    exact hconv
  · rw [readerOf_self (channel_afterBufRead id _ _), reader_afterBufRead]
    exact hbuffered'
  · cases reader with
    | entered a =>
        by_cases hidle : (bufReadStep v.channel.desc (.entered a)).2 = .idle
        · rw [hidle]
          trivial
        · have hafter : afterBufRead id (.entered a) (bufReadStep v.channel.desc (.entered a)).2 =
              .bufRead id (bufReadStep v.channel.desc (.entered a)).2 := by
            unfold afterBufRead
            split <;> simp_all
          rw [hafter]
          exact hnext hidle
    | decremented bs => trivial
    | idle | tested a | copied bs => exact hnext (fun hidle => by cases hidle)

theorem quiet_afterAvailable {c : Channel} (hsmooth : c.logsmoothlen = 0) (id : Fin n)
    (available : Nat) : Quiet (afterAvailable c id available) := by
  rw [afterAvailable_eq hsmooth]
  split <;> exact ⟨rfl, rfl, rfl⟩

theorem view_set (d : Dev n) (id : Fin n) {c : Channel} (hptr : c.valuePtr = (d.ch id).valuePtr)
    (main main' : Main n) :
    view id ⟨d.set id c, main'⟩ = { view id ⟨d, main⟩ with channel := c, main := main' } := by
  unfold view
  simp only [Dev.set_ch_self, hptr]
  rfl

theorem Serving.of_eq (h : Serving id v q waiting) (heq : v' = v) : Serving id v' q waiting := by
  rw [heq]
  exact h

/-- A step about the channel. -/
theorem Serving.main_self (h : Serving id (view id s) q waiting) (hch : s.main.channel = some id)
    (hlook : s.main.looking = true → q.conversions = [] → (s.dev.ch id).flags.valueFresh = false) :
    ∃ waiting', Serving id (view id (mainStep s)) { q with values := q.values ++ returned id s }
      waiting' := by
  obtain ⟨d, main⟩ := s
  have hfound := h.found hch
  have hsmooth : (d.ch id).logsmoothlen = 0 := h.smoothing
  have hcount : (d.ch id).desc.count = waiting.length := h.buffered.count
  -- most steps return nothing
  have hnone : returned id ⟨d, main⟩ = [] →
      ({ q with values := q.values ++ returned id ⟨d, main⟩ } : Request) = q := by
    intro hreturned
    rw [hreturned, List.append_nil]
  cases main with
  | idle => cases hch
  | getCount j =>
      obtain rfl := Option.some.inj hch
      rw [hnone rfl, mainStep_getCount]
      refine ⟨waiting, h.quiet ⟨rfl, rfl, rfl⟩ ?_ fun _ => ?_⟩
      · split
        · exact ⟨rfl, rfl, rfl⟩
        · exact quiet_afterAvailable hsmooth j _
      · split
        · trivial
        · rename_i hne
          rw [afterAvailable_eq hsmooth, if_pos (Nat.pos_of_ne_zero hne)]
          refine .inl (fun hnil => hne ?_)
          rw [bufGetCount, hcount, hnil, List.length_nil]
  | getFresh j =>
      obtain rfl := Option.some.inj hch
      rw [hnone rfl]
      refine ⟨waiting, h.quiet ⟨rfl, rfl, rfl⟩ (quiet_afterAvailable hsmooth j _) fun _ => ?_⟩
      change Found (d.ch j) q waiting (afterAvailable (d.ch j) j (d.ch j).flags.valueFresh.toNat)
      rw [afterAvailable_eq hsmooth]
      cases hfresh : (d.ch j).flags.valueFresh with
      | false => trivial
      | true =>
          refine .inr ⟨fun hconv => ?_, hfresh⟩
          rw [hlook rfl hconv] at hfresh
          cases hfresh
  | smooth j => exact False.elim hfound
  | testFresh j =>
      obtain rfl := Option.some.inj hch
      rw [hnone rfl]
      have hstep : mainStep ⟨d, .testFresh j⟩ =
          ⟨d, if (d.ch j).flags.valueFresh then .loadValue j else .bufRead j .idle⟩ := rfl
      rw [hstep]
      refine ⟨waiting, h.quiet ⟨rfl, rfl, rfl⟩ ?_ fun _ => ?_⟩
      · split <;> exact ⟨rfl, rfl, rfl⟩
      · rcases hfound with hwaiting | hfresh
        · split
          · rename_i hmark
            refine ⟨fun hconv => hwaiting ?_, hmark⟩
            have hall := h.conversions
            rw [hconv] at hall
            have hnil := (List.append_eq_nil_iff.mp hall.symm).1
            exact (List.append_eq_nil_iff.mp hnil).2
          · exact fun _ => hwaiting
        · have hmark : (d.ch j).flags.valueFresh = true := hfresh.2
          rw [if_pos hmark]
          exact hfresh
  | loadValue j =>
      obtain rfl := Option.some.inj hch
      rw [hnone rfl]
      exact ⟨waiting, h.loadValue rfl⟩
  | loadFlags j sample =>
      obtain rfl := Option.some.inj hch
      rw [hnone rfl]
      exact ⟨waiting, h.congr (Unaffected.refl _ _) rfl h.sampled (fun _ _ _ => rfl) rfl rfl rfl
        fun _ => ⟨hfound, h.freerunning⟩⟩
  | storeFlags j sample flags =>
      obtain rfl := Option.some.inj hch
      rw [hnone rfl]
      exact ⟨waiting, (h.storeFlags rfl).of_eq (view_set d j (by rfl) _ _)⟩
  | bufRead j reader =>
      obtain rfl := Option.some.inj hch
      rw [hnone rfl]
      obtain ⟨waiting', h'⟩ := h.bufRead rfl
      exact ⟨waiting', h'.of_eq (view_set d j (by rfl) _ _)⟩
  | testReq j sample =>
      obtain rfl := Option.some.inj hch
      have hpos : 0 < (d.ch j).reqsamples := by
        have hlen := h.length_eq
        have henough := h.enough
        have hsum := h.reqsamples
        rw [show removed j (view j ⟨d, .testReq j sample⟩).main = [sample] from removed_self rfl,
          List.length_singleton] at hlen
        change 0 < (d.ch j).reqsamples.toNat
        change (d.ch j).reqsamples.toNat + _ = _ at hsum
        omega
      have hstep : mainStep ⟨d, .testReq j sample⟩ = ⟨d, .loadReq j sample⟩ := by
        simp only [mainStep, if_pos hpos]
      rw [hstep, hnone (if_neg fun hzero => by rw [hzero.2] at hpos; exact absurd hpos (by decide))]
      refine ⟨waiting, h.congr (Unaffected.refl _ _) rfl h.sampled (fun _ _ _ => rfl) ?_ ?_ rfl
        fun _ => trivial⟩
      · exact (removed_self rfl).trans
          (removed_self (show (Main.testReq j sample).channel = some j from rfl)).symm
      · simp [view, loaded, Main.loaded]
  | loadReq j sample =>
      obtain rfl := Option.some.inj hch
      rw [hnone rfl]
      exact ⟨waiting, h.congr (Unaffected.refl _ _) rfl h.sampled (fun _ _ _ => rfl) rfl rfl rfl
        fun _ => rfl⟩
  | storeReq j sample reqsamples =>
      obtain rfl := Option.some.inj hch
      have hreturned : returned j ⟨d, .storeReq j sample reqsamples⟩ = [sample] := if_pos rfl
      rw [hreturned]
      exact ⟨waiting, (h.storeReq rfl).of_eq (view_set d j (by rfl) _ _)⟩
  | waitCount j samples stage =>
      obtain rfl := Option.some.inj hch
      rw [hnone rfl, mainStep_waitCount]
      refine ⟨waiting, h.quiet ⟨rfl, rfl, rfl⟩ ?_ fun _ => ?_⟩
      · split
        · exact ⟨rfl, rfl, rfl⟩
        · exact quiet_afterWait j _ _ _
      · split
        · trivial
        · exact found_afterWait _ j _ _ _
  | waitFresh j samples stage =>
      obtain rfl := Option.some.inj hch
      rw [hnone rfl]
      exact ⟨waiting, h.quiet ⟨rfl, rfl, rfl⟩ (quiet_afterWait j _ _ _)
        fun _ => found_afterWait _ j _ _ _⟩
  | waitBlocking j samples =>
      obtain rfl := Option.some.inj hch
      have hstep : mainStep ⟨d, .waitBlocking j samples⟩ =
          ⟨d, if (d.ch j).flags.blocking then .waitPending j samples
            else .waitCount j samples .last⟩ := rfl
      rw [hnone rfl, hstep]
      refine ⟨waiting, h.quiet ⟨rfl, rfl, rfl⟩ ?_ fun _ => ?_⟩
      · split <;> exact ⟨rfl, rfl, rfl⟩
      · split <;> trivial
  | waitPending j samples =>
      obtain rfl := Option.some.inj hch
      have hstep : mainStep ⟨d, .waitPending j samples⟩ =
          ⟨d, if (d.ch j).flags.opPending then .waitCount j samples .loop
            else .waitCount j samples .last⟩ := rfl
      rw [hnone rfl, hstep]
      refine ⟨waiting, h.quiet ⟨rfl, rfl, rfl⟩ ?_ fun _ => ?_⟩
      · split <;> exact ⟨rfl, rfl, rfl⟩
      · split <;> trivial

end Adc
