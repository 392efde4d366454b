import EluaWebServer.Interrupt.System

/-!
# The invariant of the interrupt queue

The interrupts that were accepted and not dequeued yet are in the ring of slots
behind those that were.  Every Lua state that can still fire the hook has it
installed only while there are any.
-/

namespace Interrupt

variable {cfg : Platform}

/-- After `n` interrupts have been dequeued, the slots from there on have the
given interrupts, and the others are empty. -/
structure Queued (cfg : Platform) (q : Queue) (n : Nat) (rest : List Element) : Prop where
  holds : Ring.Holds q.slot (slots cfg) n rest
  room : rest.length ≤ slots cfg
  taken : ∀ e ∈ rest, e.id ≠ ELUA_INT_EMPTY_SLOT
  free : ∀ k, rest.length ≤ k → k < slots cfg →
    (q.slot ((n + k) % slots cfg)).id = ELUA_INT_EMPTY_SLOT
  writeIdx : q.writeIdx = (n + rest.length) % slots cfg

namespace Queued

variable {q : Queue} {n : Nat} {rest : List Element}

theorem occupied_eq (h : Queued cfg q n rest) : occupied cfg q (n % slots cfg) = rest := by
  have hmod (k : Nat) : (n % slots cfg + k) % slots cfg = (n + k) % slots cfg :=
    Nat.mod_add_mod _ _ _
  simp only [occupied, hmod]
  refine h.holds.filter_range h.room (fun e he => ?_) fun k hlo hhi => ?_
  · simpa using h.taken e he
  · simpa using h.free k hlo hhi

theorem init : Queued cfg ⟨0, 0, fun _ => ⟨ELUA_INT_EMPTY_SLOT, 0⟩, fun _ => 0⟩ 0 [] :=
  ⟨trivial, Nat.zero_le _, fun _ he => absurd he List.not_mem_nil, fun _ _ _ => rfl,
    (Nat.zero_mod _).symm⟩

/-- The read index is at an empty slot exactly when nothing is left. -/
theorem noMore_iff (h : Queued cfg q n rest) (hread : q.readIdx = n % slots cfg) :
    noMore q = true ↔ rest = [] := by
  rw [noMore, decide_eq_true_iff, hread]
  cases hrest : rest with
  | nil =>
      have hfree := h.free 0 (by rw [hrest]; exact Nat.le_refl 0) (slots_pos cfg)
      exact iff_of_true hfree rfl
  | cons e rest' =>
      have hfirst : q.slot (n % slots cfg) = e := (hrest ▸ h.holds).1
      have htaken := h.taken e (hrest ▸ List.mem_cons_self)
      rw [hfirst]
      exact iff_of_false htaken (List.cons_ne_nil e rest')

/-- The queue refuses an interrupt when it is full, and only then. -/
theorem full_iff (h : Queued cfg q n rest) :
    (q.slot q.writeIdx).id ≠ ELUA_INT_EMPTY_SLOT ↔ rest.length = slots cfg := by
  rw [h.writeIdx]
  by_cases hfull : rest.length = slots cfg
  · have hmem := h.holds.mem_of_full hfull (Nat.mod_lt (n + rest.length) (slots_pos cfg))
    exact iff_of_true (h.taken _ hmem) hfull
  · have hlt := Nat.lt_of_le_of_ne h.room hfull
    exact iff_of_false (fun hne => hne (h.free rest.length (Nat.le_refl _) hlt)) hfull

/-- All slots are occupied when the queue is full. -/
theorem slot_of_full (h : Queued cfg q n rest) (hfull : rest.length = slots cfg) {i : Nat}
    (hi : i < slots cfg) : (q.slot i).id ≠ ELUA_INT_EMPTY_SLOT :=
  h.taken _ (h.holds.mem_of_full hfull hi)

/-- An interrupt goes behind the others. -/
theorem push (h : Queued cfg q n rest) (hroom : rest.length < slots cfg) {e : Element}
    (he : e.id ≠ ELUA_INT_EMPTY_SLOT) :
    Queued cfg { q with
      slot := fun i => if i = q.writeIdx then e else q.slot i
      writeIdx := nextIdx cfg q.writeIdx } n (rest ++ [e]) := by
  refine ⟨h.holds.push hroom ?_ fun i hi => ?_, ?_, fun x hx => ?_, fun k hlo hhi => ?_, ?_⟩
  · rw [← h.writeIdx]
    exact if_pos rfl
  · rw [← h.writeIdx] at hi
    exact if_neg hi
  · rw [List.length_append, List.length_singleton]
    exact hroom
  · rcases List.mem_append.mp hx with hx | hx
    · exact h.taken x hx
    · exact List.mem_singleton.mp hx ▸ he
  · rw [List.length_append, List.length_singleton] at hlo
    have hne : (n + k) % slots cfg ≠ q.writeIdx := by
      rw [h.writeIdx]
      exact (Ring.slot_ne (by omega) (by omega)).symm
    simp only [if_neg hne]
    exact h.free k (by omega) hhi
  · rw [List.length_append, List.length_singleton, ← Nat.add_assoc, ← nextIdx_mod, ← h.writeIdx]

/-- The first interrupt leaves its slot. -/
theorem freeSlot {e : Element} (h : Queued cfg q n (e :: rest))
    (hread : q.readIdx = n % slots cfg) : Queued cfg (freeSlot q) (n + 1) rest := by
  have hroom := h.room
  rw [List.length_cons] at hroom
  have hwrite := h.writeIdx
  rw [List.length_cons, Nat.add_comm rest.length, ← Nat.add_assoc] at hwrite
  refine ⟨h.holds.2.congr fun k hk => ?_, by omega,
    fun x hx => h.taken x (List.mem_cons_of_mem e hx), fun k hlo hhi => ?_, hwrite⟩
  · refine if_neg ?_
    rw [hread]
    exact (Ring.slot_ne (by omega) (by omega)).symm
  · by_cases hslot : (n + 1 + k) % slots cfg = q.readIdx
    · simp only [Interrupt.freeSlot, if_pos hslot]
    · simp only [Interrupt.freeSlot, if_neg hslot]
      have hlast : k + 1 ≠ slots cfg := by
        rintro hk
        rw [hread, Nat.add_assoc, Nat.add_comm 1, hk, Nat.add_mod_right] at hslot
        exact hslot rfl
      have hfree := h.free (k + 1) (by rw [List.length_cons]; omega) (by omega)
      rwa [Nat.add_comm k, ← Nat.add_assoc] at hfree

end Queued

/-! ## Whole systems -/

/-- 1 between the freeing of a slot and the move of the read index. -/
def pending : List Frame → Nat
  | ⟨_, .freed _⟩ :: _ => 1
  | _ => 0

/-- What the innermost hook execution relies on. -/
def TopOk (rest : List Element) : List Frame → Prop
  | ⟨_, .entered⟩ :: _ => rest ≠ []
  | ⟨_, .copied crt⟩ :: _ => rest.head? = some crt
  | _ => True

/-- The invariant, where `runs` has the Lua states that the hook can fire on. -/
structure Inv (cfg : Platform) (runs : Nat → Bool) (s : System) (rest : List Element) : Prop where
  accepted : s.accepted = s.dequeued ++ rest
  queued : Queued cfg s.queue s.dequeued.length rest
  readIdx : ∃ r, r + pending s.frames = s.dequeued.length ∧ s.queue.readIdx = r % slots cfg
  top : TopOk rest s.frames
  outer : ∀ f ∈ s.frames.tail, f.pc = .calling
  within : ∀ l ∈ s.executing, runs l
  main : rest ≠ [] → mainState ∈ s.hooked
  removed : ∀ l ∈ s.hooked, runs l → l ∉ s.executing → rest ≠ []
  threads : 0 < s.threads
  closed : s.running = false →
    (∀ i, i < LUA_INT_MAX_SOURCES / 32 → s.queue.flags i = 0) ∧ s.frames = []

/-- The steps after which no Lua state outside of the hook has it installed
while the queue is empty, and the main Lua state has it otherwise. -/
def Allowed (cfg : Platform) (runs : Nat → Bool) (s : System) : Action → Prop
  | .fire l => runs l
  | .hook _ =>
      s.freeing = true → (s.left cfg).length = 1 → ∀ l ∈ s.hooked, runs l → l ∈ s.executing
  | .handlerFails dead =>
      ∀ f ∈ s.frames.head?, dead = false → f.state ∈ s.hooked → s.left cfg ≠ []
  | .newThread creator => creator ∈ s.hooked → runs s.threads → s.left cfg ≠ []
  | .otherHook l => l = mainState → s.left cfg = []
  | _ => True

variable {runs : Nat → Bool} {s s' : System} {rest : List Element}

namespace Inv

theorem init : Inv cfg runs System.init [] := by
  refine ⟨rfl, Queued.init, ⟨0, rfl, (Nat.zero_mod _).symm⟩, trivial, ?_, ?_, fun h => absurd rfl h,
    ?_, Nat.one_pos, fun _ => ⟨fun _ _ => rfl, rfl⟩⟩
  · exact fun _ h => absurd h List.not_mem_nil
  · exact fun _ h => absurd h List.not_mem_nil
  · exact fun _ h => absurd h List.not_mem_nil

theorem firstIdx_eq (h : Inv cfg runs s rest) :
    s.firstIdx cfg = s.dequeued.length % slots cfg := by
  obtain ⟨r, hr, hread⟩ := h.readIdx
  rw [System.firstIdx, ← hr, hread]
  match s.frames with
  | [] => rfl
  | ⟨_, .freed _⟩ :: _ => exact nextIdx_mod cfg r
  | ⟨_, .entered⟩ :: _ | ⟨_, .copied _⟩ :: _ | ⟨_, .moved _⟩ :: _ | ⟨_, .calling⟩ :: _
  | ⟨_, .finishing⟩ :: _ => rfl

/-- What is left in the queue. -/
theorem left_eq (h : Inv cfg runs s rest) : s.left cfg = rest := by
  rw [System.left, h.firstIdx_eq, h.queued.occupied_eq]

/-- Without a Lua state no interrupt is enabled. -/
theorem running_of_enabled (h : Inv cfg runs s rest) {inttype : UInt8}
    (hen : eluaIntIsEnabled s.queue inttype = true) : s.running = true := by
  by_contra hclosed
  have hflags := (h.closed (Bool.eq_false_iff.mpr hclosed)).1
  unfold eluaIntIsEnabled at hen
  split at hen
  · rename_i hlt
    have hword : inttype.toNat >>> 5 < LUA_INT_MAX_SOURCES / 32 := by
      rw [Nat.shiftRight_eq_div_pow]
      unfold LUA_INT_MAX_SOURCES at *
      omega
    rw [hflags _ hword] at hen
    simp at hen
  · exact Bool.false_ne_true hen

theorem add (h : Inv cfg runs s rest) (inttype : UInt8) (resnum : UInt16) :
    ∃ rest', Inv cfg runs (s.add cfg inttype resnum) rest' := by
  unfold System.add eluaIntAdd
  by_cases hvalid : validId cfg inttype = false
  · rw [if_pos hvalid]
    exact ⟨rest, h⟩
  by_cases hoff : s.running = false ∨ eluaIntIsEnabled s.queue inttype = false
  · rw [if_neg hvalid, if_pos hoff]
    exact ⟨rest, h⟩
  by_cases hfull : (s.queue.slot s.queue.writeIdx).id ≠ ELUA_INT_EMPTY_SLOT
  · rw [if_neg hvalid, if_neg hoff, if_pos hfull]
    exact ⟨rest, h⟩
  rw [if_neg hvalid, if_neg hoff, if_neg hfull]
  have hroom : rest.length < slots cfg :=
    Nat.lt_of_le_of_ne h.queued.room fun heq => hfull (h.queued.full_iff.mpr heq)
  have hid : inttype ≠ ELUA_INT_EMPTY_SLOT := by
    rintro rfl
    exact hvalid (by simp [validId, ELUA_INT_FIRST_ID, ELUA_INT_EMPTY_SLOT])
  have hne : rest ++ [⟨inttype, resnum⟩] ≠ [] := List.append_ne_nil_of_right_ne_nil _ (by simp)
  refine ⟨rest ++ [⟨inttype, resnum⟩], ?_, h.queued.push hroom hid, h.readIdx, ?_, h.outer,
    h.within, fun _ => List.mem_cons_self, fun _ _ _ _ => hne, h.threads, fun hr => ?_⟩
  · rw [h.accepted, List.append_assoc]
  · have htop := h.top
    match s.frames, htop with
    | ⟨_, .entered⟩ :: _, _ => exact hne
    | ⟨_, .copied _⟩ :: _, htop =>
        obtain ⟨_, hrest⟩ := List.head?_eq_some_iff.mp htop
        exact hrest ▸ rfl
    | [], _ | ⟨_, .freed _⟩ :: _, _ | ⟨_, .moved _⟩ :: _, _ | ⟨_, .calling⟩ :: _, _
    | ⟨_, .finishing⟩ :: _, _ => trivial
  · exact absurd (.inl hr) hoff

/-- Only a hook execution in a handler, or none, lets Lua code run. -/
theorem luaRuns_cases {s : System} (h : s.luaRuns = true) :
    s.running = true ∧ (s.frames = [] ∨ ∃ l fs, s.frames = ⟨l, .calling⟩ :: fs) := by
  rw [System.luaRuns, Bool.and_eq_true] at h
  obtain ⟨hrunning, htop⟩ := h
  refine ⟨hrunning, ?_⟩
  cases hframes : s.frames with
  | nil => exact .inl rfl
  | cons f fs =>
      obtain ⟨l, pc⟩ := f
      rw [hframes] at htop
      obtain rfl : pc = .calling := by simpa using htop
      exact .inr ⟨l, fs, rfl⟩

/-- What Lua code does to the flags and to the hooks of Lua states. -/
theorem lua (h : Inv cfg runs s rest) (hrunning : s.running = true) {flags : Nat → BitVec 32}
    {hooked : List Nat} {threads : Nat} (hthreads : 0 < threads)
    (hmain : rest ≠ [] → mainState ∈ hooked)
    (hremoved : ∀ l ∈ hooked, runs l → l ∉ s.executing → rest ≠ []) :
    Inv cfg runs
      { s with queue := { s.queue with flags := flags }, hooked := hooked, threads := threads }
      rest := by
  refine ⟨h.accepted, ⟨h.queued.holds, h.queued.room, h.queued.taken, h.queued.free,
    h.queued.writeIdx⟩, h.readIdx, h.top, h.outer, h.within, hmain, hremoved, hthreads, ?_⟩
  intro hr
  exact absurd hrunning (Bool.eq_false_iff.mp hr)

theorem fire (h : Inv cfg runs s rest) {l : Nat} (hl : runs l) (hlua : s.luaRuns = true)
    (hhooked : l ∈ s.hooked) (hidle : l ∉ s.executing) :
    Inv cfg runs { s with frames := ⟨l, .entered⟩ :: s.frames } rest := by
  obtain ⟨hrunning, hframes⟩ := luaRuns_cases hlua
  have hleft : rest ≠ [] := h.removed l hhooked hl hidle
  refine ⟨h.accepted, h.queued, ?_, hleft, ?_, ?_, h.main, fun _ _ _ _ => hleft, h.threads, ?_⟩
  · obtain ⟨r, hr, hread⟩ := h.readIdx
    refine ⟨r, ?_, hread⟩
    rcases hframes with hnil | ⟨l', fs, hcons⟩
    · rwa [hnil] at hr
    · rwa [hcons] at hr
  · intro f hf
    rcases hframes with hnil | ⟨l', fs, hcons⟩
    · rw [List.tail_cons, hnil] at hf
      exact absurd hf List.not_mem_nil
    · rw [List.tail_cons, hcons] at hf
      rcases List.mem_cons.mp hf with rfl | hf
      · rfl
      · exact h.outer f (hcons ▸ hf)
  · intro l' hl'
    rcases List.mem_cons.mp hl' with rfl | hl'
    · exact hl
    · exact h.within l' hl'
  · exact fun hr => absurd hrunning (Bool.eq_false_iff.mp hr)

/-- The hook execution on `l`, the innermost one, is at another statement. -/
theorem moved {l : Nat} {pc pc' : Pc} {fs : List Frame} (h : Inv cfg runs s rest)
    (hframes : s.frames = ⟨l, pc⟩ :: fs) {r : Nat} {q : Queue}
    (hq : q = s.queue ∨ q = moveRead cfg s.queue)
    (hr : r + pending (⟨l, pc'⟩ :: fs) = s.dequeued.length) (hread : q.readIdx = r % slots cfg)
    (htop : TopOk rest (⟨l, pc'⟩ :: fs)) :
    Inv cfg runs { s with queue := q, frames := ⟨l, pc'⟩ :: fs } rest := by
  have hsame : q.slot = s.queue.slot ∧ q.writeIdx = s.queue.writeIdx := by
    rcases hq with rfl | rfl
    · exact ⟨rfl, rfl⟩
    · exact ⟨rfl, rfl⟩
  have hexec : System.executing { s with queue := q, frames := ⟨l, pc'⟩ :: fs } = s.executing := by
    simp only [System.executing, hframes, List.map_cons]
  have hqueued := h.queued
  refine ⟨h.accepted, ?_, ⟨r, hr, hread⟩, htop, ?_, hexec ▸ h.within, h.main, hexec ▸ h.removed,
    h.threads, fun hclosed => ?_⟩
  · refine ⟨?_, hqueued.room, hqueued.taken, ?_, ?_⟩
    · rw [hsame.1]
      exact hqueued.holds
    · rw [hsame.1]
      exact hqueued.free
    · rw [hsame.2]
      exact hqueued.writeIdx
  · exact fun f hf => h.outer f (hframes ▸ hf)
  · exact absurd (hframes ▸ (h.closed hclosed).2) (List.cons_ne_nil _ _)

/-- The innermost hook execution ends, and what it leaves. -/
theorem popped {l : Nat} {pc : Pc} {fs : List Frame} (h : Inv cfg runs s rest)
    (hframes : s.frames = ⟨l, pc⟩ :: fs) (hpc : pending s.frames = 0) {hooked : List Nat}
    (hsub : ∀ l' ∈ hooked, l' ∈ s.hooked) (hmain : rest ≠ [] → mainState ∈ hooked)
    (hl : l ∈ hooked → l ∉ fs.map Frame.state → rest ≠ []) :
    Inv cfg runs { s with hooked := hooked, frames := fs } rest := by
  have houter : ∀ f ∈ fs, f.pc = .calling := fun f hf => h.outer f (hframes ▸ hf)
  have hexec : s.executing = l :: fs.map Frame.state := by
    rw [System.executing, hframes, List.map_cons]
  refine ⟨h.accepted, h.queued, ?_, ?_, ?_, ?_, hmain, ?_, h.threads, fun hclosed => ?_⟩
  · obtain ⟨r, hr, hread⟩ := h.readIdx
    rw [hpc] at hr
    refine ⟨r, ?_, hread⟩
    match fs, houter with
    | [], _ => exact hr
    | ⟨_, pc'⟩ :: _, houter =>
        obtain rfl : pc' = .calling := houter _ List.mem_cons_self
        exact hr
  · match fs, houter with
    | [], _ => trivial
    | ⟨_, pc'⟩ :: _, houter =>
        obtain rfl : pc' = .calling := houter _ List.mem_cons_self
        trivial
  · exact fun f hf => houter f (List.mem_of_mem_tail hf)
  · exact fun l' hl' => h.within l' (hexec ▸ List.mem_cons_of_mem l hl')
  · intro l' hhooked hruns hidle
    by_cases heq : l' = l
    · exact hl (heq ▸ hhooked) (heq ▸ hidle)
    · refine h.removed l' (hsub l' hhooked) hruns ?_
      rw [hexec]
      exact fun hmem => (List.mem_cons.mp hmem).elim heq hidle
  · exact absurd (hframes ▸ (h.closed hclosed).2) (List.cons_ne_nil _ _)

theorem hook (h : Inv cfg runs s rest) {handler : Bool} (hok : Allowed cfg runs s (.hook handler))
    (hstep : s.hook cfg handler = some s') : ∃ rest', Inv cfg runs s' rest' := by
  obtain ⟨r, hr, hread⟩ := h.readIdx
  have htop := h.top
  unfold System.hook at hstep
  cases hframes : s.frames with
  | nil => simp [hframes] at hstep
  | cons f fs =>
      obtain ⟨l, pc⟩ := f
      simp only [hframes] at hstep htop hr
      cases pc with
      | entered =>
          obtain rfl := Option.some.inj hstep
          refine ⟨rest, h.moved hframes (.inl rfl) hr hread ?_⟩
          obtain ⟨e, rest', rfl⟩ := List.exists_cons_of_ne_nil htop
          -- the slot at the read index has the first interrupt
          have hfirst : s.queue.slot (s.dequeued.length % slots cfg) = e := h.queued.holds.1
          replace hr : r = s.dequeued.length := hr
          rw [← hr, ← hread] at hfirst
          exact congrArg some hfirst.symm
      | copied crt =>
          obtain rfl := Option.some.inj hstep
          obtain ⟨rest', rfl⟩ := List.head?_eq_some_iff.mp htop
          replace hr : r = s.dequeued.length := hr
          have hexec : s.executing = l :: fs.map Frame.state := by
            rw [System.executing, hframes, List.map_cons]
          refine ⟨rest', ?_, ?_, ⟨r, ?_, hread⟩, trivial, fun f hf => h.outer f (hframes ▸ hf),
            ?_, fun _ => h.main (List.cons_ne_nil crt rest'), ?_, h.threads, fun hclosed => ?_⟩
          · rw [h.accepted, List.append_assoc, List.singleton_append]
          · rw [List.length_append, List.length_singleton]
            exact h.queued.freeSlot (hr ▸ hread)
          · rw [List.length_append, List.length_singleton, ← hr]
            rfl
          · intro l' hl'
            refine h.within l' ?_
            rw [hexec]
            exact hl'
          · rintro l' hhooked hruns hidle rfl
            have hfreeing : s.freeing = true := by rw [System.freeing, hframes]
            have hlast : (s.left cfg).length = 1 := by rw [h.left_eq, List.length_singleton]
            have hmem := hok hfreeing hlast l' hhooked hruns
            rw [hexec] at hmem
            exact hidle hmem
          · exact absurd (hframes ▸ (h.closed hclosed).2) (List.cons_ne_nil _ _)
      | freed crt =>
          obtain rfl := Option.some.inj hstep
          refine ⟨rest, h.moved hframes (.inr rfl) (r := r + 1) hr ?_ trivial⟩
          rw [moveRead, hread]
          exact nextIdx_mod cfg r
      | moved crt =>
          obtain rfl := Option.some.inj hstep
          refine ⟨rest, h.moved hframes (.inl rfl) (r := r) ?_ hread ?_⟩
          · split
            · exact hr
            · exact hr
          · split
            · trivial
            · trivial
      | calling => cases hstep
      | finishing =>
          obtain rfl := Option.some.inj hstep
          replace hr : r = s.dequeued.length := hr
          have hnone := h.queued.noMore_iff (hr ▸ hread)
          refine ⟨rest, h.popped hframes (hframes ▸ rfl) ?_ ?_ ?_⟩
          · intro l' hl'
            split at hl'
            · exact List.mem_of_mem_filter hl'
            · exact hl'
          · intro hleft
            rw [if_neg fun hno => hleft (hnone.mp hno)]
            exact h.main hleft
          · intro hl _ hnil
            rw [if_pos (hnone.mpr hnil)] at hl
            simp at hl

theorem handlerReturns (h : Inv cfg runs s rest) (hstep : s.handlerReturns = some s') :
    Inv cfg runs s' rest := by
  obtain ⟨r, hr, hread⟩ := h.readIdx
  unfold System.handlerReturns at hstep
  split at hstep
  · rename_i l fs hframes
    obtain rfl := Option.some.inj hstep
    rw [hframes] at hr
    exact h.moved hframes (.inl rfl) hr hread trivial
  · cases hstep

theorem handlerFails (h : Inv cfg runs s rest) {dead : Bool}
    (hok : Allowed cfg runs s (.handlerFails dead)) (hstep : s.handlerFails dead = some s') :
    Inv cfg runs s' rest := by
  unfold System.handlerFails at hstep
  split at hstep
  · rename_i l fs hframes
    by_cases hmain : dead ∧ l = mainState
    · rw [if_pos hmain] at hstep
      cases hstep
    rw [if_neg hmain] at hstep
    obtain rfl := Option.some.inj hstep
    refine h.popped hframes (hframes ▸ rfl) ?_ ?_ ?_
    · intro l' hl'
      split at hl'
      · exact List.mem_of_mem_filter hl'
      · exact hl'
    · intro hleft
      split
      · rename_i hdead
        refine List.mem_filter.mpr ⟨h.main hleft, ?_⟩
        simpa using fun heq => hmain ⟨hdead, heq.symm⟩
      · exact h.main hleft
    · intro hl _
      cases hdead : dead with
      | true =>
          rw [hdead, if_pos rfl] at hl
          simp at hl
      | false =>
          rw [hdead, if_neg Bool.false_ne_true] at hl
          rw [← h.left_eq]
          exact hok ⟨l, .calling⟩ (hframes ▸ rfl) hdead hl
  · cases hstep

/-- **One step.**  Every step that is allowed keeps the invariant. -/
theorem step {a : Action} (h : Inv cfg runs s rest) (hok : Allowed cfg runs s a)
    (hstep : System.step cfg s a = some s') : ∃ rest', Inv cfg runs s' rest' := by
  cases a with
  | opened =>
      simp only [System.step, Option.ite_none_left_eq_some, Option.some.injEq] at hstep
      obtain ⟨hrunning, rfl⟩ := hstep
      exact ⟨rest, h.accepted, h.queued, h.readIdx, h.top, h.outer, h.within, h.main, h.removed,
        Nat.one_pos, fun hr => absurd hr (by simp)⟩
  | closed =>
      simp only [System.step, Option.ite_none_right_eq_some, Option.some.injEq] at hstep
      obtain ⟨-, rfl⟩ := hstep
      refine ⟨[], rfl, ?_, ⟨0, rfl, (Nat.zero_mod _).symm⟩, trivial, ?_, ?_, fun h => absurd rfl h,
        ?_, Nat.one_pos, fun _ => ⟨fun i hi => if_pos hi, rfl⟩⟩
      · exact ⟨trivial, Nat.zero_le _, fun _ he => absurd he List.not_mem_nil, fun _ _ _ => rfl,
          (Nat.zero_mod _).symm⟩
      · exact fun _ h => absurd h List.not_mem_nil
      · exact fun _ h => absurd h List.not_mem_nil
      · exact fun _ h => absurd h List.not_mem_nil
  | enable inttype =>
      simp only [System.step, Option.ite_none_right_eq_some, Option.some.injEq] at hstep
      obtain ⟨hlua, rfl⟩ := hstep
      rw [eluaIntEnable]
      split
      · exact ⟨rest, h.lua (luaRuns_cases hlua).1 h.threads h.main h.removed⟩
      · exact ⟨rest, h⟩
  | disable inttype =>
      simp only [System.step, Option.ite_none_right_eq_some, Option.some.injEq] at hstep
      obtain ⟨hlua, rfl⟩ := hstep
      rw [eluaIntDisable]
      split
      · exact ⟨rest, h.lua (luaRuns_cases hlua).1 h.threads h.main h.removed⟩
      · exact ⟨rest, h⟩
  | add inttype resnum =>
      obtain rfl := Option.some.inj hstep
      exact h.add inttype resnum
  | fire l =>
      simp only [System.step, Option.ite_none_right_eq_some, Option.some.injEq] at hstep
      obtain ⟨⟨hlua, hhooked, hidle⟩, rfl⟩ := hstep
      exact ⟨rest, h.fire hok hlua hhooked hidle⟩
  | hook handler => exact h.hook hok hstep
  | handlerReturns => exact ⟨rest, h.handlerReturns hstep⟩
  | handlerFails dead => exact ⟨rest, h.handlerFails hok hstep⟩
  | newThread creator =>
      simp only [System.step, Option.ite_none_right_eq_some, Option.some.injEq] at hstep
      obtain ⟨⟨hlua, -⟩, rfl⟩ := hstep
      refine ⟨rest, h.lua (luaRuns_cases hlua).1 (Nat.succ_pos _) ?_ ?_⟩
      · intro hleft
        split
        · exact List.mem_cons_of_mem _ (h.main hleft)
        · exact h.main hleft
      · intro l hl hruns hidle
        split at hl
        · rename_i hcreator
          rcases List.mem_cons.mp hl with rfl | hl
          · rw [← h.left_eq]
            exact hok hcreator hruns
          · exact h.removed l hl hruns hidle
        · exact h.removed l hl hruns hidle
  | threadEnds l =>
      simp only [System.step, Option.ite_none_right_eq_some, Option.some.injEq] at hstep
      obtain ⟨⟨hlua, hmain, -⟩, rfl⟩ := hstep
      refine ⟨rest, h.lua (luaRuns_cases hlua).1 h.threads ?_ ?_⟩
      · exact fun hleft => List.mem_filter.mpr ⟨h.main hleft, by simpa using hmain.symm⟩
      · exact fun l' hl' => h.removed l' (List.mem_of_mem_filter hl')
  | otherHook l =>
      simp only [System.step, Option.ite_none_right_eq_some, Option.some.injEq] at hstep
      obtain ⟨hlua, rfl⟩ := hstep
      refine ⟨rest, h.lua (luaRuns_cases hlua).1 h.threads ?_ ?_⟩
      · intro hleft
        have hne : l ≠ mainState := fun heq => hleft (h.left_eq ▸ hok heq)
        exact List.mem_filter.mpr ⟨h.main hleft, by simpa using hne.symm⟩
      · exact fun l' hl' => h.removed l' (List.mem_of_mem_filter hl')

/-- **Runs.**  What keeps the invariant step by step keeps it in every run. -/
theorem of_run {ok : System → Action → Prop}
    (hstep : ∀ s a s' rest, Inv cfg runs s rest → ok s a → System.step cfg s a = some s' →
      ∃ rest', Inv cfg runs s' rest')
    {actions : List Action}
    (hok : Transition.Conforming (System.step cfg) ok System.init actions)
    (hrun : Transition.run (System.step cfg) System.init actions = some s) :
    ∃ rest, Inv cfg runs s rest :=
  @Transition.invariant_of_run _ _ _ ok (fun s => ∃ rest, Inv cfg runs s rest)
    (fun s a s' ⟨rest, h⟩ => hstep s a s' rest h) _ _ _ ⟨[], init⟩ hok hrun

end Inv

end Interrupt
