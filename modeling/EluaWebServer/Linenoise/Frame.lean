import EluaWebServer.Linenoise.Prompt

/-!
# A prompt that adds nothing

As long as the temporary entry is there and no key costs a line, the history of `linenoisePrompt`
has all lines in their places, but for the one that is shown, which is stored again when it is
left.  A line that is lost does not come back before the prompt returns.
-/

namespace Linenoise

/-! ## One key -/

section

variable {room : Nat} {lines : List Line} {p : Prompt} {k : Key × Bool}

theorem edit_lines (room : Nat) (p : Prompt) (k : Key) : (p.edit room k).lines = p.lines := by
  cases k <;> simp only [Prompt.edit] <;> split_ifs <;> rfl

theorem edit_index (room : Nat) (p : Prompt) (k : Key) : (p.edit room k).index = p.index := by
  cases k <;> simp only [Prompt.edit] <;> split_ifs <;> rfl

/-- The text stays in the buffer. -/
theorem edit_length_le (h : p.buf.length ≤ room) (k : Key) :
    (p.edit room k).buf.length ≤ room := by
  cases k with
  | backspace =>
      simp only [Prompt.edit]
      split_ifs
      · simp only [List.length_append, List.length_take, List.length_drop]
        omega
      · exact h
  | left =>
      simp only [Prompt.edit]
      split_ifs
      · exact h
      · exact h
  | right =>
      simp only [Prompt.edit]
      split_ifs
      · exact h
      · exact h
  | del =>
      simp only [Prompt.edit]
      split_ifs
      · simp only [List.length_append, List.length_take, List.length_drop]
        omega
      · exact h
  | ctrlU => exact Nat.zero_le room
  | ctrlK => exact Nat.le_trans (List.length_take_le' p.pos p.buf) h
  | other c =>
      simp only [Prompt.edit]
      split_ifs with hc
      · have hroom := hc.2
        simp only [List.length_append, List.length_cons, List.length_take, List.length_drop]
        omega
      · exact h
  | _ => exact h

@[simp] theorem store_length (p : Prompt) (alloc : Bool) :
    (p.store alloc).lines.length = p.lines.length :=
  List.length_set

theorem store_cur (p : Prompt) (alloc : Bool) : (p.store alloc).cur = p.cur := by
  rw [Prompt.cur, store_length]
  rfl

theorem store_other {i : Nat} (h : i ≠ p.cur) (alloc : Bool) :
    (p.store alloc).lines[i]? = p.lines[i]? :=
  List.getElem?_set_ne h.symm

theorem store_at (h : p.cur < p.lines.length) (alloc : Bool) :
    (p.store alloc).lines[p.cur]? = some (if alloc then some p.buf else none) :=
  List.getElem?_set_self h

/-- Browsing, by where it leads. -/
theorem browse_eq (hindex : p.index < p.lines.length) (up alloc : Bool) :
    p.browse room up alloc =
      if 1 < p.lines.length then
        match p.target up with
        | none => .reading (p.store alloc)
        | some j => (p.store alloc).recall room j
      else .reading p := by
  unfold Prompt.browse Prompt.target
  cases up with
  | true =>
      by_cases htop : p.lines.length ≤ p.index + 1
      · have hsame : p.lines.length - 1 = p.index := by omega
        simp only [if_pos htop, if_true, hsame]
        rfl
      · simp only [if_neg htop, if_true]
  | false =>
      by_cases hzero : p.index = 0
      · simp [hzero]
      · simp [hzero]

theorem target_lt {up : Bool} {j : Nat} (hindex : p.index < p.lines.length)
    (h : p.target up = some j) : j < p.lines.length ∧ j ≠ p.index := by
  unfold Prompt.target at h
  split_ifs at h
  · cases h
    omega
  · cases h
    omega

/-- What holds of a prompt however the lines are treated. -/
structure Framed (room : Nat) (lines : List Line) (p : Prompt) : Prop where
  length : p.lines.length = lines.length + 1
  index : p.index ≤ lines.length
  buf : p.buf.length ≤ room

/-- Every line is in its place, or is shown and will be. -/
structure Sound (room : Nat) (lines : List Line) (p : Prompt) : Prop extends
    Framed room lines p where
  others : ∀ i line, lines[i]? = some line → i ≠ p.cur → p.lines[i]? = some (some line)
  shown : ∀ line, lines[p.cur]? = some line → p.buf = line.take room ∧
    (p.lines[p.cur]? = some (some line) ∨
      p.lines[p.cur]? = some none ∧ line.length ≤ room)

/-- Every line is in its place. -/
def Complete (lines : List Line) (p : Prompt) : Prop :=
  ∀ (i : Nat) (line : Line), lines[i]? = some line → p.lines[i]? = some (some line)

/-- A line is not in its place, and recalling what is there does not give it. -/
def Lost (room : Nat) (p : Prompt) (i : Nat) (line : Line) : Prop :=
  ∀ t, p.lines[i]? = some (some t) → t ≠ line ∧ t.length ≤ room

/-- A line is lost. -/
structure Damaged (room : Nat) (lines : List Line) (p : Prompt) : Prop extends
    Framed room lines p where
  lost : ∃ i line, lines[i]? = some line ∧ (i = p.cur → p.buf ≠ line) ∧ Lost room p i line

theorem Framed.cur_eq (h : Framed room lines p) : p.cur = lines.length - p.index := by
  rw [Prompt.cur, h.length]
  rfl

theorem Framed.cur_lt (h : Framed room lines p) : p.cur < p.lines.length := by
  have hlength := h.length
  rw [h.cur_eq]
  omega

/-- A line is shown exactly when the index is not zero. -/
theorem Framed.index_ne_iff (h : Framed room lines p) :
    p.index ≠ 0 ↔ ∃ line, lines[p.cur]? = some line := by
  have hindex := h.index
  rw [h.cur_eq]
  constructor
  · intro hne
    exact ⟨_, List.getElem?_eq_getElem (by omega)⟩
  · intro hline hzero
    obtain ⟨line, hline⟩ := hline
    have hlt := (List.getElem?_eq_some_iff.mp hline).1
    omega

theorem Framed.edit (h : Framed room lines p) (k : Key) : Framed room lines (p.edit room k) where
  length := by rw [edit_lines, h.length]
  index := by rw [edit_index]; exact h.index
  buf := edit_length_le h.buf k

theorem Framed.store (h : Framed room lines p) (alloc : Bool) :
    Framed room lines (p.store alloc) where
  length := by rw [store_length, h.length]
  index := h.index
  buf := h.buf

theorem edit_cur (room : Nat) (p : Prompt) (k : Key) : (p.edit room k).cur = p.cur := by
  rw [Prompt.cur, Prompt.cur, edit_lines, edit_index]

/-- Editing, when no text of a line is changed. -/
theorem Sound.edit (h : Sound room lines p) {key : Key}
    (htext : p.index ≠ 0 → (p.edit room key).buf = p.buf) :
    Sound room lines (p.edit room key) where
  toFramed := h.toFramed.edit key
  others := by
    intro i line hline hi
    rw [edit_cur] at hi
    rw [edit_lines]
    exact h.others i line hline hi
  shown := by
    intro line hline
    rw [edit_cur] at hline ⊢
    rw [htext (h.index_ne_iff.mpr ⟨line, hline⟩), edit_lines]
    exact h.shown line hline

theorem Damaged.edit (h : Damaged room lines p) {key : Key}
    (htext : p.index ≠ 0 → (p.edit room key).buf = p.buf) :
    Damaged room lines (p.edit room key) where
  toFramed := h.toFramed.edit key
  lost := by
    obtain ⟨i, line, hline, hshown, hstored⟩ := h.lost
    refine ⟨i, line, hline, ?_, ?_⟩
    · intro hi
      rw [edit_cur] at hi
      rw [htext (h.index_ne_iff.mpr ⟨line, hi ▸ hline⟩)]
      exact hshown hi
    · intro t ht
      rw [edit_lines] at ht
      exact hstored t ht

/-! ## Browsing and the end -/

/-- Either all is well, or it will not be. -/
def Intact (room : Nat) (lines : List Line) : Phase → Prop
  | .reading p => Sound room lines p
  | .returned _ left => left = lines.map some
  | .fault => False

def Broken (room : Nat) (lines : List Line) : Phase → Prop
  | .reading p => Damaged room lines p
  | .returned _ left => left ≠ lines.map some
  | .fault => True

theorem Sound.fits (h : Sound room lines p)
    (hfits : p.index ≠ 0 → ∀ line, p.lines[p.cur]? = some (some line) → line.length ≤ room)
    {line : Line} (hline : lines[p.cur]? = some line) : line.length ≤ room := by
  obtain ⟨-, hstored⟩ := h.shown line hline
  cases hstored with
  | inl hstored => exact hfits (h.index_ne_iff.mpr ⟨line, hline⟩) line hstored
  | inr hstored => exact hstored.2

/-- A line that fits is stored as it was. -/
theorem Sound.store (h : Sound room lines p) (alloc : Bool)
    (hfits : p.index ≠ 0 → ∀ line, p.lines[p.cur]? = some (some line) → line.length ≤ room) :
    Sound room lines (p.store alloc) where
  toFramed := h.toFramed.store alloc
  others := by
    intro i line hline hi
    rw [store_cur] at hi
    rw [store_other hi]
    exact h.others i line hline hi
  shown := by
    intro line hline
    rw [store_cur] at hline ⊢
    have hlength := h.fits hfits hline
    have hbuf : p.buf = line := (h.shown line hline).1.trans (List.take_of_length_le hlength)
    refine ⟨(h.shown line hline).1, ?_⟩
    rw [store_at h.cur_lt]
    cases alloc with
    | true => exact .inl (by simp [hbuf])
    | false => exact .inr ⟨rfl, hlength⟩

theorem Sound.complete_store (h : Sound room lines p) {alloc : Bool}
    (hfits : p.index ≠ 0 → ∀ line, p.lines[p.cur]? = some (some line) → line.length ≤ room)
    (halloc : p.index ≠ 0 → alloc = true) : Complete lines (p.store alloc) := by
  intro i line hline
  by_cases hi : i = p.cur
  · subst hi
    have hlength := h.fits hfits hline
    have hbuf : p.buf = line := (h.shown line hline).1.trans (List.take_of_length_le hlength)
    rw [store_at h.cur_lt, halloc (h.index_ne_iff.mpr ⟨line, hline⟩)]
    simp [hbuf]
  · rw [store_other hi]
    exact h.others i line hline hi

/-- A line that does not fit, or is not stored at all, is lost. -/
theorem Sound.lost_store (h : Sound room lines p) {alloc : Bool} {line : Line}
    (hbad : alloc = true → room < line.length) :
    Lost room (p.store alloc) p.cur line := by
  intro t ht
  rw [store_at h.cur_lt] at ht
  cases alloc with
  | false => cases ht
  | true =>
      have hbuf : t = p.buf := by
        simpa using ht.symm
      have hlength := h.buf
      rw [hbuf]
      refine ⟨?_, hlength⟩
      intro heq
      have hlong := hbad rfl
      rw [← heq] at hlong
      omega

/-- What is lost stays lost when an entry is stored. -/
theorem Damaged.store (h : Damaged room lines p) (alloc : Bool) :
    Damaged room lines (p.store alloc) where
  toFramed := h.toFramed.store alloc
  lost := by
    obtain ⟨i, line, hline, hshown, hlost⟩ := h.lost
    refine ⟨i, line, hline, ?_, ?_⟩
    · rw [store_cur]
      exact hshown
    · intro t ht
      by_cases hi : i = p.cur
      · rw [hi, store_at h.cur_lt] at ht
        cases alloc with
        | false => cases ht
        | true =>
            have hbuf : t = p.buf := by
              simpa using ht.symm
            rw [hbuf]
            exact ⟨hshown hi, h.buf⟩
      · rw [store_other hi] at ht
        exact hlost t ht

theorem recall_intact {j : Nat} (h : Framed room lines p) (hcomplete : Complete lines p)
    (hj : j ≤ lines.length) (hnull : p.lines[p.lines.length - 1 - j]? ≠ some none) :
    Intact room lines (p.recall room j) := by
  have hlength := h.length
  have hlt : p.lines.length - 1 - j < p.lines.length := by omega
  cases hentry : p.lines[p.lines.length - 1 - j]? with
  | none =>
      rw [List.getElem?_eq_none_iff] at hentry
      omega
  | some entry =>
      cases entry with
      | none => exact absurd hentry hnull
      | some t =>
          rw [Prompt.recall, hentry]
          refine ⟨⟨hlength, hj, List.length_take_le room t⟩, ?_, ?_⟩
          · intro i line hline _
            exact hcomplete i line hline
          · intro line hline
            have hstored := hcomplete _ line hline
            have heq : t = line := by
              have hsame := hentry.symm.trans hstored
              simpa using hsame
            exact ⟨congrArg (List.take room) heq, .inl hstored⟩

/-- Recalling an entry does not bring the line back. -/
theorem recall_broken {i j : Nat} {line : Line} (h : Framed room lines p)
    (hline : lines[i]? = some line) (hlost : Lost room p i line) (hj : j ≤ lines.length) :
    Broken room lines (p.recall room j) := by
  have hlength := h.length
  cases hentry : p.lines[p.lines.length - 1 - j]? with
  | none =>
      rw [Prompt.recall, hentry]
      trivial
  | some entry =>
      cases entry with
      | none =>
          rw [Prompt.recall, hentry]
          trivial
      | some t =>
          rw [Prompt.recall, hentry]
          refine ⟨⟨hlength, hj, List.length_take_le room t⟩, i, line, hline, ?_, hlost⟩
          intro hi
          obtain ⟨hne, hroom⟩ := hlost t (by rw [hi]; exact hentry)
          exact fun heq => hne ((List.take_of_length_le hroom).symm.trans heq)

theorem Complete.dropLast (h : Framed room lines p) (hcomplete : Complete lines p) :
    p.lines.dropLast = lines.map some := by
  have hlength := h.length
  apply List.ext_getElem?
  intro i
  rw [List.getElem?_dropLast, List.getElem?_map]
  by_cases hi : i < lines.length
  · have hline := List.getElem?_eq_getElem hi
    rw [if_pos (by omega), hcomplete i _ hline, hline]
    rfl
  · rw [if_neg (by omega), List.getElem?_eq_none (by omega)]
    rfl

theorem Lost.dropLast {i : Nat} {line : Line} (hline : lines[i]? = some line)
    (hlost : Lost room p i line) : p.lines.dropLast ≠ lines.map some := by
  intro heq
  have hentry := congrArg (fun l => l[i]?) heq
  simp only [List.getElem?_dropLast, List.getElem?_map, hline] at hentry
  split_ifs at hentry with hi
  · exact (hlost line hentry).1 rfl
  · cases hentry

theorem Framed.index_lt (h : Framed room lines p) : p.index < p.lines.length := by
  have hlength := h.length
  have hindex := h.index
  omega

/-- Where a key leads is in the history. -/
theorem Framed.target_le (h : Framed room lines p) {up : Bool} {j : Nat}
    (hj : p.target up = some j) : j ≤ lines.length := by
  have hlt := (target_lt h.index_lt hj).1
  have hlength := h.length
  omega

/-- The entry a key leads to is another one. -/
theorem Framed.store_target (h : Framed room lines p) {up : Bool} {j : Nat}
    (hj : p.target up = some j) (alloc : Bool) :
    (p.store alloc).lines[(p.store alloc).lines.length - 1 - j]? =
      p.lines[p.lines.length - 1 - j]? := by
  obtain ⟨hlt, hne⟩ := target_lt h.index_lt hj
  have hindex := h.index_lt
  rw [store_length]
  apply store_other
  rw [Prompt.cur]
  omega

theorem Sound.browse_intact (h : Sound room lines p) {up alloc : Bool}
    (hspares : p.SparesBrowse room up alloc) : Intact room lines (p.browse room up alloc) := by
  rw [browse_eq h.index_lt]
  by_cases hlen : 1 < p.lines.length
  · obtain ⟨hfits, htarget⟩ := hspares hlen
    rw [if_pos hlen]
    cases hj : p.target up with
    | none => exact h.store alloc hfits
    | some j =>
        obtain ⟨halloc, hnull⟩ := htarget j hj
        apply recall_intact (h.toFramed.store alloc) (h.complete_store hfits halloc)
          (h.target_le hj)
        rw [h.store_target hj]
        exact hnull
  · rw [if_neg hlen]
    exact h

/-- A line that does not fit into the buffer. -/
theorem Sound.exists_unfit (h : Sound room lines p)
    (hunfit : ¬(p.index ≠ 0 → ∀ line, p.lines[p.cur]? = some (some line) → line.length ≤ room)) :
    ∃ line, lines[p.cur]? = some line ∧ room < line.length := by
  push Not at hunfit
  obtain ⟨hindex, t, ht, hlong⟩ := hunfit
  obtain ⟨line, hline⟩ := h.index_ne_iff.mp hindex
  refine ⟨line, hline, ?_⟩
  cases (h.shown line hline).2 with
  | inl hstored =>
      rw [hstored] at ht
      have heq : line = t := by
        simpa using ht
      rw [heq]
      omega
  | inr hstored =>
      rw [hstored.1] at ht
      cases ht

theorem Sound.browse_broken (h : Sound room lines p) {up alloc : Bool}
    (hspares : ¬ p.SparesBrowse room up alloc) : Broken room lines (p.browse room up alloc) := by
  have hframed := h.toFramed.store alloc
  rw [browse_eq h.index_lt]
  rw [Prompt.SparesBrowse, Classical.not_imp] at hspares
  obtain ⟨hlen, hspares⟩ := hspares
  rw [if_pos hlen]
  by_cases hfits :
      p.index ≠ 0 → ∀ line, p.lines[p.cur]? = some (some line) → line.length ≤ room
  · rw [not_and] at hspares
    have htarget := hspares hfits
    push Not at htarget
    obtain ⟨j, hj, hbad⟩ := htarget
    rw [hj]
    by_cases halloc : p.index ≠ 0 → alloc = true
    · have hnull := h.store_target hj alloc
      rw [hbad halloc] at hnull
      simp only [Prompt.recall, hnull]
      trivial
    · rw [Classical.not_imp] at halloc
      obtain ⟨line, hline⟩ := h.index_ne_iff.mp halloc.1
      have hlost : Lost room (p.store alloc) p.cur line :=
        h.lost_store fun htrue => absurd htrue halloc.2
      exact recall_broken hframed hline hlost (h.target_le hj)
  · obtain ⟨line, hline, hlong⟩ := h.exists_unfit hfits
    have hlost : Lost room (p.store alloc) p.cur line := h.lost_store fun _ => hlong
    cases hj : p.target up with
    | none =>
        refine ⟨hframed, p.cur, line, hline, ?_, hlost⟩
        intro _ heq
        have hroom := h.buf
        have hbuf : p.buf = line := heq
        rw [hbuf] at hroom
        omega
    | some j => exact recall_broken hframed hline hlost (h.target_le hj)

theorem Damaged.browse (h : Damaged room lines p) (up alloc : Bool) :
    Broken room lines (p.browse room up alloc) := by
  rw [browse_eq h.index_lt]
  by_cases hlen : 1 < p.lines.length
  · rw [if_pos hlen]
    have hstore := h.store alloc
    cases hj : p.target up with
    | none => exact hstore
    | some j =>
        obtain ⟨i, line, hline, -, hlost⟩ := hstore.lost
        exact recall_broken hstore.toFramed hline hlost (h.target_le hj)
  · rw [if_neg hlen]
    exact h

theorem Framed.finish (h : Framed room lines p) (ret : Int) :
    p.finish ret = .returned ret p.lines.dropLast := by
  have hne : p.lines ≠ [] := by
    intro hnil
    have hlength := h.length
    rw [hnil] at hlength
    simp at hlength
  rw [Prompt.finish, if_neg hne]

theorem Sound.finish_intact (h : Sound room lines p) (ret : Int)
    (hspares : p.index ≠ 0 → p.lines[p.cur]? ≠ some none) :
    Intact room lines (p.finish ret) := by
  rw [h.finish]
  apply Complete.dropLast h.toFramed
  intro i line hline
  by_cases hi : i = p.cur
  · subst hi
    have hnull := hspares (h.index_ne_iff.mpr ⟨line, hline⟩)
    exact (h.shown line hline).2.resolve_right fun hstored => hnull hstored.1
  · exact h.others i line hline hi

theorem Sound.finish_broken (h : Sound room lines p) (ret : Int)
    (hspares : ¬(p.index ≠ 0 → p.lines[p.cur]? ≠ some none)) :
    Broken room lines (p.finish ret) := by
  push Not at hspares
  obtain ⟨hindex, hnull⟩ := hspares
  obtain ⟨line, hline⟩ := h.index_ne_iff.mp hindex
  have hlost : Lost room p p.cur line := by
    intro t ht
    rw [hnull] at ht
    cases ht
  rw [h.finish]
  exact hlost.dropLast hline

theorem Damaged.finish_broken (h : Damaged room lines p) (ret : Int) :
    Broken room lines (p.finish ret) := by
  obtain ⟨i, line, hline, -, hlost⟩ := h.lost
  rw [h.finish]
  exact hlost.dropLast hline

/-! ## All keys -/

/-- What a key can do, and what is asked of it. -/
theorem press_cases (room : Nat) (p : Prompt) (k : Key × Bool) :
    (k.1.ends = true ∧ (∃ ret, p.press room k = p.finish ret) ∧
        (Spares room (.reading p) k ↔ (p.index ≠ 0 → p.lines[p.cur]? ≠ some none))) ∨
      (k.1.ends = false ∧ ∃ up, p.press room k = p.browse room up k.2 ∧
        (Spares room (.reading p) k ↔ p.SparesBrowse room up k.2)) ∨
      (k.1.ends = false ∧ p.press room k = .reading (p.edit room k.1) ∧
        Spares room (.reading p) k) := by
  obtain ⟨key, alloc⟩ := k
  cases key with
  | enter => exact .inl ⟨rfl, ⟨p.buf.length, rfl⟩, Iff.rfl⟩
  | ctrlC => exact .inl ⟨rfl, ⟨LINENOISE_CTRL_C, rfl⟩, Iff.rfl⟩
  | ctrlZ => exact .inl ⟨rfl, ⟨-1, rfl⟩, Iff.rfl⟩
  | up => exact .inr (.inl ⟨rfl, true, rfl, Iff.rfl⟩)
  | down => exact .inr (.inl ⟨rfl, false, rfl, Iff.rfl⟩)
  | _ => exact .inr (.inr ⟨rfl, rfl, trivial⟩)

/-- A prompt that has lost nothing. -/
theorem step_intact {s s' : Phase} (h : Intact room lines s) (htext : LeavesText room s k)
    (hspares : Spares room s k) (hstep : step room s k = some s') : Intact room lines s' := by
  cases s with
  | reading p =>
      have hpress : p.press room k = s' := Option.some.inj hstep
      rw [← hpress]
      obtain ⟨-, ⟨ret, heq⟩, hiff⟩ | ⟨-, up, heq, hiff⟩ | ⟨-, heq, -⟩ := press_cases room p k
      · rw [heq]
        exact Sound.finish_intact h ret (hiff.mp hspares)
      · rw [heq]
        exact Sound.browse_intact h (hiff.mp hspares)
      · rw [heq]
        exact Sound.edit h htext
  | returned ret left => exact Option.some.inj hstep ▸ h
  | fault => exact Option.some.inj hstep ▸ h

/-- A key that costs a line. -/
theorem step_breaks {s s' : Phase} (h : Intact room lines s) (hspares : ¬ Spares room s k)
    (hstep : step room s k = some s') : Broken room lines s' := by
  cases s with
  | reading p =>
      have hpress : p.press room k = s' := Option.some.inj hstep
      rw [← hpress]
      obtain ⟨-, ⟨ret, heq⟩, hiff⟩ | ⟨-, up, heq, hiff⟩ | ⟨-, -, hall⟩ := press_cases room p k
      · rw [heq]
        exact Sound.finish_broken h ret (mt hiff.mpr hspares)
      · rw [heq]
        exact Sound.browse_broken h (mt hiff.mpr hspares)
      · exact absurd hall hspares
  | returned ret left => exact absurd trivial hspares
  | fault => exact absurd trivial hspares

/-- A line that is lost does not come back. -/
theorem step_broken {s s' : Phase} (h : Broken room lines s) (htext : LeavesText room s k)
    (hstep : step room s k = some s') : Broken room lines s' := by
  cases s with
  | reading p =>
      have hpress : p.press room k = s' := Option.some.inj hstep
      rw [← hpress]
      obtain ⟨-, ⟨ret, heq⟩, -⟩ | ⟨-, up, heq, -⟩ | ⟨-, heq, -⟩ := press_cases room p k
      · rw [heq]
        exact Damaged.finish_broken h ret
      · rw [heq]
        exact Damaged.browse h up k.2
      · rw [heq]
        exact Damaged.edit h htext
  | returned ret left => exact Option.some.inj hstep ▸ h
  | fault => exact Option.some.inj hstep ▸ h

/-- Fewer entries than lines and one more: the end takes a line away. -/
def Short (lines : List Line) : Phase → Prop
  | .reading p => p.lines.length ≤ lines.length
  | .returned _ left => left.length < lines.length
  | .fault => True

theorem recall_short {j : Nat} (h : p.lines.length ≤ lines.length) :
    Short lines (p.recall room j) := by
  unfold Prompt.recall
  split
  · exact h
  · trivial

theorem browse_short (h : p.lines.length ≤ lines.length) (up alloc : Bool) :
    Short lines (p.browse room up alloc) := by
  have hstore : (p.store alloc).lines.length ≤ lines.length := by
    rw [store_length]
    exact h
  unfold Prompt.browse
  split_ifs
  · exact hstore
  · exact recall_short hstore
  · exact hstore
  · exact recall_short hstore
  · exact h

theorem finish_short (h : p.lines.length ≤ lines.length) (ret : Int) :
    Short lines (p.finish ret) := by
  unfold Prompt.finish
  split_ifs with hnil
  · trivial
  · have hpos := List.length_pos_of_ne_nil hnil
    change p.lines.dropLast.length < lines.length
    rw [List.length_dropLast]
    omega

theorem step_short {s s' : Phase} (h : Short lines s) (hstep : step room s k = some s') :
    Short lines s' := by
  cases s with
  | reading p =>
      have hpress : p.press room k = s' := Option.some.inj hstep
      rw [← hpress]
      obtain ⟨-, ⟨ret, heq⟩, -⟩ | ⟨-, up, heq, -⟩ | ⟨-, heq, -⟩ := press_cases room p k
      · rw [heq]
        exact finish_short h ret
      · rw [heq]
        exact browse_short h up k.2
      · rw [heq]
        exact Nat.le_trans (Nat.le_of_eq (congrArg List.length (edit_lines room p k.1))) h
  | returned ret left => exact Option.some.inj hstep ▸ h
  | fault => exact Option.some.inj hstep ▸ h

/-! ## The temporary entry -/

variable {h : Stored} {allocs : List Bool} {keys : List (Key × Bool)}

/-- The loop, for a line with nothing in it. -/
theorem addLoop_nil (maxLen : Nat) (entries : List (Option Line)) (allocs : List Bool) :
    addLoop maxLen true entries allocs [] [] =
      if [true] <+: allocs then push maxLen entries [] else entries := by
  cases allocs with
  | nil => simp [addLoop, addSegment]
  | cons a allocs =>
      cases a with
      | true => simp [addLoop, addSegment]
      | false => simp [addLoop, addSegment]

theorem start_lines (h : Stored) (allocs : List Bool) :
    (start h allocs).lines =
      if h.maxLen ≠ 0 ∧ (if h.allocated then [true] else [true, true]) <+: allocs then
        push h.maxLen (h.lines.map some) []
      else h.lines.map some := by
  by_cases hmax : h.maxLen = 0
  · simp [start, internalAddhistory, hmax]
  · cases hallocated : h.allocated with
    | true => simp [start, internalAddhistory, hmax, hallocated, addLoop_nil]
    | false =>
        cases allocs with
        | nil => simp [start, internalAddhistory, hmax, hallocated]
        | cons a allocs =>
            cases a with
            | true => simp [start, internalAddhistory, hmax, hallocated, addLoop_nil]
            | false => simp [start, internalAddhistory, hmax, hallocated]

theorem start_intact (hpushed : Pushed h allocs) :
    Intact room h.lines (.reading (start h allocs)) := by
  obtain ⟨hroom, hallocs⟩ := hpushed
  have hlines : (start h allocs).lines = h.lines.map some ++ [some []] := by
    have hne : ¬ (h.lines.map some).length = h.maxLen := by
      rw [List.length_map]
      omega
    rw [start_lines, if_pos ⟨by omega, hallocs⟩, push, if_neg hne]
  have hframed : Framed room h.lines (start h allocs) := by
    refine ⟨?_, Nat.zero_le _, Nat.zero_le room⟩
    rw [hlines, List.length_append, List.length_map]
    rfl
  refine ⟨hframed, ?_, ?_⟩
  · intro i line hline _
    have hlt := (List.getElem?_eq_some_iff.mp hline).1
    rw [hlines, List.getElem?_append_left (by rwa [List.length_map]), List.getElem?_map, hline]
    rfl
  · intro line hline
    exact absurd rfl (hframed.index_ne_iff.mpr ⟨line, hline⟩)

/-- Without room or memory there is no entry more. -/
theorem start_short (hpushed : ¬ Pushed h allocs) :
    Short h.lines (.reading (start h allocs)) := by
  change (start h allocs).lines.length ≤ h.lines.length
  rw [start_lines]
  by_cases hpush : h.maxLen ≠ 0 ∧ (if h.allocated then [true] else [true, true]) <+: allocs
  · have hle := h.length_le
    have hpos := hpush.1
    have hnot : ¬ h.lines.length < h.maxLen := fun hlt => hpushed ⟨hlt, hpush.2⟩
    have hfull : (h.lines.map some).length = h.maxLen := by
      rw [List.length_map]
      omega
    rw [if_pos hpush, push, if_pos hfull, List.length_append, List.length_tail, hfull,
      List.length_singleton]
    omega
  · rw [if_neg hpush]
    exact Nat.le_of_eq (List.length_map some)

/-! ## The whole prompt -/

def Phase.Ended (s : Phase) : Prop := ∀ p, s ≠ .reading p

theorem step_total (room : Nat) (s : Phase) (k : Key × Bool) : ∃ s', step room s k = some s' := by
  cases s with
  | reading p => exact ⟨_, rfl⟩
  | returned ret left => exact ⟨_, rfl⟩
  | fault => exact ⟨_, rfl⟩

theorem finish_ended (p : Prompt) (ret : Int) : (p.finish ret).Ended := by
  intro q
  unfold Prompt.finish
  split_ifs
  · exact Phase.noConfusion
  · exact Phase.noConfusion

/-- What has ended stays as it is. -/
theorem step_ended {s s' : Phase} (h : s.Ended) (hstep : step room s k = some s') : s'.Ended := by
  cases s with
  | reading p => exact absurd rfl (h p)
  | returned ret left => exact Option.some.inj hstep ▸ h
  | fault => exact Option.some.inj hstep ▸ h

theorem step_ends {s s' : Phase} (hk : k.1.ends = true) (hstep : step room s k = some s') :
    s'.Ended := by
  cases s with
  | reading p =>
      have hpress : p.press room k = s' := Option.some.inj hstep
      rw [← hpress]
      obtain ⟨-, ⟨ret, heq⟩, -⟩ | ⟨hfalse, -⟩ | ⟨hfalse, -⟩ := press_cases room p k
      · rw [heq]
        exact finish_ended p ret
      · rw [hk] at hfalse
        cases hfalse
      · rw [hk] at hfalse
        cases hfalse
  | returned ret left =>
      cases hstep
      exact fun p => Phase.noConfusion
  | fault =>
      cases hstep
      exact fun p => Phase.noConfusion

theorem run_ended {s s' : Phase} (hends : Ends keys)
    (hrun : Transition.run (step room) s keys = some s') : s'.Ended := by
  induction keys generalizing s with
  | nil =>
      obtain ⟨k, hk, -⟩ := hends
      exact absurd hk List.not_mem_nil
  | cons k keys ih =>
      rw [Transition.run, Option.bind_eq_some_iff] at hrun
      obtain ⟨s₁, h₁, hrest⟩ := hrun
      by_cases hk : k.1.ends = true
      · have hended := step_ends hk h₁
        exact Transition.invariant_of_steps (fun _ _ _ h => step_ended h) hended hrest
      · obtain ⟨k', hmem, hk'⟩ := hends
        have hne : k' ≠ k := fun heq => hk (heq ▸ hk')
        exact ih ⟨k', List.mem_of_ne_of_mem hne hmem, hk'⟩ hrest

theorem Intact.history {s : Phase} {lines : List Line} (h : Intact room lines s)
    (hended : s.Ended) : s.history = some (lines.map some) := by
  cases s with
  | reading p => exact absurd rfl (hended p)
  | returned ret left => exact congrArg some h
  | fault => exact h.elim

theorem Broken.history {s : Phase} {lines : List Line} (h : Broken room lines s) :
    s.history ≠ some (lines.map some) := by
  cases s with
  | reading p =>
      intro heq
      cases heq
  | returned ret left => exact fun heq => h (Option.some.inj heq)
  | fault =>
      intro heq
      cases heq

theorem Short.history {s : Phase} {lines : List Line} (h : Short lines s) :
    s.history ≠ some (lines.map some) := by
  cases s with
  | reading p =>
      intro heq
      cases heq
  | returned ret left =>
      intro heq
      have hlength : left.length < lines.length := h
      rw [Option.some.inj heq, List.length_map] at hlength
      exact Nat.lt_irrefl _ hlength
  | fault =>
      intro heq
      cases heq

/-- **The prompt leaves the history alone** when there is room and memory for its temporary entry
and no line that has been recalled is left longer than the buffer or without memory. -/
theorem kept_iff_spared (hends : Ends keys) (htext : Unedited room h allocs keys) :
    Kept room h allocs keys ↔ Spared room h allocs keys := by
  have htotal : ∃ s, linenoisePrompt room h allocs keys = some s ∧ True :=
    Transition.run_of_total
      (fun s k _ _ => (step_total room s k).imp fun s' hstep => ⟨hstep, trivial⟩) trivial
      (Transition.conforming_true (step room) (.reading (start h allocs)) keys)
  obtain ⟨s, hrun, -⟩ := htotal
  have hkept : Kept room h allocs keys ↔ s.history = some (h.lines.map some) := by
    rw [Kept, hrun]
    exact Iff.rfl
  rw [hkept]
  by_cases hpushed : Pushed h allocs
  · have hdichotomy := Transition.sound_or_broken
      (fun _ _ _ hs hcond hok hstep => step_intact hs hcond hok hstep)
      (fun _ _ _ hs _ hok hstep => step_breaks hs hok hstep)
      (fun _ _ _ hs hcond hstep => step_broken hs hcond hstep)
      (start_intact hpushed) htext hrun
    cases hdichotomy with
    | inl hsound =>
        have hended := run_ended hends hrun
        exact iff_of_true (hsound.2.history hended) ⟨hpushed, hsound.1⟩
    | inr hbroken => exact iff_of_false hbroken.2.history fun hspared => hbroken.1 hspared.2
  · have hshort :=
      Transition.invariant_of_steps (fun _ _ _ => step_short) (start_short hpushed) hrun
    exact iff_of_false hshort.history fun hspared => hpushed hspared.1

end

/-- The only line is recalled and taken. -/
theorem kept_recalled :
    Kept 49 ⟨10, true, [[108, 115]], by decide, by decide⟩ [true]
        [(.up, true), (.enter, true)] ∧
      Spared 49 ⟨10, true, [[108, 115]], by decide, by decide⟩ [true]
        [(.up, true), (.enter, true)] :=
  ⟨by decide, (kept_iff_spared (by decide) (by decide)).mp (by decide)⟩

/-- A full history, and nothing typed: the oldest line is gone. -/
theorem not_kept_full :
    Ends [(.enter, true)] ∧
      Unedited 49 ⟨2, true, [[108, 115], [118, 101, 114]], by decide, by decide⟩ [true]
        [(.enter, true)] ∧
      (linenoisePrompt 49 ⟨2, true, [[108, 115], [118, 101, 114]], by decide, by decide⟩ [true]
          [(.enter, true)]).bind Phase.history = some [some [118, 101, 114]] ∧
      ¬ Kept 49 ⟨2, true, [[108, 115], [118, 101, 114]], by decide, by decide⟩ [true]
          [(.enter, true)] := by
  decide

end Linenoise
