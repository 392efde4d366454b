import EluaWebServer.Httpd.Tags
import Mathlib.Data.List.GetD

/-!
# The expansion of a page

What has to be sent for a page, and for which pages `handle_elua_tags` sends
it.  The byte after the page is left over from an earlier file, and for some
pages the scan goes over it and runs out of the page.
-/

namespace Httpd

open CString

variable {σ : Type}

/-- A page with each section replaced by the output of its script.  A marker
that is not closed goes away, with its separator. -/
def expand (run : σ → List UInt8 → List UInt8 × σ) (lua : σ) (page : List UInt8) :
    List UInt8 × σ :=
  match page with
  | [] => ([], lua)
  | c :: rest =>
      if marker.isPrefixOf (c :: rest) ∧ 5 < (c :: rest).length then
        match find CGI_close (rest.drop 5) with
        | some n =>
            let ran := run lua ((rest.drop 5).take n)
            let later := expand run ran.2 (rest.drop (5 + n + 2))
            (ran.1 ++ later.1, later.2)
        | none => expand run lua (rest.drop 5)
      else
        let later := expand run lua rest
        (c :: later.1, later.2)
termination_by page.length
decreasing_by all_goals simp only [List.length_drop, List.length_cons]; omega

/-- Whether the scan comes to a marker at the very end of the page, or to a
marker or the end of a script that is only there with the byte after the
page. -/
def derails (stale : UInt8) (page : List UInt8) : Bool :=
  match page with
  | [] => false
  | c :: rest =>
      if marker.isPrefixOf (c :: rest) then
        if (c :: rest).length ≤ 5 then true
        else
          match find CGI_close (rest.drop 5) with
          | some n => derails stale (rest.drop (5 + n + 2))
          | none => if (find CGI_close (rest.drop 5 ++ [stale])).isSome then true
              else derails stale (rest.drop 5)
      else if marker.isPrefixOf (c :: rest ++ [stale]) then true
      else derails stale rest
termination_by page.length
decreasing_by all_goals simp only [List.length_drop, List.length_cons]; omega

/-- What a turn starts from, sends and runs is inside of the page. -/
def Inside (page : List UInt8) (s : Page σ) (t : Turn) : Prop :=
  s.data + s.len ≤ page.length ∧
    match t with
    | .part len _ => len ≤ s.len
    | .script start len _ => s.data ≤ start ∧ start + len ≤ page.length
    | .unclosed => True

/-- The page is expanded: the loop ends, what it sends and the state of the
interpreter are those of the expansion of the page, and nothing of what it does
is outside of the page. -/
def Expanded (run : σ → List UInt8 → List UInt8 × σ) (mss : Nat) (huge page : List UInt8)
    (lua : σ) : Prop :=
  ∃ buf turns last depth, readHuge huge page = some buf ∧
    (∀ fuel ≥ depth, handleEluaTags run mss buf fuel ⟨0, page.length, lua⟩ = some (turns, last)) ∧
    (turns.flatMap fun t => t.2.sent) = (expand run lua page).1 ∧
    last.lua = (expand run lua page).2 ∧
    (∀ t ∈ turns, Inside page t.1 t.2) ∧ last.data + last.len ≤ page.length

/-! ## Copied text -/

/-- No section begins in some text: it is copied. -/
theorem expand_copy {run : σ → List UInt8 → List UInt8 × σ} {lua : σ} {stale : UInt8} :
    ∀ (n : Nat) (page : List UInt8), n ≤ page.length →
      (0 < n → marker.isPrefixOf (page ++ [stale]) = false) →
      (∀ j, 0 < j → j < n → page[j]? ≠ some ISO_minor) →
      expand run lua page = (page.take n ++ (expand run lua (page.drop n)).1,
        (expand run lua (page.drop n)).2) ∧
      derails stale page = derails stale (page.drop n)
  | 0, page, _, _, _ => ⟨rfl, rfl⟩
  | n + 1, [], h, _, _ => absurd h (Nat.not_succ_le_zero n)
  | n + 1, c :: rest, hlen, hfirst, hnext => by
      have hstale : marker.isPrefixOf (c :: rest ++ [stale]) = false := hfirst (Nat.succ_pos n)
      have hmarker : marker.isPrefixOf (c :: rest) = false := by
        rw [← Bool.not_eq_true] at hstale ⊢
        intro hbefore
        exact hstale (List.isPrefixOf_iff_prefix.mpr
          ((List.isPrefixOf_iff_prefix.mp hbefore).trans (List.prefix_append _ _)))
      have hrest : 0 < n → marker.isPrefixOf (rest ++ [stale]) = false := by
        intro hn
        have hne := hnext 1 Nat.one_pos (by omega)
        cases rest with
        | nil =>
            rw [List.length_singleton] at hlen
            omega
        | cons d rest =>
            have hd : (60 == d) = false := by
              refine beq_false_of_ne fun heq => hne ?_
              rw [← heq]
              rfl
            rw [marker, List.cons_append, List.isPrefixOf_cons_cons, hd, Bool.false_and]
      obtain ⟨hexpand, hderails⟩ := expand_copy n rest (Nat.le_of_succ_le_succ hlen) hrest
        fun j hj hjn => by
          have hne := hnext (j + 1) (Nat.succ_pos j) (Nat.succ_lt_succ hjn)
          rwa [List.getElem?_cons_succ] at hne
      constructor
      · rw [expand, hmarker, if_neg (by simp), hexpand]
        rfl
      · rw [derails, hmarker, if_neg Bool.false_ne_true, hstale, if_neg Bool.false_ne_true, hderails]
        rfl

/-! ## One turn -/

section

variable {buf page tail : List UInt8} {stale : UInt8}

/-- What is in the buffer from an index in the page on. -/
theorem drop_buf (hbuf : buf = page ++ stale :: 0 :: tail) {i : Nat} (hi : i ≤ page.length) :
    buf.drop i = page.drop i ++ stale :: 0 :: tail := by
  rw [hbuf, List.drop_append_of_le_length hi]

theorem slice_buf (hbuf : buf = page ++ stale :: 0 :: tail) {i n : Nat}
    (hi : i + n ≤ page.length) : slice buf i n = some ((page.drop i).take n) := by
  have hlen : i + n ≤ buf.length := by
    rw [hbuf, List.length_append]
    omega
  have htake : (page.drop i ++ stale :: 0 :: tail).take n = (page.drop i).take n :=
    List.take_append_of_le_length (by rw [List.length_drop]; omega)
  rw [slice, if_pos hlen, drop_buf hbuf (by omega), htake]

/-- Only the first byte of the part can be the beginning of a marker. -/
theorem partLen_ok {mss : Nat} (hmss : 0 < mss) {s : Page σ} {c : UInt8} {rest : List UInt8}
    (hlen : s.len = rest.length + 1) (stale : UInt8) :
    let start := if c = ISO_minor then s.data + 1 else s.data
    let text := if c = ISO_minor then rest else c :: rest
    let n := partLen mss s start (find [ISO_minor] (text ++ [stale]))
    0 < n ∧ n ≤ s.len ∧ ∀ j, 0 < j → j < n → (c :: rest)[j]? ≠ some ISO_minor := by
  have hwhole : 0 < (if mss < s.len then mss else s.len) ∧
      (if mss < s.len then mss else s.len) ≤ s.len := by
    split <;> omega
  by_cases hc : c = ISO_minor
  · simp only [if_pos hc]
    cases hptr : find [ISO_minor] (rest ++ [stale]) with
    | none =>
        refine ⟨hwhole.1, hwhole.2, fun j hj _ hat => ?_⟩
        obtain ⟨j, rfl⟩ := Nat.exists_eq_succ_of_ne_zero (Nat.ne_of_gt hj)
        rw [Nat.succ_eq_add_one, List.getElem?_cons_succ] at hat
        exact find_char_none hptr (List.mem_append_left _ (List.mem_of_getElem? hat))
    | some n =>
        have hle := find_le (List.cons_ne_nil _ _) hptr
        rw [List.length_append, List.length_singleton, List.length_singleton] at hle
        have hoff : s.data + 1 + n - s.data = n + 1 := by omega
        have hpart : partLen mss s (s.data + 1) (some n) = if mss ≤ n + 1 then mss else n + 1 := by
          simp only [partLen, hoff]
          rw [if_pos (by omega)]
        rw [hpart]
        refine ⟨by split <;> omega, by split <;> omega, fun j hj hjn hat => ?_⟩
        obtain ⟨j, rfl⟩ := Nat.exists_eq_succ_of_ne_zero (Nat.ne_of_gt hj)
        rw [Nat.succ_eq_add_one, List.getElem?_cons_succ] at hat
        have hjn' : j < n := by
          split at hjn <;> omega
        refine find_char_first hptr hjn' ?_
        rw [List.getElem?_append_left (by omega)]
        exact hat
  · simp only [if_neg hc]
    cases hptr : find [ISO_minor] (c :: rest ++ [stale]) with
    | none =>
        refine ⟨hwhole.1, hwhole.2, fun j _ _ hat => ?_⟩
        exact find_char_none hptr (List.mem_append_left _ (List.mem_of_getElem? hat))
    | some n =>
        have hle := find_le (List.cons_ne_nil _ _) hptr
        rw [List.length_append, List.length_singleton, List.length_singleton,
          List.length_cons] at hle
        have hpos : n ≠ 0 := by
          rintro rfl
          obtain ⟨later, hlater⟩ := find_matches hptr
          exact hc (List.cons.inj hlater).1.symm
        have hoff : s.data + n - s.data = n := by omega
        have hpart : partLen mss s s.data (some n) = if mss ≤ n then mss else n := by
          simp only [partLen, hoff]
          rw [if_pos (by omega)]
        rw [hpart]
        refine ⟨by split <;> omega, by split <;> omega, fun j _ hjn hat => ?_⟩
        have hjn' : j < n := by
          split at hjn <;> omega
        refine find_char_first hptr hjn' ?_
        rw [List.getElem?_append_left (by rw [List.length_cons]; omega)]
        exact hat

theorem sizeT_sub {n k : Nat} (h : k ≤ n) (hn : n < 2 ^ 32) : sizeT (n - k) = n - k := by
  have hcast : ((n : Int) - k) = ((n - k : Nat) : Int) := by omega
  rw [hcast, sizeT]
  omega

variable {run : σ → List UInt8 → List UInt8 × σ} {mss : Nat} {s : Page σ}

/-- A turn at a marker goes on after it. -/
theorem turn_marker_data (hstarts : startsWith marker (buf.drop s.data) = some true) {s' : Page σ}
    {t : Turn} (h : turn run mss buf s = some (s', t)) : s.data + 6 ≤ s'.data := by
  rw [turn, hstarts, Option.bind_some, if_pos rfl] at h
  obtain ⟨p, -, hp⟩ := Option.bind_eq_some_iff.mp h
  cases p with
  | some n =>
      obtain ⟨script, -, hpair⟩ := Option.map_eq_some_iff.mp hp
      have hdata : s.data + 6 + n + 2 = s'.data := congrArg (fun q => q.1.data) hpair
      omega
  | none =>
      rw [← congrArg (fun q => q.1.data) (Option.some.inj hp)]

/-- The turn keeps inside of the page and does a part of the expansion. -/
def Proceeds (run : σ → List UInt8 → List UInt8 × σ) (mss : Nat) (buf page : List UInt8)
    (stale : UInt8) (s : Page σ) : Prop :=
  ∃ s' t, turn run mss buf s = some (s', t) ∧ s'.data + s'.len = page.length ∧ s'.len < s.len ∧
    Inside page s t ∧
    expand run s.lua (page.drop s.data) =
      (t.sent ++ (expand run s'.lua (page.drop s'.data)).1,
        (expand run s'.lua (page.drop s'.data)).2) ∧
    derails stale (page.drop s.data) = derails stale (page.drop s'.data)

/-- The scan has derailed, and the turn leaves the page. -/
def Leaves (run : σ → List UInt8 → List UInt8 × σ) (mss : Nat) (buf page : List UInt8)
    (stale : UInt8) (s : Page σ) : Prop :=
  derails stale (page.drop s.data) = true ∧
    ∀ s' t, turn run mss buf s = some (s', t) → page.length < s'.data

section

variable {c : UInt8} {rest : List UInt8}

theorem drop_after (hpage : page.drop s.data = c :: rest) (k : Nat) :
    page.drop (s.data + (k + 1)) = rest.drop k := by
  rw [← List.drop_drop, hpage, List.drop_succ_cons]

/-- At a marker with a separator. -/
theorem turn_section (hbuf : buf = page ++ stale :: 0 :: tail) (hnul : 0 ∉ page)
    (hsize : page.length < 2 ^ 32) (hin : s.data + s.len = page.length)
    (hpage : page.drop s.data = c :: rest) (hrest : s.len = rest.length + 1)
    (hstarts : startsWith marker (buf.drop s.data) = some true)
    (hfull : marker.isPrefixOf (c :: rest) = true ∧ 5 < (c :: rest).length) :
    Proceeds run mss buf page stale s ∨ Leaves run mss buf page stale s := by
  have hfive : 5 ≤ rest.length := by
    have hlen := hfull.2
    rw [List.length_cons] at hlen
    omega
  have hlong : ¬ (c :: rest).length ≤ 5 := Nat.not_le.mpr hfull.2
  have hbody : page.drop (s.data + 6) = rest.drop 5 := drop_after hpage 5
  have hnotin : 0 ∉ rest.drop 5 := by
    rw [← hbody]
    exact fun hmem => hnul (List.mem_of_mem_drop hmem)
  have hstr : strstr CGI_close (buf.drop (s.data + 6)) =
      some (find CGI_close (rest.drop 5 ++ [stale])) := by
    rw [drop_buf hbuf (by omega), hbody]
    exact strstr_concat (by decide) (by decide) hnotin stale
  have hstep : turn run mss buf s =
      match find CGI_close (rest.drop 5 ++ [stale]) with
      | some n => (slice buf (s.data + 6) n).map fun script =>
          (⟨s.data + 6 + n + 2, sizeT (s.len - 6 - (s.data + 6 + n + 2 - (s.data + 6) : Nat)),
            (run s.lua script).2⟩, .script (s.data + 6) n (run s.lua script).1)
      | none => some (⟨s.data + 6, sizeT (s.len - 6), s.lua⟩, .unclosed) := by
    rw [turn, hstarts, Option.bind_some, if_pos rfl]
    dsimp only
    rw [hstr]
    rfl
  cases hfind : find CGI_close (rest.drop 5) with
  | some n =>
      left
      have hle := find_le (by decide) hfind
      rw [List.length_drop] at hle
      change n + 2 ≤ rest.length - 5 at hle
      have hlen : sizeT (s.len - 6 - (s.data + 6 + n + 2 - (s.data + 6) : Nat)) =
          s.len - (8 + n) := by
        have hsub : ((s.len : Int) - 6 - (s.data + 6 + n + 2 - (s.data + 6) : Nat)) =
            (s.len : Int) - (8 + n : Nat) := by omega
        rw [hsub, sizeT_sub (by omega) (by omega)]
      have hdata : s.data + 6 + n + 2 = s.data + (5 + n + 2 + 1) := by omega
      rw [find_append (by decide) hfind] at hstep
      simp only [slice_buf hbuf (show s.data + 6 + n ≤ page.length by omega), hbody,
        Option.map_some, hlen] at hstep
      rw [hdata] at hstep
      refine ⟨_, _, hstep, ?_, ?_, ⟨by omega, ?_⟩, ?_, ?_⟩
      · dsimp only
        omega
      · dsimp only
        omega
      · dsimp only
        omega
      · rw [hpage, drop_after hpage, expand, if_pos hfull, hfind]
        rfl
      · rw [hpage, drop_after hpage, derails, if_pos hfull.1, if_neg hlong, hfind]
  | none =>
      cases hfind' : find CGI_close (rest.drop 5 ++ [stale]) with
      | some n =>
          -- the byte after the page ends the script
          right
          refine ⟨?_, fun s' t h => ?_⟩
          · rw [hpage, derails, if_pos hfull.1, if_neg hlong, hfind, hfind']
            rfl
          · have hend : rest.length < 5 + n + 2 := by
              by_contra hshort
              have hbefore : CGI_close <+: (rest.drop 5).drop n := by
                refine List.prefix_of_prefix_length_le (find_matches hfind') ?_ ?_
                · rw [List.drop_append_of_le_length (by rw [List.length_drop]; omega)]
                  exact List.prefix_append _ _
                · rw [List.length_drop, List.length_drop]
                  change 2 ≤ _
                  omega
              have hsome := find_isSome (by decide) hbefore
              rw [hfind] at hsome
              cases hsome
            rw [hstep, hfind'] at h
            obtain ⟨script, -, hpair⟩ := Option.map_eq_some_iff.mp h
            have hdata : s.data + 6 + n + 2 = s'.data := congrArg (fun q => q.1.data) hpair
            omega
      | none =>
          left
          have hlen : sizeT ((s.len : Int) - 6) = s.len - 6 := @sizeT_sub s.len 6 (by omega) (by omega)
          rw [hfind'] at hstep
          simp only [hlen] at hstep
          refine ⟨_, _, hstep, ?_, ?_, ⟨by omega, trivial⟩, ?_, ?_⟩
          · dsimp only
            omega
          · dsimp only
            omega
          · rw [hpage, expand, if_pos hfull, hfind, hbody]
            rfl
          · rw [hpage, derails, if_pos hfull.1, if_neg hlong, hfind, hfind', hbody]
            rfl

/-- At a marker that is not in the page, or after which nothing comes. -/
theorem turn_short (hin : s.data + s.len = page.length) (hpage : page.drop s.data = c :: rest)
    (hrest : s.len = rest.length + 1)
    (hstarts : startsWith marker (buf.drop s.data) = some true)
    (hseen : marker.isPrefixOf (c :: rest ++ [stale]) = true)
    (hfull : ¬ (marker.isPrefixOf (c :: rest) = true ∧ 5 < (c :: rest).length)) :
    Leaves run mss buf page stale s := by
  have hshort : s.len ≤ 5 := by
    by_cases hbefore : marker.isPrefixOf (c :: rest) = true
    · have hle := not_and.mp hfull hbefore
      rw [List.length_cons] at hle
      omega
    · rcases List.prefix_concat_iff.mp (List.isPrefixOf_iff_prefix.mp hseen) with heq | hbefore'
      · have hlen := congrArg List.length heq
        rw [List.length_append, List.length_singleton, List.length_cons] at hlen
        change 5 = rest.length + 1 + 1 at hlen
        omega
      · exact absurd (List.isPrefixOf_iff_prefix.mpr hbefore') hbefore
  refine ⟨?_, fun s' t h => ?_⟩
  · rw [hpage, derails]
    by_cases hbefore : marker.isPrefixOf (c :: rest) = true
    · rw [if_pos hbefore, if_pos (by rw [List.length_cons]; omega)]
    · rw [if_neg hbefore, if_pos hseen]
  · have hdata := turn_marker_data hstarts h
    omega

/-- Elsewhere, a part of the page is sent. -/
theorem turn_part (hbuf : buf = page ++ stale :: 0 :: tail) (hnul : 0 ∉ page)
    (hsize : page.length < 2 ^ 32) (hmss : 0 < mss) (hin : s.data + s.len = page.length)
    (hpage : page.drop s.data = c :: rest) (hrest : s.len = rest.length + 1)
    (hstarts : startsWith marker (buf.drop s.data) = some false)
    (hseen : marker.isPrefixOf (c :: rest ++ [stale]) = false) :
    Proceeds run mss buf page stale s := by
  have hdrop := drop_buf hbuf (show s.data ≤ page.length by omega)
  have hat : buf[s.data]? = some c := by
    rw [← List.head?_drop, hdrop, hpage]
    rfl
  have hstart : (if buf[s.data]? = some ISO_minor then s.data + 1 else s.data) =
      if c = ISO_minor then s.data + 1 else s.data := by
    rw [hat]
    simp only [Option.some.injEq]
  have hchr : strchr ISO_minor (buf.drop (if c = ISO_minor then s.data + 1 else s.data)) =
      some (find [ISO_minor] ((if c = ISO_minor then rest else c :: rest) ++ [stale])) := by
    have hnotin : 0 ∉ c :: rest := by
      rw [← hpage]
      exact fun hmem => hnul (List.mem_of_mem_drop hmem)
    by_cases hc : c = ISO_minor
    · rw [if_pos hc, if_pos hc, drop_buf hbuf (by omega), drop_after hpage 0]
      exact strchr_concat (by decide) (fun hmem => hnotin (List.mem_cons_of_mem _ hmem)) stale
    · rw [if_neg hc, if_neg hc, hdrop, hpage]
      exact strchr_concat (by decide) hnotin stale
  obtain ⟨hlen, hle, hinner⟩ := @partLen_ok σ mss hmss s c rest hrest stale
  have hstep : turn run mss buf s =
      let n := partLen mss s (if c = ISO_minor then s.data + 1 else s.data)
        (find [ISO_minor] ((if c = ISO_minor then rest else c :: rest) ++ [stale]))
      (slice buf s.data n).map fun bytes =>
        (⟨s.data + n, sizeT (s.len - n), s.lua⟩, .part n bytes) := by
    rw [turn, hstarts, Option.bind_some, if_neg Bool.false_ne_true, hstart]
    dsimp only
    rw [hchr]
    rfl
  dsimp only at hlen hle hinner hstep
  generalize partLen mss s (if c = ISO_minor then s.data + 1 else s.data)
    (find [ISO_minor] ((if c = ISO_minor then rest else c :: rest) ++ [stale])) = n
    at hlen hle hinner hstep
  have hleft : sizeT ((s.len : Int) - n) = s.len - n := sizeT_sub hle (by omega)
  simp only [slice_buf hbuf (show s.data + n ≤ page.length by omega), Option.map_some,
    hleft] at hstep
  obtain ⟨hexpand, hderails⟩ := @expand_copy σ run s.lua stale n (page.drop s.data)
    (by rw [List.length_drop]; omega) (fun _ => by rw [hpage]; exact hseen)
    (fun j hj hjn => by rw [hpage]; exact hinner j hj hjn)
  rw [List.drop_drop] at hexpand hderails
  refine ⟨_, _, hstep, ?_, ?_, ⟨by omega, hle⟩, hexpand, hderails⟩
  · dsimp only
    omega
  · dsimp only
    omega

end

/-- **One turn.**  Either it proceeds, or it leaves the page. -/
theorem turn_cases (hbuf : buf = page ++ stale :: 0 :: tail) (hnul : 0 ∉ page)
    (hsize : page.length < 2 ^ 32) (hmss : 0 < mss) (hin : s.data + s.len = page.length)
    (hpos : 0 < s.len) : Proceeds run mss buf page stale s ∨ Leaves run mss buf page stale s := by
  obtain ⟨c, rest, hpage⟩ : ∃ c rest, page.drop s.data = c :: rest := by
    cases hdrop : page.drop s.data with
    | nil =>
        rw [List.drop_eq_nil_iff] at hdrop
        omega
    | cons c rest => exact ⟨c, rest, rfl⟩
  have hrest : s.len = rest.length + 1 := by
    have hlen := congrArg List.length hpage
    rw [List.length_drop, List.length_cons] at hlen
    omega
  have hstarts : startsWith marker (buf.drop s.data) =
      some (marker.isPrefixOf (c :: rest ++ [stale])) := by
    rw [drop_buf hbuf (by omega), hpage, ← @startsWith_eq marker _ tail (by decide),
      List.append_assoc]
    rfl
  cases hseen : marker.isPrefixOf (c :: rest ++ [stale]) with
  | true =>
      rw [hseen] at hstarts
      by_cases hfull : marker.isPrefixOf (c :: rest) = true ∧ 5 < (c :: rest).length
      · exact turn_section hbuf hnul hsize hin hpage hrest hstarts hfull
      · exact .inr (turn_short hin hpage hrest hstarts hseen hfull)
  | false =>
      rw [hseen] at hstarts
      exact .inl (turn_part hbuf hnul hsize hmss hin hpage hrest hstarts hseen)

/-! ## The whole page -/

/-- A run that does not derail. -/
theorem run_expands (hbuf : buf = page ++ stale :: 0 :: tail) (hnul : 0 ∉ page)
    (hsize : page.length < 2 ^ 32) (hmss : 0 < mss) (hin : s.data + s.len = page.length)
    (hok : derails stale (page.drop s.data) = false) :
    ∃ turns last, (∀ fuel ≥ s.len + 1, handleEluaTags run mss buf fuel s = some (turns, last)) ∧
      (turns.flatMap fun t => t.2.sent) = (expand run s.lua (page.drop s.data)).1 ∧
      last.lua = (expand run s.lua (page.drop s.data)).2 ∧
      (∀ t ∈ turns, Inside page t.1 t.2) ∧ last.data + last.len ≤ page.length := by
  induction hlen : s.len using Nat.strong_induction_on generalizing s with
  | _ n ih =>
      by_cases hpos : 0 < s.len
      · rcases turn_cases hbuf hnul hsize hmss hin hpos with
          ⟨s', t, hturn, hin', hless, hinside, hexpand, hderails⟩ | ⟨hderails, -⟩
        · obtain ⟨turns, last, hrun, hsent, hlua, hall, hlast⟩ :=
            ih s'.len (hlen ▸ hless) hin' (hderails ▸ hok) rfl
          refine ⟨(s, t) :: turns, last, fun fuel hfuel => ?_, ?_, ?_, ?_, hlast⟩
          · obtain ⟨fuel, rfl⟩ : ∃ k, fuel = k + 1 := ⟨fuel - 1, by omega⟩
            rw [handleEluaTags, if_neg (Nat.ne_of_gt hpos), hturn]
            simp only [Option.bind_some]
            rw [hrun fuel (by omega)]
            rfl
          · rw [List.flatMap_cons, hsent, hexpand]
          · rw [hlua, hexpand]
          · intro v hv
            rcases List.mem_cons.mp hv with rfl | hv
            · exact hinside
            · exact hall v hv
        · rw [hok] at hderails
          cases hderails
      · have hzero : s.len = 0 := Nat.eq_zero_of_not_pos hpos
        have hend : page.drop s.data = [] := List.drop_eq_nil_iff.mpr (by omega)
        refine ⟨[], s, fun fuel hfuel => ?_, ?_, ?_, fun v hv => (by cases hv), by omega⟩
        · obtain ⟨fuel, rfl⟩ : ∃ k, fuel = k + 1 := ⟨fuel - 1, by omega⟩
          rw [handleEluaTags, if_pos hzero]
        · rw [hend, expand]
          rfl
        · rw [hend, expand]

/-- A run that derails leaves the page. -/
theorem run_derails (hbuf : buf = page ++ stale :: 0 :: tail) (hnul : 0 ∉ page)
    (hsize : page.length < 2 ^ 32) (hmss : 0 < mss) (hin : s.data + s.len = page.length)
    (hbad : derails stale (page.drop s.data) = true) {fuel : Nat} {turns : List (Page σ × Turn)}
    {last : Page σ} (hrun : handleEluaTags run mss buf fuel s = some (turns, last)) :
    ¬ ((∀ t ∈ turns, Inside page t.1 t.2) ∧ last.data + last.len ≤ page.length) := by
  induction fuel generalizing s turns last with
  | zero => cases hrun
  | succ fuel ih =>
      have hpos : 0 < s.len := by
        by_contra hzero
        have hend : page.drop s.data = [] := List.drop_eq_nil_iff.mpr (by omega)
        rw [hend, derails] at hbad
        cases hbad
      rw [handleEluaTags, if_neg (Nat.ne_of_gt hpos)] at hrun
      obtain ⟨⟨s', t⟩, hturn, hlater⟩ := Option.bind_eq_some_iff.mp hrun
      obtain ⟨⟨turns', last'⟩, hrun', hpair⟩ := Option.map_eq_some_iff.mp hlater
      obtain ⟨rfl, rfl⟩ := Prod.mk.inj hpair
      rintro ⟨hall, hlast⟩
      have hrest : ∀ v ∈ turns', Inside page v.1 v.2 :=
        fun v hv => hall v (List.mem_cons_of_mem _ hv)
      rcases turn_cases hbuf hnul hsize hmss hin hpos with
        ⟨s₁, t₁, hturn₁, hin', -, -, -, hderails⟩ | ⟨-, hout⟩
      · rw [hturn] at hturn₁
        obtain ⟨rfl, rfl⟩ := Prod.mk.inj (Option.some.inj hturn₁)
        exact ih hin' (hderails ▸ hbad) hrun' ⟨hrest, hlast⟩
      · have hgone := hout s' t hturn
        cases fuel with
        | zero => cases hrun'
        | succ fuel =>
            rw [handleEluaTags] at hrun'
            split at hrun'
            · obtain ⟨rfl, rfl⟩ := Prod.mk.inj (Option.some.inj hrun')
              omega
            · obtain ⟨⟨s₂, t₂⟩, -, hlater⟩ := Option.bind_eq_some_iff.mp hrun'
              obtain ⟨⟨turns₂, last₂⟩, -, hpair₂⟩ := Option.map_eq_some_iff.mp hlater
              obtain ⟨rfl, -⟩ := Prod.mk.inj hpair₂
              have hfirst := (hrest _ List.mem_cons_self).1
              dsimp only at hfirst
              omega

end

/-- The buffer after a page has been read to it. -/
theorem readHuge_eq {huge page : List UInt8} (h : page.length + 1 < huge.length) :
    ∃ tail, readHuge huge page =
      some (page ++ huge.getD page.length 0 :: 0 :: tail) := by
  refine ⟨huge.drop (page.length + 2), ?_⟩
  have hdrop : huge.drop page.length =
      huge.getD page.length 0 :: huge[page.length + 1] :: huge.drop (page.length + 2) := by
    rw [List.drop_eq_getElem_cons (by omega), List.drop_eq_getElem_cons h,
      List.getD_eq_getElem _ _ (by omega)]
  rw [readHuge, if_pos h, hdrop, List.set_append_right _ _ (by omega), Nat.add_sub_cancel_left]
  rfl

/-- **Pages with scripts.**  A page without zeros is expanded exactly when the
zero after it is in the buffer and the scan does not derail on it. -/
theorem page_expanded (run : σ → List UInt8 → List UInt8 × σ) {mss : Nat}
    {huge page : List UInt8} (lua : σ) (hmss : 0 < mss) (hhuge : huge.length = FILE_HUGE_SIZE)
    (hnul : 0 ∉ page) :
    Expanded run mss huge page lua ↔
      page.length + 1 < FILE_HUGE_SIZE ∧ derails (huge.getD page.length 0) page = false := by
  constructor
  · rintro ⟨buf, turns, last, depth, hread, hrun, -, -, hall, hlast⟩
    have hlen : page.length + 1 < huge.length := by
      by_contra hlong
      rw [readHuge, if_neg hlong] at hread
      cases hread
    refine ⟨hhuge ▸ hlen, ?_⟩
    obtain ⟨tail, hread'⟩ := readHuge_eq hlen
    have hbuf := Option.some.inj (hread.symm.trans hread')
    rw [← Bool.not_eq_true]
    intro hbad
    have hsmall : FILE_HUGE_SIZE < 2 ^ 32 := by decide
    exact @run_derails σ buf page tail _ run mss ⟨0, page.length, lua⟩ hbuf hnul (by omega) hmss
      (Nat.zero_add _) hbad depth turns last (hrun depth (Nat.le_refl _)) ⟨hall, hlast⟩
  · rintro ⟨hlen, hok⟩
    have hsmall : FILE_HUGE_SIZE < 2 ^ 32 := by decide
    obtain ⟨tail, hread⟩ := readHuge_eq (hhuge ▸ hlen)
    obtain ⟨turns, last, hrun, hrest⟩ := @run_expands σ _ page tail _ run mss ⟨0, page.length, lua⟩
      rfl hnul (by omega) hmss (Nat.zero_add _) hok
    exact ⟨_, turns, last, _, hread, hrun, hrest⟩

/-- Scripts that output their text. -/
def echo (count : Nat) (script : List UInt8) : List UInt8 × Nat := (script, count + 1)

/-- The page `a<?lua b?>c`. -/
theorem page_expanded_echo :
    Expanded echo 536 (List.replicate FILE_HUGE_SIZE 0)
      [97, 60, 63, 108, 117, 97, 32, 98, 63, 62, 99] 0 := by
  refine (page_expanded echo 0 (by decide) List.length_replicate (by decide)).mpr ⟨by decide, ?_⟩
  have hstale : (List.replicate FILE_HUGE_SIZE (0 : UInt8)).getD 11 0 = 0 := by
    rw [List.getD_eq_getElem?_getD, List.getElem?_replicate]
    rfl
  change derails ((List.replicate FILE_HUGE_SIZE (0 : UInt8)).getD 11 0) _ = false
  rw [hstale]
  simp [derails, marker, find, CGI_close]

/-- The page `<?lua` is not expanded: after the marker, more bytes are left than
there are. -/
theorem page_not_expanded :
    ¬ ∀ (σ : Type) (run : σ → List UInt8 → List UInt8 × σ) (mss : Nat) (huge page : List UInt8)
      (lua : σ), 0 < mss → huge.length = FILE_HUGE_SIZE → page.length ≤ FILE_HUGE_SIZE →
        0 ∉ page → Expanded run mss huge page lua := by
  intro h
  obtain ⟨buf, turns, last, depth, hread, hrun, -, -, hall, hlast⟩ :=
    h Nat echo 536 (List.replicate FILE_HUGE_SIZE 0) marker 0 (by decide) List.length_replicate
      (by decide) (by decide)
  have hlen : marker.length + 1 < (List.replicate FILE_HUGE_SIZE (0 : UInt8)).length := by
    rw [List.length_replicate]
    decide
  obtain ⟨tail, hread'⟩ := readHuge_eq hlen
  have hbuf := Option.some.inj (hread.symm.trans hread')
  have hbad (stale : UInt8) : derails stale marker = true := by
    simp [derails, marker]
  exact @run_derails Nat buf marker tail _ echo 536 ⟨0, marker.length, 0⟩ hbuf (by decide)
    (by decide) (by decide) (Nat.zero_add _) (hbad _) depth turns last
    (hrun depth (Nat.le_refl _)) ⟨hall, hlast⟩

end Httpd
