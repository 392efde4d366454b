import EluaWebServer.LuaJson.Parse

/-!
# Where `JSON_parse` stays within bounds

Of a result only the pointer matters that it leaves behind.  A reader answers when it ends with
what the grammar reads, with an error, or comes to a place that is not fine.  Two more inductions
give the converse: what the grammar reads is read, and from a place that is not fine the reading
is out of bounds, back to the beginning of the text.
-/

namespace JsonParse

open Json CString Relation

variable {jsonThere : Bool} {nest : Nest} {kind : Kind} {c t rest after : Ptr} {n m : Nat}

/-! ## The grammar -/

/-- A byte that is expected is passed, and the blanks in front of it. -/
theorem ends_passed {b : UInt8} (h : Ends c) (hskip : skipWs c = b :: rest) (hb : b ≠ 0) :
    rest <:+ c ∧ Ends rest := by
  have hsuffix : b :: rest <:+ c := hskip ▸ skipWs_suffix c
  exact ⟨(List.suffix_cons b rest).trans hsuffix, h.of_suffix hsuffix hb⟩

theorem length_lt_of_skipWs {b : UInt8} (h : skipWs c = b :: rest) : rest.length < c.length := by
  have hle := (skipWs_suffix c).length_le
  rw [h, List.length_cons] at hle
  exact hle

theorem Ends.of_append {xs : Ptr} (h : Ends (xs ++ c)) (hxs : 0 ∉ xs) : Ends c := by
  induction xs with
  | nil => exact h
  | cons x xs ih =>
      rw [List.mem_cons, not_or] at hxs
      exact ih (h.tail (Ne.symm hxs.1)) hxs.2

theorem literal_zero {word : List UInt8} (h : word ∈ [falseText, nullText, trueText]) :
    0 ∉ word := by
  revert word
  decide

theorem Nest.opening_ne_zero (nest : Nest) : nest.opening ≠ 0 := by
  cases nest <;> decide

theorem Nest.ending_ne_zero (nest : Nest) : nest.ending ≠ 0 := by
  cases nest <;> decide

theorem ReadsString.ends (h : ReadsString t rest) (hends : Ends t) : rest <:+ t ∧ Ends rest := by
  have hsuffix := h.suffix.trans (List.tail_suffix t)
  exact ⟨(List.suffix_cons _ rest).trans hsuffix, hends.of_suffix hsuffix (by decide)⟩

/-- What is read is in front of a rest that ends where the text does. -/
theorem Reads.ends (h : Reads jsonThere kind t rest) (hends : Ends t) :
    rest <:+ t ∧ Ends rest := by
  induction h with
  | literal hword _ hstarts =>
      obtain ⟨u, rfl⟩ := hstarts
      rw [List.drop_left]
      exact ⟨List.suffix_append _ _, hends.of_append (literal_zero hword)⟩
  | number _ hrest => exact ⟨numberRest_suffix hrest, hends.numberRest hrest⟩
  | string hstring => exact hstring.ends hends
  | @nested nest t rest _ ih =>
      obtain ⟨hsuffix, hrest⟩ := ih (hends.tail nest.opening_ne_zero).skipWs
      exact ⟨(hsuffix.trans (skipWs_suffix t)).trans (List.suffix_cons _ t), hrest⟩
  | element _ ih => exact ih hends
  | member hname hcolon _ ih =>
      obtain ⟨hsuffix, hcolonEnds⟩ := hname.ends hends
      obtain ⟨hvalue, hvalueEnds⟩ := ends_passed hcolonEnds hcolon (by decide)
      obtain ⟨hrest, hrestEnds⟩ := ih hvalueEnds.skipWs
      exact ⟨((hrest.trans (skipWs_suffix _)).trans hvalue).trans hsuffix, hrestEnds⟩
  | @last nest _ _ _ _ hending ih =>
      obtain ⟨hsuffix, hafter⟩ := ih hends
      obtain ⟨hrest, hrestEnds⟩ := ends_passed hafter hending nest.ending_ne_zero
      exact ⟨hrest.trans hsuffix, hrestEnds⟩
  | next _ hcomma _ ih ihitems =>
      obtain ⟨hsuffix, hafter⟩ := ih hends
      obtain ⟨hmore, hmoreEnds⟩ := ends_passed hafter hcomma (by decide)
      obtain ⟨hrest, hrestEnds⟩ := ihitems hmoreEnds.skipWs
      exact ⟨((hrest.trans (skipWs_suffix _)).trans hmore).trans hsuffix, hrestEnds⟩

/-! ## What the readers leave -/

/-- What a reader leaves of the text. -/
def leave {α : Type} (x : Result α) : Except Stop Ptr := x.map Prod.snd

theorem leave_map {α β : Type} (x : Result α) (f : α → β) :
    leave (x.map fun y => (f y.1, y.2)) = leave x := by
  cases x <;> rfl

/-- One round of the loop. -/
theorem leave_readItems {α : Type} (item : Ptr → Result α) (hends : Ends c) :
    leave (readItems item (m + 1) c) =
      (leave (item (skipWs c))).bind fun c =>
        (passwhitespace c).bind fun c =>
          (deref c).bind fun b =>
            if b = valueSeparator then
              (passwhitespace c.tail).bind fun c => leave (readItems item m c)
            else .ok c := by
  rw [readItems, passwhitespace_eq hends]
  show leave ((item (skipWs c)).bind _) = (leave (item (skipWs c))).bind _
  cases item (skipWs c) with
  | error e => rfl
  | ok x =>
      obtain ⟨v, c⟩ := x
      show leave ((passwhitespace c).bind _) = (passwhitespace c).bind _
      cases passwhitespace c with
      | error e => rfl
      | ok c =>
          show leave ((deref c).bind _) = (deref c).bind _
          cases deref c with
          | error e => rfl
          | ok b =>
              show leave (if b = valueSeparator then _ else _) = if b = valueSeparator then _ else _
              split
              · show leave ((passwhitespace c.tail).bind _) = (passwhitespace c.tail).bind _
                cases passwhitespace c.tail with
                | error e => rfl
                | ok c => exact leave_map (readItems item m c) (v :: ·)
              · rfl

theorem passEnd_eq {ending : UInt8} {msg : List UInt8} (hends : Ends c) :
    passEnd ending msg c = (deref (skipWs c)).bind fun b =>
      if b = ending then .ok (skipWs c).tail else appendError (skipWs c) msg := by
  rw [passEnd, passwhitespace_eq hends]
  rfl

/-- What the loop and the end make of what an item leaves. -/
theorem readItems_of_ok {α : Type} (item : Ptr → Result α) (nest : Nest) (m : Nat)
    (hends : Ends c) (hafter : Ends after) (h : leave (item (skipWs c)) = .ok after) :
    (leave (readItems item (m + 1) c)).bind (passEnd nest.ending nest.noEnding) =
      match skipWs after with
      | [] => .error .fault
      | b :: t =>
          if b = valueSeparator then
            (leave (readItems item m (skipWs t))).bind (passEnd nest.ending nest.noEnding)
          else if b = nest.ending then .ok t
          else appendError (b :: t) nest.noEnding := by
  have hskip := hafter.skipWs
  rw [leave_readItems item hends, h]
  show ((passwhitespace after).bind _).bind _ = _
  rw [passwhitespace_eq hafter]
  cases hb : skipWs after with
  | nil => rfl
  | cons b t =>
      rw [hb] at hskip
      show (if b = valueSeparator then (passwhitespace t).bind _ else .ok (b :: t)).bind _ =
        if b = valueSeparator then _ else _
      split
      · rename_i hcomma
        rw [passwhitespace_eq (hskip.tail (hcomma ▸ by decide))]
        rfl
      · have hidem : skipWs (b :: t) = b :: t := by
          rw [← hb, skipWs_skipWs]
        show passEnd nest.ending nest.noEnding (b :: t) = _
        rw [passEnd_eq hskip, hidem]
        rfl

theorem leave_readNested {α : Type} (opening ending : UInt8) (noOpening noEnding : List UInt8)
    (item : Ptr → Result α) (value : List α → Value) (t : Ptr) :
    leave (readNested opening ending noOpening noEnding item value (opening :: t)) =
      (leave (readItems item (t.length + 1) t)).bind (passEnd ending noEnding) := by
  show leave (if opening ≠ opening then _ else (readItems item (t.length + 1) t).bind _) = _
  rw [if_neg (not_not_intro rfl)]
  cases readItems item (t.length + 1) t with
  | error e => rfl
  | ok x =>
      show leave ((passEnd ending noEnding x.2).map _) = passEnd ending noEnding x.2
      cases passEnd ending noEnding x.2 <;> rfl

/-- An item of an array or of an object. -/
def itemRun (jsonThere : Bool) (n : Nat) : Nest → Ptr → Except Stop Ptr
  | .array, t => leave (readValue jsonThere n t)
  | .object, t => leave (readMember (readValue jsonThere n) t)

/-- Items and their end. -/
def itemsRun (jsonThere : Bool) (n : Nat) (nest : Nest) (m : Nat) (c : Ptr) : Except Stop Ptr :=
  (match nest with
    | .array => leave (readItems (readValue jsonThere n) m c)
    | .object => leave (readItems (readMember (readValue jsonThere n)) m c)).bind
    (passEnd nest.ending nest.noEnding)

/-- What comes after an item. -/
def afterRun (jsonThere : Bool) (n : Nat) (nest : Nest) (m : Nat) : Ptr → Except Stop Ptr
  | [] => .error .fault
  | b :: t =>
      if b = valueSeparator then itemsRun jsonThere n nest m (skipWs t)
      else if b = nest.ending then .ok t
      else appendError (b :: t) nest.noEnding

/-- **An item that is read** is followed by what comes after it. -/
theorem itemsRun_of_ok (hends : Ends c) (hafter : Ends after)
    (h : itemRun jsonThere n nest (skipWs c) = .ok after) :
    itemsRun jsonThere n nest (m + 1) c = afterRun jsonThere n nest m (skipWs after) := by
  cases nest with
  | array =>
      refine (readItems_of_ok _ .array m hends hafter h).trans ?_
      cases skipWs after <;> rfl
  | object =>
      refine (readItems_of_ok _ .object m hends hafter h).trans ?_
      cases skipWs after <;> rfl

theorem itemsRun_of_error {e : Stop} (hends : Ends c)
    (h : itemRun jsonThere n nest (skipWs c) = .error e) :
    itemsRun jsonThere n nest (m + 1) c = .error e := by
  have hloop : ∀ {α : Type} (item : Ptr → Result α), leave (item (skipWs c)) = .error e →
      leave (readItems item (m + 1) c) = .error e := by
    intro α item hitem
    rw [leave_readItems item hends, hitem]
    rfl
  cases nest with
  | array => exact congrArg (Except.bind · _) (hloop _ h)
  | object => exact congrArg (Except.bind · _) (hloop _ h)

/-- An array or an object is its items and their end. -/
theorem leave_readValue_nested (jsonThere : Bool) (n : Nat) (nest : Nest) (t : Ptr) :
    leave (readValue jsonThere (n + 1) (nest.opening :: t)) =
      itemsRun jsonThere n nest (t.length + 1) t := by
  cases nest with
  | array =>
      exact leave_readNested beginArray endArray (bytes "JSON readArray (1) b0rked :c.")
        (bytes "JSON readArray b0rked :c.") (readValue jsonThere n) .array t
  | object =>
      exact leave_readNested beginObject endObject (bytes "JSON readObject(1) b0rked :c.")
        (bytes "JSON readObject(3) b0rked :c.") (readMember (readValue jsonThere n)) .object t

/-- A member is its name and its value. -/
theorem itemRun_member {s : List UInt8} {colon u : Ptr} (hname : readString t = .ok (s, colon))
    (hends : Ends colon) (hcolon : skipWs colon = nameSeparator :: u) :
    itemRun jsonThere n .object t = leave (readValue jsonThere n (skipWs u)) := by
  have hu := (ends_passed hends hcolon (by decide)).2
  show leave ((readString t).bind _) = _
  rw [hname]
  show leave ((passwhitespace colon).bind _) = _
  rw [passwhitespace_eq hends, hcolon]
  show leave ((passwhitespace u).bind _) = _
  rw [passwhitespace_eq hu]
  exact leave_map (readValue jsonThere n (skipWs u)) _

/-! ## Answers -/

/-- A reader answers with a rest, with an error, or comes to a place that is not fine. -/
def Answers (jsonThere : Bool) (kind : Kind) (cfg : Place × Ptr) (x : Except Stop Ptr) : Prop :=
  (∃ rest, x = .ok rest ∧ Reads jsonThere kind cfg.2 rest) ∨ (∃ msg, x = .error (.raised msg)) ∨
    ∃ cfg', ReflTransGen (Step jsonThere) cfg cfg' ∧ ¬ Fine cfg'

theorem appendError_answers {α : Type} {msg : List UInt8} (cfg : Place × Ptr)
    (h : ¬ HasRoom t msg → ¬ Fine cfg) :
    Answers jsonThere kind cfg (leave (appendError t msg : Result α)) := by
  by_cases hroom : HasRoom t msg
  · obtain ⟨m, hm⟩ := appendError_of_room (α := α × Ptr) hroom
    rw [hm]
    exact .inr (.inl ⟨m, rfl⟩)
  · exact .inr (.inr ⟨cfg, .refl, h hroom⟩)

theorem readWord_answers {word msg : List UInt8} {value : Except Stop Value}
    (hword : word ∈ [falseText, nullText, trueText])
    (hvalue : (∃ v, value = .ok v ∧ (word = nullText → jsonThere = true)) ∨
      ∃ m, value = .error (.raised m)) (hends : Ends t) :
    Answers jsonThere .value (.value, t) (leave (readWord word value msg t)) := by
  rw [readWord_eq (literal_zero hword) hends]
  by_cases hstarts : word <+: t
  · rw [if_pos hstarts]
    rcases hvalue with ⟨v, rfl, hthere⟩ | ⟨m, rfl⟩
    · exact .inl ⟨_, rfl, .literal hword hthere hstarts⟩
    · exact .inr (.inl ⟨m, rfl⟩)
  · rw [if_neg hstarts]
    exact .inr (.inl ⟨msg, rfl⟩)

theorem readNumber_answers {b : UInt8} (hb : b = minus ∨ isDigit b = true) (hends : Ends (b :: t)) :
    Answers jsonThere .value (.value, b :: t) (leave (readNumber (b :: t))) := by
  have hread := readNumber_eq hends
  cases hrest : numberRest (b :: t) with
  | some rest =>
      rw [hrest] at hread
      obtain ⟨v, hv⟩ := hread
      rw [hv]
      exact .inl ⟨rest, rfl, .number hb hrest⟩
  | none =>
      rw [hrest] at hread
      obtain ⟨m, hm⟩ := hread
      rw [hm]
      exact .inr (.inl ⟨m, rfl⟩)

theorem readString_answers (hends : Ends (quotationMark :: t)) :
    Answers jsonThere .value (.value, quotationMark :: t)
      (leave (readString (quotationMark :: t))) := by
  by_cases hfits : StringFits t
  · rcases readString_of_fits hfits with ⟨rest, hreads⟩ | ⟨m, hm⟩
    · obtain ⟨s, hs⟩ := readString_of_reads hends hreads
      rw [hs]
      exact .inl ⟨rest, rfl, .string hreads⟩
    · rw [hm]
      exact .inr (.inl ⟨m, rfl⟩)
  · refine .inr (.inr ⟨_, .refl, ?_⟩)
    rw [Fine, if_pos rfl]
    exact hfits

/-- What is reached from a place that the reading goes to. -/
theorem Answers.error_of_step {kind' : Kind} {cfg cfg' : Place × Ptr} {x : Except Stop Ptr}
    (hstep : Step jsonThere cfg cfg') (h : Answers jsonThere kind' cfg' x)
    (hok : ∀ rest, x = .ok rest → Reads jsonThere kind' cfg'.2 rest →
      Answers jsonThere kind cfg x) : Answers jsonThere kind cfg x := by
  rcases h with ⟨rest, hx, hreads⟩ | herror | ⟨bad, hpath, hbad⟩
  · exact hok rest hx hreads
  · exact .inr (.inl herror)
  · exact .inr (.inr ⟨bad, .head hstep hpath, hbad⟩)

/-- The values of texts up to some length are answered. -/
def ValueAnswers (jsonThere : Bool) (n : Nat) : Prop :=
  ∀ t, Ends t → t.length ≤ n →
    Answers jsonThere .value (.value, t) (leave (readValue jsonThere n t))

theorem item_answers (hvalue : ValueAnswers jsonThere n) (nest : Nest) (hends : Ends t)
    (hlength : t.length ≤ n) :
    Answers jsonThere (.item nest) (.item nest, t) (itemRun jsonThere n nest t) := by
  cases nest with
  | array =>
      exact (hvalue t hends hlength).error_of_step .element fun rest hx hreads =>
        .inl ⟨rest, hx, .element hreads⟩
  | object =>
      obtain ⟨b, t, rfl⟩ := List.exists_cons_of_ne_nil hends.ne_nil
      by_cases hb : b = quotationMark
      · subst hb
        by_cases hfits : StringFits t
        · rcases readString_of_fits hfits with ⟨colon, hname⟩ | ⟨m, hm⟩
          · obtain ⟨s, hs⟩ := readString_of_reads hends hname
            obtain ⟨hsuffix, hcolonEnds⟩ := hname.ends hends
            obtain ⟨b, u, hskip⟩ := List.exists_cons_of_ne_nil hcolonEnds.skipWs.ne_nil
            by_cases hb : b = nameSeparator
            · subst hb
              obtain ⟨hu, huEnds⟩ := ends_passed hcolonEnds hskip (by decide)
              rw [itemRun_member hs hcolonEnds hskip]
              have hshort := ((skipWs_suffix u).trans (hu.trans hsuffix)).length_le
              exact (hvalue _ huEnds.skipWs (hshort.trans hlength)).error_of_step
                (.member hname hskip) fun rest hx hreads =>
                  .inl ⟨rest, hx, .member hname hskip hreads⟩
            · refine .inr (.inl ⟨bytes "JSON readObject(2) b0rked :c.", ?_⟩)
              show leave ((readString _).bind _) = _
              rw [hs]
              show leave ((passwhitespace colon).bind _) = _
              rw [passwhitespace_eq hcolonEnds, hskip]
              exact congrArg leave (if_pos hb)
          · refine .inr (.inl ⟨m, ?_⟩)
            show leave ((readString _).bind _) = _
            rw [hm]
            rfl
        · refine .inr (.inr ⟨_, .refl, ?_⟩)
          exact fun hfine => hfits (hfine rfl)
      · obtain ⟨m, hm⟩ := readString_of_ne hb t
        refine .inr (.inl ⟨m, ?_⟩)
        show leave ((readString _).bind _) = _
        rw [hm]
        rfl

/-- **A run of items**, by the number of rounds. -/
theorem items_answers (hvalue : ValueAnswers jsonThere n) (nest : Nest) (hends : Ends c)
    (hlength : c.length ≤ n) (hrounds : c.length ≤ m) :
    Answers jsonThere (.items nest) (.item nest, skipWs c) (itemsRun jsonThere n nest m c) := by
  induction m generalizing c with
  | zero => exact absurd (List.eq_nil_of_length_eq_zero (Nat.le_zero.mp hrounds)) hends.ne_nil
  | succ m ih =>
      have hskip := (skipWs_suffix c).length_le
      rcases item_answers hvalue nest hends.skipWs (hskip.trans hlength) with
        ⟨after, hafter, hitem⟩ | ⟨msg, herror⟩ | hbad
      · obtain ⟨hsuffix, hafterEnds⟩ := hitem.ends hends.skipWs
        obtain ⟨b, t, ht⟩ := List.exists_cons_of_ne_nil hafterEnds.skipWs.ne_nil
        have hleave := Step.leave hitem
        rw [itemsRun_of_ok hends hafterEnds hafter, ht, afterRun]
        rw [ht] at hleave
        split
        · rename_i hcomma
          subst hcomma
          obtain ⟨htsuffix, htEnds⟩ := ends_passed hafterEnds ht (by decide)
          have hshort : t.length < c.length := by
            have hafterLe : after.length ≤ (skipWs c).length := hsuffix.length_le
            have hlt := length_lt_of_skipWs ht
            omega
          have htskip := (skipWs_suffix t).length_le
          have hnext := ih htEnds.skipWs (by omega) (by omega)
          rw [skipWs_skipWs] at hnext
          rcases hnext with ⟨rest, hrest, hitems⟩ | herror | ⟨bad, hpath, hbad⟩
          · exact .inl ⟨rest, hrest, .next hitem ht hitems⟩
          · exact .inr (.inl herror)
          · exact .inr (.inr ⟨bad, .head hleave (.head .next hpath), hbad⟩)
        · rename_i hcomma
          split
          · rename_i hending
            subst hending
            exact .inl ⟨t, rfl, .last hitem ht⟩
          · rename_i hending
            by_cases hroom : HasRoom (b :: t) nest.noEnding
            · exact .inr (.inl (appendError_of_room hroom))
            · refine .inr (.inr ⟨_, .single hleave, ?_⟩)
              rintro (h | h | h)
              · exact hcomma h
              · exact hending h
              · exact hroom h
      · exact .inr (.inl ⟨msg, itemsRun_of_error hends herror⟩)
      · exact .inr (.inr hbad)

/-- **Values are answered**, by how deep they are. -/
theorem value_answers (jsonThere : Bool) (n : Nat) : ValueAnswers jsonThere n := by
  induction n with
  | zero =>
      intro t hends hlength
      exact absurd (List.eq_nil_of_length_eq_zero (Nat.le_zero.mp hlength)) hends.ne_nil
  | succ n ih =>
      intro t hends hlength
      obtain ⟨b, t, rfl⟩ := List.exists_cons_of_ne_nil hends.ne_nil
      have hnested : ∀ nest : Nest, b = nest.opening → Answers jsonThere .value (.value, b :: t)
          (leave (readValue jsonThere (n + 1) (b :: t))) := by
        rintro nest rfl
        rw [leave_readValue_nested]
        have hshort : t.length ≤ n := Nat.le_of_succ_le_succ hlength
        exact (items_answers ih nest (hends.tail nest.opening_ne_zero) hshort
          (Nat.le_succ _)).error_of_step .enter fun rest hx hreads =>
            .inl ⟨rest, hx, .nested hreads⟩
      show Answers jsonThere .value (.value, b :: t) (leave (if b = 0x66 then _ else
        if b = 0x6E then _ else if b = 0x74 then _ else if b = beginArray then _ else
        if b = beginObject then _ else if b = minus ∨ isDigit b then _ else
        if b = quotationMark then (readString (b :: t)).map _ else _))
      split_ifs with hfalse hnull htrue harray hobject hnumber hquote
      · exact readWord_answers (by decide) (.inl ⟨_, rfl, fun h => absurd h (by decide)⟩) hends
      · refine readWord_answers (by decide) ?_ hends
        cases jsonThere with
        | true => exact .inl ⟨_, rfl, fun _ => rfl⟩
        | false => exact .inr ⟨_, rfl⟩
      · exact readWord_answers (by decide) (.inl ⟨_, rfl, fun h => absurd h (by decide)⟩) hends
      · subst harray
        exact hnested .array rfl
      · subst hobject
        exact hnested .object rfl
      · exact readNumber_answers hnumber hends
      · subst hquote
        rw [leave_map (readString (quotationMark :: t)) Value.string]
        exact readString_answers hends
      · -- nothing that a value begins with
        refine appendError_answers _ fun hroom hfine => ?_
        rw [Fine, if_neg hquote] at hfine
        rcases hfine with hstarts | h
        · rw [not_or] at hnumber
          rcases hstarts with hmem | hdigit
          · simp only [List.mem_cons, List.not_mem_nil, or_false] at hmem
            rcases hmem with h | h | h | h | h | h
            · exact hfalse h
            · exact hnull h
            · exact htrue h
            · exact harray h
            · exact hobject h
            · exact hnumber.1 h
          · exact hnumber.2 hdigit
        · exact hroom h

/-! ## What the grammar reads is read -/

/-- The run of a reader, whatever fuel it has, if only enough. -/
def Runs (jsonThere : Bool) (done : Except Stop Ptr → Prop) : Kind → Ptr → Prop
  | .value, t => ∀ n, t.length ≤ n → done (leave (readValue jsonThere n t))
  | .item nest, t => ∀ n, t.length ≤ n → done (itemRun jsonThere n nest t)
  | .items nest, t => ∀ n m c, Ends c → skipWs c = t → t.length ≤ n → c.length ≤ m →
      done (itemsRun jsonThere n nest m c)

/-- There is fuel for a text. -/
theorem exists_fuel (hends : Ends t) (h : t.length ≤ n) : ∃ k, n = k + 1 := by
  refine Nat.exists_eq_succ_of_ne_zero ?_
  rintro rfl
  exact hends.ne_nil (List.eq_nil_of_length_eq_zero (Nat.le_zero.mp h))

theorem leave_readWord {word : List UInt8} (msg : List UInt8) (value : Except Stop Value)
    {v : Value} (hword : word ∈ [falseText, nullText, trueText]) (hvalue : value = .ok v)
    (hends : Ends t) (hstarts : word <+: t) :
    leave (readWord word value msg t) = .ok (t.drop word.length) := by
  rw [readWord_eq (literal_zero hword) hends, if_pos hstarts, hvalue]
  rfl

theorem leave_readValue_literal {word : List UInt8} (hword : word ∈ [falseText, nullText, trueText])
    (hthere : word = nullText → jsonThere = true) (hstarts : word <+: t) (hends : Ends t)
    (n : Nat) : leave (readValue jsonThere (n + 1) t) = .ok (t.drop word.length) := by
  have hmem := hword
  simp only [List.mem_cons, List.not_mem_nil, or_false] at hmem
  rcases hmem with rfl | rfl | rfl
  · have hread := leave_readWord (bytes "JSON readFalse b0rked :c.")
      (.ok (.boolean false)) hword rfl hends hstarts
    obtain ⟨u, rfl⟩ := hstarts
    exact hread
  · have hread := leave_readWord (bytes "JSON readNull b0rked :c.")
      (if jsonThere then .ok .null
        else JSONError (bytes "attempt to index a nil value"))
      hword (if_pos (hthere rfl)) hends hstarts
    obtain ⟨u, rfl⟩ := hstarts
    exact hread
  · have hread := leave_readWord (bytes "JSON readTrue b0rked :c.")
      (.ok (.boolean true)) hword rfl hends hstarts
    obtain ⟨u, rfl⟩ := hstarts
    exact hread

theorem readValue_number {b : UInt8} (hb : b = minus ∨ isDigit b = true) (t : Ptr) (n : Nat) :
    readValue jsonThere (n + 1) (b :: t) = readNumber (b :: t) := by
  have hne : ∀ x : UInt8, x ∈ [0x66, 0x6E, 0x74, beginArray, beginObject] → b ≠ x := by
    rintro x hx rfl
    simp only [List.mem_cons, List.not_mem_nil, or_false] at hx
    rcases hx with rfl | rfl | rfl | rfl | rfl <;> revert hb <;> decide
  show (if b = 0x66 then _ else if b = 0x6E then _ else if b = 0x74 then _ else
    if b = beginArray then _ else if b = beginObject then _ else
    if b = minus ∨ isDigit b then _ else _) = _
  rw [if_neg (hne _ (by simp)), if_neg (hne _ (by simp)), if_neg (hne _ (by simp)),
    if_neg (hne _ (by simp)), if_neg (hne _ (by simp)), if_pos hb]

/-- Where no value begins there is a message. -/
theorem readValue_other {b : UInt8} (hquote : b ≠ quotationMark) (h : ¬ startsValue b) (t : Ptr)
    (n : Nat) : readValue jsonThere (n + 1) (b :: t) =
      appendError (b :: t) (bytes "JSON readValue b0rked :c.") := by
  simp only [startsValue, List.mem_cons, List.not_mem_nil, or_false, not_or] at h
  obtain ⟨⟨hfalse, hnull, htrue, harray, hobject, hminus⟩, hdigit⟩ := h
  show (if b = 0x66 then _ else if b = 0x6E then _ else if b = 0x74 then _ else
    if b = beginArray then _ else if b = beginObject then _ else
    if b = minus ∨ isDigit b then _ else if b = quotationMark then _ else _) = _
  rw [if_neg hfalse, if_neg hnull, if_neg htrue, if_neg harray, if_neg hobject,
    if_neg (not_or.mpr ⟨hminus, hdigit⟩), if_neg hquote]

/-- **What is read** by the grammar is read. -/
theorem Reads.runs (h : Reads jsonThere kind t rest) (hends : Ends t) :
    Runs jsonThere (· = .ok rest) kind t := by
  induction h with
  | literal hword hthere hstarts =>
      intro n hn
      obtain ⟨n, rfl⟩ := exists_fuel hends hn
      exact leave_readValue_literal hword hthere hstarts hends n
  | @number b t rest hb hrest =>
      intro n hn
      obtain ⟨n, rfl⟩ := exists_fuel hends hn
      have hread := readNumber_eq hends
      rw [hrest] at hread
      obtain ⟨v, hv⟩ := hread
      show leave (readValue jsonThere (n + 1) (b :: t)) = _
      rw [readValue_number hb, hv]
      rfl
  | @string t rest hstring =>
      intro n hn
      obtain ⟨n, rfl⟩ := exists_fuel hends hn
      obtain ⟨s, hs⟩ := readString_of_reads hends hstring
      obtain ⟨hpieces, hsavings, hbalanced⟩ := hstring
      rename_i t ps
      show leave ((readString (quotationMark :: t)).map _) = _
      rw [hs]
      rfl
  | @nested nest t rest _ ih =>
      intro n hn
      obtain ⟨n, rfl⟩ := exists_fuel hends hn
      have ht := hends.tail nest.opening_ne_zero
      have hle := (skipWs_suffix t).length_le
      rw [List.length_cons] at hn
      show leave (readValue jsonThere (n + 1) (nest.opening :: t)) = _
      rw [leave_readValue_nested]
      exact ih ht.skipWs n (t.length + 1) t ht rfl (by omega) (Nat.le_succ _)
  | element _ ih => exact ih hends
  | @member t colon u rest hname hcolon _ ih =>
      intro n hn
      obtain ⟨s, hs⟩ := readString_of_reads hends hname
      obtain ⟨hsuffix, hcolonEnds⟩ := hname.ends hends
      obtain ⟨hu, huEnds⟩ := ends_passed hcolonEnds hcolon (by decide)
      have hle := ((skipWs_suffix u).trans (hu.trans hsuffix)).length_le
      show itemRun jsonThere n .object t = _
      rw [itemRun_member hs hcolonEnds hcolon]
      exact ih huEnds.skipWs n (hle.trans hn)
  | @last nest t after rest hitem hending ih =>
      intro n m c hc hskip hn hm
      subst hskip
      obtain ⟨m, rfl⟩ := exists_fuel hc hm
      show itemsRun jsonThere n nest (m + 1) c = _
      rw [itemsRun_of_ok hc (hitem.ends hends).2 (ih hends n hn), hending, afterRun]
      have hne : nest.ending ≠ valueSeparator := by
        cases nest <;> decide
      rw [if_neg hne, if_pos rfl]
  | @next nest t after more rest hitem hcomma _ ih ihitems =>
      intro n m c hc hskip hn hm
      subst hskip
      obtain ⟨m, rfl⟩ := exists_fuel hc hm
      obtain ⟨hsuffix, hafter⟩ := hitem.ends hends
      obtain ⟨hmore, hmoreEnds⟩ := ends_passed hafter hcomma (by decide)
      show itemsRun jsonThere n nest (m + 1) c = _
      rw [itemsRun_of_ok hc hafter (ih hends n hn), hcomma, afterRun, if_pos rfl]
      have hshort := length_lt_of_skipWs hcomma
      have hafterLe := hsuffix.length_le
      have hskip := (skipWs_suffix c).length_le
      have hmoreLe := (skipWs_suffix more).length_le
      have hn' : (skipWs more).length ≤ n := by omega
      have hm' : (skipWs more).length ≤ m := by omega
      exact ihitems hmoreEnds.skipWs n m _ hmoreEnds.skipWs (skipWs_skipWs more) hn' hm'

/-! ## Out of bounds -/

def Out (x : Except Stop Ptr) : Prop := x = .error .fault ∨ x = .error .uneven

/-- The reading from a place is out of bounds. -/
def OutFrom (jsonThere : Bool) : Place × Ptr → Prop
  | (.value, t) => Runs jsonThere Out .value t
  | (.item nest, t) => Runs jsonThere Out (.items nest) t
  | (.after nest, t) => ∀ n m, t.length ≤ n → t.length ≤ m + 1 → Out (afterRun jsonThere n nest m t)

theorem itemsRun_of_out (hends : Ends c) (h : Out (itemRun jsonThere n nest (skipWs c))) :
    Out (itemsRun jsonThere n nest (m + 1) c) := by
  rcases h with h | h
  · exact .inl (itemsRun_of_error hends h)
  · exact .inr (itemsRun_of_error hends h)

/-- Where an item is out of bounds, so are the items. -/
theorem runs_items_of_item (h : Runs jsonThere Out (.item nest) t) :
    Runs jsonThere Out (.items nest) t := by
  intro n m c hc hskip hn hm
  subst hskip
  obtain ⟨m, rfl⟩ := exists_fuel hc hm
  exact itemsRun_of_out hc (h n hn)

theorem out_of_not_fine {place : Place} (hends : Ends t) (h : ¬ Fine (place, t)) :
    OutFrom jsonThere (place, t) := by
  obtain ⟨b, t, rfl⟩ := List.exists_cons_of_ne_nil hends.ne_nil
  cases place with
  | value =>
      intro n hn
      obtain ⟨n, rfl⟩ := exists_fuel hends hn
      rw [Fine] at h
      by_cases hquote : b = quotationMark
      · subst hquote
        rw [if_pos rfl] at h
        show Out (leave ((readString (quotationMark :: t)).map _))
        rcases readString_of_not_fits hends h with hout | hout
        · rw [hout]
          exact .inl rfl
        · rw [hout]
          exact .inr rfl
      · rw [if_neg hquote, not_or] at h
        rw [readValue_other hquote h.1, appendError_of_not_room h.2]
        exact .inl rfl
  | item nest =>
      refine runs_items_of_item fun n hn => ?_
      cases nest with
      | array => exact absurd trivial h
      | object =>
          obtain ⟨hquote, hfits⟩ := Classical.not_imp.mp h
          subst hquote
          show Out (leave ((readString (quotationMark :: t)).bind _))
          rcases readString_of_not_fits hends hfits with hout | hout
          · rw [hout]
            exact .inl rfl
          · rw [hout]
            exact .inr rfl
  | after nest =>
      intro n m hn hm
      simp only [Fine, not_or] at h
      show Out (if b = valueSeparator then _ else if b = nest.ending then _ else _)
      rw [if_neg h.1, if_neg h.2.1]
      exact .inl (appendError_of_not_room h.2.2)

theorem Step.ends {cfg cfg' : Place × Ptr} (h : Step jsonThere cfg cfg') (hends : Ends cfg.2) :
    Ends cfg'.2 := by
  cases h with
  | @enter nest => exact (Ends.tail hends nest.opening_ne_zero).skipWs
  | element => exact hends
  | member hname hcolon => exact (ends_passed (hname.ends hends).2 hcolon (by decide)).2.skipWs
  | leave hitem => exact (hitem.ends hends).2.skipWs
  | next => exact (Ends.tail hends (by decide)).skipWs

/-- **A place** from which the reading goes out of bounds is itself one. -/
theorem Step.out {cfg cfg' : Place × Ptr} (h : Step jsonThere cfg cfg') (hends : Ends cfg.2)
    (hout : OutFrom jsonThere cfg') : OutFrom jsonThere cfg := by
  cases h with
  | @enter nest t =>
      intro n hn
      obtain ⟨n, rfl⟩ := exists_fuel hends hn
      have ht : Ends t := Ends.tail hends nest.opening_ne_zero
      have hle := (skipWs_suffix t).length_le
      rw [List.length_cons] at hn
      rw [leave_readValue_nested]
      exact hout n (t.length + 1) t ht rfl (by omega) (Nat.le_succ _)
  | element => exact runs_items_of_item hout
  | @member t colon u hname hcolon =>
      refine runs_items_of_item fun n hn => ?_
      obtain ⟨s, hs⟩ := readString_of_reads hends hname
      obtain ⟨hsuffix, hcolonEnds⟩ := hname.ends hends
      have hu := (ends_passed hcolonEnds hcolon (by decide)).1
      have hle := ((skipWs_suffix u).trans (hu.trans hsuffix)).length_le
      rw [itemRun_member hs hcolonEnds hcolon]
      exact hout n (hle.trans hn)
  | @leave nest t after hitem =>
      intro n m c hc hskip hn hm
      subst hskip
      obtain ⟨m, rfl⟩ := exists_fuel hc hm
      obtain ⟨hsuffix, hafter⟩ := hitem.ends hends
      have hskip := (skipWs_suffix c).length_le
      have hle := ((skipWs_suffix after).trans hsuffix).length_le
      rw [itemsRun_of_ok hc hafter (hitem.runs hends n hn)]
      exact hout n m (by omega) (by omega)
  | @next nest t =>
      intro n m hn hm
      have ht : Ends t := Ends.tail hends (by decide)
      have hle := (skipWs_suffix t).length_le
      rw [List.length_cons] at hn hm
      rw [afterRun, if_pos rfl]
      exact hout n m _ ht.skipWs (skipWs_skipWs t) (by omega) (by omega)

theorem out_of_path {cfg cfg' : Place × Ptr} (h : ReflTransGen (Step jsonThere) cfg cfg')
    (hends : Ends cfg.2) (hfine : ¬ Fine cfg') : OutFrom jsonThere cfg := by
  induction h using ReflTransGen.head_induction_on with
  | refl => exact out_of_not_fine hends hfine
  | head hstep _ ih => exact hstep.out hends (ih (hstep.ends hends))

/-! ## The whole text -/

theorem ends_copy (s : List UInt8) : Ends (s ++ [0]) := List.suffix_append s [0]

theorem JSON_parse_eq (jsonThere : Bool) (n : Nat) (s : List UInt8) :
    JSON_parse jsonThere n s = (readValue jsonThere n (skipWs (s ++ [0]))).bind fun x =>
      (passwhitespace x.2).bind fun c =>
        (deref c).bind fun b =>
          if b ≠ 0 then JSONError (bytes "Something past the root value?") else .ok x.1 := by
  rw [JSON_parse, passwhitespace_eq (ends_copy s)]
  rfl

/-- What comes after the value is no matter of bounds. -/
theorem JSON_parse_of_leave {s : List UInt8} (hrest : Ends rest)
    (h : leave (readValue jsonThere n (skipWs (s ++ [0]))) = .ok rest) :
    (∃ v, JSON_parse jsonThere n s = .ok v) ∨
      ∃ m, JSON_parse jsonThere n s = .error (.raised m) := by
  rw [JSON_parse_eq]
  cases hread : readValue jsonThere n (skipWs (s ++ [0])) with
  | error e =>
      rw [hread] at h
      cases h
  | ok x =>
      rw [hread] at h
      obtain ⟨v, c⟩ := x
      obtain rfl : c = rest := Except.ok.inj h
      obtain ⟨b, t, ht⟩ := List.exists_cons_of_ne_nil hrest.skipWs.ne_nil
      show (∃ w, (passwhitespace c).bind _ = .ok w) ∨ ∃ m, (passwhitespace c).bind _ = _
      rw [passwhitespace_eq hrest, ht]
      by_cases hb : b = 0
      · exact .inl ⟨v, if_neg (not_not_intro hb)⟩
      · exact .inr ⟨_, if_pos hb⟩

theorem JSON_parse_of_error {s : List UInt8} {e : Stop}
    (h : leave (readValue jsonThere n (skipWs (s ++ [0]))) = .error e) :
    JSON_parse jsonThere n s = .error e := by
  rw [JSON_parse_eq]
  cases hread : readValue jsonThere n (skipWs (s ++ [0])) with
  | error e' =>
      rw [hread] at h
      cases h
      rfl
  | ok x =>
      rw [hread] at h
      cases h

/-- **`JSON_parse` stays within bounds** exactly where every place that the reading of the text
comes to is fine. -/
theorem bounded_iff (jsonThere : Bool) (s : List UInt8) :
    Bounded jsonThere s ↔ AllFine jsonThere s := by
  have hends := (ends_copy s).skipWs
  constructor
  · rintro ⟨n, hn⟩ place t hpath
    by_contra hfine
    have hout := out_of_path hpath hends hfine
    have hle := (skipWs_suffix (s ++ [0])).length_le
    have hfuel := hn (n + (s ++ [0]).length) (Nat.le_add_right _ _)
    rcases hout (n + (s ++ [0]).length) (by omega) with h | h
    · rw [JSON_parse_of_error h] at hfuel
      rcases hfuel with ⟨v, hv⟩ | ⟨m, hm⟩
      · cases hv
      · cases hm
    · rw [JSON_parse_of_error h] at hfuel
      rcases hfuel with ⟨v, hv⟩ | ⟨m, hm⟩
      · cases hv
      · cases hm
  · intro hfine
    refine ⟨(skipWs (s ++ [0])).length, fun n hn => ?_⟩
    rcases value_answers jsonThere n _ hends hn with
      ⟨rest, hrest, hreads⟩ | ⟨m, herror⟩ | ⟨⟨place, t⟩, hpath, hbad⟩
    · exact JSON_parse_of_leave (hreads.ends hends).2 hrest
    · exact .inr ⟨m, JSON_parse_of_error herror⟩
    · exact absurd (hfine place t hpath) hbad

/-- Of `[]` the second byte is no beginning of a value. -/
theorem not_bounded_emptyArray : ¬ Bounded true [beginArray, endArray] := by
  rintro ⟨n, hn⟩
  rcases hn (n + 2) (Nat.le_add_right _ _) with ⟨v, hv⟩ | ⟨m, hm⟩
  · cases hv
  · cases hm

end JsonParse
