import EluaWebServer.Sermux.Escape

/-!
# What is on the line

The bytes in flight towards one receiver, read the way the receiver will read
them.  Each byte carries a mark that says whether the data byte it belongs to
was sent since the receiver's last restart; the program does not see it.
-/

namespace Sermux

/-- How a receiver classifies a byte. -/
inductive Symbol where
  | escape
  | service (s : UInt8)
  | force
  | char (c : UInt8)
  deriving DecidableEq, Repr

def symbol (b : UInt8) : Symbol :=
  if b = SERMUX_ESCAPE_CHAR then .escape
  else if SERMUX_SERVICE_ID_FIRST ≤ b && b ≤ SERMUX_SERVICE_ID_LAST then .service b
  else if b = SERMUX_FORCE_SID_CHAR then .force
  else .char b

/-- A byte in flight. -/
structure Cell where
  byte : UInt8
  fresh : Bool
  deriving DecidableEq, Repr

abbrev Line := List Cell

/-- The bytes with one mark. -/
def cells (fresh : Bool) (bytes : List UInt8) : Line := bytes.map (⟨·, fresh⟩)

/-- The receiver's service after the bytes in flight. -/
def finalService (cur : Option UInt8) : Line → Option UInt8
  | [] => cur
  | c :: cs =>
      match symbol c.byte with
      | .service s => finalService (some s) cs
      | _ => finalService cur cs

/-- The receiver waits for an escaped character after the bytes in flight. -/
def finalEsc (esc : Bool) : Line → Bool
  | [] => esc
  | c :: cs =>
      match symbol c.byte with
      | .escape => finalEsc true cs
      | .char _ => finalEsc false cs
      | _ => finalEsc esc cs

/-- The deliveries that the bytes in flight lead to, of the data bytes sent
since the receiver's restart. -/
def pending (cur : Option UInt8) (esc : Bool) : Line → List (UInt8 × UInt8)
  | [] => []
  | c :: cs =>
      match symbol c.byte with
      | .escape => pending cur true cs
      | .service s => pending (some s) esc cs
      | .force => pending cur esc cs
      | .char d =>
          (match cur with
            | some s => if c.fresh then [(s, unescape esc d)] else []
            | none => []) ++ pending cur false cs

/-- The data bytes in flight that arrive before any service id. -/
def unlabelled (cur : Option UInt8) : Line → Nat
  | [] => 0
  | c :: cs =>
      match symbol c.byte with
      | .service s => unlabelled (some s) cs
      | .char _ => (if cur = none then 1 else 0) + unlabelled cur cs
      | _ => unlabelled cur cs

/-- Only escaped characters follow an escape character, and all service ids
are in use. -/
def WellFormed (ok : UInt8 → Prop) (esc : Bool) : Line → Prop
  | [] => True
  | c :: cs =>
      match symbol c.byte with
      | .escape => esc = false ∧ WellFormed ok true cs
      | .service s => esc = false ∧ ok s ∧ WellFormed ok false cs
      | .force => WellFormed ok esc cs
      | .char d => (esc = true → needsEscape (unescape true d) = true) ∧ WellFormed ok false cs

/-- The requests to send again that are in flight. -/
def forces (line : Line) : Nat := line.countP (·.byte = SERMUX_FORCE_SID_CHAR)

/-! ## Symbols of the bytes that are sent -/

theorem symbol_escape : symbol SERMUX_ESCAPE_CHAR = .escape := rfl

theorem symbol_char {c : UInt8} (h : needsEscape c = false) : symbol c = .char c := by
  unfold symbol
  rw [if_neg (ne_escape h), not_serviceId h, if_neg Bool.false_ne_true, if_neg (ne_force h)]

theorem symbol_service {c : UInt8}
    (h : (SERMUX_SERVICE_ID_FIRST ≤ c && c ≤ SERMUX_SERVICE_ID_LAST) = true) :
    symbol c = .service c := by
  have hne : c ≠ SERMUX_ESCAPE_CHAR := by
    rintro rfl
    exact absurd h (by decide)
  unfold symbol
  rw [if_neg hne, if_pos h]

/-! The bytes of each symbol. -/

theorem symbol_cases (b : UInt8) :
    b = SERMUX_ESCAPE_CHAR ∧ symbol b = .escape ∨
    (SERMUX_SERVICE_ID_FIRST ≤ b && b ≤ SERMUX_SERVICE_ID_LAST) = true ∧ symbol b = .service b ∨
    b = SERMUX_FORCE_SID_CHAR ∧ symbol b = .force ∨
    needsEscape b = false ∧ symbol b = .char b := by
  by_cases hesc : b = SERMUX_ESCAPE_CHAR
  · subst hesc
    exact .inl ⟨rfl, rfl⟩
  · by_cases hid : (SERMUX_SERVICE_ID_FIRST ≤ b && b ≤ SERMUX_SERVICE_ID_LAST) = true
    · exact .inr (.inl ⟨hid, symbol_service hid⟩)
    · by_cases hforce : b = SERMUX_FORCE_SID_CHAR
      · subst hforce
        exact .inr (.inr (.inl ⟨rfl, rfl⟩))
      · have hne : needsEscape b = false := by
          unfold needsEscape
          rw [Bool.not_eq_true] at hid
          rw [decide_eq_false hesc, decide_eq_false hforce, hid]
          rfl
        exact .inr (.inr (.inr ⟨hne, symbol_char hne⟩))

/-! ## The bytes of a message -/

/-- The bytes that either side sends for a data byte of service `id`, when the
last one was of service `out`. -/
def messageBytes (out : Option UInt8) (id data : UInt8) : List UInt8 :=
  (if out ≠ some id then [id] else []) ++ (sentAs data).bytes

theorem forces_sentAs (f : Bool) (d : UInt8) : forces (cells f (sentAs d).bytes) = 0 := by
  have hne := ne_force (needsEscape_sentAs d)
  unfold LastSent.bytes
  cases (sentAs d).esc <;> simp [forces, cells, hne]
  decide

/-- How the bytes of a data byte read. -/
theorem line_sentAs (f : Bool) (d : UInt8) :
    (∀ s, pending (some s) false (cells f (sentAs d).bytes) = if f then [(s, d)] else []) ∧
    (∀ cur, finalService cur (cells f (sentAs d).bytes) = cur) ∧
    finalEsc false (cells f (sentAs d).bytes) = false ∧
    ∀ ok, WellFormed ok false (cells f (sentAs d).bytes) := by
  have hsym := symbol_char (needsEscape_sentAs d)
  have hdata := unescape_sentAs d
  unfold LastSent.bytes
  cases hesc : (sentAs d).esc with
  | false =>
      rw [hesc] at hdata
      simp [cells, pending, finalService, finalEsc, WellFormed, hsym, hdata]
  | true =>
      have hneeds := needsEscape_of_esc hesc
      rw [hesc] at hdata
      simp [cells, pending, finalService, finalEsc, WellFormed, hsym, hdata, symbol_escape,
        hneeds]

/-! ## Appending to the line -/

theorem finalService_append (cur : Option UInt8) (xs ys : Line) :
    finalService cur (xs ++ ys) = finalService (finalService cur xs) ys := by
  induction xs generalizing cur with
  | nil => rfl
  | cons c cs ih =>
      simp only [List.cons_append, finalService]
      cases symbol c.byte <;> exact ih _

theorem finalEsc_append (esc : Bool) (xs ys : Line) :
    finalEsc esc (xs ++ ys) = finalEsc (finalEsc esc xs) ys := by
  induction xs generalizing esc with
  | nil => rfl
  | cons c cs ih =>
      simp only [List.cons_append, finalEsc]
      cases symbol c.byte <;> exact ih _

theorem pending_append (cur : Option UInt8) (esc : Bool) (xs ys : Line) :
    pending cur esc (xs ++ ys) =
      pending cur esc xs ++ pending (finalService cur xs) (finalEsc esc xs) ys := by
  induction xs generalizing cur esc with
  | nil => rfl
  | cons c cs ih =>
      simp only [List.cons_append, pending, finalService, finalEsc]
      cases symbol c.byte with
      | escape => exact ih _ _
      | service s => exact ih _ _
      | force => exact ih _ _
      | char d =>
          simp only [ih, List.append_assoc]

theorem unlabelled_append (cur : Option UInt8) (xs ys : Line) :
    unlabelled cur (xs ++ ys) = unlabelled cur xs + unlabelled (finalService cur xs) ys := by
  induction xs generalizing cur with
  | nil => exact (Nat.zero_add _).symm
  | cons c cs ih =>
      simp only [List.cons_append, unlabelled, finalService]
      cases symbol c.byte with
      | escape => exact ih _
      | service s => exact ih _
      | force => exact ih _
      | char d =>
          simp only [ih, Nat.add_assoc]

theorem wellFormed_append {ok : UInt8 → Prop} (esc : Bool) (xs ys : Line) :
    WellFormed ok esc (xs ++ ys) ↔ WellFormed ok esc xs ∧ WellFormed ok (finalEsc esc xs) ys := by
  induction xs generalizing esc with
  | nil => simp [WellFormed, finalEsc]
  | cons c cs ih =>
      simp only [List.cons_append, WellFormed, finalEsc]
      cases symbol c.byte with
      | escape => simp only [ih, and_assoc]
      | service s =>
          simp only [ih, and_assoc]
          constructor
          · rintro ⟨rfl, hrest⟩
            exact ⟨rfl, hrest⟩
          · rintro ⟨rfl, hrest⟩
            exact ⟨rfl, hrest⟩
      | force => exact ih _
      | char d => simp only [ih, and_assoc]

theorem forces_append (xs ys : Line) : forces (xs ++ ys) = forces xs + forces ys :=
  List.countP_append

/-! ## Lines without a service -/

/-- A receiver that ends without a service has delivered nothing. -/
theorem pending_of_finalService {cur : Option UInt8} {line : Line} (esc : Bool)
    (h : finalService cur line = none) : cur = none ∧ pending cur esc line = [] := by
  induction line generalizing cur esc with
  | nil => exact ⟨h, rfl⟩
  | cons c cs ih =>
      simp only [finalService, pending] at h ⊢
      cases hs : symbol c.byte with
      | escape =>
          rw [hs] at h
          exact ih _ h
      | service s =>
          rw [hs] at h
          exact absurd (ih esc h).1 (Option.some_ne_none s)
      | force =>
          rw [hs] at h
          exact ih _ h
      | char d =>
          rw [hs] at h
          obtain ⟨rfl, hp⟩ := ih false h
          exact ⟨rfl, hp⟩

theorem unlabelled_some (s : UInt8) (line : Line) : unlabelled (some s) line = 0 := by
  induction line generalizing s with
  | nil => rfl
  | cons c cs ih =>
      simp only [unlabelled]
      cases symbol c.byte with
      | escape => exact ih s
      | service t => exact ih t
      | force => exact ih s
      | char d => simpa using ih s

/-! ## A receiver that starts again -/

/-- The marks of a line whose receiver starts again. -/
def stale (line : Line) : Line := line.map fun c => { c with fresh := false }

theorem pending_stale (cur : Option UInt8) (esc : Bool) (line : Line) :
    pending cur esc (stale line) = [] := by
  induction line generalizing cur esc with
  | nil => rfl
  | cons c cs ih =>
      simp only [stale, List.map_cons, pending] at ih ⊢
      cases symbol c.byte with
      | escape => exact ih _ _
      | service s => exact ih _ _
      | force => exact ih _ _
      | char d =>
          simp only [ih]
          cases cur <;> rfl

theorem finalService_stale (cur : Option UInt8) (line : Line) :
    finalService cur (stale line) = finalService cur line := by
  induction line generalizing cur with
  | nil => rfl
  | cons c cs ih =>
      simp only [stale, List.map_cons, finalService] at ih ⊢
      cases symbol c.byte <;> exact ih _

theorem finalEsc_stale (esc : Bool) (line : Line) :
    finalEsc esc (stale line) = finalEsc esc line := by
  induction line generalizing esc with
  | nil => rfl
  | cons c cs ih =>
      simp only [stale, List.map_cons, finalEsc] at ih ⊢
      cases symbol c.byte <;> exact ih _

theorem unlabelled_stale (cur : Option UInt8) (line : Line) :
    unlabelled cur (stale line) = unlabelled cur line := by
  induction line generalizing cur with
  | nil => rfl
  | cons c cs ih =>
      simp only [stale, List.map_cons, unlabelled] at ih ⊢
      cases symbol c.byte with
      | escape => exact ih _
      | service s => exact ih _
      | force => exact ih _
      | char d => rw [ih]

theorem wellFormed_stale {ok : UInt8 → Prop} (esc : Bool) (line : Line) :
    WellFormed ok esc (stale line) ↔ WellFormed ok esc line := by
  induction line generalizing esc with
  | nil => exact Iff.rfl
  | cons c cs ih =>
      simp only [stale, List.map_cons, WellFormed] at ih ⊢
      cases symbol c.byte with
      | escape => simp only [ih]
      | service s => simp only [ih]
      | force => exact ih _
      | char d => simp only [ih]

theorem forces_stale (line : Line) : forces (stale line) = forces line := by
  unfold forces stale
  rw [List.countP_map]
  rfl

/-- Forgetting a received escape character keeps the rest well formed. -/
theorem WellFormed.forget {ok : UInt8 → Prop} {esc : Bool} {line : Line}
    (h : WellFormed ok esc line) : WellFormed ok false line := by
  induction line with
  | nil => trivial
  | cons c cs ih =>
      simp only [WellFormed] at h ⊢
      cases hs : symbol c.byte with
      | escape =>
          rw [hs] at h
          exact ⟨trivial, h.2⟩
      | service s =>
          rw [hs] at h
          exact ⟨trivial, h.2⟩
      | force =>
          rw [hs] at h
          exact ih h
      | char d =>
          rw [hs] at h
          exact ⟨fun hf => absurd hf Bool.false_ne_true, h.2⟩

/-- A receiver that has forgotten an escape character waits for an escaped
character only if it did so before. -/
theorem finalEsc_of_forget {esc : Bool} {line : Line} (h : finalEsc false line = true) :
    finalEsc esc line = true := by
  induction line generalizing esc with
  | nil => cases h
  | cons c cs ih =>
      simp only [finalEsc] at h ⊢
      cases hs : symbol c.byte with
      | escape =>
          rw [hs] at h
          exact h
      | service s =>
          rw [hs] at h
          exact ih h
      | force =>
          rw [hs] at h
          exact ih h
      | char d =>
          rw [hs] at h
          exact h

theorem finalService_forget (cur : Option UInt8) (line : Line) :
    finalService none line = none ∨ finalService none line = finalService cur line := by
  induction line generalizing cur with
  | nil => exact .inl rfl
  | cons c cs ih =>
      simp only [finalService]
      cases symbol c.byte with
      | escape => exact ih cur
      | service s => exact .inr rfl
      | force => exact ih cur
      | char d => exact ih cur

/-- When the escape character that a receiver has forgotten was the last thing
sent, nothing in flight names a service. -/
theorem finalService_of_forget_escape {ok : UInt8 → Prop} {line : Line}
    (hwf : WellFormed ok true line) (hfinal : finalEsc true line = true)
    (hforget : finalEsc false line = false) : finalService none line = none := by
  induction line with
  | nil => rfl
  | cons c cs ih =>
      simp only [WellFormed, finalEsc, finalService] at hwf hfinal hforget ⊢
      cases hs : symbol c.byte with
      | escape =>
          rw [hs] at hwf
          exact absurd hwf.1 Bool.noConfusion
      | service s =>
          rw [hs] at hwf
          exact absurd hwf.1 Bool.noConfusion
      | force =>
          rw [hs] at hwf hfinal hforget
          exact ih hwf hfinal hforget
      | char d =>
          rw [hs] at hfinal hforget
          rw [hfinal] at hforget
          cases hforget

end Sermux
