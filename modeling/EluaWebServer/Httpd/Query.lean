import EluaWebServer.Httpd.RunElua

/-!
# Queries

What the parameters of a request ask for, as a table, and when `http_run_elua`
makes `reqdata` that table.
-/

namespace Httpd.Params

open CString

/-- A part of a query with an equals sign: what is before the first one, and what
is after it. -/
def pairOf (part : List UInt8) : Option (List UInt8 × List UInt8) :=
  if equals ∈ part then
    some (part.takeWhile (· ≠ equals), (part.dropWhile (· ≠ equals)).tail)
  else none

/-- The pairs of a query. -/
def queryPairs (p : List UInt8) : List (List UInt8 × List UInt8) :=
  (p.splitOn ampersand).filterMap pairOf

def keyOf (f : List UInt8 × List UInt8) : Value := .string (f.1.map unplus)

def valOf (f : List UInt8 × List UInt8) : Value := .string (f.2.map unplus)

/-- A table in which some pairs are stored. -/
def stored (t : Table) : List (List UInt8 × List UInt8) → Table
  | [] => t
  | f :: fs => stored (fun k => if k = keyOf f then valOf f else t k) fs

/-- What a query asks for. -/
def requested (p : List UInt8) : Table := stored (fun _ => .nil) (queryPairs p)

/-- The step for the parameters `p` goes over them and their zero only, and makes
`reqdata` the table that they ask for. -/
def Parses (objlen : Table → Nat) (s : HttpdState) (p : List UInt8) : Prop :=
  ∃ n L ref, parseStep objlen s = .ok (n, L) ∧ n ≤ p.length + 1 ∧
    L.reqdata = .table ref ∧ L.heap ref = requested p

/-- A boundary of a table. -/
def IsBorder (t : Table) (n : Nat) : Prop :=
  (n ≠ 0 → t (.number n) ≠ .nil) ∧ t (.number (n + 1)) = .nil

/-! ## Queries that are handled -/

/-- A field that an ampersand ends. -/
def FieldText (f : List UInt8 × List UInt8) : Prop :=
  equals ∉ f.1 ∧ f.1.length < STR_SIZE ∧ equals ∉ f.2 ∧ ampersand ∉ f.2 ∧ f.2.length < STR_SIZE

/-- A field that the zero ends. -/
def LastText (f : List UInt8 × List UInt8) : Prop :=
  equals ∉ f.1 ∧ f.1.length < STR_SIZE ∧ f.2 ≠ [] ∧ equals ∉ f.2.dropLast ∧ ampersand ∉ f.2 ∧
    f.2.length < STR_SIZE

/-- Fields, each with an ampersand after it. -/
def joined (fs : List (List UInt8 × List UInt8)) : List UInt8 :=
  fs.flatMap fun f => f.1 ++ equals :: (f.2 ++ [ampersand])

/-- How the loop gets through the parameters without going past the zero: there
are none, they end with a field, or the zero is the last byte of the array and
what is after the last field asks for nothing that is not in the table. -/
inductive QueryOk (old : Table) (p : List UInt8) : Prop
  | empty (hp : p = [])
  | last (fs : List (List UInt8 × List UInt8)) (f : List UInt8 × List UInt8)
      (hfs : ∀ g ∈ fs, FieldText g ∧ ampersand ∉ g.1) (hf : LastText f ∧ ampersand ∉ f.1)
      (hp : p = joined fs ++ (f.1 ++ equals :: f.2))
  | full (fs : List (List UInt8 × List UInt8)) (tail : List UInt8)
      (hfs : ∀ g ∈ fs, FieldText g ∧ ampersand ∉ g.1) (hp : p = joined fs ++ tail)
      (hlen : p.length + 1 = HTTP_PARAMS_SIZE) (htail : tail.length < STR_SIZE)
      (hequals : equals ∉ tail.dropLast)
      (hdone : ∀ g ∈ queryPairs tail, stored old fs (keyOf g) = requested p (keyOf g))

/-- `reqdata` before the parameters are looked at. -/
def HttpdState.oldTable (s : HttpdState) : Option Table :=
  match s.reused with
  | none => some fun _ => .nil
  | some L =>
      match L.reqdata with
      | .table ref => some (L.heap ref)
      | _ => none

variable {p xs ys : List UInt8} {t t' : Table} {fs gs : List (List UInt8 × List UInt8)}
  {f : List UInt8 × List UInt8} {k : Value}

/-! ## Tables -/

theorem stored_append (t : Table) (fs gs : List (List UInt8 × List UInt8)) :
    stored t (fs ++ gs) = stored (stored t fs) gs := by
  induction fs generalizing t with
  | nil => rfl
  | cons f fs ih => exact ih _

theorem stored_of_not_mem (h : ∀ f ∈ fs, keyOf f ≠ k) : stored t fs k = t k := by
  induction fs generalizing t with
  | nil => rfl
  | cons f fs ih =>
      rw [List.forall_mem_cons] at h
      rw [stored, ih h.2, if_neg (Ne.symm h.1)]

/-- What is stored for a key does not depend on what was there. -/
theorem stored_of_mem (h : ∃ f ∈ fs, keyOf f = k) (t t' : Table) :
    stored t fs k = stored t' fs k ∧ stored t fs k ≠ .nil := by
  induction fs generalizing t t' with
  | nil =>
      obtain ⟨f, hf, -⟩ := h
      cases hf
  | cons f fs ih =>
      by_cases hlater : ∃ g ∈ fs, keyOf g = k
      · exact ih hlater _ _
      · have hnot : ∀ g ∈ fs, keyOf g ≠ k := fun g hg hk => hlater ⟨g, hg, hk⟩
        obtain ⟨g, hg, hkey⟩ := h
        obtain rfl : g = f := (List.mem_cons.mp hg).resolve_right fun hmem => hnot g hmem hkey
        rw [stored, stored, stored_of_not_mem hnot, stored_of_not_mem hnot, if_pos hkey.symm,
          if_pos hkey.symm]
        exact ⟨rfl, nofun⟩

theorem requested_ne_nil : requested p k ≠ .nil ↔ ∃ f ∈ queryPairs p, keyOf f = k := by
  constructor
  · intro h
    by_contra hnot
    refine h (stored_of_not_mem fun f hf hk => hnot ⟨f, hf, hk⟩)
  · intro h
    exact (stored_of_mem h _ (fun _ => .nil)).2

/-- The table that comes of storing fields in an old one is the one that is asked
for if nothing else is in the old one, and the rest of the query is there already. -/
theorem stored_eq_requested_iff {old : Table} (h : queryPairs p = fs ++ gs) :
    stored old fs = requested p ↔
      (∀ k, old k ≠ .nil → requested p k ≠ .nil) ∧
        ∀ g ∈ gs, stored old fs (keyOf g) = requested p (keyOf g) := by
  constructor
  · intro heq
    refine ⟨fun k hold => ?_, fun g _ => by rw [heq]⟩
    rw [← heq]
    by_cases hmem : ∃ f ∈ fs, keyOf f = k
    · exact (stored_of_mem hmem old old).2
    · rw [stored_of_not_mem fun f hf hk => hmem ⟨f, hf, hk⟩]
      exact hold
  · rintro ⟨hold, hrest⟩
    funext k
    by_cases hlater : ∃ g ∈ gs, keyOf g = k
    · obtain ⟨g, hg, rfl⟩ := hlater
      exact hrest g hg
    have hgs : ∀ g ∈ gs, keyOf g ≠ k := fun g hg hk => hlater ⟨g, hg, hk⟩
    have hreq : requested p k = stored (fun _ => .nil) fs k := by
      rw [requested, h, stored_append, stored_of_not_mem hgs]
    by_cases hmem : ∃ f ∈ fs, keyOf f = k
    · rw [hreq]
      exact (stored_of_mem hmem _ _).1
    · have hnot : ∀ f ∈ fs, keyOf f ≠ k := fun f hf hk => hmem ⟨f, hf, hk⟩
      rw [stored_of_not_mem hnot] at hreq ⊢
      rw [hreq]
      by_contra hne
      exact hold k hne hreq

/-! ## Pairs -/

theorem pairOf_eq (h : equals ∉ xs) (ys : List UInt8) :
    pairOf (xs ++ equals :: ys) = some (xs, ys) := by
  have hall : ∀ b ∈ xs, decide (b ≠ equals) = true :=
    fun b hb => decide_eq_true fun heq => h (heq ▸ hb)
  have hstop : decide (equals ≠ equals) = false := decide_eq_false fun h => h rfl
  rw [pairOf, if_pos (List.mem_append_right _ List.mem_cons_self),
    List.takeWhile_append_of_pos hall, List.dropWhile_append_of_pos hall,
    List.takeWhile_cons_of_neg (by simp), List.dropWhile_cons_of_neg (by simp), List.append_nil]
  rfl

theorem queryPairs_append (h : ampersand ∉ xs) (ys : List UInt8) :
    queryPairs (xs ++ ampersand :: ys) = (pairOf xs).toList ++ queryPairs ys := by
  rw [queryPairs, List.splitOn_append_cons_self_of_not_mem h, List.filterMap_cons]
  cases pairOf xs <;> rfl

theorem queryPairs_single (h : ampersand ∉ xs) : queryPairs xs = (pairOf xs).toList := by
  rw [queryPairs, List.splitOn_eq_singleton h, List.filterMap_cons]
  cases pairOf xs <;> rfl

theorem ampersand_not_mem_field (hkey : ampersand ∉ xs) (hval : ampersand ∉ ys) :
    ampersand ∉ xs ++ equals :: ys := by
  rw [List.mem_append, List.mem_cons]
  exact not_or.mpr ⟨hkey, not_or.mpr ⟨by decide, hval⟩⟩

theorem joined_cons (f : List UInt8 × List UInt8) (fs : List (List UInt8 × List UInt8))
    (rest : List UInt8) :
    joined (f :: fs) ++ rest =
      (f.1 ++ equals :: f.2) ++ ampersand :: (joined fs ++ rest) := by
  rw [joined, List.flatMap_cons]
  simp only [List.append_assoc, List.cons_append, List.nil_append]
  rfl

theorem queryPairs_joined (h : ∀ g ∈ fs, FieldText g ∧ ampersand ∉ g.1) (rest : List UInt8) :
    queryPairs (joined fs ++ rest) = fs ++ queryPairs rest := by
  induction fs with
  | nil => rfl
  | cons f fs ih =>
      rw [List.forall_mem_cons] at h
      obtain ⟨⟨⟨hkey, -, -, hval, -⟩, hamp⟩, hfs⟩ := h
      rw [joined_cons, queryPairs_append (ampersand_not_mem_field hamp hval), pairOf_eq hkey, ih hfs]
      rfl

theorem queryPairs_last (hf : LastText f ∧ ampersand ∉ f.1) :
    queryPairs (f.1 ++ equals :: f.2) = [f] := by
  obtain ⟨⟨hkey, -, -, -, hval, -⟩, hamp⟩ := hf
  rw [queryPairs_single (ampersand_not_mem_field hamp hval), pairOf_eq hkey]
  rfl

theorem not_mem_of_mem_splitOn {c : UInt8} {part : List UInt8} (h : part ∈ xs.splitOn c) :
    c ∉ part := by
  induction xs generalizing part with
  | nil =>
      rw [List.splitOn_eq_singleton List.not_mem_nil, List.mem_singleton] at h
      rw [h]
      exact List.not_mem_nil
  | cons x xs ih =>
      rw [List.splitOn_cons_eq_if_modifyHead] at h
      split at h
      · rcases List.mem_cons.mp h with rfl | hmem
        · exact List.not_mem_nil
        · exact ih hmem
      · rename_i hx
        obtain ⟨first, rest, hsplit⟩ := List.exists_cons_of_ne_nil (List.splitOn_ne_nil c xs)
        rw [hsplit] at h ih
        rw [List.modifyHead_cons] at h
        rcases List.mem_cons.mp h with rfl | hmem
        · rw [List.mem_cons]
          refine not_or.mpr ⟨fun heq => hx (heq ▸ BEq.rfl), ih List.mem_cons_self⟩
        · exact ih (List.mem_cons_of_mem _ hmem)

/-- No key that is asked for has an ampersand in it. -/
theorem ampersand_not_mem_key (h : f ∈ queryPairs p) : ampersand ∉ f.1.map unplus := by
  obtain ⟨part, hpart, hpair⟩ := List.mem_filterMap.mp h
  rw [pairOf] at hpair
  split at hpair
  · obtain rfl := Option.some.inj hpair
    intro hmem
    obtain ⟨b, hb, hplus⟩ := List.mem_map.mp hmem
    have hamp : b = ampersand := by
      rw [unplus] at hplus
      split at hplus
      · exact absurd hplus (by decide)
      · exact hplus
    have hin : ampersand ∈ part := (List.takeWhile_sublist _).subset (hamp ▸ hb)
    exact not_mem_of_mem_splitOn hpart hin
  · cases hpair

/-! ## Fields and queries -/

section

variable {pair : Bool} {next after : UInt8} {later : List UInt8} {n : Nat}

theorem plain_append (xs ys : List UInt8) :
    Plain pair next (xs ++ ys) ↔ Plain pair (ys.headD next) xs ∧ Plain pair next ys := by
  induction xs with
  | nil => exact (and_iff_right trivial).symm
  | cons b xs ih =>
      rw [List.cons_append, Plain, Plain, ih, headD_append]
      tauto

theorem Plain.equals_not_mem (h : Plain pair next xs) (hnext : next ≠ 0) (hzero : 0 ∉ xs) :
    equals ∉ xs := by
  intro hmem
  obtain ⟨before, rest, rfl⟩ := List.append_of_mem hmem
  have hhead := ((plain_append before (equals :: rest)).mp h).2.1 rfl
  rw [List.mem_append, List.mem_cons, not_or, not_or] at hzero
  cases rest with
  | nil => exact hnext hhead
  | cons b rest =>
      have hb : b = 0 := hhead
      exact hzero.2.2 (hb ▸ List.mem_cons_self)

theorem Plain.dropLast (h : Plain pair next xs) (hzero : 0 ∉ xs) : equals ∉ xs.dropLast := by
  rcases List.eq_nil_or_concat xs with rfl | ⟨ys, b, rfl⟩
  · exact List.not_mem_nil
  · rw [List.concat_eq_append] at h hzero ⊢
    rw [List.mem_append, List.mem_singleton, not_or] at hzero
    rw [List.dropLast_concat]
    exact ((plain_append ys [b]).mp h).1.equals_not_mem (Ne.symm hzero.2) hzero.1

theorem Plain.ampersand_not_mem (h : Plain true next xs) : ampersand ∉ xs := by
  induction xs with
  | nil => exact List.not_mem_nil
  | cons b xs ih =>
      rw [List.mem_cons]
      exact not_or.mpr ⟨fun hb => (h.2.1 rfl).2 hb.symm, ih h.2.2⟩

theorem plain_of_not_mem (hequals : equals ∉ xs)
    (hpair : pair = true → 0 ∉ xs ∧ ampersand ∉ xs) : Plain pair next xs := by
  induction xs with
  | nil => trivial
  | cons b xs ih =>
      rw [List.mem_cons, not_or] at hequals
      refine ⟨fun hb => absurd hb.symm hequals.1, fun hp => ?_, ih hequals.2 fun hp => ?_⟩
      · have hnot := hpair hp
        rw [List.mem_cons, List.mem_cons, not_or, not_or] at hnot
        exact ⟨Ne.symm hnot.1.1, Ne.symm hnot.2.1⟩
      · have hnot := hpair hp
        rw [List.mem_cons, List.mem_cons, not_or, not_or] at hnot
        exact ⟨hnot.1.2, hnot.2.2⟩

/-- An equals sign may be right before a zero. -/
theorem plain_of_dropLast (hequals : equals ∉ xs.dropLast)
    (hpair : pair = true → 0 ∉ xs ∧ ampersand ∉ xs) : Plain pair 0 xs := by
  rcases List.eq_nil_or_concat xs with rfl | ⟨ys, b, rfl⟩
  · trivial
  · rw [List.concat_eq_append] at hequals hpair ⊢
    rw [List.dropLast_concat] at hequals
    have hparts : pair = true → (0 ∉ ys ∧ ampersand ∉ ys) ∧ b ≠ 0 ∧ b ≠ ampersand := by
      intro hp
      have hnot := hpair hp
      rw [List.mem_append, List.mem_append, List.mem_singleton, List.mem_singleton, not_or,
        not_or] at hnot
      exact ⟨⟨hnot.1.1, hnot.2.1⟩, Ne.symm hnot.1.2, Ne.symm hnot.2.2⟩
    rw [plain_append]
    exact ⟨plain_of_not_mem hequals fun hp => (hparts hp).1, fun _ => rfl,
      fun hp => (hparts hp).2, trivial⟩

/-- Fields with ampersands after them, and what is after these. -/
theorem fields_joined (h : ∀ g ∈ fs, FieldText g ∧ ampersand ∉ g.1) (hzero : 0 ∉ joined fs)
    (hlater : Fields after later gs n) :
    Fields after (joined fs ++ later) (fs ++ gs) ((joined fs).length + n) := by
  induction fs with
  | nil =>
      rw [show (joined []).length + n = n from Nat.zero_add n]
      exact hlater
  | cons f fs ih =>
      rw [List.forall_mem_cons] at h
      obtain ⟨⟨⟨hkey, hkeylen, hval, hamp, hvallen⟩, -⟩, hfs⟩ := h
      have hsplit := joined_cons f fs []
      rw [List.append_nil, List.append_nil] at hsplit
      rw [hsplit, List.mem_append, List.mem_append, List.mem_cons, List.mem_cons] at hzero
      simp only [not_or] at hzero
      have hplainkey : Plain false equals f.1 := plain_of_not_mem hkey nofun
      have hplainval : Plain true ampersand f.2 :=
        plain_of_not_mem hval fun _ => ⟨hzero.1.2.2, hamp⟩
      have hnext := Fields.next hplainkey hkeylen hplainval hvallen (ih hfs hzero.2.2)
      have hbytes : joined (f :: fs) ++ later =
          f.1 ++ equals :: (f.2 ++ ampersand :: (joined fs ++ later)) := by
        rw [joined_cons, List.append_assoc]
        rfl
      have hlen : (joined (f :: fs)).length + n =
          f.1.length + f.2.length + 2 + ((joined fs).length + n) := by
        rw [hsplit]
        simp only [List.length_append, List.length_cons]
        omega
      rw [hbytes, hlen]
      exact hnext

/-- What begins with some bytes that end with no zero, and has its first zero not
before these end. -/
theorem exists_append_of_first_zero {q : List UInt8} (h : q ++ later = xs ++ 0 :: ys)
    (hlen : q.length ≤ xs.length + 1) (hlast : ∀ zs, q ≠ zs ++ [0]) :
    ∃ zs, xs = q ++ zs ∧ later = zs ++ 0 :: ys := by
  rcases List.append_eq_append_iff.mp h with ⟨zs, hxs, hlater⟩ | ⟨zs, hq, hzero⟩
  · exact ⟨zs, hxs, hlater⟩
  · cases zs with
    | nil =>
        rw [List.append_nil] at hq
        exact ⟨[], by rw [hq, List.append_nil], hzero.symm⟩
    | cons b zs =>
        rw [List.cons_append, List.cons.injEq] at hzero
        rw [hq, List.length_append, List.length_cons] at hlen
        obtain rfl : zs = [] := List.eq_nil_of_length_eq_zero (by omega)
        exact absurd (hzero.1 ▸ hq) (hlast xs)

/-- **The fields of a query** that the loop finds without going past its zero. -/
theorem shape_of_fields {bs : List UInt8} (h : Fields after bs fs n) {p later : List UInt8}
    (hbs : bs = p ++ 0 :: later) (hp : 0 ∉ p) (hn : n ≤ p.length + 1) :
    (∃ gs f, fs = gs ++ [f] ∧ (∀ g ∈ gs, FieldText g) ∧ LastText f ∧
        p = joined gs ++ (f.1 ++ equals :: f.2)) ∨
      ∃ tail, (∀ g ∈ fs, FieldText g) ∧ p = joined fs ++ tail ∧ later = [] ∧
        tail.length < STR_SIZE ∧ equals ∉ tail.dropLast := by
  induction h generalizing p with
  | @rest bs hrest hlen =>
      rw [hbs, List.length_append, List.length_cons] at hn hlen
      obtain rfl : later = [] := List.eq_nil_of_length_eq_zero (by omega)
      rw [hbs, plain_append] at hrest
      exact .inr ⟨p, nofun, rfl, rfl, by omega, hrest.1.dropLast hp⟩
  | @last key val later' hkey hkeylen hne hval hvallen =>
      have hsplit : (key ++ equals :: val) ++ 0 :: later' = p ++ 0 :: later := by
        rw [← hbs, List.append_assoc]
        rfl
      have hlen : (key ++ equals :: val).length = key.length + val.length + 1 := by
        rw [List.length_append, List.length_cons]
        omega
      have hsame : p = key ++ equals :: val := by
        rcases List.append_eq_append_iff.mp hsplit with ⟨zs, hzs, hlater⟩ | ⟨zs, hzs, -⟩
        · cases zs with
          | nil => rw [hzs, List.append_nil]
          | cons b zs =>
              rw [List.cons_append, List.cons.injEq] at hlater
              rw [hzs, ← hlater.1] at hp
              exact absurd (List.mem_append_right _ List.mem_cons_self) hp
        · have hlen' := congrArg List.length hzs
          rw [hlen, List.length_append] at hlen'
          obtain rfl : zs = [] := List.eq_nil_of_length_eq_zero (by omega)
          rw [hzs, List.append_nil]
      rw [hsame, List.mem_append, List.mem_cons, not_or, not_or] at hp
      exact .inl ⟨[], (key, val), rfl, nofun,
        ⟨hkey.equals_not_mem (by decide) hp.1, hkeylen, hne, hval.dropLast hp.2.2,
          hval.ampersand_not_mem, hvallen⟩, hsame⟩
  | @next key val later' fs n hkey hkeylen hval hvallen hlater ih =>
      have hsplit : (key ++ equals :: (val ++ [ampersand])) ++ later' = p ++ 0 :: later := by
        rw [← hbs]
        simp only [List.append_assoc, List.cons_append, List.nil_append]
      have hlast : ∀ zs, key ++ equals :: (val ++ [ampersand]) ≠ zs ++ [0] := by
        intro zs heq
        have hend := congrArg List.getLast? heq
        rw [← List.cons_append, ← List.append_assoc, List.getLast?_concat, List.getLast?_concat]
          at hend
        exact absurd (Option.some.inj hend) (by decide)
      have hlen : (key ++ equals :: (val ++ [ampersand])).length = key.length + val.length + 2 := by
        simp only [List.length_append, List.length_cons, List.length_nil]
        omega
      obtain ⟨p', rfl, hlater'⟩ := exists_append_of_first_zero hsplit (by omega) hlast
      rw [List.length_append, hlen] at hn
      rw [List.mem_append, List.mem_append, List.mem_cons, List.mem_append] at hp
      simp only [not_or] at hp
      have htext : FieldText (key, val) :=
        ⟨hkey.equals_not_mem (by decide) hp.1.1, hkeylen,
          hval.equals_not_mem (by decide) hp.1.2.2.1, hval.ampersand_not_mem, hvallen⟩
      have hjoined : ∀ gs rest, joined ((key, val) :: gs) ++ rest =
          key ++ equals :: (val ++ [ampersand]) ++ (joined gs ++ rest) := by
        intro gs rest
        rw [joined_cons]
        simp only [List.append_assoc, List.cons_append, List.nil_append]
      rcases ih hlater' hp.2 (by omega) with ⟨gs, f, rfl, hgs, hf, hp'⟩ | ⟨tail, hfs, hp', hrest⟩
      · refine .inl ⟨(key, val) :: gs, f, rfl, ?_, hf, ?_⟩
        · exact List.forall_mem_cons.mpr ⟨htext, hgs⟩
        · rw [hjoined, ← hp']
      · refine .inr ⟨tail, List.forall_mem_cons.mpr ⟨htext, hfs⟩, ?_, hrest⟩
        rw [hjoined, ← hp']

end

/-! ## What the step leaves alone -/

variable {L L' : Lua} {s : HttpdState} {objlen : Table → Nat} {ref : Nat}

theorem setAt_number (heap : Nat → Table) (ref : Nat) (key : List UInt8) (v : Value) (r m : Nat) :
    setAt heap ref (.string key) v r (.number m) = heap r (.number m) := by
  unfold setAt
  split
  · exact if_neg nofun
  · rfl

theorem settable_number {key v : List UInt8} {below : List Value}
    (hstack : L.stack = .string key :: below) (h : (L.push (.string v)).settable = .ok L')
    (r m : Nat) : L'.heap r (.number m) = L.heap r (.number m) ∧ L'.reqdata = L.reqdata := by
  rw [Lua.settable, Lua.push, hstack] at h
  cases below with
  | nil => cases h
  | cons t below =>
      cases t with
      | table ref =>
          obtain rfl := Except.ok.inj h
          exact ⟨setAt_number L.heap ref key (.string v) r m, rfl⟩
      | _ => cases h

/-- The loop stores under strings only. -/
theorem scan_number {after : UInt8} {bs : List UInt8} {r r' : Scan}
    (hkey : r.pair = true → ∃ key below, r.lua.stack = .string key :: below)
    (h : scan after bs r = .ok r') (ref m : Nat) :
    r'.lua.heap ref (.number m) = r.lua.heap ref (.number m) ∧ r'.lua.reqdata = r.lua.reqdata := by
  induction bs generalizing r with
  | nil =>
      obtain rfl := Except.ok.inj h
      exact ⟨rfl, rfl⟩
  | cons b bs ih =>
      rw [scan] at h
      split at h
      swap
      · cases h
      split at h
      · exact ih (r := ⟨r.read + 1, [], true, r.lua.push (.string (text r.str))⟩)
          (fun _ => ⟨_, _, rfl⟩) h
      split at h
      · rename_i hzero
        obtain ⟨key, below, hstack⟩ := hkey hzero.2
        cases hset : (r.lua.push (.string (text r.str))).settable with
        | error e => rw [hset] at h; cases h
        | ok lua =>
            rw [hset] at h
            obtain rfl := Except.ok.inj h
            exact settable_number hstack hset ref m
      split at h
      · rename_i hamp
        obtain ⟨key, below, hstack⟩ := hkey hamp.2
        obtain ⟨lua, hset, hrest⟩ := exists_of_bind_ok h
        have hstored := settable_number hstack hset ref m
        have hlater := ih (r := ⟨r.read + 1, [], false, lua⟩) (by intro h; cases h) hrest
        exact ⟨hlater.1.trans hstored.1, hlater.2.trans hstored.2⟩
      · exact ih (r := ⟨r.read + 1, r.str ++ [unplus b], r.pair, r.lua⟩) hkey h

/-- Shifting elements to the left leaves the last one where it is. -/
theorem shiftLoop_number {idx turns i m : Nat} (h : shiftLoop idx turns i L = .ok L')
    (hm : i + turns ≤ m + 1) (ref : Nat) (hi : 0 < i) :
    L'.heap ref (.number m) = L.heap ref (.number m) ∧ L'.reqdata = L.reqdata := by
  induction turns generalizing i L with
  | zero =>
      obtain rfl := Except.ok.inj h
      exact ⟨rfl, rfl⟩
  | succ turns ih =>
      obtain ⟨L₁, hget, hrest⟩ := exists_of_bind_ok h
      obtain ⟨L₂, hset, hrest⟩ := exists_of_bind_ok hrest
      have hlater := ih hrest (by omega) (Nat.succ_pos i)
      have hsame : L₁.heap = L.heap ∧ L₁.reqdata = L.reqdata := by
        rw [Lua.rawgeti] at hget
        split at hget
        · obtain rfl := Except.ok.inj hget
          exact ⟨rfl, rfl⟩
        · cases hget
      have hother : L₂.heap ref (.number m) = L₁.heap ref (.number m) ∧ L₂.reqdata = L₁.reqdata := by
        rw [Lua.rawseti] at hset
        split at hset
        · obtain rfl := Except.ok.inj hset
          refine ⟨?_, rfl⟩
          have hne : ¬ Value.number m = .number (i - 1) := by
            rw [Value.number.injEq]
            omega
          dsimp only
          unfold setAt
          split
          · exact if_neg hne
          · rfl
        · cases hset
      rw [hlater.1, hother.1, hsame.1, hlater.2, hother.2, hsame.2]
      exact ⟨rfl, rfl⟩

/-- An element at a boundary stays in `reqdata`. -/
theorem pushReqdata_number (h : pushReqdata objlen L = .ok L') (hreq : L.reqdata = .table ref)
    (hpos : 0 < objlen (L.heap ref)) :
    L'.heap ref (.number (objlen (L.heap ref))) = L.heap ref (.number (objlen (L.heap ref))) ∧
      L'.reqdata = .table ref := by
  unfold pushReqdata at h
  dsimp only at h
  rw [at_top, hreq] at h
  dsimp only at h
  change (if 0 < objlen (L.heap ref) then _ else _) = _ at h
  rw [if_pos hpos] at h
  obtain ⟨L₁, hget, hshift⟩ := exists_of_bind_ok h
  have hturns : 2 + (objlen (L.heap ref) - 2) ≤ objlen (L.heap ref) + 1 := by omega
  have hlater := shiftLoop_number hshift hturns ref Nat.zero_lt_two
  rw [Lua.rawgeti] at hget
  split at hget
  · obtain rfl := Except.ok.inj hget
    exact ⟨hlater.1, hlater.2.trans hreq⟩
  · cases hget

theorem pop_heap {n : Nat} (h : L.pop n = .ok L') : L'.heap = L.heap ∧ L'.reqdata = L.reqdata := by
  rw [Lua.pop] at h
  split at h
  · obtain rfl := Except.ok.inj h
    exact ⟨rfl, rfl⟩
  · cases h

theorem parseParams_number {n : Nat} (h : parseParams s L = .ok (n, L')) (ref m : Nat) :
    L'.heap ref (.number m) = L.heap ref (.number m) ∧ L'.reqdata = L.reqdata := by
  unfold parseParams at h
  split at h
  · obtain ⟨r, hscan, hrest⟩ := exists_of_bind_ok h
    obtain ⟨L₁, hpop, hrest⟩ := exists_of_bind_ok hrest
    obtain ⟨-, rfl⟩ := Prod.mk.inj (Except.ok.inj hrest)
    have hscanned := @scan_number _ _ ⟨0, [], false, L⟩ _ nofun hscan ref m
    rw [(pop_heap hpop).1, (pop_heap hpop).2]
    exact hscanned
  · obtain ⟨-, rfl⟩ := Prod.mk.inj (Except.ok.inj h)
    exact ⟨rfl, rfl⟩

/-! ## The step for the parameters -/

theorem unplus_eq_zero {b : UInt8} (h : unplus b = 0) : b = 0 := by
  rw [unplus] at h
  split at h
  · exact absurd h (by decide)
  · exact h

theorem fieldText_eq {bs : List UInt8} (h : 0 ∉ bs) : fieldText bs = bs.map unplus := by
  apply text_eq
  intro hmem
  obtain ⟨b, hb, hzero⟩ := List.mem_map.mp hmem
  exact h (unplus_eq_zero hzero ▸ hb)

/-- Fields without zeros are stored as they are, but for the plus signs. -/
theorem assign_eq (h : ∀ f ∈ fs, 0 ∉ f.1 ∧ 0 ∉ f.2) (heap : Nat → Table) (ref : Nat) :
    assign heap ref fs ref = stored (heap ref) fs := by
  induction fs generalizing heap with
  | nil => rfl
  | cons f fs ih =>
      rw [List.forall_mem_cons] at h
      rw [assign, ih h.2, fieldText_eq h.1.1, fieldText_eq h.1.2, stored]
      congr 1
      exact if_pos rfl

theorem zero_not_mem_joined (h : 0 ∉ joined fs) : ∀ f ∈ fs, 0 ∉ f.1 ∧ 0 ∉ f.2 := by
  intro f hf
  constructor
  · intro hmem
    exact h (List.mem_flatMap.mpr ⟨f, hf, List.mem_append_left _ hmem⟩)
  · intro hmem
    exact h (List.mem_flatMap.mpr ⟨f, hf, List.mem_append_right _
      (List.mem_cons_of_mem _ (List.mem_append_left _ hmem))⟩)

/-- Keys that end up in a table that is asked for have no ampersand. -/
theorem ampersand_not_mem_of_stored {old : Table} (h : stored old fs = requested p) :
    ∀ f ∈ fs, ampersand ∉ f.1 := by
  intro f hf hmem
  have hne : requested p (keyOf f) ≠ .nil := by
    rw [← h]
    exact (stored_of_mem ⟨f, hf, rfl⟩ old old).2
  obtain ⟨g, hg, hkey⟩ := requested_ne_nil.mp hne
  have hsame : g.1.map unplus = f.1.map unplus := Value.string.inj hkey
  have hamp : ampersand ∈ f.1.map unplus := List.mem_map.mpr ⟨ampersand, hmem, by decide⟩
  exact ampersand_not_mem_key hg (hsame ▸ hamp)

/-- The state of the request, with `reqdata` as it was. -/
theorem oldTable_eq_iff {old : Table} :
    s.oldTable = some old ↔
      ∃ L ref, openState s = .ok L ∧ L.reqdata = .table ref ∧ L.heap ref = old := by
  unfold HttpdState.oldTable openState
  cases hreused : s.reused with
  | none =>
      dsimp only
      rw [freshState_eq, Option.some.injEq]
      constructor
      · rintro rfl
        exact ⟨_, 0, rfl, rfl, rfl⟩
      · rintro ⟨L, ref, hL, hreq, rfl⟩
        obtain rfl := Except.ok.inj hL
        obtain rfl := Value.table.inj hreq
        rfl
  | some L =>
      dsimp only
      constructor
      · intro h
        cases hreq : L.reqdata with
        | table ref =>
            rw [hreq] at h
            exact ⟨_, ref, rfl, rfl, Option.some.inj h⟩
        | _ =>
            rw [hreq] at h
            cases h
      · rintro ⟨L', ref, hL, hreq, rfl⟩
        obtain rfl := Except.ok.inj hL
        dsimp only at hreq
        rw [hreq]

/-- Parameters that are not empty, with the table on the stack. -/
theorem parseParams_fields {bs : List UInt8} {after : UInt8} {n : Nat}
    (hparams : s.httpParams.1 = bs) (hafter : s.writeBuffer = after) (hne : bs.headD 0 ≠ 0)
    (h : Fields after bs fs n) (L : Lua) (ref : Nat) :
    ∃ L', parseParams s (L.push (.table ref)) = .ok (n, L') ∧ L'.reqdata = L.reqdata ∧
      L'.heap = assign L.heap ref fs := by
  obtain ⟨str, pair, hscan⟩ := @scan_fields _ _ _ _ h 0 (L.push (.table ref)) ref L.stack rfl
  have hlen : (1 : Nat) ≤ (L.push (.table ref)).stack.length := Nat.succ_le_succ (Nat.zero_le _)
  rw [parseParams, hparams, hafter, if_pos hne, hscan, ok_bind]
  dsimp only
  rw [Lua.pop, if_pos hlen, ok_bind, Nat.zero_add]
  exact ⟨_, rfl, rfl, rfl⟩

/-- The whole step, when there are fields and `reqdata` has no elements. -/
theorem parseStep_fields {n : Nat} (hopen : openState s = .ok L) (hreq : L.reqdata = .table ref)
    (hlen : objlen (L.heap ref) = 0) (hne : s.httpParams.1.headD 0 ≠ 0)
    (h : Fields s.writeBuffer s.httpParams.1 fs n) (hzero : ∀ f ∈ fs, 0 ∉ f.1 ∧ 0 ∉ f.2) :
    ∃ L', parseStep objlen s = .ok (n, L') ∧ L'.reqdata = .table ref ∧
      L'.heap ref = stored (L.heap ref) fs := by
  obtain ⟨L', hparse, hreq', hheap⟩ := parseParams_fields rfl rfl hne h L ref
  refine ⟨L', ?_, hreq'.trans hreq, ?_⟩
  · unfold parseStep
    rw [hopen, ok_bind, pushReqdata_eq hreq hlen, ok_bind, hparse]
  · rw [hheap, assign_eq hzero]

theorem headD_params {later : List UInt8} (hp : 0 ∉ p) (hne : p ≠ []) :
    (p ++ 0 :: later).headD 0 ≠ 0 := by
  cases p with
  | nil => exact absurd rfl hne
  | cons b p =>
      intro hb
      have hzero : b = 0 := hb
      exact hp (hzero ▸ List.mem_cons_self)

theorem objlen_eq_zero {old : Table} (hborder : IsBorder old (objlen old))
    (hold : ∀ k, old k ≠ .nil → requested p k ≠ .nil) : objlen old = 0 := by
  by_contra hne
  obtain ⟨f, -, hkey⟩ := requested_ne_nil.mp (hold _ (hborder.1 hne))
  exact absurd hkey nofun

/-- What a step that does what it should says about the parameters. -/
theorem queryOk_of_parses
    (hborder : ∀ old, s.oldTable = some old → IsBorder old (objlen old)) {later : List UInt8}
    (hparams : s.httpParams.1 = p ++ 0 :: later) (hp : 0 ∉ p) (h : Parses objlen s p) :
    ∃ old, s.oldTable = some old ∧ (∀ k, old k ≠ .nil → requested p k ≠ .nil) ∧
      QueryOk old p := by
  obtain ⟨n, L, ref', hstep, hn, hreq', htable⟩ := h
  obtain ⟨L₀, hopen, hstep⟩ := exists_of_bind_ok hstep
  obtain ⟨L₁, hpush, hparse⟩ := exists_of_bind_ok hstep
  obtain ⟨ref, hreq, -, hpushed⟩ := pushReqdata_ok hpush
  have hold : s.oldTable = some (L₀.heap ref) := oldTable_eq_iff.mpr ⟨L₀, ref, hopen, hreq, rfl⟩
  refine ⟨L₀.heap ref, hold, ?_⟩
  by_cases hpos : 0 < objlen (L₀.heap ref)
  · -- the element at the boundary is still there
    have hpushed' := pushReqdata_number hpush hreq hpos
    have hparsed := parseParams_number hparse ref (objlen (L₀.heap ref))
    rw [hpushed'.1, hpushed'.2, hreq'] at hparsed
    rw [Value.table.inj hparsed.2] at htable
    rw [htable] at hparsed
    have hne := (hborder _ hold).1 (Nat.ne_of_gt hpos)
    rw [← hparsed.1] at hne
    obtain ⟨f, -, hkey⟩ := requested_ne_nil.mp hne
    exact absurd hkey nofun
  rw [if_neg hpos, hreq] at hpushed
  subst hpushed
  by_cases hnil : p = []
  · have hzero : ¬ (s.httpParams.1.headD 0 ≠ 0) := by
      rw [hparams, hnil]
      exact not_not.mpr rfl
    rw [parseParams, if_neg hzero] at hparse
    obtain ⟨-, rfl⟩ := Prod.mk.inj (Except.ok.inj hparse)
    rw [← Value.table.inj (hreq.symm.trans hreq')] at htable
    refine ⟨fun k hk => ?_, .empty hnil⟩
    rw [← htable]
    exact hk
  have hne : s.httpParams.1.headD 0 ≠ 0 := by
    rw [hparams]
    exact headD_params hp hnil
  have hlen30 := s.httpParams.2
  rw [hparams, List.length_append, List.length_cons] at hlen30
  obtain ⟨fs, hfields⟩ : ∃ fs, Fields s.writeBuffer s.httpParams.1 fs n := by
    have hunfold := hparse
    rw [parseParams, if_pos hne] at hunfold
    obtain ⟨r, hscan, hrest⟩ := exists_of_bind_ok hunfold
    obtain ⟨L₂, -, hrest⟩ := exists_of_bind_ok hrest
    obtain ⟨hread, -⟩ := Prod.mk.inj (Except.ok.inj hrest)
    rcases fields_of_scan rfl hscan with ⟨fs, m, hfields⟩ | ⟨-, hall, hlast⟩
    · obtain ⟨str, pair, hscan'⟩ := @scan_fields _ _ _ _ hfields 0 (L₀.push (.table ref)) ref L₀.stack rfl
      rw [hscan, Except.ok.injEq] at hscan'
      rw [hscan', Nat.zero_add] at hread
      exact ⟨fs, hread ▸ hfields⟩
    · rw [hparams, List.length_append, List.length_cons] at hall
      obtain rfl : later = [] := List.eq_nil_of_length_eq_zero (by omega)
      rw [hparams, List.getLast?_concat] at hlast
      exact absurd rfl hlast
  obtain ⟨L₂, hparse₂, hreq₂, hheap₂⟩ := parseParams_fields rfl rfl hne hfields L₀ ref
  rw [hparse, Except.ok.injEq, Prod.mk.injEq] at hparse₂
  obtain rfl := hparse₂.2
  rw [← Value.table.inj ((hreq₂.trans hreq).symm.trans hreq'), hheap₂] at htable
  rcases shape_of_fields hfields hparams hp hn with
    ⟨gs, f, rfl, hgs, hf, hpeq⟩ | ⟨tail, hfs, hpeq, rfl, htail, hequals⟩
  · have hzero : ∀ g ∈ gs ++ [f], 0 ∉ g.1 ∧ 0 ∉ g.2 := by
      rw [hpeq, List.mem_append, List.mem_append, List.mem_cons] at hp
      simp only [not_or] at hp
      intro g hg
      rcases List.mem_append.mp hg with hg | hg
      · exact zero_not_mem_joined hp.1 g hg
      · rw [List.mem_singleton.mp hg]
        exact ⟨hp.2.1, hp.2.2.2⟩
    rw [assign_eq hzero] at htable
    have hamp := ampersand_not_mem_of_stored htable
    have hgs' : ∀ g ∈ gs, FieldText g ∧ ampersand ∉ g.1 :=
      fun g hg => ⟨hgs g hg, hamp g (List.mem_append_left _ hg)⟩
    have hf' : LastText f ∧ ampersand ∉ f.1 :=
      ⟨hf, hamp f (List.mem_append_right _ List.mem_cons_self)⟩
    have hpairs : queryPairs p = (gs ++ [f]) ++ [] := by
      rw [hpeq, queryPairs_joined hgs', queryPairs_last hf', List.append_nil]
    exact ⟨((stored_eq_requested_iff hpairs).mp htable).1, .last gs f hgs' hf' hpeq⟩
  · have hzero : ∀ g ∈ fs, 0 ∉ g.1 ∧ 0 ∉ g.2 := by
      rw [hpeq, List.mem_append, not_or] at hp
      exact zero_not_mem_joined hp.1
    rw [assign_eq hzero] at htable
    have hamp := ampersand_not_mem_of_stored htable
    have hfs' : ∀ g ∈ fs, FieldText g ∧ ampersand ∉ g.1 := fun g hg => ⟨hfs g hg, hamp g hg⟩
    have hpairs : queryPairs p = fs ++ queryPairs tail := by
      rw [hpeq, queryPairs_joined hfs']
    obtain ⟨hold, hdone⟩ := (stored_eq_requested_iff hpairs).mp htable
    exact ⟨hold, .full fs tail hfs' hpeq hlen30 htail hequals hdone⟩

/-- **Query parsing.**  The step for the parameters goes over them and their zero
only, without an error, and leaves in `reqdata` what they ask for and nothing
else, if and only if every key that was in `reqdata` is asked for again and the
loop gets through the query. -/
theorem parses_iff (hborder : ∀ old, s.oldTable = some old → IsBorder old (objlen old))
    {later : List UInt8} (hparams : s.httpParams.1 = p ++ 0 :: later) (hp : 0 ∉ p) :
    Parses objlen s p ↔
      ∃ old, s.oldTable = some old ∧ (∀ k, old k ≠ .nil → requested p k ≠ .nil) ∧
        QueryOk old p := by
  refine ⟨queryOk_of_parses hborder hparams hp, ?_⟩
  rintro ⟨old, hold_eq, hold, hquery⟩
  obtain ⟨L, ref, hopen, hreq, rfl⟩ := oldTable_eq_iff.mp hold_eq
  have hlen := objlen_eq_zero (hborder _ hold_eq) hold
  have hlen30 := s.httpParams.2
  rw [hparams, List.length_append, List.length_cons] at hlen30
  cases hquery with
  | empty hnil =>
      have hzero : ¬ (s.httpParams.1.headD 0 ≠ 0) := by
        rw [hparams, hnil]
        exact not_not.mpr rfl
      refine ⟨0, L.push (.table ref), ref, ?_, Nat.zero_le _, hreq, ?_⟩
      · unfold parseStep
        rw [hopen, ok_bind, pushReqdata_eq hreq hlen, ok_bind, parseParams, if_neg hzero]
        rfl
      · have hpairs : queryPairs p = [] ++ [] := by
          rw [hnil]
          rfl
        exact (stored_eq_requested_iff hpairs).mpr ⟨hold, (by intro g hg; cases hg)⟩
  | last fs f hfs hf hpeq =>
      have hpairs : queryPairs p = (fs ++ [f]) ++ [] := by
        rw [hpeq, queryPairs_joined hfs, queryPairs_last hf, List.append_nil]
      have hnil : p ≠ [] := by
        rintro rfl
        exact List.append_ne_nil_of_right_ne_nil _
          (List.append_ne_nil_of_right_ne_nil _ (List.cons_ne_nil _ _)) hpeq.symm
      have hzero := hp
      rw [hpeq, List.mem_append, List.mem_append, List.mem_cons] at hzero
      simp only [not_or] at hzero
      obtain ⟨⟨hkey, hkeylen, hne, hequals, hamp, hvallen⟩, -⟩ := hf
      have hlast : Fields s.writeBuffer (f.1 ++ equals :: (f.2 ++ 0 :: later)) [f]
          (f.1.length + f.2.length + 2) :=
        .last (plain_of_not_mem hkey (by intro h; cases h)) hkeylen hne
          (plain_of_dropLast hequals fun _ => ⟨hzero.2.2.2, hamp⟩) hvallen
      have hfields := fields_joined hfs hzero.1 hlast
      have hbytes : joined fs ++ (f.1 ++ equals :: (f.2 ++ 0 :: later)) = s.httpParams.1 := by
        rw [hparams, hpeq]
        simp only [List.append_assoc, List.cons_append]
      rw [hbytes] at hfields
      have hall : ∀ g ∈ fs ++ [f], 0 ∉ g.1 ∧ 0 ∉ g.2 := by
        intro g hg
        rcases List.mem_append.mp hg with hg | hg
        · exact zero_not_mem_joined hzero.1 g hg
        · rw [List.mem_singleton.mp hg]
          exact ⟨hzero.2.1, hzero.2.2.2⟩
      obtain ⟨L', hstep, hreq', htable⟩ :=
        parseStep_fields hopen hreq hlen (hparams ▸ headD_params hp hnil) hfields hall
      refine ⟨_, L', ref, hstep, ?_, hreq', ?_⟩
      · rw [hpeq]
        simp only [List.length_append, List.length_cons]
        omega
      · rw [htable]
        exact (stored_eq_requested_iff hpairs).mpr ⟨hold, (by intro g hg; cases hg)⟩
  | full fs tail hfs hpeq hfull htail hequals hdone =>
      rw [HTTP_PARAMS_SIZE] at hfull hlen30
      obtain rfl : later = [] := List.eq_nil_of_length_eq_zero (by omega)
      have hnil : p ≠ [] := by
        rintro rfl
        exact absurd hfull (by decide)
      have hzero := hp
      rw [hpeq, List.mem_append, not_or] at hzero
      have hrest : Fields s.writeBuffer (tail ++ [0]) [] (tail ++ [0]).length := by
        apply Fields.rest
        · rw [plain_append]
          exact ⟨plain_of_dropLast hequals (by intro h; cases h), fun h => absurd h (by decide),
            (by intro h; cases h), trivial⟩
        · rw [List.length_append]
          exact htail
      have hfields := fields_joined hfs hzero.1 hrest
      have hbytes : joined fs ++ (tail ++ [0]) = s.httpParams.1 := by
        rw [hparams, hpeq, List.append_assoc]
      rw [hbytes, List.append_nil] at hfields
      obtain ⟨L', hstep, hreq', htable⟩ := parseStep_fields hopen hreq hlen
        (hparams ▸ headD_params hp hnil) hfields (zero_not_mem_joined hzero.1)
      have hpairs : queryPairs p = fs ++ queryPairs tail := by
        rw [hpeq, queryPairs_joined hfs]
      refine ⟨_, L', ref, hstep, ?_, hreq', ?_⟩
      · rw [hpeq]
        simp only [List.length_append, List.length_cons, List.length_nil]
        omega
      · rw [htable]
        exact (stored_eq_requested_iff hpairs).mpr ⟨hold, hdone⟩

/-- The query `q=a+b&r=1`. -/
theorem parses_two_pairs :
    Parses (fun _ => 0)
      (continued idleState [113, 61, 97, 43, 98, 38, 114, 61, 49] (by decide))
      [113, 61, 97, 43, 98, 38, 114, 61, 49] := by
  have hborder : ∀ old, (continued idleState [113, 61, 97, 43, 98, 38, 114, 61, 49]
      (by decide)).oldTable = some old → IsBorder old 0 := by
    intro old hold
    obtain rfl := Option.some.inj hold
    exact ⟨fun h => absurd rfl h, rfl⟩
  refine (@parses_iff [113, 61, 97, 43, 98, 38, 114, 61, 49] _ (fun _ => 0) hborder
    (List.replicate 20 0) rfl (by decide)).mpr ⟨fun _ => .nil, rfl, fun k h => absurd rfl h, ?_⟩
  refine .last [([113], [97, 43, 98])] ([114], [49]) ?_ ?_ rfl
  · rw [List.forall_mem_singleton]
    exact ⟨⟨by decide, by decide, by decide, by decide, by decide⟩, by decide⟩
  · exact ⟨⟨by decide, by decide, by decide, by decide, by decide, by decide⟩, by decide⟩

/-- With `a=` the loop goes past the zero, and out of `str`. -/
theorem not_parses_empty_value :
    ¬ Parses (fun _ => 0) (continued idleState [97, 61] (by decide)) [97, 61] := by
  rintro ⟨n, L, ref, hstep, -⟩
  have herror : parseStep (fun _ => 0) (continued idleState [97, 61] (by decide)) =
      .error .undefined := rfl
  rw [herror] at hstep
  cases hstep

end Httpd.Params
