import Mathlib.Data.List.Infix
import Mathlib.Data.List.TakeWhile

/-!
# Searching in C strings

A C string ends before its first zero.  A search that does not come to a zero
goes out of the memory it is given, and is `none`.
-/

namespace CString

/-- Whether the memory begins with some bytes, read one after the other. -/
def startsWith : List UInt8 → List UInt8 → Option Bool
  | [], _ => some true
  | _ :: _, [] => none
  | a :: as, b :: bs => if b = a then startsWith as bs else some false

/-- `strchr`: how far away the character is. -/
def strchr (c : UInt8) : List UInt8 → Option (Option Nat)
  | [] => none
  | b :: bs =>
      if b = c then some (some 0)
      else if b = 0 then some none
      else (strchr c bs).map (Option.map (· + 1))

/-- `strstr`: how far away the string is. -/
def strstr (needle : List UInt8) : List UInt8 → Option (Option Nat)
  | [] => none
  | b :: bs =>
      if needle.isPrefixOf (b :: bs) then some (some 0)
      else if b = 0 then some none
      else (strstr needle bs).map (Option.map (· + 1))

/-- The string that some bytes begin with. -/
def text (bs : List UInt8) : List UInt8 := bs.takeWhile (· ≠ 0)

/-- Where some bytes are in a list for the first time. -/
def find (needle : List UInt8) : List UInt8 → Option Nat
  | [] => none
  | b :: bs => if needle.isPrefixOf (b :: bs) then some 0 else (find needle bs).map (· + 1)

variable {needle xs ys : List UInt8} {c : UInt8} {i : Nat}

theorem text_eq (h : 0 ∉ xs) : text xs = xs := by
  rw [text, List.takeWhile_eq_self_iff]
  intro b hb
  exact decide_eq_true fun heq => h (heq ▸ hb)

theorem text_cons {b : UInt8} (h : b ≠ 0) (xs : List UInt8) : text (b :: xs) = b :: text xs :=
  List.takeWhile_cons_of_pos (decide_eq_true h)

theorem text_append_zero (h : 0 ∉ xs) (ys : List UInt8) : text (xs ++ 0 :: ys) = xs := by
  have hall : ∀ b ∈ xs, decide (b ≠ 0) = true := by
    intro b hb
    exact decide_eq_true fun heq => h (heq ▸ hb)
  rw [text, List.takeWhile_append_of_pos hall, List.takeWhile_cons_of_neg (by simp),
    List.append_nil]

theorem zero_not_mem_text (xs : List UInt8) : 0 ∉ text xs := by
  intro h
  exact absurd (List.mem_takeWhile_imp h) (by simp)

/-- A string ends at its zero. -/
theorem exists_eq_text (h : 0 ∈ xs) : ∃ ys, xs = text xs ++ 0 :: ys := by
  obtain ⟨as, bs, rfl, has⟩ := List.eq_append_cons_of_mem h
  exact ⟨bs, by rw [text_append_zero has]⟩

theorem text_append_of_mem (h : 0 ∈ xs) (ys : List UInt8) : text (xs ++ ys) = text xs := by
  obtain ⟨as, bs, rfl, has⟩ := List.eq_append_cons_of_mem h
  rw [List.append_assoc, List.cons_append, text_append_zero has, text_append_zero has]

theorem text_append_zero_left (xs ys : List UInt8) : text (xs ++ 0 :: ys) = text xs := by
  by_cases h : 0 ∈ xs
  · exact text_append_of_mem h _
  · rw [text_append_zero h, text_eq h]

/-- What is at and after a zero is no part of a string without one. -/
theorem isPrefixOf_append_zero (hneedle : 0 ∉ needle) (xs ys : List UInt8) :
    needle.isPrefixOf (xs ++ 0 :: ys) = needle.isPrefixOf xs := by
  induction needle generalizing xs with
  | nil => rw [List.isPrefixOf_nil_left, List.isPrefixOf_nil_left]
  | cons a needle ih =>
      rw [List.mem_cons, not_or] at hneedle
      cases xs with
      | nil =>
          have hne : (a == 0) = false := beq_false_of_ne (Ne.symm hneedle.1)
          rw [List.nil_append, List.isPrefixOf_cons_cons, hne]
          rfl
      | cons x xs => rw [List.cons_append, List.isPrefixOf_cons_cons, List.isPrefixOf_cons_cons,
          ih hneedle.2]

theorem startsWith_eq (hneedle : 0 ∉ needle) :
    startsWith needle (xs ++ 0 :: ys) = some (needle.isPrefixOf xs) := by
  induction needle generalizing xs with
  | nil => rw [startsWith, List.isPrefixOf_nil_left]
  | cons a needle ih =>
      rw [List.mem_cons, not_or] at hneedle
      cases xs with
      | nil => rw [List.nil_append, startsWith, if_neg hneedle.1, List.isPrefixOf_cons_nil]
      | cons x xs =>
          rw [List.cons_append, startsWith, List.isPrefixOf_cons_cons, ih hneedle.2]
          by_cases hx : x = a
          · rw [if_pos hx, hx, BEq.rfl, Bool.true_and]
          · rw [if_neg hx, beq_false_of_ne (Ne.symm hx), Bool.false_and]

theorem strstr_eq (hneedle : 0 ∉ needle) (hne : needle ≠ []) (h : 0 ∉ xs) :
    strstr needle (xs ++ 0 :: ys) = some (find needle xs) := by
  induction xs with
  | nil =>
      have hbefore := isPrefixOf_append_zero hneedle [] ys
      obtain ⟨a, needle, rfl⟩ := List.exists_cons_of_ne_nil hne
      rw [List.nil_append, List.isPrefixOf_cons_nil] at hbefore
      rw [List.nil_append, strstr, hbefore, if_neg Bool.false_ne_true, if_pos rfl, find]
  | cons x xs ih =>
      rw [List.mem_cons, not_or] at h
      have hbefore := isPrefixOf_append_zero hneedle (x :: xs) ys
      rw [List.cons_append] at hbefore
      rw [List.cons_append, strstr, hbefore, find, ih h.2, if_neg (Ne.symm h.1)]
      split <;> rfl

theorem strchr_eq (hc : c ≠ 0) (h : 0 ∉ xs) :
    strchr c (xs ++ 0 :: ys) = some (find [c] xs) := by
  induction xs with
  | nil => rw [List.nil_append, strchr, if_neg (Ne.symm hc), if_pos rfl, find]
  | cons x xs ih =>
      rw [List.mem_cons, not_or] at h
      rw [List.cons_append, strchr, find, ih h.2, List.isPrefixOf_cons_cons,
        List.isPrefixOf_nil_left, Bool.and_true]
      by_cases hx : x = c
      · rw [if_pos hx, hx, if_pos (BEq.rfl)]
      · rw [if_neg hx, if_neg (Ne.symm h.1), beq_false_of_ne (Ne.symm hx),
          if_neg Bool.false_ne_true]
        rfl

/-- What is neither found nor the end is passed. -/
theorem strchr_append (h : ∀ b ∈ xs, b ≠ c ∧ b ≠ 0) (ys : List UInt8) :
    strchr c (xs ++ ys) = (strchr c ys).map (Option.map (· + xs.length)) := by
  induction xs with
  | nil => simp
  | cons x xs ih =>
      have hx := h x List.mem_cons_self
      have hadd : ∀ d : Option Nat,
          Option.map (· + 1) (d.map (· + xs.length)) = d.map (· + (x :: xs).length) := by
        intro d
        cases d <;> rfl
      rw [List.cons_append, strchr, if_neg hx.1, if_neg hx.2,
        ih fun b hb => h b (List.mem_cons_of_mem x hb), Option.map_map]
      exact congrArg (Option.map · _) (funext hadd)

/-- A search in a string with an end has a result. -/
theorem strchr_isSome (c : UInt8) (h : 0 ∈ xs) : (strchr c xs).isSome := by
  induction xs with
  | nil => cases h
  | cons x xs ih =>
      rw [strchr]
      split
      · rfl
      · split
        · rfl
        · rename_i hx
          rw [Option.isSome_map]
          exact ih (List.mem_of_ne_of_mem (Ne.symm hx) h)

/-- A zero at the end is nothing to find. -/
theorem find_append_zero (hneedle : 0 ∉ needle) (hne : needle ≠ []) :
    find needle (xs ++ [0]) = find needle xs := by
  induction xs with
  | nil =>
      have hbefore := isPrefixOf_append_zero hneedle [] []
      obtain ⟨a, needle, rfl⟩ := List.exists_cons_of_ne_nil hne
      rw [List.nil_append, List.isPrefixOf_cons_nil] at hbefore
      change (if (a :: needle).isPrefixOf [0] then some 0 else none) = none
      rw [hbefore, if_neg Bool.false_ne_true]
  | cons x xs ih =>
      have hbefore := isPrefixOf_append_zero hneedle (x :: xs) []
      rw [List.cons_append] at hbefore
      rw [List.cons_append, find, hbefore, find, ih]

/-- One more byte before the zero, whatever it is. -/
theorem strstr_concat (hneedle : 0 ∉ needle) (hne : needle ≠ []) (h : 0 ∉ xs) (x : UInt8) :
    strstr needle (xs ++ x :: 0 :: ys) = some (find needle (xs ++ [x])) := by
  by_cases hx : x = 0
  · rw [hx, strstr_eq hneedle hne h, find_append_zero hneedle hne]
  · have hnot : 0 ∉ xs ++ [x] := by
      rw [List.mem_append, List.mem_singleton]
      exact not_or.mpr ⟨h, Ne.symm hx⟩
    rw [← @strstr_eq needle _ ys hneedle hne hnot, List.append_assoc]
    rfl

theorem strchr_concat (hc : c ≠ 0) (h : 0 ∉ xs) (x : UInt8) :
    strchr c (xs ++ x :: 0 :: ys) = some (find [c] (xs ++ [x])) := by
  by_cases hx : x = 0
  · have hneedle : 0 ∉ [c] := by
      rw [List.mem_singleton]
      exact Ne.symm hc
    rw [hx, strchr_eq hc h, find_append_zero hneedle (List.cons_ne_nil _ _)]
  · have hnot : 0 ∉ xs ++ [x] := by
      rw [List.mem_append, List.mem_singleton]
      exact not_or.mpr ⟨h, Ne.symm hx⟩
    rw [← @strchr_eq _ ys c hc hnot, List.append_assoc]
    rfl

theorem find_matches (h : find needle xs = some i) : needle <+: xs.drop i := by
  induction xs generalizing i with
  | nil => cases h
  | cons x xs ih =>
      rw [find] at h
      split at h
      · rename_i hbefore
        obtain rfl := Option.some.inj h
        exact List.isPrefixOf_iff_prefix.mp hbefore
      · obtain ⟨j, hj, rfl⟩ := Option.map_eq_some_iff.mp h
        exact ih hj

theorem find_le (hne : needle ≠ []) (h : find needle xs = some i) :
    i + needle.length ≤ xs.length := by
  have hlen := (find_matches h).length_le
  have hpos := List.length_pos_of_ne_nil hne
  rw [List.length_drop] at hlen
  omega

/-- The first place stays the first one. -/
theorem find_append (hne : needle ≠ []) (h : find needle xs = some i) (ys : List UInt8) :
    find needle (xs ++ ys) = some i := by
  induction xs generalizing i with
  | nil => cases h
  | cons x xs ih =>
      rw [find] at h
      rw [List.cons_append, find]
      by_cases hbefore : needle.isPrefixOf (x :: xs) = true
      · rw [if_pos hbefore] at h
        have hlonger : needle.isPrefixOf (x :: (xs ++ ys)) = true :=
          List.isPrefixOf_iff_prefix.mpr
            ((List.isPrefixOf_iff_prefix.mp hbefore).trans (List.prefix_append (x :: xs) ys))
        rw [if_pos hlonger]
        exact h
      · rw [if_neg hbefore] at h
        obtain ⟨j, hj, rfl⟩ := Option.map_eq_some_iff.mp h
        have hlonger : ¬ needle.isPrefixOf (x :: (xs ++ ys)) = true := by
          intro hlonger
          have hle : needle.length ≤ (x :: xs).length := by
            have := find_le hne hj
            rw [List.length_cons]
            omega
          exact hbefore (List.isPrefixOf_iff_prefix.mpr (List.prefix_of_prefix_length_le
            (List.isPrefixOf_iff_prefix.mp hlonger) (List.prefix_append (x :: xs) ys) hle))
        rw [if_neg hlonger, ih hj]
        rfl

/-- What is somewhere in the list is found. -/
theorem find_isSome (hne : needle ≠ []) (h : needle <+: xs.drop i) : (find needle xs).isSome := by
  induction xs generalizing i with
  | nil =>
      rw [List.drop_nil, List.prefix_nil] at h
      exact absurd h hne
  | cons x xs ih =>
      rw [find]
      split
      · rfl
      · rename_i hbefore
        cases i with
        | zero => exact absurd (List.isPrefixOf_iff_prefix.mpr h) hbefore
        | succ i => rw [Option.isSome_map, ih h]

/-- A character is not before the place where it is found. -/
theorem find_char_first (h : find [c] xs = some i) {j : Nat} (hj : j < i) : xs[j]? ≠ some c := by
  induction xs generalizing i j with
  | nil => cases h
  | cons x xs ih =>
      rw [find] at h
      split at h
      · obtain rfl := Option.some.inj h
        exact absurd hj (Nat.not_lt_zero j)
      · rename_i hbefore
        obtain ⟨k, hk, rfl⟩ := Option.map_eq_some_iff.mp h
        cases j with
        | zero =>
            intro heq
            rw [List.getElem?_cons_zero] at heq
            obtain rfl := Option.some.inj heq
            exact hbefore (by rw [List.isPrefixOf_cons_cons, BEq.rfl]; rfl)
        | succ j =>
            rw [List.getElem?_cons_succ]
            exact ih hk (Nat.lt_of_succ_lt_succ hj)

theorem find_char_none (h : find [c] xs = none) : c ∉ xs := by
  intro hmem
  obtain ⟨before, after, rfl⟩ := List.append_of_mem hmem
  have hat : [c] <+: (before ++ c :: after).drop before.length := by
    rw [List.drop_left]
    exact ⟨after, rfl⟩
  have hsome := find_isSome (List.cons_ne_nil _ _) hat
  rw [h] at hsome
  cases hsome

end CString
