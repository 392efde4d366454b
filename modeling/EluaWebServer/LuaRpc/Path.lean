import EluaWebServer.LuaRpc.Dispatch
import EluaWebServer.LuaRpc.RoundTrip
import Mathlib.Algebra.Order.BigOperators.Group.List

/-!
# Paths of helpers

Indexing a handle gives a helper, and indexing a helper gives another one.
`helper_remote_index` sends the names as one string with dots in between, which
the server reads before it looks the names up.
-/

namespace LuaRpc

def NUM_FUNCNAME_CHARS : Nat := 20

/-- The length check of `handle_index` and `helper_index`; an error is
`ERR_LONGFNAME`. -/
def funcnameOf (s : List UInt8) : Except Failure (List UInt8) :=
  if NUM_FUNCNAME_CHARS - 1 < (cString s).length then .error .luaError else .ok (cString s)

/-- `handle_index` with a string, and `helper_create`. -/
def handleIndex (id handle : Nat) (s : List UInt8) : Except Failure Helper :=
  (funcnameOf s).map fun funcname => ⟨id, handle, [], funcname⟩

/-- `helper_index` with a string, and `helper_append`. -/
def helperIndex (id : Nat) (h : Helper) (s : List UInt8) : Except Failure Helper :=
  (funcnameOf s).map fun funcname => ⟨id, h.handle, h.parents ++ [h.funcname], funcname⟩

/-- The helpers that indexing a handle leads to, with the strings. -/
inductive Indexed (handle : Nat) : List (List UInt8) → Helper → Prop
  | handle {id : Nat} {s : List UInt8} {h : Helper}
      (hindex : handleIndex id handle s = .ok h) : Indexed handle [s] h
  | helper {names : List (List UInt8)} {h h' : Helper} {id : Nat} {s : List UInt8}
      (hparent : Indexed handle names h)
      (hindex : helperIndex id h s = .ok h') : Indexed handle (names ++ [s]) h'

/-- The names with dots in between. -/
def dotted (names : List (List UInt8)) : List UInt8 := [dot].intercalate (names.map cString)

variable {N F F' : Type}

/-- What is sent is the length of the dotted path and the path, and a server
with room for the path reads it and leaves what comes after it. -/
def Replays (w : Link N F) (r : Link N F') (names : List (List UInt8)) (h : Helper) : Prop :=
  w.helperRemoteIndex h = w.writeU32 (dotted names).length ++ dotted names ∧
    ((dotted names).length < r.room → ∀ rest,
      r.readString (w.helperRemoteIndex h ++ rest) = .ok (dotted names, rest))

/-! ## The helper of some names -/

theorem funcname_eq {s funcname : List UInt8} (h : funcnameOf s = .ok funcname) :
    funcname = cString s ∧ funcname.length < NUM_FUNCNAME_CHARS := by
  rw [funcnameOf] at h
  split at h
  · cases h
  · rename_i hlen
    have hname : cString s = funcname := Except.ok.inj h
    rw [hname] at hlen
    exact ⟨hname.symm, by rw [NUM_FUNCNAME_CHARS] at hlen ⊢; omega⟩

theorem exists_of_map_ok {α β : Type} {e : Except Failure α} {f : α → β} {b : β}
    (h : e.map f = .ok b) : ∃ a, e = .ok a ∧ f a = b := by
  cases e with
  | error err => cases h
  | ok a => exact ⟨a, rfl, Except.ok.inj h⟩

/-- One more name, at the end. -/
theorem intercalate_concat (sep : List UInt8) (names : List (List UInt8)) (last : List UInt8) :
    sep.intercalate (names ++ [last]) = (names.flatMap fun name => name ++ sep) ++ last := by
  induction names with
  | nil => exact List.intercalate_singleton
  | cons name names ih =>
      have hne : names ++ [last] ≠ [] := List.concat_ne_nil last names
      rw [List.cons_append, List.intercalate_cons_of_ne_nil hne, ih, List.flatMap_cons]
      simp only [List.append_assoc]

variable {handle : Nat} {names : List (List UInt8)} {h : Helper}

/-- A helper has the names that it was reached by. -/
theorem Indexed.names_eq (hindexed : Indexed handle names h) :
    names.map cString = h.parents ++ [h.funcname] ∧
      ∀ name ∈ h.parents ++ [h.funcname], name.length < NUM_FUNCNAME_CHARS := by
  induction hindexed with
  | @handle id s h hindex =>
      obtain ⟨funcname, hname, rfl⟩ := exists_of_map_ok hindex
      obtain ⟨rfl, hlen⟩ := funcname_eq hname
      exact ⟨rfl, by simpa using hlen⟩
  | @helper names h h' id s hparent hindex ih =>
      obtain ⟨funcname, hname, rfl⟩ := exists_of_map_ok hindex
      obtain ⟨rfl, hlen⟩ := funcname_eq hname
      refine ⟨by rw [List.map_append, ih.1]; rfl, ?_⟩
      intro name hmem
      rcases List.mem_append.mp hmem with hmem | hmem
      · exact ih.2 name hmem
      · rw [List.mem_singleton.mp hmem]
        exact hlen

theorem Indexed.path_eq (hindexed : Indexed handle names h) : h.path = dotted names := by
  rw [dotted, hindexed.names_eq.1, intercalate_concat]
  rfl

theorem Indexed.length_eq (hindexed : Indexed handle names h) :
    names.length = h.parents.length + 1 := by
  have hlen := congrArg List.length hindexed.names_eq.1
  rw [List.length_map, List.length_append] at hlen
  exact hlen

/-- Names are short, and so is what is announced. -/
theorem Indexed.path_lt (hindexed : Indexed handle names h) (hdepth : names.length ≤ 256) :
    h.path.length < 2 ^ 13 ∧ h.len < 2 ^ 13 := by
  have hsum : (h.parents.map fun name => name.length + 1).sum ≤ h.parents.length * 20 := by
    have hle := List.sum_le_card_nsmul (h.parents.map fun name => name.length + 1) 20
    rw [List.length_map, Nat.nsmul_eq_mul] at hle
    apply hle
    intro n hn
    obtain ⟨name, hname, rfl⟩ := List.mem_map.mp hn
    exact hindexed.names_eq.2 name (List.mem_append_left _ hname)
  have hlast := hindexed.names_eq.2 h.funcname (List.mem_append_right _ List.mem_cons_self)
  have hlen := hindexed.length_eq
  have hpath := length_path h
  rw [NUM_FUNCNAME_CHARS] at hlast
  refine ⟨by omega, ?_⟩
  have hn : h.parents.length < 256 := by omega
  cases hparents : h.parents with
  | nil =>
      have hsame := (len_eq_iff hn).mpr ⟨hn, by rw [SameEnds, hparents]; exact .inl Nat.zero_lt_two⟩
      omega
  | cons first rest =>
      have hadd := len_add_eq hn hparents
      have hmem : (first :: rest).getLast (List.cons_ne_nil first rest) ∈ h.parents := by
        rw [hparents]
        exact List.getLast_mem _
      have hend := hindexed.names_eq.2 _ (List.mem_append_left _ hmem)
      rw [NUM_FUNCNAME_CHARS] at hend
      omega

/-! ## What is sent -/

theorem writeU32_inj {w : Link N F} {m n : Nat} {xs ys : List UInt8} (hm : m < 2 ^ 32)
    (hn : n < 2 ^ 32) (h : w.writeU32 m ++ xs = w.writeU32 n ++ ys) : m = n := by
  have hread := readU32_eq (w := w) (r := w) rfl hm xs
  rw [h, readU32_eq rfl hn ys] at hread
  exact (Prod.mk.inj (Except.ok.inj hread)).1.symm

/-- **Replay of a path.**  What the helper of some names sends is the dotted path,
and the server reads it, if and only if there are less than two parents or the
first and the last parent have names of the same length. -/
theorem path_replayed_iff (w : Link N F) (r : Link N F') (hnet : SameNet w r)
    (hindexed : Indexed handle names h) (hdepth : names.length ≤ 256) :
    Replays w r names h ↔ SameEnds (names.map cString).dropLast := by
  have hlen := hindexed.length_eq
  have hn : h.parents.length < 256 := by omega
  have hparents : (names.map cString).dropLast = h.parents := by
    rw [hindexed.names_eq.1, List.dropLast_concat]
  rw [hparents, Replays, ← hindexed.path_eq]
  constructor
  · rintro ⟨hsent, -⟩
    obtain ⟨hpath, hannounced⟩ := hindexed.path_lt hdepth
    rw [Link.helperRemoteIndex, List.append_assoc] at hsent
    have hsame := writeU32_inj (by omega) (by omega) hsent
    exact ((len_eq_iff hn).mp hsame).2
  · intro hends
    have hsent := helperRemoteIndex_eq w ⟨hn, hends⟩
    refine ⟨hsent, fun hroom rest => ?_⟩
    rw [hsent]
    exact readString_eq hnet hroom rest

/-- The helper of `slave.pd.platform`. -/
theorem path_replayed_platform :
    Replays (smallLink (some 0)) (smallLink none)
      [[112, 100], [112, 108, 97, 116, 102, 111, 114, 109]]
      ⟨1, 0, [[112, 100]], [112, 108, 97, 116, 102, 111, 114, 109]⟩ :=
  (path_replayed_iff (smallLink (some 0)) (smallLink none) rfl
    (.helper (@Indexed.handle 0 0 [112, 100] _ rfl) rfl) (by decide)).mpr (by decide)

/-- For `a.bb.c` seven bytes are announced, and six are sent. -/
theorem path_not_replayed :
    Indexed 0 [[97], [98, 98], [99]] ⟨2, 0, [[97], [98, 98]], [99]⟩ ∧
      ¬ Replays (smallLink (some 0)) (smallLink none) [[97], [98, 98], [99]]
        ⟨2, 0, [[97], [98, 98]], [99]⟩ := by
  have hindexed : Indexed 0 [[97], [98, 98], [99]] ⟨2, 0, [[97], [98, 98]], [99]⟩ :=
    .helper (@Indexed.helper 0 _ _ _ 1 _ (@Indexed.handle 0 0 [97] _ rfl) rfl) rfl
  refine ⟨hindexed, ?_⟩
  rintro ⟨hsent, -⟩
  revert hsent
  decide

end LuaRpc
