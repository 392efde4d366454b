import EluaWebServer.Lib.Word

/-!
# Byte memory

Memory is a function from addresses to bytes.  Words are stored in four
consecutive bytes, least significant first.
-/

namespace Memory

structure Mem where
  byte : Nat → UInt8

instance : CoeFun Mem fun _ => Nat → UInt8 := ⟨Mem.byte⟩

/-- The 32-bit word at an address. -/
def load32 (m : Mem) (a : Nat) : UInt32 :=
  Word.ofBytes32 (m a) (m (a + 1)) (m (a + 2)) (m (a + 3))

/-- The bytes of a list from an address on. -/
def storeBytes (m : Mem) (a : Nat) : List UInt8 → Mem
  | [] => m
  | b :: bs => storeBytes ⟨fun i => if i = a then b else m i⟩ (a + 1) bs

def store32 (m : Mem) (a : Nat) (w : UInt32) : Mem := storeBytes m a (Word.bytes32 w)

/-- `n` bytes from an address on. -/
def loadBytes (m : Mem) (a n : Nat) : List UInt8 := (List.range n).map fun i => m (a + i)

theorem length_loadBytes (m : Mem) (a n : Nat) : (loadBytes m a n).length = n := by
  rw [loadBytes, List.length_map, List.length_range]

/-- What is stored elsewhere stays. -/
theorem storeBytes_of_outside {m : Mem} {a i : Nat} {bs : List UInt8}
    (h : i < a ∨ a + bs.length ≤ i) : storeBytes m a bs i = m i := by
  induction bs generalizing m a with
  | nil => rfl
  | cons b bs ih =>
      rw [List.length_cons] at h
      have hne : i ≠ a := by omega
      rw [storeBytes, ih (by omega)]
      exact if_neg hne

/-- What was stored is there. -/
theorem storeBytes_of_inside {m : Mem} {a k : Nat} {bs : List UInt8} (hk : k < bs.length) :
    storeBytes m a bs (a + k) = bs[k] := by
  induction bs generalizing m a k with
  | nil => exact absurd hk (Nat.not_lt_zero k)
  | cons b bs ih =>
      cases k with
      | zero =>
          rw [storeBytes, Nat.add_zero, storeBytes_of_outside (by omega)]
          exact if_pos rfl
      | succ k =>
          rw [storeBytes, ← Nat.add_assoc, Nat.add_right_comm, ih (by simpa using hk)]
          rfl

theorem loadBytes_congr {m m' : Mem} {a n : Nat} (h : ∀ i, a ≤ i → i < a + n → m' i = m i) :
    loadBytes m' a n = loadBytes m a n := by
  refine List.map_congr_left fun i hi => h (a + i) (Nat.le_add_right a i) ?_
  have := List.mem_range.mp hi
  omega

theorem loadBytes_storeBytes (m : Mem) (a : Nat) (bs : List UInt8) :
    loadBytes (storeBytes m a bs) a bs.length = bs := by
  refine List.ext_getElem (length_loadBytes _ _ _) fun k _ hk => ?_
  simp only [loadBytes, List.getElem_map, List.getElem_range]
  exact storeBytes_of_inside hk

/-- The bytes of a list are at an address. -/
def At (m : Mem) (a : Nat) (bs : List UInt8) : Prop := loadBytes m a bs.length = bs

instance (m : Mem) (a : Nat) (bs : List UInt8) : Decidable (At m a bs) :=
  inferInstanceAs (Decidable (_ = _))

theorem loadBytes_add (m : Mem) (a n k : Nat) :
    loadBytes m a (n + k) = loadBytes m a n ++ loadBytes m (a + n) k := by
  simp only [loadBytes, List.range_add, List.map_append, List.map_map, Function.comp_def,
    Nat.add_assoc]

theorem at_append {m : Mem} {a : Nat} {xs ys : List UInt8} :
    At m a (xs ++ ys) ↔ At m a xs ∧ At m (a + xs.length) ys := by
  rw [At, List.length_append, loadBytes_add]
  exact ⟨fun h => List.append_inj h (length_loadBytes m a xs.length),
    fun ⟨hx, hy⟩ => congrArg₂ (· ++ ·) hx hy⟩

theorem at_cons {m : Mem} {a : Nat} {b : UInt8} {bs : List UInt8} :
    At m a (b :: bs) ↔ m a = b ∧ At m (a + 1) bs := by
  rw [← List.singleton_append, at_append, At, List.length_singleton]
  simp only [loadBytes, List.range_one, List.map_singleton, Nat.add_zero, List.cons.injEq, and_true]

/-- Part of what is at an address. -/
theorem At.loadBytes_drop {m : Mem} {a : Nat} {bs : List UInt8} (h : At m a bs) {i n : Nat}
    (hle : i + n ≤ bs.length) : loadBytes m (a + i) n = (bs.drop i).take n := by
  rw [← List.take_append_drop i bs, at_append] at h
  have hlen : (bs.take i).length = i := by rw [List.length_take]; omega
  rw [hlen] at h
  have hdrop := h.2
  rw [← List.take_append_drop n (bs.drop i), at_append] at hdrop
  have htake : ((bs.drop i).take n).length = n := by
    rw [List.length_take, List.length_drop]
    omega
  have hpart := hdrop.1
  rwa [At, htake] at hpart

theorem store32_of_outside {m : Mem} {a i : Nat} {w : UInt32} (h : i < a ∨ a + 4 ≤ i) :
    store32 m a w i = m i :=
  storeBytes_of_outside h

/-- A word is what its four bytes are. -/
theorem load32_congr {m m' : Mem} {a : Nat} (h : ∀ i, a ≤ i → i < a + 4 → m' i = m i) :
    load32 m' a = load32 m a := by
  unfold load32
  rw [h a (by omega) (by omega), h (a + 1) (by omega) (by omega), h (a + 2) (by omega) (by omega),
    h (a + 3) (by omega) (by omega)]

theorem load32_store32 (m : Mem) (a : Nat) (w : UInt32) : load32 (store32 m a w) a = w := by
  have h1 : ¬ a = a + 1 := by omega
  have h2 : ¬ a = a + 1 + 1 := by omega
  have h3 : ¬ a = a + 1 + 1 + 1 := by omega
  simp only [load32, store32, Word.bytes32, storeBytes, if_true, if_neg h1, if_neg h2, if_neg h3,
    Nat.add_right_cancel_iff, Nat.add_eq_left, OfNat.ofNat_ne_zero, one_ne_zero, if_false]
  exact Word.ofBytes32_bytes32 w

theorem load32_store32_of_disjoint {m : Mem} {a b : Nat} {w : UInt32}
    (h : b + 4 ≤ a ∨ a + 4 ≤ b) : load32 (store32 m a w) b = load32 m b :=
  load32_congr fun _ hlo hhi => store32_of_outside (by omega)

end Memory
