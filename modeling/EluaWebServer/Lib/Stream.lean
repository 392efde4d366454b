import Mathlib.Data.List.Basic
import Mathlib.Algebra.Ring.Nat

/-!
# Streams of bytes

A sink is written block by block and stops at the first error.  What a writer has written is
known from its status at the end.  A reader takes bytes from the front of its input.  A
round trip is a writer that emits some bytes and a reader that reads them, whatever follows,
and a reader that needs more bytes than there are does not come to an end.
-/

namespace Stream

/-! ## Writers -/

structure Sink where
  out : List UInt8
  status : Nat
  deriving DecidableEq, Repr

abbrev Writer := StateM Sink Unit

/-- A block goes to the sink, which answers with its status, unless there is an error. -/
def block (write : List UInt8 → List UInt8 → Nat) (bytes : List UInt8) : Writer :=
  modify fun s => if s.status = 0 then ⟨s.out ++ bytes, write s.out bytes⟩ else s

/-- The status is set if something is wrong. -/
def setStatusIf (c : Prop) [Decidable c] (status : Nat) : Writer :=
  modify fun s => if c then { s with status } else s

/-- If there is no error at the end, there was none before, the bytes have been written and
the checks passed. -/
def Emits (w : Writer) (bytes : List UInt8) (checks : Prop) : Prop :=
  ∀ s, (w s).2.status = 0 → s.status = 0 ∧ (w s).2.out = s.out ++ bytes ∧ checks

variable {w w₁ w₂ : Writer} {bytes bytes₁ bytes₂ : List UInt8} {p q p₁ p₂ : Prop}

theorem emits_pure : Emits (pure ()) [] True := by
  intro s hs
  exact ⟨hs, (List.append_nil _).symm, trivial⟩

theorem emits_block (write : List UInt8 → List UInt8 → Nat) (bytes : List UInt8) :
    Emits (block write bytes) bytes True := by
  intro s hs
  change (if s.status = 0 then Sink.mk (s.out ++ bytes) (write s.out bytes) else s).status = 0 at hs
  change s.status = 0 ∧
    (if s.status = 0 then Sink.mk (s.out ++ bytes) (write s.out bytes) else s).out = _ ∧ _
  by_cases hstatus : s.status = 0
  · rw [if_pos hstatus]
    exact ⟨hstatus, rfl, trivial⟩
  · rw [if_neg hstatus] at hs
    exact (hstatus hs).elim

/-- A check that sets an error. -/
theorem emits_setStatusIf (c : Prop) [Decidable c] {status : Nat} (h : status ≠ 0) :
    Emits (setStatusIf c status) [] (¬ c) := by
  intro s hs
  change (if c then { s with status } else s).status = 0 at hs
  change s.status = 0 ∧ (if c then { s with status } else s).out = s.out ++ [] ∧ ¬ c
  by_cases hc : c
  · rw [if_pos hc] at hs
    exact (h hs).elim
  · rw [if_neg hc] at hs ⊢
    exact ⟨hs, (List.append_nil _).symm, hc⟩

/-- One after the other. -/
theorem Emits.andThen (h₁ : Emits w₁ bytes₁ p₁) (h₂ : Emits w₂ bytes₂ p₂) :
    Emits (w₁ >>= fun _ => w₂) (bytes₁ ++ bytes₂) (p₁ ∧ p₂) := by
  intro s hs
  obtain ⟨hs₁, hout₂, hp₂⟩ := h₂ (w₁ s).2 hs
  obtain ⟨hs₀, hout₁, hp₁⟩ := h₁ s hs₁
  refine ⟨hs₀, ?_, hp₁, hp₂⟩
  calc (w₂ (w₁ s).2).2.out = (w₁ s).2.out ++ bytes₂ := hout₂
    _ = s.out ++ (bytes₁ ++ bytes₂) := by rw [hout₁, List.append_assoc]

theorem Emits.imp (h : Emits w bytes₁ p) (hbytes : bytes₁ = bytes₂) (hp : p → q) :
    Emits w bytes₂ q := by
  subst hbytes
  exact fun s hs => (h s hs).imp_right (And.imp_right hp)

/-- A loop writes what its turns write. -/
theorem emits_forM {α : Type} {f : α → Writer} {bytes : α → List UInt8} {p : α → Prop}
    (xs : List α) (h : ∀ x ∈ xs, Emits (f x) (bytes x) (p x)) :
    Emits (xs.forM f) (xs.flatMap bytes) (∀ x ∈ xs, p x) := by
  induction xs with
  | nil => exact emits_pure.imp rfl fun _ x hx => absurd hx List.not_mem_nil
  | cons x xs ih =>
      have hhead := h x List.mem_cons_self
      have htail := ih fun y hy => h y (List.mem_cons_of_mem x hy)
      apply (hhead.andThen htail).imp List.flatMap_cons.symm
      intro hp
      exact List.forall_mem_cons.mpr hp

/-- Whatever happens, nothing that has been written is lost. -/
def Appends (w : Writer) : Prop := ∀ s, ∃ bytes, (w s).2.out = s.out ++ bytes

theorem appends_pure : Appends (pure ()) := fun s => ⟨[], (List.append_nil s.out).symm⟩

theorem appends_block (write : List UInt8 → List UInt8 → Nat) (bytes : List UInt8) :
    Appends (block write bytes) := by
  intro s
  change ∃ bs, (if s.status = 0 then Sink.mk (s.out ++ bytes) (write s.out bytes) else s).out = _
  split
  · exact ⟨bytes, rfl⟩
  · exact ⟨[], (List.append_nil s.out).symm⟩

theorem appends_setStatusIf (c : Prop) [Decidable c] (status : Nat) :
    Appends (setStatusIf c status) := by
  intro s
  change ∃ bs, (if c then { s with status } else s).out = s.out ++ bs
  split
  · exact ⟨[], (List.append_nil s.out).symm⟩
  · exact ⟨[], (List.append_nil s.out).symm⟩

theorem Appends.andThen (h₁ : Appends w₁) (h₂ : Appends w₂) :
    Appends (w₁ >>= fun _ => w₂) := by
  intro s
  obtain ⟨bs₁, hout₁⟩ := h₁ s
  obtain ⟨bs₂, hout₂⟩ := h₂ (w₁ s).2
  refine ⟨bs₁ ++ bs₂, ?_⟩
  calc (w₂ (w₁ s).2).2.out = (w₁ s).2.out ++ bs₂ := hout₂
    _ = s.out ++ (bs₁ ++ bs₂) := by rw [hout₁, List.append_assoc]

theorem appends_forM {α : Type} {f : α → Writer} (xs : List α) (h : ∀ x ∈ xs, Appends (f x)) :
    Appends (xs.forM f) := by
  induction xs with
  | nil => exact appends_pure
  | cons x xs ih =>
      apply (h x List.mem_cons_self).andThen
      exact ih fun y hy => h y (List.mem_cons_of_mem x hy)

/-! ## Readers -/

abbrev Reader (ε : Type) := StateT (List UInt8) (Except ε)

variable {ε α β : Type}

/-- The value is read from exactly these bytes, whatever follows. -/
def Reads (r : Reader ε α) (bytes : List UInt8) (v : α) : Prop :=
  ∀ rest, r (bytes ++ rest) = .ok (v, rest)

theorem reads_pure (v : α) : Reads (pure v : Reader ε α) [] v := fun _ => rfl

theorem bind_of_ok {r : Reader ε α} {k : α → Reader ε β} {z z₁ : List UInt8} {a : α}
    (h : r z = .ok (a, z₁)) : (r >>= k) z = k a z₁ := by
  change (r z).bind (fun p => k p.1 p.2) = _
  rw [h]
  rfl

theorem bind_ok {r : Reader ε α} {k : α → Reader ε β} {z z' : List UInt8} {v : β} :
    (r >>= k) z = .ok (v, z') ↔ ∃ a z₁, r z = .ok (a, z₁) ∧ k a z₁ = .ok (v, z') := by
  change (r z).bind (fun p => k p.1 p.2) = _ ↔ _
  cases hr : r z with
  | error e =>
      constructor
      · intro h
        contradiction
      · rintro ⟨a, z₁, h, _⟩
        contradiction
  | ok p =>
      constructor
      · intro h
        exact ⟨p.1, p.2, rfl, h⟩
      · rintro ⟨a, z₁, h, hk⟩
        cases h
        exact hk

/-- One after the other. -/
theorem Reads.bind {r : Reader ε α} {k : α → Reader ε β} {a : α} {v : β}
    (hr : Reads r bytes₁ a) (hk : Reads (k a) bytes₂ v) :
    Reads (r >>= k) (bytes₁ ++ bytes₂) v := by
  intro rest
  apply bind_ok.mpr
  refine ⟨a, bytes₂ ++ rest, ?_, hk rest⟩
  rw [List.append_assoc]
  exact hr (bytes₂ ++ rest)

/-- What is made of a value after it has been read. -/
theorem Reads.andPure {r : Reader ε α} {a : α} (h : Reads r bytes a) (f : α → β) :
    Reads (r >>= fun a => pure (f a)) bytes (f a) := by
  intro rest
  exact bind_ok.mpr ⟨a, rest, h rest, rfl⟩

theorem Reads.congr {r : Reader ε α} {v v' : α} (h : Reads r bytes₁ v) (hbytes : bytes₁ = bytes₂)
    (hv : v = v') : Reads r bytes₂ v' := by
  subst hbytes hv
  exact h

/-- The given number of values, one after the other. -/
def readMany (r : Reader ε α) : Nat → Reader ε (List α)
  | 0 => pure []
  | n + 1 => do
      let v ← r
      let vs ← readMany r n
      pure (v :: vs)

/-- What a loop has written is read value by value. -/
theorem reads_many {r : Reader ε β} {enc : α → List UInt8} {dec : α → β} (xs : List α)
    (h : ∀ x ∈ xs, Reads r (enc x) (dec x)) :
    Reads (readMany r xs.length) (xs.flatMap enc) (xs.map dec) := by
  induction xs with
  | nil => exact reads_pure []
  | cons x xs ih =>
      have htail := ih fun y hy => h y (List.mem_cons_of_mem x hy)
      apply ((h x List.mem_cons_self).bind (htail.bind (reads_pure (dec x :: xs.map dec)))).congr
      · rw [List.append_nil, List.flatMap_cons]
      · rfl

/-! ## What is read at least -/

/-- Whatever value is read, as many bytes as its size says are gone. -/
def Needs (r : Reader ε α) (size : α → Nat) : Prop :=
  ∀ z v z', r z = .ok (v, z') → z'.length + size v ≤ z.length

theorem needs_pure {size : α → Nat} {v : α} (h : size v = 0) :
    Needs (pure v : Reader ε α) size := by
  intro z w z' hread
  cases hread
  rw [h]
  exact Nat.le_refl _

theorem needs_throw (e : ε) (size : α → Nat) : Needs (throw e : Reader ε α) size := by
  intro z v z' hread
  contradiction

/-- What is left to need after the first value. -/
theorem Needs.bind {r : Reader ε α} {k : α → Reader ε β} {size : α → Nat} {total : β → Nat}
    (hr : Needs r size) (hk : ∀ a, Needs (k a) fun v => total v - size a) :
    Needs (r >>= k) total := by
  intro z v z' hread
  obtain ⟨a, z₁, ha, hv⟩ := bind_ok.mp hread
  have hfirst := hr z a z₁ ha
  have hrest : z'.length + (total v - size a) ≤ z₁.length := hk a z₁ v z' hv
  omega

theorem Needs.mono {r : Reader ε α} {size size' : α → Nat} (h : Needs r size)
    (hle : ∀ v, size' v ≤ size v) : Needs r size' := by
  intro z v z' hread
  have hneeds := h z v z' hread
  have hsize := hle v
  omega

theorem needs_many {r : Reader ε α} {size : α → Nat} (h : Needs r size) (n : Nat) :
    Needs (readMany r n) fun vs => (vs.map size).sum := by
  induction n with
  | zero => exact needs_pure rfl
  | succ n ih =>
      apply h.bind
      intro v
      apply ih.bind
      intro vs
      apply needs_pure
      rw [List.map_cons, List.sum_cons]
      omega

end Stream
