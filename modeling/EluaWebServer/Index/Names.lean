import EluaWebServer.Lib.CString
import EluaWebServer.Lib.Numeral
import EluaWebServer.Vtmr.Timers
import Mathlib.Tactic.SplitIfs

/-!
# Names of resources

The `__index` metamethods of the modules `tmr`, `uart` and `pio` look for a resource that a key
names.
-/

namespace Index

open Json Decimal Numeral

/-! ## Virtual timers and UARTs -/

/-- A name, and the number of a resource after it: the identifier is `first` and the number. -/
def virtMtIndex (min max : Nat) (name : List UInt8) (first num : Nat) (key : List UInt8) :
    Option Int :=
  let key := CString.text key
  if max < key.length ∨ key.length < min then none
  else if key.take name.length ≠ name then none
  else
    let (res, pend) := strtol (key.drop name.length)
    if pend ≠ [] then none
    else if num ≤ res then none
    else some (first + res)

def MAX_VTIMER_NAME_LEN : Nat := 6
def MIN_VTIMER_NAME_LEN : Nat := 5

/-- `"VIRT"`. -/
def virtName : List UInt8 := [0x56, 0x49, 0x52, 0x54]

/-- `tmr_mt_index`. -/
def tmrMtIndex (cfg : Vtmr.Platform) (key : List UInt8) : Option Int :=
  virtMtIndex MIN_VTIMER_NAME_LEN MAX_VTIMER_NAME_LEN virtName Vtmr.VTMR_FIRST_ID
    cfg.VTMR_NUM_TIMERS key

def MAX_VUART_NAME_LEN : Nat := 6
def MIN_VUART_NAME_LEN : Nat := 6

def SERMUX_SERVICE_ID_FIRST : Nat := 0xD0

/-- `"VUART"`. -/
def vuartName : List UInt8 := [0x56, 0x55, 0x41, 0x52, 0x54]

/-- `uart_mt_index`. -/
def uartMtIndex (SERMUX_NUM_VUART : Nat) (key : List UInt8) : Option Int :=
  virtMtIndex MIN_VUART_NAME_LEN MAX_VUART_NAME_LEN vuartName SERMUX_SERVICE_ID_FIRST
    SERMUX_NUM_VUART key

/-! ## Ports and pins -/

/-- `PIO_PREFIX`: `'A'` or `'0'`. -/
inductive PioPrefix where
  | letter
  | digit
  deriving DecidableEq

/-- What the configuration of a platform says of its ports; `pins` is `PIO_PINS_PER_PORT`, or
`PIO_PIN_ARRAY`.  There are 16 virtual ports, 32 bits each, and port D of an AVR32 has 14 pins. -/
structure Board where
  PIO_PREFIX : PioPrefix
  NUM_PIO : Nat
  pins : Nat → Nat
  avr32 : Bool
  ports_le : NUM_PIO ≤ 16
  pins_le : ∀ port, pins port ≤ 32
  portD_le : avr32 = true → pins 3 ≤ 14

/-- An `int` as an `unsigned`. -/
def unsigned (n : Int) : Nat := (n % 2 ^ 32).toNat

def platformPioHasPort (b : Board) (port : Nat) : Bool := port < b.NUM_PIO

def platformPioHasPin (b : Board) (port pin : Nat) : Bool := port < b.NUM_PIO ∧ pin < b.pins port

/-- `PLATFORM_IO_ENCODE` and so on. -/
def encode (port pin : Nat) (full : Bool) : Nat :=
  port <<< 5 ||| pin ||| (if full then 1 <<< 14 else 0)

def getPort (code : Nat) : Nat := code >>> 5 &&& (1 <<< 4 - 1)

def getPin (code : Nat) : Nat := code &&& (1 <<< 5 - 1)

def isPort (code : Nat) : Bool := code &&& 1 <<< 14 ≠ 0

def isupper (b : UInt8) : Bool := 0x41 ≤ b && b ≤ 0x5A

def underscore : UInt8 := 0x5F

/-- Map PX pins 00-39 to their ports/pins in the hardware register layout. -/
def pxPin (pin : Int) : Option (Int × Int × Bool) :=
  let gpio : Option Int :=
    if pin = 0xFFFF then none
    else if pin < 0 then none
    else if pin ≤ 10 then some (100 - pin)
    else if pin ≤ 14 then some (109 - (pin - 11))
    else if pin ≤ 34 then some (89 - (pin - 15))
    else if pin ≤ 39 then some (105 - (pin - 35))
    else none
  gpio.map fun gpio => (gpio / 32, gpio % 32, false)

/-- The part for the AVR32, where some pins have names of a port X instead. -/
def avr32Name (letter : UInt8) (port pin : Int) : Option (Int × Int × Bool) :=
  if letter = 0x43 ∧ 5 < pin then none -- 'C'
  else if letter = 0x44 then none -- 'D'
  else if letter = 0x58 then pxPin pin -- 'X'
  else some (port, pin, false)

/-- PA, PB, ... -/
def letterName (b : Board) (letter : UInt8) (key : List UInt8) : Option (Int × Int × Bool) :=
  if b.PIO_PREFIX ≠ .letter then none
  else
    let port : Int := letter.toNat - 0x41
    match key with
    | [] => some (port, 0xFFFF, true)
    | c :: num =>
        if c = underscore then
          match scanD num with
          | some (pin, []) =>
              if b.avr32 then avr32Name letter port pin else some (port, pin, false)
          | _ => none
        else some (port, 0xFFFF, false)

/-- P0, P1, ... -/
def digitName (b : Board) (key : List UInt8) : Option (Int × Int × Bool) :=
  if b.PIO_PREFIX ≠ .digit then none
  else if underscore ∉ key then
    match scanD key with
    | some (port, []) => some (port, 0xFFFF, true)
    | _ => none
  else
    match scanD key with
    | some (port, c :: num) =>
        if c = underscore then
          match scanD num with
          | some (pin, []) => some (port, pin, false)
          | _ => none
        else none
    | _ => none

/-- The port and the pin of a key, and whether it is a port. -/
def parseName (b : Board) : List UInt8 → Option (Int × Int × Bool)
  | [] => none
  | p :: key =>
      if p ≠ 0x50 then none -- 'P'
      else
        match key with
        | [] => digitName b []
        | c :: rest => if isupper c then letterName b c rest else digitName b (c :: rest)

/-- `pio_mt_index`. -/
def pioMtIndex (b : Board) (key : List UInt8) : Option Nat :=
  (parseName b (CString.text key)).bind fun (port, pin, isport) =>
    if isport then
      if platformPioHasPort b (unsigned port) then some (encode (unsigned port) 0 true) else none
    else if platformPioHasPort b (unsigned port) ∧
        platformPioHasPin b (unsigned port) (unsigned pin) then
      some (encode (unsigned port) (unsigned pin) false)
    else none

/-! ## What the names mean -/

/-- A key that is a name and a numeral, of an integer. -/
def Numbered (name key : List UInt8) (n : Int) : Prop :=
  ∃ num, CString.text key = name ++ num ∧ Denotes num n

/-- A key that is the name of a port. -/
def PortName (b : Board) (key : List UInt8) (port : Int) : Prop :=
  match b.PIO_PREFIX with
  | .letter => ∃ c : UInt8, key = [0x50, c] ∧ (c.toNat : Int) = 0x41 + port
  | .digit => ∃ num, key = 0x50 :: num ∧ Denotes num port

/-- A key in which a port and a pin are written. -/
def PinName (b : Board) (key : List UInt8) (port pin : Int) : Prop :=
  match b.PIO_PREFIX with
  | .letter => ∃ (c : UInt8) (num : List UInt8), key = 0x50 :: c :: underscore :: num ∧
      (c.toNat : Int) = 0x41 + port ∧ Denotes num pin
  | .digit => ∃ num num', key = 0x50 :: (num ++ underscore :: num') ∧ Denotes num port ∧
      Denotes num' pin

/-- A key with a pin of port X, which is this pin of the hardware. -/
def PxName (b : Board) (key : List UInt8) (port pin : Int) : Prop :=
  b.avr32 = true ∧ b.PIO_PREFIX = .letter ∧ ∃ num n,
    key = 0x50 :: 0x58 :: underscore :: num ∧ Denotes num n ∧ pxPin n = some (port, pin, false)

/-- The name of a port. -/
def portName (b : Board) (port : Nat) : List UInt8 :=
  match b.PIO_PREFIX with
  | .letter => [0x50, 0x41 + UInt8.ofNat port]
  | .digit => 0x50 :: natText port

/-- The pin of port X that a pin of the hardware is. -/
def pxNumber (port pin : Nat) : Nat :=
  let gpio := 32 * port + pin
  if 106 ≤ gpio then 120 - gpio
  else if 101 ≤ gpio then 140 - gpio
  else if 90 ≤ gpio then 100 - gpio
  else 104 - gpio

/-- The name of a pin. -/
def pinName (b : Board) (port pin : Nat) : List UInt8 :=
  match b.PIO_PREFIX with
  | .letter =>
      if b.avr32 = true ∧ (port = 3 ∨ port = 2 ∧ 5 < pin) then
        0x50 :: 0x58 :: underscore :: natText (pxNumber port pin)
      else 0x50 :: (0x41 + UInt8.ofNat port) :: underscore :: natText pin
  | .digit => 0x50 :: (natText port ++ underscore :: natText pin)

/-! ## Timers and UARTs -/

variable {name key : List UInt8} {min max first num : Nat} {id : Int}

/-- **A number after a name** is what the identifier counts from the first one. -/
theorem virtMtIndex_eq_some (hmin : name.length < min)
    (h : virtMtIndex min max name first num key = some id) :
    (CString.text key).length ≤ max ∧ ∃ n, Numbered name key n ∧ clamp n < num ∧
      id = first + clamp n := by
  unfold virtMtIndex at h
  by_cases hlen : max < (CString.text key).length ∨ (CString.text key).length < min
  · simp [hlen] at h
  · by_cases hname : (CString.text key).take name.length = name
    · by_cases hpend : (strtol ((CString.text key).drop name.length)).2 = []
      · by_cases hnum : (num : Int) ≤ (strtol ((CString.text key).drop name.length)).1
        · simp [hlen, hname, hpend, hnum] at h
        · have hne : (CString.text key).drop name.length ≠ [] := by
            intro hempty
            have hlength := List.drop_eq_nil_iff.mp hempty
            omega
          obtain ⟨n, hdenotes, hres⟩ := strtol_denotes hne hpend
          have hkey : CString.text key = name ++ (CString.text key).drop name.length := by
            rw [← List.take_append_drop name.length (CString.text key), hname]
            simp
          refine ⟨by omega, n, ⟨_, hkey, hdenotes⟩, by omega, ?_⟩
          rw [← hres]
          simpa [hlen, hname, hpend, hnum] using h.symm
      · simp [hlen, hname, hpend] at h
    · simp [hlen, hname] at h

theorem zero_not_mem_natText (n : Nat) : 0 ∉ natText n := by
  intro hzero
  have hdigit := (natText_digits n).2 0 hzero
  exact absurd hdigit (by decide)

/-- The name of a resource is accepted. -/
theorem virtMtIndex_accepts {i : Nat} (hi : i < num) (hsmall : i < 2 ^ 31) (hname : 0 ∉ name)
    (hmin : min ≤ name.length + 1) (hmax : (name ++ natText i).length ≤ max) :
    virtMtIndex min max name first num (name ++ natText i) = some ((first : Int) + i) := by
  have htext : CString.text (name ++ natText i) = name ++ natText i := by
    apply CString.text_eq
    simp [hname, zero_not_mem_natText]
  have hpos : 0 < (natText i).length := List.length_pos_iff.mpr (natText_digits i).1
  have hlen : ¬ (max < (name ++ natText i).length ∨ (name ++ natText i).length < min) := by
    rw [List.length_append] at hmax ⊢
    omega
  have hnum : ¬ (num : Int) ≤ i := by omega
  simp only [virtMtIndex, htext, if_neg hlen, List.take_left', List.drop_left',
    strtol_natText hsmall]
  simp [hnum]

/-- One character is no negative number. -/
theorem denotes_single {num : List UInt8} {n : Int} (h : Denotes num n) (hlen : num.length ≤ 1) :
    0 ≤ n ∧ n < 256 := by
  obtain ⟨spaces, neg, ds, sgn, rfl, -, hsign, hds, rfl⟩ := h
  cases ds with
  | nil => exact absurd rfl hds.1
  | cons d ds =>
    simp only [List.length_append, List.length_cons] at hlen
    have hsgn : sgn = [] := List.length_eq_zero_iff.mp (by omega)
    have hnil : ds = [] := List.length_eq_zero_iff.mp (by omega)
    subst hsgn hnil
    have hneg : neg = false := by simpa using hsign
    subst hneg
    have hd := d.toNat_lt
    simp only [signed, value, List.foldl, Bool.false_eq_true, if_false]
    omega

/-- **`tmr_mt_index`**, but for negative numbers. -/
theorem tmrMtIndex_eq_some {cfg : Vtmr.Platform} (h : tmrMtIndex cfg key = some id) :
    ∃ n, Numbered virtName key n ∧ (0 ≤ n →
      id = Vtmr.VTMR_FIRST_ID + n ∧ Vtmr.VTMR_FIRST_ID ≤ id ∧
        id < Vtmr.VTMR_FIRST_ID + cfg.VTMR_NUM_TIMERS) := by
  obtain ⟨-, n, hnumbered, hlt, hid⟩ := virtMtIndex_eq_some (by decide) h
  refine ⟨n, hnumbered, ?_⟩
  intro hpos
  have hsmall := cfg.small
  have hclamp : clamp n = n := by
    unfold clamp at hlt ⊢
    omega
  rw [hclamp] at hlt hid
  omega

/-- **`uart_mt_index`** knows names with one digit only. -/
theorem uartMtIndex_eq_some {SERMUX_NUM_VUART : Nat}
    (h : uartMtIndex SERMUX_NUM_VUART key = some id) :
    ∃ n, Numbered vuartName key n ∧ id = SERMUX_SERVICE_ID_FIRST + n ∧
      SERMUX_SERVICE_ID_FIRST ≤ id ∧ id < SERMUX_SERVICE_ID_FIRST + SERMUX_NUM_VUART := by
  obtain ⟨hlen, n, ⟨num, htext, hdenotes⟩, hlt, hid⟩ := virtMtIndex_eq_some (by decide) h
  have hone : num.length ≤ 1 := by
    rw [htext, List.length_append] at hlen
    have hfive : vuartName.length = 5 := rfl
    have hsix : MAX_VUART_NAME_LEN = 6 := rfl
    omega
  obtain ⟨hpos, hsmall⟩ := denotes_single hdenotes hone
  have hclamp : clamp n = n := clamp_eq (by omega) (by omega)
  rw [hclamp] at hlt hid
  exact ⟨n, ⟨num, htext, hdenotes⟩, hid, by omega, by omega⟩

/-- A number with one digit. -/
theorem lt_of_single {i : Nat} (hlen : (vuartName ++ natText i).length ≤ MAX_VUART_NAME_LEN) :
    i < 2 ^ 31 := by
  have hpos : 0 < (natText i).length := List.length_pos_iff.mpr (natText_digits i).1
  have hfive : vuartName.length = 5 := rfl
  have hsix : MAX_VUART_NAME_LEN = 6 := rfl
  rw [List.length_append] at hlen
  obtain ⟨d, hd⟩ := List.length_eq_one_iff.mp (by omega : (natText i).length = 1)
  have hvalue := value_natText i
  have hsmall := d.toNat_lt
  rw [hd] at hvalue
  simp only [value, List.foldl] at hvalue
  omega

/-! ## Codes of ports and pins -/

/-- A port and a pin come out of the code again. -/
theorem decode_encode {port pin : Nat} (hport : port < 16) (hpin : pin < 32) (full : Bool) :
    getPort (encode port pin full) = port ∧ getPin (encode port pin full) = pin ∧
      isPort (encode port pin full) = full := by
  have hall : ∀ port < 16, ∀ pin < 32, ∀ full,
      getPort (encode port pin full) = port ∧ getPin (encode port pin full) = pin ∧
        isPort (encode port pin full) = full := by decide
  exact hall port hport pin hpin full

/-- The range of an `int`. -/
def IsInt (n : Int) : Prop := -2 ^ 31 ≤ n ∧ n < 2 ^ 31

theorem unsigned_eq {n : Int} (hn : IsInt n) (hsmall : unsigned n < 2 ^ 31) :
    (unsigned n : Int) = n := by
  obtain ⟨hle, hlt⟩ := hn
  unfold unsigned at hsmall ⊢
  omega

theorem isInt_clamp (n : Int) : IsInt (clamp n) := by
  unfold IsInt clamp
  omega

/-! ## Keys of ports and pins -/

variable {b : Board} {s : List UInt8} {port pin : Int} {isport : Bool}

/-- What a key says: a port, or a pin, or a pin that there is on no platform. -/
def Says (b : Board) (s : List UInt8) (port pin : Int) (isport : Bool) : Prop :=
  isport = true ∧ PortName b s port ∨
    isport = false ∧ (pin = 0xFFFF ∨ PinName b s port pin ∨ PxName b s port pin)

/-- An integer of `%d`, as long as it is not at the end of its range. -/
def Read (P : Int → Prop) (n : Int) : Prop := IsInt n ∧ (0 ≤ n → n < 2 ^ 31 - 1 → P n)

theorem scanD_read {num : List UInt8} {n : Int} (h : scanD num = some (n, [])) :
    Read (Denotes num) n := by
  obtain ⟨t, m, hnum, hdenotes, hn⟩ := scanD_denotes h
  rw [List.append_nil] at hnum
  refine ⟨hn ▸ isInt_clamp m, ?_⟩
  intro hle hlt
  have hclamp : clamp m = m := eq_of_clamp (by omega) (by omega)
  rw [hnum, hn, hclamp]
  exact hdenotes

/-- Port X has 40 pins, of GPIO70 to GPIO109. -/
theorem pxPin_eq_some {pin' : Int} (h : pxPin pin = some (port, pin', isport)) :
    0 ≤ pin ∧ pin ≤ 39 ∧ IsInt port ∧ IsInt pin' ∧ isport = false := by
  obtain ⟨gpio, hgpio, hpair⟩ := Option.map_eq_some_iff.mp h
  obtain ⟨hport, hrest⟩ := Prod.mk.inj hpair
  obtain ⟨hpin, hisport⟩ := Prod.mk.inj hrest
  have hrange : 0 ≤ pin ∧ pin ≤ 39 ∧ 70 ≤ gpio ∧ gpio ≤ 109 := by
    split_ifs at hgpio
    all_goals
      cases hgpio
      omega
  unfold IsInt
  refine ⟨hrange.1, hrange.2.1, ?_, ?_, hisport.symm⟩
  · omega
  · omega

theorem isupper_toNat {c : UInt8} (hc : isupper c = true) : 65 ≤ c.toNat ∧ c.toNat ≤ 90 := by
  simp only [isupper, Bool.and_eq_true, decide_eq_true_eq, UInt8.le_iff_toNat_le] at hc
  exact hc

/-- The pins of the AVR32 that are named. -/
theorem avr32Name_eq_some {c : UInt8} {num : List UInt8} {pin' port' : Int}
    (havr : b.avr32 = true) (hletter : b.PIO_PREFIX = .letter)
    (hc : (c.toNat : Int) = 0x41 + port) (hpin : Read (Denotes num) pin)
    (hport : IsInt port) (h : avr32Name c port pin = some (port', pin', isport)) :
    IsInt port' ∧ IsInt pin' ∧ ((isport = false → 0 ≤ pin' ∧ pin' < 2 ^ 31 - 1) →
      Says b (0x50 :: c :: underscore :: num) port' pin' isport) := by
  unfold avr32Name at h
  by_cases hX : c = 0x58
  · subst hX
    obtain ⟨hle, hlt, hport', hpin', hisport⟩ :=
      @pxPin_eq_some port' pin isport pin' (by simpa using h)
    refine ⟨hport', hpin', ?_⟩
    intro _
    have hnum := hpin.2 hle (by omega)
    refine .inr ⟨hisport, .inr (.inr ⟨havr, hletter, num, pin, rfl, hnum, ?_⟩)⟩
    simpa [hisport] using h
  · have hsame : port = port' ∧ pin = pin' ∧ isport = false := by
      split_ifs at h
      simpa using h
    obtain ⟨rfl, rfl, hisport⟩ := hsame
    refine ⟨hport, hpin.1, ?_⟩
    intro hrange
    obtain ⟨hle, hlt⟩ := hrange hisport
    refine .inr ⟨hisport, .inr (.inl ?_)⟩
    simp only [PinName, hletter]
    exact ⟨c, num, rfl, hc, hpin.2 hle hlt⟩

/-- **The letters.** -/
theorem letterName_eq_some {c : UInt8} (hc : isupper c = true)
    (h : letterName b c s = some (port, pin, isport)) :
    IsInt port ∧ IsInt pin ∧ ((isport = false → 0 ≤ pin ∧ pin < 2 ^ 31 - 1) →
      Says b (0x50 :: c :: s) port pin isport) := by
  have hupper := isupper_toNat hc
  have hport : IsInt ((c.toNat : Int) - 0x41) := by
    unfold IsInt
    omega
  have hcode : (c.toNat : Int) = 0x41 + ((c.toNat : Int) - 0x41) := by omega
  have hnone : IsInt 0xFFFF := ⟨by decide, by decide⟩
  unfold letterName at h
  by_cases hletter : b.PIO_PREFIX = .letter
  · cases s with
    | nil =>
      obtain ⟨rfl, rfl, rfl⟩ : (c.toNat : Int) - 0x41 = port ∧ 0xFFFF = pin ∧ true = isport := by
        simpa [hletter] using h
      refine ⟨hport, hnone, ?_⟩
      intro _
      refine .inl ⟨rfl, ?_⟩
      simp only [PortName, hletter]
      exact ⟨c, rfl, hcode⟩
    | cons u num =>
      by_cases hu : u = underscore
      · subst hu
        obtain ⟨m, hscan⟩ : ∃ m, scanD num = some (m, []) := by
          cases hscan : scanD num with
          | none => simp [hletter, hscan] at h
          | some r =>
            obtain ⟨m, rest⟩ := r
            cases rest with
            | nil => exact ⟨m, rfl⟩
            | cons x rest => simp [hletter, hscan] at h
        have hread := scanD_read hscan
        by_cases havr : b.avr32 = true
        · have hname : avr32Name c (c.toNat - 0x41) m = some (port, pin, isport) := by
            simpa [hletter, hscan, havr] using h
          exact avr32Name_eq_some havr hletter hcode hread hport hname
        · obtain ⟨rfl, rfl, rfl⟩ : (c.toNat : Int) - 0x41 = port ∧ m = pin ∧ false = isport := by
            simpa [hletter, hscan, havr] using h
          refine ⟨hport, hread.1, ?_⟩
          intro hrange
          obtain ⟨hle, hlt⟩ := hrange rfl
          refine .inr ⟨rfl, .inr (.inl ?_)⟩
          simp only [PinName, hletter]
          exact ⟨c, num, rfl, hcode, hread.2 hle hlt⟩
      · obtain ⟨rfl, rfl, rfl⟩ :
            (c.toNat : Int) - 0x41 = port ∧ 0xFFFF = pin ∧ false = isport := by
          simpa [hletter, hu] using h
        exact ⟨hport, hnone, fun _ => .inr ⟨rfl, .inl rfl⟩⟩
  · simp [hletter] at h

/-- **The digits.** -/
theorem digitName_eq_some (h : digitName b s = some (port, pin, isport)) :
    IsInt port ∧ IsInt pin ∧ (0 ≤ port → port < 2 ^ 31 - 1 →
      (isport = false → 0 ≤ pin ∧ pin < 2 ^ 31 - 1) → Says b (0x50 :: s) port pin isport) := by
  unfold digitName at h
  by_cases hdigit : b.PIO_PREFIX = .digit
  · cases hscan : scanD s with
    | none => simp [hdigit, hscan] at h
    | some r =>
      obtain ⟨m, rest⟩ := r
      obtain ⟨t, n, hs, hdenotes, hm⟩ := scanD_denotes hscan
      have hint : IsInt m := hm ▸ isInt_clamp n
      by_cases hport : underscore ∉ s
      · -- a port
        cases rest with
        | cons x rest => simp [hdigit, hscan, hport] at h
        | nil =>
          obtain ⟨rfl, rfl, rfl⟩ : m = port ∧ 0xFFFF = pin ∧ true = isport := by
            simpa [hdigit, hscan, hport] using h
          refine ⟨hint, ⟨by decide, by decide⟩, ?_⟩
          intro hle hlt _
          refine .inl ⟨rfl, ?_⟩
          simp only [PortName, hdigit]
          exact ⟨s, rfl, (scanD_read hscan).2 hle hlt⟩
      · -- a pin of a port
        cases rest with
        | nil => simp [hdigit, hscan, hport] at h
        | cons u num =>
          obtain ⟨hu, m', hscan'⟩ : u = underscore ∧ ∃ m', scanD num = some (m', []) := by
            by_cases hu : u = underscore
            · cases hscan' : scanD num with
              | none => simp [hdigit, hscan, hport, hu, hscan'] at h
              | some r =>
                obtain ⟨m', rest⟩ := r
                cases rest with
                | nil => exact ⟨hu, m', rfl⟩
                | cons x rest => simp [hdigit, hscan, hport, hu, hscan'] at h
            · simp [hdigit, hscan, hport, hu] at h
          obtain ⟨rfl, rfl, rfl⟩ : m = port ∧ m' = pin ∧ false = isport := by
            simpa [hdigit, hscan, hport, hu, hscan'] using h
          have hread := scanD_read hscan'
          refine ⟨hint, hread.1, ?_⟩
          intro hle hlt hrange
          obtain ⟨hle', hlt'⟩ := hrange rfl
          refine .inr ⟨rfl, .inr (.inl ?_)⟩
          simp only [PinName, hdigit]
          have hclamp : m = n := by
            rw [hm]
            exact eq_of_clamp (by omega) (by omega)
          exact ⟨t, num, by rw [hs, hu], hclamp ▸ hdenotes, hread.2 hle' hlt'⟩
  · simp [hdigit] at h

/-- **What a key says.** -/
theorem parseName_eq_some (h : parseName b s = some (port, pin, isport)) :
    IsInt port ∧ IsInt pin ∧ (0 ≤ port → port < 2 ^ 31 - 1 →
      (isport = false → 0 ≤ pin ∧ pin < 2 ^ 31 - 1) → Says b s port pin isport) := by
  cases s with
  | nil => cases h
  | cons p key =>
    by_cases hp : p = 0x50
    · subst hp
      cases key with
      | nil => exact digitName_eq_some (by simpa [parseName] using h)
      | cons c rest =>
        by_cases hc : isupper c = true
        · have hname : letterName b c rest = some (port, pin, isport) := by
            simpa [parseName, hc] using h
          obtain ⟨hport, hpin, hsays⟩ := letterName_eq_some hc hname
          exact ⟨hport, hpin, fun _ _ => hsays⟩
        · exact digitName_eq_some (by simpa [parseName, hc] using h)
    · simp [parseName, hp] at h

/-- What an identifier of `pio` stands for. -/
def Stands (b : Board) (key : List UInt8) (code : Nat) : Prop :=
  if isPort code then
    platformPioHasPort b (getPort code) = true ∧ PortName b (CString.text key) (getPort code)
  else
    platformPioHasPort b (getPort code) = true ∧
      platformPioHasPin b (getPort code) (getPin code) = true ∧
      (PinName b (CString.text key) (getPort code) (getPin code) ∨
        PxName b (CString.text key) (getPort code) (getPin code))

/-- **`pio_mt_index`** finds ports and pins that exist, and those that are written in the key. -/
theorem pioMtIndex_eq_some {code : Nat} (h : pioMtIndex b key = some code) :
    Stands b key code := by
  obtain ⟨⟨port, pin, isport⟩, hparse, hcode⟩ := Option.bind_eq_some_iff.mp h
  obtain ⟨hport, hpin, hsays⟩ := parseName_eq_some hparse
  have hports := b.ports_le
  cases isport with
  | true =>
    by_cases hhas : platformPioHasPort b (unsigned port) = true
    · have hlt : unsigned port < b.NUM_PIO := by simpa [platformPioHasPort] using hhas
      have hsame := unsigned_eq hport (by omega)
      obtain ⟨hdecoded, -, hfull⟩ :=
        decode_encode (Nat.lt_of_lt_of_le hlt hports) (by decide : 0 < 32) true
      obtain rfl : encode (unsigned port) 0 true = code := by simpa [hhas] using hcode
      have hname : PortName b (CString.text key) port := by
        obtain ⟨-, hname⟩ | ⟨hcontra, -⟩ := hsays (by omega) (by omega) (fun h => by cases h)
        · exact hname
        · cases hcontra
      rw [Stands, if_pos hfull, hdecoded, hsame]
      exact ⟨hhas, hname⟩
    · simp [hhas] at hcode
  | false =>
    by_cases hhas : platformPioHasPort b (unsigned port) = true ∧
        platformPioHasPin b (unsigned port) (unsigned pin) = true
    · have hlt : unsigned port < b.NUM_PIO := by simpa [platformPioHasPort] using hhas.1
      have hpinlt : unsigned pin < 32 := by
        have hexists : unsigned pin < b.pins (unsigned port) := by
          have hboth : unsigned port < b.NUM_PIO ∧ unsigned pin < b.pins (unsigned port) := by
            simpa [platformPioHasPin] using hhas.2
          exact hboth.2
        exact Nat.lt_of_lt_of_le hexists (b.pins_le _)
      have hsame := unsigned_eq hport (by omega)
      have hsame' := unsigned_eq hpin (by omega)
      obtain ⟨hdecoded, hdecoded', hfull⟩ :=
        decode_encode (Nat.lt_of_lt_of_le hlt hports) hpinlt false
      obtain rfl : encode (unsigned port) (unsigned pin) false = code := by
        simpa [hhas] using hcode
      have hname : PinName b (CString.text key) port pin ∨
          PxName b (CString.text key) port pin := by
        obtain ⟨hcontra, -⟩ | ⟨-, hnone | hname⟩ :=
          hsays (by omega) (by omega) (fun _ => by omega)
        · cases hcontra
        · omega
        · exact hname
      rw [Stands, if_neg (by rw [hfull]; exact Bool.false_ne_true), hdecoded, hdecoded', hsame,
        hsame']
      exact ⟨hhas.1, hhas.2, hname⟩
    · simp [hhas] at hcode

/-! ## Names are accepted -/

/-- The letters of the ports that there may be. -/
theorem letter_spec {port : Nat} (hport : port < 16) :
    isupper (0x41 + UInt8.ofNat port) = true ∧ 0x41 + UInt8.ofNat port ≠ 0 ∧
      (0x41 + UInt8.ofNat port).toNat = 0x41 + port ∧
      (0x41 + UInt8.ofNat port = 0x43 ↔ port = 2) ∧ (0x41 + UInt8.ofNat port = 0x44 ↔ port = 3) ∧
      0x41 + UInt8.ofNat port ≠ 0x58 := by
  have hall : ∀ port < 16, isupper (0x41 + UInt8.ofNat port) = true ∧
      0x41 + UInt8.ofNat port ≠ 0 ∧ (0x41 + UInt8.ofNat port).toNat = 0x41 + port ∧
      (0x41 + UInt8.ofNat port = 0x43 ↔ port = 2) ∧ (0x41 + UInt8.ofNat port = 0x44 ↔ port = 3) ∧
      0x41 + UInt8.ofNat port ≠ 0x58 := by decide
  exact hall port hport

theorem unsigned_natCast {n : Nat} (hn : n < 2 ^ 32) : unsigned n = n := by
  unfold unsigned
  omega

theorem scanD_natText_nil {k : Nat} (hk : k < 2 ^ 31) :
    scanD (natText k) = some ((k : Int), []) := by
  have hscan := @scanD_natText [] k hk (by simp)
  rwa [List.append_nil] at hscan

/-- Digits are no letter, and no underscore. -/
theorem natText_digit {n : Nat} {c : UInt8} (hc : c ∈ natText n) :
    isupper c = false ∧ c ≠ underscore := by
  have hdigit := (natText_digits n).2 c hc
  unfold isDigit at hdigit
  unfold isupper underscore
  grind

theorem parseName_letter {c : UInt8} (hc : isupper c = true) (rest : List UInt8) :
    parseName b (0x50 :: c :: rest) = letterName b c rest := by
  simp [parseName, hc]

theorem parseName_digit (hs : ∀ c ∈ s.head?, isupper c = false) :
    parseName b (0x50 :: s) = digitName b s := by
  cases s with
  | nil => rfl
  | cons c rest =>
    have hc := hs c rfl
    simp [parseName, hc]

theorem head_natText {n : Nat} (rest : List UInt8) :
    ∀ c ∈ (natText n ++ rest).head?, isupper c = false := by
  intro c hc
  obtain ⟨d, ds, hdigits⟩ := List.exists_cons_of_ne_nil (natText_digits n).1
  have hd : d ∈ natText n := by
    rw [hdigits]
    exact List.mem_cons_self
  obtain rfl : d = c := by simpa [hdigits] using hc
  exact (natText_digit hd).1

/-- **A port** is found under its name. -/
theorem pioMtIndex_portName {port : Nat} (hport : platformPioHasPort b port = true) :
    pioMtIndex b (portName b port) = some (encode port 0 true) := by
  have hlt : port < b.NUM_PIO := by simpa [platformPioHasPort] using hport
  have hports := b.ports_le
  have hunsigned : unsigned port = port := unsigned_natCast (by omega)
  have hparse : parseName b (CString.text (portName b port)) =
      some ((port : Int), 0xFFFF, true) := by
    cases hstyle : b.PIO_PREFIX with
    | letter =>
      obtain ⟨c, hc⟩ : ∃ c, c = 0x41 + UInt8.ofNat port := ⟨_, rfl⟩
      obtain ⟨hupper, hzero, hletter, -⟩ := letter_spec (Nat.lt_of_lt_of_le hlt hports)
      rw [← hc] at hupper hzero hletter
      have htext : CString.text (portName b port) = [0x50, c] := by
        rw [portName, hstyle, hc]
        exact CString.text_eq (by simp [← hc, hzero.symm])
      have hcode : (c.toNat : Int) - 0x41 = port := by omega
      rw [htext, parseName_letter hupper]
      simp [letterName, hstyle, hcode]
    | digit =>
      have htext : CString.text (portName b port) = 0x50 :: natText port := by
        rw [portName, hstyle]
        exact CString.text_eq (by simp [zero_not_mem_natText])
      have hunder : underscore ∉ natText port := fun h => (natText_digit h).2 rfl
      have hhead := @head_natText port []
      rw [List.append_nil] at hhead
      rw [htext, parseName_digit hhead]
      simp [digitName, hstyle, hunder, scanD_natText_nil (by omega : port < 2 ^ 31)]
  simp [pioMtIndex, hparse, hunsigned, hport]

/-- The pins of port X are those that are named so. -/
theorem pxPin_pxNumber {port pin : Nat} (h : port = 3 ∧ pin < 14 ∨ port = 2 ∧ 5 < pin ∧ pin < 32) :
    pxPin (pxNumber port pin) = some ((port : Int), (pin : Int), false) ∧
      pxNumber port pin < 2 ^ 31 := by
  have hthree : ∀ pin < 14, pxPin (pxNumber 3 pin) = some ((3 : Int), (pin : Int), false) ∧
      pxNumber 3 pin < 2 ^ 31 := by decide
  have htwo : ∀ pin < 32, 5 < pin → pxPin (pxNumber 2 pin) = some ((2 : Int), (pin : Int), false) ∧
      pxNumber 2 pin < 2 ^ 31 := by decide
  obtain ⟨rfl, hpin⟩ | ⟨rfl, hlow, hpin⟩ := h
  · exact hthree pin hpin
  · exact htwo pin hpin hlow

theorem letterName_pin {c : UInt8} {pin : Nat} (hstyle : b.PIO_PREFIX = .letter)
    (hpin : pin < 2 ^ 31) :
    letterName b c (underscore :: natText pin) =
      if b.avr32 then avr32Name c (c.toNat - 0x41) pin
      else some ((c.toNat : Int) - 0x41, (pin : Int), false) := by
  simp [letterName, hstyle, scanD_natText_nil hpin]

/-- The name of a pin of a port that has a letter. -/
theorem parseName_pinName {port pin : Nat} (hstyle : b.PIO_PREFIX = .letter)
    (hport : port < b.NUM_PIO) (hpin : pin < b.pins port) :
    parseName b (CString.text (pinName b port pin)) =
      some ((port : Int), (pin : Int), false) := by
  have hports := b.ports_le
  have hpins := b.pins_le port
  have hunder : (0 : UInt8) ≠ underscore := by decide
  by_cases hx : b.avr32 = true ∧ (port = 3 ∨ port = 2 ∧ 5 < pin)
  · -- the AVR32 has other names for these
    have hmapped : port = 3 ∧ pin < 14 ∨ port = 2 ∧ 5 < pin ∧ pin < 32 := by
      obtain ⟨havr, hthree | htwo⟩ := hx
      · have hle := b.portD_le havr
        subst hthree
        exact .inl ⟨rfl, by omega⟩
      · exact .inr ⟨htwo.1, htwo.2, by omega⟩
    obtain ⟨hpx, hsmall⟩ := pxPin_pxNumber hmapped
    have htext : CString.text (pinName b port pin) =
        0x50 :: 0x58 :: underscore :: natText (pxNumber port pin) := by
      simp only [pinName, hstyle, if_pos hx]
      exact CString.text_eq (by simp [zero_not_mem_natText, hunder])
    rw [htext, parseName_letter (by decide), letterName_pin hstyle hsmall, if_pos hx.1]
    exact hpx
  · obtain ⟨c, hc⟩ : ∃ c, c = 0x41 + UInt8.ofNat port := ⟨_, rfl⟩
    obtain ⟨hupper, hzero, hletter, hC, hD, hX⟩ := letter_spec (Nat.lt_of_lt_of_le hport hports)
    rw [← hc] at hupper hzero hletter hC hD hX
    have hcode : (c.toNat : Int) - 0x41 = port := by omega
    have htext : CString.text (pinName b port pin) =
        0x50 :: c :: underscore :: natText pin := by
      simp only [pinName, hstyle, if_neg hx, ← hc]
      exact CString.text_eq (by simp [zero_not_mem_natText, hunder, hzero.symm])
    rw [htext, parseName_letter hupper, letterName_pin hstyle (by omega), hcode]
    by_cases havr : b.avr32 = true
    · have hnotC : ¬ (c = 0x43 ∧ (5 : Int) < pin) := by
        intro h
        exact hx ⟨havr, .inr ⟨hC.mp h.1, by omega⟩⟩
      have hnotD : c ≠ 0x44 := fun h => hx ⟨havr, .inl (hD.mp h)⟩
      rw [if_pos havr, avr32Name, if_neg hnotC, if_neg hnotD, if_neg hX]
    · rw [if_neg havr]

/-- **A pin** is found under its name. -/
theorem pioMtIndex_pinName {port pin : Nat} (hpin : platformPioHasPin b port pin = true) :
    pioMtIndex b (pinName b port pin) = some (encode port pin false) := by
  obtain ⟨hlt, hpinlt⟩ : port < b.NUM_PIO ∧ pin < b.pins port := by
    simpa [platformPioHasPin] using hpin
  have hports := b.ports_le
  have hpins := b.pins_le port
  have hport : platformPioHasPort b port = true := by simpa [platformPioHasPort] using hlt
  have hunsigned : unsigned port = port := unsigned_natCast (by omega)
  have hunsigned' : unsigned pin = pin := unsigned_natCast (by omega)
  have hparse : parseName b (CString.text (pinName b port pin)) =
      some ((port : Int), (pin : Int), false) := by
    cases hstyle : b.PIO_PREFIX with
    | letter => exact parseName_pinName hstyle hlt hpinlt
    | digit =>
      have htext : CString.text (pinName b port pin) =
          0x50 :: (natText port ++ underscore :: natText pin) := by
        rw [pinName, hstyle]
        have hunder : (0 : UInt8) ≠ underscore := by decide
        exact CString.text_eq (by simp [zero_not_mem_natText, hunder])
      have hscan := @scanD_natText (underscore :: natText pin) port (by omega) (by
        intro c hc
        obtain rfl : underscore = c := by simpa using hc
        decide)
      rw [htext, parseName_digit (head_natText _)]
      simp [digitName, hstyle, hscan, scanD_natText_nil (by omega : pin < 2 ^ 31)]
  simp [pioMtIndex, hparse, hunsigned, hunsigned', hport, hpin]

/-- **Names of resources.**  An identifier is that of a resource which exists and is named in the
key, for timers if the number is not negative; and a resource is found under its name, if that is
not too long.  On an AVR32 a pin of port X stands for the pin it is mapped to. -/
theorem names_denote (cfg : Vtmr.Platform) (SERMUX_NUM_VUART : Nat) (b : Board) :
    ((∀ key id, tmrMtIndex cfg key = some id → ∃ n, Numbered virtName key n ∧ (0 ≤ n →
          id = Vtmr.VTMR_FIRST_ID + n ∧ Vtmr.VTMR_FIRST_ID ≤ id ∧
            id < Vtmr.VTMR_FIRST_ID + cfg.VTMR_NUM_TIMERS)) ∧
        ∀ i, i < cfg.VTMR_NUM_TIMERS → (virtName ++ natText i).length ≤ MAX_VTIMER_NAME_LEN →
          tmrMtIndex cfg (virtName ++ natText i) = some ((Vtmr.VTMR_FIRST_ID : Int) + i)) ∧
      ((∀ key id, uartMtIndex SERMUX_NUM_VUART key = some id → ∃ n, Numbered vuartName key n ∧
          id = SERMUX_SERVICE_ID_FIRST + n ∧ SERMUX_SERVICE_ID_FIRST ≤ id ∧
            id < SERMUX_SERVICE_ID_FIRST + SERMUX_NUM_VUART) ∧
        ∀ i, i < SERMUX_NUM_VUART → (vuartName ++ natText i).length ≤ MAX_VUART_NAME_LEN →
          uartMtIndex SERMUX_NUM_VUART (vuartName ++ natText i) =
            some ((SERMUX_SERVICE_ID_FIRST : Int) + i)) ∧
      (∀ key code, pioMtIndex b key = some code → Stands b key code) ∧
      (∀ port, platformPioHasPort b port = true →
        pioMtIndex b (portName b port) = some (encode port 0 true)) ∧
      ∀ port pin, platformPioHasPin b port pin = true →
        pioMtIndex b (pinName b port pin) = some (encode port pin false) := by
  refine ⟨⟨?_, ?_⟩, ⟨?_, ?_⟩, ?_, ?_, ?_⟩
  · intro key id h
    exact tmrMtIndex_eq_some h
  · intro i hi hlen
    have hsmall := cfg.small
    exact virtMtIndex_accepts hi (by omega) (by decide) (by decide) hlen
  · intro key id h
    exact uartMtIndex_eq_some h
  · intro i hi hlen
    exact virtMtIndex_accepts hi (lt_of_single hlen) (by decide) (by decide) hlen
  · intro key code h
    exact pioMtIndex_eq_some h
  · intro port h
    exact pioMtIndex_portName h
  · intro port pin h
    exact pioMtIndex_pinName h

/-- The ports of the EVK1100, an AVR32. -/
def evk1100 : Board where
  PIO_PREFIX := .letter
  NUM_PIO := 4
  pins port := [31, 32, 32, 14].getD port 0
  avr32 := true
  ports_le := by decide
  pins_le port := by
    by_cases hport : port < 4
    · have hall : ∀ port < 4, [31, 32, 32, 14].getD port 0 ≤ 32 := by decide
      exact hall port hport
    · simp [List.getD, List.getElem?_eq_none (by simp; omega : [31, 32, 32, 14].length ≤ port)]
  portD_le _ := by decide

/-- `"VIRT3"` is the last of four timers. -/
theorem tmrMtIndex_virt3 :
    tmrMtIndex ⟨4, 4, by decide⟩ (virtName ++ natText 3) = some ((Vtmr.VTMR_FIRST_ID : Int) + 3) :=
  (names_denote ⟨4, 4, by decide⟩ 0 evk1100).1.2 3 (by decide) (by decide)

/-- `"PX_5"` is pin 31 of port C. -/
theorem not_pinName_px :
    pioMtIndex evk1100 [0x50, 0x58, 0x5F, 0x35] = some 95 ∧ isPort 95 = false ∧
      getPort 95 = 2 ∧ getPin 95 = 31 ∧
      ¬ PinName evk1100 (CString.text [0x50, 0x58, 0x5F, 0x35]) 2 31 := by
  refine ⟨by decide, by decide, by decide, by decide, ?_⟩
  intro hname
  obtain ⟨c, num, hkey, hcode, -⟩ :
      ∃ (c : UInt8) (num : List UInt8), CString.text [0x50, 0x58, 0x5F, 0x35] =
        0x50 :: c :: underscore :: num ∧ (c.toNat : Int) = 0x41 + 2 ∧ Denotes num 31 := hname
  have hletter : (0x58 : UInt8) = c := by
    have htail : [(0x58 : UInt8), 0x5F, 0x35] = c :: underscore :: num :=
      List.tail_eq_of_cons_eq hkey
    exact List.head_eq_of_cons_eq htail
  subst hletter
  exact absurd hcode (by decide)

end Index
