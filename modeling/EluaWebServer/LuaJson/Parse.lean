import EluaWebServer.LuaJson.ReadString
import Mathlib.Logic.Relation

/-!
# `JSON_parse`

The readers of values call each other.  Their fuel is for how deep the calls are, and their loops
have as many rounds as there are bytes, since each passes a comma.  The stacks of C and of Lua are
taken to be deep enough.  What the readers do depends on the text alone, but for the global `json`,
of which `readNull` takes a field.

A text is within bounds when its reading ends with a value or an error.  That is a matter of the
places that the reading comes to: where a value, a comma or an end is missing, a message is put
behind the string in the copy, and there is seldom room for it.
-/

namespace JsonParse

open Json CString

/-! ## The code -/

/-- The loop of `readArray` and that of `readObject`, over what is between commas. -/
def readItems {α : Type} (item : Ptr → Result α) : Nat → Ptr → Result (List α)
  | 0, _ => .error .running
  | m + 1, c =>
      (passwhitespace c).bind fun c =>
        (item c).bind fun (v, c) =>
          (passwhitespace c).bind fun c =>
            (deref c).bind fun b =>
              if b = valueSeparator then
                (passwhitespace c.tail).bind fun c =>
                  (readItems item m c).map fun (vs, c) => (v :: vs, c)
              else .ok ([v], c)

/-- What comes after the loop. -/
def passEnd (ending : UInt8) (msg : List UInt8) (c : Ptr) : Except Stop Ptr :=
  (passwhitespace c).bind fun c =>
    (deref c).bind fun b => if b = ending then .ok c.tail else appendError c msg

/-- What `readArray` and `readObject` have in common. -/
def readNested {α : Type} (opening ending : UInt8) (noOpening noEnding : List UInt8)
    (item : Ptr → Result α) (value : List α → Value) (c : Ptr) : Result Value :=
  (deref c).bind fun b =>
    if b ≠ opening then JSONError noOpening
    else
      (readItems item c.length c.tail).bind fun (vs, c) =>
        (passEnd ending noEnding c).map fun c => (value vs, c)

/-- The name and the value of a member. -/
def readMember (readValue : Ptr → Result Value) (c : Ptr) : Result (List UInt8 × Value) :=
  (readString c).bind fun (s, c) =>
    (passwhitespace c).bind fun c =>
      (deref c).bind fun b =>
        if b ≠ nameSeparator then JSONError (bytes "JSON readObject(2) b0rked :c.")
        else
          (passwhitespace c.tail).bind fun c => (readValue c).map fun (v, c) => ((s, v), c)

def readArray (readValue : Ptr → Result Value) : Ptr → Result Value :=
  readNested beginArray endArray (bytes "JSON readArray (1) b0rked :c.")
    (bytes "JSON readArray b0rked :c.") readValue .array

def readObject (readValue : Ptr → Result Value) : Ptr → Result Value :=
  readNested beginObject endObject (bytes "JSON readObject(1) b0rked :c.")
    (bytes "JSON readObject(3) b0rked :c.") (readMember readValue) .object

def readValue (jsonThere : Bool) : Nat → Ptr → Result Value
  | 0, _ => .error .running
  | n + 1, c =>
      (deref c).bind fun b =>
        if b = 0x66 then readFalse c
        else if b = 0x6E then readNull jsonThere c
        else if b = 0x74 then readTrue c
        else if b = beginArray then readArray (readValue jsonThere n) c
        else if b = beginObject then readObject (readValue jsonThere n) c
        else if b = minus ∨ isDigit b then readNumber c
        else if b = quotationMark then (readString c).map fun (s, c) => (.string s, c)
        else appendError c (bytes "JSON readValue b0rked :c.")

/-- `JSON_parse` of a string, with fuel for some depth. -/
def JSON_parse (jsonThere : Bool) (fuel : Nat) (s : List UInt8) : Except Stop Value :=
  (passwhitespace (s ++ [0])).bind fun c =>
    (readValue jsonThere fuel c).bind fun (v, c) =>
      (passwhitespace c).bind fun c =>
        (deref c).bind fun b =>
          if b ≠ 0 then JSONError (bytes "Something past the root value?") else .ok v

/-- **Within bounds.**  There is a value or an error, with enough fuel. -/
def Bounded (jsonThere : Bool) (s : List UInt8) : Prop :=
  ∃ n, ∀ fuel ≥ n, (∃ v, JSON_parse jsonThere fuel s = .ok v) ∨
    ∃ m, JSON_parse jsonThere fuel s = .error (.raised m)

/-! ## What is read, and where -/

/-- What has items between commas. -/
inductive Nest where
  | array
  | object

def Nest.opening : Nest → UInt8
  | .array => beginArray
  | .object => beginObject

def Nest.ending : Nest → UInt8
  | .array => endArray
  | .object => endObject

/-- The message where the end is missing. -/
def Nest.noEnding : Nest → List UInt8
  | .array => bytes "JSON readArray b0rked :c."
  | .object => bytes "JSON readObject(3) b0rked :c."

/-- What is read. -/
inductive Kind where
  | value
  | item (nest : Nest)
  | items (nest : Nest)

/-- The texts that are read, up to some rest. -/
inductive Reads (jsonThere : Bool) : Kind → Ptr → Ptr → Prop where
  | literal {word t : Ptr} (hword : word ∈ [falseText, nullText, trueText])
      (hthere : word = nullText → jsonThere = true) (hstarts : word <+: t) :
      Reads jsonThere .value t (t.drop word.length)
  | number {b : UInt8} {t rest : Ptr} (hb : b = minus ∨ isDigit b = true)
      (hrest : numberRest (b :: t) = some rest) : Reads jsonThere .value (b :: t) rest
  | string {t rest : Ptr} (hstring : ReadsString t rest) : Reads jsonThere .value t rest
  | nested {nest : Nest} {t rest : Ptr} (hitems : Reads jsonThere (.items nest) (skipWs t) rest) :
      Reads jsonThere .value (nest.opening :: t) rest
  | element {t rest : Ptr} (hvalue : Reads jsonThere .value t rest) :
      Reads jsonThere (.item .array) t rest
  | member {t colon u rest : Ptr} (hname : ReadsString t colon)
      (hcolon : skipWs colon = nameSeparator :: u)
      (hvalue : Reads jsonThere .value (skipWs u) rest) : Reads jsonThere (.item .object) t rest
  | last {nest : Nest} {t after rest : Ptr} (hitem : Reads jsonThere (.item nest) t after)
      (hending : skipWs after = nest.ending :: rest) : Reads jsonThere (.items nest) t rest
  | next {nest : Nest} {t after more rest : Ptr} (hitem : Reads jsonThere (.item nest) t after)
      (hcomma : skipWs after = valueSeparator :: more)
      (hitems : Reads jsonThere (.items nest) (skipWs more) rest) :
      Reads jsonThere (.items nest) t rest

/-- What is expected at a place in the text: a value, an item, or what comes after one. -/
inductive Place where
  | value
  | item (nest : Nest)
  | after (nest : Nest)

/-- Where the reading goes from a place. -/
inductive Step (jsonThere : Bool) : Place × Ptr → Place × Ptr → Prop where
  | enter {nest : Nest} {t : Ptr} :
      Step jsonThere (.value, nest.opening :: t) (.item nest, skipWs t)
  | element {t : Ptr} : Step jsonThere (.item .array, t) (.value, t)
  | member {t colon u : Ptr} (hname : ReadsString t colon)
      (hcolon : skipWs colon = nameSeparator :: u) :
      Step jsonThere (.item .object, t) (.value, skipWs u)
  | leave {nest : Nest} {t after : Ptr} (hitem : Reads jsonThere (.item nest) t after) :
      Step jsonThere (.item nest, t) (.after nest, skipWs after)
  | next {nest : Nest} {t : Ptr} :
      Step jsonThere (.after nest, valueSeparator :: t) (.item nest, skipWs t)

/-- Whether a value can begin with a byte. -/
def startsValue (b : UInt8) : Prop :=
  b ∈ [0x66, 0x6E, 0x74, beginArray, beginObject, minus] ∨ isDigit b = true

/-- What the text at a place has to be like: what is expected is there, or there is room for the
message that it is not, and a string fits. -/
def Fine : Place × Ptr → Prop
  | (_, []) => False
  | (.value, b :: t) =>
      if b = quotationMark then StringFits t
      else startsValue b ∨ HasRoom (b :: t) (bytes "JSON readValue b0rked :c.")
  | (.item .array, _ :: _) => True
  | (.item .object, b :: t) => b = quotationMark → StringFits t
  | (.after nest, b :: t) =>
      b = valueSeparator ∨ b = nest.ending ∨ HasRoom (b :: t) nest.noEnding

/-- The reading of the text comes to no place that is not fine. -/
def AllFine (jsonThere : Bool) (s : List UInt8) : Prop :=
  ∀ place t, Relation.ReflTransGen (Step jsonThere) (.value, skipWs (s ++ [0])) (place, t) →
    Fine (place, t)

end JsonParse
