import FrameMachine.Cbor.Encode
/-!
# Reading CBOR

`Item.parse?` reads exactly one well-formed item. Heads need not be in shortest
form and lengths may be indefinite, but arrays and maps hold at most 131072 elements
or pairs and nest at most 32 deep. A tag counts as a level only when it stands
directly inside another tag.
-/
namespace FrameMachine.Cbor

inductive Item where
  | unsigned (n : Nat)
  /-- The integer `-1 - n`. -/
  | negative (n : Nat)
  | bytes (content : List UInt8)
  /-- Text in the chunks it came in. -/
  | text (chunks : List (List UInt8))
  | array (items : List Item)
  | map (items : List Item)
  | tag (number : Nat) (content : Item)
  | simple (n : Nat)
  | float (bits : Nat)
  deriving Inhabited, Repr

def maxElements : Nat := 131072

def maxNesting : Nat := 32

def breakByte : UInt8 := 0xff

/-- The number of a head, or the mark of an indefinite length. -/
structure Head where
  major : Major
  info : Nat
  value : Nat
  deriving DecidableEq, Repr, Inhabited

namespace Head

def majorOf (b : UInt8) : Major :=
  match b.toNat / 32 with
  | 0 => .unsigned
  | 1 => .negative
  | 2 => .bytes
  | 3 => .text
  | 4 => .array
  | 5 => .map
  | 6 => .tag
  | _ => .other

def isIndefinite (h : Head) : Bool := h.info = 31

def mayBeIndefinite : Major → Bool
  | .bytes | .text | .array | .map => true
  | _ => false

def read : List UInt8 → Option (Head × List UInt8)
  | [] => none
  | b :: rest =>
    let major := majorOf b
    let info := b.toNat % 32
    if info < 24 then some (⟨major, info, info⟩, rest)
    else if info < 28 then do
      let (digits, rest) ← Bytes.take? (1 <<< (info - 24)) rest
      let value := Bytes.ofBigEndian digits
      -- simple values below 32 have no second form
      if major = .other ∧ info = 24 ∧ value < 32 then none
      else some (⟨major, info, value⟩, rest)
    else if info = 31 ∧ mayBeIndefinite major then some (⟨major, info, 0⟩, rest)
    else none

end Head

abbrev Reader (α : Type) := List UInt8 → Option (α × List UInt8)

def readMany {α : Type} (read : Reader α) : Nat → List α → Reader (List α)
  | 0, done, input => some (done.reverse, input)
  | n + 1, done, input =>
    match read input with
    | some (a, rest) => readMany read n (a :: done) rest
    | none => none

def readToBreak {α : Type} (read : Reader α) : (limit : Nat) → List α → Reader (List α)
  | limit, done, input =>
    if input.head? = some breakByte then some (done.reverse, input.tail)
    else match limit with
      | 0 => none
      | limit + 1 =>
        match read input with
        | some (a, rest) => readToBreak read limit (a :: done) rest
        | none => none

/-- One chunk of a string of indefinite length: a definite string of the same type. -/
def chunk (major : Major) : Reader (List UInt8) := fun input =>
  match Head.read input with
  | some (h, rest) =>
    if h.major = major ∧ h.isIndefinite = false then Bytes.take? h.value rest else none
  | none => none

def chunks (h : Head) : Reader (List (List UInt8)) := fun input =>
  if h.isIndefinite then readToBreak (chunk h.major) input.length [] input
  else (Bytes.take? h.value input).map fun (content, rest) => ([content], rest)

def elements {α : Type} (read : Reader α) (h : Head) (count limit : Nat) : Reader (List α) :=
  fun input =>
    if h.isIndefinite then readToBreak read limit [] input
    else if count ≤ limit then readMany read count [] input
    else none

namespace Item

/-- Reads one item at a nesting level; `tagged` says that it stands directly inside a tag. -/
def read : (fuel : Nat) → (level : Nat) → (tagged : Bool) → Reader Item
  | 0, _, _ => fun _ => none
  | fuel + 1, level, tagged => fun input => do
    let (h, rest) ← Head.read input
    match h.major with
    | .unsigned => some (unsigned h.value, rest)
    | .negative => some (negative h.value, rest)
    | .bytes =>
      let (parts, rest) ← chunks h rest
      some (bytes parts.flatten, rest)
    | .text =>
      let (parts, rest) ← chunks h rest
      some (text parts, rest)
    | .array =>
      if level < maxNesting then
        let (items, rest) ← elements (read fuel (level + 1) false) h h.value maxElements rest
        some (array items, rest)
      else none
    | .map =>
      if level < maxNesting then
        let (items, rest) ←
          elements (read fuel (level + 1) false) h (2 * h.value) (2 * maxElements) rest
        if items.length % 2 = 0 then some (map items, rest) else none
      else none
    | .tag =>
      let level := if tagged then level + 1 else level
      if level ≤ maxNesting then
        let (content, rest) ← read fuel level true rest
        some (tag h.value content, rest)
      else none
    | .other => some (if 25 ≤ h.info then float h.value else simple h.value, rest)

/-- Every level is one container or inner tag, with one free tag before each. -/
def fuel : Nat := 2 * maxNesting + 3

def parse? (input : List UInt8) : Option Item :=
  match read fuel 0 false input with
  | some (item, []) => some item
  | _ => none

end Item
end FrameMachine.Cbor
