import FrameMachine.Cbor.Item
/-!
# Values from CBOR items

Readers for the values the program stores: integers of fixed width, byte strings,
arrays of words and records with named fields. Null and undefined stand for the zero
value everywhere. Tags are looked through, except that a big number is an integer
where an integer is wanted and a byte string where bytes are wanted.
-/
namespace FrameMachine.Cbor

inductive Content where
  | plain (item : Item)
  | bignum (isNegative : Bool) (magnitude : List UInt8)
  deriving Inhabited

namespace Item

def isText : Item → Bool
  | text _ => true
  | _ => false

def isNumber : Item → Bool
  | unsigned _ | negative _ | float _ => true
  | _ => false

/-- Looks through the tags. Times must hold text or a number and big numbers must hold
bytes, directly. -/
def content? : Item → Option Content
  | tag n inner =>
    if n = 0 then if inner.isText then inner.content? else none
    else if n = 1 then if inner.isNumber then inner.content? else none
    else if n = 2 ∨ n = 3 then
      match inner with
      | bytes b => some (.bignum (n = 3) b)
      | _ => none
    else inner.content?
  | item => some (.plain item)

end Item

namespace Content

def isNull : Content → Bool
  | plain (.simple n) => n = 22 || n = 23
  | _ => false

/-- The integer, if it is one; simple values other than the truth values count as integers. -/
def int? : Content → Option Int
  | plain (.unsigned n) => some n
  | plain (.negative n) => some (-1 - n)
  | plain (.simple n) =>
    if n = 20 ∨ n = 21 then none else if n = 22 ∨ n = 23 then some 0 else some n
  | bignum isNegative magnitude =>
    let n : Int := Bytes.ofBigEndian magnitude
    some (if isNegative then -1 - n else n)
  | _ => none

end Content

namespace Item

def int? (item : Item) : Option Int := item.content?.bind Content.int?

def word? (item : Item) : Option Word := item.int?.bind Word.ofInt?

def below? (bound : Nat) (item : Item) : Option Nat :=
  item.int?.bind fun n => if 0 ≤ n ∧ n < bound then some n.toNat else none

/-- The words of an array; null is an absent array. -/
def words? (item : Item) : Option (Option (Array Word)) :=
  item.content?.bind fun c =>
    if c.isNull then some none
    else match c with
      | .plain (.array items) => (items.mapM word?).map fun ws => some ws.toArray
      | _ => none

/-- Bytes given as a byte string or as an array of small integers, of which at most
`limit` are looked at. -/
def bytesUpTo? (limit : Option Nat) (item : Item) : Option (List UInt8) :=
  item.content?.bind fun c =>
    if c.isNull then some []
    else match c with
      | .plain (.bytes b) => some b
      | .bignum _ b => some b
      | .plain (.array items) =>
        let items := match limit with
          | some n => items.take n
          | none => items
        (items.mapM (below? 256)).map (·.map UInt8.ofNat)
      | _ => none

end Item

def pairs : List Item → List (Item × Item)
  | k :: v :: rest => (k, v) :: pairs rest
  | _ => []

namespace Record

def lowerByte (b : UInt8) : UInt8 := if 65 ≤ b ∧ b ≤ 90 then b + 32 else b

/-- The field a key names; field names are in lower case and keys match in any case. -/
def fieldNamed? (names : List String) (key : List UInt8) : Option String :=
  names.find? fun name => Bytes.ofString name == key.map lowerByte

def key? (names : List String) : Item → Option (Option String)
  | .text chunks =>
    if chunks.all fun c => (Bytes.toString? c).isSome then some (fieldNamed? names chunks.flatten)
    else none
  | .unsigned _ => some none
  | .negative n => if n < 0x8000000000000000 then some none else none
  | _ => none

/-- Collects the fields of a record. The first entry for a field counts, unknown keys
are passed over. -/
def collect (names : List String) : List (Item × Item) → List (String × Item) →
    Option (List (String × Item))
  | [], found => some found
  | (k, v) :: rest, found =>
    match key? names k with
    | none => none
    | some none => collect names rest found
    | some (some name) =>
      if found.any (·.1 == name) then collect names rest found
      else collect names rest ((name, v) :: found)

def fields? (names : List String) (item : Item) : Option (List (String × Item)) :=
  item.content?.bind fun c =>
    if c.isNull then some []
    else match c with
      | .plain (.map items) => collect names (pairs items) []
      | _ => none

def get? {α : Type} (fields : List (String × Item)) (name : String) (zero : α)
    (read : Item → Option α) : Option α :=
  match fields.lookup name with
  | some item => read item
  | none => some zero

end Record
end FrameMachine.Cbor
