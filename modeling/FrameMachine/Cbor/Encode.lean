import FrameMachine.Bytes
import FrameMachine.Core
/-!
# Writing CBOR

Every item starts with a head: three bits of major type and a number in the
shortest of five forms. Integers, lengths and counts all go through it.
-/
namespace FrameMachine.Cbor

inductive Major where
  | unsigned | negative | bytes | text | array | map | tag | other
  deriving DecidableEq, Repr, Inhabited

def initialByte (major : Major) (info : Nat) : UInt8 := UInt8.ofNat (32 * major.ctorIdx + info)

/-- The head of an item in its shortest form. -/
def head (major : Major) (n : Nat) : List UInt8 :=
  if n < 24 then [initialByte major n]
  else if n < 0x100 then initialByte major 24 :: Bytes.bigEndian 1 n
  else if n < 0x10000 then initialByte major 25 :: Bytes.bigEndian 2 n
  else if n < 0x100000000 then initialByte major 26 :: Bytes.bigEndian 4 n
  else initialByte major 27 :: Bytes.bigEndian 8 n

/-- A negative integer is written by its distance below minus one. -/
def int (n : Int) : List UInt8 :=
  if 0 ≤ n then head .unsigned n.toNat else head .negative (-1 - n).toNat

def word (w : Word) : List UInt8 := int w.toInt

def bytes (b : List UInt8) : List UInt8 := head .bytes b.length ++ b

def text (s : String) : List UInt8 := head .text (Bytes.ofString s).length ++ Bytes.ofString s

def null : List UInt8 := [0xf6]

def words (ws : Array Word) (rest : List UInt8) : List UInt8 :=
  head .array ws.size ++ ws.foldr (fun w acc => word w ++ acc) rest

end FrameMachine.Cbor
