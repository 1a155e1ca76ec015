import FrameMachine.Bytes
/-!
# Base 58

Bytes are read as one number, most significant first, and written with 58 letters
that are hard to mistake for each other. Every leading zero byte becomes one leading
`1`, so the text keeps the length.
-/
namespace FrameMachine.Base58

def alphabet : List Char :=
  ['1', '2', '3', '4', '5', '6', '7', '8', '9',
    'A', 'B', 'C', 'D', 'E', 'F', 'G', 'H', 'J', 'K', 'L', 'M', 'N',
    'P', 'Q', 'R', 'S', 'T', 'U', 'V', 'W', 'X', 'Y', 'Z',
    'a', 'b', 'c', 'd', 'e', 'f', 'g', 'h', 'i', 'j', 'k',
    'm', 'n', 'o', 'p', 'q', 'r', 's', 't', 'u', 'v', 'w', 'x', 'y', 'z']

def letter (digit : Nat) : Char := alphabet.getD digit '1'

def digit? (c : Char) : Option Nat := alphabet.idxOf? c

/-- The digits of a number in front of those already written; zero has none. -/
def digits (base n : Nat) (done : List Nat) : List Nat :=
  if _h : n = 0 ∨ base < 2 then done else digits base (n / base) (n % base :: done)
termination_by n
decreasing_by exact Nat.div_lt_self (by omega) (by omega)

def ofDigits (base : Nat) (ds : List Nat) : Nat := ds.foldl (fun n d => n * base + d) 0

def leadingZeros (bytes : List UInt8) : Nat := (bytes.takeWhile (· == 0)).length

def encode (bytes : List UInt8) : List Char :=
  List.replicate (leadingZeros bytes) (letter 0)
    ++ (digits 58 (Bytes.ofBigEndian bytes) []).map letter

def decode? (text : List Char) : Option (List UInt8) := do
  let ds ← text.mapM digit?
  let zeros := (ds.takeWhile (· == 0)).length
  return List.replicate zeros 0 ++ (digits 256 (ofDigits 58 ds) []).map UInt8.ofNat

end FrameMachine.Base58
