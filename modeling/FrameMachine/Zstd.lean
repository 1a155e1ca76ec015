import FrameMachine.Bytes
import FrameMachine.Snapshot.Codec
/-!
# Zstandard frames of stored blocks

The codec the program runs with. It covers the part of the format that needs no entropy
coding: frames are written as stored blocks, and reading understands stored blocks and
repeated bytes, any number of frames in a row, and frames to be skipped. Entropy coded
blocks, checksums and dictionaries are refused. Fewer than four bytes where a frame
would start are ignored.
-/
namespace FrameMachine.Zstd

def magic : List UInt8 := [0x28, 0xb5, 0x2f, 0xfd]

def blockSize : Nat := 131072

def maxWindow : Nat := 0x20000000

def minWindow : Nat := 1024

def storedHeader (isLast : Bool) (size : Nat) : List UInt8 :=
  Bytes.littleEndian 3 (8 * size + if isLast then 1 else 0)

def storedBlocks : List (List UInt8) → List (List UInt8)
  | [] => [storedHeader true 0]
  | [block] => [storedHeader true block.length ++ block]
  | block :: rest => (storedHeader false block.length ++ block) :: storedBlocks rest

/-- One frame that holds the bytes in stored blocks under a window of two megabytes. -/
def compress (input : List UInt8) : List UInt8 :=
  magic ++ [0x00, 0x58] ++ (storedBlocks (Bytes.portions (blockSize - 1) input)).flatten

/-- Reads the blocks of a frame in front of those already read, newest first. -/
def blocks : (fuel : Nat) → List (List UInt8) → List UInt8 →
    Option (List (List UInt8) × List UInt8)
  | 0, _, _ => none
  | fuel + 1, done, input => do
    let (header, rest) ← Bytes.take? 3 input
    let n := Bytes.ofLittleEndian header
    let size := n / 8
    let (content, rest) ←
      match n / 2 % 4 with
      | 0 => Bytes.take? size rest
      | 1 => (Bytes.take? 1 rest).map fun (b, rest) => (List.replicate size (b.headD 0), rest)
      | _ => none
    if n % 2 = 1 then some (content :: done, rest) else blocks fuel (content :: done) rest

def windowSize (descriptor : Nat) : Nat :=
  let base := 1 <<< (10 + descriptor / 8)
  base + base / 8 * (descriptor % 8)

def contentSizeWidth (sizeFlag : Nat) (singleSegment : Bool) : Nat :=
  if sizeFlag = 0 then if singleSegment then 1 else 0 else 1 <<< sizeFlag

def header (input : List UInt8) : Option (List UInt8) := do
  let (first, rest) ← Bytes.take? 1 input
  let descriptor := Bytes.ofLittleEndian first
  let singleSegment := descriptor / 32 % 2 = 1
  -- the reserved bit, a checksum and a dictionary are refused
  if descriptor / 8 % 2 = 1 ∨ descriptor / 4 % 2 = 1 ∨ descriptor % 4 ≠ 0 then none
  let (window, rest) ← if singleSegment then some ([], rest) else Bytes.take? 1 rest
  let (size, rest) ← Bytes.take? (contentSizeWidth (descriptor / 64) singleSegment) rest
  let wanted := if singleSegment then max minWindow (Bytes.ofLittleEndian size)
    else windowSize (Bytes.ofLittleEndian window)
  if wanted ≤ maxWindow then some rest else none

/-- A frame that is to be skipped has one of sixteen magic numbers. -/
def isSkippable : List UInt8 → Bool
  | [a, b, c, d] => a &&& 0xf0 == 0x50 && b == 0x2a && c == 0x4d && d == 0x18
  | _ => false

/-- Reads frames to the end of the input; the blocks come newest first. -/
def frames : (fuel : Nat) → List (List UInt8) → List UInt8 → Option (List (List UInt8))
  | 0, _, _ => none
  | fuel + 1, done, input =>
    match Bytes.take? 4 input with
    | none => some done
    | some (mark, rest) =>
      if isSkippable mark then do
        let (size, rest) ← Bytes.take? 4 rest
        let (_, rest) ← Bytes.take? (Bytes.ofLittleEndian size) rest
        frames fuel done rest
      else if mark = magic then do
        let rest ← header rest
        let (done, rest) ← blocks (rest.length + 1) done rest
        frames fuel done rest
      else none

def decompress? (input : List UInt8) : Option (List UInt8) :=
  (frames (input.length + 1) [] input).map fun blocks => blocks.reverse.flatten

instance stored : Codec := ⟨compress, decompress?⟩

end FrameMachine.Zstd
