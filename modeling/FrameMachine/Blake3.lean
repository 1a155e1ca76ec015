import FrameMachine.Bytes
/-!
# BLAKE3

The unkeyed hash with 32 bytes of output. Input is cut into chunks of 1024 bytes and
these into blocks of 64. Chunks are leaves of a binary tree whose left subtrees are
full; joining neighbours level by level, with an odd last node moving up unchanged,
builds just that tree.
-/
namespace FrameMachine.Blake3

/-- Four lanes of the state, which is a square of sixteen words. -/
structure Row where
  a : UInt32
  b : UInt32
  c : UInt32
  d : UInt32
  deriving DecidableEq, Repr, Inhabited

namespace Row

@[inline] def add (x y : Row) : Row := ⟨x.a + y.a, x.b + y.b, x.c + y.c, x.d + y.d⟩

@[inline] def xor (x y : Row) : Row := ⟨x.a ^^^ y.a, x.b ^^^ y.b, x.c ^^^ y.c, x.d ^^^ y.d⟩

@[inline] def rotateWord (w : UInt32) (n : UInt32) : UInt32 := (w >>> n) ||| (w <<< (32 - n))

@[inline] def rotate (x : Row) (n : UInt32) : Row :=
  ⟨rotateWord x.a n, rotateWord x.b n, rotateWord x.c n, rotateWord x.d n⟩

@[inline] def shift (x : Row) : Row := ⟨x.b, x.c, x.d, x.a⟩

end Row

structure State where
  r0 : Row
  r1 : Row
  r2 : Row
  r3 : Row
  deriving DecidableEq, Repr, Inhabited

abbrev Message := Vector UInt32 16

structure Chain where
  low : Row
  high : Row
  deriving DecidableEq, Repr, Inhabited

def Chain.words (c : Chain) : Vector UInt32 8 := #v[
    c.low.a, c.low.b, c.low.c, c.low.d, c.high.a, c.high.b, c.high.c, c.high.d]

def iv : Chain :=
  ⟨⟨0x6a09e667, 0xbb67ae85, 0x3c6ef372, 0xa54ff53a⟩, ⟨0x510e527f, 0x9b05688c, 0x1f83d9ab, 0x5be0cd19⟩⟩

@[inline] def mix (s : State) (x y : Row) : State :=
  let r0 := (s.r0.add s.r1).add x
  let r3 := (s.r3.xor r0).rotate 16
  let r2 := s.r2.add r3
  let r1 := (s.r1.xor r2).rotate 12
  let r0 := (r0.add r1).add y
  let r3 := (r3.xor r0).rotate 8
  let r2 := r2.add r3
  let r1 := (r1.xor r2).rotate 7
  ⟨r0, r1, r2, r3⟩

/-- One round: the columns and then the diagonals. -/
def round (s : State) (m : Message) : State :=
  let s := mix s ⟨m[0], m[2], m[4], m[6]⟩ ⟨m[1], m[3], m[5], m[7]⟩
  let s := mix ⟨s.r0, s.r1.shift, s.r2.shift.shift, s.r3.shift.shift.shift⟩
    ⟨m[8], m[10], m[12], m[14]⟩ ⟨m[9], m[11], m[13], m[15]⟩
  ⟨s.r0, s.r1.shift.shift.shift, s.r2.shift.shift, s.r3.shift⟩

def permute (m : Message) : Message := #v[
    m[2], m[6], m[3], m[10], m[7], m[0], m[4], m[13],
    m[1], m[11], m[12], m[5], m[9], m[14], m[15], m[8]]

def rounds : Nat → State → Message → State
  | 0, s, _ => s
  | n + 1, s, m => rounds n (round s m) (permute m)

/-- The input of one compression that is still to be made. -/
structure Node where
  chain : Chain
  message : Message
  counter : UInt64
  length : UInt32
  flags : UInt32

def chunkStart : UInt32 := 1

def chunkEnd : UInt32 := 2

def parentFlag : UInt32 := 4

def rootFlag : UInt32 := 8

def Node.compress (n : Node) : Chain :=
  let s := rounds 7
    ⟨n.chain.low, n.chain.high, iv.low,
      ⟨n.counter.toUInt32, (n.counter >>> 32).toUInt32, n.length, n.flags⟩⟩ n.message
  ⟨s.r0.xor s.r2, s.r1.xor s.r3⟩

/-- The words of a block; missing bytes are zero. -/
def messageOf (block : List UInt8) : Message :=
  let bytes := block.toArray
  Vector.ofFn fun i =>
    let at4 := fun k => (bytes.getD (4 * i.val + k) 0).toUInt32
    at4 0 ||| (at4 1 <<< 8) ||| (at4 2 <<< 16) ||| (at4 3 <<< 24)

/-- Runs through the blocks of a chunk and leaves the last one to be compressed. -/
def chunkNode (counter : UInt64) (chain : Chain) (flags : UInt32) : List (List UInt8) → Node
  | [] => ⟨chain, messageOf [], counter, 0, flags ||| chunkEnd⟩
  | [block] => ⟨chain, messageOf block, counter, block.length.toUInt32, flags ||| chunkEnd⟩
  | block :: rest =>
    chunkNode counter (Node.compress ⟨chain, messageOf block, counter, 64, flags⟩) 0 rest

def parentNode (left right : Chain) : Node :=
  ⟨iv, left.words ++ right.words, 0, 64, parentFlag⟩

/-- Joins neighbouring nodes; an odd last node moves up. -/
def joinLevel : List Node → List Node
  | left :: right :: rest => parentNode left.compress right.compress :: joinLevel rest
  | rest => rest

private theorem length_joinLevel_le : (nodes : List Node) → (joinLevel nodes).length ≤ nodes.length
  | [] | [_] => by simp [joinLevel]
  | _ :: _ :: rest => by
    have := length_joinLevel_le rest
    simp [joinLevel]
    omega

def rootNode : (first : Node) → (others : List Node) → Node
  | first, [] => first
  | first, second :: rest =>
    rootNode (parentNode first.compress second.compress) (joinLevel rest)
termination_by _ others => others.length
decreasing_by
  have := length_joinLevel_le rest
  simp only [List.length_cons]
  omega

def leaves (input : List UInt8) : List Node :=
  (Bytes.portions 1023 input).mapIdx fun i chunk =>
    chunkNode (UInt64.ofNat i) iv chunkStart (Bytes.portions 63 chunk)

def root (input : List UInt8) : Node :=
  match leaves input with
  | [] => chunkNode 0 iv chunkStart []
  | first :: others => rootNode first others

def Chain.bytes (c : Chain) : Vector UInt8 32 :=
  let words := c.words
  Vector.ofFn fun i => (words[i.val / 4] >>> (8 * (i.val % 4).toUInt32)).toUInt8

def hash (input : List UInt8) : Vector UInt8 32 :=
  let node := root input
  (Node.compress { node with counter := 0, flags := node.flags ||| rootFlag }).bytes

end FrameMachine.Blake3
