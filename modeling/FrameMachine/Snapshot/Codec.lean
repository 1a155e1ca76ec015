import FrameMachine.Base58
import FrameMachine.Blake3
import FrameMachine.Cbor.Decode
/-!
# Snapshots as bytes

The canonical encoding is a CBOR map with keys in order of length and then of bytes,
so that equal snapshots have equal encodings. A marshalled snapshot is that encoding
compressed by a codec, which is a parameter here: all that marshalling needs of it is
that reading undoes writing. The digest is the hash of the encoding itself; people see
it in base 58.
-/
namespace FrameMachine

/-- A compression of byte strings, with its reader. -/
class Codec where
  compress : List UInt8 → List UInt8
  decompress? : List UInt8 → Option (List UInt8)

namespace Codec

def RoundTrips (codec : Codec) : Prop :=
  ∀ bytes, codec.decompress? (codec.compress bytes) = some bytes

/-- Even bytes that cannot be packed at most double, up to what frames them. -/
def Bounded (codec : Codec) : Prop :=
  ∀ bytes, (codec.compress bytes).length ≤ 2 * bytes.length + 64

end Codec

abbrev Digest := Vector UInt8 32

namespace Digest

def text (d : Digest) : String := String.ofList (Base58.encode d.toList)

/-- The first 32 of the given bytes, with zeros for those that are missing. -/
def ofBytes (bytes : List UInt8) : Digest :=
  let bytes := bytes.toArray
  Vector.ofFn fun i => bytes.getD i.val 0

end Digest

namespace Registers

def encode (r : Registers) : List UInt8 :=
  Cbor.head .map 5
    ++ Cbor.text "ep" ++ Cbor.word r.ep
    ++ Cbor.text "fp" ++ Cbor.word r.fp
    ++ Cbor.text "np" ++ Cbor.word r.np
    ++ Cbor.text "pc" ++ Cbor.word r.pc
    ++ Cbor.text "sp" ++ Cbor.word r.sp

def ofItem? (item : Cbor.Item) : Option Registers := do
  let fields ← Cbor.Record.fields? ["pc", "sp", "fp", "ep", "np"] item
  let reg := fun name => Cbor.Record.get? fields name 0 Cbor.Item.word?
  return ⟨← reg "pc", ← reg "sp", ← reg "fp", ← reg "ep", ← reg "np"⟩

end Registers

namespace Snapshot

def encodeMem (mem : Option Memory) (rest : List UInt8) : List UInt8 :=
  match mem with
  | some ws => Cbor.words ws rest
  | none => Cbor.null ++ rest

def encode (s : Snapshot) : List UInt8 :=
  Cbor.head .map 2 ++ Cbor.text "mem" ++ encodeMem s.mem (Cbor.text "regs" ++ s.regs.encode)

def ofItem? (item : Cbor.Item) : Option Snapshot := do
  let fields ← Cbor.Record.fields? ["mem", "regs"] item
  let regs ← Cbor.Record.get? fields "regs" {} Registers.ofItem?
  let mem ← Cbor.Record.get? fields "mem" none Cbor.Item.words?
  return ⟨regs, mem⟩

def decode? (bytes : List UInt8) : Option Snapshot := (Cbor.Item.parse? bytes).bind ofItem?

inductive CodecError where
  | decompression
  | decoding
  deriving DecidableEq, Repr, Inhabited

def CodecError.message (detail : String) : CodecError → String
  | decompression => "cma: decompress snapshot: " ++ detail
  | decoding => "cma: unmarshal snapshot: " ++ detail

section Marshalling

variable [Codec]

def marshal (s : Snapshot) : List UInt8 := Codec.compress s.encode

def unmarshal (data : List UInt8) : Except CodecError Snapshot :=
  match Codec.decompress? data with
  | none => .error .decompression
  | some bytes =>
    match decode? bytes with
    | none => .error .decoding
    | some s => .ok s

/-- Replaces a snapshot by one read from bytes; a failure leaves it as it was. -/
def restore (receiver : Snapshot) (data : List UInt8) : Option CodecError × Snapshot :=
  match unmarshal data with
  | .ok s => (none, s)
  | .error e => (some e, receiver)

end Marshalling

def digest (s : Snapshot) : Digest := Blake3.hash s.encode

end Snapshot
end FrameMachine
