import FrameMachine.Machine
import FrameMachine.Zstd
/-!
# Trace stores

A trace store keeps one record for every step it was shown: the step number, the
instruction, the digest of the state it left and the marshalled state. Records are
bytes under keys that are bytes, and they are passed through in the lexicographic
order of their keys. A closed store refuses every call and keeps its records for the
next opening.
-/
namespace FrameMachine

namespace Instruction

/-- An argument of zero is left out. -/
def encode (insn : Instruction) : List UInt8 :=
  if insn.arg = 0 then Cbor.head .map 1 ++ Cbor.text "op" ++ Cbor.head .unsigned insn.opcode.toNat
  else Cbor.head .map 2 ++ Cbor.text "op" ++ Cbor.head .unsigned insn.opcode.toNat
    ++ Cbor.text "arg" ++ Cbor.word insn.arg

def ofItem? (item : Cbor.Item) : Option Instruction := do
  let fields ← Cbor.Record.fields? ["op", "arg"] item
  let op ← Cbor.Record.get? fields "op" 0 (Cbor.Item.below? 256)
  let arg ← Cbor.Record.get? fields "arg" 0 Cbor.Item.word?
  return ⟨UInt8.ofNat op, arg⟩

end Instruction

namespace TraceStore

structure Entry where
  step : UInt64 := 0
  insn : Instruction := ⟨0, 0⟩
  digest : Digest := .ofBytes []
  snap : List UInt8 := []
  deriving DecidableEq, Inhabited

namespace Entry

/-- The entry for a state; the state is kept in marshalled form. -/
def ofState [Codec] (step : UInt64) (insn : Instruction) (snap : Snapshot) : Entry :=
  ⟨step, insn, snap.digest, snap.marshal⟩

def encode (e : Entry) : List UInt8 :=
  Cbor.head .map 4
    ++ Cbor.text "step" ++ Cbor.head .unsigned e.step.toNat
    ++ Cbor.text "insn" ++ e.insn.encode
    ++ Cbor.text "digest" ++ Cbor.bytes e.digest.toList
    ++ Cbor.text "snap" ++ Cbor.bytes e.snap

def ofItem? (item : Cbor.Item) : Option Entry := do
  let fields ← Cbor.Record.fields? ["step", "insn", "digest", "snap"] item
  let step ← Cbor.Record.get? fields "step" 0 (Cbor.Item.below? 0x10000000000000000)
  let insn ← Cbor.Record.get? fields "insn" ⟨0, 0⟩ Instruction.ofItem?
  let digest ← Cbor.Record.get? fields "digest" [] (Cbor.Item.bytesUpTo? (some 32))
  let snap ← Cbor.Record.get? fields "snap" [] (Cbor.Item.bytesUpTo? none)
  return ⟨UInt64.ofNat step, insn, .ofBytes digest, snap⟩

def decode? (bytes : List UInt8) : Option Entry := (Cbor.Item.parse? bytes).bind ofItem?

def snapshot [Codec] (e : Entry) : Except Snapshot.CodecError Snapshot := Snapshot.unmarshal e.snap

end Entry

inductive ReadError where
  | closed
  | noSuchStep
  | malformedRecord
  | badSnapshot (e : Snapshot.CodecError)
  deriving DecidableEq, Repr, Inhabited

end TraceStore

/-- Records in descending order of their keys, so that a run adds at the front. -/
structure TraceStore where
  records : List (List UInt8 × List UInt8) := []
  isOpen : Bool := false
  deriving DecidableEq, Repr, Inhabited

namespace TraceStore

def key (step : UInt64) : List UInt8 := Bytes.bigEndian 8 step.toNat

/-- Adds a record or replaces the one under the same key. -/
def insert (key record : List UInt8) :
    List (List UInt8 × List UInt8) → List (List UInt8 × List UInt8)
  | [] => [(key, record)]
  | (k, r) :: rest =>
    if k < key then (key, record) :: (k, r) :: rest
    else if k = key then (key, record) :: rest
    else (k, r) :: insert key record rest

def opened (store : TraceStore) : TraceStore := { store with isOpen := true }

def closed (store : TraceStore) : TraceStore := { store with isOpen := false }

/-- Puts the bytes of a record in place without looking at them. -/
def put (store : TraceStore) (step : UInt64) (record : List UInt8) : TraceStore :=
  { store with records := insert (key step) record store.records }

def trace [Codec] (store : TraceStore) (step : UInt64) (insn : Instruction) (snap : Snapshot) :
    Option Failure × TraceStore :=
  if store.isOpen then (none, store.put step (Entry.ofState step insn snap).encode)
  else (some .storeClosed, store)

def tracer [Codec] {σ : Type} (get : σ → TraceStore) (set : TraceStore → σ → σ) : Tracer σ :=
  fun step insn snap world =>
    let (outcome, store) := (get world).trace step insn snap
    (.returned outcome, set store world)

def size (store : TraceStore) : Except ReadError Nat :=
  if store.isOpen then .ok store.records.length else .error .closed

def entry (store : TraceStore) (step : UInt64) : Except ReadError Entry :=
  if store.isOpen then
    match store.records.lookup (key step) with
    | none => .error .noSuchStep
    | some record =>
      match Entry.decode? record with
      | some e => .ok e
      | none => .error .malformedRecord
  else .error .closed

def snapshot [Codec] (store : TraceStore) (step : UInt64) : Except ReadError Snapshot := do
  let e ← store.entry step
  match e.snapshot with
  | .ok s => .ok s
  | .error err => .error (.badSnapshot err)

def digestsOf : List (List UInt8) → Array Digest → Array Digest × Option ReadError
  | [], done => (done, none)
  | record :: rest, done =>
    match Entry.decode? record with
    | some e => digestsOf rest (done.push e.digest)
    | none => (done, some .malformedRecord)

/-- The digests in ascending order of their keys, up to the first record that does not
decode. -/
def digests (store : TraceStore) : Array Digest × Option ReadError :=
  if store.isOpen then digestsOf (store.records.reverse.map (·.2)) #[]
  else (#[], some .closed)

inductive Location where
  | absent
  | missingDirectory
  | directory
  | file (content : List UInt8)
  deriving DecidableEq, Repr, Inhabited

/-- A store is created at a path that names nothing or an empty file; anything else holds no
store. -/
def openAt? : Location → Option TraceStore
  | .absent | .file [] => some ⟨[], true⟩
  | _ => none

def openMessage (path detail : String) : String := "trace: open " ++ path ++ ": " ++ detail

end TraceStore
end FrameMachine
