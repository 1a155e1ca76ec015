import FrameMachine.Proofs.SnapshotCodec
import FrameMachine.TraceStore
/-!
# Trace entries through their bytes

A record reads back as the entry it was written from, also where the instruction's argument is
zero and so left out.
-/
namespace FrameMachine

open Cbor

private theorem Cbor.below?_unsigned {bound n : Nat} (h : n < bound) :
    (Item.unsigned n).below? bound = some n := by
  simp [Item.below?, Item.int?, Item.content?, Content.int?, h]

private theorem Cbor.bytesUpTo?_bytes (limit : Option Nat) (b : List UInt8) :
    (Item.bytes b).bytesUpTo? limit = some b := by
  simp [Item.bytesUpTo?, Item.content?, Content.isNull]

private theorem Digest.ofBytes_toList (d : Digest) : ofBytes d.toList = d := by
  apply Vector.ext
  intro i hi
  simp [ofBytes]

namespace Cbor.Record.Field

def ofNat (name : String) (n : Nat) : Field := ⟨name, ⟨head .unsigned n, .unsigned n⟩⟩

def ofBytes (name : String) (b : List UInt8) : Field := ⟨name, ⟨Cbor.bytes b, .bytes b⟩⟩

end Cbor.Record.Field

namespace Instruction

def fields (insn : Instruction) : List Record.Field :=
  if insn.arg = 0 then [.ofNat "op" insn.opcode.toNat]
  else [.ofNat "op" insn.opcode.toNat, .ofWord "arg" insn.arg]

private theorem encode_eq_write (insn : Instruction) : insn.encode = Record.write insn.fields := by
  unfold encode fields
  split <;> simp [Record.write, Record.Field.ofNat, Record.Field.ofWord]

private theorem proper_op_arg : Record.Proper ["op", "arg"] := by decide +kernel

private theorem spells_encode (insn : Instruction) :
    Spells 1 insn.encode (Record.item insn.fields) := by
  have hop : insn.opcode.toNat < 2 ^ 64 := by
    have := insn.opcode.toNat_lt
    omega
  rw [encode_eq_write]
  apply Record.spells_write proper_op_arg
  all_goals
    unfold fields
    split <;>
      simp [Record.Field.ofNat, Record.Field.ofWord, spells_unsigned hop, spells_word, maxElements]

private theorem ofItem?_fields (insn : Instruction) :
    ofItem? (Record.item insn.fields) = some insn := by
  have hop : insn.opcode.toNat < 256 := insn.opcode.toNat_lt
  have hfound := Record.fields?_item insn.fields proper_op_arg
    (by unfold fields; split <;> simp [Record.Field.ofNat, Record.Field.ofWord])
    (by unfold fields; split <;> simp [Record.Field.ofNat, Record.Field.ofWord])
  rw [ofItem?, hfound]
  unfold fields
  split
  · rename_i hzero
    simp [Record.Field.ofNat, Record.get?, List.lookup_cons, below?_unsigned hop, ← hzero]
  · simp [Record.Field.ofNat, Record.Field.ofWord, Record.get?, List.lookup_cons,
      below?_unsigned hop, word?_ofInt]

end Instruction

namespace TraceStore.Entry

def fields (e : Entry) : List Record.Field :=
  [.ofNat "step" e.step.toNat, ⟨"insn", ⟨e.insn.encode, Record.item e.insn.fields⟩⟩,
    .ofBytes "digest" e.digest.toList, .ofBytes "snap" e.snap]

private theorem encode_eq_write (e : Entry) : e.encode = Record.write e.fields := by
  simp [encode, Record.write, fields, Record.Field.ofNat, Record.Field.ofBytes]

private theorem proper_entry : Record.Proper ["step", "insn", "digest", "snap"] := by
  decide +kernel

private theorem spells_encode {e : Entry} (h : e.snap.length < 2 ^ 64) :
    Spells 2 e.encode (Record.item e.fields) := by
  have hstep := spells_unsigned e.step.toNat_lt
  have hdigest : Spells 0 (Cbor.bytes e.digest.toList) (.bytes e.digest.toList) :=
    spells_bytes (by simp)
  rw [encode_eq_write]
  apply Record.spells_write proper_entry
  · simp [fields, Record.Field.ofNat, Record.Field.ofBytes]
  · simp [fields, Record.Field.ofNat, Record.Field.ofBytes, hstep.mono, hdigest.mono,
      (spells_bytes h).mono, e.insn.spells_encode]
  · simp [fields, maxElements]

private theorem ofItem?_fields (e : Entry) : ofItem? (Record.item e.fields) = some e := by
  have hstep : e.step.toNat < 0x10000000000000000 := by simpa using e.step.toNat_lt
  have hfound := Record.fields?_item e.fields proper_entry
    (by simp [fields, Record.Field.ofNat, Record.Field.ofBytes])
    (by simp [fields, Record.Field.ofNat, Record.Field.ofBytes])
  rw [ofItem?, hfound, Option.bind_eq_bind, Option.bind_some]
  simp [fields, Record.Field.ofNat, Record.Field.ofBytes, Record.get?, List.lookup_cons,
    below?_unsigned hstep, Instruction.ofItem?_fields, bytesUpTo?_bytes, Digest.ofBytes_toList]

theorem decode?_encode {e : Entry} (h : e.snap.length < 2 ^ 64) : decode? e.encode = some e := by
  rw [decode?, (spells_encode h).parse? (by decide), Option.bind_some, ofItem?_fields]

end TraceStore.Entry
end FrameMachine
