import FrameMachine.Proofs.CborItems
import FrameMachine.Proofs.Collision
import FrameMachine.Proofs.StoredFrames
/-!
# Snapshots through their bytes

Whatever codec compresses it, a snapshot comes back from its marshalled form exactly as it was, an
absent memory apart from an empty one, as long as its memory has no more words than an array may
have elements. A longer memory is written all the same, but never read.
-/
namespace FrameMachine

open Cbor

namespace Registers

def fields (r : Registers) : List Record.Field :=
  [.ofWord "ep" r.ep, .ofWord "fp" r.fp, .ofWord "np" r.np, .ofWord "pc" r.pc,
    .ofWord "sp" r.sp]

private theorem encode_eq_write (r : Registers) : r.encode = Record.write r.fields := by
  simp [encode, Record.write, fields, Record.Field.ofWord]

private theorem spells_encode (r : Registers) : Spells 1 r.encode (Record.item r.fields) := by
  have hproper : Record.Proper ["pc", "sp", "fp", "ep", "np"] := by decide +kernel
  rw [encode_eq_write]
  apply Record.spells_write hproper
  · simp [fields, Record.Field.ofWord]
  · simp [fields, Record.Field.ofWord, spells_word]
  · simp [fields, maxElements]

private theorem ofItem?_fields (r : Registers) : ofItem? (Record.item r.fields) = some r := by
  have hproper : Record.Proper ["pc", "sp", "fp", "ep", "np"] := by decide +kernel
  have hfound := Record.fields?_item r.fields hproper
    (by simp [fields, Record.Field.ofWord]) (by simp [fields, Record.Field.ofWord])
  rw [ofItem?, hfound]
  simp [fields, Record.Field.ofWord, Record.get?, List.lookup_cons, word?_ofInt]

end Registers

theorem Cbor.words_eq_append (ws : Array Word) (rest : List UInt8) :
    Cbor.words ws rest = head .array ws.toList.length ++ ws.toList.flatMap word ++ rest := by
  have hfold (l : List Word) :
      l.foldr (fun w acc => word w ++ acc) rest = l.flatMap word ++ rest := by
    induction l with
    | nil => rfl
    | cons w l ih => rw [List.foldr_cons, ih, List.flatMap_cons, List.append_assoc]
  rw [Cbor.words, ← Array.foldr_toList, hfold, Array.length_toList, List.append_assoc]

private theorem Cbor.length_head_le (major : Major) (n : Nat) : (head major n).length ≤ 9 := by
  unfold head
  repeat' split
  all_goals simp

private theorem Cbor.length_word_le (w : Word) : (word w).length ≤ 9 := by
  unfold word int
  split <;> exact length_head_le _ _

private theorem Cbor.length_words_le (ws : Array Word) (rest : List UInt8) :
    (words ws rest).length ≤ 9 + 9 * ws.size + rest.length := by
  have hflat (l : List Word) : (l.flatMap word).length ≤ 9 * l.length := by
    induction l with
    | nil => simp
    | cons w l ih =>
        have := length_word_le w
        simp only [List.flatMap_cons, List.length_append, List.length_cons]
        omega
  have hhead := length_head_le .array ws.toList.length
  have hwords := hflat ws.toList
  rw [words_eq_append]
  simp only [List.length_append, Array.length_toList] at hhead hwords ⊢
  omega

private theorem Registers.length_encode_le (r : Registers) : r.encode.length ≤ 69 := by
  have hname : ∀ name ∈ ["ep", "fp", "np", "pc", "sp"], (Cbor.text name).length = 3 := by
    decide +kernel
  simp only [List.mem_cons, List.not_mem_nil, or_false, forall_eq_or_imp, forall_eq] at hname
  have := length_head_le .map 5
  have := length_word_le r.ep
  have := length_word_le r.fp
  have := length_word_le r.np
  have := length_word_le r.pc
  have := length_word_le r.sp
  simp only [encode, List.length_append]
  omega

namespace Snapshot

def memItem : Option Memory → Item
  | some ws => .array (ws.toList.map fun w => .ofInt w.toInt)
  | none => .simple 22

def fields (s : Snapshot) : List Record.Field :=
  [⟨"mem", ⟨encodeMem s.mem [], memItem s.mem⟩⟩,
    ⟨"regs", ⟨s.regs.encode, Record.item s.regs.fields⟩⟩]

theorem encodeMem_eq_append (mem : Option Memory) (rest : List UInt8) :
    encodeMem mem rest = encodeMem mem [] ++ rest := by
  cases mem with
  | none => rfl
  | some ws => simp [encodeMem, words_eq_append]

private theorem encode_eq_write (s : Snapshot) : s.encode = Record.write s.fields := by
  rw [encode, encodeMem_eq_append]
  simp [Record.write, fields]

private theorem spells_encodeMem {mem : Option Memory} (h : ∀ ws ∈ mem, ws.size ≤ maxElements) :
    Spells 1 (encodeMem mem []) (memItem mem) := by
  cases mem with
  | none => exact spells_null.mono (Nat.zero_le 1)
  | some ws =>
      let parts := ws.toList.map fun w => (⟨word w, .ofInt w.toInt⟩ : Part)
      have hparts : ∀ part ∈ parts, Spells 0 part.bytes part.item := by
        intro part hpart
        obtain ⟨w, -, rfl⟩ := List.mem_map.mp hpart
        exact spells_word w
      have hcount : parts.length ≤ maxElements := by simpa [parts] using h ws rfl
      have hspells := spells_array hparts hcount
      simpa [parts, encodeMem, memItem, words_eq_append, List.flatMap_map, Function.comp_def]
        using hspells

private theorem words?_memItem (mem : Option Memory) : (memItem mem).words? = some mem := by
  cases mem with
  | none => rfl
  | some ws =>
      have hread (l : List Word) :
          (l.map fun w => Item.ofInt w.toInt).mapM Item.word? = some l := by
        induction l with
        | nil => rfl
        | cons w l ih => simp [word?_ofInt, ih]
      simp [memItem, Item.words?, Item.content?, Content.isNull, hread]

private theorem proper_names : Record.Proper ["mem", "regs"] := by decide +kernel

private theorem ofItem?_fields (s : Snapshot) : ofItem? (Record.item s.fields) = some s := by
  have hfound := Record.fields?_item s.fields proper_names (by simp [fields]) (by simp [fields])
  rw [ofItem?, hfound]
  simp [fields, Record.get?, List.lookup_cons, Registers.ofItem?_fields, words?_memItem]

private theorem decode?_encode {s : Snapshot} (h : ∀ ws ∈ s.mem, ws.size ≤ maxElements) :
    decode? s.encode = some s := by
  have hspells : Spells 2 s.encode (Record.item s.fields) := by
    rw [encode_eq_write]
    apply Record.spells_write proper_names
    · simp [fields]
    · simp [fields, spells_encodeMem h, s.regs.spells_encode]
    · simp [fields, maxElements]
  rw [decode?, hspells.parse? (by decide), Option.bind_some, ofItem?_fields]

private theorem decode?_encode_eq_none {s : Snapshot} {ws : Memory} (hmem : s.mem = some ws)
    (hlong : maxElements < ws.size) (hsize : ws.size < 2 ^ 64) : decode? s.encode = none := by
  have hbad : Unreadable (encodeMem s.mem []) := by
    rw [hmem, encodeMem, words_eq_append, Array.length_toList, List.append_assoc]
    exact (unreadable_array hlong hsize).append _
  have hencode : Unreadable s.encode := by
    rw [encode_eq_write]
    exact Record.unreadable_write (proper_names "mem" (by simp)).1 hbad (by simp [maxElements])
  rw [decode?, hencode.parse?, Option.bind_none]

section Marshalling

variable [codec : Codec] (roundTrips : codec.RoundTrips)

include roundTrips

theorem unmarshal_marshal (s : Snapshot) :
    unmarshal s.marshal =
      match decode? s.encode with
      | none => .error .decoding
      | some s => .ok s := by
  cases hdecode : decode? s.encode with
  | none => simp only [unmarshal, marshal, roundTrips s.encode, hdecode]
  | some t => simp only [unmarshal, marshal, roundTrips s.encode, hdecode]

theorem unmarshal_marshal_of_le {s : Snapshot} (h : ∀ ws ∈ s.mem, ws.size ≤ maxElements) :
    unmarshal s.marshal = .ok s := by
  rw [unmarshal_marshal roundTrips, decode?_encode h]

theorem restore_marshal_of_lt {s : Snapshot} {ws : Memory} (hmem : s.mem = some ws)
    (hlong : maxElements < ws.size) (hsize : ws.size < 2 ^ 63) (receiver : Snapshot) :
    receiver.restore s.marshal = (some .decoding, receiver) := by
  rw [restore, unmarshal_marshal roundTrips, decode?_encode_eq_none hmem hlong (by omega)]

end Marshalling

theorem length_encode_le (s : Snapshot) {ws : Memory} (h : s.mem = some ws) :
    s.encode.length ≤ 9 * ws.size + 96 := by
  have hmem : (text "mem").length = 4 := by decide +kernel
  have hregs : (text "regs").length = 5 := by decide +kernel
  have hhead := length_head_le .map 2
  have hwords := length_words_le ws (text "regs" ++ s.regs.encode)
  have hencode := s.regs.length_encode_le
  simp only [encode, h, encodeMem, List.length_append] at hwords ⊢
  omega

end Snapshot

/-- The default capacity of a machine is beyond what the decoder accepts, so no state of such a
machine can be restored. -/
theorem Plan.restore_of_default [codec : Codec] (roundTrips : codec.RoundTrips) {σ : Type}
    {plan : Plan σ} {code : Array Instruction} {m : Machine} (built : plan.build code = .ok m)
    (hdefault : plan.words = defaultCapacity)
    (world : σ) (calls : List Call) (receiver : Snapshot) :
    receiver.restore
        (Session.performAll plan.observers calls ⟨m, world⟩).machine.core.snapshot.marshal =
      (some .decoding, receiver) := by
  have hleads := plan.leads_of_build built world calls
  obtain ⟨-, hsize, -⟩ := hleads.path.clear (plan.clear_of_build built)
  rw [hdefault] at hsize
  have hwords : defaultCapacity.toNatClampNeg = 8388608 := by decide
  rw [hwords] at hsize
  apply Snapshot.restore_marshal_of_lt roundTrips rfl
  · rw [hsize]
    decide
  · omega

/-- With any codec whose reading undoes its writing, marshalling and restoring give back the same
snapshot, on any receiver, when the memory is absent or has at most 131072 words. With a longer
memory restoring fails and the receiver keeps its value; this is so for every state of a machine
with the default capacity. -/
theorem snapshot_survives_codec [codec : Codec] (roundTrips : codec.RoundTrips)
    (s receiver : Snapshot) (sliced : ∀ ws ∈ s.mem, ws.size < 2 ^ 63) :
    ((∀ ws ∈ s.mem, ws.size ≤ 131072) → receiver.restore s.marshal = (none, s)) ∧
    ((∃ ws ∈ s.mem, 131072 < ws.size) → receiver.restore s.marshal = (some .decoding, receiver)) ∧
    (∀ (σ : Type) (plan : Plan σ) (code : Array Instruction) (m : Machine),
      plan.build code = .ok m → plan.words = defaultCapacity → ∀ world calls,
      receiver.restore
          (Session.performAll plan.observers calls ⟨m, world⟩).machine.core.snapshot.marshal =
        (some .decoding, receiver)) := by
  refine ⟨?_, ?_, ?_⟩
  · intro hshort
    rw [Snapshot.restore, Snapshot.unmarshal_marshal_of_le roundTrips hshort]
  · rintro ⟨ws, hmem, hlong⟩
    exact Snapshot.restore_marshal_of_lt roundTrips hmem hlong (sliced ws hmem) receiver
  · intro σ plan code m built hdefault world calls
    exact plan.restore_of_default roundTrips built hdefault world calls receiver

theorem snapshot_survives_codec_extremes :
    let s : Snapshot := ⟨⟨23, 24, -25, -9223372036854775808, 9223372036854775807⟩,
      some #[65536, -65537, 4294967296, -9223372036854775808]⟩
    let absent : Snapshot := ⟨{}, none⟩
    let empty : Snapshot := ⟨{}, some #[]⟩
    let long : Snapshot := ⟨{}, some (.zeroed 131073)⟩
    let plan : Plan Unit := {}
    Zstd.stored.RoundTrips ∧
    absent.restore s.marshal = (none, s) ∧ s.restore absent.marshal = (none, absent) ∧
    absent.restore empty.marshal = (none, empty) ∧ absent ≠ empty ∧
    s.restore long.marshal = (some .decoding, s) ∧
    ∃ m, plan.build #[] = .ok m ∧
      s.restore (Session.performAll plan.observers [.step] ⟨m, ()⟩).machine.core.snapshot.marshal =
        (some .decoding, s) := by
  intro s absent empty long plan
  have hlong : ∀ ws ∈ long.mem, ws.size = 131073 := by
    rintro ws ⟨⟩
    exact Array.size_replicate
  have hlongSliced : ∀ ws ∈ long.mem, ws.size < 2 ^ 63 := by
    intro ws hws
    rw [hlong ws hws]
    decide
  have hbuilt : plan.build #[] = .ok (.initial #[] plan.words.toNatClampNeg) := by
    rw [Plan.build, if_neg (by decide)]
  have hstored := Zstd.stored_roundTrips
  refine ⟨hstored, (snapshot_survives_codec hstored s absent (by simp [s])).1 (by simp [s]),
    (snapshot_survives_codec hstored absent s (by simp [absent])).1 (by simp [absent]),
    (snapshot_survives_codec hstored empty absent (by simp [empty])).1 (by simp [empty]),
    by simp [absent, empty],
    (snapshot_survives_codec hstored long s hlongSliced).2.1 ⟨_, rfl, ?_⟩, _, hbuilt,
    (snapshot_survives_codec hstored s s (by simp [s])).2.2 Unit plan #[] _ hbuilt rfl () [.step]⟩
  rw [hlong _ rfl]
  decide

end FrameMachine
