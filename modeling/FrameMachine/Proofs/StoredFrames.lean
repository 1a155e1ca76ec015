import FrameMachine.Proofs.ByteStrings
import FrameMachine.Zstd
/-!
# What is compressed can be read again

A frame of stored blocks gives back the bytes it was made from, whatever they are. Blocks are
read one by one in front of those already read, so the induction is over the blocks and says
what the list of blocks flattens to.
-/
namespace FrameMachine.Zstd

private theorem blocks_stored (block : List UInt8) (isLast : Bool) (h : block.length ≤ blockSize)
    (fuel : Nat) (done : List (List UInt8)) (rest : List UInt8) :
    blocks (fuel + 1) done (storedHeader isLast block.length ++ block ++ rest) =
      if isLast then some (block :: done, rest) else blocks fuel (block :: done) rest := by
  have hfits : 8 * block.length + (if isLast then 1 else 0) < 256 ^ 3 := by
    rw [blockSize] at h
    split <;> omega
  have hheader : Bytes.take? 3 (storedHeader isLast block.length ++ (block ++ rest)) =
      some (storedHeader isLast block.length, block ++ rest) :=
    Bytes.take?_append _ (Bytes.length_littleEndian _ _) _
  have hsize : (8 * block.length + (if isLast then 1 else 0)) / 8 = block.length := by
    split <;> omega
  have htype : (8 * block.length + (if isLast then 1 else 0)) / 2 % 4 = 0 := by
    split <;> omega
  rw [blocks, List.append_assoc, hheader, storedHeader]
  simp only [Option.bind_eq_bind, Option.bind_some, Bytes.ofLittleEndian_littleEndian hfits,
    htype, hsize, Bytes.take?_append block rfl]
  cases isLast with
  | true => rw [if_pos (by simp; omega), if_pos rfl]
  | false => rw [if_neg (by simp; omega), if_neg Bool.false_ne_true]

private theorem blocks_storedBlocks (parts : List (List UInt8))
    (h : ∀ part ∈ parts, part.length ≤ blockSize) (fuel : Nat) (hfuel : parts.length < fuel)
    (done : List (List UInt8)) (rest : List UInt8) :
    ∃ read, blocks fuel done ((storedBlocks parts).flatten ++ rest) = some (read, rest) ∧
      read.reverse.flatten = done.reverse.flatten ++ parts.flatten := by
  induction parts generalizing fuel done with
  | nil =>
      obtain ⟨fuel, rfl⟩ := Nat.exists_eq_succ_of_ne_zero (Nat.ne_zero_of_lt hfuel)
      have hempty := blocks_stored [] true (Nat.zero_le _) fuel done rest
      refine ⟨[] :: done, ?_, by simp⟩
      simpa [storedBlocks] using hempty
  | cons part parts ih =>
      obtain ⟨fuel, rfl⟩ := Nat.exists_eq_succ_of_ne_zero (Nat.ne_zero_of_lt hfuel)
      obtain ⟨hpart, hparts⟩ := List.forall_mem_cons.mp h
      cases parts with
      | nil =>
          have hlast := blocks_stored part true hpart fuel done rest
          refine ⟨part :: done, ?_, by simp⟩
          simpa [storedBlocks] using hlast
      | cons next parts =>
          have hfirst := blocks_stored part false hpart fuel done
            ((storedBlocks (next :: parts)).flatten ++ rest)
          obtain ⟨read, hread, hflat⟩ := ih hparts fuel
            (by simp only [List.length_cons] at hfuel ⊢; omega) (part :: done)
          refine ⟨read, ?_, by simp [hflat]⟩
          rw [storedBlocks, List.flatten_cons, List.append_assoc, hfirst,
            if_neg Bool.false_ne_true, hread]
          nofun

private theorem length_storedBlocks (parts : List (List UInt8)) :
    (storedBlocks parts).flatten.length = 3 * max 1 parts.length + parts.flatten.length := by
  induction parts with
  | nil => simp [storedBlocks, storedHeader]
  | cons part parts ih =>
      cases parts with
      | nil => simp [storedBlocks, storedHeader]
      | cons next parts =>
          rw [storedBlocks, List.flatten_cons, List.length_append, ih]
          · simp [storedHeader]
            omega
          · nofun

private theorem header_plain (rest : List UInt8) : header (0x00 :: 0x58 :: rest) = some rest := by
  have hfirst : Bytes.take? 1 (0x00 :: 0x58 :: rest) = some ([0x00], 0x58 :: rest) :=
    Bytes.take?_append [0x00] rfl _
  have hwindow : Bytes.take? 1 (0x58 :: rest) = some ([0x58], rest) :=
    Bytes.take?_append [0x58] rfl _
  have hsize : Bytes.take? 0 rest = some ([], rest) :=
    Bytes.take?_append [] rfl _
  simp [header, hfirst, hwindow, hsize, Bytes.ofLittleEndian, contentSizeWidth, windowSize,
    maxWindow]

private theorem frames_compress (input : List UInt8) (fuel : Nat) :
    ∃ read, frames (fuel + 2) [] (compress input) = some read ∧ read.reverse.flatten = input := by
  obtain ⟨hflat, hshort, -⟩ := Bytes.portions_spec (blockSize - 1) input
  have hlength := length_storedBlocks (Bytes.portions (blockSize - 1) input)
  rw [compress, List.append_assoc]
  generalize Bytes.portions (blockSize - 1) input = parts at hflat hshort hlength ⊢
  have hmark := Bytes.take?_append magic (n := 4) rfl
    ([0x00, 0x58] ++ (storedBlocks parts).flatten)
  obtain ⟨read, hread, hbytes⟩ := blocks_storedBlocks parts hshort
    ((storedBlocks parts).flatten.length + 1) (by omega) [] []
  rw [List.append_nil] at hread
  refine ⟨read, ?_, hbytes.trans hflat⟩
  have hother : isSkippable magic = false := rfl
  rw [frames, hmark]
  simp only [hother, Bool.false_eq_true, if_false, if_true, List.cons_append, List.nil_append,
    header_plain, Option.bind_eq_bind, Option.bind_some, hread]
  rfl

theorem decompress?_compress (input : List UInt8) :
    decompress? (compress input) = some input := by
  obtain ⟨read, hread, hflat⟩ := frames_compress input (compress input).tail.length
  have hfuel : (compress input).length + 1 = (compress input).tail.length + 2 := by
    simp [compress, magic]
  rw [decompress?, hfuel, hread, Option.map_some, hflat]

theorem stored_roundTrips : stored.RoundTrips := decompress?_compress

private theorem length_compress_le (input : List UInt8) :
    (compress input).length ≤ input.length + input.length / 2 + 9 := by
  have hlength := length_storedBlocks (Bytes.portions (blockSize - 1) input)
  obtain ⟨hflat, -, hcount⟩ := Bytes.portions_spec (blockSize - 1) input
  rw [hflat] at hlength
  rw [blockSize] at hcount hlength
  rw [compress, List.length_append, blockSize, hlength]
  simp only [magic, List.length_append, List.length_cons, List.length_nil]
  omega

theorem stored_bounded : stored.Bounded := by
  intro bytes
  have hlength : (stored.compress bytes).length ≤ _ := length_compress_le bytes
  omega

end FrameMachine.Zstd
