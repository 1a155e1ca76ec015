import FrameMachine.Proofs.SnapshotCodec
/-!
# One encoding for each state

Written heads, words, arrays and records can be told apart from whatever follows them: two that
begin the same bytes are equal and leave the same rest. Hence the canonical encoding of a snapshot
determines the snapshot and never begins the encoding of another one, also where the memory is too
long to be read back. Two states share a digest only if the hash collides on their encodings.
-/
namespace FrameMachine

namespace Cbor

variable {rest rest' : List UInt8}

private theorem head_append_inj {major major' : Major} {n n' : Nat} (hmajor : major ≠ .other)
    (hmajor' : major' ≠ .other) (hn : n < 2 ^ 64) (hn' : n' < 2 ^ 64)
    (h : head major n ++ rest = head major' n' ++ rest') :
    major = major' ∧ n = n' ∧ rest = rest' := by
  have hread := Head.read_head major hmajor hn rest
  rw [h, Head.read_head major' hmajor' hn' rest'] at hread
  simp only [Option.some.injEq, Prod.mk.injEq, Head.mk.injEq] at hread
  obtain ⟨⟨hmajors, -, hnumbers⟩, hrests⟩ := hread
  exact ⟨hmajors.symm, hnumbers.symm, hrests.symm⟩

private theorem word_append_inj {w w' : Word} (h : word w ++ rest = word w' ++ rest') :
    w = w' ∧ rest = rest' := by
  have hread := spells_word w 1 0 false rest (by decide) (by decide)
  rw [h, spells_word w' 1 0 false rest' (by decide) (by decide)] at hread
  simp only [Option.some.injEq, Prod.mk.injEq] at hread
  obtain ⟨hitems, hrests⟩ := hread
  have hwords := word?_ofInt w
  rw [← hitems, word?_ofInt, Option.some.injEq] at hwords
  exact ⟨hwords.symm, hrests.symm⟩

/-- Words need no separators: as many words from the same bytes are the same words. -/
private theorem flatMap_word_append_inj {ws ws' : List Word} (hlength : ws.length = ws'.length)
    (h : ws.flatMap word ++ rest = ws'.flatMap word ++ rest') : ws = ws' ∧ rest = rest' := by
  induction ws generalizing ws' with
  | nil =>
      have hnil : ws' = [] := List.eq_nil_of_length_eq_zero hlength.symm
      subst hnil
      exact ⟨rfl, by simpa using h⟩
  | cons w ws ih =>
      cases ws' with
      | nil => simp at hlength
      | cons w' ws' =>
          simp only [List.flatMap_cons, List.append_assoc] at h
          obtain ⟨rfl, hmore⟩ := word_append_inj h
          obtain ⟨rfl, hrest⟩ := ih (by simpa using hlength) hmore
          exact ⟨rfl, hrest⟩

private theorem words_inj {ws ws' : Array Word} (hsize : ws.size < 2 ^ 64)
    (hsize' : ws'.size < 2 ^ 64) (h : words ws rest = words ws' rest') :
    ws = ws' ∧ rest = rest' := by
  rw [words_eq_append, words_eq_append, List.append_assoc, List.append_assoc] at h
  obtain ⟨-, hlength, hmore⟩ := head_append_inj (by decide) (by decide) hsize hsize' h
  obtain ⟨hwords, hrest⟩ := flatMap_word_append_inj hlength hmore
  exact ⟨Array.toList_inj.mp hwords, hrest⟩

/-- An absent array is told from every array, empty or not, by its first byte. -/
private theorem null_append_ne_words {ws : Array Word} (hsize : ws.size < 2 ^ 64) :
    null ++ rest ≠ words ws rest' := by
  intro h
  have hread := Head.read_head .array (by decide) hsize (ws.toList.flatMap word ++ rest')
  rw [← Array.length_toList, ← List.append_assoc, ← words_eq_append, ← h] at hread
  cases hread

end Cbor

open Cbor

private theorem Registers.encode_append_inj {r r' : Registers} {rest rest' : List UInt8}
    (h : r.encode ++ rest = r'.encode ++ rest') : r = r' ∧ rest = rest' := by
  simp only [encode, List.append_assoc, List.append_cancel_left_eq] at h
  obtain ⟨hep, h⟩ := word_append_inj h
  obtain ⟨hfp, h⟩ := word_append_inj (List.append_cancel_left h)
  obtain ⟨hnp, h⟩ := word_append_inj (List.append_cancel_left h)
  obtain ⟨hpc, h⟩ := word_append_inj (List.append_cancel_left h)
  obtain ⟨hsp, h⟩ := word_append_inj (List.append_cancel_left h)
  cases r
  cases r'
  simp_all

namespace Snapshot

variable {s t : Snapshot} {rest rest' : List UInt8}

def Sized (s : Snapshot) : Prop := ∀ ws ∈ s.mem, ws.size < 2 ^ 63

private theorem encodeMem_inj {mem mem' : Option Memory} (hsize : ∀ ws ∈ mem, ws.size < 2 ^ 63)
    (hsize' : ∀ ws ∈ mem', ws.size < 2 ^ 63) (h : encodeMem mem rest = encodeMem mem' rest') :
    mem = mem' ∧ rest = rest' := by
  have hfits {ws : Memory} (h : ws.size < 2 ^ 63) : ws.size < 2 ^ 64 := by omega
  cases mem with
  | none =>
      cases mem' with
      | none => exact ⟨rfl, List.append_cancel_left h⟩
      | some ws' => exact absurd h (null_append_ne_words (hfits (hsize' ws' rfl)))
  | some ws =>
      cases mem' with
      | none => exact absurd h.symm (null_append_ne_words (hfits (hsize ws rfl)))
      | some ws' =>
          obtain ⟨rfl, hrest⟩ := words_inj (hfits (hsize ws rfl)) (hfits (hsize' ws' rfl)) h
          exact ⟨rfl, hrest⟩

private theorem encode_append_inj (hs : s.Sized) (ht : t.Sized)
    (h : s.encode ++ rest = t.encode ++ rest') : s = t ∧ rest = rest' := by
  have hinto (mem : Option Memory) (bytes more : List UInt8) :
      encodeMem mem bytes ++ more = encodeMem mem (bytes ++ more) := by
    rw [encodeMem_eq_append, encodeMem_eq_append mem (bytes ++ more), List.append_assoc]
  simp only [encode, List.append_assoc, hinto, List.append_cancel_left_eq] at h
  obtain ⟨hmem, h⟩ := encodeMem_inj hs ht h
  obtain ⟨hregs, hrest⟩ := Registers.encode_append_inj (List.append_cancel_left h)
  cases s
  cases t
  exact ⟨by simp_all, hrest⟩

private theorem eq_of_encode_isPrefix (hs : s.Sized) (ht : t.Sized) (h : s.encode <+: t.encode) :
    s = t := by
  obtain ⟨rest, hrest⟩ := h
  have hsame : s.encode ++ rest = t.encode ++ [] := by rw [hrest, List.append_nil]
  exact (encode_append_inj hs ht hsame).1

end Snapshot

def Blake3.Collide (input other : List UInt8) : Prop := input ≠ other ∧ hash input = hash other

theorem Snapshot.digest_ne_or_collide {s t : Snapshot} (hs : s.Sized) (ht : t.Sized)
    (h : s ≠ t) :
    s.digest ≠ t.digest ∨ Blake3.Collide s.encode t.encode := by
  by_cases hdigest : s.digest = t.digest
  · refine .inr ⟨?_, hdigest⟩
    intro hencode
    exact h (eq_of_encode_isPrefix hs ht (hencode ▸ List.prefix_refl _))
  · exact .inl hdigest

/-- The bytes a digest is taken of are the same for two snapshots exactly when registers and memory
are the same, where an absent memory is not an empty one, and the bytes of one snapshot never begin
those of another. So the digests of two machine states that differ in a register, in the size of the
memory or in one of its words differ too, unless the hash collides on their encodings. -/
theorem digest_input_identifies_state (s t : Snapshot) (hs : s.Sized) (ht : t.Sized) :
    (s.encode = t.encode ↔ s.regs = t.regs ∧ s.mem = t.mem) ∧
    (s.encode <+: t.encode → s.encode = t.encode) ∧
    (t.encode <+: s.encode → t.encode = s.encode) ∧
    (s.digest = t.digest → s = t ∨ Blake3.Collide s.encode t.encode) ∧
    ∀ core other : Core, core.mem.size < 2 ^ 63 → other.mem.size < 2 ^ 63 →
      (core.regs ≠ other.regs ∨ core.mem.size ≠ other.mem.size ∨
        ∃ addr, core.mem.get? addr ≠ other.mem.get? addr) →
      core.snapshot.digest ≠ other.snapshot.digest ∨
        Blake3.Collide core.snapshot.encode other.snapshot.encode := by
  have hbegins {s t : Snapshot} (hs : s.Sized) (ht : t.Sized) (h : s.encode <+: t.encode) :
      s.encode = t.encode := by rw [Snapshot.eq_of_encode_isPrefix hs ht h]
  refine ⟨?_, hbegins hs ht, hbegins ht hs, ?_, ?_⟩
  · constructor
    · intro h
      have hsame := Snapshot.eq_of_encode_isPrefix hs ht (h ▸ List.prefix_refl _)
      exact ⟨congrArg Snapshot.regs hsame, congrArg Snapshot.mem hsame⟩
    · rintro ⟨hregs, hmem⟩
      rw [Snapshot.encode, Snapshot.encode, hregs, hmem]
  · intro hdigest
    by_cases hsame : s = t
    · exact .inl hsame
    · have hcases := Snapshot.digest_ne_or_collide hs ht hsame
      exact .inr (hcases.resolve_left (not_not_intro hdigest))
  · intro core other hcore hother hdiffer
    have hsized {c : Core} (h : c.mem.size < 2 ^ 63) : c.snapshot.Sized := by
      rintro ws ⟨⟩
      exact h
    apply Snapshot.digest_ne_or_collide (hsized hcore) (hsized hother)
    intro hsame
    have hregs : core.regs = other.regs := congrArg Snapshot.regs hsame
    have hmem : core.mem = other.mem := Option.some.inj (congrArg Snapshot.mem hsame)
    rw [hregs, hmem] at hdiffer
    simp at hdiffer

theorem digest_input_identifies_state_at_borders :
    let narrow : Snapshot := ⟨⟨23, 24, -1, -24, -25⟩, some #[255, -256]⟩
    let wide : Snapshot := ⟨⟨23, 24, -1, -24, -25⟩, some #[256, -257]⟩
    let absent : Snapshot := ⟨{}, none⟩
    let empty : Snapshot := ⟨{}, some #[]⟩
    let small : Core := .initial 1
    let large : Core := .initial 2
    (narrow.Sized ∧ wide.Sized ∧ narrow.encode ≠ wide.encode ∧ ¬ narrow.encode <+: wide.encode) ∧
    (absent.Sized ∧ empty.Sized ∧ absent.encode ≠ empty.encode ∧ ¬ empty.encode <+: absent.encode) ∧
    (small.snapshot.digest ≠ large.snapshot.digest ∨
      Blake3.Collide small.snapshot.encode large.snapshot.encode) := by
  intro narrow wide absent empty small large
  have hnarrow : narrow.Sized := by simp [narrow, Snapshot.Sized]
  have hwide : wide.Sized := by simp [wide, Snapshot.Sized]
  have habsent : absent.Sized := by simp [absent, Snapshot.Sized]
  have hempty : empty.Sized := by simp [empty, Snapshot.Sized]
  obtain ⟨hiff, hbegins, -⟩ := digest_input_identifies_state narrow wide hnarrow hwide
  obtain ⟨hiff', -, hbegins', -, hcores⟩ :=
    digest_input_identifies_state absent empty habsent hempty
  have hdiffer : narrow.encode ≠ wide.encode := fun h => by simpa [narrow, wide] using hiff.mp h
  have hdiffer' : absent.encode ≠ empty.encode := fun h => by simpa [absent, empty] using hiff'.mp h
  exact ⟨⟨hnarrow, hwide, hdiffer, fun h => hdiffer (hbegins h)⟩,
    ⟨habsent, hempty, hdiffer', fun h => hdiffer' (hbegins' h).symm⟩,
    hcores small large (by decide) (by decide) (.inl (by decide))⟩

end FrameMachine
