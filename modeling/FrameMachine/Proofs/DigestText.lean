import FrameMachine.Snapshot.Codec
import Mathlib.Data.Nat.Digits.Lemmas
import Mathlib.Tactic.Ring
/-!
# Digests as text

A number has one numeral in each base, so letters without a leading `1` and the bytes of the same
number determine each other. Zeros in front do not change a number; the text counts them apart, with
one `1` for each zero byte. Both together fix the bytes and how many there are, and no two digests
share a text.
-/
namespace FrameMachine

namespace Base58

section Numerals

variable {base : Nat} {ds : List Nat}

/-- Digits of the base, the most significant first and not zero. The number zero has no digits. -/
structure Numeral (base : Nat) (ds : List Nat) : Prop where
  lt_base : ∀ d ∈ ds, d < base
  head?_ne_zero : ds.head? ≠ some 0

private theorem digits_eq_reverse (hbase : 1 < base) (n : Nat) (done : List Nat) :
    digits base n done = (Nat.digits base n).reverse ++ done := by
  fun_induction digits base n done with
  | case1 n done h =>
      have hzero : n = 0 := by omega
      simp [hzero]
  | case2 n done h ih =>
      have hsplit : Nat.digits base n = n % base :: Nat.digits base (n / base) :=
        Nat.digits_def' hbase (by omega)
      rw [ih, hsplit, List.reverse_cons, List.append_assoc, List.singleton_append]

private theorem ofDigits_eq_reverse (base : Nat) (ds : List Nat) :
    ofDigits base ds = Nat.ofDigits base ds.reverse := by
  induction ds using List.reverseRecOn with
  | nil => rfl
  | append_singleton ds d ih =>
      rw [ofDigits, List.foldl_append, ← ofDigits, ih, List.reverse_append, List.reverse_singleton,
        List.singleton_append, Nat.ofDigits_cons, List.foldl_cons, List.foldl_nil]
      ring

private theorem ofDigits_digits (hbase : 1 < base) (n : Nat) :
    ofDigits base (digits base n []) = n := by
  rw [ofDigits_eq_reverse, digits_eq_reverse hbase, List.append_nil, List.reverse_reverse,
    Nat.ofDigits_digits]

private theorem numeral_digits (hbase : 1 < base) (n : Nat) : Numeral base (digits base n []) := by
  rw [digits_eq_reverse hbase, List.append_nil]
  constructor
  · intro d hd
    exact Nat.digits_lt_base hbase (List.mem_reverse.mp hd)
  · intro hhead
    rw [List.head?_reverse] at hhead
    have hne : Nat.digits base n ≠ [] := by
      intro hnil
      simp [hnil] at hhead
    have hlast := (List.getLast_eq_iff_getLast?_eq_some hne).mpr hhead
    exact Nat.getLast_digit_ne_zero base (Nat.digits_ne_nil_iff_ne_zero.mp hne) hlast

private theorem Numeral.digits_ofDigits (hbase : 1 < base) (h : Numeral base ds) :
    digits base (ofDigits base ds) [] = ds := by
  have hlast (hne : ds.reverse ≠ []) : ds.reverse.getLast hne ≠ 0 := by
    intro hzero
    apply h.head?_ne_zero
    rw [← List.getLast?_reverse, List.getLast?_eq_some_getLast hne, hzero]
  have hlt : ∀ d ∈ ds.reverse, d < base := fun d hd => h.lt_base d (List.mem_reverse.mp hd)
  rw [digits_eq_reverse hbase, ofDigits_eq_reverse, Nat.digits_ofDigits base hbase _ hlt hlast,
    List.reverse_reverse, List.append_nil]

private theorem ofDigits_zeros_append (base zeros : Nat) (ds : List Nat) :
    ofDigits base (List.replicate zeros 0 ++ ds) = ofDigits base ds := by
  rw [ofDigits_eq_reverse, ofDigits_eq_reverse, List.reverse_append, List.reverse_replicate,
    Nat.ofDigits_append_replicate_zero]

private theorem numeral_map_toNat {bytes : List UInt8} (h : bytes.head? ≠ some 0) :
    Numeral 256 (bytes.map UInt8.toNat) := by
  constructor
  · intro d hd
    obtain ⟨b, -, rfl⟩ := List.mem_map.mp hd
    exact b.toNat_lt
  · intro hhead
    rw [List.head?_map, Option.map_eq_some_iff] at hhead
    obtain ⟨b, hb, hzero⟩ := hhead
    have hb0 : b = 0 := UInt8.toNat_inj.mp hzero
    exact h (hb0 ▸ hb)

private theorem ofBigEndian_eq_ofDigits (bytes : List UInt8) :
    Bytes.ofBigEndian bytes = ofDigits 256 (bytes.map UInt8.toNat) := by
  rw [Bytes.ofBigEndian, ofDigits, List.foldl_map]

end Numerals

section Zeros

variable {α : Type} [DecidableEq α]

private theorem takeWhile_zeros_append {zero : α} {tail : List α} (zeros : Nat)
    (htail : tail.head? ≠ some zero) :
    (List.replicate zeros zero ++ tail).takeWhile (· == zero) = List.replicate zeros zero := by
  have hnone : tail.takeWhile (· == zero) = [] := by
    cases tail with
    | nil => rfl
    | cons a tail =>
        apply List.takeWhile_cons_of_neg
        simpa using htail
  rw [List.takeWhile_append_of_pos (by simp), hnone, List.append_nil]

private theorem exists_zeros_append (zero : α) (l : List α) :
    ∃ zeros tail, l = List.replicate zeros zero ++ tail ∧ tail.head? ≠ some zero := by
  induction l with
  | nil => exact ⟨0, [], rfl, by simp⟩
  | cons a l ih =>
      by_cases ha : a = zero
      · obtain ⟨zeros, tail, rfl, htail⟩ := ih
        exact ⟨zeros + 1, tail, by rw [ha, List.replicate_succ, List.cons_append], htail⟩
      · exact ⟨0, a :: l, rfl, by simpa using ha⟩

end Zeros

/-- Decimal digits and Latin letters in the order of their codes, without the four that are taken
for others. -/
def unmistakable : List Char :=
  ((List.range 128).map Char.ofNat).filter fun c => c.isAlphanum && c ∉ ['0', 'I', 'O', 'l']

private theorem letter_eq (d : Nat) : letter d = unmistakable.getD d '1' := by
  have halphabet : alphabet = unmistakable := by decide
  rw [letter, halphabet]

private theorem digit?_letter : ∀ d < 58, digit? (letter d) = some d := by
  decide

private theorem mapM_digit?_letter {ds : List Nat} (h : ∀ d ∈ ds, d < 58) :
    (ds.map letter).mapM digit? = some ds := by
  induction ds with
  | nil => rfl
  | cons d ds ih =>
      obtain ⟨hd, hds⟩ := List.forall_mem_cons.mp h
      simp [digit?_letter d hd, ih hds]

/-- The rules of the format: one `1` for each leading zero byte, and after these the same number on
both sides, in letters and in bytes. They are said without the functions that write and read. -/
inductive Spells : List Char → List UInt8 → Prop
  | mk (zeros : Nat) (ds : List Nat) (tail : List UInt8) (hds : Numeral 58 ds)
      (htail : Numeral 256 (tail.map UInt8.toNat))
      (hnumber : Nat.ofDigits 58 ds.reverse = Nat.ofDigits 256 (tail.map UInt8.toNat).reverse) :
      Spells (List.replicate zeros '1' ++ ds.map (unmistakable.getD · '1'))
        (List.replicate zeros 0 ++ tail)

private theorem spells_encode (bytes : List UInt8) : Spells (encode bytes) bytes := by
  obtain ⟨zeros, tail, rfl, htail⟩ := exists_zeros_append 0 bytes
  have hzeros : leadingZeros (List.replicate zeros 0 ++ tail) = zeros := by
    rw [leadingZeros, takeWhile_zeros_append zeros htail, List.length_replicate]
  have hnumber : Bytes.ofBigEndian (List.replicate zeros 0 ++ tail) =
      ofDigits 256 (tail.map UInt8.toNat) := by
    rw [ofBigEndian_eq_ofDigits, List.map_append, List.map_replicate, UInt8.toNat_zero,
      ofDigits_zeros_append]
  rw [encode, hzeros, hnumber, funext letter_eq]
  refine .mk zeros _ tail (numeral_digits (by decide) _) (numeral_map_toNat htail) ?_
  rw [← ofDigits_eq_reverse, ← ofDigits_eq_reverse, ofDigits_digits (by decide)]

example : encode [0, 0, 0x28, 0x7f, 0xb4, 0xcd] = ['1', '1', '2', '3', '3', 'Q', 'C', '4'] := by cbv

private theorem decode?_of_spells {text : List Char} {bytes : List UInt8} (h : Spells text bytes) :
    decode? text = some bytes := by
  obtain ⟨zeros, ds, tail, hds, htail, hnumber⟩ := h
  have hletters : List.replicate zeros '1' ++ ds.map (unmistakable.getD · '1') =
      (List.replicate zeros 0 ++ ds).map letter := by
    rw [List.map_append, List.map_replicate, funext letter_eq]
    rfl
  have hlt : ∀ d ∈ List.replicate zeros 0 ++ ds, d < 58 := by
    simp only [List.forall_mem_append, List.mem_replicate]
    exact ⟨by omega, hds.lt_base⟩
  have hsame : ofDigits 58 (List.replicate zeros 0 ++ ds) =
      ofDigits 256 (tail.map UInt8.toNat) := by
    rw [ofDigits_zeros_append, ofDigits_eq_reverse, hnumber, ofDigits_eq_reverse]
  have hbytes : (tail.map UInt8.toNat).map UInt8.ofNat = tail := by
    simp [Function.comp_def]
  rw [decode?, hletters, mapM_digit?_letter hlt, Option.bind_eq_bind, Option.bind_some,
    takeWhile_zeros_append zeros hds.head?_ne_zero, List.length_replicate, hsame,
    htail.digits_ofDigits (by decide), hbytes]
  rfl

private theorem Spells.unique {text : List Char} {bytes bytes' : List UInt8} (h : Spells text bytes)
    (h' : Spells text bytes') : bytes = bytes' := by
  have hread := decode?_of_spells h
  rw [decode?_of_spells h', Option.some.injEq] at hread
  exact hread.symm

end Base58

private theorem Digest.spells_text (d : Digest) : Base58.Spells d.text.toList d.toList := by
  rw [text, String.toList_ofList]
  exact Base58.spells_encode d.toList

/-- The text of a digest is read back as its 32 bytes, leading zeros included. By the rules of the
format it spells these bytes and no others, and only equal digests have the same text. -/
theorem digest_text_loses_nothing (d : Digest) :
    Base58.decode? d.text.toList = some d.toList ∧
    (∀ bytes, Base58.Spells d.text.toList bytes ↔ bytes = d.toList) ∧
    ∀ other : Digest, d.text = other.text ↔ d = other := by
  have hspells := d.spells_text
  refine ⟨Base58.decode?_of_spells hspells, ?_, ?_⟩
  · intro bytes
    constructor
    · intro h
      exact h.unique hspells
    · rintro rfl
      exact hspells
  · intro other
    constructor
    · intro htext
      have hother := other.spells_text
      rw [← htext] at hother
      exact Vector.toList_inj.mp (hspells.unique hother)
    · rintro rfl
      rfl

end FrameMachine
