import FrameMachine.Bytes
import Mathlib.Tactic.Ring
/-!
# Laws of byte strings

A number survives being written in either order as long as it fits its width, and the bytes
with the most significant one first compare as the numbers do. Cutting into portions loses
nothing.
-/
namespace FrameMachine.Bytes

theorem take?_append (front : List UInt8) {n : Nat} (h : front.length = n)
    (rest : List UInt8) : take? n (front ++ rest) = some (front, rest) := by
  subst h
  simp [take?, List.splitAt_eq]

private theorem toNat_shifted (width n : Nat) :
    (UInt8.ofNat (n >>> (8 * width))).toNat = n / 256 ^ width % 256 := by
  rw [UInt8.toNat_ofNat', Nat.shiftRight_eq_div_pow, Nat.pow_mul]

private theorem foldl_bigEndian (width n done : Nat) :
    (bigEndian width n).foldl (fun n b => n * 256 + b.toNat) done =
      done * 256 ^ width + n % 256 ^ width := by
  induction width generalizing done with
  | zero => simp [bigEndian, Nat.mod_one]
  | succ width ih =>
      rw [bigEndian, List.foldl_cons, ih, toNat_shifted, Nat.pow_succ, Nat.mod_mul]
      ring

theorem ofBigEndian_bigEndian {width n : Nat} (h : n < 256 ^ width) :
    ofBigEndian (bigEndian width n) = n := by
  rw [ofBigEndian, foldl_bigEndian, Nat.zero_mul, Nat.zero_add, Nat.mod_eq_of_lt h]

theorem ofLittleEndian_littleEndian {width n : Nat} (h : n < 256 ^ width) :
    ofLittleEndian (littleEndian width n) = n := by
  induction width generalizing n with
  | zero =>
      have : n = 0 := by simpa using h
      simp [littleEndian, ofLittleEndian, this]
  | succ width ih =>
      have hrest : n / 256 < 256 ^ width := by
        rw [Nat.div_lt_iff_lt_mul (by decide)]
        rwa [Nat.pow_succ] at h
      have hlow := ih hrest
      rw [ofLittleEndian] at hlow
      rw [littleEndian, ofLittleEndian, List.foldr_cons, hlow, UInt8.toNat_ofNat']
      omega

/-- The first byte decides unless both agree on it, so the order is that of the quotients and
then of the remainders. -/
private theorem bigEndian_lt_iff_mod (width a b : Nat) :
    bigEndian width a < bigEndian width b ↔ a % 256 ^ width < b % 256 ^ width := by
  induction width with
  | zero => simp [bigEndian, Nat.mod_one]
  | succ width ih =>
      have hpos : 0 < 256 ^ width := Nat.pow_pos (by decide)
      have ha := Nat.mod_lt a hpos
      have hb := Nat.mod_lt b hpos
      rw [bigEndian, bigEndian, List.cons_lt_cons_iff, ih, UInt8.lt_iff_toNat_lt,
        ← UInt8.toNat_inj, toNat_shifted, toNat_shifted, Nat.pow_succ, Nat.mod_mul, Nat.mod_mul]
      generalize a / 256 ^ width % 256 = da at *
      generalize b / 256 ^ width % 256 = db at *
      rcases Nat.lt_trichotomy da db with hlt | rfl | hgt
      · have hmul : 256 ^ width * (da + 1) ≤ 256 ^ width * db := Nat.mul_le_mul_left _ hlt
        rw [Nat.mul_add, Nat.mul_one] at hmul
        simp only [hlt, true_or, true_iff]
        omega
      · simp
      · have hmul : 256 ^ width * (db + 1) ≤ 256 ^ width * da := Nat.mul_le_mul_left _ hgt
        rw [Nat.mul_add, Nat.mul_one] at hmul
        have hne : da ≠ db := by omega
        simp only [Nat.not_lt_of_gt hgt, hne, false_and, or_self, false_iff]
        omega

theorem bigEndian_lt_iff {width a b : Nat} (ha : a < 256 ^ width) (hb : b < 256 ^ width) :
    bigEndian width a < bigEndian width b ↔ a < b := by
  rw [bigEndian_lt_iff_mod, Nat.mod_eq_of_lt ha, Nat.mod_eq_of_lt hb]

theorem bigEndian_inj {width a b : Nat} (ha : a < 256 ^ width) (hb : b < 256 ^ width) :
    bigEndian width a = bigEndian width b ↔ a = b := by
  constructor
  · intro h
    rw [← ofBigEndian_bigEndian ha, h, ofBigEndian_bigEndian hb]
  · rintro rfl
    rfl

private theorem go_eq_append (size : Nat) (bytes : List UInt8) (done : List (List UInt8)) :
    portions.go size bytes done = done.reverse ++ portions.go size bytes [] := by
  induction hn : bytes.length using Nat.strongRecOn generalizing bytes done with
  | ind n ih =>
      cases bytes with
      | nil => simp [portions.go]
      | cons b rest =>
          have hless : (rest.drop size).length < n := by
            rw [← hn, List.length_drop, List.length_cons]
            omega
          rw [portions.go, ih _ hless _ _ rfl, portions.go, ih _ hless _ [_] rfl]
          simp

private theorem portions_nil (size : Nat) : portions size [] = [] := by
  simp [portions, portions.go]

private theorem portions_cons (size : Nat) (b : UInt8) (rest : List UInt8) :
    portions size (b :: rest) = (b :: rest.take size) :: portions size (rest.drop size) := by
  rw [portions, portions.go, go_eq_append, portions]
  rfl

theorem portions_spec (size : Nat) (bytes : List UInt8) :
    (portions size bytes).flatten = bytes ∧
      (∀ portion ∈ portions size bytes, portion.length ≤ size + 1) ∧
      (portions size bytes).length * (size + 1) ≤ bytes.length + size := by
  induction hn : bytes.length using Nat.strongRecOn generalizing bytes with
  | ind n ih =>
      cases bytes with
      | nil => simp [portions_nil]
      | cons b rest =>
          have hdrop : (rest.drop size).length = rest.length - size := List.length_drop
          have hrest : rest.length + 1 = n := by rw [← hn, List.length_cons]
          obtain ⟨hflat, hshort, hcount⟩ := ih _ (by omega) (rest.drop size) rfl
          rw [portions_cons]
          refine ⟨?_, ?_, ?_⟩
          · rw [List.flatten_cons, hflat, List.cons_append, List.take_append_drop]
          · refine List.forall_mem_cons.mpr ⟨?_, hshort⟩
            simp
          · rw [List.length_cons, Nat.add_mul, Nat.one_mul]
            by_cases hlong : size ≤ rest.length
            · omega
            · have hnone : rest.drop size = [] := List.drop_eq_nil_of_le (by omega)
              rw [hnone, portions_nil]
              simp only [List.length_nil, Nat.zero_mul]
              omega

theorem ofString_injective {s t : String} (h : ofString s = ofString t) : s = t := by
  have hbytes : s.toUTF8 = t.toUTF8 := by
    apply ByteArray.ext
    exact Array.toList_inj.mp h
  exact String.toByteArray_inj.mp hbytes

theorem isSome_toString?_ofString (s : String) : (toString? (ofString s)).isSome := by
  have hvalid : (⟨(ofString s).toArray⟩ : ByteArray).IsValidUTF8 := by
    simpa [ofString] using s.isValidUTF8
  rw [toString?, String.fromUTF8?, dif_pos hvalid, Option.isSome_some]

end FrameMachine.Bytes
