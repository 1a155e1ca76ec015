import FrameMachine.Core
/-!
# Words in memory

Reading and replacing single words. An address is readable exactly when it is covered, a
replaced word reads back, and every other word stays as it was.
-/
namespace FrameMachine.Memory

variable {mem : Memory} {addr other w v : Word}

theorem get?_eq_some_iff :
    mem.get? addr = some w ↔ 0 ≤ addr ∧ mem[addr.toNatClampNeg]? = some w := by
  by_cases h0 : 0 ≤ addr <;> simp [get?, h0]

theorem covers_iff_get? : mem.Covers addr ↔ ∃ w, mem.get? addr = some w := by
  simp only [get?_eq_some_iff, Covers, Array.getElem?_eq_some_iff]
  constructor
  · rintro ⟨h0, hlt⟩
    exact ⟨_, h0, hlt, rfl⟩
  · rintro ⟨_, h0, hlt, _⟩
    exact ⟨h0, hlt⟩

theorem covers_of_get? (h : mem.get? addr = some w) : mem.Covers addr :=
  covers_iff_get?.mpr ⟨w, h⟩

theorem get?_eq_none_iff : mem.get? addr = none ↔ ¬ mem.Covers addr := by
  rw [covers_iff_get?, not_exists, Option.eq_none_iff_forall_ne_some]

theorem covers_congr {other : Memory} (h : other.size = mem.size) :
    other.Covers addr ↔ mem.Covers addr := by
  rw [Covers, Covers, h]

theorem Covers.of_le {high : Word} (hhigh : mem.Covers high) (h0 : 0 ≤ addr) (h : addr ≤ high) :
    mem.Covers addr :=
  ⟨h0, Nat.lt_of_le_of_lt (Int64.toNatClampNeg_le h) hhigh.2⟩

theorem Covers.between {low high : Word} (hlow : mem.Covers low) (hhigh : mem.Covers high)
    (h : low ≤ addr) (h' : addr ≤ high) : mem.Covers addr :=
  hhigh.of_le (Int64.le_trans hlow.1 h) h'

theorem get?_eq_some_load (h : mem.Covers addr) : mem.get? addr = some (mem.load addr) := by
  obtain ⟨w, hw⟩ := covers_iff_get?.mp h
  rw [load, hw, Option.getD_some]

theorem load_of_get? (h : mem.get? addr = some w) : mem.load addr = w := by
  rw [load, h, Option.getD_some]

@[simp] theorem get?_put_self (h : mem.Covers addr) : (mem.put addr w).get? addr = some w := by
  obtain ⟨h0, hlt⟩ := h
  simp [get?, put, h0, hlt]

theorem get?_put_of_ne (h : addr ≠ other) : (mem.put addr w).get? other = mem.get? other := by
  unfold get? put
  split
  · split
    · rename_i ho ha
      have hne : addr.toNatClampNeg ≠ other.toNatClampNeg := by
        intro he
        have hi := congrArg Int64.ofNat he
        rw [Int64.ofNat_toNatClampNeg _ ha, Int64.ofNat_toNatClampNeg _ ho] at hi
        exact h hi
      exact Array.getElem?_setIfInBounds_ne hne
    · rfl
  · rfl

theorem put_put : (mem.put addr v).put addr w = mem.put addr w := by
  unfold put
  split <;> simp

theorem put_of_not_covers (h : ¬ mem.Covers addr) : mem.put addr w = mem := by
  unfold put
  split
  · rename_i h0
    exact Array.setIfInBounds_eq_of_size_le (Nat.not_lt.mp fun hlt => h ⟨h0, hlt⟩)
  · rfl

end FrameMachine.Memory
