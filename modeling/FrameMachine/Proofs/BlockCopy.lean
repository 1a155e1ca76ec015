import FrameMachine.Proofs.Attempt
import FrameMachine.Proofs.StackOps
/-!
# Block copies

LOAD and STORE copy a block word by word in ascending order. Where the destination begins inside
the source, the copy reads words that it has just written, and the words between the two beginnings
are repeated over the whole destination. A copy that runs out of memory stops at the first word
that it misses, and what was copied before stays.
-/
namespace FrameMachine

namespace Word

private theorem ofNat_inj_of_lt {i j : Nat} (hi : i < 2 ^ 63) (hj : j < 2 ^ 63)
    (h : Int64.ofNat i = .ofNat j) : i = j := by
  rw [← Int64.toNatClampNeg_ofNat_of_lt hi, h, Int64.toNatClampNeg_ofNat_of_lt hj]

@[simp] theorem add_ofNat_zero (a : Word) : a + .ofNat 0 = a := Int64.add_zero a

private theorem add_one_add_ofNat (a : Word) (i : Nat) : a + 1 + .ofNat i = a + .ofNat (i + 1) := by
  rw [Int64.ofNat_add, Int64.add_assoc, Int64.add_comm 1 (.ofNat i)]
  rfl

end Word

namespace Memory

/-- The address whose old word a copy leaves at offset `i` of its destination. A destination above
its source gets the words between the two over and over again. -/
def origin (src dst : Word) (i : Nat) : Word :=
  src + .ofNat (if 0 < dst - src then i % (dst - src).toNatClampNeg else i)

/-- So many words were copied from one address to the other, and all other words were kept. -/
structure Copied (src dst : Word) (n : Nat) (before after : Memory) : Prop where
  size : after.size = before.size
  inside : ∀ i < n, after.get? (dst + .ofNat i) = before.get? (origin src dst i)
  outside : ∀ addr, (∀ i < n, addr ≠ dst + .ofNat i) → after.get? addr = before.get? addr

variable {src dst w : Word} {n : Nat} {before after : Memory}

private theorem Copied.zero (mem : Memory) : mem.Copied src dst 0 mem :=
  ⟨rfl, nofun, fun _ _ => rfl⟩

@[simp] theorem origin_zero : origin src dst 0 = src := by
  have h : (if 0 < dst - src then 0 % (dst - src).toNatClampNeg else 0) = 0 := by simp
  rw [origin, h, Word.add_ofNat_zero]

private theorem ne_add_ofNat {i j : Nat} (hi : i < 2 ^ 63) (hj : j < 2 ^ 63) (hij : i ≠ j)
    (hdst : src + .ofNat j = dst) : dst ≠ src + .ofNat i := by
  intro h
  rw [← hdst, Int64.add_right_inj] at h
  exact hij (Word.ofNat_inj_of_lt hj hi h).symm

private theorem get?_put_origin (hw : before.get? src = some w) (hdst : before.Covers dst) {i : Nat}
    (hi : i + 1 < 2 ^ 63) :
    (before.put dst w).get? (origin (src + 1) (dst + 1) i) =
      before.get? (origin src dst (i + 1)) := by
  have hdist : dst + 1 - (src + 1) = dst - src := by grind
  rw [origin, origin, hdist, Word.add_one_add_ofNat]
  by_cases hd : 0 < dst - src
  · have hend : src + .ofNat (dst - src).toNatClampNeg = dst := by
      rw [Int64.ofNat_toNatClampNeg _ (Int64.le_of_lt hd)]
      grind
    have hpos : 0 < (dst - src).toNatClampNeg := (Int64.toNatClampNeg_pos_iff _).mpr hd
    have hsmall := (dst - src).toNatClampNeg_lt
    rw [if_pos hd, if_pos hd]
    generalize (dst - src).toNatClampNeg = d at hend hpos hsmall ⊢
    have hlt := Nat.mod_lt i hpos
    have hnext : (i + 1) % d = (i % d + 1) % d := by rw [Nat.mod_add_mod]
    by_cases hround : i % d + 1 = d
    · -- one round is over, and the next one begins with the word that was written first
      rw [hnext, hround, hend, get?_put_self hdst, Nat.mod_self, Word.add_ofNat_zero, hw]
    · rw [hnext, Nat.mod_eq_of_lt (show i % d + 1 < d by omega)]
      exact get?_put_of_ne (ne_add_ofNat (by omega) hsmall hround hend)
  · rw [if_neg hd, if_neg hd]
    apply get?_put_of_ne
    intro h
    apply hd
    rw [h, Int64.lt_iff_toInt_lt, Int64.toInt_zero]
    have hofNat : (Int64.ofNat (i + 1)).toInt = (i + 1 : Nat) := Int64.toInt_ofNat_of_lt hi
    rw [show src + .ofNat (i + 1) - src = Int64.ofNat (i + 1) by grind, hofNat]
    omega

private theorem Copied.cons (hw : before.get? src = some w) (hdst : before.Covers dst)
    (hn : n < 2 ^ 63) (h : (before.put dst w).Copied (src + 1) (dst + 1) n after) :
    before.Copied src dst (n + 1) after := by
  have hfirst (i : Nat) (hi : i < n) : dst ≠ dst + 1 + .ofNat i := by
    rw [Word.add_one_add_ofNat]
    exact ne_add_ofNat (by omega) (by decide) (Nat.succ_ne_zero i) (Word.add_ofNat_zero dst)
  refine ⟨h.size.trans (size_put ..), ?_, ?_⟩
  · intro i hi
    cases i with
    | zero =>
        rw [origin_zero, hw, Word.add_ofNat_zero, h.outside dst hfirst, get?_put_self hdst]
    | succ i =>
        rw [← Word.add_one_add_ofNat, h.inside i (by omega)]
        exact get?_put_origin hw hdst (by omega)
  · intro addr haddr
    rw [h.outside addr, get?_put_of_ne]
    · intro heq
      apply haddr 0 (Nat.succ_pos n)
      rw [← heq, Word.add_ofNat_zero]
    · intro i hi
      rw [Word.add_one_add_ofNat]
      exact haddr (i + 1) (Nat.succ_lt_succ hi)

/-- Unless it begins inside the source, the destination is a plain copy of it. -/
private theorem Copied.plain (h : before.Copied src dst n after)
    (happart : ¬ (0 < dst - src ∧ (dst - src).toNatClampNeg < n)) {i : Nat} (hi : i < n) :
    after.get? (dst + .ofNat i) = before.get? (src + .ofNat i) := by
  rw [h.inside i hi, origin]
  by_cases hd : 0 < dst - src
  · rw [if_pos hd, Nat.mod_eq_of_lt]
    have hlong : ¬ (dst - src).toNatClampNeg < n := fun hlt => happart ⟨hd, hlt⟩
    omega
  · rw [if_neg hd]

def Spans (mem : Memory) (src dst : Word) (n : Nat) : Prop :=
  ∀ i < n, mem.Covers (src + .ofNat i) ∧ mem.Covers (dst + .ofNat i)

instance (mem : Memory) (src dst : Word) (n : Nat) : Decidable (mem.Spans src dst n) :=
  inferInstanceAs (Decidable (∀ i < n, _ ∧ _))

private theorem Spans.tail (h : before.Spans src dst (n + 1)) (w : Word) :
    (before.put dst w).Spans (src + 1) (dst + 1) n := by
  intro i hi
  rw [covers_congr (size_put ..), covers_congr (size_put ..), Word.add_one_add_ofNat,
    Word.add_one_add_ofNat]
  exact h (i + 1) (Nat.succ_lt_succ hi)

theorem exists_gap (h : ¬ before.Spans src dst n) :
    ∃ k < n, before.Spans src dst k ∧
      ¬ (before.Covers (src + .ofNat k) ∧ before.Covers (dst + .ofNat k)) := by
  induction n with
  | zero => exact absurd nofun h
  | succ n ih =>
      by_cases hspans : before.Spans src dst n
      · refine ⟨n, Nat.lt_succ_self n, hspans, fun hlast => h ?_⟩
        intro i hi
        rcases Nat.lt_succ_iff_lt_or_eq.mp hi with hi | rfl
        · exact hspans i hi
        · exact hlast
      · obtain ⟨k, hk, hgap⟩ := ih hspans
        exact ⟨k, Nat.lt_succ_of_lt hk, hgap⟩

end Memory

namespace Exec

variable {src dst : Word} {n k : Nat} {core : Core}

theorem run_copy_succ (src dst : Word) (n : Nat) (core : Core) :
    (copy src dst (n + 1)).run core =
      match core.mem.get? src with
      | none => .error (.fault (.indexOutOfRange src core.mem.size)) core
      | some w =>
        if core.mem.Covers dst then (copy (src + 1) (dst + 1) n).run ⟨core.regs, core.mem.put dst w⟩
        else .error (.fault (.indexOutOfRange dst core.mem.size)) core := by
  rw [copy, run_bind, run_read]
  cases core.mem.get? src with
  | none => rfl
  | some w =>
      dsimp only
      rw [run_bind, run_write]
      by_cases hdst : core.mem.Covers dst
      · rw [if_pos hdst, if_pos hdst]
      · rw [if_neg hdst, if_neg hdst]

theorem run_copy (core : Core) (h : core.mem.Spans src dst n) (hn : n < 2 ^ 63) :
    ∃ mem, (copy src dst n).run core = .ok () ⟨core.regs, mem⟩ ∧
      core.mem.Copied src dst n mem := by
  induction n generalizing src dst core with
  | zero => exact ⟨core.mem, rfl, .zero core.mem⟩
  | succ n ih =>
      obtain ⟨hsrc, hdst⟩ := h 0 (Nat.succ_pos n)
      rw [Word.add_ofNat_zero] at hsrc hdst
      obtain ⟨w, hw⟩ := Memory.covers_iff_get?.mp hsrc
      obtain ⟨mem, hrun, hcopied⟩ := ih ⟨core.regs, core.mem.put dst w⟩ (h.tail w)
        (by omega)
      refine ⟨mem, ?_, hcopied.cons hw hdst (by omega)⟩
      rw [run_copy_succ, hw]
      dsimp only
      rw [if_pos hdst, hrun]

private theorem run_copy_add (src dst : Word) (k n : Nat) (core : Core) :
    (copy src dst (k + n)).run core =
      match (copy src dst k).run core with
      | .ok _ middle => (copy (src + .ofNat k) (dst + .ofNat k) n).run middle
      | .error stop middle => .error stop middle := by
  induction k generalizing src dst core with
  | zero =>
      rw [Nat.zero_add, Word.add_ofNat_zero, Word.add_ofNat_zero]
      rfl
  | succ k ih =>
      rw [Nat.succ_add, run_copy_succ, run_copy_succ]
      cases core.mem.get? src with
      | none => rfl
      | some w =>
          dsimp only
          split
          · rw [ih, Word.add_one_add_ofNat, Word.add_one_add_ofNat]
          · rfl

/-- A copy stops at the first offset that memory misses, in the source or else in the destination,
after copying all words before it. -/
theorem run_copy_of_gap (core : Core) (h : core.mem.Spans src dst k) (hk : k < n)
    (hn : n < 2 ^ 63)
    (hgap : ¬ (core.mem.Covers (src + .ofNat k) ∧ core.mem.Covers (dst + .ofNat k))) :
    ∃ mem, (copy src dst n).run core =
        .error (.fault (.indexOutOfRange
          (if core.mem.Covers (src + .ofNat k) then dst + .ofNat k else src + .ofNat k)
          core.mem.size)) ⟨core.regs, mem⟩ ∧
      core.mem.Copied src dst k mem := by
  obtain ⟨mem, hrun, hcopied⟩ := run_copy core h (by omega)
  obtain ⟨rest, rfl⟩ : ∃ rest, n = k + (rest + 1) := ⟨n - k - 1, by omega⟩
  refine ⟨mem, ?_, hcopied⟩
  rw [run_copy_add, hrun]
  dsimp only
  rw [run_copy_succ]
  by_cases hsrc : core.mem.Covers (src + .ofNat k)
  · have hdst : ¬ mem.Covers (dst + .ofNat k) := by
      rw [Memory.covers_congr hcopied.size]
      exact fun hdst => hgap ⟨hsrc, hdst⟩
    obtain ⟨w, hw⟩ := Memory.covers_iff_get?.mp ((Memory.covers_congr hcopied.size).mpr hsrc)
    dsimp only
    rw [hw, if_pos hsrc]
    dsimp only
    rw [if_neg hdst, hcopied.size]
  · have hnone : mem.get? (src + .ofNat k) = none := by
      rw [Memory.get?_eq_none_iff, Memory.covers_congr hcopied.size]
      exact hsrc
    dsimp only
    rw [hnone, if_neg hsrc, hcopied.size]

/-- The common end of LOAD and STORE: the top of the stack moves only when all words are copied. -/
theorem run_copy_setSp (src dst : Word) (n : Nat) (top : Word) (core : Core) :
    (do copy src dst n; setSp top; pure Flow.next : Exec Flow).run core =
      match (copy src dst n).run core with
      | .ok _ after => .ok .next ⟨{ after.regs with sp := top }, after.mem⟩
      | .error stop after => .error stop after := by
  rw [run_bind]
  cases (copy src dst n).run core <;> rfl

end Exec

namespace Core

variable {core : Core} {insn : Instruction} {src dst top n p : Word}

/-- What becomes of an instruction that copies so many words and then moves the top of the stack.
Within memory it completes, and the copy is a plain one unless the destination begins inside the
source. Otherwise it stops at the first offset that memory misses, with the words before it copied
and the top where it was. -/
structure Transfers (core : Core) (insn : Instruction) (src dst : Word) (n : Nat) (top : Word) :
    Prop where
  completes : core.mem.Spans src dst n → ∃ mem, core.carryOut insn =
      .ok .next ⟨{ core.regs with pc := core.regs.pc + 1, sp := top }, mem⟩ ∧
    core.mem.Copied src dst n mem ∧
    (¬ (0 < dst - src ∧ (dst - src).toNatClampNeg < n) →
      ∀ i < n, mem.get? (dst + .ofNat i) = core.mem.get? (src + .ofNat i))
  stops : ∀ k < n, core.mem.Spans src dst k →
    ¬ (core.mem.Covers (src + .ofNat k) ∧ core.mem.Covers (dst + .ofNat k)) →
    ∃ mem, core.carryOut insn = .error (.fault (.indexOutOfRange
        (if core.mem.Covers (src + .ofNat k) then dst + .ofNat k else src + .ofNat k)
        core.mem.size)) ⟨{ core.regs with pc := core.regs.pc + 1 }, mem⟩ ∧
      core.mem.Copied src dst k mem

private theorem transfers_of_carryOut {n : Nat} (hn : n < 2 ^ 63)
    (h : core.carryOut insn = (do Exec.copy src dst n; Exec.setSp top; pure Flow.next).run
      core.advanced) : core.Transfers insn src dst n top := by
  rw [Exec.run_copy_setSp] at h
  constructor
  · intro hspans
    obtain ⟨mem, hrun, hcopied⟩ := Exec.run_copy core.advanced hspans hn
    rw [hrun] at h
    exact ⟨mem, h, hcopied, fun happart i hi => hcopied.plain happart hi⟩
  · intro k hk hspans hgap
    obtain ⟨mem, hrun, hcopied⟩ :=
      Exec.run_copy_of_gap core.advanced hspans hk hn hgap
    rw [hrun] at h
    exact ⟨mem, h, hcopied⟩

theorem carryOut_load (hp : core.mem.get? core.regs.sp = some p) (n : Word) :
    core.carryOut (.ofOpcode .load n) =
      (do Exec.copy p core.regs.sp n.toNatClampNeg; Exec.setSp (core.regs.sp + (n - 1))
          pure Flow.next).run core.advanced := by
  have htop : core.advanced.mem.get? core.advanced.regs.sp = some p := hp
  rw [carryOut_ofOpcode, Opcode.exec, Exec.run_regs_bind]
  exact Exec.run_read_bind htop _

theorem carryOut_store (hp : core.mem.get? core.regs.sp = some p) (n : Word) :
    core.carryOut (.ofOpcode .store n) =
      (do Exec.copy (core.regs.sp - n) p n.toNatClampNeg; Exec.setSp (core.regs.sp - 1)
          pure Flow.next).run core.advanced := by
  have htop : core.advanced.mem.get? core.advanced.regs.sp = some p := hp
  rw [carryOut_ofOpcode, Opcode.exec, Exec.run_regs_bind]
  exact Exec.run_read_bind htop _

end Core

/-- With the address `p` on top of the stack, `LOAD n` copies `n` words from `p` to the top and up,
and `STORE n` copies the `n` words below the top to `p` and up. -/
theorem blocks_are_copied_upward (core : Core) {p : Word}
    (address : core.mem.get? core.regs.sp = some p) (n : Word) :
    core.Transfers (.ofOpcode .load n) p core.regs.sp n.toNatClampNeg
      (core.regs.sp + (n - 1)) ∧
    core.Transfers (.ofOpcode .store n) (core.regs.sp - n) p n.toNatClampNeg
      (core.regs.sp - 1) :=
  ⟨Core.transfers_of_carryOut n.toNatClampNeg_lt (Core.carryOut_load address n),
    Core.transfers_of_carryOut n.toNatClampNeg_lt (Core.carryOut_store address n)⟩

/-- A LOAD to the word above its address repeats that word, and a STORE across the end of memory
keeps the words that fit. -/
theorem blocks_are_copied_upward_until_memory_ends :
    let overlapping : Core := ⟨⟨0, 1, -1, -1, 6⟩, #[7, 0, 5, 5, 5, 5]⟩
    let overlong : Core := ⟨⟨0, 3, -1, -1, 6⟩, #[1, 2, 3, 4, 0, 0]⟩
    overlapping.mem.get? 1 = some 0 ∧ overlong.mem.get? 3 = some 4 ∧
    (∃ mem, overlapping.carryOut (.ofOpcode .load 4) = .ok .next ⟨⟨1, 4, -1, -1, 6⟩, mem⟩ ∧
      (∀ i < 4, mem.get? (1 + .ofNat i) = some 7) ∧ mem.get? 5 = some 5) ∧
    (∃ mem, overlong.carryOut (.ofOpcode .store 3) =
        .error (.fault (.indexOutOfRange 6 6)) ⟨⟨1, 3, -1, -1, 6⟩, mem⟩ ∧
      mem.get? 4 = some 1 ∧ mem.get? 5 = some 2 ∧ mem.get? 3 = some 4) := by
  intro overlapping overlong
  have hload : overlapping.mem.get? overlapping.regs.sp = some 0 := by decide +kernel
  have hstore : overlong.mem.get? overlong.regs.sp = some 4 := by decide +kernel
  refine ⟨hload, hstore, ?_, ?_⟩
  · obtain ⟨mem, hrun, hcopied, -⟩ :=
      (blocks_are_copied_upward overlapping hload 4).1.completes (by decide +kernel)
    refine ⟨mem, hrun, ?_, ?_⟩
    · intro i hi
      rw [hcopied.inside i hi]
      revert i
      decide +kernel
    · rw [hcopied.outside 5 (by decide +kernel)]
      decide +kernel
  · obtain ⟨mem, hrun, hcopied⟩ :=
      (blocks_are_copied_upward overlong hstore 3).2.stops 2 (by decide) (by decide +kernel)
        (by decide +kernel)
    rw [if_pos (by decide +kernel)] at hrun
    refine ⟨mem, hrun, (hcopied.inside 0 (by decide)).trans ?_,
      (hcopied.inside 1 (by decide)).trans ?_, (hcopied.outside 3 ?_).trans ?_⟩ <;>
      decide +kernel

end FrameMachine
