import FrameMachine.Proofs.Activations
import Mathlib.Data.Nat.Factorial.Basic
/-!
# Recursive factorial

A program that computes the factorial of its argument by a procedure that calls itself. Each call
lays one frame of five words above that of its caller, so that the depth of the recursion decides
whether the frames fit below the heap.
-/
namespace FrameMachine

/-- The procedure begins at 7, finds its argument three words below its frame and leaves its value
there. -/
def factorial (n : Word) : Array Instruction := #[
    .ofOpcode .alloc 1, .ofOpcode .loadc n, .ofOpcode .mark 0, .ofOpcode .loadc 7,
    .ofOpcode .call 0, .ofOpcode .storea 0, .ofOpcode .halt 0,
    .ofOpcode .enter 6, .ofOpcode .loadr (-3), .ofOpcode .loadc 0, .ofOpcode .leq 0,
    .ofOpcode .jumpz 15, .ofOpcode .loadc 1, .ofOpcode .storer (-3), .ofOpcode .ret 0,
    .ofOpcode .loadr (-3), .ofOpcode .loadr (-3), .ofOpcode .loadc 1, .ofOpcode .sub 0,
    .ofOpcode .mark 0, .ofOpcode .loadc 7, .ofOpcode .call 0,
    .ofOpcode .mul 0, .ofOpcode .storer (-3), .ofOpcode .ret 0]

namespace Factorial

variable {n x fp' ep' ep : Word} {room target : Nat} {outer : List Word}

/-- The procedure was called with the argument `x`, to return to the target. -/
def entry (target : Nat) (fp' ep' ep x : Word) (outer : List Word) : View :=
  ⟨7, .ofNat (outer.length + 3), ep, .ofNat target :: fp' :: ep' :: x :: outer⟩

def within (pc target : Nat) (fp' ep' x : Word) (outer above : List Word) : View :=
  ⟨pc, .ofNat (outer.length + 3), .ofNat (outer.length + 9),
    above ++ .ofNat target :: fp' :: ep' :: x :: outer⟩

/-- The call that the procedure makes of itself, with its argument kept above its frame. -/
def nested (target : Nat) (fp' ep' x : Word) (outer : List Word) : View :=
  entry 22 (.ofNat (outer.length + 3)) (.ofNat (outer.length + 9)) (.ofNat (outer.length + 9))
    (x - 1) (x :: .ofNat target :: fp' :: ep' :: x :: outer)

private theorem argument_addr (outer : List Word) :
    Int64.ofNat (outer.length + 3) + (-3) = .ofNat outer.length := by
  rw [← Int64.sub_eq_add_neg]
  exact Word.ofNat_add_sub outer.length 3

private theorem entry_tests (hfits : outer.length + 9 < room) :
    (entry target fp' ep' ep x outer).Reaches (factorial n) room 5
      (within (if x.toInt ≤ 0 then 12 else 15) target fp' ep' x outer []) := by
  have henter : (entry target fp' ep' ep x outer).Reaches (factorial n) room 1
      (within 8 target fp' ep' x outer []) := .enter (n := 6) rfl hfits
  have hload : (within 8 target fp' ep' x outer []).Reaches (factorial n) room 1
      (within 9 target fp' ep' x outer [x]) :=
    .loadr [.ofNat target, fp', ep'] rfl (argument_addr outer) (by simp; omega)
  have hzero : (within 9 target fp' ep' x outer [x]).Reaches (factorial n) room 1
      (within 10 target fp' ep' x outer [0, x]) := .loadc rfl (by simp; omega)
  have hleq : (within 10 target fp' ep' x outer [0, x]).Reaches (factorial n) room 1
      (within 11 target fp' ep' x outer [if x.toInt ≤ 0 then 1 else 0]) := .binary rfl rfl rfl
  have hjump : (within 11 target fp' ep' x outer [if x.toInt ≤ 0 then 1 else 0]).Reaches
      (factorial n) room 1 (within (if (if x.toInt ≤ 0 then (1 : Word) else 0) = 0 then 15 else 12)
        target fp' ep' x outer []) := .jumpz rfl
  have hpc : (if (if x.toInt ≤ 0 then (1 : Word) else 0) = 0 then 15 else 12) =
      if x.toInt ≤ 0 then 12 else 15 := by
    by_cases hx : x.toInt ≤ 0
    · rw [if_pos hx, if_pos hx]
      rfl
    · rw [if_neg hx, if_neg hx]
      rfl
  rw [hpc] at hjump
  exact henter.trans (hload.trans (hzero.trans (hleq.trans hjump)))

private theorem within_returns {pc : Nat}
    (hstore : (factorial n)[pc]? = some (.ofOpcode .storer (-3)))
    (hret : (factorial n)[pc + 1]? = some (.ofOpcode .ret 0)) {w : Word}
    (hfits : outer.length + 9 < room) (hep : ep' < .ofNat room) :
    (within pc target fp' ep' x outer [w]).Reaches (factorial n) room 2
      ⟨target, fp', ep', w :: outer⟩ := by
  have hstored : (within pc target fp' ep' x outer [w]).Reaches (factorial n) room 1
      (within (pc + 1) target fp' ep' w outer [w]) :=
    .storer [.ofNat target, fp', ep'] hstore (argument_addr outer) (by simp; omega)
  exact hstored.trans (.ret [w] hret hep)

private theorem entry_ends (hx : x.toInt ≤ 0) (hfits : outer.length + 9 < room)
    (hep : ep' < .ofNat room) :
    (entry target fp' ep' ep x outer).Reaches (factorial n) room 8
      ⟨target, fp', ep', 1 :: outer⟩ := by
  have htests : (entry target fp' ep' ep x outer).Reaches (factorial n) room 5
      (within (if x.toInt ≤ 0 then 12 else 15) target fp' ep' x outer []) := entry_tests hfits
  rw [if_pos hx] at htests
  have hone : (within 12 target fp' ep' x outer []).Reaches (factorial n) room 1
      (within 13 target fp' ep' x outer [1]) := .loadc rfl (by simp; omega)
  exact htests.trans (hone.trans (within_returns rfl rfl hfits hep))

private theorem entry_calls (hx : 0 < x.toInt) (hfits : outer.length + 9 < room) :
    (entry target fp' ep' ep x outer).Reaches (factorial n) room 12
      (nested target fp' ep' x outer) := by
  let base : Word := .ofNat (outer.length + 3)
  let extent : Word := .ofNat (outer.length + 9)
  have htests : (entry target fp' ep' ep x outer).Reaches (factorial n) room 5
      (within (if x.toInt ≤ 0 then 12 else 15) target fp' ep' x outer []) := entry_tests hfits
  rw [if_neg (Int.not_le.mpr hx)] at htests
  have hkeep : (within 15 target fp' ep' x outer []).Reaches (factorial n) room 1
      (within 16 target fp' ep' x outer [x]) :=
    .loadr [.ofNat target, fp', ep'] rfl (argument_addr outer) (by simp; omega)
  have hload : (within 16 target fp' ep' x outer [x]).Reaches (factorial n) room 1
      (within 17 target fp' ep' x outer [x, x]) :=
    .loadr [x, .ofNat target, fp', ep'] rfl (argument_addr outer) (by simp; omega)
  have hone : (within 17 target fp' ep' x outer [x, x]).Reaches (factorial n) room 1
      (within 18 target fp' ep' x outer [1, x, x]) := .loadc rfl (by simp; omega)
  have hsub : (within 18 target fp' ep' x outer [1, x, x]).Reaches (factorial n) room 1
      (within 19 target fp' ep' x outer [x - 1, x]) := .binary rfl rfl (by simp)
  have hmark : (within 19 target fp' ep' x outer [x - 1, x]).Reaches (factorial n) room 1
      (within 20 target fp' ep' x outer [base, extent, x - 1, x]) := .mark rfl (by simp; omega)
  have hentry : (within 20 target fp' ep' x outer [base, extent, x - 1, x]).Reaches (factorial n)
      room 1 (within 21 target fp' ep' x outer [.ofNat 7, base, extent, x - 1, x]) :=
    .loadc rfl (by simp; omega)
  have hcall : (within 21 target fp' ep' x outer [.ofNat 7, base, extent, x - 1, x]).Reaches
      (factorial n) room 1 (nested target fp' ep' x outer) := .call rfl
  exact htests.trans (hkeep.trans (hload.trans (hone.trans (hsub.trans (hmark.trans
    (hentry.trans hcall))))))

private theorem sub_one_of_positive {m : Nat} (hx : x.toInt.toNat = m + 1) :
    x = .ofNat (m + 1) ∧ (x - 1).toInt.toNat = m := by
  have hlt := x.toInt_lt
  have hexact : x = .ofNat (m + 1) := by
    rw [← Int64.toInt_inj, Int64.toInt_ofNat_of_lt (by omega)]
    omega
  refine ⟨hexact, ?_⟩
  rw [hexact, Word.ofNat_succ_sub_one, Int64.toInt_ofNat_of_lt (by omega)]
  exact Int.toNat_natCast m

/-- The procedure returns the factorial, provided that all frames of the recursion fit. -/
private theorem entry_returns (m : Nat) (hx : x.toInt.toNat = m)
    (hfits : outer.length + 9 + 5 * m < room) (hep : ep' < .ofNat room) :
    (entry target fp' ep' ep x outer).Reaches (factorial n) room (15 * m + 8)
      ⟨target, fp', ep', .ofNat m.factorial :: outer⟩ := by
  induction m generalizing x fp' ep' ep target outer with
  | zero => exact entry_ends (by omega) (by omega) hep
  | succ m ih =>
      intro hcode hroom
      obtain ⟨hexact, hless⟩ := sub_one_of_positive hx
      have hcall : (entry target fp' ep' ep x outer).Reaches (factorial n) room 12
          (nested target fp' ep' x outer) := entry_calls (by omega) (by omega)
      have hinner : (nested target fp' ep' x outer).Reaches (factorial n) room (15 * m + 8)
          (within 22 target fp' ep' x outer [.ofNat m.factorial, x]) := by
        apply ih hless
        · simp
          omega
        · rw [Word.ofNat_lt_ofNat (by omega) hroom]
          omega
      have hmul : (within 22 target fp' ep' x outer [.ofNat m.factorial, x]).Reaches (factorial n)
          room 1 (within 23 target fp' ep' x outer [.ofNat (m + 1).factorial]) := by
        apply View.Reaches.binary rfl rfl
        change some (Int64.ofInt (x.toInt * (Int64.ofNat m.factorial).toInt)) = some _
        rw [Int64.ofInt_mul, Int64.ofInt_toInt, Int64.ofInt_toInt, hexact, ← Int64.ofNat_mul,
          Nat.factorial_succ]
      have hreturn : (within 23 target fp' ep' x outer [.ofNat (m + 1).factorial]).Reaches
          (factorial n) room 2 ⟨target, fp', ep', .ofNat (m + 1).factorial :: outer⟩ :=
        within_returns rfl rfl (by omega) hep
      have hall := hcall.trans (hinner.trans (hmul.trans hreturn))
      rw [show 12 + (15 * m + 8 + (1 + 2)) = 15 * (m + 1) + 8 by omega] at hall
      exact hall hcode hroom

/-- As long as the frames fit, the recursion goes down one frame of five words after the other. -/
private theorem entry_descends (k : Nat) (hx : k ≤ x.toInt.toNat)
    (hfits : ∀ j < k, outer.length + 9 + 5 * j < room) :
    ∃ base extent w below, below.length = outer.length + 3 + 5 * k ∧
      (entry target fp' ep' ep x outer).Reaches (factorial n) room (12 * k)
        ⟨7, base, extent, w :: below⟩ := by
  induction k generalizing x fp' ep' ep target outer with
  | zero => exact ⟨_, _, _, _, rfl, fun _ _ core h => ⟨core, .rest core, h⟩⟩
  | succ k ih =>
      obtain ⟨m, hm⟩ : ∃ m, x.toInt.toNat = m + 1 := Nat.exists_eq_add_one.mpr (by omega)
      obtain ⟨-, hless⟩ := sub_one_of_positive hm
      have hcall : (entry target fp' ep' ep x outer).Reaches (factorial n) room 12
          (nested target fp' ep' x outer) := entry_calls (by omega) (hfits 0 (by omega))
      have hrest : ∀ j < k,
          (x :: .ofNat target :: fp' :: ep' :: x :: outer).length + 9 + 5 * j < room := by
        intro j hj
        have hnext := hfits (j + 1) (by omega)
        simp only [List.length_cons]
        omega
      obtain ⟨base, extent, w, below, hlength, hdown⟩ :
          ∃ base extent w below,
            below.length = (x :: .ofNat target :: fp' :: ep' :: x :: outer).length + 3 + 5 * k ∧
            (nested target fp' ep' x outer).Reaches (factorial n) room (12 * k)
              ⟨7, base, extent, w :: below⟩ := ih (by omega) hrest
      have hall := hcall.trans hdown
      rw [show 12 + 12 * k = 12 * (k + 1) by omega] at hall
      refine ⟨base, extent, w, below, ?_, hall⟩
      simp only [List.length_cons] at hlength
      omega

private theorem reaches_entry (hroom : 5 ≤ room) :
    (⟨1, -1, -1, [0]⟩ : View).Reaches (factorial n) room 4 (entry 5 (-1) (-1) (-1) n [0]) := by
  have hload : (⟨1, -1, -1, [0]⟩ : View).Reaches (factorial n) room 1 ⟨2, -1, -1, [n, 0]⟩ :=
    .loadc rfl (by simp; omega)
  have hmark : (⟨2, -1, -1, [n, 0]⟩ : View).Reaches (factorial n) room 1
      ⟨3, -1, -1, [-1, -1, n, 0]⟩ := .mark rfl (by simp; omega)
  have hentry : (⟨3, -1, -1, [-1, -1, n, 0]⟩ : View).Reaches (factorial n) room 1
      ⟨4, -1, -1, [.ofNat 7, -1, -1, n, 0]⟩ := .loadc rfl (by simp; omega)
  have hcall : (⟨4, -1, -1, [.ofNat 7, -1, -1, n, 0]⟩ : View).Reaches (factorial n) room 1
      (entry 5 (-1) (-1) (-1) n [0]) := .call rfl
  exact hload.trans (hmark.trans (hentry.trans hcall))

end Factorial

namespace Plan

variable {σ : Type} {plan : Plan σ} {code : Array Instruction} {m : Machine}

private theorem words_le_limit (h : plan.build code = .ok m) : plan.words ≤ capacityLimit := by
  rw [build] at h
  split at h
  · cases h
  · rename_i hle
    exact Int64.not_lt.mp hle

private theorem shows_of_build (h : plan.build code = .ok m) :
    m.core.Shows plan.words.toNatClampNeg ⟨0, -1, -1, []⟩ := by
  rw [plan.core_of_build h]
  refine ⟨⟨Array.size_replicate, rfl, trivial⟩, rfl, rfl, rfl, ?_⟩
  rw [Int64.ofNat_toNatClampNeg _ (Int64.le_of_lt plan.words_pos)]

end Plan

namespace Factorial

variable {σ : Type} {obs : Observers σ} {plan : Plan σ} {n : Word} {m : Machine} {room : Nat}
  {core : Core} {s : Session σ}

private theorem size_lt (n : Word) : (factorial n).size < 2 ^ 63 := by
  change 25 < 2 ^ 63
  decide

private theorem strides_entry (built : plan.build (factorial n) = .ok m)
    (hroom : 5 ≤ plan.words.toNatClampNeg) :
    ∃ core, m.core.Strides (factorial n) 5 core ∧
      core.Shows plan.words.toNatClampNeg (entry 5 (-1) (-1) (-1) n [0]) := by
  have hzero : m.core.mem[([] : List Word).length]? = some 0 := by
    rw [plan.core_of_build built]
    simp only [Memory.zeroed, List.length_nil, Array.getElem?_replicate]
    exact if_pos (by omega)
  obtain ⟨core, hcarried, hshows⟩ := (plan.shows_of_build built).alloc hzero
  obtain ⟨after, hstrides, hafter⟩ :=
    reaches_entry hroom (size_lt n) (Int64.toNatClampNeg_lt _) core hshows
  refine ⟨after, .step ?_ hcarried hstrides, hafter⟩
  rw [plan.core_of_build built]
  rfl

private theorem run_answers (hs : s.Stands (factorial n) core) (approving : obs.Approving)
    (hshows : core.Shows room (entry 5 (-1) (-1) (-1) n [0])) (hroom : room < 2 ^ 63)
    (hfits : 10 + 5 * n.toInt.toNat < room) (budget : Nat) (cause : Failure) :
    let run := s.run obs (budget + 1 + (15 * n.toInt.toNat + 9)) cause
    run.1 = .ok (.ofNat n.toInt.toNat.factorial) ∧ run.2.machine.halted = true ∧
      run.2.machine.core.regs = ⟨7, 1, -1, -1, .ofNat room⟩ := by
  intro run
  let value : Word := .ofNat n.toInt.toNat.factorial
  have hcall : (entry 5 (-1) (-1) (-1) n [0]).Reaches (factorial n) room (15 * n.toInt.toNat + 8)
      ⟨5, -1, -1, [value, 0]⟩ := by
    apply entry_returns _ rfl
    · simp only [List.length_singleton]
      omega
    · exact Int64.lt_of_lt_of_le (by decide) (Word.ofNat_nonneg hroom)
  have hstore : (⟨5, -1, -1, [value, 0]⟩ : View).Reaches (factorial n) room 1
      ⟨6, -1, -1, [value, value]⟩ := .storea [] rfl
  obtain ⟨last, hstrides, hlast⟩ := hcall.trans hstore (size_lt n) hroom core hshows
  obtain ⟨t, ht, hrun⟩ := hs.run_strides approving hstrides (budget + 1) cause
  obtain ⟨u, hhalt, hcore, hhalted⟩ :=
    ht.run_halt approving (hlast.fetch? (show 6 < 2 ^ 63 by decide) (factorial n)) budget cause
  have hresult : last.result = value := by
    apply Memory.load_of_get?
    exact hlast.stack.piles.2.get?_cons (hlast.stack.size ▸ hroom)
  have hregs : u.machine.core.regs =
      ⟨last.regs.pc + 1, last.regs.sp, last.regs.fp, last.regs.ep, last.regs.np⟩ := by
    rw [hcore]
    rfl
  have hall : run = (.ok last.result, u) := hrun.trans hhalt
  rw [hall]
  refine ⟨congrArg Except.ok hresult, hhalted, ?_⟩
  rw [hregs, hlast.pc_add_one, hlast.stack.sp_of_cons, hlast.fp, hlast.ep, hlast.np]
  rfl

private theorem run_overflows (hs : s.Stands (factorial n) core) (approving : obs.Approving)
    (hshows : core.Shows room (entry 5 (-1) (-1) (-1) n [0])) (hroom : room < 2 ^ 46) {k : Nat}
    (hk : IsLeast {k | room ≤ 10 + 5 * k} k) (hdepth : k ≤ n.toInt.toNat) (budget : Nat)
    (cause : Failure) :
    (s.run obs (budget + 1 + 12 * k) cause).1 = .error
      (.stackOverflow 7 Opcode.enter.toByte 6 (.ofNat (10 + 5 * k)) (.ofNat room)) := by
  have hfits : ∀ j < k, 10 + 5 * j < room := by
    intro j hj
    by_contra hover
    exact Nat.not_le.mpr hj (hk.2 (Nat.not_lt.mp hover))
  obtain ⟨base, extent, w, below, hlength, hdown⟩ :
      ∃ base extent w below, below.length = ([0] : List Word).length + 3 + 5 * k ∧
        (entry 5 (-1) (-1) (-1) n [0]).Reaches (factorial n) room (12 * k)
          ⟨7, base, extent, w :: below⟩ := entry_descends k hdepth hfits
  obtain ⟨last, hstrides, hlast⟩ := hdown (size_lt n) (by omega) core hshows
  obtain ⟨t, ht, hrun⟩ := hs.run_strides approving hstrides (budget + 1) cause
  have hextent : below.length + 6 = 10 + 5 * k := by
    rw [hlength, List.length_singleton]
    omega
  have hover : room ≤ below.length + 6 := hextent ▸ hk.1
  have hsmall : below.length + 6 < 2 ^ 63 := by
    rw [hextent]
    cases k with
    | zero => decide
    | succ j =>
        have hlast := hfits j (Nat.lt_succ_self j)
        omega
  have hrefused := hlast.enter_refused hover hsmall
  rw [hextent] at hrefused
  rw [hrun]
  exact ht.run_refused approving (hlast.fetch? (show 7 < 2 ^ 63 by decide) (factorial n)) hrefused
    budget cause

end Factorial

/-- With time for it, a run answers the factorial of `n` as a word, taking zero for a negative `n`,
and ends with one word above the result and with neither frame nor heap. Where the frames of the
recursion do not fit, it ends at the first that reaches the end of memory. -/
theorem factorial_is_computed {σ : Type} {plan : Plan σ} {n : Word} {m : Machine}
    (built : plan.build (factorial n) = .ok m) (spacious : 5 ≤ plan.words.toNatClampNeg)
    (approving : plan.observers.Approving) (world : σ) {budget : Nat}
    (enough : 15 * (n.toInt.toNat + 1) ≤ budget) (cause : Failure) :
    let depth := n.toInt.toNat
    let room := plan.words.toNatClampNeg
    let run := Session.run plan.observers budget cause ⟨m, world⟩
    if 10 + 5 * depth < room then
      run.1 = .ok (.ofNat depth.factorial) ∧ run.2.machine.halted = true ∧
      run.2.machine.core.regs = ⟨7, 1, -1, -1, plan.words⟩
    else
      ∃ k, IsLeast {k | room ≤ 10 + 5 * k} k ∧
        run.1 = .error
          (.stackOverflow 7 Opcode.enter.toByte 6 (.ofNat (10 + 5 * k)) plan.words) := by
  intro depth room run
  have hlimit : room < 2 ^ 46 := by
    have hle := Int64.toNatClampNeg_le (plan.words_le_limit built)
    exact Nat.lt_of_le_of_lt hle (by decide)
  have hwords : Int64.ofNat room = plan.words :=
    Int64.ofNat_toNatClampNeg _ (Int64.le_of_lt plan.words_pos)
  have hstart : (⟨m, world⟩ : Session σ).Stands (factorial n) m.core := by
    rw [plan.build_eq_initial built]
    exact ⟨rfl, rfl, rfl, rfl⟩
  obtain ⟨core, hstrides, hshows⟩ := Factorial.strides_entry built spacious
  rw [← hwords]
  by_cases hfits : 10 + 5 * depth < room
  · rw [if_pos hfits]
    obtain ⟨rest, rfl⟩ : ∃ rest, budget = rest + 1 + (15 * depth + 9) + 5 :=
      ⟨budget - 15 * (depth + 1), by omega⟩
    obtain ⟨s, hs, hrun⟩ :=
      hstart.run_strides approving hstrides (rest + 1 + (15 * depth + 9)) cause
    have hanswers := Factorial.run_answers hs approving hshows (by omega) hfits rest cause
    rw [← hrun] at hanswers
    exact hanswers
  · rw [if_neg hfits]
    have hsome : ∃ k, room ≤ 10 + 5 * k := ⟨depth, Nat.not_lt.mp hfits⟩
    have hleast : IsLeast {k | room ≤ 10 + 5 * k} (Nat.find hsome) :=
      ⟨Nat.find_spec hsome, fun _ hk => Nat.find_min' hsome hk⟩
    have hdepth : Nat.find hsome ≤ depth := hleast.2 (Nat.not_lt.mp hfits)
    obtain ⟨rest, rfl⟩ : ∃ rest, budget = rest + 1 + 12 * Nat.find hsome + 5 :=
      ⟨budget - 12 * Nat.find hsome - 6, by omega⟩
    obtain ⟨s, hs, hrun⟩ :=
      hstart.run_strides approving hstrides (rest + 1 + 12 * Nat.find hsome) cause
    have hover := Factorial.run_overflows hs approving hshows hlimit hleast hdepth rest cause
    rw [← hrun] at hover
    exact ⟨_, hleast, hover⟩

theorem factorial_is_computed_in_sixty_four_words :
    let plan : Plan Unit := ⟨64, {}⟩
    let start (n : Word) : Session Unit := ⟨.initial (factorial n) 64, ()⟩
    (∀ n, plan.build (factorial n) = .ok (.initial (factorial n) 64)) ∧
    plan.observers.Approving ∧
    ((start 10).run plan.observers 165 .canceled).1 = .ok 3628800 ∧
    ((start (-3)).run plan.observers 15 .canceled).1 = .ok 1 ∧
    ((start 11).run plan.observers 180 .canceled).1 =
      .error (.stackOverflow 7 Opcode.enter.toByte 6 65 64) := by
  intro plan start
  have hbuilt (n : Word) : plan.build (factorial n) = .ok (.initial (factorial n) 64) := rfl
  have happroving : plan.observers.Approving := Observers.approving_empty
  have hspacious : 5 ≤ plan.words.toNatClampNeg := by decide
  have hten := factorial_is_computed (hbuilt 10) hspacious happroving ()
    (show 15 * ((10 : Word).toInt.toNat + 1) ≤ 165 by decide) .canceled
  have hnegative := factorial_is_computed (hbuilt (-3)) hspacious happroving ()
    (show 15 * ((-3 : Word).toInt.toNat + 1) ≤ 15 by decide) .canceled
  have heleven := factorial_is_computed (hbuilt 11) hspacious happroving ()
    (show 15 * ((11 : Word).toInt.toNat + 1) ≤ 180 by decide) .canceled
  dsimp only at hten hnegative heleven
  rw [if_pos (by decide)] at hten hnegative
  rw [if_neg (by decide)] at heleven
  obtain ⟨k, hk, hover⟩ := heleven
  have hleast : IsLeast {k | plan.words.toNatClampNeg ≤ 10 + 5 * k} 11 := by
    refine ⟨by decide, fun k hk => ?_⟩
    have hle : 64 ≤ 10 + 5 * k := hk
    omega
  rw [hk.unique hleast] at hover
  exact ⟨hbuilt, happroving, hten.1, hnegative.1, hover⟩

end FrameMachine
