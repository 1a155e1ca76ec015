import FrameMachine.Proofs.HeapWords
import FrameMachine.Proofs.Interference
/-!
# Requests for frames and blocks

ENTER asks for words above the stack and NEW for words below the heap. Each compares one sum or
difference of words with the register on the other side. ENTER's sum can wrap around, and a frame
that ends far above all memory is then taken for one that ends far below it. NEW says no with a
zero, which is also the address of the block that takes all there is when no frame is open.
-/
namespace FrameMachine

namespace Core

variable {code : Array Instruction} {before after : Core}

private theorem Completes.new_cases (h : before.Completes code after)
    (hop : before.opcode? code = some .new) :
    (after.regs.np = before.regs.np ∧ after.top = 0) ∨
    (0 < before.top ∧ before.regs.ep < before.regs.np - before.top ∧
      after.regs.np = before.regs.np - before.top ∧ after.top = before.regs.np - before.top) := by
  obtain ⟨insn, op, hfetch, hop', heffect⟩ := h.effect
  rw [opcode?_eq hfetch, hop'] at hop
  cases hop
  cases heffect with
  | confined hstill _ => cases hstill
  | refused hsize _ => exact .inl ⟨rfl, top_put (Memory.covers_of_get? hsize) 0⟩
  | granted hsize hpos hfits =>
      have htop : before.top = _ := Memory.load_of_get? hsize
      rw [htop]
      exact .inr ⟨hpos, hfits, rfl, top_put (Memory.covers_of_get? hsize) _⟩

private theorem Completes.new_top_eq_zero_iff (h : before.Completes code after)
    (hop : before.opcode? code = some .new) (hep : -1 ≤ before.regs.ep) :
    after.top = 0 ↔ after.regs.np = before.regs.np ∨
      (before.regs.ep = -1 ∧ before.top = before.regs.np) := by
  rcases h.new_cases hop with ⟨hsame, hzero⟩ | ⟨hpos, hfits, hnp, htop⟩
  · exact iff_of_true hzero (.inl hsame)
  · have hmoved : after.regs.np ≠ before.regs.np := by grind
    rw [or_iff_right hmoved, htop]
    -- only a frame that ends just below address zero leaves that address to the block
    constructor
    · intro hzero
      rw [hzero] at hfits
      exact ⟨by grind, by grind⟩
    · rintro ⟨-, hall⟩
      rw [hall, Int64.sub_self]

theorem carryOut_enter {insn : Instruction} (h : Opcode.ofByte? insn.opcode = some .enter)
    (core : Core) :
    core.carryOut insn =
      if core.regs.np ≤ core.regs.sp + insn.arg then
        .error (.refusal (.stackOverflow core.regs.pc Opcode.enter.toByte insn.arg
          (core.regs.sp + insn.arg) core.regs.np)) core.advanced
      else .ok .next
        ⟨{ core.regs with pc := core.regs.pc + 1, ep := core.regs.sp + insn.arg }, core.mem⟩ := by
  rw [carryOut_of_opcode h, Opcode.run_enter, advanced]

end Core

/-- What the zero of a NEW says, over any calls during which no frame ends below the stack. A NEW
that completes leaves zero on top exactly when it has allocated nothing or, with no frame open, was
asked for all the words below the heap. Above an open frame a zero therefore says that nothing was
allocated. A block at address zero is the last one of its machine. -/
theorem new_answers_zero_iff {σ : Type} (plan : Plan σ) (code : Array Instruction) (m : Machine)
    (built : plan.build code = .ok m) (world : σ) (calls : List Call)
    (framed : ∀ core ∈ Session.states plan.observers calls ⟨m, world⟩, -1 ≤ core.regs.ep)
    (past future : List Core) (before after : Core)
    (split : Session.states plan.observers calls ⟨m, world⟩ = past ++ before :: after :: future)
    (new : before.opcode? code = some .new) (done : before.Completes code after) :
    (after.top = 0 ↔ after.regs.np = before.regs.np ∨
      (before.regs.ep = -1 ∧ before.top = before.regs.np)) ∧
    (0 ≤ before.regs.ep → (after.top = 0 ↔ after.regs.np = before.regs.np)) ∧
    (after.top = 0 → after.regs.np ≠ before.regs.np →
      ∀ core ∈ after :: future, core.regs.np = 0) := by
  have hchain := (plan.states_of_build built world calls).2
  rw [split] at framed hchain
  obtain ⟨-, -, hchain⟩ := List.isChain_append_cons_cons.mp hchain
  obtain ⟨hep, hframed⟩ := List.forall_mem_cons.mp (List.forall_mem_append.mp framed).2
  have hiff := done.new_top_eq_zero_iff new hep
  refine ⟨hiff, ?_, ?_⟩
  · intro hframe
    rw [hiff, or_iff_left]
    rintro ⟨hopen, -⟩
    rw [hopen] at hframe
    exact absurd hframe (by decide)
  · intro hzero hmoved core hcore
    have hnp : after.regs.np = 0 := by
      rcases done.new_cases new with ⟨hsame, -⟩ | ⟨-, -, hnp, htop⟩
      · exact absurd hsame hmoved
      · rw [hnp, ← htop, hzero]
    have htally := Core.tally_of_isChain hchain hframed (by rw [hnp]; exact Int64.le_refl 0)
    have hbounds := htally.bounds core hcore
    rw [hnp, Int64.toInt_zero] at hbounds
    exact Int64.toInt_inj.mp (Int.le_antisymm hbounds.2 hbounds.1)

def wholeMemory : Array Instruction :=
  #[.ofOpcode .loadc 4, .ofOpcode .new 0, .ofOpcode .halt 0]

theorem zero_answered_for_granted_block :
    let plan : Plan Unit := ⟨4, {}⟩
    let states := Session.states plan.observers [.step, .step] ⟨.initial wholeMemory 4, ()⟩
    plan.build wholeMemory = .ok (.initial wholeMemory 4) ∧
    (∀ core ∈ states, -1 ≤ core.regs.ep) ∧
    ∃ first before after, states = [first, before, after] ∧
      before.opcode? wholeMemory = some .new ∧ before.Completes wholeMemory after ∧
      after.top = 0 ∧ before.regs.np = 4 ∧ after.regs.np = 0 ∧
      ¬(after.top = 0 ↔ after.regs.np = before.regs.np) := by
  refine ⟨rfl, by decide +kernel, .initial 4, ⟨⟨1, 0, -1, -1, 4⟩, #[4, 0, 0, 0]⟩,
    ⟨⟨2, 0, -1, -1, 0⟩, #[0, 0, 0, 0]⟩, ?_⟩
  decide +kernel

theorem new_answers_zero_iff_whole_memory :
    let plan : Plan Unit := ⟨4, {}⟩
    let states := Session.states plan.observers [.run 9 .canceled] ⟨.initial wholeMemory 4, ()⟩
    let before : Core := ⟨⟨1, 0, -1, -1, 4⟩, #[4, 0, 0, 0]⟩
    let after : Core := ⟨⟨2, 0, -1, -1, 0⟩, #[0, 0, 0, 0]⟩
    let last : Core := ⟨⟨3, 0, -1, -1, 0⟩, #[0, 0, 0, 0]⟩
    plan.build wholeMemory = .ok (.initial wholeMemory 4) ∧
    (∀ core ∈ states, -1 ≤ core.regs.ep) ∧
    states = [.initial 4] ++ before :: after :: [last] ∧
    before.opcode? wholeMemory = some .new ∧ before.Completes wholeMemory after ∧
    after.top = 0 ∧ ∀ core ∈ [after, last], core.regs.np = 0 := by
  intro plan states before after last
  have hbuilt : plan.build wholeMemory = .ok (.initial wholeMemory 4) := rfl
  have hframed : ∀ core ∈ states, -1 ≤ core.regs.ep := by decide +kernel
  have hsplit : states = [.initial 4] ++ before :: after :: [last] := by decide +kernel
  have hnew : before.opcode? wholeMemory = some .new := by decide +kernel
  have hdone : before.Completes wholeMemory after := by decide +kernel
  obtain ⟨hiff, -, hlast⟩ := new_answers_zero_iff plan wholeMemory _ hbuilt () [.run 9 .canceled]
    hframed [.initial 4] [last] before after hsplit hnew hdone
  have hzero : after.top = 0 := hiff.mpr (.inr (by decide +kernel))
  exact ⟨hbuilt, hframed, hsplit, hnew, hdone, hzero, hlast hzero (by decide +kernel)⟩

namespace Session

variable {σ : Type} {obs : Observers σ} {s : Session σ} {insn : Instruction}

private theorem step_enter_of_le (h : obs.Approving) (hrunning : s.machine.halted = false)
    (hfailure : s.machine.failure = none) (hinsn : s.machine.fetch? = some insn)
    (hop : Opcode.ofByte? insn.opcode = some .enter)
    (hle : s.machine.core.regs.np ≤ s.machine.core.regs.sp + insn.arg) :
    (s.step obs).1 = some (.stackOverflow s.machine.core.regs.pc Opcode.enter.toByte insn.arg
      (s.machine.core.regs.sp + insn.arg) s.machine.core.regs.np) ∧
    (s.step obs).2.machine.halted = true ∧ (s.step obs).2.machine.steps = s.machine.steps ∧
    (s.step obs).2.machine.core = s.machine.core.advanced := by
  have hstep := step_of_fetched h hrunning hfailure hinsn
  rw [Core.carryOut_enter hop, if_pos hle] at hstep
  obtain ⟨hanswer, hafter⟩ := hstep
  have hsteps := Machine.steps_of_unmarked hafter
  exact ⟨hanswer, Machine.halted_of_unmarked hafter, hsteps, Machine.core_of_unmarked hafter⟩

private theorem step_enter_of_lt (h : obs.Approving) (hrunning : s.machine.halted = false)
    (hfailure : s.machine.failure = none) (hinsn : s.machine.fetch? = some insn)
    (hop : Opcode.ofByte? insn.opcode = some .enter)
    (hlt : s.machine.core.regs.sp + insn.arg < s.machine.core.regs.np) :
    (s.step obs).1 = none ∧ (s.step obs).2.machine.halted = false ∧
    (s.step obs).2.machine.steps = s.machine.steps + 1 ∧
    (s.step obs).2.machine.core =
      ⟨{ s.machine.core.regs with
          pc := s.machine.core.regs.pc + 1, ep := s.machine.core.regs.sp + insn.arg },
        s.machine.core.mem⟩ := by
  have hstep := step_of_fetched h hrunning hfailure hinsn
  rw [Core.carryOut_enter hop, if_neg (Int64.not_le.mpr hlt)] at hstep
  obtain ⟨hanswer, hafter⟩ := hstep
  have hhalted := Machine.halted_of_unmarked hafter
  rw [Machine.completed, hrunning] at hhalted
  exact ⟨hanswer, hhalted, Machine.steps_of_unmarked hafter, Machine.core_of_unmarked hafter⟩

end Session

/-- An ENTER with a nonnegative argument, in any state that a machine under observers that approve
reaches without halting. The sum of `sp` and the argument as integers, taken down by `2 ^ 64` from
`2 ^ 63` on, is what is compared with `np`. Where it reaches `np` the step fails with a stack
overflow that carries the counter, the argument and `np`, and only the counter has moved; otherwise
it becomes `ep`. Below `2 ^ 63` a frame is accepted exactly when it fits below `np`, and from there
on it is accepted whatever its size, and ends below address zero. -/
theorem enter_compares_wrapped_sum {σ : Type} {plan : Plan σ} {code : Array Instruction}
    {m : Machine} (built : plan.build code = .ok m) (approving : plan.observers.Approving)
    (world : σ) (calls : List Call) :
    let obs := plan.observers
    let s := Session.performAll obs calls ⟨m, world⟩
    let regs := s.machine.core.regs
    let answer := (s.step obs).1
    let after := (s.step obs).2.machine
    s.machine.halted = false → ∀ insn, s.machine.fetch? = some insn →
    Opcode.ofByte? insn.opcode = some .enter → 0 ≤ insn.arg →
    let sum := regs.sp.toInt + insn.arg.toInt
    let extent := regs.sp + insn.arg
    extent.toInt = (if sum < 2 ^ 63 then sum else sum - 2 ^ 64) ∧
    (regs.np ≤ extent →
      answer = some (.stackOverflow regs.pc Opcode.enter.toByte insn.arg extent regs.np) ∧
      after.halted = true ∧ after.steps = s.machine.steps ∧
      after.core = s.machine.core.advanced) ∧
    (extent < regs.np →
      answer = none ∧ after.halted = false ∧ after.steps = s.machine.steps + 1 ∧
      after.core = ⟨{ regs with pc := regs.pc + 1, ep := extent }, s.machine.core.mem⟩) ∧
    (sum < 2 ^ 63 → (answer = none ↔ sum < regs.np.toInt)) ∧
    (2 ^ 63 ≤ sum → 0 ≤ regs.np → answer = none ∧ after.core.regs.ep < 0) := by
  intro obs s regs answer after hrunning insn hinsn hop harg sum extent
  have hextent : extent.toInt = (if sum < 2 ^ 63 then sum else sum - 2 ^ 64) :=
    Word.toInt_add_eq_ite harg
  have hfailure := (Plan.leads_of_build built world calls).failure_eq_none hrunning
  have hrefused := Session.step_enter_of_le approving hrunning hfailure hinsn hop
  have hgranted := Session.step_enter_of_lt approving hrunning hfailure hinsn hop
  refine ⟨hextent, hrefused, hgranted, ?_, ?_⟩
  · intro hexact
    rw [if_pos hexact] at hextent
    rw [← hextent, ← Int64.lt_iff_toInt_lt]
    refine ⟨fun hanswer => Int64.not_le.mp fun hle => ?_, fun hlt => (hgranted hlt).1⟩
    cases hanswer.symm.trans (hrefused hle).1
  · intro hwrapped hnp
    have hneg : extent < 0 := by
      have hhigh := regs.sp.toInt_lt
      have hhigh' := insn.arg.toInt_lt
      rw [Int64.lt_iff_toInt_lt, Int64.toInt_zero, hextent, if_neg (Int.not_lt.mpr hwrapped)]
      omega
    obtain ⟨hanswer, -, -, hcore⟩ := hgranted (Int64.lt_of_lt_of_le hneg hnp)
    rw [hcore]
    exact ⟨hanswer, hneg⟩

def frameAboveTwo (n : Word) : Array Instruction :=
  #[.ofOpcode .loadc 1, .ofOpcode .loadc 1, .ofOpcode .enter n, .ofOpcode .halt 0]

theorem oversized_frame_accepted :
    let plan : Plan Unit := ⟨4, {}⟩
    let code := frameAboveTwo Int64.maxValue
    let s := Session.performAll plan.observers [.step, .step] ⟨.initial code 4, ()⟩
    let regs := s.machine.core.regs
    plan.build code = .ok (.initial code 4) ∧ s.machine.halted = false ∧
    s.machine.fetch? = some (.ofOpcode .enter Int64.maxValue) ∧
    regs.np.toInt ≤ regs.sp.toInt + Int64.maxValue.toInt ∧
    (s.step plan.observers).1 = none ∧
    (s.step plan.observers).2.machine.core.regs.ep = Int64.minValue := by
  decide +kernel

theorem enter_compares_wrapped_sum_at_heap :
    let plan : Plan Unit := ⟨4, {}⟩
    let code := frameAboveTwo 3
    let s := Session.performAll plan.observers [.step, .step] ⟨.initial code 4, ()⟩
    plan.build code = .ok (.initial code 4) ∧ s.machine.halted = false ∧
    s.machine.fetch? = some (.ofOpcode .enter 3) ∧
    s.machine.core.regs.np ≤ s.machine.core.regs.sp + 3 ∧
    (s.step plan.observers).1 = some (.stackOverflow 2 Opcode.enter.toByte 3 4 4) ∧
    (s.step plan.observers).2.machine.steps = 2 ∧
    (s.step plan.observers).2.machine.core = ⟨⟨3, 1, -1, -1, 4⟩, #[1, 1, 0, 0]⟩ := by
  intro plan code s
  have hbuilt : plan.build code = .ok (.initial code 4) := rfl
  have hrunning : s.machine.halted = false := by decide +kernel
  have hinsn : s.machine.fetch? = some (.ofOpcode .enter 3) := by decide +kernel
  have hcore : s.machine.core = ⟨⟨2, 1, -1, -1, 4⟩, #[1, 1, 0, 0]⟩ := by decide +kernel
  have hsteps : s.machine.steps = 2 := by decide +kernel
  have henter := enter_compares_wrapped_sum hbuilt Observers.approving_empty () [.step, .step]
  simp only [s] at hrunning hinsn hcore hsteps ⊢
  obtain ⟨-, hrefused, -⟩ := henter hrunning _ hinsn rfl (by decide)
  rw [hcore, hsteps] at hrefused
  obtain ⟨hanswer, -, hsteps', hcore'⟩ := hrefused (by decide)
  refine ⟨hbuilt, hrunning, hinsn, ?_, hanswer, hsteps', hcore'⟩
  rw [hcore]
  decide

end FrameMachine
