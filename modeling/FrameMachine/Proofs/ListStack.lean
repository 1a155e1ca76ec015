import FrameMachine.Proofs.Interference
import FrameMachine.Proofs.StackOps
/-!
# The stack as a list

A run of a program made of stack operations ends where their evaluation on lists ends: with the
list in memory, or in a fault at the operation that the list cannot serve.
-/
namespace FrameMachine

/-- What a run of operations followed by HALT answers and leaves behind, where their evaluation
ended in this way. -/
def Evaluation.Describes (room length : Nat) (answer : Except Failure Word) (m : Machine) :
    Evaluation → Prop
  | .done values =>
    m.halted = true ∧ m.failure = none ∧ m.steps.toNat = length + 1 ∧
    m.core.regs.sp.toInt = values.length - 1 ∧
    m.core.mem.toList.take values.length = values.reverse ∧
    ∃ result, answer = .ok result ∧ ∀ bottom ∈ values.getLast?, result = bottom
  | .stuck index values hitch =>
    ∃ fault, hitch.Raises room fault ∧
    answer = .error (.panicFailure "run" (.fault fault)) ∧
    m.halted = true ∧ m.failure = some (.panicFailure "run" (.fault fault)) ∧
    m.steps.toNat = index ∧ m.core.regs.pc = .ofNat (index + 1) ∧
    m.core.mem.toList.take values.length = values.reverse

namespace Core

theorem Stacks.advanced {room : Nat} {values : List Word} {core : Core}
    (h : core.Stacks room values) : core.advanced.Stacks room values :=
  ⟨h.size, h.sp, h.piles⟩

theorem carryOut_of_stackOp {insn : Instruction} {op : StackOp} (h : insn.stackOp? = some op)
    (core : Core) : core.carryOut insn = (do op.exec; pure Flow.next).run core.advanced := by
  obtain ⟨opcode, hopcode, hop⟩ := Option.bind_eq_some_iff.mp h
  rw [carryOut_of_opcode hopcode, Opcode.exec_eq_stackOp hop]

end Core

namespace Machine

variable {code : Array Instruction} {room index : Nat} {values next : List Word} {m : Machine}
  {insn : Instruction} {op : StackOp} {hitch : Hitch}

/-- The machine is about to fetch the instruction of the given index, with the list on its
stack. -/
structure Ready (code : Array Instruction) (room index : Nat) (values : List Word) (m : Machine) :
    Prop where
  code : m.code = code
  running : m.halted = false
  failure : m.failure = none
  steps : m.steps = .ofNat index
  pc : m.core.regs.pc = .ofNat index
  stack : m.core.Stacks room values

private theorem Ready.fetch? (h : m.Ready code room index values) (hindex : index < 2 ^ 63) :
    m.core.fetch? m.code = code[index]? := by
  rw [Core.fetch?, h.pc, h.code, if_pos (Word.ofNat_nonneg hindex),
    Int64.toNatClampNeg_ofNat_of_lt hindex]

private theorem Ready.pc_advanced (h : m.Ready code room index values) :
    m.core.advanced.regs.pc = .ofNat (index + 1) := by
  rw [Int64.ofNat_add, ← h.pc]
  rfl

private theorem Ready.cycled_ok (h : m.Ready code room index values) (hroom : room < 2 ^ 63)
    (hindex : index < 2 ^ 63) (hinsn : code[index]? = some insn) (hop : insn.stackOp? = some op)
    (hnext : op.apply room values = .ok next) :
    ∃ after, m.cycled = .ok () after ∧ after.Ready code room (index + 1) next := by
  have hrenders := op.exec_renders h.stack.advanced hroom
  rw [hnext] at hrenders
  generalize hrun : op.exec.run m.core.advanced = r at hrenders
  cases hrenders with
  | @done _ core hheld hpc =>
      have hcarry : m.core.carryOut insn = .ok .next core := by
        rw [Core.carryOut_of_stackOp hop, Exec.run_bind, hrun]
        rfl
      refine ⟨_, cycled_of_carryOut (h.fetch? hindex ▸ hinsn) hcarry, h.code, ?_, h.failure, ?_,
        hpc.trans h.pc_advanced, hheld⟩
      · rw [completed, h.running]
        rfl
      · rw [UInt64.ofNat_add, ← h.steps]
        rfl

private theorem Ready.cycled_error (h : m.Ready code room index values) (hroom : room < 2 ^ 63)
    (hindex : index < 2 ^ 63) (hinsn : code[index]? = some insn) (hop : insn.stackOp? = some op)
    (hhitch : op.apply room values = .error hitch) (hguarded : hitch ≠ .emptyPop) :
    ∃ fault core, m.cycled = .error (.panic (.failure (.fault fault))) { m with core := core } ∧
      hitch.Raises room fault ∧ core.mem = m.core.mem ∧ core.regs.pc = .ofNat (index + 1) := by
  have hrenders := op.exec_renders h.stack.advanced hroom
  rw [hhitch] at hrenders
  generalize hrun : op.exec.run m.core.advanced = r at hrenders
  cases hrenders with
  | unguarded => exact absurd rfl hguarded
  | @stuck _ fault core hraises hmem hpc =>
      have hcarry : m.core.carryOut insn = .error (.fault fault) core := by
        rw [Core.carryOut_of_stackOp hop, Exec.run_bind, hrun]
      refine ⟨fault, core, ?_, hraises, hmem, hpc.trans h.pc_advanced⟩
      simp only [cycled, h.fetch? hindex, hinsn, hcarry]

private theorem Ready.cycled_halt (h : m.Ready code room index values) (hindex : index < 2 ^ 63)
    {arg : Word} (hinsn : code[index]? = some (.ofOpcode .halt arg)) :
    m.cycled = .ok () (m.completed .halt m.core.advanced) := by
  apply cycled_of_carryOut (h.fetch? hindex ▸ hinsn)
  rw [Core.carryOut_of_opcode (Opcode.ofByte?_toByte .halt)]
  rfl

end Machine

namespace Session

variable {σ : Type} {obs : Observers σ} {s : Session σ} {after : Machine}

theorem run_of_cycled_ok (h : obs.Approving) (hrunning : s.machine.halted = false)
    (hfailure : s.machine.failure = none) (hcycled : s.machine.unmarked.cycled = .ok () after)
    (budget : Nat) (cause : Failure) :
    ∃ t : Session σ, t.machine.unmarked = after ∧
      s.run obs (budget + 1) cause = t.run obs budget cause := by
  obtain ⟨t, hcycle, hafter⟩ := Action.bare_eq_ok ((Action.bare_cycle h "\t" s).trans hcycled)
  refine ⟨t, hafter, ?_⟩
  rw [run_succ obs hrunning hfailure, hcycle]

theorem run_of_cycled_error {e : Abrupt} (h : obs.Approving) (hrunning : s.machine.halted = false)
    (hfailure : s.machine.failure = none) (hcycled : s.machine.unmarked.cycled = .error e after)
    (budget : Nat) (cause : Failure) :
    ∃ t : Session σ, t.machine.unmarked = after ∧ s.run obs (budget + 1) cause =
      (.error (e.toFailure "run"), ⟨t.machine.stopWith (e.toFailure "run"), t.world⟩) := by
  obtain ⟨t, hcycle, hafter⟩ := Action.bare_eq_error ((Action.bare_cycle h "\t" s).trans hcycled)
  refine ⟨t, hafter, ?_⟩
  rw [run_succ obs hrunning hfailure, hcycle]

variable {code : Array Instruction} {room index : Nat} {values : List Word}

private theorem getElem?_of_drop {insn : Instruction} {rest : List Instruction}
    (h : code.toList.drop index = insn :: rest) : code[index]? = some insn := by
  rw [← Array.getElem?_toList, ← List.head?_drop, h, List.head?_cons]

private theorem run_halt_describes (h : obs.Approving)
    (hready : s.machine.unmarked.Ready code room index values) (hroom : room < 2 ^ 63)
    (hindex : index + 1 < 2 ^ 63) {arg : Word} (hinsn : code[index]? = some (.ofOpcode .halt arg))
    (budget : Nat) (cause : Failure) :
    (Evaluation.done values).Describes room index (s.run obs (budget + 1) cause).1
      (s.run obs (budget + 1) cause).2.machine := by
  have hcycled := hready.cycled_halt (by omega) hinsn
  obtain ⟨t, hafter, hrun⟩ :=
    run_of_cycled_ok h hready.running hready.failure hcycled budget cause
  have hsame : t.machine.unmarked =
      (s.machine.completed .halt s.machine.core.advanced).unmarked := hafter
  have hsteps : t.machine.steps = .ofNat (index + 1) := by
    rw [UInt64.ofNat_add, ← hready.steps]
    exact Machine.steps_of_unmarked hsame
  have hhalted : t.machine.halted = true :=
    (Machine.halted_of_unmarked hsame).trans (Bool.or_true _)
  have hfailure : t.machine.failure = none :=
    (Machine.failure_of_unmarked hsame).trans hready.failure
  have hstack : t.machine.core.Stacks room values := by
    rw [Machine.core_of_unmarked hsame]
    exact hready.stack.advanced
  have hlength := hstack.length_le
  rw [hrun, run_of_halted obs hhalted hfailure]
  refine ⟨hhalted, hfailure, ?_, ?_, hstack.piles.take, _, rfl, ?_⟩
  · rw [hsteps, UInt64.toNat_ofNat', Nat.mod_eq_of_lt (by omega)]
  · rw [hstack.sp, ← Int64.ofInt_eq_ofNat, show (1 : Word) = .ofInt 1 from rfl, ← Int64.ofInt_sub,
      Int64.toInt_ofInt_of_le (by omega) (by omega)]
  · intro bottom hbottom
    apply Memory.load_of_get?
    rw [show (0 : Word) = .ofNat 0 from rfl, Memory.get?_ofNat (by omega)]
    exact hstack.piles.bottom hbottom

private theorem run_describes (h : obs.Approving) {arg : Word} {rest : List Instruction}
    (hready : s.machine.unmarked.Ready code room index values) (hroom : room < 2 ^ 63)
    (hcode : code.toList.drop index = rest ++ [.ofOpcode .halt arg])
    (hrest : ∀ insn ∈ rest, insn.stackOp?.isSome) (hindex : index + rest.length + 1 < 2 ^ 63)
    (hguarded : ∀ k below,
      StackOp.evaluate room (rest.filterMap Instruction.stackOp?) index values ≠
        .stuck k below .emptyPop)
    {budget : Nat} (hbudget : rest.length < budget) (cause : Failure) :
    (StackOp.evaluate room (rest.filterMap Instruction.stackOp?) index values).Describes room
      (index + rest.length) (s.run obs budget cause).1 (s.run obs budget cause).2.machine := by
  -- on the instructions still ahead, each of which takes one unit of the budget
  induction rest generalizing s index values budget with
  | nil =>
      obtain ⟨budget, rfl⟩ : ∃ b, budget = b + 1 := Nat.exists_eq_add_one.mpr hbudget
      exact run_halt_describes h hready hroom hindex (getElem?_of_drop hcode) budget cause
  | cons insn rest ih =>
      rw [List.length_cons] at hindex hbudget
      obtain ⟨budget, rfl⟩ : ∃ b, budget = b + 1 := Nat.exists_eq_add_one.mpr (by omega)
      obtain ⟨op, hop⟩ := Option.isSome_iff_exists.mp (hrest insn List.mem_cons_self)
      have hinsn : code[index]? = some insn := getElem?_of_drop hcode
      rw [List.filterMap_cons_some hop, StackOp.evaluate] at hguarded ⊢
      cases happly : op.apply room values with
      | ok next =>
          rw [happly] at hguarded
          obtain ⟨after, hcycled, hnext⟩ := hready.cycled_ok hroom (by omega) hinsn hop happly
          obtain ⟨t, hafter, hrun⟩ :=
            run_of_cycled_ok h hready.running hready.failure hcycled budget cause
          have htail : code.toList.drop (index + 1) = rest ++ [.ofOpcode .halt arg] := by
            rw [← List.tail_drop, hcode, List.cons_append, List.tail_cons]
          have hlength : index + (insn :: rest).length = index + 1 + rest.length := by
            rw [List.length_cons]
            omega
          rw [hrun, hlength]
          rw [← hafter] at hnext
          exact ih hnext htail (List.forall_mem_of_forall_mem_cons hrest) (by omega) hguarded
            (by omega)
      | error hitch =>
          rw [happly] at hguarded
          obtain ⟨fault, core, hcycled, hraises, hmem, hpc⟩ := hready.cycled_error hroom (by omega)
            hinsn hop happly fun hempty => hguarded index values (hempty ▸ rfl)
          obtain ⟨t, hafter, hrun⟩ :=
            run_of_cycled_error h hready.running hready.failure hcycled budget cause
          have hsame : t.machine.unmarked = { s.machine with core := core }.unmarked := hafter
          rw [hrun]
          refine ⟨fault, hraises, rfl, rfl, rfl, ?_, ?_, ?_⟩
          · change t.machine.steps.toNat = index
            rw [(Machine.steps_of_unmarked hsame).trans hready.steps, UInt64.toNat_ofNat',
              Nat.mod_eq_of_lt (by omega)]
          · change t.machine.core.regs.pc = _
            rw [Machine.core_of_unmarked hsame]
            exact hpc
          · change t.machine.core.mem.toList.take _ = _
            rw [Machine.core_of_unmarked hsame]
            dsimp only
            rw [hmem]
            exact hready.stack.piles.take

end Session

private theorem Plan.ready_of_build {σ : Type} {plan : Plan σ} {code : Array Instruction}
    {m : Machine} (built : plan.build code = .ok m) :
    m.unmarked.Ready code plan.words.toNatClampNeg 0 [] := by
  rw [Plan.build_eq_initial built]
  exact ⟨rfl, rfl, rfl, rfl, rfl, Array.size_replicate, rfl, trivial⟩

/-- A run of stack operations followed by HALT, with time for all of them, ends as their evaluation
on the empty list does, unless that meets a POP on the empty list. If the evaluation completes, the
run halts after one step for each instruction, the list stands in memory from address zero to the
top of the stack, and the run answers its bottom. If it gets stuck, the run fails with a fault at
the same operation, which is not counted, and the list stays in memory. -/
theorem stack_implements_list {σ : Type} {plan : Plan σ} {program : List Instruction}
    (stackwise : ∀ insn ∈ program, insn.stackOp?.isSome) (short : program.length < 2 ^ 63 - 1)
    {arg : Word} {m : Machine}
    (built : plan.build (program ++ [Instruction.ofOpcode .halt arg]).toArray = .ok m)
    (approving : plan.observers.Approving) (world : σ) (budget : Nat)
    (enough : program.length < budget) (cause : Failure)
    (guarded : ∀ index values, StackOp.evaluate plan.words.toNatClampNeg
      (program.filterMap Instruction.stackOp?) 0 [] ≠ .stuck index values .emptyPop) :
    let room := plan.words.toNatClampNeg
    let run := Session.run plan.observers budget cause ⟨m, world⟩
    (StackOp.evaluate room (program.filterMap Instruction.stackOp?) 0 []).Describes room
      program.length run.1 run.2.machine := by
  intro room run
  have hroom : room < 2 ^ 63 := by
    have hwords := plan.words.toInt_lt
    simp only [room, Int64.toNatClampNeg]
    omega
  have hdescribes := Session.run_describes (s := ⟨m, world⟩) approving (Plan.ready_of_build built)
    hroom rfl stackwise (by omega) guarded enough cause
  rw [Nat.zero_add] at hdescribes
  exact hdescribes

/-- The least word divided by minus one, and the remainder of -7 by 2. -/
def quotientAndRemainder : List Instruction :=
  [.ofOpcode .loadc Int64.minValue, .ofOpcode .loadc (-1), .ofOpcode .div 0,
    .ofOpcode .loadc (-7), .ofOpcode .loadc 2, .ofOpcode .mod 0]

theorem stack_implements_list_of_quotient_and_remainder :
    let plan (capacity : Word) : Plan Unit := ⟨capacity, {}⟩
    let code := (quotientAndRemainder ++ [Instruction.ofOpcode .halt 0]).toArray
    let run (capacity : Nat) :=
      Session.run {} 7 .canceled (⟨.initial code capacity, ()⟩ : Session Unit)
    (plan 3).build code = .ok (.initial code 3) ∧ (plan 2).build code = .ok (.initial code 2) ∧
    (Evaluation.done [-1, Int64.minValue]).Describes 3 6 (run 3).1 (run 3).2.machine ∧
    (Evaluation.stuck 4 [-7, Int64.minValue] .noRoom).Describes 2 6 (run 2).1
      (run 2).2.machine := by
  intro plan code run
  have hstackwise : ∀ insn ∈ quotientAndRemainder, insn.stackOp?.isSome := by decide
  have hdone : StackOp.evaluate 3 (quotientAndRemainder.filterMap Instruction.stackOp?) 0 [] =
      .done [-1, Int64.minValue] := by decide +kernel
  have hstuck : StackOp.evaluate 2 (quotientAndRemainder.filterMap Instruction.stackOp?) 0 [] =
      .stuck 4 [-7, Int64.minValue] .noRoom := by decide +kernel
  have hwide : (plan 3).build code = .ok (.initial code 3) := rfl
  have hnarrow : (plan 2).build code = .ok (.initial code 2) := rfl
  simp only [run]
  refine ⟨hwide, hnarrow, ?_, ?_⟩
  · have hdescribes := stack_implements_list hstackwise (by decide) hwide Observers.approving_empty
      () 7 (by decide) .canceled (fun index values => hdone ▸ by simp)
    simp only [show (plan 3).words.toNatClampNeg = 3 from rfl, hdone] at hdescribes
    simp only [plan] at hdescribes
    exact hdescribes
  · have hdescribes := stack_implements_list hstackwise (by decide) hnarrow
      Observers.approving_empty () 7 (by decide) .canceled (fun index values => hstuck ▸ by simp)
    simp only [show (plan 2).words.toNatClampNeg = 2 from rfl, hstuck] at hdescribes
    simp only [plan] at hdescribes
    exact hdescribes

end FrameMachine
