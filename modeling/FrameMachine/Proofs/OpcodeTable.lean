import FrameMachine.Proofs.Interference
/-!
# The opcode table and the interpreter

The table says which opcode bytes are operations and which operations read their argument. The
interpreter keeps to it: it refuses the other bytes as unknown and no operation besides, and two
programs that differ only in arguments nobody reads move alike and are logged alike. A tracer
could tell them apart, since it is shown the instruction itself.
-/
namespace FrameMachine

namespace Opcode

variable {here arg : Word} {op : Opcode}

private theorem exec_eq_of_hasArg_eq_false (h : op.hasArg = false) (arg' : Word) :
    op.exec here arg = op.exec here arg' := by
  cases op with
  | loadc | loada | storea | load | store | loadrc | loadr | storer | alloc | jump | jumpz | jumpi
  | enter | slide => cases h
  | _ => rfl

private theorem byteHasArg_of_ofByte? {b : UInt8} (h : ofByte? b = some op) :
    byteHasArg b = op.hasArg := by
  rw [byteHasArg, h, Option.any_some]

theorem byteValid_eq (b : UInt8) : byteValid b = decide (b ≤ halt.toByte) := by
  have hsize : all.size = halt.toByte.toNat + 1 := rfl
  rw [Bool.eq_iff_iff, byteValid, ofByte?, isSome_getElem?, hsize, decide_eq_true_iff,
    UInt8.le_iff_toNat_le, Nat.lt_succ_iff]

end Opcode

namespace Exec

variable {α β : Type}

def NeverRefuses (act : Exec α) : Prop :=
  ∀ core after cause, act.run core ≠ .error (.refusal cause) after

private theorem NeverRefuses.pure (a : α) : NeverRefuses (pure a) := nofun

private theorem NeverRefuses.bind {act : Exec α} {next : α → Exec β} (h : NeverRefuses act)
    (hnext : ∀ a, NeverRefuses (next a)) : NeverRefuses (act >>= next) := by
  intro core after cause hrun
  rw [run_bind] at hrun
  cases hact : act.run core with
  | ok a middle =>
      rw [hact] at hrun
      exact hnext a middle after cause hrun
  | error stop middle =>
      rw [hact] at hrun
      cases hrun
      exact h core after cause hact

private theorem NeverRefuses.regs : NeverRefuses regs := nofun

private theorem NeverRefuses.updateRegs (f : Registers → Registers) :
    NeverRefuses (updateRegs f) := nofun

private theorem NeverRefuses.fault (f : Fault) : NeverRefuses (fault f : Exec α) := nofun

private theorem NeverRefuses.read (addr : Word) : NeverRefuses (read addr) := by
  intro core after cause hrun
  rw [run_read] at hrun
  cases hget : core.mem.get? addr <;> rw [hget] at hrun <;> cases hrun

private theorem NeverRefuses.write (addr w : Word) : NeverRefuses (write addr w) := by
  intro core after cause hrun
  rw [run_write] at hrun
  split at hrun <;> cases hrun

private theorem NeverRefuses.push {value : Exec Word} (hvalue : NeverRefuses value) :
    NeverRefuses (push value) :=
  .bind .regs fun _ => .bind (.updateRegs _) fun _ => .bind hvalue fun _ => .write _ _

private theorem NeverRefuses.binary (f : Word → Word → Except Fault Word) :
    NeverRefuses (binary f) := by
  refine .bind .regs fun _ => .bind (.read _) fun left => .bind (.read _) fun right => ?_
  cases f left right with
  | ok w => exact .bind (.updateRegs _) fun _ => .write _ w
  | error e => exact .fault e

private theorem NeverRefuses.unary (f : Word → Word) : NeverRefuses (unary f) :=
  .bind .regs fun _ => .bind (.read _) fun _ => .write _ _

private theorem NeverRefuses.copy (src dst : Word) (n : Nat) : NeverRefuses (copy src dst n) := by
  induction n generalizing src dst with
  | zero => exact .pure ()
  | succ n ih => exact .bind (.read src) fun w => .bind (.write dst w) fun _ => ih _ _

end Exec

namespace Opcode

open Exec

/-- Only the two operations that lay out a frame refuse anything. -/
theorem exec_neverRefuses (here : Word) (op : Opcode) (arg : Word) (henter : op ≠ enter)
    (hret : op ≠ ret) : NeverRefuses (op.exec here arg) := by
  have hdone {act : Exec Unit} (hact : NeverRefuses act) :
      NeverRefuses (do act; pure Flow.next) := .bind hact fun _ => .pure _
  cases op with
  | loadc => exact hdone (.push (.pure arg))
  | loada => exact hdone (.push (.read arg))
  | loadrc => exact hdone (.push (.bind .regs fun _ => .pure _))
  | loadr => exact hdone (.push (.bind .regs fun _ => .read _))
  | dup => exact hdone (.push (.bind .regs fun _ => .read _))
  | add | sub | mul | div | mod | and | or | xor | eq | neq | le | leq | gr | geq =>
      exact hdone (.binary _)
  | not | neg => exact hdone (.unary _)
  | pop | alloc | jump => exact hdone (.updateRegs _)
  | halt => exact .pure _
  | enter => exact absurd rfl henter
  | ret => exact absurd rfl hret
  | storea => exact .bind .regs fun _ => .bind (.read _) fun w => hdone (.write arg w)
  | load | store =>
      exact .bind .regs fun _ => .bind (.read _) fun p => .bind (.copy _ _ _) fun _ =>
        hdone (.updateRegs _)
  | storer =>
      exact .bind .regs fun _ => .bind (.push (.pure _)) fun _ => .bind (.read _) fun w =>
        .bind (.write _ w) fun _ => hdone (.updateRegs _)
  | jumpz | jumpi =>
      exact .bind .regs fun _ => .bind (.read _) fun w => .bind (.updateRegs _) fun _ =>
        hdone (.updateRegs _)
  | mark =>
      exact .bind .regs fun _ => .bind (.write _ _) fun _ => .bind (.write _ _) fun _ =>
        hdone (.updateRegs _)
  | call =>
      exact .bind .regs fun _ => .bind (.read _) fun entry => .bind (.updateRegs _) fun _ =>
        .bind (.write _ _) fun _ => hdone (.updateRegs _)
  | slide =>
      exact .bind .regs fun _ => .bind (.read _) fun top => .bind (.updateRegs _) fun _ =>
        hdone (.write _ _)
  | new =>
      intro core after cause hrun
      rw [run_new] at hrun
      split at hrun
      · cases hrun
      · split at hrun <;> cases hrun

theorem refusal_of_exec {here arg : Word} {op : Opcode} {core after : Core} {cause : Failure}
    (h : (op.exec here arg).run core = .error (.refusal cause) after) :
    ∃ frame ep np, cause = .stackOverflow here op.toByte frame ep np := by
  by_cases henter : op = enter
  · subst henter
    rw [run_enter] at h
    split at h <;> cases h
    exact ⟨_, _, _, rfl⟩
  by_cases hret : op = ret
  · subst hret
    rw [run_ret] at h
    split at h
    · cases h
    split at h
    · cases h
    split at h <;> cases h
    exact ⟨_, _, _, rfl⟩
  · exact absurd h (exec_neverRefuses here op arg henter hret core after cause)

end Opcode

namespace Instruction

/-- The same operation, with the same argument where the table says that it is read. -/
def Alike (a b : Instruction) : Prop :=
  a.opcode = b.opcode ∧ (Opcode.byteHasArg a.opcode = true → a.arg = b.arg)

instance (a b : Instruction) : Decidable (a.Alike b) := inferInstanceAs (Decidable (_ ∧ _))

namespace Alike

variable {a b : Instruction}

private theorem text_eq (h : a.Alike b) : a.text = b.text := by
  obtain ⟨hop, harg⟩ := h
  rw [text, text, ← hop]
  split
  · rename_i hread
    rw [harg hread]
  · rfl

/-- The interpreter reads no argument that the table does not grant. -/
private theorem exec_eq (h : a.Alike b) (here : Word) : a.exec here = b.exec here := by
  obtain ⟨hop, harg⟩ := h
  rw [Instruction.exec, Instruction.exec, ← hop]
  cases hbyte : Opcode.ofByte? a.opcode with
  | none => rfl
  | some op =>
      rw [Opcode.byteHasArg_of_ofByte? hbyte] at harg
      cases hread : op.hasArg with
      | true => rw [harg hread]
      | false => exact Opcode.exec_eq_of_hasArg_eq_false hread b.arg

end Alike
end Instruction

def CodeAlike (code code' : Array Instruction) : Prop :=
  List.Forall₂ Instruction.Alike code.toList code'.toList

instance (code code' : Array Instruction) : Decidable (CodeAlike code code') :=
  inferInstanceAs (Decidable (List.Forall₂ _ _ _))

namespace Core

variable {code code' : Array Instruction} {core : Core} {insn : Instruction}

private theorem fetch?_of_codeAlike (h : CodeAlike code code') (core : Core) :
    match core.fetch? code with
    | none => core.fetch? code' = none
    | some insn => ∃ insn', core.fetch? code' = some insn' ∧ insn.Alike insn' := by
  rw [fetch?, fetch?]
  by_cases hpc : 0 ≤ core.regs.pc
  · rw [if_pos hpc, if_pos hpc, ← Array.getElem?_toList, ← Array.getElem?_toList]
    generalize core.regs.pc.toNatClampNeg = i
    rw [CodeAlike] at h
    generalize code.toList = insns, code'.toList = insns' at h ⊢
    induction h generalizing i with
    | nil => rfl
    | cons halike _ ih =>
        cases i with
        | zero => exact ⟨_, rfl, halike⟩
        | succ i => exact ih i
  · rw [if_neg hpc, if_neg hpc]

private theorem carryOut_of_alike {insn' : Instruction} (h : insn.Alike insn') (core : Core) :
    core.carryOut insn' = core.carryOut insn := by
  rw [carryOut_eq, carryOut_eq, h.exec_eq]

end Core

namespace Session

variable {σ : Type}

def recoded (code : Array Instruction) (s : Session σ) : Session σ :=
  ⟨{ s.machine with code := code }, s.world⟩

end Session

namespace Action

variable {σ α β : Type} {obs : Observers σ} {indent : String} {code : Array Instruction}

def recoded (code : Array Instruction) :
    EStateM.Result Abrupt (Session σ) α → EStateM.Result Abrupt (Session σ) α
  | .ok a s => .ok a (s.recoded code)
  | .error e s => .error e (s.recoded code)

/-- The action does not look at the program. -/
def CodeBlind (act : Action σ α) : Prop :=
  ∀ code s, act.run (s.recoded code) = recoded code (act.run s)

private theorem CodeBlind.pure (a : α) : (pure a : Action σ α).CodeBlind := fun _ _ => rfl

private theorem CodeBlind.bind {act : Action σ α} {next : α → Action σ β} (h : act.CodeBlind)
    (hnext : ∀ a, (next a).CodeBlind) : (act >>= next).CodeBlind := by
  intro code s
  rw [Exec.run_bind, Exec.run_bind, h code s]
  cases act.run s with
  | ok a t => exact hnext a code t
  | error e t => rfl

private theorem CodeBlind.setHalted : (setHalted : Action σ Unit).CodeBlind := fun _ _ => rfl

private theorem CodeBlind.countStep : (countStep : Action σ Unit).CodeBlind := fun _ _ => rfl

private theorem CodeBlind.log (mark : String) (text : Core → String) :
    (log obs indent mark text).CodeBlind := by
  intro code s
  have hline : lineOf (s.recoded code).machine indent mark text =
      lineOf s.machine indent mark text := rfl
  rw [run_log, run_log, hline, show (s.recoded code).world = s.world from rfl]
  cases obs.logger with
  | none => rfl
  | some logger =>
      dsimp only
      rcases logger (lineOf s.machine indent mark text) s.world with ⟨_ | _ | _, world⟩ <;> rfl

private theorem CodeBlind.halt (cause : Failure) :
    (halt obs indent cause : Action σ α).CodeBlind := by
  intro code s
  rw [run_halt, run_halt, CodeBlind.log]
  rcases (Action.log obs indent "#" fun _ => "halt error: " ++ cause.message).run s with
    _ | ⟨_ | _ | _, _⟩ <;> rfl

private theorem trace_of_untraced (h : obs.tracer = none) (insn : Instruction) :
    trace obs insn = pure none := by
  funext s
  rw [trace, h]
  rfl

variable (untraced : obs.tracer = none)

include untraced

private theorem CodeBlind.report (here : Word) (insn : Instruction) :
    (report obs indent here insn).CodeBlind := by
  refine .bind .countStep fun _ => .bind (.log _ _) fun _ => ?_
  rw [trace_of_untraced untraced]
  exact .bind (.pure none) fun outcome => by
    cases outcome with
    | none => exact .pure ()
    | some cause => exact .halt cause

private theorem CodeBlind.conclude (here : Word) (insn : Instruction) (flow : Flow) :
    (conclude obs indent here insn flow).CodeBlind := by
  unfold Action.conclude
  split
  · exact .bind .setHalted fun _ => .bind (.log _ _) fun _ => .report untraced here insn
  · exact .report untraced here insn

/-- What is logged of an instruction shows no argument that is not read. -/
private theorem conclude_eq_of_alike {insn insn' : Instruction} (h : insn.Alike insn') (here : Word)
    (flow : Flow) : conclude obs indent here insn' flow = conclude obs indent here insn flow := by
  have htext : execText here insn' = execText here insn := by
    funext core
    rw [execText, execText, h.text_eq]
  rw [conclude, conclude, report, report, htext, trace_of_untraced untraced,
    trace_of_untraced untraced]

private theorem cycle_recoded {s : Session σ} (h : CodeAlike s.machine.code code) :
    (cycle obs indent).run (s.recoded code) = recoded code ((cycle obs indent).run s) := by
  have hfetch := Core.fetch?_of_codeAlike h s.machine.core
  have hcore : (s.recoded code).machine.core = s.machine.core := rfl
  have hcode : (s.recoded code).machine.code = code := rfl
  have hwith (core : Core) : withCore (s.recoded code) core = (withCore s core).recoded code := rfl
  rw [run_cycle, run_cycle, hcore, hcode]
  cases hinsn : s.machine.core.fetch? s.machine.code with
  | none =>
      rw [hinsn] at hfetch
      rw [hfetch]
      exact CodeBlind.halt _ code s
  | some insn =>
      rw [hinsn] at hfetch
      obtain ⟨insn', hinsn', halike⟩ := hfetch
      simp only [hinsn', Core.carryOut_of_alike halike, hwith]
      cases s.machine.core.carryOut insn with
      | ok flow core =>
          dsimp only
          rw [conclude_eq_of_alike untraced halike]
          exact CodeBlind.conclude untraced _ insn flow code (withCore s core)
      | error stop core =>
          cases stop with
          | fault f => rfl
          | refusal cause => exact CodeBlind.halt cause code (withCore s core)

private theorem loop_recoded (cause : Failure) (budget : Nat) {s : Session σ}
    (h : CodeAlike s.machine.code code) :
    (loop obs cause budget).run (s.recoded code) = recoded code ((loop obs cause budget).run s) ∧
    visits obs budget (s.recoded code) = visits obs budget s := by
  induction budget generalizing s with
  | zero =>
      rw [run_loop_zero, run_loop_zero]
      exact ⟨rfl, rfl⟩
  | succ budget ih =>
      have hhalted : (s.recoded code).machine.halted = s.machine.halted := rfl
      have hkept := (cycle_attempts obs "\t" s).1
      rw [run_loop_succ, run_loop_succ, visits, visits, cycle_recoded untraced h, hhalted]
      by_cases hstopped : s.machine.halted = true
      · rw [if_pos hstopped, if_pos hstopped, if_pos hstopped, if_pos hstopped]
        exact ⟨rfl, rfl⟩
      rw [if_neg hstopped, if_neg hstopped, if_neg hstopped, if_neg hstopped]
      rw [final] at hkept
      cases hcycle : (cycle obs "\t").run s with
      | error e t => exact ⟨rfl, rfl⟩
      | ok u t =>
          rw [hcycle] at hkept
          have halike : CodeAlike t.machine.code code := by
            rw [hkept]
            exact h
          obtain ⟨hloop, hvisits⟩ := ih halike
          exact ⟨hloop, congrArg (s.machine.core :: ·) hvisits⟩

end Action

namespace Session

variable {σ : Type} {obs : Observers σ} {code : Array Instruction} {s : Session σ}

private theorem attempt_recoded {act : Action σ (Option Failure)}
    (h : act.run (s.recoded code) = Action.recoded code (act.run s)) (name : String) :
    (s.recoded code).attempt name act =
      ((s.attempt name act).1, (s.attempt name act).2.recoded code) := by
  cases hf : s.machine.failure with
  | some cause =>
      rw [attempt_of_failure (s := s.recoded code) hf, attempt_of_failure hf]
  | none =>
      rw [attempt_of_none (s := s.recoded code) hf, attempt_of_none hf, Action.final, Action.final,
        h]
      rcases act.run s with ⟨_ | _, t⟩ | ⟨e, t⟩ <;> rfl

variable (untraced : obs.tracer = none)

include untraced

private theorem step_recoded (h : CodeAlike s.machine.code code) :
    (s.recoded code).step obs = ((s.step obs).1, (s.step obs).2.recoded code) := by
  have hcycle : (do Action.cycle obs ""; pure none : Action σ (Option Failure)).run
      (s.recoded code) = Action.recoded code
        ((do Action.cycle obs ""; pure none : Action σ (Option Failure)).run s) := by
    rw [Exec.run_bind, Exec.run_bind, Action.cycle_recoded untraced h]
    cases (Action.cycle obs "").run s <;> rfl
  rw [step, step, show (s.recoded code).machine.halted = s.machine.halted from rfl]
  by_cases hhalted : s.machine.halted = true
  · rw [if_pos hhalted, if_pos hhalted]
    rfl
  · rw [if_neg hhalted, if_neg hhalted]
    exact attempt_recoded hcycle "step"

private theorem run_recoded (h : CodeAlike s.machine.code code) (budget : Nat) (cause : Failure) :
    (s.recoded code).run obs budget cause =
      ((s.run obs budget cause).1, (s.run obs budget cause).2.recoded code) := by
  rw [run, run, attempt_recoded (Action.loop_recoded untraced cause budget h).1]
  rcases s.attempt "run" (Action.loop obs cause budget) with ⟨_ | _, t⟩ <;> rfl

private theorem perform_recoded (h : CodeAlike s.machine.code code) (call : Call) :
    (s.recoded code).perform obs call = (s.perform obs call).recoded code ∧
    (s.recoded code).answer obs call = s.answer obs call ∧
    (s.recoded code).visits obs call = s.visits obs call := by
  cases call with
  | step =>
      rw [perform, perform, answer, answer, step_recoded untraced h]
      exact ⟨rfl, rfl, rfl⟩
  | run budget cause =>
      rw [perform, perform, answer, answer, run_recoded untraced h, visits, visits,
        (Action.loop_recoded untraced cause budget h).2]
      exact ⟨rfl, rfl, rfl⟩

private theorem performAll_recoded (hs : s.machine.failure.isSome → s.machine.halted = true)
    (h : CodeAlike s.machine.code code) (calls : List Call) :
    performAll obs calls (s.recoded code) = (performAll obs calls s).recoded code ∧
    answers obs calls (s.recoded code) = answers obs calls s ∧
    history obs calls (s.recoded code) = history obs calls s := by
  induction calls generalizing s with
  | nil => exact ⟨rfl, rfl, rfl⟩
  | cons call calls ih =>
      have hleads := perform_leads obs hs call
      have halike : CodeAlike (s.perform obs call).machine.code code := by
        rw [hleads.code]
        exact h
      obtain ⟨hnext, hanswer, hvisits⟩ := perform_recoded untraced h call
      obtain ⟨hlast, hanswers, hhistory⟩ := ih hleads.halted halike
      rw [performAll, performAll, answers, answers, history, history, hnext, hanswer, hvisits,
        hlast, hanswers, hhistory]
      exact ⟨rfl, rfl, rfl⟩

omit untraced in
/-- A step fails because of an unknown instruction exactly when the table lacks its opcode. -/
private theorem step_unknown_iff (h : obs.Approving) (hhalted : s.machine.halted = false)
    (hfailure : s.machine.failure = none) {insn : Instruction}
    (hinsn : s.machine.fetch? = some insn) :
    (∃ pc op, (s.step obs).1 = some (.unknownInstruction pc op)) ↔
      Opcode.byteValid insn.opcode = false := by
  have hstep := step_of_fetched h hhalted hfailure hinsn
  rw [Opcode.byteValid]
  cases hop : Opcode.ofByte? insn.opcode with
  | none =>
      rw [Core.carryOut_eq, Instruction.exec, hop, Exec.run_refuse] at hstep
      exact iff_of_true ⟨_, _, hstep.1⟩ rfl
  | some op =>
      refine iff_of_false ?_ (by simp)
      rintro ⟨pc, byte, hanswer⟩
      rw [Core.carryOut_of_opcode hop] at hstep
      cases hrun : (op.exec s.machine.core.regs.pc insn.arg).run s.machine.core.advanced with
      | ok flow core =>
          rw [hrun] at hstep
          cases hstep.1.symm.trans hanswer
      | error stop core =>
          rw [hrun] at hstep
          cases stop with
          | fault f => cases hstep.1.symm.trans hanswer
          | refusal cause =>
              obtain ⟨frame, ep, np, rfl⟩ := Opcode.refusal_of_exec hrun
              cases hstep.1.symm.trans hanswer

end Session

private theorem Observers.Returning.approving {σ : Type} {obs : Observers σ} (h : obs.Returning)
    (untraced : obs.tracer = none) : obs.Approving := by
  refine ⟨h.logger, ?_⟩
  rw [untraced]
  nofun

/-- Two programs of one length, with the same opcodes and the same arguments wherever the table says
that they are read, go through the same states under the same calls: cores, counts of steps, halts
and failures, what the calls answer and what is logged, line by line. A machine that has not halted
and fetches an instruction fails the step with an unknown instruction exactly when the table has no
such opcode, which is to say that its byte lies beyond that of HALT. -/
theorem opcode_table_governs_machine {σ : Type} {plan : Plan σ} {code code' : Array Instruction}
    {m m' : Machine} (built : plan.build code = .ok m) (built' : plan.build code' = .ok m')
    (untraced : plan.observers.tracer = none) (alike : CodeAlike code code') (world : σ)
    (calls : List Call) :
    let obs := plan.observers
    let s := Session.performAll obs calls ⟨m, world⟩
    Session.performAll obs calls ⟨m', world⟩ = s.recoded code' ∧
    Session.answers obs calls ⟨m', world⟩ = Session.answers obs calls ⟨m, world⟩ ∧
    Session.states obs calls ⟨m', world⟩ = Session.states obs calls ⟨m, world⟩ ∧
    Session.exchanges obs calls ⟨m', world⟩ = Session.exchanges obs calls ⟨m, world⟩ ∧
    (obs.Returning → s.machine.halted = false → ∀ insn, s.machine.fetch? = some insn →
      ((∃ pc op, (s.step obs).1 = some (.unknownInstruction pc op)) ↔
        Opcode.byteValid insn.opcode = false) ∧
      Opcode.byteValid insn.opcode = decide (insn.opcode ≤ Opcode.halt.toByte)) := by
  intro obs s
  have hm := Plan.build_eq_initial built
  have hm' : m' = { m with code := code' } := by
    rw [hm, Plan.build_eq_initial built', Machine.initial, Machine.initial]
  have hcode : m.code = code := by rw [hm, Machine.initial]
  have hfine : m.failure.isSome → m.halted = true := by
    rw [hm]
    intro hfailed
    cases hfailed
  have halike : CodeAlike m.code code' := by
    rw [hcode]
    exact alike
  have hstart : (⟨m', world⟩ : Session σ) = Session.recoded code' ⟨m, world⟩ := by
    rw [hm', Session.recoded]
  obtain ⟨hlast, hanswers, hhistory⟩ :=
    Session.performAll_recoded (s := ⟨m, world⟩) untraced hfine halike calls
  have huntraced : obs.audited.tracer = none := by
    rw [Observers.audited, untraced, Option.map_none]
  have hexchanges := (Session.performAll_recoded (s := Session.audited ⟨m, world⟩) huntraced hfine
    halike calls).1
  rw [hstart]
  refine ⟨hlast, hanswers, ?_, ?_, ?_⟩
  · rw [Session.states, Session.states, hhistory, hlast]
    rfl
  · exact congrArg (fun t => t.world.exchanges) hexchanges
  · intro hreturning hrunning insn hinsn
    have hfailure := (Plan.leads_of_build built world calls).failure_eq_none hrunning
    exact ⟨Session.step_unknown_iff (hreturning.approving untraced) hrunning hfailure hinsn,
      Opcode.byteValid_eq insn.opcode⟩

/-- Doubles three, marks a call and meets an opcode that the table lacks. -/
def paddedDoubling (unread : Word) : Array Instruction :=
  #[.ofOpcode .loadc 3, .ofOpcode .dup unread, .ofOpcode .add unread, .ofOpcode .mark unread,
    ⟨200, unread⟩]

def loggingPlan : Plan (List String) :=
  ⟨4, { logger := some fun line lines => (.returned (), lines ++ [line]) }⟩

theorem opcode_table_governs_machine_with_unread_arguments :
    let obs := loggingPlan.observers
    let calls : List Call := [.step, .step, .step, .step]
    let s := Session.performAll obs calls ⟨.initial (paddedDoubling 7) 4, []⟩
    let t := Session.performAll obs calls ⟨.initial (paddedDoubling (-1)) 4, []⟩
    loggingPlan.build (paddedDoubling 7) = .ok (.initial (paddedDoubling 7) 4) ∧
    loggingPlan.build (paddedDoubling (-1)) = .ok (.initial (paddedDoubling (-1)) 4) ∧
    CodeAlike (paddedDoubling 7) (paddedDoubling (-1)) ∧ obs.Returning ∧
    s.machine.halted = false ∧ s.machine.core = ⟨⟨4, 2, -1, -1, 4⟩, #[6, -1, -1, 0]⟩ ∧
    s.machine.fetch? = some ⟨200, 7⟩ ∧ t = s.recoded (paddedDoubling (-1)) ∧
    ∃ pc op, (s.step obs).1 = some (.unknownInstruction pc op) := by
  intro obs calls s t
  have hbuilt : loggingPlan.build (paddedDoubling 7) = .ok (.initial (paddedDoubling 7) 4) := rfl
  have hbuilt' : loggingPlan.build (paddedDoubling (-1)) =
      .ok (.initial (paddedDoubling (-1)) 4) := rfl
  have halike : CodeAlike (paddedDoubling 7) (paddedDoubling (-1)) := by decide
  have hreturning : obs.Returning := by
    refine ⟨?_, nofun⟩
    rintro _ ⟨⟩ line world
    rfl
  have hrunning : s.machine.halted = false := by decide +kernel
  have hcore : s.machine.core = ⟨⟨4, 2, -1, -1, 4⟩, #[6, -1, -1, 0]⟩ := by decide +kernel
  have hfetched : s.machine.fetch? = some ⟨200, 7⟩ := by decide +kernel
  obtain ⟨hsame, -, -, -, hunknown⟩ :=
    opcode_table_governs_machine hbuilt hbuilt' rfl halike [] calls
  simp only [s, t, obs] at hrunning hcore hfetched ⊢
  obtain ⟨hiff, -⟩ := hunknown hreturning hrunning _ hfetched
  exact ⟨hbuilt, hbuilt', halike, hreturning, hrunning, hcore, hfetched, hsame, hiff.mpr rfl⟩

end FrameMachine
