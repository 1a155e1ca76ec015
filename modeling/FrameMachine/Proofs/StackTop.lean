import FrameMachine.Proofs.Attempt
/-!
# The top of the stack

A completed operation leaves the top of the stack at an address that can be told from the
state before. Actions are followed by the top they start from and the top they end at, so
each operation needs only the moves of its parts.
-/
namespace FrameMachine

namespace Exec

variable {α β : Type} {top middle bottom : Word}

/-- Started with the stack at one top, the action leaves it at the other when it completes. -/
def Moves (top : Word) (act : Exec α) (top' : Word) : Prop :=
  ∀ core : Core, core.regs.sp = top →
    match act.run core with
    | .ok _ after => after.regs.sp = top'
    | .error _ _ => True

private theorem Moves.bind {act : Exec α} {next : α → Exec β} (h : Moves top act middle)
    (hnext : ∀ a, Moves middle (next a) bottom) : Moves top (act >>= next) bottom := by
  intro core hcore
  have hact := h core hcore
  rw [run_bind]
  cases hrun : act.run core with
  | ok a after =>
      rw [hrun] at hact
      exact hnext a after hact
  | error e after => trivial

private theorem Moves.regs {next : Registers → Exec β}
    (hnext : ∀ r : Registers, r.sp = top → Moves top (next r) bottom) :
    Moves top (regs >>= next) bottom := by
  intro core hcore
  rw [run_bind, run_regs]
  exact hnext core.regs hcore core hcore

private theorem Moves.pure (a : α) : Moves top (pure a) top :=
  fun _ hcore => hcore

private theorem Moves.fault (f : Fault) : Moves top (fault f : Exec α) bottom :=
  fun _ _ => trivial

private theorem Moves.read (addr : Word) : Moves top (read addr) top := by
  intro core hcore
  rw [run_read]
  cases core.mem.get? addr with
  | none => trivial
  | some w => exact hcore

private theorem Moves.write (addr w : Word) : Moves top (write addr w) top := by
  intro core hcore
  rw [run_write]
  by_cases hc : core.mem.Covers addr
  · rw [if_pos hc]
    exact hcore
  · rw [if_neg hc]
    trivial

private theorem Moves.setPc (a : Word) : Moves top (setPc a) top :=
  fun _ hcore => hcore

private theorem Moves.setSp (a : Word) : Moves top (setSp a) a :=
  fun _ _ => rfl

private theorem Moves.push {value : Exec Word} (hvalue : Moves (top + 1) value (top + 1)) :
    Moves top (push value) (top + 1) := by
  refine .regs fun r hr => ?_
  rw [hr]
  exact .bind (.setSp _) fun _ => .bind hvalue fun w => .write _ w

private theorem Moves.binary (f : Word → Word → Except Fault Word) :
    Moves top (binary f) (top - 1) := by
  refine .regs fun r hr => .bind (.read _) fun left => .bind (.read _) fun right => ?_
  rw [hr]
  cases f left right with
  | ok w => exact .bind (.setSp _) fun _ => .write _ w
  | error e => exact .fault e

private theorem Moves.unary (f : Word → Word) : Moves top (unary f) top :=
  .regs fun _ _ => .bind (.read _) fun _ => .write _ _

private theorem Moves.copy (src dst : Word) (n : Nat) : Moves top (copy src dst n) top := by
  induction n generalizing src dst with
  | zero => exact .pure ()
  | succ n ih => exact .bind (.read src) fun w => .bind (.write dst w) fun _ => ih _ _

end Exec

namespace Opcode

open Exec

def topAfter (op : Opcode) (arg : Word) (core : Core) : Word :=
  match op with
  | loadc | loada | loadrc | loadr | dup => core.regs.sp + 1
  | load => core.regs.sp + (arg - 1)
  | alloc => core.regs.sp + arg
  | mark => core.regs.sp + 2
  | slide => core.regs.sp - arg
  | store | pop | add | sub | mul | div | mod | and | or | xor | eq | neq | le | leq | gr | geq
  | jumpz | jumpi => core.regs.sp - 1
  | ret => core.regs.fp - 3
  | storea | storer | not | neg | jump | call | enter | new | halt => core.regs.sp

private theorem exec_moves (here : Word) (op : Opcode) (arg : Word) (core : Core)
    (h : op.movesFrame = false) : Moves core.regs.sp (op.exec here arg) (op.topAfter arg core) := by
  have hdone {act : Exec Unit} (hact : Moves core.regs.sp act (op.topAfter arg core)) :
      Moves core.regs.sp (do act; pure Flow.next) (op.topAfter arg core) :=
    .bind hact fun _ => .pure _
  cases op with
  | loadc => exact hdone (.push (.pure arg))
  | loada => exact hdone (.push (.read arg))
  | loadrc => exact hdone (.push (.regs fun _ _ => .pure _))
  | loadr => exact hdone (.push (.regs fun _ _ => .read _))
  | dup => exact hdone (.push (.regs fun _ _ => .read _))
  | add | sub | mul | div | mod | and | or | xor | eq | neq | le | leq | gr | geq =>
      exact hdone (.binary _)
  | not | neg => exact hdone (.unary _)
  | pop =>
      intro core' hcore
      exact congrArg (· - 1) hcore
  | alloc =>
      intro core' hcore
      exact congrArg (· + arg) hcore
  | jump => exact hdone (.setPc arg)
  | halt => exact .pure _
  | call | enter | ret | new => cases h
  | storea => exact .regs fun r _ => .bind (.read _) fun w => hdone (.write arg w)
  | load =>
      refine .regs fun r hr => .bind (.read _) fun p => .bind (.copy _ _ _) fun _ => ?_
      rw [hr]
      exact hdone (.setSp _)
  | store =>
      refine .regs fun r hr => .bind (.read _) fun p => .bind (.copy _ _ _) fun _ => ?_
      rw [hr]
      exact .bind (.setSp _) fun _ => .pure _
  | storer =>
      refine .regs fun r hr => .bind (.push (.pure _)) fun _ => .bind (.read _) fun w => ?_
      rw [hr]
      exact .bind (.write _ w) fun _ => .bind (.setSp _) fun _ => .pure _
  | jumpz | jumpi =>
      refine .regs fun r hr => .bind (.read _) fun w => .bind (.setPc _) fun _ => ?_
      rw [hr]
      exact .bind (.setSp _) fun _ => .pure _
  | mark =>
      refine .regs fun r hr => .bind (.write _ _) fun _ => .bind (.write _ _) fun _ => ?_
      rw [hr]
      exact .bind (.setSp _) fun _ => .pure _
  | slide =>
      refine .regs fun r hr => .bind (.read _) fun w => ?_
      rw [hr]
      exact .bind (.setSp _) fun _ => .bind (.write _ w) fun _ => .pure _

end Opcode

theorem Core.sp_of_carryOut {insn : Instruction} {op : Opcode} {flow : Flow} {core after : Core}
    (hop : Opcode.ofByte? insn.opcode = some op) (h : core.carryOut insn = .ok flow after) :
    after.regs.sp = op.topAfter insn.arg core := by
  obtain ⟨op', hop', heffect⟩ := effect_of_carryOut h
  obtain rfl : op = op' := Option.some.inj (hop.symm.trans hop')
  cases heffect with
  | confined hstill _ =>
      have hmoves := Opcode.exec_moves core.regs.pc op insn.arg core hstill core.advanced rfl
      rw [carryOut_of_opcode hop] at h
      rw [h] at hmoves
      exact hmoves
  | call _ | enter _ | ret _ _ _ | refused _ _ | granted _ _ _ => rfl

end FrameMachine
