import FrameMachine.Proofs.Collision
import FrameMachine.Proofs.OpcodeTable
import FrameMachine.Proofs.Shortcuts
/-!
# What a failed step leaves behind

An instruction moves registers and writes words before it meets the fault that stops it, and each
operation does so in its own order. For every operation it is said where the counter and the top
of the stack then stand and which words may have changed. The frame pointer, the heap, the frame's
end and the count of steps are never among what has changed, except that a RETURN to a frame that
the heap has grown into has taken over the frame's end.
-/
namespace FrameMachine

namespace Opcode

variable (op : Opcode) (arg : Word) (core : Core)

/-- Where a fault of the operation leaves the counter. A RETURN from a frame at the bottom of memory
has found its target, but no room for what a caller saves below it. -/
def counterFaulted : Word :=
  match op with
  | ret =>
    if core.regs.fp = 0 ∨ core.regs.fp = 1 then core.mem.load core.regs.fp else core.regs.pc + 1
  | _ => core.regs.pc + 1

def topFaulted : Word :=
  match op with
  | loadc | loada | loadrc | loadr | dup | storer => core.regs.sp + 1
  | slide => if core.mem.Covers core.regs.sp then core.regs.sp - arg else core.regs.sp
  | _ => core.regs.sp

/-- A proper part of the block was copied, to or from the address on top of the stack. -/
def CutShort (src dst : Word → Word) (mem : Memory) : Prop :=
  mem = core.mem ∨ ∃ p, core.mem.get? core.regs.sp = some p ∧
    ∃ k < arg.toNatClampNeg, core.mem.Copied (src p) (dst p) k mem

def MemoryFaulted (mem : Memory) : Prop :=
  match op with
  | load => CutShort arg core (fun p => p) (fun _ => core.regs.sp) mem
  | store => CutShort arg core (fun _ => core.regs.sp - arg) (fun p => p) mem
  | mark =>
    mem =
      if core.regs.sp + 2 = .ofNat core.mem.size then
        core.mem.put (core.regs.sp + 1) core.regs.ep
      else core.mem
  | storer => mem = core.mem.put (core.regs.sp + 1) (core.regs.fp + arg)
  | _ => mem = core.mem

structure Faulted (after : Core) : Prop where
  regs : after.regs =
    { core.regs with pc := op.counterFaulted core, sp := op.topFaulted arg core }
  mem : op.MemoryFaulted arg core after.mem

end Opcode

namespace Exec

variable {α β : Type} {left : Core → Prop} {core : Core}

/-- Wherever the action meets a fault, it leaves a core of the given kind. -/
def Leaves (left : Core → Prop) (act : Exec α) (core : Core) : Prop :=
  ∀ f after, act.run core = .error (.fault f) after → left after

private theorem Leaves.pure (a : α) : Leaves left (pure a) core := nofun

private theorem Leaves.bind {act : Exec α} {next : α → Exec β} (h : Leaves left act core)
    (hnext : ∀ a after, act.run core = .ok a after → Leaves left (next a) after) :
    Leaves left (act >>= next) core := by
  intro f after hrun
  rw [run_bind] at hrun
  cases hact : act.run core with
  | ok a middle =>
      rw [hact] at hrun
      exact hnext a middle hact f after hrun
  | error stop middle =>
      rw [hact] at hrun
      cases hrun
      exact h f after hact

private theorem Leaves.regs {next : Registers → Exec α} (h : Leaves left (next core.regs) core) :
    Leaves left (regs >>= next) core := h

private theorem Leaves.updateRegs {f : Registers → Registers} {next : Unit → Exec α}
    (h : Leaves left (next ()) ⟨f core.regs, core.mem⟩) :
    Leaves left (updateRegs f >>= next) core := h

private theorem Leaves.read {addr : Word} {next : Word → Exec α}
    (hmiss : core.mem.get? addr = none → left core)
    (h : ∀ w, core.mem.get? addr = some w → Leaves left (next w) core) :
    Leaves left (read addr >>= next) core := by
  intro f after hrun
  rw [run_bind, run_read] at hrun
  cases hget : core.mem.get? addr with
  | none =>
      rw [hget] at hrun
      cases hrun
      exact hmiss hget
  | some w =>
      rw [hget] at hrun
      exact h w hget f after hrun

private theorem leaves_write {addr : Word} (w : Word) (hmiss : ¬ core.mem.Covers addr → left core) :
    Leaves left (write addr w) core := by
  intro f after hrun
  rw [run_write] at hrun
  by_cases hcovers : core.mem.Covers addr
  · rw [if_pos hcovers] at hrun
    cases hrun
  · rw [if_neg hcovers] at hrun
    cases hrun
    exact hmiss hcovers

private theorem Leaves.write {addr w : Word} {next : Unit → Exec α}
    (hmiss : ¬ core.mem.Covers addr → left core)
    (h : core.mem.Covers addr → Leaves left (next ()) ⟨core.regs, core.mem.put addr w⟩) :
    Leaves left (write addr w >>= next) core := by
  refine .bind (leaves_write w hmiss) fun _ after hrun => ?_
  rw [run_write] at hrun
  by_cases hcovers : core.mem.Covers addr
  · rw [if_pos hcovers] at hrun
    cases hrun
    exact h hcovers
  · rw [if_neg hcovers] at hrun
    cases hrun

private theorem final_read (addr : Word) (core : Core) : (read addr).final core = core := by
  rw [final, run_read]
  cases core.mem.get? addr <;> rfl

private theorem final_regs_read (addr : Registers → Word) (core : Core) :
    (do read (addr (← regs))).final core = core := by
  rw [final_regs_bind, final_read]

private theorem leaves_push {value : Exec Word} (hvalue : value.final core.raised = core.raised)
    (hmiss : left core.raised) : Leaves left (push value) core := by
  intro f after hrun
  rw [run_push] at hrun
  cases hrest : value.run core.raised with
  | error stop middle =>
      have hmiddle : middle = core.raised := by simpa only [final, hrest] using hvalue
      rw [hrest] at hrun
      cases hrun
      rwa [hmiddle]
  | ok w middle =>
      have hmiddle : middle = core.raised := by simpa only [final, hrest] using hvalue
      rw [hrest, hmiddle] at hrun
      exact leaves_write w (fun _ => hmiss) f after hrun

private theorem Leaves.push_pure {w : Word} {next : Unit → Exec α}
    (hmiss : ¬ core.mem.Covers (core.regs.sp + 1) → left core.raised)
    (h : core.mem.Covers (core.regs.sp + 1) → Leaves left (next ()) (core.pushed w)) :
    Leaves left (push (Pure.pure w) >>= next) core := by
  intro f after hrun
  rw [run_bind, run_push_pure] at hrun
  by_cases hroom : core.mem.Covers (core.regs.sp + 1)
  · rw [if_pos hroom] at hrun
    exact h hroom f after hrun
  · rw [if_neg hroom] at hrun
    cases hrun
    exact hmiss hroom

/-- The left operand was read from where the value is written, so that the write does not miss. -/
private theorem leaves_binary (f : Word → Word → Except Fault Word) (hmiss : left core) :
    Leaves left (binary f) core := by
  refine .regs (.read (fun _ => hmiss) fun a ha => .read (fun _ => hmiss) fun b _ => ?_)
  cases f a b with
  | error e =>
      intro f after hrun
      cases hrun
      exact hmiss
  | ok w => exact .updateRegs (leaves_write w fun h => absurd (Memory.covers_of_get? ha) h)

private theorem leaves_unary (f : Word → Word) (hmiss : left core) : Leaves left (unary f) core :=
  .regs (.read (fun _ => hmiss) fun _ hw => leaves_write _ fun h =>
    absurd (Memory.covers_of_get? hw) h)

private theorem leaves_copy {src dst : Word} {n : Nat} (hn : n < 2 ^ 63)
    (hpart : ∀ k < n, ∀ mem, core.mem.Copied src dst k mem → left ⟨core.regs, mem⟩) :
    Leaves left (copy src dst n) core := by
  intro f after hrun
  by_cases hspans : core.mem.Spans src dst n
  · obtain ⟨mem, hok, -⟩ := run_copy core hspans hn
    cases hok.symm.trans hrun
  · obtain ⟨k, hk, hbefore, hgap⟩ := Memory.exists_gap hspans
    obtain ⟨mem, hstop, hcopied⟩ := run_copy_of_gap core hbefore hk hn hgap
    cases hstop.symm.trans hrun
    exact hpart k hk mem hcopied

end Exec

namespace Memory

variable {mem : Memory} {addr : Word}

private theorem add_one_eq_size (hsize : mem.size < 2 ^ 63) (h : mem.Covers addr)
    (hmiss : ¬ mem.Covers (addr + 1)) : addr + 1 = .ofNat mem.size := by
  obtain ⟨h0, hlt⟩ := h
  have haddr : addr + 1 = .ofNat (addr.toNatClampNeg + 1) := by
    rw [Int64.ofNat_add, Int64.ofNat_toNatClampNeg _ h0]
    rfl
  rw [haddr, covers_ofNat (by omega)] at hmiss
  rw [haddr, show addr.toNatClampNeg + 1 = mem.size by omega]

end Memory

def Core.Grounded (core : Core) : Prop :=
  core.regs.fp = 0 ∨ core.regs.fp = 1 → core.mem.Covers core.regs.fp

namespace Opcode

open Exec

/-- A RETURN that misses the saved frame's end has found its target at the bottom of memory. -/
private theorem ret_leaves {core : Core} (hgrounded : core.Grounded) (here arg : Word) :
    Leaves (ret.Faulted arg core) (ret.exec here arg) core.advanced := by
  intro f after hrun
  rw [run_ret] at hrun
  split at hrun
  · rename_i hnone
    have hfp : ¬ (core.regs.fp = 0 ∨ core.regs.fp = 1) := fun h =>
      Memory.get?_eq_none_iff.mp hnone (hgrounded h)
    have hpc : ret.counterFaulted core = core.regs.pc + 1 := if_neg hfp
    cases hrun
    refine ⟨?_, rfl⟩
    rw [hpc]
    rfl
  rename_i pc hget
  split at hrun
  · rename_i hnone
    have hfp : core.regs.fp = 0 ∨ core.regs.fp = 1 := by
      have hcovers : core.mem.Covers core.regs.fp := Memory.covers_of_get? hget
      have h0 := hcovers.1
      by_contra hhigh
      have hsaved : core.mem.Covers (core.regs.fp - 2) := hcovers.of_le (by grind) (by grind)
      exact Memory.get?_eq_none_iff.mp hnone hsaved
    have hpc : ret.counterFaulted core = pc :=
      (if_pos hfp).trans (Memory.load_of_get? hget)
    cases hrun
    refine ⟨?_, rfl⟩
    rw [hpc]
    rfl
  · split at hrun <;> cases hrun

private theorem exec_leaves {core : Core} (hgrounded : core.Grounded)
    (hsize : core.mem.size < 2 ^ 63) (op : Opcode) (here arg : Word) :
    Leaves (op.Faulted arg core) (op.exec here arg) core.advanced := by
  have hdone {act : Exec Unit} (hact : Leaves (op.Faulted arg core) act core.advanced) :
      Leaves (op.Faulted arg core) (do act; pure Flow.next) core.advanced :=
    .bind hact fun _ _ _ => .pure _
  cases op with
  | loadc => exact hdone (leaves_push rfl ⟨rfl, rfl⟩)
  | loada => exact hdone (leaves_push (final_read ..) ⟨rfl, rfl⟩)
  | loadrc => exact hdone (leaves_push rfl ⟨rfl, rfl⟩)
  | loadr => exact hdone (leaves_push (final_regs_read _ _) ⟨rfl, rfl⟩)
  | dup => exact hdone (leaves_push (final_regs_read _ _) ⟨rfl, rfl⟩)
  | add | sub | mul | div | mod | and | or | xor | eq | neq | le | leq | gr | geq =>
      exact hdone (leaves_binary _ ⟨rfl, rfl⟩)
  | not | neg => exact hdone (leaves_unary _ ⟨rfl, rfl⟩)
  | pop | alloc | jump => exact .updateRegs (.pure _)
  | halt => exact .pure _
  | storea =>
      refine .regs (.read (fun _ => ⟨rfl, rfl⟩) fun w _ => ?_)
      exact .write (fun _ => ⟨rfl, rfl⟩) fun _ => .pure _
  | load =>
      refine .regs (.read (fun _ => ⟨rfl, .inl rfl⟩) fun p hp => .bind ?_ fun _ _ _ => ?_)
      · exact leaves_copy arg.toNatClampNeg_lt fun k hk mem hcopied =>
          ⟨rfl, .inr ⟨p, hp, k, hk, hcopied⟩⟩
      · exact .updateRegs (.pure _)
  | store =>
      refine .regs (.read (fun _ => ⟨rfl, .inl rfl⟩) fun p hp => .bind ?_ fun _ _ _ => ?_)
      · exact leaves_copy arg.toNatClampNeg_lt fun k hk mem hcopied =>
          ⟨rfl, .inr ⟨p, hp, k, hk, hcopied⟩⟩
      · exact .updateRegs (.pure _)
  | storer =>
      refine .regs (.push_pure (fun hroom => ⟨rfl, ?_⟩) fun _ => ?_)
      · exact (Memory.put_of_not_covers hroom).symm
      refine .read (fun _ => ⟨rfl, rfl⟩) fun w _ => .write (fun _ => ⟨rfl, rfl⟩) fun _ => ?_
      exact .updateRegs (.pure _)
  | jumpz | jumpi =>
      refine .regs (.read (fun _ => ⟨rfl, rfl⟩) fun w _ => ?_)
      exact .updateRegs (.updateRegs (.pure _))
  | mark =>
      refine .regs (.write (fun hmiss => ⟨rfl, ?_⟩) fun hroom => .write (fun hmiss => ⟨rfl, ?_⟩) ?_)
      · have hkept : core.mem.put (core.regs.sp + 1) core.regs.ep = core.mem :=
          Memory.put_of_not_covers hmiss
        change core.mem = _
        rw [hkept, ite_self]
      · have hend : core.regs.sp + 2 = .ofNat core.mem.size := by
          have htwo : core.regs.sp + 2 = core.regs.sp + 1 + 1 := by grind
          rw [Memory.covers_congr (Memory.size_put ..)] at hmiss
          rw [htwo]
          exact Memory.add_one_eq_size hsize hroom (htwo ▸ hmiss)
        change core.mem.put (core.regs.sp + 1) core.regs.ep = _
        rw [if_pos hend]
      · exact fun _ => .updateRegs (.pure _)
  | call =>
      refine .regs (.read (fun _ => ⟨rfl, rfl⟩) fun entry hentry => .updateRegs (.write ?_ ?_))
      · exact fun h => absurd (Memory.covers_of_get? hentry) h
      · exact fun _ => .updateRegs (.pure _)
  | enter =>
      intro f after hrun
      rw [run_enter] at hrun
      split at hrun <;> cases hrun
  | slide =>
      refine .regs (.read (fun hmiss => ⟨?_, rfl⟩) fun top htop => .updateRegs (.write ?_ ?_))
      · have htop : slide.topFaulted arg core = core.regs.sp :=
          if_neg (Memory.get?_eq_none_iff.mp hmiss)
        rw [htop]
        rfl
      · have htop' : slide.topFaulted arg core = core.regs.sp - arg :=
          if_pos (Memory.covers_of_get? htop)
        intro _
        refine ⟨?_, rfl⟩
        rw [htop']
        rfl
      · exact fun _ => .pure _
  | ret => exact ret_leaves hgrounded here arg
  | new =>
      intro f after hrun
      rw [run_new] at hrun
      split at hrun
      · cases hrun
        exact ⟨rfl, rfl⟩
      · split at hrun <;> cases hrun

end Opcode

namespace Core

variable {code : Array Instruction} {core before after first last : Core}

/-- What has become of a core whose step failed, with the failure of the step. -/
inductive Remains (code : Array Instruction) (core : Core) : Failure → Core → Prop where
  | outside (missing : core.fetch? code = none) :
      Remains code core (.counterOutOfCode core.regs.pc) core
  | unknown {insn : Instruction} (fetched : core.fetch? code = some insn)
      (above : 36 < insn.opcode) :
      Remains code core (.unknownInstruction core.regs.pc insn.opcode) core.advanced
  | enter {insn : Instruction} (fetched : core.fetch? code = some insn)
      (isEnter : Opcode.ofByte? insn.opcode = some .enter)
      (overflows : core.regs.np ≤ core.regs.sp + insn.arg) :
      Remains code core
        (.stackOverflow core.regs.pc Opcode.enter.toByte insn.arg (core.regs.sp + insn.arg)
          core.regs.np) core.advanced
  | ret {insn : Instruction} {pc ep : Word} (fetched : core.fetch? code = some insn)
      (isRet : Opcode.ofByte? insn.opcode = some .ret)
      (target : core.mem.get? core.regs.fp = some pc)
      (extent : core.mem.get? (core.regs.fp - 2) = some ep) (overflows : core.regs.np ≤ ep) :
      Remains code core (.stackOverflow core.regs.pc Opcode.ret.toByte 0 ep core.regs.np)
        ⟨{ core.regs with pc := pc, ep := ep }, core.mem⟩
  | fault {insn : Instruction} {op : Opcode} {f : Fault} {after : Core}
      (fetched : core.fetch? code = some insn) (isOp : Opcode.ofByte? insn.opcode = some op)
      (faulted : op.Faulted insn.arg core after) :
      Remains code core (.panicFailure "step" (.fault f)) after

private theorem Completes.grounded (h : before.Completes code after) (hgrounded : before.Grounded) :
    after.Grounded := by
  obtain ⟨insn, op, _, _, heffect⟩ := h.effect
  cases heffect with
  | confined _ hconf =>
      intro hfp
      rw [hconf.fp] at hfp ⊢
      exact (Memory.covers_congr hconf.size).mpr (hgrounded hfp)
  | call hentry =>
      exact fun _ => (Memory.covers_congr (Memory.size_put ..)).mpr (Memory.covers_of_get? hentry)
  | enter _ => exact hgrounded
  | ret hpc hep _ =>
      intro hfp
      have hhigh := Memory.covers_of_get? hpc
      have h0 := hhigh.1
      have h2 := (Memory.covers_of_get? hep).1
      -- the frame that was left had three words below, so that memory has room for both addresses
      have hroom : 2 ≤ before.regs.fp := by grind
      dsimp only at hfp ⊢
      exact hhigh.of_le (by grind) (by grind)
  | refused _ _ =>
      exact fun hfp => (Memory.covers_congr (Memory.size_put ..)).mpr (hgrounded hfp)
  | granted _ _ _ =>
      exact fun hfp => (Memory.covers_congr (Memory.size_put ..)).mpr (hgrounded hfp)

private theorem Course.preserves {holds : Core → Prop} {begun : List Core}
    (hstep : ∀ before after : Core, before.Completes code after → holds before → holds after)
    (h : Course code first begun last) (hfirst : holds first) : holds last := by
  induction h with
  | nil => exact hfirst
  | cons completes _ ih => exact ih (hstep _ _ completes hfirst)

private theorem Setback.keeps {insn : Instruction} {stop : Stop}
    (h : before.Setback insn stop after) :
    after.regs.np = before.regs.np ∧ after.regs.fp = before.regs.fp ∧
      after.mem.size = before.mem.size := by
  cases h with
  | still hfp _ hnp hsize => exact ⟨hnp, hfp, hsize⟩
  | ret _ _ _ _ => exact ⟨rfl, rfl, rfl⟩

private theorem remains_of_carryOut {insn : Instruction} {stop : Stop} (hgrounded : core.Grounded)
    (hsize : core.mem.size < 2 ^ 63) (hfetch : core.fetch? code = some insn)
    (h : core.carryOut insn = .error stop after) :
    core.Remains code (stop.toFailure "step") after := by
  cases hop : Opcode.ofByte? insn.opcode with
  | none =>
      rw [carryOut_eq, Instruction.exec, hop] at h
      cases h
      refine .unknown hfetch ?_
      have hvalid := Opcode.byteValid_eq insn.opcode
      rw [Opcode.byteValid, hop] at hvalid
      exact UInt8.not_le.mp (of_decide_eq_false hvalid.symm)
  | some op =>
      rw [carryOut_of_opcode hop] at h
      cases stop with
      | fault f => exact .fault hfetch hop (op.exec_leaves hgrounded hsize _ _ f after h)
      | refusal cause =>
          by_cases henter : op = .enter
          · subst henter
            rw [Opcode.run_enter] at h
            split at h
            · rename_i hover
              cases h
              exact .enter hfetch hop hover
            · cases h
          by_cases hret : op = .ret
          · subst hret
            rw [Opcode.run_ret] at h
            split at h
            · cases h
            rename_i pc hpc
            split at h
            · cases h
            rename_i ep hep
            split at h
            · rename_i hover
              cases h
              exact .ret hfetch hop hpc hep hover
            · cases h
          · exact absurd h (op.exec_neverRefuses _ _ henter hret _ _ _)

end Core

private theorem Plan.grounded_of_build {σ : Type} {plan : Plan σ} {code : Array Instruction}
    {m : Machine} (h : plan.build code = .ok m) : m.core.Grounded := by
  rw [plan.core_of_build h]
  rintro (hfp | hfp) <;> cases hfp

private theorem Session.step_failed {σ : Type} {obs : Observers σ} {s : Session σ}
    (h : obs.Approving) (hhalted : s.machine.halted = false) (hfailure : s.machine.failure = none)
    {cause : Failure} (hfailed : (s.step obs).1 = some cause) :
    (s.step obs).2.machine.steps = s.machine.steps ∧
    ((s.machine.fetch? = none ∧ cause = .counterOutOfCode s.machine.core.regs.pc ∧
        (s.step obs).2.machine.core = s.machine.core) ∨
      ∃ insn stop, s.machine.fetch? = some insn ∧ cause = stop.toFailure "step" ∧
        s.machine.core.carryOut insn = .error stop (s.step obs).2.machine.core) := by
  cases hfetch : s.machine.fetch? with
  | none =>
      have hcycle := Action.bare_cycle h "" s
      have hmissing : s.machine.unmarked.core.fetch? s.machine.unmarked.code = none := hfetch
      simp only [Machine.cycled, hmissing] at hcycle
      obtain ⟨t, ht, hleft⟩ := Action.bare_eq_error hcycle
      rw [step_of_running obs hhalted hfailure, ht] at hfailed ⊢
      cases hfailed
      have hcore : t.machine.core = s.machine.core := Machine.core_of_unmarked hleft
      have hsteps : t.machine.steps = s.machine.steps := Machine.steps_of_unmarked hleft
      exact ⟨hsteps, .inl ⟨rfl, rfl, hcore⟩⟩
  | some insn =>
      have hstep := step_of_fetched h hhalted hfailure hfetch
      cases hrun : s.machine.core.carryOut insn with
      | ok flow core =>
          rw [hrun] at hstep
          cases hstep.1.symm.trans hfailed
      | error stop core =>
          rw [hrun] at hstep
          obtain ⟨hanswer, hleft⟩ := hstep
          cases hanswer.symm.trans hfailed
          have hcore : (s.step obs).2.machine.core = core := Machine.core_of_unmarked hleft
          have hsteps := Machine.steps_of_unmarked hleft
          refine ⟨hsteps, .inr ⟨insn, stop, rfl, rfl, ?_⟩⟩
          rw [hcore, hrun]

/-- Whatever calls came before, a step that fails on a machine that still runs keeps the count of
steps, the heap, the frame pointer and the size of memory. What else it leaves behind is told by
the cases of `Remains`. -/
theorem failed_step_leaves_little {σ : Type} {plan : Plan σ} {code : Array Instruction}
    {m : Machine} (built : plan.build code = .ok m) (approving : plan.observers.Approving)
    (world : σ) (calls : List Call) {s : Session σ}
    (reached : Session.performAll plan.observers calls ⟨m, world⟩ = s)
    (running : s.machine.halted = false) {cause : Failure}
    (failed : (s.step plan.observers).1 = some cause) :
    let left := (s.step plan.observers).2.machine
    left.steps = s.machine.steps ∧
    left.core.regs.np = s.machine.core.regs.np ∧
    left.core.regs.fp = s.machine.core.regs.fp ∧
    left.core.mem.size = s.machine.core.mem.size ∧
    s.machine.core.Remains code cause left.core := by
  intro left
  have hleads := plan.leads_of_build built world calls
  rw [reached] at hleads
  have hcode : s.machine.code = code := by
    rw [hleads.code, plan.build_eq_initial built, Machine.initial]
  have hfailure := hleads.failure_eq_none running
  have hcourse := hleads.course hfailure
  have hgrounded : s.machine.core.Grounded :=
    hcourse.preserves (fun _ _ => Core.Completes.grounded) (plan.grounded_of_build built)
  have hsize : s.machine.core.mem.size < 2 ^ 63 := by
    rw [(hcourse.clear (plan.clear_of_build built)).2.size_eq]
    exact Int64.toNatClampNeg_lt _
  obtain ⟨hsteps, ⟨hfetch, rfl, hcore⟩ | ⟨insn, stop, hfetch, rfl, hrun⟩⟩ :=
    Session.step_failed approving running hfailure failed
  · have hleft : left.core = s.machine.core := hcore
    rw [hleft]
    exact ⟨hsteps, rfl, rfl, rfl, .outside (hcode ▸ hfetch)⟩
  · obtain ⟨hnp, hfp, hmem⟩ := (Core.setback_of_carryOut hrun).keeps
    exact ⟨hsteps, hnp, hfp, hmem, Core.remains_of_carryOut hgrounded hsize (hcode ▸ hfetch) hrun⟩

/-- A MARK with room for one of its two words keeps what it has written. -/
theorem failed_step_leaves_little_of_mark :
    let plan : Plan Unit := ⟨2, {}⟩
    let code : Array Instruction := #[.ofOpcode .loadc 1, .ofOpcode .mark 0]
    let s := Session.performAll plan.observers [.step] ⟨.initial code 2, ()⟩
    let fault : Failure := .panicFailure "step" (.fault (.indexOutOfRange 2 2))
    plan.build code = .ok (.initial code 2) ∧ plan.observers.Approving ∧
    s.machine.halted = false ∧ (s.step plan.observers).1 = some fault ∧
    (s.step plan.observers).2.machine.core = ⟨⟨2, 0, -1, -1, 2⟩, #[1, -1]⟩ ∧
    s.machine.core.Remains code fault ⟨⟨2, 0, -1, -1, 2⟩, #[1, -1]⟩ := by
  intro plan code s fault
  have hbuilt : plan.build code = .ok (.initial code 2) := rfl
  have happroving : plan.observers.Approving := Observers.approving_empty
  have hrunning : s.machine.halted = false := by decide +kernel
  have hfailed : (s.step plan.observers).1 = some fault := by decide +kernel
  have hcore : (s.step plan.observers).2.machine.core = ⟨⟨2, 0, -1, -1, 2⟩, #[1, -1]⟩ := by
    decide +kernel
  have hleft := failed_step_leaves_little hbuilt happroving () [.step] rfl hrunning hfailed
  refine ⟨hbuilt, happroving, hrunning, hfailed, hcore, ?_⟩
  rw [← hcore]
  exact hleft.2.2.2.2

end FrameMachine
