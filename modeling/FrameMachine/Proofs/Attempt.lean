import FrameMachine.Machine
import FrameMachine.Proofs.Execution
/-!
# One attempt at an instruction

An attempt fetches an instruction, moves the counter on and carries the instruction out. It
completes, it stops half way, or there was nothing to fetch. `Effect` says what a completed
instruction may have done, and `Setback` what an instruction that stopped may have left behind.
-/
namespace FrameMachine

namespace Core

def fetch? (code : Array Instruction) (core : Core) : Option Instruction :=
  if 0 ≤ core.regs.pc then code[core.regs.pc.toNatClampNeg]? else none

def opcode? (code : Array Instruction) (core : Core) : Option Opcode :=
  (core.fetch? code).bind fun insn => Opcode.ofByte? insn.opcode

/-- The instruction at the counter stores to the address when it completes. -/
def Writes (code : Array Instruction) (core : Core) (addr : Word) : Prop :=
  ∃ insn op, core.fetch? code = some insn ∧ Opcode.ofByte? insn.opcode = some op ∧
    op.Writes insn.arg core addr

instance (code : Array Instruction) (core : Core) (addr : Word) :
    Decidable (core.Writes code addr) :=
  decidable_of_iff
    (∃ insn ∈ core.fetch? code, ∃ op ∈ Opcode.ofByte? insn.opcode,
      op.Writes insn.arg core addr) <| by
    simp only [Writes, Option.mem_def, exists_and_left]

def carryOut (insn : Instruction) (core : Core) : EStateM.Result Stop Core Flow :=
  (do Action.advance; insn.exec core.regs.pc).run core

def Completes (code : Array Instruction) (before after : Core) : Prop :=
  ∃ insn flow, before.fetch? code = some insn ∧ before.carryOut insn = .ok flow after

/-- The core after the instruction at the counter, if there is one and it completes. -/
def next? (code : Array Instruction) (core : Core) : Option Core :=
  (core.fetch? code).bind fun insn =>
    match core.carryOut insn with
    | .ok _ after => some after
    | .error _ _ => none

theorem completes_iff_next? {code : Array Instruction} {before after : Core} :
    before.Completes code after ↔ before.next? code = some after := by
  unfold Completes next?
  cases before.fetch? code with
  | none => simp
  | some insn => cases hrun : before.carryOut insn <;> simp [hrun]

instance (code : Array Instruction) (before after : Core) :
    Decidable (before.Completes code after) :=
  decidable_of_iff _ completes_iff_next?.symm

/-- There was no instruction at the counter, or it stopped and left the second core. -/
def Breaks (code : Array Instruction) (before after : Core) : Prop :=
  (before.fetch? code = none ∧ after = before) ∨
    ∃ insn stop, before.fetch? code = some insn ∧ before.carryOut insn = .error stop after

def Attempts (code : Array Instruction) (before after : Core) : Prop :=
  before.Completes code after ∨ before.Breaks code after

/-- What a completed operation does. Only the last five cases touch `fp`, `ep` or `np`. -/
inductive Effect (arg : Word) (core : Core) : Opcode → Core → Prop where
  | confined {op : Opcode} {after : Core} (still : op.movesFrame = false)
      (confined : core.Confined (op.Writes arg core) after) : Effect arg core op after
  | call {entry : Word} (readable : core.mem.get? core.regs.sp = some entry) :
      Effect arg core .call
        ⟨{ core.regs with pc := entry, fp := core.regs.sp },
          core.mem.put core.regs.sp (core.regs.pc + 1)⟩
  | enter (fits : core.regs.sp + arg < core.regs.np) :
      Effect arg core .enter
        ⟨{ core.regs with pc := core.regs.pc + 1, ep := core.regs.sp + arg }, core.mem⟩
  | ret {pc ep : Word} (target : core.mem.get? core.regs.fp = some pc)
      (extent : core.mem.get? (core.regs.fp - 2) = some ep) (fits : ep < core.regs.np) :
      Effect arg core .ret
        ⟨⟨pc, core.regs.fp - 3, core.mem.load (core.regs.fp - 1), ep, core.regs.np⟩, core.mem⟩
  | refused {size : Word} (readable : core.mem.get? core.regs.sp = some size)
      (lacking : size ≤ 0 ∨ core.regs.np - size ≤ core.regs.ep) :
      Effect arg core .new
        ⟨{ core.regs with pc := core.regs.pc + 1 }, core.mem.put core.regs.sp 0⟩
  | granted {size : Word} (readable : core.mem.get? core.regs.sp = some size)
      (positive : 0 < size) (fits : core.regs.ep < core.regs.np - size) :
      Effect arg core .new
        ⟨{ core.regs with pc := core.regs.pc + 1, np := core.regs.np - size },
          core.mem.put core.regs.sp (core.regs.np - size)⟩

/-- What an instruction that stopped leaves behind. Only RETURN has moved `ep` by then. -/
inductive Setback (insn : Instruction) (core : Core) : Stop → Core → Prop where
  | still {stop : Stop} {after : Core} (fp : after.regs.fp = core.regs.fp)
      (ep : after.regs.ep = core.regs.ep) (np : after.regs.np = core.regs.np)
      (size : after.mem.size = core.mem.size) : Setback insn core stop after
  | ret {pc ep : Word} (isRet : Opcode.ofByte? insn.opcode = some .ret)
      (target : core.mem.get? core.regs.fp = some pc)
      (extent : core.mem.get? (core.regs.fp - 2) = some ep) (collides : core.regs.np ≤ ep) :
      Setback insn core
        (.refusal (.stackOverflow core.regs.pc Opcode.ret.toByte 0 ep core.regs.np))
        ⟨{ core.regs with pc := pc, ep := ep }, core.mem⟩

def advanced (core : Core) : Core := ⟨{ core.regs with pc := core.regs.pc + 1 }, core.mem⟩

@[simp] theorem mem_advanced (core : Core) : core.advanced.mem = core.mem := rfl

@[simp] theorem sp_advanced (core : Core) : core.advanced.regs.sp = core.regs.sp := rfl

@[simp] theorem fp_advanced (core : Core) : core.advanced.regs.fp = core.regs.fp := rfl

theorem carryOut_eq (insn : Instruction) (core : Core) :
    core.carryOut insn = (insn.exec core.regs.pc).run core.advanced := (rfl)

theorem carryOut_of_opcode {insn : Instruction} {op : Opcode}
    (h : Opcode.ofByte? insn.opcode = some op) (core : Core) :
    core.carryOut insn = (op.exec core.regs.pc insn.arg).run core.advanced := by
  rw [carryOut_eq, Instruction.exec, h]

theorem carryOut_ofOpcode (op : Opcode) (arg : Word) (core : Core) :
    core.carryOut (.ofOpcode op arg) = (op.exec core.regs.pc arg).run core.advanced :=
  carryOut_of_opcode (Opcode.ofByte?_toByte op) core

private theorem writes_advanced (op : Opcode) (arg : Word) (core : Core) :
    op.Writes arg core.advanced = op.Writes arg core := by
  cases op <;> rfl

private theorem exec_advanced_confined {op : Opcode} (h : op.movesFrame = false) (arg : Word)
    (core : Core) :
    core.Confined (op.Writes arg core)
      ((op.exec core.regs.pc arg).final core.advanced) := by
  have hstart : core.Confined (op.Writes arg core) core.advanced :=
    ⟨rfl, rfl, rfl, rfl, fun _ _ => rfl⟩
  have hexec := Opcode.exec_confined core.regs.pc op arg core.advanced h
  rw [writes_advanced] at hexec
  exact hstart.trans hexec

theorem effect_of_carryOut {insn : Instruction} {flow : Flow} {core after : Core}
    (h : core.carryOut insn = .ok flow after) :
    ∃ op, Opcode.ofByte? insn.opcode = some op ∧ core.Effect insn.arg op after := by
  cases hop : Opcode.ofByte? insn.opcode with
  | none =>
      rw [carryOut_eq, Instruction.exec, hop] at h
      cases h
  | some op =>
      refine ⟨op, rfl, ?_⟩
      rw [carryOut_of_opcode hop] at h
      by_cases hmoves : op.movesFrame = false
      · have hconf := exec_advanced_confined hmoves insn.arg core
        rw [Exec.final, h] at hconf
        exact .confined hmoves hconf
      cases op with
      | call =>
          cases hsp : core.mem.get? core.regs.sp with
          | none => simp [Opcode.run_call, advanced, hsp] at h
          | some entry =>
              simp only [Opcode.run_call, advanced, hsp] at h
              cases h
              exact .call hsp
      | enter =>
          rw [Opcode.run_enter] at h
          split at h
          · cases h
          · rename_i hfits
            cases h
            exact .enter (Int64.not_le.mp hfits)
      | ret =>
          rw [Opcode.run_ret] at h
          split at h
          · cases h
          rename_i pc hpc
          split at h
          · cases h
          rename_i ep hep
          split at h
          · cases h
          · rename_i hfits
            cases h
            exact .ret hpc hep (Int64.not_le.mp hfits)
      | new =>
          rw [Opcode.run_new] at h
          split at h
          · cases h
          rename_i size hsize
          split at h
          · rename_i hlack
            cases h
            exact .refused hsize hlack
          · rename_i hlack
            cases h
            rw [not_or, Int64.not_le, Int64.not_le] at hlack
            exact .granted hsize hlack.1 hlack.2
      | _ => exact absurd rfl hmoves

theorem setback_of_carryOut {insn : Instruction} {stop : Stop} {core after : Core}
    (h : core.carryOut insn = .error stop after) : core.Setback insn stop after := by
  cases hop : Opcode.ofByte? insn.opcode with
  | none =>
      rw [carryOut_eq, Instruction.exec, hop] at h
      cases h
      exact .still rfl rfl rfl rfl
  | some op =>
      rw [carryOut_of_opcode hop] at h
      by_cases hmoves : op.movesFrame = false
      · have hconf := exec_advanced_confined hmoves insn.arg core
        rw [Exec.final, h] at hconf
        exact .still hconf.fp hconf.ep hconf.np hconf.size
      cases op with
      | call =>
          rw [Opcode.run_call] at h
          split at h <;> cases h
          exact .still rfl rfl rfl rfl
      | enter =>
          rw [Opcode.run_enter] at h
          split at h <;> cases h
          exact .still rfl rfl rfl rfl
      | ret =>
          rw [Opcode.run_ret] at h
          split at h
          · cases h
            exact .still rfl rfl rfl rfl
          rename_i pc hpc
          split at h
          · cases h
            exact .still rfl rfl rfl rfl
          rename_i ep hep
          split at h
          · rename_i hcollides
            cases h
            exact .ret hop hpc hep hcollides
          · cases h
      | new =>
          rw [Opcode.run_new] at h
          split at h
          · cases h
            exact .still rfl rfl rfl rfl
          · split at h <;> cases h
      | _ => exact absurd rfl hmoves

theorem Completes.effect {code : Array Instruction} {before after : Core}
    (h : before.Completes code after) :
    ∃ insn op, before.fetch? code = some insn ∧ Opcode.ofByte? insn.opcode = some op ∧
      before.Effect insn.arg op after := by
  obtain ⟨insn, flow, hfetch, hrun⟩ := h
  obtain ⟨op, hop, heffect⟩ := effect_of_carryOut hrun
  exact ⟨insn, op, hfetch, hop, heffect⟩

theorem Breaks.cases {code : Array Instruction} {before after : Core}
    (h : before.Breaks code after) :
    after = before ∨
    ∃ insn stop, before.fetch? code = some insn ∧ before.Setback insn stop after := by
  rcases h with ⟨_, hsame⟩ | ⟨insn, stop, hfetch, hrun⟩
  · exact .inl hsame
  · exact .inr ⟨insn, stop, hfetch, setback_of_carryOut hrun⟩

theorem Attempts.eq_of_carryOut {code : Array Instruction} {before after : Core}
    {insn : Instruction} (h : before.Attempts code after)
    (hfetch : before.fetch? code = some insn) :
    after = match before.carryOut insn with
      | .ok _ core => core
      | .error _ core => core := by
  rcases h with ⟨insn', flow, hfetch', hrun⟩ | ⟨hnone, _⟩ | ⟨insn', stop, hfetch', hrun⟩
  · cases hfetch.symm.trans hfetch'
    rw [hrun]
  · cases hfetch.symm.trans hnone
  · cases hfetch.symm.trans hfetch'
    rw [hrun]

theorem opcode?_eq {code : Array Instruction} {core : Core} {insn : Instruction}
    (h : core.fetch? code = some insn) : core.opcode? code = Opcode.ofByte? insn.opcode := by
  rw [opcode?, h, Option.bind_some]

end Core
end FrameMachine
