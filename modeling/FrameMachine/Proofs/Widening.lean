import FrameMachine.Proofs.Halting
import FrameMachine.Proofs.Interference
/-!
# Programs in a larger memory

What a program does in a memory it does in every longer one, as long as it never asks for heap.
The longer memory ends in zeros that are never touched, and the heap begins no lower, so every
access that was served is served with the same word and every frame that did fit still fits. Of
all operations only NEW lets a program see where the heap begins.
-/
namespace FrameMachine

namespace Memory

variable {mem more : Memory} {addr w : Word}

private theorem get?_append (h : mem.get? addr = some w) :
    Memory.get? (mem ++ more) addr = some w := by
  obtain ⟨h0, hget⟩ := get?_eq_some_iff.mp h
  obtain ⟨hlt, -⟩ := Array.getElem?_eq_some_iff.mp hget
  rw [get?_eq_some_iff, Array.getElem?_append_left hlt]
  exact ⟨h0, hget⟩

private theorem Covers.append (h : mem.Covers addr) : Memory.Covers (mem ++ more) addr := by
  obtain ⟨w, hw⟩ := covers_iff_get?.mp h
  exact covers_of_get? (get?_append hw)

private theorem put_append (h : mem.Covers addr) :
    Memory.put (mem ++ more) addr w = mem.put addr w ++ more := by
  rw [put, put, if_pos h.1, if_pos h.1, Array.setIfInBounds_append_left h.2]

private theorem load_append_zeroed (extra : Nat) :
    Memory.load (mem ++ zeroed extra) addr = mem.load addr := by
  cases hget : mem.get? addr with
  | some w => rw [load_of_get? (get?_append hget), load_of_get? hget]
  | none =>
      rw [load, load, hget]
      cases hwide : Memory.get? (mem ++ zeroed extra) addr with
      | none => rfl
      | some w =>
          obtain ⟨h0, hw⟩ := get?_eq_some_iff.mp hwide
          rw [get?, if_pos h0, Array.getElem?_eq_none_iff] at hget
          rw [Array.getElem?_append_right hget, zeroed, Array.getElem?_replicate] at hw
          grind

end Memory

/-- The wide core agrees with the narrow one in counter, stack and frame, its heap begins no lower,
and its memory goes on with zeros after the words of the narrow one. -/
structure Core.Widens (room extra : Nat) (narrow wide : Core) : Prop where
  regs : wide.regs = { narrow.regs with np := wide.regs.np }
  np : narrow.regs.np ≤ wide.regs.np
  size : narrow.mem.size = room
  mem : wide.mem = narrow.mem ++ Memory.zeroed extra

namespace Core.Widens

variable {room extra : Nat} {narrow wide : Core}

private theorem pc (h : narrow.Widens room extra wide) : wide.regs.pc = narrow.regs.pc := by
  rw [h.regs]

private theorem result (h : narrow.Widens room extra wide) : wide.result = narrow.result := by
  rw [Core.result, Core.result, h.mem, Memory.load_append_zeroed]

private theorem update (h : narrow.Widens room extra wide) {f : Registers → Registers}
    (blind : ∀ r np, f { r with np := np } = { f r with np := np })
    (still : ∀ r, (f r).np = r.np) :
    Core.Widens room extra { narrow with regs := f narrow.regs }
      { wide with regs := f wide.regs } := by
  obtain ⟨hregs, hnp, hsize, hmem⟩ := h
  refine ⟨?_, ?_, hsize, hmem⟩
  · rw [still wide.regs, hregs, blind]
  · rw [still, still]
    exact hnp

private theorem put (h : narrow.Widens room extra wide) {addr : Word}
    (hcov : narrow.mem.Covers addr) (w : Word) :
    Core.Widens room extra { narrow with mem := narrow.mem.put addr w }
      { wide with mem := wide.mem.put addr w } := by
  refine ⟨h.regs, h.np, (Memory.size_put ..).trans h.size, ?_⟩
  rw [h.mem, Memory.put_append hcov]

end Core.Widens

namespace Exec

variable {α β : Type} {room extra : Nat}

/-- Where the action completes, it completes with the same answer in every wider core. -/
def Scales (room extra : Nat) (act : Exec α) : Prop :=
  ∀ narrow wide : Core, narrow.Widens room extra wide →
    ∀ (a : α) (after : Core), act.run narrow = .ok a after →
      ∃ after', act.run wide = .ok a after' ∧ after.Widens room extra after'

private theorem Scales.pure (a : α) : Scales room extra (pure a) := by
  intro narrow wide hwide a' after hrun
  cases hrun
  exact ⟨wide, rfl, hwide⟩

private theorem Scales.bind {act : Exec α} {next : α → Exec β} (h : Scales room extra act)
    (hnext : ∀ a, Scales room extra (next a)) : Scales room extra (act >>= next) := by
  intro narrow wide hwide b after hrun
  rw [run_bind] at hrun ⊢
  cases hact : act.run narrow with
  | error e middle =>
      rw [hact] at hrun
      cases hrun
  | ok a middle =>
      rw [hact] at hrun
      obtain ⟨middle', hact', hmiddle⟩ := h narrow wide hwide a middle hact
      rw [hact']
      exact hnext a middle middle' hmiddle b after hrun

/-- Registers may be asked for by an action that makes no use of `np`. -/
private theorem Scales.regs {next : Registers → Exec β}
    (blind : ∀ r np, next { r with np := np } = next r) (hnext : ∀ r, Scales room extra (next r)) :
    Scales room extra (regs >>= next) := by
  intro narrow wide hwide b after hrun
  rw [run_bind, run_regs] at hrun ⊢
  dsimp only at hrun ⊢
  rw [hwide.regs, blind]
  exact hnext narrow.regs narrow wide hwide b after hrun

private theorem Scales.updateRegs {f : Registers → Registers}
    (blind : ∀ r np, f { r with np := np } = { f r with np := np })
    (still : ∀ r, (f r).np = r.np) : Scales room extra (updateRegs f) := by
  intro narrow wide hwide a after hrun
  rw [run_updateRegs] at hrun ⊢
  cases hrun
  exact ⟨_, rfl, hwide.update blind still⟩

private theorem Scales.setPc (a : Word) : Scales room extra (setPc a) :=
  .updateRegs (fun _ _ => rfl) fun _ => rfl

private theorem Scales.setSp (a : Word) : Scales room extra (setSp a) :=
  .updateRegs (fun _ _ => rfl) fun _ => rfl

private theorem Scales.setFp (a : Word) : Scales room extra (setFp a) :=
  .updateRegs (fun _ _ => rfl) fun _ => rfl

private theorem Scales.fault (f : Fault) : Scales room extra (fault f : Exec α) := by
  intro narrow wide hwide a after hrun
  cases hrun

private theorem Scales.read (addr : Word) : Scales room extra (read addr) := by
  intro narrow wide hwide w after hrun
  rw [run_read] at hrun ⊢
  cases hget : narrow.mem.get? addr with
  | none =>
      rw [hget] at hrun
      cases hrun
  | some word =>
      rw [hget] at hrun
      cases hrun
      rw [hwide.mem, Memory.get?_append hget]
      exact ⟨wide, rfl, hwide⟩

private theorem Scales.write (addr w : Word) : Scales room extra (write addr w) := by
  intro narrow wide hwide a after hrun
  rw [run_write] at hrun ⊢
  by_cases hcov : narrow.mem.Covers addr
  · rw [if_pos hcov] at hrun
    cases hrun
    have hcov' : wide.mem.Covers addr := by
      rw [hwide.mem]
      exact hcov.append
    rw [if_pos hcov']
    exact ⟨_, rfl, hwide.put hcov w⟩
  · rw [if_neg hcov] at hrun
    cases hrun

private theorem Scales.push {value : Exec Word} (hvalue : Scales room extra value) :
    Scales room extra (push value) :=
  .regs (fun _ _ => rfl) fun _ => .bind (.setSp _) fun _ => .bind hvalue fun w => .write _ w

private theorem Scales.binary (f : Word → Word → Except Fault Word) :
    Scales room extra (binary f) := by
  refine .regs (fun _ _ => rfl) fun r => .bind (.read _) fun left => .bind (.read _) fun right => ?_
  cases f left right with
  | ok w => exact .bind (.setSp _) fun _ => .write _ w
  | error e => exact .fault e

private theorem Scales.unary (f : Word → Word) : Scales room extra (unary f) :=
  .regs (fun _ _ => rfl) fun _ => .bind (.read _) fun _ => .write _ _

private theorem Scales.copy (src dst : Word) (n : Nat) : Scales room extra (copy src dst n) := by
  induction n generalizing src dst with
  | zero => exact .pure ()
  | succ n ih => exact .bind (.read src) fun w => .bind (.write dst w) fun _ => ih _ _

end Exec

namespace Opcode

open Exec

variable {room extra : Nat} (here arg : Word)

private theorem enter_scales : Scales room extra (enter.exec here arg) := by
  intro narrow wide hwide a after hrun
  rw [run_enter] at hrun ⊢
  obtain ⟨hregs, hnp, hsize, hmem⟩ := hwide
  split at hrun
  · cases hrun
  rename_i hfits
  cases hrun
  have hfits' : ¬ wide.regs.np ≤ wide.regs.sp + arg := by
    rw [hregs]
    exact fun hle => hfits (Int64.le_trans hnp hle)
  rw [if_neg hfits']
  refine ⟨_, rfl, ?_, hnp, hsize, hmem⟩
  dsimp only
  rw [hregs]

private theorem ret_scales : Scales room extra (ret.exec here arg) := by
  intro narrow wide hwide a after hrun
  rw [run_ret] at hrun ⊢
  obtain ⟨hregs, hnp, hsize, hmem⟩ := hwide
  have hfp : wide.regs.fp = narrow.regs.fp := by rw [hregs]
  split at hrun
  · cases hrun
  rename_i pc hpc
  split at hrun
  · cases hrun
  rename_i ep hep
  split at hrun
  · cases hrun
  rename_i hfits
  cases hrun
  have hfits' : ¬ wide.regs.np ≤ ep := fun hle => hfits (Int64.le_trans hnp hle)
  simp only [hfp, hmem, Memory.get?_append hpc, Memory.get?_append hep, if_neg hfits',
    Memory.load_append_zeroed]
  exact ⟨_, rfl, rfl, hnp, hsize, rfl⟩

/-- Every operation but NEW does in a wider core what it does in a narrow one. -/
private theorem exec_scales (op : Opcode) (h : op ≠ new) :
    Scales room extra (op.exec here arg) := by
  have hdone {act : Exec Unit} (hact : Scales room extra act) :
      Scales room extra (do act; pure Flow.next) := .bind hact fun _ => .pure _
  cases op with
  | loadc => exact hdone (.push (.pure arg))
  | loada => exact hdone (.push (.read arg))
  | loadrc => exact hdone (.push (.regs (fun _ _ => rfl) fun _ => .pure _))
  | loadr => exact hdone (.push (.regs (fun _ _ => rfl) fun _ => .read _))
  | dup => exact hdone (.push (.regs (fun _ _ => rfl) fun _ => .read _))
  | add | sub | mul | div | mod | and | or | xor | eq | neq | le | leq | gr | geq =>
      exact hdone (.binary _)
  | not | neg => exact hdone (.unary _)
  | pop => exact hdone (.updateRegs (fun _ _ => rfl) fun _ => rfl)
  | alloc => exact hdone (.updateRegs (fun _ _ => rfl) fun _ => rfl)
  | jump => exact hdone (.setPc arg)
  | halt => exact .pure _
  | enter => exact enter_scales here arg
  | ret => exact ret_scales here arg
  | new => exact absurd rfl h
  | storea =>
      exact .regs (fun _ _ => rfl) fun _ => .bind (.read _) fun w => hdone (.write arg w)
  | load | store =>
      exact .regs (fun _ _ => rfl) fun _ => .bind (.read _) fun p => .bind (.copy _ _ _) fun _ =>
        hdone (.setSp _)
  | storer =>
      exact .regs (fun _ _ => rfl) fun _ => .bind (.push (.pure _)) fun _ =>
        .bind (.read _) fun w => .bind (.write _ w) fun _ => hdone (.setSp _)
  | jumpz | jumpi =>
      exact .regs (fun _ _ => rfl) fun _ => .bind (.read _) fun w => .bind (.setPc _) fun _ =>
        hdone (.setSp _)
  | mark =>
      exact .regs (fun _ _ => rfl) fun _ => .bind (.write _ _) fun _ => .bind (.write _ _) fun _ =>
        hdone (.setSp _)
  | call =>
      exact .regs (fun _ _ => rfl) fun _ => .bind (.read _) fun entry => .bind (.setPc _) fun _ =>
        .bind (.write _ _) fun _ => hdone (.setFp _)
  | slide =>
      exact .regs (fun _ _ => rfl) fun _ => .bind (.read _) fun top => .bind (.setSp _) fun _ =>
        hdone (.write _ _)

end Opcode

namespace Core.Widens

variable {room extra : Nat} {narrow wide after : Core}

private theorem fetch? (h : narrow.Widens room extra wide) (code : Array Instruction) :
    wide.fetch? code = narrow.fetch? code := by
  rw [Core.fetch?, Core.fetch?, h.pc]

private theorem carryOut (h : narrow.Widens room extra wide) {insn : Instruction} {flow : Flow}
    (hnew : Opcode.ofByte? insn.opcode ≠ some .new) (hrun : narrow.carryOut insn = .ok flow after) :
    ∃ after', wide.carryOut insn = .ok flow after' ∧ after.Widens room extra after' := by
  have hadvanced : narrow.advanced.Widens room extra wide.advanced := by
    have hnext := h.update (f := fun r => { r with pc := r.pc + 1 }) (fun _ _ => rfl) fun _ => rfl
    exact hnext
  obtain ⟨op, hop, -⟩ := effect_of_carryOut hrun
  rw [carryOut_of_opcode hop] at hrun ⊢
  rw [h.pc]
  have hother : op ≠ .new := fun heq => hnew (heq ▸ hop)
  exact Opcode.exec_scales _ _ op hother _ _ hadvanced flow after hrun

end Core.Widens

structure Machine.Widens (room extra : Nat) (m m' : Machine) : Prop where
  core : m.core.Widens room extra m'.core
  code : m'.code = m.code
  steps : m'.steps = m.steps
  halted : m'.halted = m.halted
  failure : m'.failure = m.failure

private theorem Machine.Widens.cycled {room extra : Nat} {m m' after : Machine}
    (h : m.Widens room extra m') (hnew : m.core.opcode? m.code ≠ some .new)
    (hcycled : m.cycled = .ok () after) :
    ∃ after', m'.cycled = .ok () after' ∧ after.Widens room extra after' := by
  obtain ⟨insn, flow, core, hfetch, hrun, rfl⟩ := cycled_ok hcycled
  rw [Core.opcode?_eq hfetch] at hnew
  obtain ⟨core', hrun', hcore⟩ := h.core.carryOut hnew hrun
  have hfetch' : m'.core.fetch? m'.code = some insn := by
    rw [h.code, h.core.fetch?, hfetch]
  refine ⟨_, cycled_of_carryOut hfetch' hrun', hcore, h.code, ?_, ?_, h.failure⟩
  · simp only [completed, h.steps]
  · simp only [completed, h.halted]

namespace Session

variable {σ τ : Type} {obs : Observers σ} {other : Observers τ} {room extra : Nat} {s : Session σ}
  {t : Session τ} {budget more : Nat} {cause cause' : Failure} {result : Word}

private theorem visits_of_halted (obs : Observers σ) (budget : Nat) (h : s.machine.halted = true) :
    Action.visits obs budget s = [] := by
  cases budget with
  | zero => rfl
  | succ budget => rw [Action.visits, if_pos h]

private theorem failure_of_run_ok (h : (s.run obs budget cause).1 = .ok result) :
    (s.run obs budget cause).2.machine.failure = none := by
  rw [run_snd]
  rw [run] at h
  cases hf : s.machine.failure with
  | some stored =>
      rw [attempt_of_failure hf] at h
      cases h
  | none =>
      have hkept := (Action.loop_follows obs cause budget s).2.1
      rw [attempt_of_none hf] at h ⊢
      cases hverdict : verdict "run" ((Action.loop obs cause budget).run s) with
      | some stored =>
          rw [hverdict] at h
          cases h
      | none => exact hkept.trans hf

private theorem run_widens_of_halted (hst : s.machine.unmarked.Widens room extra t.machine.unmarked)
    (hfailure : s.machine.failure = none) (hhalted : s.machine.halted = true)
    (hrun : (s.run obs budget cause).1 = .ok result) :
    (t.run other more cause').1 = .ok result ∧
    (s.run obs budget cause).2.machine.unmarked.Widens room extra
      (t.run other more cause').2.machine.unmarked ∧
    List.Forall₂ (Core.Widens room extra) (Action.visits obs budget s)
      (Action.visits other more t) := by
  have hhalted' : t.machine.halted = true := hst.halted.trans hhalted
  rw [run_of_halted obs hhalted hfailure] at hrun ⊢
  rw [run_of_halted other hhalted' (hst.failure.trans hfailure),
    visits_of_halted obs budget hhalted, visits_of_halted other more hhalted']
  exact ⟨(congrArg Except.ok hst.core.result).trans hrun, hst, .nil⟩

/-- A run that comes to a HALT without a NEW comes to the same HALT in the wider machine, under
any budget that is no smaller. -/
private theorem run_widens (h : obs.Approving) (h' : other.Approving)
    (hst : s.machine.unmarked.Widens room extra t.machine.unmarked)
    (hfailure : s.machine.failure = none) (hrun : (s.run obs budget cause).1 = .ok result)
    (hnew : ∀ core ∈ Action.visits obs budget s, core.opcode? s.machine.code ≠ some .new)
    (hmore : budget ≤ more) (cause' : Failure) :
    (t.run other more cause').1 = .ok result ∧
    (s.run obs budget cause).2.machine.unmarked.Widens room extra
      (t.run other more cause').2.machine.unmarked ∧
    List.Forall₂ (Core.Widens room extra) (Action.visits obs budget s)
      (Action.visits other more t) := by
  -- on the budget of the first run, which both spend on the same instructions
  induction budget generalizing s t more with
  | zero =>
      by_cases hhalted : s.machine.halted = true
      · exact run_widens_of_halted hst hfailure hhalted hrun
      · rw [run_zero obs (Bool.eq_false_of_not_eq_true hhalted) hfailure] at hrun
        cases hrun
  | succ budget ih =>
      by_cases hhalted : s.machine.halted = true
      · exact run_widens_of_halted hst hfailure hhalted hrun
      obtain ⟨more, rfl⟩ : ∃ n, more = n + 1 := Nat.exists_eq_add_one.mpr (by omega)
      have hrunning : s.machine.halted = false := Bool.eq_false_of_not_eq_true hhalted
      have hrunning' : t.machine.halted = false := hst.halted.trans hrunning
      have hbare := Action.bare_cycle h "\t" s
      rw [run_succ obs hrunning hfailure] at hrun ⊢
      rw [run_succ other hrunning' (hst.failure.trans hfailure)]
      rw [Action.visits, if_neg hhalted] at hnew ⊢
      rw [Action.visits, if_neg (hst.halted.trans hrunning ▸ Bool.false_ne_true)]
      cases hcycle : (Action.cycle obs "\t").run s with
      | error e s' =>
          rw [hcycle] at hrun
          cases hrun
      | ok u s' =>
          rw [hcycle] at hrun hnew hbare
          obtain ⟨hfirst, hrest⟩ := List.forall_mem_cons.mp hnew
          obtain ⟨after, hcycled', hnext⟩ := hst.cycled hfirst hbare.symm
          obtain ⟨t', hcycle', rfl⟩ :=
            Action.bare_eq_ok ((Action.bare_cycle h' "\t" t).trans hcycled')
          have hkept := Action.cycle_attempts obs "\t" s
          rw [Action.final, hcycle] at hkept
          obtain ⟨hcode, hfailure', -⟩ := hkept
          rw [hcycle']
          rw [← hcode] at hrest
          obtain ⟨hanswer, hlast, hbegun⟩ :=
            ih hnext (hfailure'.trans hfailure) hrun hrest (Nat.le_of_succ_le_succ hmore)
          exact ⟨hanswer, hlast, .cons hst.core hbegun⟩

end Session

private theorem Plan.widens_of_build {σ τ : Type} {small : Plan σ} {large : Plan τ}
    {code : Array Instruction} {m m' : Machine} (built : small.build code = .ok m)
    (built' : large.build code = .ok m') (wider : small.words ≤ large.words) :
    m.unmarked.Widens small.words.toNatClampNeg
      (large.words.toNatClampNeg - small.words.toNatClampNeg) m'.unmarked := by
  have hle := Int64.toNatClampNeg_le wider
  have hcore : m.core.Widens small.words.toNatClampNeg
      (large.words.toNatClampNeg - small.words.toNatClampNeg) m'.core := by
    rw [Plan.core_of_build built, Plan.core_of_build built']
    refine ⟨rfl, wider, Array.size_replicate, ?_⟩
    rw [Memory.zeroed, Memory.zeroed, Memory.zeroed, Array.replicate_append_replicate,
      Nat.add_sub_cancel' hle]
  refine ⟨hcore, ?_, ?_, ?_, ?_⟩ <;>
    rw [Plan.build_eq_initial built, Plan.build_eq_initial built'] <;>
    simp only [Machine.unmarked, Machine.initial]

/-- A program that halts in a memory without ever asking for heap halts in every larger memory,
after as many steps and with the same result, under every budget that lets it finish. The cores it
passes through agree one by one: in counter, stack and frame, in the words of the smaller memory,
and the larger memory has nothing but zeros beyond them. -/
theorem more_memory_changes_nothing {σ τ : Type} {small : Plan σ} {large : Plan τ}
    {code : Array Instruction} {m m' : Machine} (built : small.build code = .ok m)
    (built' : large.build code = .ok m') (wider : small.words ≤ large.words)
    (approving : small.observers.Approving) (approving' : large.observers.Approving)
    (world : σ) (world' : τ) {budget : Nat} {cause : Failure} {result : Word}
    (halts : (Session.run small.observers budget cause ⟨m, world⟩).1 = .ok result)
    (heapless : ∀ core ∈ Session.history small.observers [.run budget cause] ⟨m, world⟩,
      core.opcode? code ≠ some .new)
    (more : Nat) (enough : budget ≤ more) (cause' : Failure) :
    let room := small.words.toNatClampNeg
    let narrow := Session.run small.observers budget cause ⟨m, world⟩
    let wide := Session.run large.observers more cause' ⟨m', world'⟩
    wide.1 = .ok result ∧ wide.2.machine.halted = true ∧ wide.2.machine.failure = none ∧
    wide.2.machine.steps = narrow.2.machine.steps ∧
    List.Forall₂ (Core.Widens room (large.words.toNatClampNeg - room))
      (Session.states small.observers [.run budget cause] ⟨m, world⟩)
      (Session.states large.observers [.run more cause'] ⟨m', world'⟩) := by
  intro room narrow wide
  have hstart := Plan.widens_of_build built built' wider
  have hfailure : m.failure = none := by rw [Plan.build_eq_initial built, Machine.initial]
  have hfailure' : m'.failure = none := by rw [Plan.build_eq_initial built', Machine.initial]
  have hcode : m.code = code := by rw [Plan.build_eq_initial built, Machine.initial]
  have hbegun : Session.history small.observers [.run budget cause] ⟨m, world⟩ =
      Action.visits small.observers budget ⟨m, world⟩ := by
    simp [Session.history, Session.visits, hfailure]
  have hbegun' : Session.history large.observers [.run more cause'] ⟨m', world'⟩ =
      Action.visits large.observers more ⟨m', world'⟩ := by
    simp [Session.history, Session.visits, hfailure']
  rw [hbegun, ← hcode] at heapless
  obtain ⟨hanswer, hlast, hcores⟩ := Session.run_widens (s := ⟨m, world⟩) (t := ⟨m', world'⟩)
    approving approving' hstart hfailure halts heapless enough cause'
  have hfine : m'.failure.isSome → m'.halted = true := by
    rw [hfailure']
    intro hfailed
    cases hfailed
  have hhalts : wide.2.machine.halted = true :=
    Session.run_halts (s := ⟨m', world'⟩) hfine more cause'
  refine ⟨hanswer, hhalts, Session.failure_of_run_ok hanswer, hlast.steps, ?_⟩
  rw [Session.states, Session.states, hbegun, hbegun']
  exact List.rel_append hcores (.cons hlast.core .nil)

/-- Calls a subroutine with a frame of three words that doubles 21 through a local. -/
def doubling : Array Instruction :=
  #[.ofOpcode .loadc 0, .ofOpcode .mark 0, .ofOpcode .loadc 5, .ofOpcode .call 0,
    .ofOpcode .halt 0, .ofOpcode .enter 3, .ofOpcode .alloc 1, .ofOpcode .loadc 21,
    .ofOpcode .storer 1, .ofOpcode .pop 0, .ofOpcode .loadr 1, .ofOpcode .loadr 1,
    .ofOpcode .add 0, .ofOpcode .storer (-3), .ofOpcode .ret 0]

theorem more_memory_changes_nothing_for_doubling :
    let small : Plan Unit := ⟨7, {}⟩
    let large : Plan Unit := ⟨12, {}⟩
    let narrow := Session.run small.observers 15 .canceled ⟨.initial doubling 7, ()⟩
    let wide := Session.run large.observers 20 .deadlineExceeded ⟨.initial doubling 12, ()⟩
    small.build doubling = .ok (.initial doubling 7) ∧
    large.build doubling = .ok (.initial doubling 12) ∧ narrow.1 = .ok 42 ∧
    narrow.2.machine.steps = 15 ∧ wide.1 = .ok 42 ∧
    wide.2.machine.steps = narrow.2.machine.steps ∧
    List.Forall₂ (Core.Widens 7 5)
      (Session.states small.observers [.run 15 .canceled] ⟨.initial doubling 7, ()⟩)
      (Session.states large.observers [.run 20 .deadlineExceeded] ⟨.initial doubling 12, ()⟩) := by
  intro small large narrow wide
  have hbuilt : small.build doubling = .ok (.initial doubling 7) := rfl
  have hbuilt' : large.build doubling = .ok (.initial doubling 12) := rfl
  have hhalts : narrow.1 = .ok 42 := by decide +kernel
  have hsteps : narrow.2.machine.steps = 15 := by decide +kernel
  have hheapless : ∀ core ∈ Session.history small.observers [.run 15 .canceled]
      ⟨.initial doubling 7, ()⟩, core.opcode? doubling ≠ some .new := by decide +kernel
  have hroom : small.words.toNatClampNeg = 7 := by decide
  have hroom' : large.words.toNatClampNeg = 12 := by decide
  have hwide := more_memory_changes_nothing hbuilt hbuilt' (by decide) Observers.approving_empty
    Observers.approving_empty () () hhalts hheapless 20 (by decide) .deadlineExceeded
  rw [hroom, hroom'] at hwide
  obtain ⟨hanswer, -, -, hsame, hcores⟩ := hwide
  refine ⟨hbuilt, hbuilt', hhalts, hsteps, hanswer, ?_, hcores⟩
  simp only [wide, narrow]
  exact hsame

end FrameMachine
