import FrameMachine.Exec
import FrameMachine.Proofs.Memory
/-!
# What an operation can change

Most operations leave the frame registers alone and write a few words that can be told from
the state before: they are confined to these words, also when they stop half way. Only CALL,
ENTER, RETURN and NEW move the frame pointer, the frame's end or the heap, and for these four
the whole outcome is given.
-/
namespace FrameMachine

/-- The later core differs from the earlier one at most in `pc`, `sp` and the given words. -/
structure Core.Confined (words : Word → Prop) (before after : Core) : Prop where
  fp : after.regs.fp = before.regs.fp
  ep : after.regs.ep = before.regs.ep
  np : after.regs.np = before.regs.np
  size : after.mem.size = before.mem.size
  get? : ∀ addr, ¬ words addr → after.mem.get? addr = before.mem.get? addr

namespace Core.Confined

variable {words more : Word → Prop} {before middle after : Core}

private theorem refl (words : Word → Prop) (core : Core) : core.Confined words core :=
  ⟨rfl, rfl, rfl, rfl, fun _ _ => rfl⟩

theorem trans (h : before.Confined words middle) (h' : middle.Confined words after) :
    before.Confined words after where
  fp := h'.fp.trans h.fp
  ep := h'.ep.trans h.ep
  np := h'.np.trans h.np
  size := h'.size.trans h.size
  get? addr ha := (h'.get? addr ha).trans (h.get? addr ha)

private theorem mono (h : before.Confined words after) (hsub : ∀ addr, words addr → more addr) :
    before.Confined more after :=
  ⟨h.fp, h.ep, h.np, h.size, fun addr ha => h.get? addr (fun hw => ha (hsub addr hw))⟩

end Core.Confined

namespace Exec

variable {α β : Type} {words : Word → Prop}

def final (act : Exec α) (core : Core) : Core :=
  match act.run core with
  | .ok _ core => core
  | .error _ core => core

/-- From every core, the action writes the given words at most and keeps the frame registers. -/
def Confined (words : Word → Prop) (act : Exec α) : Prop :=
  ∀ core : Core, core.Confined words (act.final core)

private theorem final_bind (act : Exec α) (next : α → Exec β) (core : Core) :
    (act >>= next).final core =
      match act.run core with
      | .ok a core => (next a).final core
      | .error _ core => core := by
  rw [final, run_bind]
  cases act.run core <;> rfl

private theorem confined_bind_at {act : Exec α} {next : α → Exec β} {core : Core}
    (h : core.Confined words (act.final core)) (hnext : ∀ a, Confined words (next a)) :
    core.Confined words ((act >>= next).final core) := by
  rw [final_bind]
  cases heq : act.run core with
  | ok a middle =>
      simp only [final, heq] at h
      exact h.trans (hnext a middle)
  | error _ middle => simpa only [final, heq] using h

private theorem Confined.bind {act : Exec α} {next : α → Exec β} (h : Confined words act)
    (hnext : ∀ a, Confined words (next a)) : Confined words (act >>= next) :=
  fun core => confined_bind_at (h core) hnext

private theorem Confined.pure (a : α) : Confined words (pure a) :=
  fun core => .refl words core

private theorem Confined.regs : Confined words regs :=
  fun core => .refl words core

private theorem Confined.fault (f : Fault) : Confined words (fault f : Exec α) :=
  fun core => .refl words core

private theorem Confined.read (addr : Word) : Confined words (read addr) := by
  intro core
  rw [final, run_read]
  cases core.mem.get? addr <;> exact .refl words core

private theorem Confined.write {addr : Word} (w : Word) (h : words addr) :
    Confined words (write addr w) := by
  intro core
  rw [final, run_write]
  by_cases hc : core.mem.Covers addr
  · rw [if_pos hc]
    refine ⟨rfl, rfl, rfl, Memory.size_put .., fun other hother => ?_⟩
    exact Memory.get?_put_of_ne (fun he => hother (he ▸ h))
  · rw [if_neg hc]
    exact .refl words core

private theorem Confined.setPc (a : Word) : Confined words (setPc a) :=
  fun _ => ⟨rfl, rfl, rfl, rfl, fun _ _ => rfl⟩

private theorem Confined.setSp (a : Word) : Confined words (setSp a) :=
  fun _ => ⟨rfl, rfl, rfl, rfl, fun _ _ => rfl⟩

theorem final_regs_bind (next : Registers → Exec β) (core : Core) :
    (regs >>= next).final core = (next core.regs).final core := (rfl)

theorem run_regs_bind (next : Registers → Exec β) (core : Core) :
    (regs >>= next).run core = (next core.regs).run core := (rfl)

theorem run_read_bind {core : Core} {addr w : Word} (h : core.mem.get? addr = some w)
    (next : Word → Exec β) : (read addr >>= next).run core = (next w).run core := by
  rw [run_bind, run_read, h]

theorem run_write_bind {core : Core} {addr w : Word} (h : core.mem.Covers addr)
    (next : Unit → Exec β) :
    (write addr w >>= next).run core = (next ()).run ⟨core.regs, core.mem.put addr w⟩ := by
  rw [run_bind, run_write, if_pos h]

private theorem confined_push (value : Exec Word) (hvalue : ∀ words, Confined words value)
    (core : Core) :
    core.Confined (· = core.regs.sp + 1) ((push value).final core) := by
  rw [push, final_regs_bind]
  refine Confined.bind (.setSp _) (fun _ => Confined.bind (hvalue _) fun w => ?_) core
  exact .write w rfl

private theorem confined_binary (f : Word → Word → Except Fault Word) (core : Core) :
    core.Confined (· = core.regs.sp - 1) ((binary f).final core) := by
  rw [binary, final_regs_bind]
  refine Confined.bind (.read _) (fun left => Confined.bind (.read _) fun right => ?_) core
  cases f left right with
  | ok w => exact Confined.bind (.setSp _) fun _ => .write w rfl
  | error e => exact .fault e

private theorem confined_unary (f : Word → Word) (core : Core) :
    core.Confined (· = core.regs.sp) ((unary f).final core) := by
  rw [unary, final_regs_bind]
  refine Confined.bind (.read _) (fun w => ?_) core
  exact .write (f w) rfl

private theorem Confined.copy (n : Nat) (src dst : Word)
    (h : ∀ i < n, words (dst + Int64.ofNat i)) : Confined words (copy src dst n) := by
  induction n generalizing src dst with
  | zero => exact .pure ()
  | succ n ih =>
      have hfirst : words dst := by simpa using h 0 (Nat.succ_pos n)
      have hrest : ∀ i < n, words (dst + 1 + Int64.ofNat i) := by
        intro i hi
        have hnext := h (i + 1) (Nat.succ_lt_succ hi)
        rwa [Int64.ofNat_add, show Int64.ofNat i + Int64.ofNat 1 = 1 + Int64.ofNat i from
          Int64.add_comm _ _, ← Int64.add_assoc] at hnext
      rw [Exec.copy]
      exact Confined.bind (.read src) fun w => Confined.bind (.write w hfirst) fun _ =>
        ih (src + 1) (dst + 1) hrest

end Exec

namespace Opcode

open Exec

/-- The addresses an operation stores to when it completes. -/
def Writes (op : Opcode) (arg : Word) (core : Core) (addr : Word) : Prop :=
  match op with
  | loadc | loada | loadrc | loadr | dup => addr = core.regs.sp + 1
  | storea => addr = arg
  | load => ∃ i < arg.toNatClampNeg, addr = core.regs.sp + Int64.ofNat i
  | store => ∃ i < arg.toNatClampNeg, addr = core.mem.load core.regs.sp + Int64.ofNat i
  | storer => addr = core.regs.sp + 1 ∨ addr = core.regs.fp + arg
  | add | sub | mul | div | mod | and | or | xor | eq | neq | le | leq | gr | geq =>
      addr = core.regs.sp - 1
  | not | neg | call | new => addr = core.regs.sp
  | mark => addr = core.regs.sp + 1 ∨ addr = core.regs.sp + 2
  | slide => addr = core.regs.sp - arg
  | pop | alloc | jump | jumpz | jumpi | enter | ret | halt => False

instance (op : Opcode) (arg : Word) (core : Core) (addr : Word) :
    Decidable (op.Writes arg core addr) := by
  cases op <;> dsimp only [Writes] <;> infer_instance

def movesFrame : Opcode → Bool
  | call | enter | ret | new => true
  | _ => false

/-- All other operations keep these registers and write where `Writes` says, or stop earlier. -/
theorem exec_confined (here : Word) (op : Opcode) (arg : Word) (core : Core)
    (h : op.movesFrame = false) :
    core.Confined (op.Writes arg core) ((op.exec here arg).final core) := by
  have hdone {act : Exec Unit} (hact : core.Confined (op.Writes arg core) (act.final core)) :
      core.Confined (op.Writes arg core) ((do act; pure Flow.next).final core) :=
    confined_bind_at hact fun _ => .pure _
  cases op with
  | loadc => exact hdone (confined_push _ (fun _ => .pure _) core)
  | loada => exact hdone (confined_push _ (fun _ => .read _) core)
  | loadrc => exact hdone (confined_push _ (fun _ => .bind .regs fun _ => .pure _) core)
  | loadr => exact hdone (confined_push _ (fun _ => .bind .regs fun _ => .read _) core)
  | dup => exact hdone (confined_push _ (fun _ => .bind .regs fun _ => .read _) core)
  | add | sub | mul | div | mod | and | or | xor | eq | neq | le | leq | gr | geq =>
      exact hdone (confined_binary _ core)
  | not | neg => exact hdone (confined_unary _ core)
  | pop | alloc | jump | halt => exact ⟨rfl, rfl, rfl, rfl, fun _ _ => rfl⟩
  | call | enter | ret | new => cases h
  | storea =>
      refine Confined.bind .regs (fun r => .bind (.read r.sp) fun w => ?_) core
      exact .bind (.write w rfl) fun _ => .pure _
  | load =>
      rw [Opcode.exec, final_regs_bind]
      refine Confined.bind (.read _) (fun p => ?_) core
      exact .bind (.copy _ _ _ fun i hi => ⟨i, hi, rfl⟩) fun _ => .bind (.setSp _) fun _ => .pure _
  | store =>
      rw [Opcode.exec, final_regs_bind, final_bind, run_read]
      cases hp : core.mem.get? core.regs.sp with
      | none => exact .refl _ core
      | some p =>
          have hdst : ∀ i < arg.toNatClampNeg, Writes store arg core (p + Int64.ofNat i) :=
            fun i hi => ⟨i, hi, by rw [Memory.load_of_get? hp]⟩
          refine Confined.bind (.copy _ _ _ hdst) (fun _ => ?_) core
          exact .bind (.setSp _) fun _ => .pure _
  | storer =>
      rw [Opcode.exec, final_regs_bind]
      refine confined_bind_at ?_ fun _ => .bind (.read _) fun w => ?_
      · exact (confined_push _ (fun _ => .pure _) core).mono fun _ => .inl
      · exact .bind (.write w (.inr rfl)) fun _ => .bind (.setSp _) fun _ => .pure _
  | jumpz | jumpi =>
      exact Confined.bind .regs (fun r => .bind (.read r.sp) fun w => .bind (.setPc _) fun _ =>
        .bind (.setSp _) fun _ => .pure _) core
  | mark =>
      rw [Opcode.exec, final_regs_bind]
      refine Confined.bind (.write _ (.inl rfl)) (fun _ => ?_) core
      exact .bind (.write _ (.inr rfl)) fun _ => .bind (.setSp _) fun _ => .pure _
  | slide =>
      rw [Opcode.exec, final_regs_bind]
      refine Confined.bind (.read _) (fun top => ?_) core
      exact .bind (.setSp _) fun _ => .bind (.write top rfl) fun _ => .pure _

section Frames

variable (here arg : Word) (core : Core)

theorem run_call : (call.exec here arg).run core =
    match core.mem.get? core.regs.sp with
    | none => .error (.fault (.indexOutOfRange core.regs.sp core.mem.size)) core
    | some entry => .ok .next
        ⟨{ core.regs with pc := entry, fp := core.regs.sp },
          core.mem.put core.regs.sp core.regs.pc⟩ := by
  simp only [Opcode.exec, run_bind, run_regs, run_read]
  cases hsp : core.mem.get? core.regs.sp with
  | none => rfl
  | some entry =>
      have hcov := Memory.covers_of_get? hsp
      simp only [setPc, setFp, run_updateRegs, run_write, run_pure, if_pos hcov]

theorem run_enter : (enter.exec here arg).run core =
    if core.regs.np ≤ core.regs.sp + arg then
      .error
        (.refusal (.stackOverflow here enter.toByte arg (core.regs.sp + arg) core.regs.np)) core
    else .ok .next ⟨{ core.regs with ep := core.regs.sp + arg }, core.mem⟩ := by
  simp only [Opcode.exec, run_bind, run_regs, run_ite, run_refuse]
  split <;> rfl

/-- The saved frame pointer lies between two words that were read, so its read cannot miss. -/
theorem run_ret : (ret.exec here arg).run core =
    match core.mem.get? core.regs.fp with
    | none => .error (.fault (.indexOutOfRange core.regs.fp core.mem.size)) core
    | some pc =>
      match core.mem.get? (core.regs.fp - 2) with
      | none => .error (.fault (.indexOutOfRange (core.regs.fp - 2) core.mem.size))
          ⟨{ core.regs with pc := pc }, core.mem⟩
      | some ep =>
        if core.regs.np ≤ ep then
          .error (.refusal (.stackOverflow here ret.toByte 0 ep core.regs.np))
            ⟨{ core.regs with pc := pc, ep := ep }, core.mem⟩
        else .ok .next
          ⟨⟨pc, core.regs.fp - 3, core.mem.load (core.regs.fp - 1), ep, core.regs.np⟩,
            core.mem⟩ := by
  simp only [Opcode.exec, run_bind, run_regs, run_read]
  cases hpc : core.mem.get? core.regs.fp with
  | none => rfl
  | some pc =>
      simp only [setPc, run_updateRegs]
      cases hep : core.mem.get? (core.regs.fp - 2) with
      | none => rfl
      | some ep =>
          have hhigh := Memory.covers_of_get? hpc
          have hlow := Memory.covers_of_get? hep
          have hfp : core.mem.Covers (core.regs.fp - 1) := by
            have h0 := hhigh.1
            have h2 := hlow.1
            exact hlow.between hhigh (by grind) (by grind)
          simp only [setEp, setSp, setFp, run_updateRegs, run_ite]
          split
          · rfl
          · simp only [run_bind, run_updateRegs, run_read, Memory.get?_eq_some_load hfp, run_pure]

theorem run_new : (new.exec here arg).run core =
    match core.mem.get? core.regs.sp with
    | none => .error (.fault (.indexOutOfRange core.regs.sp core.mem.size)) core
    | some size =>
      if size ≤ 0 ∨ core.regs.np - size ≤ core.regs.ep then
        .ok .next ⟨core.regs, core.mem.put core.regs.sp 0⟩
      else .ok .next
        ⟨{ core.regs with np := core.regs.np - size },
          core.mem.put core.regs.sp (core.regs.np - size)⟩ := by
  simp only [Opcode.exec, run_bind, run_regs, run_read]
  cases hsp : core.mem.get? core.regs.sp with
  | none => rfl
  | some size =>
      have hcov := Memory.covers_of_get? hsp
      simp only [setNp, run_updateRegs, run_ite, run_bind, run_write, run_pure, if_pos hcov]

end Frames

end Opcode
end FrameMachine
