import FrameMachine.Proofs.Attempt
import FrameMachine.Proofs.Memory
import Mathlib.Algebra.Group.Nat.Defs
/-!
# Stack operations on lists

The operations that only work on the stack are given a meaning on lists of words, the topmost word
first, with arithmetic on exact integers that is wrapped in the end. On registers and memory each
of them does the same to the words from address zero to the top of the stack.
-/
namespace FrameMachine

/-- What an operation does to a list of words. An operator of two operands finds the right one on
top of the left one and may have no value. -/
inductive StackOp where
  | push (w : Word)
  | dup
  | pop
  | unary (f : Word → Word)
  | binary (f : Word → Word → Option Word)

inductive Hitch where
  | emptyPop
  | missingOperand
  | zeroDivisor
  | noRoom
  deriving DecidableEq

/-- How the evaluation of some operations ends. One that is stuck is given by its index, with the
list it should have worked on. -/
inductive Evaluation where
  | done (values : List Word)
  | stuck (index : Nat) (values : List Word) (hitch : Hitch)
  deriving DecidableEq

/-- The meaning of the operations that work on the stack alone. -/
def Opcode.stackOp? (arg : Word) : Opcode → Option StackOp
  | loadc => some (.push arg)
  | dup => some .dup
  | pop => some .pop
  | add => some (.binary fun a b => some (.ofInt (a.toInt + b.toInt)))
  | sub => some (.binary fun a b => some (.ofInt (a.toInt - b.toInt)))
  | mul => some (.binary fun a b => some (.ofInt (a.toInt * b.toInt)))
  | div => some (.binary fun a b =>
    if b.toInt = 0 then none else some (.ofInt (a.toInt.tdiv b.toInt)))
  | mod => some (.binary fun a b =>
    if b.toInt = 0 then none else some (.ofInt (a.toInt.tmod b.toInt)))
  | and => some (.binary fun a b => some (a &&& b))
  | or => some (.binary fun a b => some (a ||| b))
  | xor => some (.binary fun a b => some (a ^^^ b))
  | eq => some (.binary fun a b => some (if a.toInt = b.toInt then 1 else 0))
  | neq => some (.binary fun a b => some (if a.toInt ≠ b.toInt then 1 else 0))
  | le => some (.binary fun a b => some (if a.toInt < b.toInt then 1 else 0))
  | leq => some (.binary fun a b => some (if a.toInt ≤ b.toInt then 1 else 0))
  | gr => some (.binary fun a b => some (if a.toInt > b.toInt then 1 else 0))
  | geq => some (.binary fun a b => some (if a.toInt ≥ b.toInt then 1 else 0))
  | not => some (.unary fun w => if w.toInt = 0 then 1 else 0)
  | neg => some (.unary fun w => .ofInt (-w.toInt))
  | _ => none

def Instruction.stackOp? (insn : Instruction) : Option StackOp :=
  (Opcode.ofByte? insn.opcode).bind (Opcode.stackOp? insn.arg)

namespace StackOp

/-- One operation on a list that may hold `room` words. -/
def apply (room : Nat) : StackOp → List Word → Except Hitch (List Word)
  | push w, values => if values.length < room then .ok (w :: values) else .error .noRoom
  | dup, [] => .error .missingOperand
  | dup, w :: below =>
    if below.length + 1 < room then .ok (w :: w :: below) else .error .noRoom
  | pop, [] => .error .emptyPop
  | pop, _ :: below => .ok below
  | unary _, [] => .error .missingOperand
  | unary f, w :: below => .ok (f w :: below)
  | binary f, right :: left :: below =>
    match f left right with
    | some w => .ok (w :: below)
    | none => .error .zeroDivisor
  | binary _, _ => .error .missingOperand

def evaluate (room : Nat) : List StackOp → Nat → List Word → Evaluation
  | [], _, values => .done values
  | op :: ops, index, values =>
    match op.apply room values with
    | .ok next => evaluate room ops (index + 1) next
    | .error hitch => .stuck index values hitch

open Exec in
def exec : StackOp → Exec Unit
  | push w => Exec.push (pure w)
  | dup => Exec.push (do read ((← regs).sp - 1))
  | pop => updateRegs fun r => { r with sp := r.sp - 1 }
  | unary f => Exec.unary f
  | binary f => Exec.binary fun a b =>
    match f a b with
    | some w => .ok w
    | none => .error .divisionByZero

end StackOp

namespace Word

private theorem ofInt_tdiv_toInt (a b : Word) : Int64.ofInt (a.toInt.tdiv b.toInt) = a / b := by
  rw [Int64.ofInt_tdiv a.minValue_le_toInt a.toInt_le b.minValue_le_toInt b.toInt_le,
    Int64.ofInt_toInt, Int64.ofInt_toInt]

private theorem ofInt_tmod_toInt (a b : Word) : Int64.ofInt (a.toInt.tmod b.toInt) = a % b := by
  rw [← Int64.toInt_mod, Int64.ofInt_toInt]

private theorem toInt_eq_zero_iff {w : Word} : w.toInt = 0 ↔ w = 0 := by
  rw [← Int64.toInt_inj, Int64.toInt_zero]

theorem ofNat_nonneg {n : Nat} (h : n < 2 ^ 63) : 0 ≤ Int64.ofNat n := by
  rw [Int64.le_iff_toInt_le, Int64.toInt_ofNat_of_lt h, Int64.toInt_zero]
  exact Int.natCast_nonneg n

theorem ofNat_succ_sub_one (n : Nat) : Int64.ofNat (n + 1) - 1 = .ofNat n := by
  rw [Int64.ofNat_add]
  exact Int64.add_sub_cancel ..

end Word

/-- The operations of the machine are those of the list, with words computed as they are there. -/
theorem Opcode.exec_eq_stackOp {op : Opcode} {arg : Word} {sop : StackOp}
    (h : op.stackOp? arg = some sop) (here : Word) :
    op.exec here arg = (do sop.exec; pure .next) := by
  have hbinary {f : Word → Word → Except Fault Word} {g : Word → Word → Option Word}
      (hfg : ∀ a b, f a b = match g a b with | some w => .ok w | none => .error .divisionByZero) :
      (do Exec.binary f; pure Flow.next) = (do (StackOp.binary g).exec; pure Flow.next) := by
    rw [StackOp.exec, funext fun a => funext (hfg a)]
  have hunary {f g : Word → Word} (hfg : ∀ w, f w = g w) :
      (do Exec.unary f; pure Flow.next) = (do (StackOp.unary g).exec; pure Flow.next) := by
    rw [StackOp.exec, funext hfg]
  -- the operations without a meaning on lists are gone after this
  cases op <;> cases h
  case loadc | dup | pop => rfl
  case add | sub | mul =>
    apply hbinary
    intro a b
    simp
  case div | mod =>
    apply hbinary
    intro a b
    by_cases hb : b = 0 <;>
      simp [hb, Word.toInt_eq_zero_iff, Word.ofInt_tdiv_toInt, Word.ofInt_tmod_toInt]
  case and | or | xor => exact hbinary fun _ _ => rfl
  case eq | neq | le | leq | gr | geq =>
    apply hbinary
    intro a b
    simp [Word.ofBool, Int64.toInt_inj, Int64.lt_iff_toInt_lt, Int64.le_iff_toInt_le]
  case not | neg =>
    apply hunary
    intro w
    simp [Word.ofBool, Word.toInt_eq_zero_iff]

namespace Memory

variable {mem : Memory} {w : Word} {values : List Word} {n : Nat}

private theorem get?_of_neg {addr : Word} (h : addr < 0) : mem.get? addr = none :=
  if_neg (Int64.not_le.mpr h)

theorem covers_ofNat (h : n < 2 ^ 63) : mem.Covers (.ofNat n) ↔ n < mem.size := by
  rw [Covers, Int64.toNatClampNeg_ofNat_of_lt h]
  exact and_iff_right (Word.ofNat_nonneg h)

theorem get?_ofNat (h : n < 2 ^ 63) : mem.get? (.ofNat n) = mem[n]? := by
  rw [get?, if_pos (Word.ofNat_nonneg h), Int64.toNatClampNeg_ofNat_of_lt h]

theorem put_ofNat (h : n < 2 ^ 63) : mem.put (.ofNat n) w = mem.setIfInBounds n w := by
  rw [put, if_pos (Word.ofNat_nonneg h), Int64.toNatClampNeg_ofNat_of_lt h]

/-- The memory holds the words from address zero upward, the first of the list at the top. -/
def Piles (mem : Memory) : List Word → Prop
  | [] => True
  | w :: below => mem[below.length]? = some w ∧ mem.Piles below

theorem Piles.length_le (h : mem.Piles values) : values.length ≤ mem.size := by
  cases values with
  | nil => exact Nat.zero_le _
  | cons w below =>
      obtain ⟨hlt, -⟩ := Array.getElem?_eq_some_iff.mp h.1
      exact hlt

private theorem Piles.set (h : mem.Piles values) (hn : values.length ≤ n) :
    Piles (mem.setIfInBounds n w) values := by
  induction values with
  | nil => trivial
  | cons v below ih =>
      rw [List.length_cons] at hn
      refine ⟨?_, ih h.2 (by omega)⟩
      rw [Array.getElem?_setIfInBounds_ne (by omega)]
      exact h.1

theorem Piles.push (h : mem.Piles values) (hroom : values.length < mem.size) :
    Piles (mem.setIfInBounds values.length w) (w :: values) :=
  ⟨Array.getElem?_setIfInBounds_self_of_lt hroom, h.set (Nat.le_refl _)⟩

theorem Piles.take (h : mem.Piles values) :
    mem.toList.take values.length = values.reverse := by
  induction values with
  | nil => rfl
  | cons w below ih =>
      rw [List.length_cons, List.take_add_one, ih h.2, Array.getElem?_toList, h.1,
        List.reverse_cons]
      rfl

theorem Piles.bottom (h : mem.Piles values) {bottom : Word} (hbottom : bottom ∈ values.getLast?) :
    mem[0]? = some bottom := by
  induction values with
  | nil => cases hbottom
  | cons w below ih =>
      cases below with
      | nil =>
          cases hbottom
          exact h.1
      | cons v below =>
          rw [List.getLast?_cons_cons] at hbottom
          exact ih h.2 hbottom

end Memory

/-- The fault that an operation ends in for want of what the list lacks as well. -/
inductive Hitch.Raises (room : Nat) : Hitch → Fault → Prop where
  | missingOperand {index : Word} (negative : index < 0) :
      Raises room .missingOperand (.indexOutOfRange index room)
  | zeroDivisor : Raises room .zeroDivisor .divisionByZero
  | noRoom : Raises room .noRoom (.indexOutOfRange (.ofNat room) room)

namespace Core

variable {room : Nat} {values below : List Word} {core : Core} {w : Word}

/-- The stack of the core is the list, and the memory has room for so many words. -/
structure Stacks (room : Nat) (values : List Word) (core : Core) : Prop where
  size : core.mem.size = room
  sp : core.regs.sp = .ofNat values.length - 1
  piles : core.mem.Piles values

theorem Stacks.length_le (h : core.Stacks room values) : values.length ≤ room :=
  h.size ▸ h.piles.length_le

theorem Stacks.sp_add_one (h : core.Stacks room values) :
    core.regs.sp + 1 = .ofNat values.length := by
  rw [h.sp, Int64.sub_add_cancel]

theorem Stacks.sp_of_cons (h : core.Stacks room (w :: below)) :
    core.regs.sp = .ofNat below.length := by
  rw [h.sp, List.length_cons, Word.ofNat_succ_sub_one]

private theorem Stacks.sp_of_nil (h : core.Stacks room []) : core.regs.sp < 0 := by
  rw [h.sp]
  decide

theorem Stacks.get?_sp (h : core.Stacks room (w :: below)) (hroom : room < 2 ^ 63) :
    core.mem.get? core.regs.sp = some w := by
  have hlength := h.length_le
  rw [List.length_cons] at hlength
  rw [h.sp_of_cons, Memory.get?_ofNat (by omega)]
  exact h.piles.1

/-- How an operation begun at the core ended, where the list gave the first outcome. Nothing is
said about a POP that the empty list refuses. -/
inductive Renders (room : Nat) (before : Core) :
    Except Hitch (List Word) → EStateM.Result Stop Core Unit → Prop where
  | done {next : List Word} {after : Core} (held : after.Stacks room next)
      (pc : after.regs.pc = before.regs.pc) : Renders room before (.ok next) (.ok () after)
  | stuck {hitch : Hitch} {fault : Fault} {after : Core} (raises : hitch.Raises room fault)
      (mem : after.mem = before.mem) (pc : after.regs.pc = before.regs.pc) :
      Renders room before (.error hitch) (.error (.fault fault) after)
  | unguarded {r : EStateM.Result Stop Core Unit} : Renders room before (.error .emptyPop) r

end Core

namespace Exec

variable {room : Nat} {values : List Word} {core : Core}

private theorem write_renders {below : List Word} (hsize : core.mem.size = room)
    (hbelow : core.mem.Piles below) (hroom : room < 2 ^ 63) (regs : Registers)
    (hsp : regs.sp = .ofNat below.length) (hpc : regs.pc = core.regs.pc) (w : Word) :
    core.Renders room (if below.length < room then .ok (w :: below) else .error .noRoom)
      ((write regs.sp w).run ⟨regs, core.mem⟩) := by
  have hlength := hbelow.length_le
  rw [hsize] at hlength
  have hcovers : core.mem.Covers regs.sp ↔ below.length < room := by
    rw [hsp, Memory.covers_ofNat (by omega), hsize]
  rw [run_write]
  by_cases hfits : below.length < room
  · rw [if_pos hfits, if_pos (hcovers.mpr hfits)]
    refine .done ⟨?_, ?_, ?_⟩ hpc
    · rw [Memory.size_put, hsize]
    · rw [hsp, List.length_cons, Word.ofNat_succ_sub_one]
    · rw [hsp, Memory.put_ofNat (by omega)]
      exact hbelow.push (hsize ▸ hfits)
  · rw [if_neg hfits, if_neg (mt hcovers.mp hfits), hsp, hsize, show below.length = room by omega]
    exact .stuck .noRoom rfl hpc

private theorem read_renders {next : Word → Exec Unit} (hsize : core.mem.size = room)
    (regs : Registers) (hpc : regs.pc = core.regs.pc) {addr : Word} (haddr : addr < 0) :
    core.Renders room (.error .missingOperand)
      ((read addr >>= next).run ⟨regs, core.mem⟩) := by
  rw [run_bind, run_read, Memory.get?_of_neg haddr, hsize]
  exact .stuck (.missingOperand haddr) rfl hpc

private theorem push_renders (h : core.Stacks room values) (hroom : room < 2 ^ 63) (w : Word) :
    core.Renders room ((StackOp.push w).apply room values) ((StackOp.push w).exec.run core) := by
  simp only [StackOp.exec, push, setSp, run_bind, run_regs, run_updateRegs, run_pure]
  exact write_renders h.size h.piles hroom { core.regs with sp := core.regs.sp + 1 } h.sp_add_one
    rfl w

private theorem dup_renders (h : core.Stacks room values) (hroom : room < 2 ^ 63) :
    core.Renders room (StackOp.dup.apply room values) (StackOp.dup.exec.run core) := by
  let raised : Registers := { core.regs with sp := core.regs.sp + 1 }
  have hback : core.regs.sp + 1 - 1 = core.regs.sp := Int64.add_sub_cancel ..
  simp only [StackOp.exec, push, setSp, run_bind, run_regs, run_updateRegs, hback]
  cases values with
  | nil => exact read_renders h.size raised rfl h.sp_of_nil
  | cons w below =>
      rw [run_read, h.get?_sp hroom]
      exact write_renders h.size h.piles hroom raised h.sp_add_one rfl w

private theorem unary_renders (f : Word → Word) (h : core.Stacks room values)
    (hroom : room < 2 ^ 63) :
    core.Renders room ((StackOp.unary f).apply room values) ((StackOp.unary f).exec.run core) := by
  rw [StackOp.exec, unary, run_bind, run_regs]
  cases values with
  | nil => exact read_renders h.size core.regs rfl h.sp_of_nil
  | cons w below =>
      have hwrite := write_renders h.size h.piles.2 hroom core.regs h.sp_of_cons rfl (f w)
      rw [if_pos (show below.length < room from h.length_le)] at hwrite
      dsimp only
      rw [run_bind, run_read, h.get?_sp hroom]
      exact hwrite

private theorem binary_renders (f : Word → Word → Option Word) (h : core.Stacks room values)
    (hroom : room < 2 ^ 63) :
    core.Renders room ((StackOp.binary f).apply room values)
      ((StackOp.binary f).exec.run core) := by
  rw [StackOp.exec, binary, run_bind, run_regs]
  rcases values with _ | ⟨right, _ | ⟨left, below⟩⟩
  · have hsp : core.regs.sp - 1 < 0 := by
      rw [h.sp]
      decide
    exact read_renders h.size core.regs rfl hsp
  · have hsp : core.regs.sp - 1 < 0 := by
      rw [h.sp_of_cons]
      decide
    exact read_renders h.size core.regs rfl hsp
  · let lowered : Registers := { core.regs with sp := core.regs.sp - 1 }
    have hsp : core.regs.sp - 1 = .ofNat below.length := by
      rw [h.sp_of_cons, List.length_cons, Word.ofNat_succ_sub_one]
    have hfits : below.length < room := by
      have hlength := h.length_le
      rw [List.length_cons, List.length_cons] at hlength
      omega
    have hleft : core.mem.get? (core.regs.sp - 1) = some left := by
      rw [hsp, Memory.get?_ofNat (by omega)]
      exact h.piles.2.1
    dsimp only
    rw [run_bind, run_read, hleft]
    dsimp only
    rw [run_bind, run_read, h.get?_sp hroom, StackOp.apply]
    dsimp only
    cases f left right with
    | none => exact .stuck .zeroDivisor rfl rfl
    | some w =>
        have hwrite := write_renders h.size h.piles.2.2 hroom lowered hsp rfl w
        rw [if_pos hfits] at hwrite
        exact hwrite

end Exec

/-- An operation does on registers and memory what it does on the list. -/
theorem StackOp.exec_renders {room : Nat} {values : List Word} {core : Core} (op : StackOp)
    (h : core.Stacks room values) (hroom : room < 2 ^ 63) :
    core.Renders room (op.apply room values) (op.exec.run core) := by
  cases op with
  | push w => exact Exec.push_renders h hroom w
  | dup => exact Exec.dup_renders h hroom
  | pop =>
      cases values with
      | nil => exact .unguarded
      | cons w below => exact .done ⟨h.size, congrArg (· - 1) h.sp_of_cons, h.piles.2⟩ rfl
  | unary f => exact Exec.unary_renders f h hroom
  | binary f => exact Exec.binary_renders f h hroom

end FrameMachine
