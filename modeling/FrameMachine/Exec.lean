import FrameMachine.Core
import FrameMachine.Failure
/-!
# Instruction semantics

`exec` carries out one fetched instruction on the registers and the memory. It
stops early with a fault when an access misses the memory or a divisor is zero,
and with a refusal when a frame would meet the heap or the opcode is unknown.
Whatever was changed before the stop stays changed.
-/
namespace FrameMachine

inductive Stop where
  | fault (f : Fault)
  | refusal (cause : Failure)
  deriving DecidableEq, Repr, Inhabited

inductive Flow where
  | next
  | halt
  deriving DecidableEq, Repr, Inhabited

abbrev Exec := EStateM Stop Core

namespace Exec

def regs : Exec Registers := fun core => .ok core.regs core

def updateRegs (f : Registers → Registers) : Exec Unit := fun core =>
  .ok () { core with regs := f core.regs }

def fault {α : Type} (f : Fault) : Exec α := fun core => .error (.fault f) core

def refuse {α : Type} (cause : Failure) : Exec α := fun core => .error (.refusal cause) core

def read (addr : Word) : Exec Word := fun core =>
  match core.mem.get? addr with
  | some w => .ok w core
  | none => .error (.fault (.indexOutOfRange addr core.mem.size)) core

def write (addr w : Word) : Exec Unit := fun core =>
  if core.mem.Covers addr then .ok () { core with mem := core.mem.put addr w }
  else .error (.fault (.indexOutOfRange addr core.mem.size)) core

/-!
The equations below are left out of definitional unfolding on purpose: a proof that
rewrites with them never makes the kernel compare words by computation.
-/

section Equations

variable {ε σ α β : Type}

theorem run_pure (a : α) (s : σ) : (pure a : EStateM ε σ α).run s = .ok a s := (rfl)

theorem run_bind (x : EStateM ε σ α) (f : α → EStateM ε σ β) (s : σ) :
    (x >>= f).run s =
      match x.run s with
      | .ok a s => (f a).run s
      | .error e s => .error e s := (rfl)

theorem run_ite (p : Prop) [Decidable p] (x y : EStateM ε σ α) (s : σ) :
    (if p then x else y).run s = if p then x.run s else y.run s := by
  split <;> rfl

theorem run_regs (core : Core) : regs.run core = .ok core.regs core := (rfl)

theorem run_updateRegs (f : Registers → Registers) (core : Core) :
    (updateRegs f).run core = .ok () { core with regs := f core.regs } := (rfl)

theorem run_fault (f : Fault) (core : Core) :
    (fault f : Exec α).run core = .error (.fault f) core := (rfl)

theorem run_refuse (cause : Failure) (core : Core) :
    (refuse cause : Exec α).run core = .error (.refusal cause) core := (rfl)

theorem run_read (addr : Word) (core : Core) :
    (read addr).run core =
      match core.mem.get? addr with
      | some w => .ok w core
      | none => .error (.fault (.indexOutOfRange addr core.mem.size)) core := (rfl)

theorem run_write (addr w : Word) (core : Core) :
    (write addr w).run core =
      if core.mem.Covers addr then .ok () { core with mem := core.mem.put addr w }
      else .error (.fault (.indexOutOfRange addr core.mem.size)) core := (rfl)

end Equations

def setPc (a : Word) : Exec Unit := updateRegs fun r => { r with pc := a }

def setSp (a : Word) : Exec Unit := updateRegs fun r => { r with sp := a }

def setFp (a : Word) : Exec Unit := updateRegs fun r => { r with fp := a }

def setEp (a : Word) : Exec Unit := updateRegs fun r => { r with ep := a }

def setNp (a : Word) : Exec Unit := updateRegs fun r => { r with np := a }

/-- Raises the stack by one slot and fills it with a value computed from the raised state. -/
def push (value : Exec Word) : Exec Unit := do
  let r ← regs
  setSp (r.sp + 1)
  let w ← value
  write (r.sp + 1) w

/-- Replaces the two topmost words by one, which is computed before the stack shrinks. -/
def binary (f : Word → Word → Except Fault Word) : Exec Unit := do
  let r ← regs
  let left ← read (r.sp - 1)
  let right ← read r.sp
  match f left right with
  | .ok w =>
    setSp (r.sp - 1)
    write (r.sp - 1) w
  | .error e => fault e

def arithmetic (f : Word → Word → Word) : Exec Unit := binary fun a b => .ok (f a b)

def comparison (f : Word → Word → Bool) : Exec Unit := binary fun a b => .ok (.ofBool (f a b))

def division (f : Word → Word → Word) : Exec Unit :=
  binary fun a b => if b = 0 then .error .divisionByZero else .ok (f a b)

def unary (f : Word → Word) : Exec Unit := do
  let r ← regs
  let w ← read r.sp
  write r.sp (f w)

/-- Copies a block word by word in ascending order, so a destination inside the
source block reads words that were just written. -/
def copy (src dst : Word) : Nat → Exec Unit
  | 0 => pure ()
  | n + 1 => do
    let w ← read src
    write dst w
    copy (src + 1) (dst + 1) n

end Exec

open Exec

/-- Carries out one operation fetched at `here`; the counter has already moved on. -/
def Opcode.exec (here : Word) (op : Opcode) (arg : Word) : Exec Flow := do
  match op with
  | .loadc => push (pure arg); pure .next
  | .loada => push (read arg); pure .next
  | .storea =>
    let w ← read (← regs).sp
    write arg w
    pure .next
  | .load =>
    let sp := (← regs).sp
    let p ← read sp
    copy p sp arg.toNatClampNeg
    setSp (sp + (arg - 1))
    pure .next
  | .store =>
    let sp := (← regs).sp
    let p ← read sp
    copy (sp - arg) p arg.toNatClampNeg
    setSp (sp - 1)
    pure .next
  | .loadrc => push (return (← regs).fp + arg); pure .next
  | .loadr => push (do read ((← regs).fp + arg)); pure .next
  | .storer =>
    let r ← regs
    let addr := r.fp + arg
    push (pure addr)
    let w ← read r.sp
    write addr w
    setSp r.sp
    pure .next
  | .dup => push (do read ((← regs).sp - 1)); pure .next
  | .pop => updateRegs (fun r => { r with sp := r.sp - 1 }); pure .next
  | .alloc => updateRegs (fun r => { r with sp := r.sp + arg }); pure .next
  | .add => arithmetic (· + ·); pure .next
  | .sub => arithmetic (· - ·); pure .next
  | .mul => arithmetic (· * ·); pure .next
  | .div => division (· / ·); pure .next
  | .mod => division (· % ·); pure .next
  | .and => arithmetic (· &&& ·); pure .next
  | .or => arithmetic (· ||| ·); pure .next
  | .xor => arithmetic (· ^^^ ·); pure .next
  | .eq => comparison (· == ·); pure .next
  | .neq => comparison (· != ·); pure .next
  | .le => comparison (fun a b => decide (a < b)); pure .next
  | .leq => comparison (fun a b => decide (a ≤ b)); pure .next
  | .gr => comparison (fun a b => decide (b < a)); pure .next
  | .geq => comparison (fun a b => decide (b ≤ a)); pure .next
  | .not => unary (fun w => .ofBool (w == 0)); pure .next
  | .neg => unary (fun w => -w); pure .next
  | .jump => setPc arg; pure .next
  | .jumpz =>
    let r ← regs
    let w ← read r.sp
    setPc (if w = 0 then arg else r.pc)
    setSp (r.sp - 1)
    pure .next
  | .jumpi =>
    let r ← regs
    let w ← read r.sp
    setPc (arg + w)
    setSp (r.sp - 1)
    pure .next
  | .mark =>
    let r ← regs
    write (r.sp + 1) r.ep
    write (r.sp + 2) r.fp
    setSp (r.sp + 2)
    pure .next
  | .call =>
    let r ← regs
    let entry ← read r.sp
    setPc entry
    write r.sp r.pc
    setFp r.sp
    pure .next
  | .enter =>
    let r ← regs
    let ep := r.sp + arg
    if r.np ≤ ep then refuse (.stackOverflow here Opcode.enter.toByte arg ep r.np)
    else setEp ep
    pure .next
  | .slide =>
    let r ← regs
    let top ← read r.sp
    setSp (r.sp - arg)
    write (r.sp - arg) top
    pure .next
  | .ret =>
    let r ← regs
    setPc (← read r.fp)
    let ep ← read (r.fp - 2)
    setEp ep
    if r.np ≤ ep then refuse (.stackOverflow here Opcode.ret.toByte 0 ep r.np)
    setSp (r.fp - 3)
    setFp (← read (r.fp - 1))
    pure .next
  | .new =>
    let r ← regs
    let size ← read r.sp
    if size ≤ 0 ∨ r.np - size ≤ r.ep then write r.sp 0
    else
      setNp (r.np - size)
      write r.sp (r.np - size)
    pure .next
  | .halt => pure .halt

def Instruction.exec (here : Word) (insn : Instruction) : Exec Flow :=
  match Opcode.ofByte? insn.opcode with
  | some op => op.exec here insn.arg
  | none => refuse (.unknownInstruction here insn.opcode)

end FrameMachine
