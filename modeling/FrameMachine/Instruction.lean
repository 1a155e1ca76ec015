import FrameMachine.Core
/-!
# Instructions

An instruction is an opcode byte with one argument word. Bytes 0 to 36 name the
operations of `Opcode` in order; the table also says which of them read their
argument, and only those show it in their text.
-/
namespace FrameMachine

inductive Opcode where
  | loadc | loada | storea | load | store | loadrc | loadr | storer | dup | pop | alloc
  | add | sub | mul | div | mod | and | or | xor
  | eq | neq | le | leq | gr | geq | not | neg
  | jump | jumpz | jumpi
  | mark | call | enter | slide | ret
  | new
  | halt
  deriving DecidableEq, Repr, Inhabited

namespace Opcode

def all : Array Opcode := #[
    loadc, loada, storea, load, store, loadrc, loadr, storer, dup, pop, alloc,
    add, sub, mul, div, mod, and, or, xor,
    eq, neq, le, leq, gr, geq, not, neg,
    jump, jumpz, jumpi,
    mark, call, enter, slide, ret,
    new,
    halt]

def ofByte? (b : UInt8) : Option Opcode := all[b.toNat]?

def toByte (op : Opcode) : UInt8 := UInt8.ofNat op.ctorIdx

def mnemonic : Opcode → String
  | loadc => "LOADC" | loada => "LOADA" | storea => "STOREA" | load => "LOAD"
  | store => "STORE" | loadrc => "LOADRC" | loadr => "LOADR" | storer => "STORER"
  | dup => "DUP" | pop => "POP" | alloc => "ALLOC"
  | add => "ADD" | sub => "SUB" | mul => "MUL" | div => "DIV" | mod => "MOD"
  | and => "AND" | or => "OR" | xor => "XOR"
  | eq => "EQ" | neq => "NEQ" | le => "LE" | leq => "LEQ" | gr => "GR" | geq => "GEQ"
  | not => "NOT" | neg => "NEG"
  | jump => "JUMP" | jumpz => "JUMPZ" | jumpi => "JUMPI"
  | mark => "MARK" | call => "CALL" | enter => "ENTER" | slide => "SLIDE" | ret => "RETURN"
  | new => "NEW"
  | halt => "HALT"

def hasArg : Opcode → Bool
  | loadc | loada | storea | load | store | loadrc | loadr | storer | alloc
  | jump | jumpz | jumpi | enter | slide => true
  | _ => false

def ofMnemonic? (name : String) : Option Opcode := all.find? (·.mnemonic == name)

theorem ofByte?_toByte (op : Opcode) : ofByte? op.toByte = some op := by
  cases op <;> rfl

/-- The name of any opcode byte; bytes outside the table are shown by number. -/
def nameOfByte (b : UInt8) : String :=
  match ofByte? b with
  | some op => op.mnemonic
  | none => "Opcode(" ++ b.toNat.repr ++ ")"

def byteValid (b : UInt8) : Bool := (ofByte? b).isSome

def byteHasArg (b : UInt8) : Bool := (ofByte? b).any hasArg

end Opcode

structure Instruction where
  opcode : UInt8
  arg : Word := 0
  deriving DecidableEq, Repr, Inhabited

namespace Instruction

def ofOpcode (op : Opcode) (arg : Word) : Instruction := ⟨op.toByte, arg⟩

def text (insn : Instruction) : String :=
  if Opcode.byteHasArg insn.opcode then Opcode.nameOfByte insn.opcode ++ " " ++ insn.arg.text
  else Opcode.nameOfByte insn.opcode

end Instruction
end FrameMachine
