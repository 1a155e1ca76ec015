import FrameMachine.Instruction
/-!
# Failures

A `Failure` says why something went wrong, and `Failure.message` is the only place
where the wording is fixed. Failures form chains: a context around a failure, or a
panic whose value was itself a failure, leads to its cause.
-/
namespace FrameMachine

inductive Fault where
  | indexOutOfRange (index : Word) (size : Nat)
  | divisionByZero
  | nilDereference
  | nilPanic
  | allocationTooLarge
  deriving DecidableEq, Repr, Inhabited

namespace Fault

def message : Fault → String
  | indexOutOfRange i n =>
    if i < 0 then "runtime error: index out of range [" ++ i.text ++ "]"
    else "runtime error: index out of range [" ++ i.text ++ "] with length " ++ n.repr
  | divisionByZero => "runtime error: integer divide by zero"
  | nilDereference => "runtime error: invalid memory address or nil pointer dereference"
  | nilPanic => "runtime error: panic called with nil argument"
  | allocationTooLarge => "runtime error: makeslice: len out of range"

end Fault

inductive Datum where
  | text (s : String)
  | number (n : Word)
  | truth (b : Bool)
  | numbers (ns : List Word)
  deriving DecidableEq, Repr, Inhabited

namespace Datum

def display : Datum → String
  | text s => s
  | number n => n.text
  | truth b => if b then "true" else "false"
  | numbers ns => "[" ++ " ".intercalate (ns.map Word.text) ++ "]"

end Datum

inductive Failure where
  /-- A frame extent met the heap, on entering a frame or on returning to one. -/
  | stackOverflow (pc : Word) (opcode : UInt8) (frame ep np : Word)
  | unknownInstruction (pc : Word) (opcode : UInt8)
  | counterOutOfCode (pc : Word)
  | alreadyHalted
  | canceled
  | deadlineExceeded
  | noSuchStep
  | storeClosed
  | fault (f : Fault)
  | plain (text : String)
  | context (text : String) (cause : Failure)
  | panicFailure (name : String) (cause : Failure)
  | panicDatum (name : String) (value : Datum)
  | exited (name : String)
  deriving DecidableEq, Repr, Inhabited

namespace Failure

private def panicLead (name : String) : String :=
  if name = "" then "panic: " else name ++ " panic: "

def message : Failure → String
  | stackOverflow pc op frame ep np =>
    if op = Opcode.ret.toByte then
      "stack overflow on return @" ++ pc.text ++ ": ep:" ++ ep.text ++ " >= np:" ++ np.text
    else
      "stack overflow @" ++ pc.text ++ " entering frame of " ++ frame.text
        ++ ": ep:" ++ ep.text ++ " >= np:" ++ np.text
  | unknownInstruction pc op => "unknown instruction " ++ Opcode.nameOfByte op ++ " @" ++ pc.text
  | counterOutOfCode pc => "program counter out of code @" ++ pc.text
  | alreadyHalted => "machine halted"
  | canceled => "context canceled"
  | deadlineExceeded => "context deadline exceeded"
  | noSuchStep => "trace: no such step"
  | storeClosed => "database not open"
  | fault f => f.message
  | plain text => text
  | context text cause => text ++ ": " ++ cause.message
  | panicFailure name cause => panicLead name ++ cause.message
  | panicDatum name value => panicLead name ++ value.display
  | exited name => if name = "" then "runtime.Goexit called" else name ++ " called runtime.Goexit"

/-- The general condition a failure is an instance of, or else what caused it. -/
def unwrap? : Failure → Option Failure
  | stackOverflow .. => some (plain "stack overflow")
  | unknownInstruction .. => some (plain "unknown instruction")
  | context _ cause => some cause
  | panicFailure _ cause => some cause
  | _ => none

def isPanic : Failure → Bool
  | panicFailure .. | panicDatum .. => true
  | context _ cause => cause.isPanic
  | _ => false

def isExit : Failure → Bool
  | exited _ => true
  | context _ cause | panicFailure _ cause => cause.isExit
  | _ => false

/-- The failure itself is a supervised panic, not only one of its causes. -/
def isPanicItself : Failure → Bool
  | panicFailure .. | panicDatum .. => true
  | _ => false

def panicValue? : Failure → Option String
  | panicFailure _ cause => some cause.message
  | panicDatum _ value => some value.display
  | context _ cause => cause.panicValue?
  | _ => none

def isFaultPanic : Failure → Bool
  | panicFailure _ (fault _) => true
  | _ => false

end Failure
end FrameMachine
