import FrameMachine.Failure
/-!
# Supervised calls

A call ends in one of three ways: it returns, it panics with a value, or its task
is abandoned. `supervise` turns the last two into failures that carry the name of
the call.
-/
namespace FrameMachine

inductive PanicValue where
  | failure (cause : Failure)
  | datum (value : Datum)
  deriving DecidableEq, Repr, Inhabited

def PanicValue.toFailure (name : String) : PanicValue → Failure
  | failure cause => .panicFailure name cause
  | datum value => .panicDatum name value

inductive Ending (α : Type) where
  | returned (a : α)
  | panicked (value : PanicValue)
  | exited
  deriving DecidableEq, Repr

instance {α : Type} : Inhabited (Ending α) := ⟨.exited⟩

def supervise (name : String) : Ending (Option Failure) → Option Failure
  | .returned outcome => outcome
  | .panicked value => some (value.toFailure name)
  | .exited => some (.exited name)

namespace Ending

def repanic : Option Failure → Ending (Option Failure)
  | none => .returned none
  | some cause => .panicked (.failure cause)

/-- Puts a context around a returned failure; panics and exits pass through. -/
def withContext (text : String) : Ending (Option Failure) → Ending (Option Failure)
  | .returned outcome => .returned (outcome.map (.context text))
  | .panicked value => .panicked value
  | .exited => .exited

end Ending
end FrameMachine
