import FrameMachine.Proofs.ObservedRuns
/-!
# Interruptions

The first reply of an observer that is not normal is the end: the call it happens in fails, and
the machine stays where the instructions begun so far have led it. What the caller is told depends
on the occasion and on the reply.
-/
namespace FrameMachine

end FrameMachine
