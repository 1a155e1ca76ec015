import FrameMachine.Proofs.Stepping
/-!
# Exchanges with the observers

An exchange is an event that the observers are told of together with their reply. Observers are
audited by keeping all exchanges beside their world, and leaving these out again gives back the
same machine, the same world and the same answers.
-/
namespace FrameMachine

/-- How an observer took what it was told. Only a tracer can return a failure. -/
inductive Reply where
  | normal
  | failed (cause : Failure)
  | panicked (value : PanicValue)
  | exited
  deriving DecidableEq

structure Exchange where
  event : Event
  reply : Reply
  deriving DecidableEq

structure Audited (σ : Type) where
  world : σ
  exchanges : List Exchange

def Reply.ofAnswer : Option Failure → Reply
  | none => .normal
  | some cause => .failed cause

def Ending.reply {α : Type} (answer : α → Reply) : Ending α → Reply
  | .returned a => answer a
  | .panicked value => .panicked value
  | .exited => .exited

namespace Observers

variable {σ : Type}

/-- The same observers, with their exchanges kept beside their world. -/
def audited (obs : Observers σ) : Observers (Audited σ) where
  logger := obs.logger.map fun logger line r =>
    let (ending, world) := logger line r.world
    (ending, ⟨world, r.exchanges ++ [⟨.line line, ending.reply fun _ => .normal⟩]⟩)
  tracer := obs.tracer.map fun tracer step insn snap r =>
    let (ending, world) := tracer step insn snap r.world
    (ending, ⟨world, r.exchanges ++ [⟨.traced step insn snap, ending.reply .ofAnswer⟩]⟩)

/-- In some world the observers reply so to this event. -/
def CanReply (obs : Observers σ) (x : Exchange) : Prop :=
  match x.event with
  | .line text => ∃ logger ∈ obs.logger, ∃ world,
    x.reply = (logger text world).1.reply fun _ => .normal
  | .traced step insn snap => ∃ tracer ∈ obs.tracer, ∃ world,
    x.reply = (tracer step insn snap world).1.reply .ofAnswer

end Observers

inductive Answer where
  | stepped (failure : Option Failure)
  | ran (result : Except Failure Word)
  deriving DecidableEq

def Answer.failure? : Answer → Option Failure
  | stepped failure => failure
  | ran (.error cause) => some cause
  | ran (.ok _) => none

def Call.name : Call → String
  | step => "step"
  | run _ _ => "run"

def Call.indent : Call → String
  | step => ""
  | run _ _ => "\t"

namespace Session

variable {σ : Type} (obs : Observers σ)

def answer : Call → Session σ → Answer
  | .step, s => .stepped (s.step obs).1
  | .run budget cause, s => .ran (s.run obs budget cause).1

def answers : List Call → Session σ → List Answer
  | [], _ => []
  | call :: calls, s => s.answer obs call :: answers calls (s.perform obs call)

def audited (s : Session σ) : Session (Audited σ) := ⟨s.machine, ⟨s.world, []⟩⟩

def unaudited (s : Session (Audited σ)) : Session σ := ⟨s.machine, s.world.world⟩

def exchanges (calls : List Call) (s : Session σ) : List Exchange :=
  (performAll obs.audited calls s.audited).world.exchanges

end Session

namespace Action

variable {σ α β : Type} {obs : Observers σ} {indent : String}

def unaudited :
    EStateM.Result Abrupt (Session (Audited σ)) α → EStateM.Result Abrupt (Session σ) α
  | .ok a s => .ok a s.unaudited
  | .error e s => .error e s.unaudited

/-- The second action does the same and keeps the exchanges. -/
def Audits (act : Action σ α) (act' : Action (Audited σ) α) : Prop :=
  ∀ s, act.run s.unaudited = unaudited (act'.run s)

private theorem Audits.pure (a : α) : Audits (pure a : Action σ α) (pure a) :=
  fun _ => rfl

private theorem Audits.bind {act : Action σ α} {act' : Action (Audited σ) α} {next : α → Action σ β}
    {next' : α → Action (Audited σ) β} (h : Audits act act')
    (hnext : ∀ a, Audits (next a) (next' a)) : Audits (act >>= next) (act' >>= next') := by
  intro s
  rw [Exec.run_bind, Exec.run_bind, h s]
  cases act'.run s with
  | ok a t => exact hnext a t
  | error e t => rfl

private theorem Audits.log (mark : String) (text : Core → String) :
    Audits (log obs indent mark text) (log obs.audited indent mark text) := by
  intro s
  rw [run_log, run_log, Observers.audited]
  cases obs.logger with
  | none => rfl
  | some logger =>
      simp only [Option.map_some, Session.unaudited]
      rcases hcall : logger (lineOf s.machine indent mark text) s.world.world
        with ⟨_ | _ | _, world⟩ <;> rfl

private theorem Audits.trace (insn : Instruction) :
    Audits (trace obs insn) (trace obs.audited insn) := by
  intro s
  rw [run_trace, run_trace, Observers.audited]
  cases obs.tracer with
  | none => rfl
  | some tracer =>
      simp only [Option.map_some, Session.unaudited]
      rcases hcall : tracer s.machine.steps insn s.machine.core.snapshot s.world.world
        with ⟨_ | _ | _, world⟩ <;> rfl

private theorem Audits.halt (cause : Failure) :
    Audits (halt obs indent cause : Action σ α) (halt obs.audited indent cause) := by
  intro s
  rw [run_halt, run_halt, Audits.log]
  rcases (Action.log obs.audited indent "#" fun _ => "halt error: " ++ cause.message).run s with
    _ | ⟨_ | _ | _, _⟩ <;> rfl

private theorem Audits.report (here : Word) (insn : Instruction) :
    Audits (report obs indent here insn) (report obs.audited indent here insn) := by
  refine .bind (fun _ => rfl) fun _ => .bind (.log _ _) fun _ =>
    .bind (.trace insn) fun outcome => ?_
  cases outcome with
  | none => exact .pure ()
  | some cause => exact .halt cause

private theorem Audits.conclude (here : Word) (insn : Instruction) (flow : Flow) :
    Audits (conclude obs indent here insn flow) (conclude obs.audited indent here insn flow) := by
  unfold Action.conclude
  split
  · exact .bind (fun _ => rfl) fun _ => .bind (.log _ _) fun _ => .report here insn
  · exact .report here insn

theorem Audits.cycle : Audits (cycle obs indent) (cycle obs.audited indent) := by
  intro s
  rw [run_cycle, run_cycle]
  simp only [Session.unaudited]
  cases s.machine.core.fetch? s.machine.code with
  | none => exact Audits.halt _ s
  | some insn =>
      dsimp only
      cases s.machine.core.carryOut insn with
      | ok flow core => exact Audits.conclude _ insn flow (withCore s core)
      | error stop core =>
          cases stop with
          | fault f => rfl
          | refusal cause => exact Audits.halt cause (withCore s core)

private theorem Audits.loop (cause : Failure) (budget : Nat) :
    Audits (loop obs cause budget) (loop obs.audited cause budget) := by
  induction budget with
  | zero =>
      intro s
      rw [run_loop_zero, run_loop_zero]
      rfl
  | succ budget ih =>
      intro s
      rw [run_loop_succ, run_loop_succ, Audits.cycle]
      by_cases hhalted : s.machine.halted = true
      · rw [if_pos hhalted, if_pos (show s.unaudited.machine.halted = true from hhalted)]
        rfl
      · rw [if_neg hhalted, if_neg (show ¬ s.unaudited.machine.halted = true from hhalted)]
        cases (Action.cycle obs.audited "\t").run s with
        | ok u t => exact ih t
        | error e t => rfl

private theorem visits_audited (budget : Nat) (s : Session (Audited σ)) :
    visits obs budget s.unaudited = visits obs.audited budget s := by
  induction budget generalizing s with
  | zero => rfl
  | succ budget ih =>
      rw [visits, visits, Audits.cycle]
      by_cases hhalted : s.machine.halted = true
      · rw [if_pos hhalted, if_pos (show s.unaudited.machine.halted = true from hhalted)]
      · rw [if_neg hhalted, if_neg (show ¬ s.unaudited.machine.halted = true from hhalted)]
        cases (cycle obs.audited "\t").run s with
        | ok u t => exact congrArg (s.machine.core :: ·) (ih t)
        | error e t => rfl

end Action

namespace Session

variable {σ : Type} {obs : Observers σ}

private theorem attempt_audited {act : Action σ (Option Failure)}
    {act' : Action (Audited σ) (Option Failure)} (h : Action.Audits act act') (name : String)
    (s : Session (Audited σ)) :
    s.unaudited.attempt name act =
      ((s.attempt name act').1, (s.attempt name act').2.unaudited) := by
  cases hf : s.machine.failure with
  | some cause =>
      rw [attempt_of_failure (s := s.unaudited) hf, attempt_of_failure hf]
  | none =>
      rw [attempt_of_none (s := s.unaudited) hf, attempt_of_none hf, Action.final, Action.final,
        h s]
      rcases act'.run s with ⟨_ | _, t⟩ | ⟨e, t⟩ <;> rfl

private theorem step_audited (s : Session (Audited σ)) :
    s.unaudited.step obs = ((s.step obs.audited).1, (s.step obs.audited).2.unaudited) := by
  rw [step, step]
  by_cases hhalted : s.machine.halted = true
  · rw [if_pos hhalted, if_pos (show s.unaudited.machine.halted = true from hhalted)]
    rfl
  · rw [if_neg hhalted, if_neg (show ¬ s.unaudited.machine.halted = true from hhalted)]
    exact attempt_audited (.bind .cycle fun _ => .pure none) "step" s

private theorem run_audited (budget : Nat) (cause : Failure) (s : Session (Audited σ)) :
    s.unaudited.run obs budget cause =
      ((s.run obs.audited budget cause).1, (s.run obs.audited budget cause).2.unaudited) := by
  rw [run, run, attempt_audited (.loop cause budget)]
  rcases s.attempt "run" (Action.loop obs.audited cause budget) with ⟨_ | _, t⟩ <;> rfl

theorem perform_audited (call : Call) (s : Session (Audited σ)) :
    s.unaudited.perform obs call = (s.perform obs.audited call).unaudited := by
  cases call with
  | step => rw [perform, perform, step_audited]
  | run budget cause => rw [perform, perform, run_audited]

/-- Keeping the exchanges changes neither the machine nor the world of its observers. -/
theorem performAll_audited (calls : List Call) (s : Session (Audited σ)) :
    performAll obs calls s.unaudited = (performAll obs.audited calls s).unaudited := by
  induction calls generalizing s with
  | nil => rfl
  | cons call calls ih => rw [performAll, performAll, perform_audited, ih]

theorem visits_audited (call : Call) (s : Session (Audited σ)) :
    s.unaudited.visits obs call = s.visits obs.audited call := by
  cases call with
  | step => rfl
  | run budget cause =>
      simp only [visits, ← Action.visits_audited]
      rfl

theorem history_audited (calls : List Call) (s : Session (Audited σ)) :
    history obs calls s.unaudited = history obs.audited calls s := by
  induction calls generalizing s with
  | nil => rfl
  | cons call calls ih => rw [history, history, perform_audited, ih, visits_audited]

end Session
end FrameMachine
