import FrameMachine.Exec
import FrameMachine.Supervision
/-!
# Machines and their observers

A machine is a program with its core, the count of completed instructions and the
way it stopped. A logger receives one line for every completed instruction and for
every halt, a tracer receives the state after every completed instruction. Both
act on a world of their own and may misbehave: they may panic, abandon the task
or, for a tracer, report a failure. `Session.step` and `Session.run` are the two
ways to make a machine move; each of them is supervised, and the first failure
stays with the machine for good.
-/
namespace FrameMachine

structure Machine where
  code : Array Instruction
  core : Core
  steps : UInt64 := 0
  halted : Bool := false
  failure : Option Failure := none
  markWidth : Nat := 0
  deriving DecidableEq, Inhabited

namespace Machine

def initial (code : Array Instruction) (capacity : Nat) : Machine :=
  { code := code, core := .initial capacity }

def fetch? (m : Machine) : Option Instruction :=
  if 0 ≤ m.core.regs.pc then m.code[m.core.regs.pc.toNatClampNeg]? else none

def stopWith (m : Machine) (cause : Failure) : Machine :=
  { m with halted := true, failure := some cause }

end Machine

abbrev Logger (σ : Type) := String → σ → Ending Unit × σ

/-- A tracer is told the number of the completed instruction, the instruction and
the state it left behind. -/
abbrev Tracer (σ : Type) := UInt64 → Instruction → Snapshot → σ → Ending (Option Failure) × σ

structure Observers (σ : Type) where
  logger : Option (Logger σ) := none
  tracer : Option (Tracer σ) := none

structure Session (σ : Type) where
  machine : Machine
  world : σ

inductive Abrupt where
  | halt (cause : Failure)
  | panic (value : PanicValue)
  | exit
  deriving DecidableEq, Repr, Inhabited

abbrev Action (σ : Type) := EStateM Abrupt (Session σ)

namespace Action

variable {σ : Type}

def counter : Action σ Word := fun s => .ok s.machine.core.regs.pc s

def fetched : Action σ (Option Instruction) := fun s => .ok s.machine.fetch? s

def isHalted : Action σ Bool := fun s => .ok s.machine.halted s

def advance : Exec Unit := Exec.updateRegs fun r => { r with pc := r.pc + 1 }

def setHalted : Action σ Unit := fun s =>
  .ok () { s with machine := { s.machine with halted := true } }

def countStep : Action σ Unit := fun s =>
  .ok () { s with machine := { s.machine with steps := s.machine.steps + 1 } }

def onCore {α : Type} (act : Exec α) : Action σ (Except Stop α) :=
  fun ⟨⟨code, core, steps, halted, failure, markWidth⟩, world⟩ =>
    match act.run core with
    | .ok a core => .ok (.ok a) ⟨⟨code, core, steps, halted, failure, markWidth⟩, world⟩
    | .error e core => .ok (.error e) ⟨⟨code, core, steps, halted, failure, markWidth⟩, world⟩

theorem run_counter (s : Session σ) : counter.run s = .ok s.machine.core.regs.pc s := (rfl)

theorem run_fetched (s : Session σ) : fetched.run s = .ok s.machine.fetch? s := (rfl)

theorem run_isHalted (s : Session σ) : isHalted.run s = .ok s.machine.halted s := (rfl)

theorem run_setHalted (s : Session σ) :
    setHalted.run s = .ok () { s with machine := { s.machine with halted := true } } := (rfl)

theorem run_countStep (s : Session σ) :
    countStep.run s =
      .ok () { s with machine := { s.machine with steps := s.machine.steps + 1 } } := (rfl)

theorem run_onCore {α : Type} (act : Exec α) (s : Session σ) :
    (onCore act : Action σ (Except Stop α)).run s =
      match act.run s.machine.core with
      | .ok a core => .ok (.ok a) { s with machine := { s.machine with core := core } }
      | .error e core => .ok (.error e) { s with machine := { s.machine with core := core } } :=
  (rfl)

def padMark (width : Nat) (mark : String) : String :=
  mark ++ "".pushn ' ' (width - mark.length)

def log (obs : Observers σ) (indent mark : String) (text : Core → String) : Action σ Unit :=
  fun ⟨machine, world⟩ =>
    match obs.logger with
    | none => .ok () ⟨machine, world⟩
    | some logger =>
      let line := indent ++ padMark machine.markWidth mark ++ " " ++ text machine.core
      let machine := { machine with markWidth := max machine.markWidth mark.length }
      match logger line world with
      | (.returned (), world) => .ok () ⟨machine, world⟩
      | (.panicked value, world) => .error (.panic value) ⟨machine, world⟩
      | (.exited, world) => .error .exit ⟨machine, world⟩

/-- Stops the machine. The failure is logged first; a panic of the logger is
ignored there, while an exit takes the place of the failure. -/
def halt {α : Type} (obs : Observers σ) (indent : String) (cause : Failure) : Action σ α :=
  fun s =>
    match (log obs indent "#" fun _ => "halt error: " ++ cause.message).run s with
    | .error .exit s => .error .exit s
    | .error _ s => .error (.halt cause) s
    | .ok _ s => .error (.halt cause) s

def trace (obs : Observers σ) (insn : Instruction) : Action σ (Option Failure) :=
  fun ⟨machine, world⟩ =>
    match obs.tracer with
    | none => .ok none ⟨machine, world⟩
    | some tracer =>
      match tracer machine.steps insn machine.core.snapshot world with
      | (.returned outcome, world) => .ok outcome ⟨machine, world⟩
      | (.panicked value, world) => .error (.panic value) ⟨machine, world⟩
      | (.exited, world) => .error .exit ⟨machine, world⟩

def execText (here : Word) (insn : Instruction) (core : Core) : String :=
  "@" ++ here.text ++ " " ++ insn.text ++ " -- " ++ core.regs.text

def haltText (here : Word) (core : Core) : String :=
  "halt @" ++ here.text ++ " result:" ++ core.result.text

/-- Fetches and completes one instruction: it is executed, counted, logged and traced. -/
def cycle (obs : Observers σ) (indent : String) : Action σ Unit := do
  let here ← counter
  match ← fetched with
  | none => halt obs indent (.counterOutOfCode here)
  | some insn =>
    match ← onCore (do advance; insn.exec here) with
    | .error (.fault f) => throw (.panic (.failure (.fault f)))
    | .error (.refusal cause) => halt obs indent cause
    | .ok flow =>
      if flow = .halt then
        setHalted
        log obs indent "#" (haltText here)
      countStep
      log obs indent "exec" (execText here insn)
      match ← trace obs insn with
      | none => pure ()
      | some cause => halt obs indent cause

/-- Cycles until the machine has halted. Before every instruction the budget is
asked for one more; once it is used up the given cause ends the run. -/
def loop (obs : Observers σ) (cause : Failure) : Nat → Action σ (Option Failure)
  | 0 => do
    if ← isHalted then pure none else pure (some cause)
  | budget + 1 => do
    if ← isHalted then pure none
    else
      cycle obs "\t"
      loop obs cause budget

end Action

namespace Session

variable {σ : Type}

/-- Runs an action under supervision unless the machine has already failed; a
failure stops the machine and is stored. -/
def attempt (name : String) (act : Action σ (Option Failure)) (s : Session σ) :
    Option Failure × Session σ :=
  match s.machine.failure with
  | some cause => (some cause, s)
  | none =>
    let (outcome, s) := match act.run s with
      | .ok outcome s => (supervise name (.returned outcome), s)
      | .error (.halt cause) s => (some cause, s)
      | .error (.panic value) s => (supervise name (.panicked value), s)
      | .error .exit s => (supervise name .exited, s)
    match outcome with
    | none => (none, s)
    | some cause => (some cause, { s with machine := s.machine.stopWith cause })

def step (obs : Observers σ) (s : Session σ) : Option Failure × Session σ :=
  if s.machine.halted then (some (s.machine.failure.getD .alreadyHalted), s)
  else attempt "step" (do Action.cycle obs ""; pure none) s

/-- Completes instructions until the machine halts and answers the word at address
zero. At most `budget` instructions are begun; after that the run fails with `cause`. -/
def run (obs : Observers σ) (budget : Nat) (cause : Failure) (s : Session σ) :
    Except Failure Word × Session σ :=
  match attempt "run" (Action.loop obs cause budget) s with
  | (some cause, s) => (.error cause, s)
  | (none, s) => (.ok s.machine.core.result, s)

end Session
end FrameMachine
