import FrameMachine.Proofs.Attempt
/-!
# Cycles

A cycle is one attempt at an instruction together with what the observers are told about it.
The observers see the core and cannot change it, so the core after a cycle is the core after
the attempt, whatever they do.
-/
namespace FrameMachine

/-- The later machine differs at most in the count of steps, in being halted and in the width
of the marks. -/
structure Machine.Noted (before after : Machine) : Prop where
  code : after.code = before.code
  core : after.core = before.core
  failure : after.failure = before.failure

namespace Machine.Noted

theorem refl (m : Machine) : m.Noted m := ⟨rfl, rfl, rfl⟩

private theorem trans {a b c : Machine} (h : a.Noted b) (h' : b.Noted c) : a.Noted c :=
  ⟨h'.code.trans h.code, h'.core.trans h.core, h'.failure.trans h.failure⟩

end Machine.Noted

namespace Action

variable {σ α β : Type} {obs : Observers σ} {indent : String}

def final (act : Action σ α) (s : Session σ) : Session σ :=
  match act.run s with
  | .ok _ s => s
  | .error _ s => s

/-- The action leaves code, core and stored failure alone. -/
def Observing (act : Action σ α) : Prop :=
  ∀ s : Session σ, s.machine.Noted (act.final s).machine

private theorem Observing.bind {act : Action σ α} {next : α → Action σ β} (h : act.Observing)
    (hnext : ∀ a, (next a).Observing) : (act >>= next).Observing := by
  intro s
  have hs := h s
  rw [final, Exec.run_bind]
  cases heq : act.run s with
  | ok a t =>
      rw [final, heq] at hs
      exact hs.trans (hnext a t)
  | error e t =>
      rw [final, heq] at hs
      exact hs

private theorem Observing.pure (a : α) : (pure a : Action σ α).Observing :=
  fun s => .refl s.machine

private theorem Observing.setHalted : (setHalted : Action σ Unit).Observing :=
  fun _ => ⟨rfl, rfl, rfl⟩

private theorem Observing.countStep : (countStep : Action σ Unit).Observing :=
  fun _ => ⟨rfl, rfl, rfl⟩

def lineOf (m : Machine) (indent mark : String) (text : Core → String) : String :=
  indent ++ padMark m.markWidth mark ++ " " ++ text m.core

def marked (m : Machine) (mark : String) : Machine :=
  { m with markWidth := max m.markWidth mark.length }

theorem run_log (mark : String) (text : Core → String) (s : Session σ) :
    (log obs indent mark text).run s =
      match obs.logger with
      | none => .ok () s
      | some logger =>
        match logger (lineOf s.machine indent mark text) s.world with
        | (.returned (), world) => .ok () ⟨marked s.machine mark, world⟩
        | (.panicked value, world) => .error (.panic value) ⟨marked s.machine mark, world⟩
        | (.exited, world) => .error .exit ⟨marked s.machine mark, world⟩ := (rfl)

theorem run_trace (insn : Instruction) (s : Session σ) :
    (trace obs insn).run s =
      match obs.tracer with
      | none => .ok none s
      | some tracer =>
        match tracer s.machine.steps insn s.machine.core.snapshot s.world with
        | (.returned outcome, world) => .ok outcome ⟨s.machine, world⟩
        | (.panicked value, world) => .error (.panic value) ⟨s.machine, world⟩
        | (.exited, world) => .error .exit ⟨s.machine, world⟩ := (rfl)

theorem run_halt (cause : Failure) (s : Session σ) :
    (halt obs indent cause : Action σ α).run s =
      match (log obs indent "#" fun _ => "halt error: " ++ cause.message).run s with
      | .error .exit s => .error .exit s
      | .error _ s => .error (.halt cause) s
      | .ok _ s => .error (.halt cause) s := (rfl)

private theorem Observing.log (obs : Observers σ) (indent mark : String) (text : Core → String) :
    (log obs indent mark text).Observing := by
  intro s
  rw [final, run_log]
  cases obs.logger with
  | none => exact .refl _
  | some logger =>
      rcases hcall : logger (lineOf s.machine indent mark text) s.world with ⟨_ | _ | _, w⟩ <;>
        simp only [hcall] <;> exact ⟨rfl, rfl, rfl⟩

private theorem Observing.trace (obs : Observers σ) (insn : Instruction) :
    (trace obs insn).Observing := by
  intro s
  rw [final, run_trace]
  cases obs.tracer with
  | none => exact .refl _
  | some tracer =>
      rcases hcall : tracer s.machine.steps insn s.machine.core.snapshot s.world
        with ⟨_ | _ | _, w⟩ <;> simp only [hcall] <;> exact .refl _

private theorem Observing.halt (obs : Observers σ) (indent : String) (cause : Failure) :
    (halt obs indent cause : Action σ α).Observing := by
  intro s
  have hlog := Observing.log obs indent "#" (fun _ => "halt error: " ++ cause.message) s
  rw [final] at hlog ⊢
  rw [run_halt]
  rcases hrun : (Action.log obs indent "#" fun _ => "halt error: " ++ cause.message).run s with
    ⟨_, t⟩ | ⟨_ | _ | _, t⟩ <;> simpa only [hrun] using hlog

def report (obs : Observers σ) (indent : String) (here : Word) (insn : Instruction) :
    Action σ Unit := do
  countStep
  log obs indent "exec" (execText here insn)
  match ← trace obs insn with
  | none => pure ()
  | some cause => halt obs indent cause

/-- What follows the execution of an instruction; HALT is announced first. -/
def conclude (obs : Observers σ) (indent : String) (here : Word) (insn : Instruction)
    (flow : Flow) : Action σ Unit :=
  if flow = .halt then do
    setHalted
    log obs indent "#" (haltText here)
    report obs indent here insn
  else report obs indent here insn

private theorem Observing.report (obs : Observers σ) (indent : String) (here : Word)
    (insn : Instruction) :
    (report obs indent here insn).Observing := by
  refine .bind .countStep fun _ => .bind (.log obs indent _ _) fun _ =>
    .bind (.trace obs insn) fun outcome => ?_
  cases outcome with
  | none => exact .pure ()
  | some cause => exact .halt obs indent cause

private theorem Observing.conclude (obs : Observers σ) (indent : String) (here : Word)
    (insn : Instruction) (flow : Flow) :
    (conclude obs indent here insn flow).Observing := by
  unfold Action.conclude
  split
  · exact .bind .setHalted fun _ => .bind (.log obs indent _ _) fun _ =>
      .report obs indent here insn
  · exact .report obs indent here insn

def withCore (s : Session σ) (core : Core) : Session σ :=
  { s with machine := { s.machine with core := core } }

private theorem run_onCore_carryOut (insn : Instruction) (s : Session σ) :
    (onCore (do advance; insn.exec s.machine.core.regs.pc) : Action σ (Except Stop Flow)).run s =
      match s.machine.core.carryOut insn with
      | .ok flow core => .ok (.ok flow) (withCore s core)
      | .error stop core => .ok (.error stop) (withCore s core) := by
  rw [run_onCore, Core.carryOut]
  generalize EStateM.run _ s.machine.core = outcome
  cases outcome <;> rfl

theorem run_cycle (s : Session σ) :
    (cycle obs indent).run s =
      match s.machine.core.fetch? s.machine.code with
      | none => (halt obs indent (.counterOutOfCode s.machine.core.regs.pc)).run s
      | some insn =>
        match s.machine.core.carryOut insn with
        | .error (.fault f) core => .error (.panic (.failure (.fault f))) (withCore s core)
        | .error (.refusal cause) core => (halt obs indent cause).run (withCore s core)
        | .ok flow core =>
          (conclude obs indent s.machine.core.regs.pc insn flow).run (withCore s core) := by
  simp only [cycle, Exec.run_bind, run_counter, run_fetched]
  rw [show s.machine.fetch? = s.machine.core.fetch? s.machine.code from rfl]
  cases s.machine.core.fetch? s.machine.code with
  | none => rfl
  | some insn =>
      dsimp only
      rw [Exec.run_bind, run_onCore_carryOut]
      cases s.machine.core.carryOut insn with
      | ok flow core => cases flow <;> rfl
      | error stop core => cases stop <;> rfl

private theorem final_cycle (s : Session σ) :
    (cycle obs indent).final s =
      match s.machine.core.fetch? s.machine.code with
      | none => (halt obs indent (.counterOutOfCode s.machine.core.regs.pc) : Action σ Unit).final s
      | some insn =>
        match s.machine.core.carryOut insn with
        | .error (.fault _) core => withCore s core
        | .error (.refusal cause) core =>
          (halt obs indent cause : Action σ Unit).final (withCore s core)
        | .ok flow core =>
          (conclude obs indent s.machine.core.regs.pc insn flow).final (withCore s core) := by
  rw [final, run_cycle]
  cases s.machine.core.fetch? s.machine.code with
  | none => rfl
  | some insn =>
      dsimp only
      cases s.machine.core.carryOut insn with
      | ok flow core => rfl
      | error stop core => cases stop <;> rfl

theorem cycle_attempts (obs : Observers σ) (indent : String) (s : Session σ) :
    ((cycle obs indent).final s).machine.code = s.machine.code ∧
    ((cycle obs indent).final s).machine.failure = s.machine.failure ∧
    s.machine.core.Attempts s.machine.code ((cycle obs indent).final s).machine.core := by
  rw [final_cycle]
  cases hfetch : s.machine.core.fetch? s.machine.code with
  | none =>
      have hn := Observing.halt (α := Unit) obs indent
        (.counterOutOfCode s.machine.core.regs.pc) s
      exact ⟨hn.code, hn.failure, .inr (.inl ⟨hfetch, hn.core⟩)⟩
  | some insn =>
      dsimp only
      cases hrun : s.machine.core.carryOut insn with
      | ok flow core =>
          have hn := Observing.conclude obs indent s.machine.core.regs.pc insn flow
            (withCore s core)
          refine ⟨hn.code, hn.failure, .inl ⟨insn, flow, hfetch, ?_⟩⟩
          dsimp only
          rw [hn.core, hrun]
          rfl
      | error stop core =>
          cases stop with
          | fault f => exact ⟨rfl, rfl, .inr (.inr ⟨insn, _, hfetch, hrun⟩)⟩
          | refusal cause =>
              have hn := Observing.halt (α := Unit) obs indent cause
                (withCore s core)
              refine ⟨hn.code, hn.failure, .inr (.inr ⟨insn, .refusal cause, hfetch, ?_⟩)⟩
              dsimp only
              rw [hn.core, hrun]
              rfl

theorem halt_ne_ok (cause : Failure) (s : Session σ) (a : α) (t : Session σ) :
    (halt obs indent cause).run s ≠ .ok a t := by
  rw [run_halt]
  rcases (log obs indent "#" fun _ => "halt error: " ++ cause.message).run s with
    _ | ⟨_ | _ | _, _⟩ <;> nofun

/-- Stopping ends in the given failure, unless the logger abandons its task on the way. -/
theorem halt_abrupt {cause : Failure} {s t : Session σ} {e : Abrupt}
    (h : (halt obs indent cause : Action σ α).run s = .error e t) :
    e = .halt cause ∨ e = .exit ∧ ∃ logger line world,
      obs.logger = some logger ∧ (logger line world).1 = .exited := by
  rw [run_halt, run_log] at h
  cases hlogger : obs.logger with
  | none =>
      rw [hlogger] at h
      cases h
      exact .inl rfl
  | some logger =>
      simp only [hlogger] at h
      rcases hcall : logger (lineOf s.machine indent "#" fun _ => "halt error: " ++ cause.message)
        s.world with ⟨_ | _ | _, w⟩ <;> simp only [hcall] at h <;> cases h
      · exact .inl rfl
      · exact .inl rfl
      · exact .inr ⟨rfl, logger, _, _, rfl, congrArg Prod.fst hcall⟩

/-- A cycle that ends normally has completed its instruction. -/
theorem completes_of_cycle {s t : Session σ} (h : (cycle obs indent).run s = .ok () t) :
    s.machine.core.Completes s.machine.code t.machine.core := by
  have hatt := (cycle_attempts obs indent s).2.2
  rw [final, h] at hatt
  rw [run_cycle] at h
  cases hfetch : s.machine.core.fetch? s.machine.code with
  | none =>
      rw [hfetch] at h
      exact absurd h (halt_ne_ok _ _ _ _)
  | some insn =>
      rw [hfetch] at h
      dsimp only at h
      rcases hatt with hdone | ⟨hnone, _⟩ | ⟨_, stop, hsome, hstop⟩
      · exact hdone
      · rw [hfetch] at hnone
        cases hnone
      · rw [hfetch] at hsome
        cases hsome
        rw [hstop] at h
        cases stop with
        | fault f => cases h
        | refusal cause => exact absurd h (halt_ne_ok _ _ _ _)

end Action
end FrameMachine
