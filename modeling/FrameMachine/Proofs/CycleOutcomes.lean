import FrameMachine.Proofs.Exchanges
import FrameMachine.Proofs.TracedRuns
/-!
# Outcomes of a cycle

Observers are called on four occasions: HALT announces its result, a completed instruction is
logged, it is traced, and the failure that stops the machine is logged. As long as they reply
normally, the machine moves as if nobody were watching. The first reply of another kind interrupts
the instruction on the spot, and nothing is told afterwards but the failure of a tracer.
-/
namespace FrameMachine

open TraceStore FrameMachine.Action

namespace Machine

/-- The machine but for the width of its marks, which nobody sees but its logger. -/
def unmarked (m : Machine) : Machine := { m with markWidth := 0 }

section Unmarked

variable {m m' : Machine}

theorem core_of_unmarked (h : m.unmarked = m'.unmarked) : m.core = m'.core := by
  change m.unmarked.core = m'.unmarked.core
  rw [h]

theorem steps_of_unmarked (h : m.unmarked = m'.unmarked) : m.steps = m'.steps := by
  change m.unmarked.steps = m'.unmarked.steps
  rw [h]

theorem halted_of_unmarked (h : m.unmarked = m'.unmarked) : m.halted = m'.halted := by
  change m.unmarked.halted = m'.unmarked.halted
  rw [h]

theorem failure_of_unmarked (h : m.unmarked = m'.unmarked) : m.failure = m'.failure := by
  change m.unmarked.failure = m'.unmarked.failure
  rw [h]

end Unmarked

/-- One instruction with nobody watching. -/
def cycled (m : Machine) : EStateM.Result Abrupt Machine Unit :=
  match m.core.fetch? m.code with
  | none => .error (.halt (.counterOutOfCode m.core.regs.pc)) m
  | some insn =>
    match m.core.carryOut insn with
    | .error (.fault f) core => .error (.panic (.failure (.fault f))) { m with core := core }
    | .error (.refusal cause) core => .error (.halt cause) { m with core := core }
    | .ok flow core => .ok () (m.completed flow core)

def passed (m : Machine) : Machine :=
  match m.cycled with
  | .ok _ after => after
  | .error _ after => after

def shown (m : Machine) : Option Observation :=
  (m.core.fetch? m.code).bind fun insn =>
    match m.core.carryOut insn with
    | .ok _ core => some ⟨m.steps + 1, insn, core.snapshot⟩
    | .error _ _ => none

theorem cycled_of_carryOut {m : Machine} {insn : Instruction} {flow : Flow} {core : Core}
    (hfetch : m.core.fetch? m.code = some insn) (hrun : m.core.carryOut insn = .ok flow core) :
    m.cycled = .ok () (m.completed flow core) := by
  simp only [cycled, hfetch, hrun]

theorem shown_of_error {m after : Machine} {e : Abrupt} (h : m.cycled = .error e after) :
    m.shown = none := by
  revert h
  rw [cycled, shown]
  cases m.core.fetch? m.code with
  | none => simp
  | some insn => cases hrun : m.core.carryOut insn <;> simp [hrun]

end Machine

inductive Occasion where
  | announcement
  | completion
  | tracing
  | stopping (cause : Failure)
  deriving DecidableEq

def haltLine (indent : String) (width : Nat) (cause : Failure) : Event :=
  .line (indent ++ padMark width "#" ++ " " ++ ("halt error: " ++ cause.message))

/-- What the observers are told on the occasions of the instruction at the counter. -/
inductive Machine.Emits (m : Machine) (indent : String) : Occasion → Event → Prop where
  | announcement {insn : Instruction} {core : Core} (width : Nat)
      (fetched : m.core.fetch? m.code = some insn)
      (carried : m.core.carryOut insn = .ok .halt core) :
      Emits m indent .announcement
        (.line (indent ++ padMark width "#" ++ " " ++ haltText m.core.regs.pc core))
  | completion {insn : Instruction} {flow : Flow} {core : Core} (width : Nat)
      (fetched : m.core.fetch? m.code = some insn)
      (carried : m.core.carryOut insn = .ok flow core) :
      Emits m indent .completion
        (.line (indent ++ padMark width "exec" ++ " " ++ execText m.core.regs.pc insn core))
  | tracing {o : Observation} (shown : m.shown = some o) :
      Emits m indent .tracing (.traced o.step o.insn o.snap)
  | stopping {cause : Failure} {after : Machine} (width : Nat)
      (stops : m.cycled = .error (.halt cause) after) :
      Emits m indent (.stopping cause) (haltLine indent width cause)

/-- What follows the first reply that is not normal: what the observers are still told, and the
failure that a call of the given name ends in. -/
inductive Aftermath (logged : Bool) (name indent : String) :
    Occasion → Reply → List Exchange → Failure → Prop where
  | panic {occasion : Occasion} (value : PanicValue) (other : ∀ cause, occasion ≠ .stopping cause) :
      Aftermath logged name indent occasion (.panicked value) [] (value.toFailure name)
  /-- A panic about the line of a failure is ignored. -/
  | ignored (cause : Failure) (value : PanicValue) :
      Aftermath logged name indent (.stopping cause) (.panicked value) [] cause
  | exit (occasion : Occasion) :
      Aftermath logged name indent occasion .exited [] (.exited name)
  | failure (cause : Failure) (quiet : logged = false) :
      Aftermath logged name indent .tracing (.failed cause) [] cause
  | report (cause : Failure) (width : Nat) (reply : Reply) (heard : logged = true) :
      Aftermath logged name indent .tracing (.failed cause) [⟨haltLine indent width cause, reply⟩]
        (if reply = .exited then .exited name else cause)

/-- A reply that is not normal, with the occasion and with what was told before and after. -/
structure Interruption where
  earlier : List Exchange
  exchange : Exchange
  later : List Exchange
  occasion : Occasion

def Event.observation? : Event → Option Observation
  | line _ => none
  | traced step insn snap => some ⟨step, insn, snap⟩

def observations (exchanges : List Exchange) : List Observation :=
  exchanges.filterMap fun x => x.event.observation?

theorem observations_append (exchanges more : List Exchange) :
    observations (exchanges ++ more) = observations exchanges ++ observations more :=
  List.filterMap_append

namespace Session

variable {σ : Type} {obs : Observers σ} {s t u : Session (Audited σ)} {news more : List Exchange}

/-- The observers replied to some events, and nothing else happened. -/
structure ObserverStep (obs : Observers σ) (news : List Exchange) (s t : Session (Audited σ)) :
    Prop where
  machine : t.machine.unmarked = s.machine.unmarked
  exchanges : t.world.exchanges = s.world.exchanges ++ news
  given : ∀ x ∈ news, obs.CanReply x

private theorem ObserverStep.trans (h : s.ObserverStep obs news t)
    (h' : t.ObserverStep obs more u) :
    s.ObserverStep obs (news ++ more) u := by
  refine ⟨h'.machine.trans h.machine, ?_, ?_⟩
  · rw [h'.exchanges, h.exchanges, List.append_assoc]
  · intro x hx
    rcases List.mem_append.mp hx with hx | hx
    · exact h.given x hx
    · exact h'.given x hx

private theorem ObserverStep.core (h : s.ObserverStep obs news t) :
    t.machine.core = s.machine.core :=
  Machine.core_of_unmarked h.machine

private theorem ObserverStep.steps (h : s.ObserverStep obs news t) :
    t.machine.steps = s.machine.steps :=
  Machine.steps_of_unmarked h.machine

end Session

namespace Action

variable {σ α : Type} (obs : Observers σ) (indent : String)

/-- The outcome of an action without the world of the observers and the width of the marks. -/
def bare : EStateM.Result Abrupt (Session σ) α → EStateM.Result Abrupt Machine α
  | .ok a s => .ok a s.machine.unmarked
  | .error e s => .error e s.machine.unmarked

def ending : EStateM.Result Abrupt (Session σ) α → Session σ
  | .ok _ s => s
  | .error _ s => s

private theorem run_log_audited (mark : String) (text : Core → String) (s : Session (Audited σ)) :
    (obs.logger.isSome = false ∧ (log obs.audited indent mark text).run s = .ok () s) ∨
    (obs.logger.isSome = true ∧ ∃ t reply,
      s.ObserverStep obs [⟨.line (lineOf s.machine indent mark text), reply⟩] t ∧
      (∀ cause, reply ≠ .failed cause) ∧
      (log obs.audited indent mark text).run s =
        match reply with
        | .panicked value => .error (.panic value) t
        | .exited => .error .exit t
        | _ => .ok () t) := by
  rw [run_log, Observers.audited]
  cases hlogger : obs.logger with
  | none => exact .inl ⟨rfl, rfl⟩
  | some logger =>
      refine .inr ⟨rfl, ?_⟩
      rcases hcall : logger (lineOf s.machine indent mark text) s.world.world with ⟨ending, world⟩
      refine ⟨⟨marked s.machine mark, ⟨world, _⟩⟩, ending.reply fun _ => .normal,
        ⟨rfl, rfl, ?_⟩, ?_, ?_⟩
      · intro x hx
        rw [List.mem_singleton.mp hx]
        exact ⟨logger, hlogger, s.world.world, by rw [hcall]⟩
      · cases ending <;> simp [Ending.reply]
      · simp only [Option.map_some, hcall]
        cases ending <;> rfl

private theorem run_trace_audited (insn : Instruction) (s : Session (Audited σ)) :
    (obs.tracer.isSome = false ∧ (trace obs.audited insn).run s = .ok none s) ∨
    (obs.tracer.isSome = true ∧ ∃ t reply,
      s.ObserverStep obs [⟨.traced s.machine.steps insn s.machine.core.snapshot, reply⟩] t ∧
      (trace obs.audited insn).run s =
        match reply with
        | .normal => .ok none t
        | .failed cause => .ok (some cause) t
        | .panicked value => .error (.panic value) t
        | .exited => .error .exit t) := by
  rw [run_trace, Observers.audited]
  cases htracer : obs.tracer with
  | none => exact .inl ⟨rfl, rfl⟩
  | some tracer =>
      refine .inr ⟨rfl, ?_⟩
      rcases hcall : tracer s.machine.steps insn s.machine.core.snapshot s.world.world
        with ⟨ending, world⟩
      refine ⟨⟨s.machine, ⟨world, _⟩⟩, ending.reply .ofAnswer, ⟨rfl, rfl, ?_⟩, ?_⟩
      · intro x hx
        rw [List.mem_singleton.mp hx]
        exact ⟨tracer, htracer, s.world.world, by rw [hcall]⟩
      · simp only [Option.map_some, hcall]
        rcases ending with (_ | _) | _ | _ <;> rfl

private theorem run_halt_audited (cause : Failure) (s : Session (Audited σ)) :
    (obs.logger.isSome = false ∧
      (halt obs.audited indent cause : Action _ α).run s = .error (.halt cause) s) ∨
    (obs.logger.isSome = true ∧ ∃ t reply,
      s.ObserverStep obs [⟨haltLine indent s.machine.markWidth cause, reply⟩] t ∧
      (∀ cause, reply ≠ .failed cause) ∧
      (halt obs.audited indent cause : Action _ α).run s =
        .error (if reply = .exited then .exit else .halt cause) t) := by
  rw [run_halt]
  rcases run_log_audited obs indent "#" (fun _ => "halt error: " ++ cause.message) s with
    ⟨hnone, hlog⟩ | ⟨hsome, t, reply, hobs, hlogs, hlog⟩
  · rw [hlog]
    exact .inl ⟨hnone, rfl⟩
  · refine .inr ⟨hsome, t, reply, hobs, hlogs, ?_⟩
    rw [hlog]
    cases reply <;> rfl

end Action

/-- How an instruction went, begun at the given machine after some exchanges: uninterrupted, or up
to the reply that interrupted it. -/
inductive CycleOutcome {σ : Type} (obs : Observers σ) (indent : String) (m : Machine)
    (past : List Exchange) : EStateM.Result Abrupt (Session (Audited σ)) Unit → Prop where
  | uninterrupted {r : EStateM.Result Abrupt (Session (Audited σ)) Unit} (news : List Exchange)
      (bare : bare r = m.cycled)
      (exchanges : (ending r).world.exchanges = past ++ news)
      (normal : ∀ x ∈ news, x.reply = .normal)
      (seen : observations news = if obs.tracer.isSome then m.shown.toList else []) :
      CycleOutcome obs indent m past r
  | interrupted {e : Abrupt} {t : Session (Audited σ)} (x : Interruption)
      (exchanges : t.world.exchanges = past ++ (x.earlier ++ x.exchange :: x.later))
      (normal : ∀ y ∈ x.earlier, y.reply = .normal)
      (abnormal : x.exchange.reply ≠ .normal)
      (given : obs.CanReply x.exchange)
      (emits : m.Emits indent x.occasion x.exchange.event)
      (aftermath : ∀ name, Aftermath obs.logger.isSome name indent x.occasion x.exchange.reply
        x.later (e.toFailure name))
      (core : t.machine.core = m.passed.core)
      (steps : t.machine.steps = if x.occasion = .announcement then m.steps else m.passed.steps) :
      CycleOutcome obs indent m past (.error e t)

namespace CycleOutcome

variable {σ : Type} {obs : Observers σ} {indent : String} {m : Machine}
  {s t : Session (Audited σ)} {r : EStateM.Result Abrupt (Session (Audited σ)) Unit}

private theorem of_observerStep {news : List Exchange} (hobs : s.ObserverStep obs news t)
    (hnormal : ∀ x ∈ news, x.reply = .normal) (hseen : observations news = [])
    (h : CycleOutcome obs indent m t.world.exchanges r) :
    CycleOutcome obs indent m s.world.exchanges r := by
  have happend {more : List Exchange} (hmore : ∀ x ∈ more, x.reply = .normal) :
      ∀ x ∈ news ++ more, x.reply = .normal := by
    intro x hx
    rcases List.mem_append.mp hx with hx | hx
    · exact hnormal x hx
    · exact hmore x hx
  cases h with
  | uninterrupted more bare exchanges normal seen =>
      refine .uninterrupted (news ++ more) bare ?_ (happend normal) ?_
      · rw [exchanges, hobs.exchanges, List.append_assoc]
      · rw [observations_append, hseen, List.nil_append, seen]
  | interrupted x exchanges normal abnormal given emits aftermath core steps =>
      refine .interrupted ⟨news ++ x.earlier, x.exchange, x.later, x.occasion⟩ ?_ (happend normal)
        abnormal given emits aftermath core steps
      rw [exchanges, hobs.exchanges]
      simp only [List.append_assoc]

/-- An exit, or a panic anywhere but at the line of a failure, is the last that is heard. -/
private theorem of_abrupt {event : Event} {reply : Reply} {occasion : Occasion} {e : Abrupt}
    (hobs : s.ObserverStep obs [⟨event, reply⟩] t) (emits : m.Emits indent occasion event)
    (hreply : reply = .exited ∧ e = .exit ∨
      ∃ value, reply = .panicked value ∧ e = .panic value ∧ ∀ cause, occasion ≠ .stopping cause)
    (core : t.machine.core = m.passed.core)
    (steps : t.machine.steps = if occasion = .announcement then m.steps else m.passed.steps) :
    CycleOutcome obs indent m s.world.exchanges (.error e t) := by
  refine .interrupted ⟨[], ⟨event, reply⟩, [], occasion⟩ hobs.exchanges nofun ?_
    (hobs.given _ List.mem_cons_self) emits ?_ core steps
  · rcases hreply with ⟨rfl, -⟩ | ⟨value, rfl, -⟩ <;> simp
  · intro name
    rcases hreply with ⟨rfl, rfl⟩ | ⟨value, rfl, rfl, hother⟩
    · exact .exit occasion
    · exact .panic value hother

private theorem halt {cause : Failure}
    (hcycled : m.cycled = .error (.halt cause) s.machine.unmarked) :
    CycleOutcome obs indent m s.world.exchanges ((Action.halt obs.audited indent cause).run s) := by
  have hpassed : m.passed = s.machine.unmarked := by rw [Machine.passed, hcycled]
  have hshown : m.shown = none := Machine.shown_of_error hcycled
  rcases run_halt_audited obs indent cause s with
    ⟨-, hrun⟩ | ⟨hsome, t, reply, hobs, hlogs, hrun⟩
  · rw [hrun]
    refine .uninterrupted [] hcycled.symm (List.append_nil _).symm nofun ?_
    simp [observations, hshown]
  · rw [hrun]
    have hcore : t.machine.core = m.passed.core := by
      rw [hpassed, hobs.core]
      rfl
    have hsteps : t.machine.steps = m.passed.steps := by
      rw [hpassed, hobs.steps]
      rfl
    cases reply with
    | failed c => exact absurd rfl (hlogs c)
    | normal =>
        refine .uninterrupted _ ?_ hobs.exchanges (by simp) ?_
        · rw [hcycled, ← hobs.machine]
          rfl
        · simp [observations, haltLine, Event.observation?, hshown]
    | panicked value =>
        refine .interrupted ⟨[], _, [], .stopping cause⟩ hobs.exchanges nofun nofun
          (hobs.given _ List.mem_cons_self) (.stopping _ hcycled) ?_ hcore hsteps
        intro name
        exact .ignored cause value
    | exited => exact of_abrupt hobs (.stopping _ hcycled) (.inl ⟨rfl, rfl⟩) hcore hsteps

variable {insn : Instruction} {flow : Flow} {core : Core}

private theorem trace (hfetch : m.core.fetch? m.code = some insn)
    (hrun : m.core.carryOut insn = .ok flow core)
    (hs : s.machine.unmarked = m.completed flow core) :
    CycleOutcome obs indent m s.world.exchanges ((do
      match ← Action.trace obs.audited insn with
      | none => pure ()
      | some cause => Action.halt obs.audited indent cause).run s) := by
  have hcycled := Machine.cycled_of_carryOut hfetch hrun
  have hpassed : m.passed = s.machine.unmarked := by rw [Machine.passed, hcycled, hs]
  have hshown : m.shown = some ⟨s.machine.steps, insn, s.machine.core.snapshot⟩ := by
    rw [Machine.shown, hfetch, Option.bind_some, hrun]
    change _ = some (Observation.mk s.machine.unmarked.steps insn s.machine.unmarked.core.snapshot)
    rw [hs]
    rfl
  have hleft {news : List Exchange} {t : Session (Audited σ)} (hobs : s.ObserverStep obs news t) :
      t.machine.core = m.passed.core ∧ t.machine.steps = m.passed.steps := by
    rw [hpassed]
    exact ⟨hobs.core, hobs.steps⟩
  rw [Exec.run_bind]
  rcases run_trace_audited obs insn s with ⟨hnone, htrace⟩ | ⟨hsome, t, reply, hobs, htrace⟩
  · rw [htrace]
    refine .uninterrupted [] ?_ (List.append_nil _).symm nofun ?_
    · rw [hcycled, ← hs]
      rfl
    · simp [observations, hnone]
  · have hemits : m.Emits indent .tracing
        (.traced s.machine.steps insn s.machine.core.snapshot) := .tracing hshown
    obtain ⟨hcore, hsteps⟩ := hleft hobs
    rw [htrace]
    cases reply with
    | normal =>
        refine .uninterrupted _ ?_ hobs.exchanges (by simp) ?_
        · rw [hcycled, ← hs, ← hobs.machine]
          rfl
        · simp [observations, Event.observation?, hsome, hshown]
    | panicked value =>
        exact of_abrupt hobs hemits (.inr ⟨value, rfl, rfl, by simp⟩) hcore hsteps
    | exited => exact of_abrupt hobs hemits (.inl ⟨rfl, rfl⟩) hcore hsteps
    | failed cause =>
        -- the failure is logged in turn, and whatever becomes of that line is part of the aftermath
        have hgiven := hobs.given _ List.mem_cons_self
        dsimp only
        rcases run_halt_audited obs indent cause t with
          ⟨hquiet, hhalt⟩ | ⟨hheard, u, reply, hobs', -, hhalt⟩
        · rw [hhalt]
          refine .interrupted ⟨[], _, [], .tracing⟩ hobs.exchanges nofun nofun hgiven hemits ?_
            hcore hsteps
          intro name
          exact .failure cause hquiet
        · rw [hhalt]
          obtain ⟨hcore', hsteps'⟩ := hleft (hobs.trans hobs')
          refine .interrupted ⟨[], _, [_], .tracing⟩ (hobs.trans hobs').exchanges nofun nofun hgiven
            hemits ?_ hcore' hsteps'
          intro name
          rw [apply_ite (Abrupt.toFailure name)]
          exact .report cause t.machine.markWidth reply hheard

private theorem report (hfetch : m.core.fetch? m.code = some insn)
    (hrun : m.core.carryOut insn = .ok flow core)
    (hs : { s.machine with steps := s.machine.steps + 1 }.unmarked = m.completed flow core) :
    CycleOutcome obs indent m s.world.exchanges
      ((Action.report obs.audited indent m.core.regs.pc insn).run s) := by
  have hpassed : m.passed = m.completed flow core := by
    rw [Machine.passed, Machine.cycled_of_carryOut hfetch hrun]
  let counted : Session (Audited σ) :=
    ⟨{ s.machine with steps := s.machine.steps + 1 }, s.world⟩
  have hcore : counted.machine.core = core := congrArg (fun m : Machine => m.core) hs
  have hemits : m.Emits indent .completion
      (.line (lineOf counted.machine indent "exec" (execText m.core.regs.pc insn))) := by
    rw [lineOf, hcore]
    exact .completion _ hfetch hrun
  rw [Action.report, Exec.run_bind, run_countStep]
  change CycleOutcome obs indent m counted.world.exchanges (EStateM.run _ counted)
  rw [Exec.run_bind]
  rcases run_log_audited obs indent "exec" (execText m.core.regs.pc insn) counted with
    ⟨-, hlog⟩ | ⟨-, t, reply, hobs, hlogs, hlog⟩
  · rw [hlog]
    exact trace (s := counted) hfetch hrun hs
  · rw [hlog]
    have hleft : t.machine.core = m.passed.core ∧ t.machine.steps = m.passed.steps := by
      rw [hpassed, ← hs]
      exact ⟨hobs.core, hobs.steps⟩
    cases reply with
    | failed cause => exact absurd rfl (hlogs cause)
    | normal =>
        exact of_observerStep hobs (List.forall_mem_singleton.mpr rfl) rfl
          (trace hfetch hrun (hobs.machine.trans hs))
    | panicked value =>
        exact of_abrupt hobs hemits (.inr ⟨value, rfl, rfl, by simp⟩) hleft.1 hleft.2
    | exited => exact of_abrupt hobs hemits (.inl ⟨rfl, rfl⟩) hleft.1 hleft.2

/-- HALT is announced before it is counted, so an announcement that goes wrong leaves it
uncounted. -/
private theorem conclude (hfetch : m.core.fetch? m.code = some insn)
    (hrun : m.core.carryOut insn = .ok flow core)
    (hs : s.machine.unmarked = { m with core := core }) :
    CycleOutcome obs indent m s.world.exchanges
      ((Action.conclude obs.audited indent m.core.regs.pc insn flow).run s) := by
  have hcore : s.machine.core = core := congrArg (fun m : Machine => m.core) hs
  have hsteps : s.machine.steps = m.steps := by
    change s.machine.unmarked.steps = m.steps
    rw [hs]
  cases flow with
  | next =>
      apply report hfetch hrun
      change { s.machine.unmarked with steps := s.machine.unmarked.steps + 1 } = _
      rw [hs, Machine.completed]
      simp
  | halt =>
      let halting : Session (Audited σ) := ⟨{ s.machine with halted := true }, s.world⟩
      have hhalting : { halting.machine with steps := halting.machine.steps + 1 }.unmarked =
          m.completed .halt core := by
        change { s.machine.unmarked with halted := true, steps := s.machine.unmarked.steps + 1 } = _
        rw [hs, Machine.completed]
        simp
      have hpassed : m.passed = m.completed .halt core := by
        rw [Machine.passed, Machine.cycled_of_carryOut hfetch hrun]
      have hemits : m.Emits indent .announcement
          (.line (lineOf halting.machine indent "#" (haltText m.core.regs.pc))) := by
        rw [lineOf, show halting.machine.core = core from hcore]
        exact .announcement _ hfetch hrun
      rw [Action.conclude, if_pos rfl, Exec.run_bind, run_setHalted]
      change CycleOutcome obs indent m halting.world.exchanges (EStateM.run _ halting)
      rw [Exec.run_bind]
      rcases run_log_audited obs indent "#" (haltText m.core.regs.pc) halting with
        ⟨-, hlog⟩ | ⟨-, t, reply, hobs, hlogs, hlog⟩
      · rw [hlog]
        exact report (s := halting) hfetch hrun hhalting
      · rw [hlog]
        have hleft : t.machine.core = m.passed.core ∧ t.machine.steps = m.steps := by
          rw [hpassed, hobs.core, hobs.steps]
          exact ⟨hcore, hsteps⟩
        cases reply with
        | failed cause => exact absurd rfl (hlogs cause)
        | normal =>
            refine of_observerStep hobs (List.forall_mem_singleton.mpr rfl) rfl
              (report hfetch hrun ?_)
            rw [← hhalting]
            change { t.machine.unmarked with steps := t.machine.unmarked.steps + 1 } = _
            rw [hobs.machine]
            rfl
        | panicked value =>
            exact of_abrupt hobs hemits (.inr ⟨value, rfl, rfl, by simp⟩) hleft.1 hleft.2
        | exited => exact of_abrupt hobs hemits (.inl ⟨rfl, rfl⟩) hleft.1 hleft.2

theorem cycle (obs : Observers σ) (indent : String) (s : Session (Audited σ)) :
    CycleOutcome obs indent s.machine.unmarked s.world.exchanges
      ((Action.cycle obs.audited indent).run s) := by
  rw [run_cycle]
  cases hfetch : s.machine.core.fetch? s.machine.code with
  | none =>
      apply halt
      rw [Machine.cycled]
      simp only [Machine.unmarked, hfetch]
  | some insn =>
      dsimp only
      cases hrun : s.machine.core.carryOut insn with
      | ok flow core =>
          exact conclude (s := withCore s core) hfetch hrun rfl
      | error stop core =>
          cases stop with
          | fault f =>
              have hcycled : s.machine.unmarked.cycled =
                  .error (.panic (.failure (.fault f))) (withCore s core).machine.unmarked := by
                simp only [Machine.cycled, Machine.unmarked, hfetch, hrun, withCore]
              refine .uninterrupted [] hcycled.symm (List.append_nil _).symm nofun ?_
              simp [observations, Machine.shown_of_error hcycled]
          | refusal cause =>
              apply halt (s := withCore s core)
              simp only [Machine.cycled, Machine.unmarked, hfetch, hrun, withCore]

end CycleOutcome

end FrameMachine
