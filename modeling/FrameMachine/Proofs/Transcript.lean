import FrameMachine.Proofs.OpcodeTable
/-!
# The log as a transcript

A logger that returns from every call receives one line for each completed instruction, one more
before it for HALT, and in the end at most one about the failure that stopped the machine. Which
lines these are can be told from the instructions that were begun and from the way the last of them
went. How they are laid out depends on the call they belong to and on all marks logged before.
-/
namespace FrameMachine

open FrameMachine.Action

structure Entry where
  indent : String
  mark : String
  text : String
  deriving DecidableEq

namespace Entry

def line (width : Nat) (e : Entry) : String :=
  e.indent ++ padMark width e.mark ++ " " ++ e.text

def widest (entries : List Entry) : Nat :=
  entries.foldl (fun width e => max width e.mark.length) 0

/-- The entries as lines, with each mark padded to the widest one up to it. -/
def transcript (entries : List Entry) : List String :=
  entries.mapIdx fun k e => e.line (widest (entries.take (k + 1)))

def ofFailure (indent : String) (cause : Failure) : Entry :=
  ⟨indent, "#", "halt error: " ++ cause.message⟩

private theorem widest_concat (entries : List Entry) (e : Entry) :
    widest (entries ++ [e]) = max (widest entries) e.mark.length := by
  rw [widest, List.foldl_append]
  rfl

/-- A mark is as wide as itself, so the widest mark before it decides about the padding. -/
private theorem line_max (width : Nat) (e : Entry) :
    e.line (max width e.mark.length) = e.line width := by
  have hpad : max width e.mark.length - e.mark.length = width - e.mark.length := by omega
  rw [line, line, padMark, padMark, hpad]

private theorem transcript_concat (entries : List Entry) (e : Entry) :
    transcript (entries ++ [e]) = transcript entries ++ [e.line (widest entries)] := by
  have hbefore : (entries.mapIdx fun k e' =>
      e'.line (widest ((entries ++ [e]).take (k + 1)))) = transcript entries := by
    apply List.ext_getElem
    · simp [transcript]
    · intro k hk _
      rw [List.length_mapIdx] at hk
      have htake : (entries ++ [e]).take (k + 1) = entries.take (k + 1) :=
        List.take_append_of_le_length hk
      simp only [transcript, List.getElem_mapIdx, htake]
  rw [transcript, List.mapIdx_concat, hbefore, List.take_of_length_le (by simp), widest_concat,
    line_max]

end Entry

namespace Exec

variable {α : Type}

def Continues (act : Exec Flow) : Prop :=
  ∀ core flow after, act.run core = .ok flow after → flow = .next

private theorem Continues.next : Continues (pure .next) := by
  intro core flow after hrun
  cases hrun
  rfl

private theorem Continues.bind {act : Exec α} {next : α → Exec Flow} (h : ∀ a, Continues (next a)) :
    Continues (act >>= next) := by
  intro core flow after hrun
  rw [run_bind] at hrun
  cases hact : act.run core with
  | ok a middle =>
      rw [hact] at hrun
      exact h a middle flow after hrun
  | error stop middle =>
      rw [hact] at hrun
      cases hrun

end Exec

private theorem Opcode.exec_continues (here : Word) {op : Opcode} (arg : Word) (h : op ≠ halt) :
    Exec.Continues (op.exec here arg) := by
  cases op with
  | halt => exact absurd rfl h
  | enter =>
      intro core flow after hrun
      rw [run_enter] at hrun
      split at hrun <;> cases hrun
      rfl
  | ret =>
      intro core flow after hrun
      rw [run_ret] at hrun
      split at hrun
      · cases hrun
      split at hrun
      · cases hrun
      split at hrun <;> cases hrun
      rfl
  | new =>
      intro core flow after hrun
      rw [run_new] at hrun
      split at hrun
      · cases hrun
      split at hrun <;> cases hrun <;> rfl
  | _ => repeat first | exact .next | refine .bind fun _ => ?_

namespace Core

variable {code : Array Instruction} {core after : Core}

private theorem flow_eq_halt_iff {insn : Instruction} {flow : Flow}
    (h : core.carryOut insn = .ok flow after) :
    flow = .halt ↔ Opcode.ofByte? insn.opcode = some .halt := by
  obtain ⟨op, hop, -⟩ := effect_of_carryOut h
  rw [carryOut_of_opcode hop] at h
  rw [hop, Option.some_inj]
  constructor
  · rintro rfl
    by_contra hother
    cases Opcode.exec_continues core.regs.pc insn.arg hother _ _ _ h
  · rintro rfl
    cases h
    rfl

/-- What stops the instruction at the counter, if it does not complete. A counter that points out of
the code is refused as well. -/
def stop? (code : Array Instruction) (core : Core) : Option Stop :=
  match core.fetch? code with
  | none => some (.refusal (.counterOutOfCode core.regs.pc))
  | some insn =>
    match core.carryOut insn with
    | .ok _ _ => none
    | .error stop _ => some stop

def entries (code : Array Instruction) (indent : String) (core : Core) : List Entry :=
  match core.fetch? code with
  | none => []
  | some insn =>
    match core.carryOut insn with
    | .error _ _ => []
    | .ok _ after =>
      (if Opcode.ofByte? insn.opcode = some .halt then
        [⟨indent, "#", haltText core.regs.pc after⟩] else [])
        ++ [⟨indent, "exec", execText core.regs.pc insn after⟩]

end Core

def Failure.IsRefusal : Failure → Prop
  | stackOverflow .. | unknownInstruction .. | counterOutOfCode _ => True
  | _ => False

private theorem Core.isRefusal_of_stop? {code : Array Instruction} {core : Core} {cause : Failure}
    (h : core.stop? code = some (.refusal cause)) : cause.IsRefusal := by
  rw [stop?] at h
  split at h
  · cases h
    trivial
  · rename_i insn _
    split at h
    · cases h
    · rename_i stop after hrun
      cases h
      cases hop : Opcode.ofByte? insn.opcode with
      | none =>
          rw [carryOut_eq, Instruction.exec, hop] at hrun
          cases hrun
          trivial
      | some op =>
          rw [carryOut_of_opcode hop] at hrun
          obtain ⟨frame, ep, np, rfl⟩ := Opcode.refusal_of_exec hrun
          trivial

def Entry.ofBegun (code : Array Instruction) (begun : List (Call × Core)) : List Entry :=
  begun.flatMap fun x => x.2.entries code x.1.indent

private theorem Entry.ofBegun_singleton (code : Array Instruction) (call : Call) (core : Core) :
    ofBegun code [(call, core)] = core.entries code call.indent := by
  rw [ofBegun, List.flatMap_singleton]

def Event.line? : Event → Option String
  | line text => some text
  | traced .. => none

def loggedLines (exchanges : List Exchange) : List String := exchanges.filterMap (·.event.line?)

/-- How some calls left a machine: the failure it has stored, and what is logged about it. The
instructions were begun in the given calls at the given cores. -/
inductive FinalEntries (code : Array Instruction) (calls : List Call) (begun : List (Call × Core))
    (exchanges : List Exchange) : Option Failure → List Entry → Prop where
  | sound (completed : ∀ x ∈ begun, x.2.stop? code = none)
      (normal : ∀ x ∈ exchanges, x.reply = .normal) :
      FinalEntries code calls begun exchanges none []
  | refused {call : Call} {core : Core} {cause : Failure}
      (last : begun.getLast? = some (call, core))
      (completed : ∀ x ∈ begun.dropLast, x.2.stop? code = none)
      (stopped : core.stop? code = some (.refusal cause)) (kind : cause.IsRefusal) :
      FinalEntries code calls begun exchanges (some cause) [.ofFailure call.indent cause]
  | faulted {call : Call} {core : Core} {fault : Fault}
      (last : begun.getLast? = some (call, core))
      (completed : ∀ x ∈ begun.dropLast, x.2.stop? code = none)
      (stopped : core.stop? code = some (.fault fault)) :
      FinalEntries code calls begun exchanges (some (.panicFailure call.name (.fault fault))) []
  | rejected {call : Call} {core : Core} {cause : Failure}
      (last : begun.getLast? = some (call, core))
      (completed : ∀ x ∈ begun, x.2.stop? code = none)
      (failed : ∃ x ∈ exchanges, x.reply = .failed cause) :
      FinalEntries code calls begun exchanges (some cause) [.ofFailure call.indent cause]
  | spent {budget : Nat} {cause : Failure} (called : .run budget cause ∈ calls)
      (completed : ∀ x ∈ begun, x.2.stop? code = none)
      (normal : ∀ x ∈ exchanges, x.reply = .normal) :
      FinalEntries code calls begun exchanges (some cause) []

namespace FinalEntries

variable {code : Array Instruction} {calls more : List Call} {begun : List (Call × Core)}
  {exchanges : List Exchange} {failure : Option Failure} {last other : List Entry}

/-- What is logged about a stored failure can be computed: it hinges on the last instruction begun
and on whether an observer objected. -/
def lastEntries (code : Array Instruction) (begun : List (Call × Core)) (exchanges : List Exchange)
    (failure : Option Failure) : List Entry :=
  match begun.getLast?, failure with
  | some (call, core), some cause =>
    match core.stop? code with
    | some (.refusal _) => [.ofFailure call.indent cause]
    | some (.fault _) => []
    | none =>
      if ∀ x ∈ exchanges, x.reply = .normal then [] else [.ofFailure call.indent cause]
  | _, _ => []

private theorem eq_lastEntries (h : FinalEntries code calls begun exchanges failure last) :
    last = lastEntries code begun exchanges failure := by
  cases h with
  | sound => cases hlast : begun.getLast? <;> simp only [lastEntries, hlast]
  | refused hlast _ hstopped => simp only [lastEntries, hlast, hstopped]
  | faulted hlast _ hstopped => simp only [lastEntries, hlast, hstopped]
  | rejected hlast hcompleted hfailed =>
      have hstop := hcompleted _ (List.mem_of_getLast? hlast)
      have hnot : ¬ ∀ x ∈ exchanges, x.reply = .normal := by
        intro hnormal
        obtain ⟨x, hx, hreply⟩ := hfailed
        cases hreply.symm.trans (hnormal x hx)
      simp only [lastEntries, hlast, hstop, if_neg hnot]
  | spent _ hcompleted hnormal =>
      cases hlast : begun.getLast? with
      | none => simp only [lastEntries, hlast]
      | some x =>
          have hstop := hcompleted _ (List.mem_of_getLast? hlast)
          simp only [lastEntries, hlast, hstop, if_pos hnormal]

private theorem unique (h : FinalEntries code calls begun exchanges failure last)
    (h' : FinalEntries code calls begun exchanges failure other) : last = other :=
  h.eq_lastEntries.trans h'.eq_lastEntries.symm

private theorem prepend {earlier : List (Call × Core)}
    (h : FinalEntries code calls begun exchanges failure last)
    (hearlier : ∀ x ∈ earlier, x.2.stop? code = none) (hcalls : calls ⊆ more) :
    FinalEntries code more (earlier ++ begun) exchanges failure last := by
  have hall {rest : List (Call × Core)} (hrest : ∀ x ∈ rest, x.2.stop? code = none) :
      ∀ x ∈ earlier ++ rest, x.2.stop? code = none :=
    List.forall_mem_append.mpr ⟨hearlier, hrest⟩
  have hends {x : Call × Core} (hlast : begun.getLast? = some x) :
      (earlier ++ begun).getLast? = some x := by
    rw [List.getLast?_append, hlast, Option.some_or]
  have hdrop {x : Call × Core} (hlast : begun.getLast? = some x) :
      (earlier ++ begun).dropLast = earlier ++ begun.dropLast := by
    apply List.dropLast_append_of_ne_nil
    rintro rfl
    cases hlast
  cases h with
  | sound hcompleted hnormal => exact .sound (hall hcompleted) hnormal
  | refused hlast hcompleted hstopped hkind =>
      exact .refused (hends hlast) (hdrop hlast ▸ hall hcompleted) hstopped hkind
  | faulted hlast hcompleted hstopped =>
      exact .faulted (hends hlast) (hdrop hlast ▸ hall hcompleted) hstopped
  | rejected hlast hcompleted hfailed => exact .rejected (hends hlast) (hall hcompleted) hfailed
  | spent hcalled hcompleted hnormal =>
      exact .spent (hcalls hcalled) (hall hcompleted) hnormal

end FinalEntries

namespace Session

variable {σ : Type} {obs : Observers σ}

/-- The log is the transcript of the entries, and the marks are padded to the widest of them. -/
structure Transcribes (s : Session (Audited σ)) (entries : List Entry) : Prop where
  lines : loggedLines s.world.exchanges = Entry.transcript entries
  width : s.machine.markWidth = Entry.widest entries

def AllNormal (s : Session (Audited σ)) : Prop := ∀ x ∈ s.world.exchanges, x.reply = .normal

/-- Since the given entries, the log tells of the instructions begun and of how they ended. -/
def LogsOutcome (code : Array Instruction) (calls : List Call) (entries : List Entry)
    (begun : List (Call × Core)) (failure : Option Failure) (t : Session (Audited σ)) : Prop :=
  ∃ last, FinalEntries code calls begun t.world.exchanges failure last ∧
    t.Transcribes (entries ++ Entry.ofBegun code begun ++ last)

private theorem Transcribes.idle {s : Session (Audited σ)} {entries : List Entry}
    (h : s.Transcribes entries) (code : Array Instruction) :
    s.Transcribes (entries ++ Entry.ofBegun code [] ++ []) := by
  simpa [Entry.ofBegun] using h

private theorem Transcribes.logsOutcome {s : Session (Audited σ)} {entries : List Entry}
    (h : s.Transcribes entries) (allNormal : s.AllNormal) (code : Array Instruction)
    (calls : List Call) : s.LogsOutcome code calls entries [] none :=
  ⟨[], .sound nofun allNormal, h.idle code⟩

private theorem LogsOutcome.prepend {code : Array Instruction} {calls more : List Call}
    {entries : List Entry} {earlier begun : List (Call × Core)} {failure : Option Failure}
    {t : Session (Audited σ)}
    (h : t.LogsOutcome code calls (entries ++ Entry.ofBegun code earlier) begun failure)
    (hearlier : ∀ x ∈ earlier, x.2.stop? code = none) (hcalls : calls ⊆ more) :
    t.LogsOutcome code more entries (earlier ++ begun) failure := by
  obtain ⟨last, hfinal, ht⟩ := h
  refine ⟨last, hfinal.prepend hearlier hcalls, ?_⟩
  rw [Entry.ofBegun, List.flatMap_append, ← List.append_assoc]
  exact ht

private theorem LogsOutcome.stopWith {code : Array Instruction} {calls : List Call}
    {entries : List Entry} {begun : List (Call × Core)} {failure : Option Failure}
    {t : Session (Audited σ)} (h : t.LogsOutcome code calls entries begun failure)
    (cause : Failure) :
    LogsOutcome code calls entries begun failure ⟨t.machine.stopWith cause, t.world⟩ := by
  obtain ⟨last, hfinal, ht⟩ := h
  exact ⟨last, hfinal, ht.lines, ht.width⟩

end Session

namespace Action

variable {σ α : Type} {obs : Observers σ} {s : Session (Audited σ)} {entries : List Entry}

/-- A completed instruction has been reported: the entries are logged, and if the tracer returned a
failure, that is logged after them. -/
inductive Reported (indent : String) (entries : List Entry) :
    EStateM.Result Abrupt (Session (Audited σ)) Unit → Prop where
  | accepted {t : Session (Audited σ)} (transcribes : t.Transcribes entries)
      (allNormal : t.AllNormal) :
      Reported indent entries (.ok () t)
  | rejected {t : Session (Audited σ)} {cause : Failure}
      (transcribes : t.Transcribes (entries ++ [.ofFailure indent cause]))
      (failed : ∃ x ∈ t.world.exchanges, x.reply = .failed cause) :
      Reported indent entries (.error (.halt cause) t)

section Steps

variable (heard : obs.logger.isSome) (returning : obs.Returning)

include heard returning

private theorem log_transcribes (h : s.Transcribes entries) (indent mark : String)
    (text : Core → String) :
    ∃ t, (log obs.audited indent mark text).run s = .ok () t ∧
      t.Transcribes (entries ++ [⟨indent, mark, text s.machine.core⟩]) ∧
      t.machine = marked s.machine mark ∧ s.world.exchanges ⊆ t.world.exchanges ∧
      (s.AllNormal → t.AllNormal) := by
  obtain ⟨logger, hlogger⟩ := Option.isSome_iff_exists.mp heard
  have hreturns := returning.logger logger hlogger
    (lineOf s.machine indent mark text) s.world.world
  rcases hcall : logger (lineOf s.machine indent mark text) s.world.world with ⟨ending, world⟩
  obtain rfl : ending = .returned () := by rw [← hreturns, hcall]
  refine ⟨⟨marked s.machine mark, ⟨world, s.world.exchanges ++
    [⟨.line (lineOf s.machine indent mark text), .normal⟩]⟩⟩, ?_, ⟨?_, ?_⟩, rfl,
    List.subset_append_left _ _, fun hallNormal => ?_⟩
  · rw [run_log, Observers.audited, hlogger]
    simp only [Option.map_some, hcall]
    rfl
  · rw [Entry.transcript_concat, ← h.lines, ← h.width]
    exact List.filterMap_append
  · rw [Entry.widest_concat, ← h.width]
    rfl
  · exact List.forall_mem_append.mpr ⟨hallNormal, List.forall_mem_singleton.mpr rfl⟩

private theorem halt_transcribes (h : s.Transcribes entries) (indent : String) (cause : Failure) :
    ∃ t, (halt obs.audited indent cause : Action _ α).run s = .error (.halt cause) t ∧
      t.Transcribes (entries ++ [.ofFailure indent cause]) ∧
      s.world.exchanges ⊆ t.world.exchanges := by
  obtain ⟨t, hrun, ht, -, hsub, -⟩ := log_transcribes heard returning h indent "#"
    fun _ => "halt error: " ++ cause.message
  refine ⟨t, ?_, ht, hsub⟩
  rw [run_halt, hrun]

omit heard in
private theorem trace_transcribes (h : s.Transcribes entries) (insn : Instruction) :
    ∃ outcome t, (trace obs.audited insn).run s = .ok outcome t ∧ t.Transcribes entries ∧
      match outcome with
      | none => s.AllNormal → t.AllNormal
      | some cause => ∃ x ∈ t.world.exchanges, x.reply = .failed cause := by
  cases htracer : obs.tracer with
  | none =>
      refine ⟨none, s, ?_, h, id⟩
      rw [run_trace, Observers.audited, htracer]
      rfl
  | some tracer =>
      obtain ⟨outcome, hreturns⟩ := returning.tracer tracer htracer s.machine.steps insn
        s.machine.core.snapshot s.world.world
      rcases hcall : tracer s.machine.steps insn s.machine.core.snapshot s.world.world
        with ⟨ending, world⟩
      obtain rfl : ending = .returned outcome := by rw [← hreturns, hcall]
      refine ⟨outcome, ⟨s.machine, ⟨world, s.world.exchanges ++
        [⟨.traced s.machine.steps insn s.machine.core.snapshot, .ofAnswer outcome⟩]⟩⟩,
        ?_, ⟨?_, h.width⟩, ?_⟩
      · rw [run_trace, Observers.audited, htracer]
        simp only [Option.map_some, hcall]
        rfl
      · rw [← h.lines]
        exact List.filterMap_append.trans (List.append_nil _)
      · cases outcome with
        | none =>
            intro hallNormal
            exact List.forall_mem_append.mpr ⟨hallNormal, List.forall_mem_singleton.mpr rfl⟩
        | some cause => exact ⟨_, List.mem_append_right _ List.mem_cons_self, rfl⟩

private theorem report_transcribes (h : s.Transcribes entries) (allNormal : s.AllNormal)
    (indent : String) (here : Word) (insn : Instruction) :
    Reported indent (entries ++ [⟨indent, "exec", execText here insn s.machine.core⟩])
      ((report obs.audited indent here insn).run s) := by
  obtain ⟨t, hlog, ht, -, -, hallNormal⟩ := log_transcribes heard returning
    (s := { s with machine := { s.machine with steps := s.machine.steps + 1 } })
    ⟨h.lines, h.width⟩ indent "exec" (execText here insn)
  obtain ⟨outcome, u, htrace, hu, houtcome⟩ := trace_transcribes returning ht insn
  simp only [report, Exec.run_bind, run_countStep, hlog, htrace]
  cases outcome with
  | none => exact .accepted hu (houtcome (hallNormal allNormal))
  | some cause =>
      obtain ⟨v, hhalt, hv, hsub⟩ := halt_transcribes heard returning hu indent cause
      obtain ⟨x, hx, hreply⟩ := houtcome
      rw [hhalt]
      exact .rejected hv ⟨x, hsub hx, hreply⟩

private theorem conclude_transcribes (h : s.Transcribes entries) (allNormal : s.AllNormal)
    (indent : String) (here : Word) (insn : Instruction) (flow : Flow) :
    Reported indent
      (entries ++ ((if flow = .halt then [⟨indent, "#", haltText here s.machine.core⟩] else [])
        ++ [⟨indent, "exec", execText here insn s.machine.core⟩]))
      ((conclude obs.audited indent here insn flow).run s) := by
  cases flow with
  | next => exact report_transcribes heard returning h allNormal indent here insn
  | halt =>
      obtain ⟨t, hlog, ht, hmachine, -, hallNormal⟩ := log_transcribes heard returning
        (s := { s with machine := { s.machine with halted := true } })
        ⟨h.lines, h.width⟩ indent "#" (haltText here)
      have hreport := report_transcribes heard returning ht (hallNormal allNormal) indent here insn
      rw [hmachine, List.append_assoc] at hreport
      rw [conclude, if_pos rfl, if_pos rfl, Exec.run_bind, run_setHalted]
      dsimp only
      rw [Exec.run_bind, hlog]
      exact hreport

/-- One instruction: if it completes, its lines are added to the transcript, and if it stops the
machine, the log tells how. -/
private theorem cycle_transcribes (h : s.Transcribes entries) (allNormal : s.AllNormal)
    (call : Call) (calls : List Call) :
    let begun := [(call, s.machine.core)]
    match (cycle obs.audited call.indent).run s with
    | .ok _ t => s.machine.core.stop? s.machine.code = none ∧ t.AllNormal ∧
        t.Transcribes (entries ++ Entry.ofBegun s.machine.code begun)
    | .error e t =>
        t.LogsOutcome s.machine.code calls entries begun (some (e.toFailure call.name)) := by
  intro begun
  simp only [Session.LogsOutcome, begun, Entry.ofBegun_singleton]
  rw [run_cycle]
  cases hfetch : s.machine.core.fetch? s.machine.code with
  | none =>
      obtain ⟨t, hhalt, ht, -⟩ := halt_transcribes (α := Unit) heard returning h call.indent
        (.counterOutOfCode s.machine.core.regs.pc)
      have hstop : s.machine.core.stop? s.machine.code =
          some (.refusal (.counterOutOfCode s.machine.core.regs.pc)) := by
        simp only [Core.stop?, hfetch]
      dsimp only
      rw [hhalt]
      refine ⟨_, .refused rfl nofun hstop trivial, ?_⟩
      simp only [Core.entries, hfetch, List.append_nil]
      exact ht
  | some insn =>
      dsimp only
      cases hrun : s.machine.core.carryOut insn with
      | error stop core =>
          have hstop : s.machine.core.stop? s.machine.code = some stop := by
            simp only [Core.stop?, hfetch, hrun]
          simp only [Core.entries, hfetch, hrun, List.append_nil]
          cases stop with
          | fault f =>
              refine ⟨[], .faulted rfl nofun hstop, ?_⟩
              rw [List.append_nil]
              exact ⟨h.lines, h.width⟩
          | refusal cause =>
              obtain ⟨t, hhalt, ht, -⟩ := halt_transcribes (α := Unit) heard returning
                (s := withCore s core) ⟨h.lines, h.width⟩ call.indent cause
              dsimp only
              rw [hhalt]
              exact ⟨_, .refused rfl nofun hstop (Core.isRefusal_of_stop? hstop), ht⟩
      | ok flow core =>
          have hstop : s.machine.core.stop? s.machine.code = none := by
            simp only [Core.stop?, hfetch, hrun]
          have hreported := conclude_transcribes heard returning (s := withCore s core)
            ⟨h.lines, h.width⟩ allNormal call.indent s.machine.core.regs.pc insn flow
          simp only [Core.flow_eq_halt_iff hrun] at hreported
          simp only [Core.entries, hfetch, hrun]
          generalize (conclude obs.audited call.indent s.machine.core.regs.pc insn flow).run
            (withCore s core) = r at hreported ⊢
          cases hreported with
          | accepted ht hallNormal => exact ⟨hstop, hallNormal, ht⟩
          | rejected ht hfailed =>
              refine ⟨_, .rejected rfl (List.forall_mem_singleton.mpr hstop) hfailed, ht⟩

/-- A run: as long as instructions complete, each adds its lines, and the first that stops the
machine is the last one begun. -/
private theorem loop_logsOutcome (h : s.Transcribes entries) (allNormal : s.AllNormal) {whole : Nat}
    {cause : Failure} {calls : List Call} (hcall : .run whole cause ∈ calls) (budget : Nat) :
    ((loop obs.audited cause budget).final s).LogsOutcome s.machine.code calls entries
      ((visits obs.audited budget s).map (Prod.mk (.run whole cause)))
      (Session.verdict "run" ((loop obs.audited cause budget).run s)) := by
  induction budget generalizing s entries with
  | zero =>
      rw [final, run_loop_zero, visits]
      cases s.machine.halted with
      | true => exact h.logsOutcome allNormal _ _
      | false => exact ⟨[], .spent hcall (List.forall_mem_nil _) allNormal, h.idle _⟩
  | succ budget ih =>
      rw [final, run_loop_succ, visits]
      by_cases hhalted : s.machine.halted = true
      · simp only [if_pos hhalted]
        exact h.logsOutcome allNormal _ _
      simp only [if_neg hhalted, List.map_cons]
      have hcycle := cycle_transcribes heard returning h allNormal (.run whole cause) calls
      have hcode := (cycle_attempts obs.audited "\t" s).1
      rw [Call.indent] at hcycle
      rw [final] at hcode
      cases hrun : (cycle obs.audited "\t").run s with
      | error e t =>
          simp only [hrun] at hcycle
          exact hcycle
      | ok u t =>
          simp only [hrun] at hcycle hcode
          obtain ⟨hstop, hallNormal, ht⟩ := hcycle
          have hrest := ih ht hallNormal
          rw [hcode] at hrest
          exact hrest.prepend (List.forall_mem_singleton.mpr hstop) (List.Subset.refl _)

end Steps

end Action

namespace Session

variable {σ : Type} {obs : Observers σ} {s : Session (Audited σ)} {entries : List Entry}

def historyByCall (obs : Observers σ) : List Call → Session σ → List (Call × Core)
  | [], _ => []
  | call :: calls, s =>
    (s.visits obs call).map (Prod.mk call) ++ historyByCall obs calls (s.perform obs call)

private theorem historyByCall_map_snd (calls : List Call) (s : Session σ) :
    (historyByCall obs calls s).map Prod.snd = history obs calls s := by
  induction calls generalizing s with
  | nil => rfl
  | cons call calls ih =>
      rw [historyByCall, history, List.map_append, ih, List.map_map]
      simp

private theorem historyByCall_audited (calls : List Call) (s : Session (Audited σ)) :
    historyByCall obs calls s.unaudited = historyByCall obs.audited calls s := by
  induction calls generalizing s with
  | nil => rfl
  | cons call calls ih => rw [historyByCall, historyByCall, perform_audited, ih, visits_audited]

section Calls

variable (heard : obs.logger.isSome) (returning : obs.Returning)

private theorem attempt_logsOutcome {act : Action (Audited σ) (Option Failure)} {begun : List Core}
    (hs : s.machine.failure = none) (hact : act.Follows s begun) (call : Call)
    {calls : List Call} {tagged : List (Call × Core)}
    (h : (act.final s).LogsOutcome s.machine.code calls entries tagged
      (verdict call.name (act.run s))) :
    (s.attempt call.name act).2.LogsOutcome s.machine.code calls entries tagged
      (s.attempt call.name act).2.machine.failure := by
  rw [attempt_of_none hs]
  cases hverdict : verdict call.name (act.run s) with
  | none =>
      dsimp only
      rw [hact.2.1, hs, ← hverdict]
      exact h
  | some cause =>
      rw [hverdict] at h
      exact h.stopWith cause

include heard returning

private theorem perform_logsOutcome (hs : s.machine.failure = none) (h : s.Transcribes entries)
    (allNormal : s.AllNormal) {call : Call} {calls : List Call} (hcall : call ∈ calls) :
    (s.perform obs.audited call).LogsOutcome s.machine.code calls entries
      ((s.visits obs.audited call).map (Prod.mk call))
      (s.perform obs.audited call).machine.failure := by
  unfold visits
  rw [hs, Option.isSome_none, if_neg Bool.false_ne_true]
  cases call with
  | step =>
      rw [perform, step]
      by_cases hhalted : s.machine.halted = true
      · simp only [if_pos hhalted, hs]
        exact h.logsOutcome allNormal _ _
      · simp only [if_neg hhalted]
        refine attempt_logsOutcome hs (Action.cycle_follows obs.audited "" s) .step ?_
        have hcycle := Action.cycle_transcribes heard returning h allNormal .step calls
        rw [Call.indent] at hcycle
        rw [Action.final, Exec.run_bind]
        cases hrun : (Action.cycle obs.audited "").run s with
        | error e t =>
            simp only [hrun] at hcycle
            exact hcycle
        | ok u t =>
            simp only [hrun] at hcycle
            obtain ⟨hstop, hallNormal, ht⟩ := hcycle
            refine ⟨[], .sound (List.forall_mem_singleton.mpr hstop) hallNormal, ?_⟩
            rw [List.append_nil]
            exact ht
  | run budget cause =>
      rw [perform, run_snd]
      exact attempt_logsOutcome hs (Action.loop_follows obs.audited cause budget s)
        (.run budget cause) (Action.loop_logsOutcome heard returning h allNormal hcall budget)

/-- Any calls: those after a failure add nothing, so the last call that did anything closes the
log. -/
private theorem performAll_logsOutcome (hs : s.machine.failure = none) (h : s.Transcribes entries)
    (allNormal : s.AllNormal) (calls : List Call) :
    (performAll obs.audited calls s).LogsOutcome s.machine.code calls entries
      (historyByCall obs.audited calls s) (performAll obs.audited calls s).machine.failure := by
  induction calls generalizing s entries with
  | nil =>
      rw [performAll, historyByCall, hs]
      exact h.logsOutcome allNormal _ _
  | cons call calls ih =>
      have hfirst := perform_logsOutcome heard returning hs h allNormal
        (List.mem_cons_self : call ∈ call :: calls)
      have hcode := (perform_leads obs.audited (s := s) (by simp [hs]) call).code
      rw [performAll, historyByCall]
      cases hfailure : (s.perform obs.audited call).machine.failure with
      | some cause =>
          obtain ⟨hall, hbegun⟩ := performAll_of_failure obs.audited hfailure calls
          have hnone : historyByCall obs.audited calls (s.perform obs.audited call) = [] := by
            rw [← historyByCall_map_snd] at hbegun
            exact List.map_eq_nil_iff.mp hbegun
          rw [hall, hnone, List.append_nil]
          exact hfirst
      | none =>
          rw [hfailure] at hfirst
          obtain ⟨last, hfinal, ht⟩ := hfirst
          cases hfinal with
          | sound hcompleted hallNormal =>
              -- only here do later calls begin anything, and the log goes on where it stands
              rw [List.append_nil] at ht
              have hrest := ih hfailure ht hallNormal
              rw [hcode] at hrest
              exact hrest.prepend hcompleted (List.subset_cons_self _ _)

end Calls

end Session

/-- Whatever calls are made on a machine whose logger returns from every call, and whose tracer does
too if it has one, the lines logged are a transcript: for each completed instruction what it left in
the registers, before it for HALT the result, and at the end the failure that stopped the machine if
an instruction was refused or the tracer returned it, but not if it was a fault or the end of a
budget. The machine was left in just one of these ways. -/
theorem log_is_transcript {σ : Type} {plan : Plan σ} {code : Array Instruction} {m : Machine}
    (built : plan.build code = .ok m) (heard : plan.observers.logger.isSome)
    (returning : plan.observers.Returning) (world : σ) (calls : List Call) :
    let obs := plan.observers
    let begun := Session.historyByCall obs calls ⟨m, world⟩
    let exchanges := Session.exchanges obs calls ⟨m, world⟩
    let failure := (Session.performAll obs calls ⟨m, world⟩).machine.failure
    begun.map Prod.snd = Session.history obs calls ⟨m, world⟩ ∧
    (∃ last, FinalEntries code calls begun exchanges failure last) ∧
    ∀ last, FinalEntries code calls begun exchanges failure last →
      loggedLines exchanges = Entry.transcript (Entry.ofBegun code begun ++ last) := by
  intro obs begun exchanges failure
  let s : Session (Audited σ) := Session.audited ⟨m, world⟩
  have hinitial := plan.build_eq_initial built
  have hcode : s.machine.code = code := by
    change m.code = code
    rw [hinitial, Machine.initial]
  have hs : s.machine.failure = none := by
    change m.failure = none
    rw [hinitial, Machine.initial]
  have hstart : s.Transcribes [] := by
    refine ⟨rfl, ?_⟩
    change m.markWidth = 0
    rw [hinitial, Machine.initial]
  have hallNormal : s.AllNormal := List.forall_mem_nil _
  have hlogs := Session.performAll_logsOutcome heard returning hs hstart hallNormal calls
  have hbegun : begun = Session.historyByCall obs.audited calls s :=
    Session.historyByCall_audited calls s
  have hfailure : failure = (Session.performAll obs.audited calls s).machine.failure :=
    congrArg (·.machine.failure) (Session.performAll_audited calls s)
  rw [hcode, ← hbegun, ← hfailure] at hlogs
  obtain ⟨last, hfinal, htranscribes⟩ := hlogs
  refine ⟨Session.historyByCall_map_snd calls _, ⟨last, hfinal⟩, fun other hother => ?_⟩
  rw [hother.unique hfinal]
  exact htranscribes.lines

/-- A plan with a silent logger and a tracer that rejects the second instruction. -/
def rejectingSecond : Plan Unit where
  capacity := 4
  observers :=
    { logger := some fun _ world => (.returned (), world)
      tracer := some fun step _ _ world =>
        (.returned (if step = 2 then some (.plain "rejected") else none), world) }

def loadAndHalt : Array Instruction := #[.ofOpcode .loadc 5, .ofOpcode .halt 0]

/-- A step and a run, the last instruction of which is HALT. The tracer rejects it. -/
theorem log_is_transcript_of_rejected_halt :
    loggedLines (Session.exchanges rejectingSecond.observers [.step, .run 3 .canceled]
      ⟨.initial loadAndHalt 4, ()⟩) =
      ["exec @0 LOADC 5 -- pc:1 sp:0 fp:-1 ep:-1 np:4",
        "\t#    halt @1 result:5",
        "\texec @1 HALT -- pc:2 sp:0 fp:-1 ep:-1 np:4",
        "\t#    halt error: rejected"] := by
  have hbuilt : rejectingSecond.build loadAndHalt = .ok (.initial loadAndHalt 4) := rfl
  have hreturning : rejectingSecond.observers.Returning := by
    constructor
    · rintro _ ⟨⟩ line world
      rfl
    · rintro _ ⟨⟩ step insn snap world
      exact ⟨_, rfl⟩
  obtain ⟨-, -, hlines⟩ := log_is_transcript hbuilt rfl hreturning ()
    [.step, .run 3 .canceled]
  have hlast : (Session.historyByCall rejectingSecond.observers [.step, .run 3 .canceled]
      ⟨.initial loadAndHalt 4, ()⟩).getLast? =
      some (.run 3 .canceled, ⟨⟨1, 0, -1, -1, 4⟩, #[5, 0, 0, 0]⟩) := by decide +kernel
  have hfailed : ∃ x ∈ Session.exchanges rejectingSecond.observers [.step, .run 3 .canceled]
      ⟨.initial loadAndHalt 4, ()⟩, x.reply = .failed (.plain "rejected") := by decide +kernel
  refine (hlines _ (.rejected hlast (by decide +kernel) hfailed)).trans ?_
  decide +kernel

end FrameMachine
