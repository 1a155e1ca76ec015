import FrameMachine.Proofs.Interference
/-!
# The call stack in memory

A machine keeps no stack of calls: three words below each frame link it to the frame it was
called from. Beside a run we keep the stack of calls as a list, pushed by CALL and popped by
RETURN. A disciplined run marks before it calls and leaves the three words of active frames
alone; then the words in memory and the list tell the same story, at any depth.
-/
namespace FrameMachine

/-- An active call: the base of its frame, the return address, and the caller's `fp` and `ep`. -/
structure Frame where
  base : Word
  ret : Word
  fp : Word
  ep : Word
  deriving DecidableEq, Repr, Inhabited

def Frame.words (frame : Frame) : List Word := [frame.base, frame.base - 1, frame.base - 2]

/-- From the given `fp` the words in memory link the frames, innermost first, and end in -1. -/
def Memory.Links (mem : Memory) : Word → List Frame → Prop
  | fp, [] => fp = -1
  | fp, frame :: outer =>
    fp = frame.base ∧ mem.get? frame.base = some frame.ret ∧
      mem.get? (frame.base - 1) = some frame.fp ∧ mem.get? (frame.base - 2) = some frame.ep ∧
      mem.Links frame.fp outer

namespace Core

variable {code : Array Instruction} {core after : Core} {frames : List Frame}

def calls (code : Array Instruction) (core : Core) (frames : List Frame) : List Frame :=
  match core.opcode? code with
  | some .call => ⟨core.regs.sp, core.regs.pc + 1, core.regs.fp, core.regs.ep⟩ :: frames
  | some .ret => frames.tail
  | _ => frames

/-- The instruction at the counter keeps to the discipline of calls. -/
structure Obeys (code : Array Instruction) (core : Core) (frames : List Frame) : Prop where
  marked : core.opcode? code = some .call →
    core.mem.get? (core.regs.sp - 2) = some core.regs.ep ∧
    core.mem.get? (core.regs.sp - 1) = some core.regs.fp ∧
    ∀ frame ∈ frames.head?, frame.base < core.regs.sp - 2
  intact : core.opcode? code ≠ some .call →
    ∀ frame ∈ frames, ∀ addr ∈ frame.words, ¬ core.Writes code addr
  called : core.opcode? code = some .ret → frames ≠ []

instance (code : Array Instruction) (core : Core) (frames : List Frame) :
    Decidable (core.Obeys code frames) :=
  decidable_of_iff
    ((core.opcode? code = some .call →
      core.mem.get? (core.regs.sp - 2) = some core.regs.ep ∧
      core.mem.get? (core.regs.sp - 1) = some core.regs.fp ∧
      ∀ frame ∈ frames.head?, frame.base < core.regs.sp - 2) ∧
    (core.opcode? code ≠ some .call →
      frames.all fun frame => frame.words.all fun addr => ¬ core.Writes code addr) ∧
    (core.opcode? code = some .ret → frames ≠ [])) <| by
    simp only [List.all_eq_true, decide_eq_true_eq]
    exact ⟨fun h => ⟨h.1, h.2.1, h.2.2⟩, fun h => ⟨h.marked, h.intact, h.called⟩⟩

end Core

namespace Memory

variable {mem mem' : Memory} {fp : Word} {frames : List Frame}

private theorem Links.words {frame : Frame} (h : mem.Links fp frames) (hf : frame ∈ frames) :
    mem.get? frame.base = some frame.ret ∧ mem.get? (frame.base - 1) = some frame.fp ∧
      mem.get? (frame.base - 2) = some frame.ep := by
  induction frames generalizing fp with
  | nil => cases hf
  | cons inner outer ih =>
      obtain ⟨_, hret, hfp, hep, houter⟩ := h
      rcases List.mem_cons.mp hf with rfl | hf
      · exact ⟨hret, hfp, hep⟩
      · exact ih houter hf

theorem Links.two_le_base {frame : Frame} (h : mem.Links fp frames) (hf : frame ∈ frames) :
    2 ≤ frame.base := by
  obtain ⟨hret, _, hep⟩ := h.words hf
  have hbase := (covers_of_get? hret).1
  have hlow := (covers_of_get? hep).1
  grind

theorem Links.congr (h : mem.Links fp frames)
    (hsame : ∀ frame ∈ frames, ∀ addr ∈ frame.words, mem'.get? addr = mem.get? addr) :
    mem'.Links fp frames := by
  induction frames generalizing fp with
  | nil => exact h
  | cons frame outer ih =>
      obtain ⟨hfp, hret, hsaved, hep, houter⟩ := h
      obtain ⟨hhere, hrest⟩ := List.forall_mem_cons.mp hsame
      simp only [Frame.words, List.forall_mem_cons] at hhere
      obtain ⟨hret', hsaved', hep', -⟩ := hhere
      exact ⟨hfp, hret'.trans hret, hsaved'.trans hsaved, hep'.trans hep, ih houter hrest⟩

end Memory

namespace Core

variable {code : Array Instruction} {core after : Core} {frames : List Frame}

/-- The invariant of disciplined runs: memory links the frames, and each begins above the base
of the next outer one. -/
structure Threads (core : Core) (frames : List Frame) : Prop where
  links : core.mem.Links core.regs.fp frames
  nested : frames.Pairwise fun inner outer => outer.base < inner.base - 2

private theorem Threads.of_frame (h : core.Threads frames) (hfp : after.regs.fp = core.regs.fp)
    (hintact : ∀ frame ∈ frames, ∀ addr ∈ frame.words, ¬ core.Writes code addr)
    (hsame : ∀ addr, ¬ core.Writes code addr → after.mem.get? addr = core.mem.get? addr) :
    after.Threads frames := by
  refine ⟨?_, h.nested⟩
  rw [hfp]
  exact h.links.congr fun frame hframe addr hword => hsame addr (hintact frame hframe addr hword)

private theorem Threads.base_lt (h : core.Threads frames) {addr : Word}
    (htop : ∀ frame ∈ frames.head?, frame.base < addr) :
    ∀ frame ∈ frames, frame.base < addr := by
  cases frames with
  | nil => nofun
  | cons inner outer =>
      have hinner := htop inner rfl
      refine List.forall_mem_cons.mpr ⟨hinner, fun frame hframe => ?_⟩
      have hbelow := (List.pairwise_cons.mp h.nested).1 frame hframe
      have hbase := h.links.two_le_base (List.mem_cons_self ..)
      grind

private theorem Threads.call {entry : Word} (h : core.Threads frames)
    (hsp : core.mem.get? core.regs.sp = some entry)
    (hep : core.mem.get? (core.regs.sp - 2) = some core.regs.ep)
    (hfp : core.mem.get? (core.regs.sp - 1) = some core.regs.fp)
    (htop : ∀ frame ∈ frames.head?, frame.base < core.regs.sp - 2) :
    Threads
      ⟨{ core.regs with pc := entry, fp := core.regs.sp },
        core.mem.put core.regs.sp (core.regs.pc + 1)⟩
      (⟨core.regs.sp, core.regs.pc + 1, core.regs.fp, core.regs.ep⟩ :: frames) := by
  have hcov := Memory.covers_of_get? hsp
  have hlow := (Memory.covers_of_get? hep).1
  have hbelow := h.base_lt htop
  have h0 := hcov.1
  refine ⟨⟨rfl, Memory.get?_put_self hcov, ?_, ?_, ?_⟩, List.pairwise_cons.mpr ⟨hbelow, h.nested⟩⟩
  · dsimp only
    rw [Memory.get?_put_of_ne (by grind)]
    exact hfp
  · dsimp only
    rw [Memory.get?_put_of_ne (by grind)]
    exact hep
  · refine h.links.congr fun frame hframe addr hword => ?_
    have hlt := hbelow frame hframe
    have hbase := h.links.two_le_base hframe
    simp only [Frame.words, List.mem_cons, List.not_mem_nil, or_false] at hword
    exact Memory.get?_put_of_ne (by grind)

private theorem Threads.ret {frame : Frame} {outer : List Frame}
    (h : core.Threads (frame :: outer)) :
    core.mem.get? core.regs.fp = some frame.ret ∧
    core.mem.get? (core.regs.fp - 2) = some frame.ep ∧
    core.mem.load (core.regs.fp - 1) = frame.fp ∧ core.regs.fp = frame.base := by
  obtain ⟨hbase, hret, hfp, hep, _⟩ := h.links
  rw [hbase]
  exact ⟨hret, hep, Memory.load_of_get? hfp, rfl⟩

private theorem calls_of_opcode {op : Opcode} (h : core.opcode? code = some op) (hcall : op ≠ .call)
    (hret : op ≠ .ret) : core.calls code frames = frames := by
  rw [calls, h]
  split <;> simp_all

theorem Threads.completes (h : core.Threads frames) (hobeys : core.Obeys code frames)
    (hdone : core.Completes code after) : after.Threads (core.calls code frames) := by
  obtain ⟨insn, op, hfetch, hop, heffect⟩ := hdone.effect
  have hopcode : core.opcode? code = some op := (opcode?_eq hfetch).trans hop
  have hwrites (addr : Word) : ¬ core.Writes code addr → ¬ op.Writes insn.arg core addr :=
    fun hnot hw => hnot ⟨insn, op, hfetch, hop, hw⟩
  cases heffect with
  | confined hstill hconf =>
      have hcall : op ≠ .call := by
        rintro rfl
        cases hstill
      have hret : op ≠ .ret := by
        rintro rfl
        cases hstill
      rw [calls_of_opcode hopcode hcall hret]
      have hintact := hobeys.intact (by rw [hopcode]; simpa using hcall)
      exact h.of_frame hconf.fp hintact fun addr hnot => hconf.get? addr (hwrites addr hnot)
  | call hsp =>
      obtain ⟨hep, hfp, htop⟩ := hobeys.marked hopcode
      rw [calls, hopcode]
      exact h.call hsp hep hfp htop
  | enter hfits =>
      rw [calls_of_opcode hopcode nofun nofun]
      exact ⟨h.links, h.nested⟩
  | ret hpc hep hfits =>
      rw [calls, hopcode]
      cases frames with
      | nil => exact absurd rfl (hobeys.called hopcode)
      | cons frame outer =>
          obtain ⟨_, _, hfp, _⟩ := h.ret
          refine ⟨?_, (List.pairwise_cons.mp h.nested).2⟩
          dsimp only
          rw [hfp]
          exact h.links.2.2.2.2
  | refused hsize hlack =>
      rw [calls_of_opcode hopcode nofun nofun]
      have hintact := hobeys.intact (by rw [hopcode]; nofun)
      refine h.of_frame rfl hintact fun addr hnot => ?_
      exact Memory.get?_put_of_ne fun he => hwrites addr hnot he.symm
  | granted hsize hpos hfits =>
      rw [calls_of_opcode hopcode nofun nofun]
      have hintact := hobeys.intact (by rw [hopcode]; nofun)
      refine h.of_frame rfl hintact fun addr hnot => ?_
      exact Memory.get?_put_of_ne fun he => hwrites addr hnot he.symm

private theorem Threads.carryOut_ret {frame : Frame} {outer : List Frame} {insn : Instruction}
    (h : core.Threads (frame :: outer)) (hop : Opcode.ofByte? insn.opcode = some .ret) :
    core.carryOut insn =
      if core.regs.np ≤ frame.ep then
        .error (.refusal (.stackOverflow core.regs.pc Opcode.ret.toByte 0 frame.ep core.regs.np))
          ⟨{ core.regs with pc := frame.ret, ep := frame.ep }, core.mem⟩
      else .ok .next
        ⟨⟨frame.ret, frame.base - 3, frame.fp, frame.ep, core.regs.np⟩, core.mem⟩ := by
  obtain ⟨hret, hep, hfp, hbase⟩ := h.ret
  rw [carryOut_of_opcode hop, Opcode.run_ret]
  simp only [advanced, hret, hep, hfp]
  rw [hbase]

end Core

namespace Session

variable {σ : Type} {obs : Observers σ}

/-- A run of successful steps that keep to the discipline, with the stack of calls beside it. -/
inductive Disciplined (obs : Observers σ) (start : Session σ) : List Frame → Session σ → Prop where
  | start : Disciplined obs start [] start
  | step {frames : List Frame} {s t : Session σ} (run : Disciplined obs start frames s)
      (obeys : s.machine.core.Obeys s.machine.code frames) (completed : s.step obs = (none, t)) :
      Disciplined obs start (s.machine.core.calls s.machine.code frames) t

private theorem Disciplined.next {start s : Session σ} {frames : List Frame}
    (run : Disciplined obs start frames s) (frames' : List Frame)
    (h : s.machine.core.Obeys s.machine.code frames ∧ (s.step obs).1 = none ∧
      s.machine.core.calls s.machine.code frames = frames') :
    Disciplined obs start frames' (s.step obs).2 := by
  obtain ⟨hobeys, hcompleted, rfl⟩ := h
  exact .step run hobeys (Prod.ext hcompleted rfl)

/-- What a step does that begins with RETURN in the given frame. Where the caller's frame has met
the heap it stops with a stack overflow, which only a logger that abandons its task can hide.
Otherwise it completes: the caller's registers are restored, the frame is dropped with its three
words, and the step answers without a failure unless an observer gives it one. -/
def Returns (obs : Observers σ) (s : Session σ) (frame : Frame) : Prop :=
  let core := s.machine.core
  let resumed : Core := ⟨⟨frame.ret, frame.base - 3, frame.fp, frame.ep, core.regs.np⟩, core.mem⟩
  (core.regs.np ≤ frame.ep ∧
    (s.step obs).2.machine.core = ⟨{ core.regs with pc := frame.ret, ep := frame.ep }, core.mem⟩ ∧
    ((s.step obs).1 = some (.stackOverflow core.regs.pc Opcode.ret.toByte 0 frame.ep core.regs.np) ∨
      (s.step obs).1 = some (.exited "step") ∧ ∃ logger line world,
        obs.logger = some logger ∧ (logger line world).1 = .exited)) ∨
  (frame.ep < core.regs.np ∧ core.Completes s.machine.code resumed ∧
    (s.step obs).2.machine.core = resumed ∧ (obs.Approving → (s.step obs).1 = none))

private theorem returns_of_threads {frame : Frame} {outer : List Frame} {s : Session σ}
    (hhalted : s.machine.halted = false) (hf : s.machine.failure = none)
    (hthreads : s.machine.core.Threads (frame :: outer))
    (hop : s.machine.core.opcode? s.machine.code = some .ret) : s.Returns obs frame := by
  unfold Returns
  intro core resumed
  obtain ⟨insn, hfetch, hret⟩ := Option.bind_eq_some_iff.mp hop
  have hrun := hthreads.carryOut_ret hret
  have hcore := (Action.cycle_attempts obs "" s).2.2.eq_of_carryOut hfetch
  rw [← step_core_of_running obs hhalted hf] at hcore
  by_cases hcollides : core.regs.np ≤ frame.ep
  · rw [if_pos hcollides] at hrun
    rw [hrun] at hcore
    refine .inl ⟨hcollides, hcore, ?_⟩
    rw [step_of_running obs hhalted hf, Action.run_cycle, hfetch]
    dsimp only
    rw [hrun]
    dsimp only
    cases hstop : (Action.halt obs "" (.stackOverflow core.regs.pc Opcode.ret.toByte 0 frame.ep
        core.regs.np) : Action σ Unit).run (Action.withCore s _) with
    | ok u t => exact absurd hstop (Action.halt_ne_ok _ _ _ _)
    | error e t =>
        rcases Action.halt_abrupt hstop with rfl | ⟨rfl, hexit⟩
        · exact .inl rfl
        · exact .inr ⟨rfl, hexit⟩
  · rw [if_neg hcollides] at hrun
    rw [hrun] at hcore
    refine .inr ⟨Int64.not_le.mp hcollides, ⟨insn, .next, hfetch, hrun⟩, hcore, ?_⟩
    intro happroving
    have hstep := step_of_fetched happroving hhalted hf hfetch
    rw [hrun] at hstep
    exact hstep.1

private theorem Disciplined.threads {start s : Session σ} {frames : List Frame}
    (h : Disciplined obs start frames s) (hfp : start.machine.core.regs.fp = -1) :
    s.machine.code = start.machine.code ∧ s.machine.failure = start.machine.failure ∧
      s.machine.core.Threads frames := by
  induction h with
  | start => exact ⟨rfl, rfl, hfp, .nil⟩
  | @step frames s t _ obeys completed ih =>
      obtain ⟨hcode, hfailure, hthreads⟩ := ih
      obtain ⟨_, _, hcycle⟩ := cycle_of_step obs completed
      obtain ⟨hcode', hfailure', _⟩ := Action.cycle_attempts obs "" s
      rw [Action.final, hcycle] at hcode' hfailure'
      exact ⟨hcode'.trans hcode, hfailure'.trans hfailure,
        hthreads.completes obeys (Action.completes_of_cycle hcycle)⟩

end Session

/-- In every state of a disciplined run the frames threaded through memory are the stack of calls:
`fp` is the base of the innermost call, the three words of each call hold its return address and
its caller's registers, and the saved `fp` is the base of the next outer call, or -1. A RETURN
that comes next takes back the innermost call or stops with a stack overflow. -/
theorem frame_chain_is_call_stack {σ : Type} (plan : Plan σ) (code : Array Instruction)
    (m : Machine) (built : plan.build code = .ok m) (world : σ) (frames : List Frame)
    (s : Session σ)
    (run : Session.Disciplined plan.observers ⟨m, world⟩ frames s) :
    s.machine.core.mem.Links s.machine.core.regs.fp frames ∧
    (s.machine.halted = false → s.machine.core.opcode? code = some .ret →
      ∀ frame outer, frames = frame :: outer → s.Returns plan.observers frame) := by
  have hfp : m.core.regs.fp = -1 := by rw [plan.core_of_build built]
  have hcode : m.code = code := by rw [plan.build_eq_initial built, Machine.initial]
  have hfailure : m.failure = none := by rw [plan.build_eq_initial built, Machine.initial]
  obtain ⟨hcode', hfailure', hthreads⟩ := run.threads hfp
  refine ⟨hthreads.links, ?_⟩
  rintro hhalted hop frame outer rfl
  have hop' : s.machine.core.opcode? s.machine.code = some .ret := by
    rw [hcode', ← hop]
    exact congrArg s.machine.core.opcode? hcode
  exact Session.returns_of_threads hhalted (hfailure'.trans hfailure) hthreads hop'

/-- Calls a subroutine that calls another, which returns at once. -/
def nestedCalls : Array Instruction :=
  #[.ofOpcode .mark 0, .ofOpcode .loadc 4, .ofOpcode .call 0, .ofOpcode .halt 0,
    .ofOpcode .mark 0, .ofOpcode .loadc 7, .ofOpcode .call 0, .ofOpcode .ret 0]

theorem frame_chain_of_nested_calls :
    let plan : Plan Unit := ⟨8, {}⟩
    let frames : List Frame := [⟨5, 7, 2, -1⟩, ⟨2, 3, -1, -1⟩]
    plan.build nestedCalls = .ok (.initial nestedCalls 8) ∧
    ∃ s, Session.Disciplined plan.observers ⟨.initial nestedCalls 8, ()⟩ frames s ∧
      s.machine.core.mem.Links s.machine.core.regs.fp frames ∧
      s.Returns plan.observers ⟨5, 7, 2, -1⟩ ∧ (s.step plan.observers).1 = none ∧
      (s.step plan.observers).2.machine.core.regs = ⟨7, 2, 2, -1, 8⟩ := by
  intro plan frames
  have hbuilt : plan.build nestedCalls = .ok (.initial nestedCalls 8) := rfl
  have hstart : Session.Disciplined plan.observers ⟨.initial nestedCalls 8, ()⟩ [] _ := .start
  have hmark := hstart.next [] (by decide +kernel)
  have hentry := hmark.next [] (by decide +kernel)
  have hcall := hentry.next [⟨2, 3, -1, -1⟩] (by decide +kernel)
  have hmark' := hcall.next [⟨2, 3, -1, -1⟩] (by decide +kernel)
  have hentry' := hmark'.next [⟨2, 3, -1, -1⟩] (by decide +kernel)
  have hcall' := hentry'.next frames (by decide +kernel)
  obtain ⟨hlinks, hreturns⟩ := frame_chain_is_call_stack plan nestedCalls _ hbuilt () _ _ hcall'
  have hreturns := hreturns (by decide +kernel) (by decide +kernel) _ _ rfl
  refine ⟨hbuilt, _, hcall', hlinks, hreturns, ?_⟩
  -- the heap is empty, so the caller's frame cannot have met it
  rcases hreturns with ⟨hcollides, -⟩ | ⟨-, -, hcore, hanswer⟩
  · exact absurd hcollides (by decide +kernel)
  · refine ⟨hanswer Observers.approving_empty, ?_⟩
    rw [hcore]
    decide +kernel

end FrameMachine
