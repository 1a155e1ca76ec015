import FrameMachine.Proofs.ListStack
import FrameMachine.Proofs.Requests
import FrameMachine.Proofs.Shortcuts
/-!
# Activations on lists

The instructions that call, enter and leave a procedure are given a meaning on the list of words
that make up the stack, beside the frame pointer and the frame's end. A procedure can then be
followed from its entry to its return without a look at memory: what lies below its frame is the
rest of the list, and stays.
-/
namespace FrameMachine

/-- The state of a program as far as its procedures see it. -/
structure View where
  pc : Nat
  fp : Word
  ep : Word
  values : List Word

/-- The core is in this state, with all of its memory above the stack free for it. -/
structure Core.Shows (room : Nat) (view : View) (core : Core) : Prop where
  stack : core.Stacks room view.values
  pc : core.regs.pc = .ofNat view.pc
  fp : core.regs.fp = view.fp
  ep : core.regs.ep = view.ep
  np : core.regs.np = .ofNat room

/-- So many instructions were carried out one after the other, and none of them was HALT. -/
inductive Core.Strides (code : Array Instruction) : Nat → Core → Core → Prop where
  | rest (core : Core) : Strides code 0 core core
  | step {k : Nat} {insn : Instruction} {before middle after : Core}
      (fetched : before.fetch? code = some insn)
      (carried : before.carryOut insn = .ok .next middle) (strides : Strides code k middle after) :
      Strides code (k + 1) before after

/-- From every core in the first state, so many instructions lead to one in the second. -/
def View.Reaches (code : Array Instruction) (room k : Nat) (view later : View) : Prop :=
  code.size < 2 ^ 63 → room < 2 ^ 63 → ∀ core : Core, core.Shows room view →
    ∃ after, core.Strides code k after ∧ after.Shows room later

theorem Word.ofNat_lt_ofNat {a b : Nat} (ha : a < 2 ^ 63) (hb : b < 2 ^ 63) :
    Int64.ofNat a < .ofNat b ↔ a < b := by
  rw [Int64.lt_iff_toInt_lt, Int64.toInt_ofNat_of_lt ha, Int64.toInt_ofNat_of_lt hb]
  omega

theorem Word.ofNat_add_sub (a b : Nat) : Int64.ofNat (a + b) - .ofNat b = .ofNat a := by
  rw [Int64.ofNat_add]
  exact Int64.add_sub_cancel ..

namespace Memory

variable {mem : Memory} {locals rest values : List Word} {v w : Word}

private theorem Piles.of_append (h : mem.Piles (locals ++ rest)) : mem.Piles rest := by
  induction locals with
  | nil => exact h
  | cons v locals ih => exact ih h.2

theorem Piles.get?_cons (h : mem.Piles (w :: rest)) (hsize : mem.size < 2 ^ 63) :
    mem.get? (.ofNat rest.length) = some w := by
  have hlt := (Array.getElem?_eq_some_iff.mp h.1).1
  rw [get?_ofNat (by omega), h.1]

private theorem Piles.put (h : mem.Piles values) (hroom : values.length < mem.size)
    (hsize : mem.size < 2 ^ 63) : (mem.put (.ofNat values.length) w).Piles (w :: values) := by
  rw [put_ofNat (by omega)]
  exact h.push hroom

private theorem Piles.put_append (h : mem.Piles (locals ++ v :: rest)) (hsize : mem.size < 2 ^ 63) :
    (mem.put (.ofNat rest.length) w).Piles (locals ++ w :: rest) := by
  have hlength := h.of_append.length_le
  rw [List.length_cons] at hlength
  induction locals with
  | nil => exact h.2.put hlength hsize
  | cons u locals ih =>
      rw [List.cons_append] at h ⊢
      refine ⟨?_, ih h.2⟩
      have hmoved : rest.length ≠ (locals ++ v :: rest).length := by
        rw [List.length_append, List.length_cons]
        omega
      rw [put_ofNat (by omega), show (locals ++ w :: rest).length = (locals ++ v :: rest).length by
        simp, Array.getElem?_setIfInBounds_ne hmoved, h.1]

end Memory

namespace Core

variable {code : Array Instruction} {j k : Nat} {before middle after : Core}

private theorem Strides.trans (h : before.Strides code j middle)
    (h' : middle.Strides code k after) :
    before.Strides code (j + k) after := by
  induction h with
  | rest core => rwa [Nat.zero_add]
  | @step j _ _ _ _ fetched carried _ ih =>
      rw [Nat.add_right_comm]
      exact .step fetched carried (ih h')

theorem Shows.pc_add_one {room : Nat} {view : View} {core : Core} (h : core.Shows room view) :
    core.regs.pc + 1 = .ofNat (view.pc + 1) := by
  rw [h.pc, Int64.ofNat_add]
  rfl

theorem Shows.fetch? {room : Nat} {view : View} {core : Core} (h : core.Shows room view)
    (hpc : view.pc < 2 ^ 63) (code : Array Instruction) : core.fetch? code = code[view.pc]? := by
  rw [Core.fetch?, h.pc, if_pos (Word.ofNat_nonneg hpc), Int64.toNatClampNeg_ofNat_of_lt hpc]

private theorem Stacks.covers_sp_add_one {room : Nat} {values : List Word} {core : Core}
    (h : core.Stacks room values) (hroom : room < 2 ^ 63) (hfits : values.length < room) :
    core.mem.Covers (core.regs.sp + 1) := by
  rw [h.sp_add_one, Memory.covers_ofNat (by omega), h.size]
  exact hfits

private theorem Stacks.pushed {room : Nat} {values : List Word} {core : Core} {w : Word}
    (h : core.Stacks room values) (hroom : room < 2 ^ 63) (hfits : values.length < room) :
    (core.pushed w).Stacks room (w :: values) := by
  have hsize := h.size
  refine ⟨(Memory.size_put ..).trans hsize, ?_, ?_⟩
  · rw [List.length_cons, Word.ofNat_succ_sub_one]
    exact h.sp_add_one
  · rw [Core.pushed, h.sp_add_one]
    exact h.piles.put (by omega) (by omega)

private theorem moving_of_get? {core : Core} {src dst w : Word} (hsrc : core.mem.get? src = some w)
    (hdst : core.mem.Covers dst) (top : Word) :
    core.moving src dst top =
      .ok .next ⟨{ core.regs with sp := top }, core.mem.put dst w⟩ := by
  rw [moving, hsrc]
  exact if_pos hdst

private theorem frame_of_stackOp {insn : Instruction} {op : StackOp} {flow : Flow} {core : Core}
    (h : insn.stackOp? = some op) (hrun : core.carryOut insn = .ok flow after) :
    after.regs.fp = core.regs.fp ∧ after.regs.ep = core.regs.ep ∧
      after.regs.np = core.regs.np := by
  obtain ⟨opcode, hopcode, hmeaning⟩ := Option.bind_eq_some_iff.mp h
  obtain ⟨_, hsame, heffect⟩ := effect_of_carryOut hrun
  cases hopcode.symm.trans hsame
  cases heffect with
  | confined _ hconf => exact ⟨hconf.fp, hconf.ep, hconf.np⟩
  | _ => cases hmeaning

end Core

namespace View

variable {code : Array Instruction} {room j k pc : Nat} {fp ep : Word}
  {values below locals rest outer : List Word} {v w arg : Word} {insn : Instruction}

theorem Reaches.trans {view middle later : View} (h : view.Reaches code room j middle)
    (h' : middle.Reaches code room k later) : view.Reaches code room (j + k) later := by
  intro hcode hroom core hshows
  obtain ⟨between, hfirst, hbetween⟩ := h hcode hroom core hshows
  obtain ⟨after, hsecond, hafter⟩ := h' hcode hroom between hbetween
  exact ⟨after, hfirst.trans hsecond, hafter⟩

private theorem Reaches.of_carryOut {later : View} (hinsn : code[pc]? = some insn)
    (h : room < 2 ^ 63 → ∀ core : Core, core.Shows room ⟨pc, fp, ep, values⟩ →
      ∃ after, core.carryOut insn = .ok .next after ∧ after.Shows room later) :
    Reaches code room 1 ⟨pc, fp, ep, values⟩ later := by
  intro hcode hroom core hshows
  obtain ⟨after, hcarried, hafter⟩ := h hroom core hshows
  have hpc : pc < 2 ^ 63 := Nat.lt_trans (Array.getElem?_eq_some_iff.mp hinsn).1 hcode
  exact ⟨after, .step ((hshows.fetch? hpc code).trans hinsn) hcarried (.rest after), hafter⟩

private theorem Reaches.stackOp {op : StackOp} {next : List Word} (hinsn : code[pc]? = some insn)
    (hop : insn.stackOp? = some op) (hnext : op.apply room values = .ok next) :
    Reaches code room 1 ⟨pc, fp, ep, values⟩ ⟨pc + 1, fp, ep, next⟩ := by
  refine .of_carryOut hinsn fun hroom core hshows => ?_
  have hrenders := op.exec_renders hshows.stack.advanced hroom
  rw [hnext] at hrenders
  generalize hrun : op.exec.run core.advanced = r at hrenders
  cases hrenders with
  | @done _ after hheld hpc =>
      have hcarried : core.carryOut insn = .ok .next after := by
        rw [Core.carryOut_of_stackOp hop, Exec.run_bind, hrun]
        rfl
      obtain ⟨hfp, hep, hnp⟩ := Core.frame_of_stackOp hop hcarried
      exact ⟨after, hcarried, hheld, hpc.trans hshows.pc_add_one, hfp.trans hshows.fp,
        hep.trans hshows.ep, hnp.trans hshows.np⟩

theorem Reaches.loadc (hinsn : code[pc]? = some (.ofOpcode .loadc w))
    (hfits : values.length < room) :
    Reaches code room 1 ⟨pc, fp, ep, values⟩ ⟨pc + 1, fp, ep, w :: values⟩ :=
  .stackOp hinsn rfl (if_pos hfits)

theorem Reaches.binary {f : Word → Word → Option Word} {a b : Word}
    (hinsn : code[pc]? = some insn) (hop : insn.stackOp? = some (.binary f))
    (hf : f a b = some w) :
    Reaches code room 1 ⟨pc, fp, ep, b :: a :: below⟩ ⟨pc + 1, fp, ep, w :: below⟩ := by
  apply Reaches.stackOp hinsn hop
  rw [StackOp.apply, hf]

theorem Reaches.jumpz {target : Nat}
    (hinsn : code[pc]? = some (.ofOpcode .jumpz (.ofNat target))) :
    Reaches code room 1 ⟨pc, fp, ep, w :: below⟩
      ⟨if w = 0 then target else pc + 1, fp, ep, below⟩ := by
  refine .of_carryOut hinsn fun hroom core hshows => ?_
  have hw : core.advanced.mem.get? core.advanced.regs.sp = some w := hshows.stack.get?_sp hroom
  refine ⟨⟨{ core.regs with
    pc := if w = 0 then .ofNat target else core.regs.pc + 1, sp := core.regs.sp - 1 }, core.mem⟩,
    ?_, ⟨hshows.stack.size, ?_, hshows.stack.piles.2⟩, ?_, hshows.fp, hshows.ep, hshows.np⟩
  · rw [Core.carryOut_ofOpcode, Opcode.exec, Exec.run_regs_bind]
    exact Exec.run_read_bind hw _
  · rw [hshows.stack.sp_of_cons]
  · rw [hshows.pc_add_one]
    split <;> rfl

theorem Reaches.mark (hinsn : code[pc]? = some (.ofOpcode .mark arg))
    (hfits : values.length + 1 < room) :
    Reaches code room 1 ⟨pc, fp, ep, values⟩ ⟨pc + 1, fp, ep, fp :: ep :: values⟩ := by
  refine .of_carryOut hinsn fun hroom core hshows => ?_
  have hstack : core.Stacks room values := hshows.stack
  have hsize := hstack.size
  have hlow : core.regs.sp + 1 = .ofNat values.length := hstack.sp_add_one
  have hhigh : core.regs.sp + 2 = .ofNat (values.length + 1) := by
    rw [Int64.ofNat_add, ← hlow, Int64.add_assoc]
    rfl
  let saved := core.mem.put (core.regs.sp + 1) core.regs.ep
  have hcarried : core.carryOut (.ofOpcode .mark arg) =
      .ok .next ⟨{ core.advanced.regs with sp := core.regs.sp + 2 },
        saved.put (core.regs.sp + 2) core.regs.fp⟩ := by
    have hlower : core.advanced.mem.Covers (core.regs.sp + 1) := by
      rw [Core.mem_advanced, hlow, Memory.covers_ofNat (by omega)]
      omega
    have hupper : saved.Covers (core.regs.sp + 2) := by
      rw [Memory.covers_congr (Memory.size_put ..), hhigh, Memory.covers_ofNat (by omega)]
      omega
    rw [Core.carryOut_ofOpcode, Opcode.exec, Exec.run_regs_bind]
    exact (Exec.run_write_bind hlower _).trans (Exec.run_write_bind hupper _)
  refine ⟨_, hcarried, ⟨?_, ?_, ?_⟩, hshows.pc_add_one, hshows.fp, hshows.ep, hshows.np⟩
  · simp only [saved, Memory.size_put, hsize]
  · rw [hhigh, List.length_cons, List.length_cons, Word.ofNat_succ_sub_one]
  · have hpiles : saved.Piles (core.regs.ep :: values) := by
      simp only [saved, hlow]
      exact hstack.piles.put (by omega) (by omega)
    have hsaved : saved.size = room := (Memory.size_put ..).trans hsize
    rw [← show core.regs.fp = fp from hshows.fp, ← show core.regs.ep = ep from hshows.ep, hhigh]
    exact hpiles.put (by rw [List.length_cons]; omega) (by omega)

theorem Reaches.call {entry : Nat} (hinsn : code[pc]? = some (.ofOpcode .call arg)) :
    Reaches code room 1 ⟨pc, fp, ep, .ofNat entry :: below⟩
      ⟨entry, .ofNat below.length, ep, .ofNat (pc + 1) :: below⟩ := by
  refine .of_carryOut hinsn fun hroom core hshows => ?_
  have hstack : core.Stacks room (.ofNat entry :: below) := hshows.stack
  have hsize := hstack.size
  have hsp := hstack.sp_of_cons
  have hlength : below.length < core.mem.size := hstack.piles.length_le
  have hcarried : core.carryOut (.ofOpcode .call arg) =
      .ok .next ⟨{ core.regs with pc := .ofNat entry, fp := core.regs.sp },
        core.mem.put core.regs.sp (core.regs.pc + 1)⟩ := by
    rw [Core.carryOut_ofOpcode, Opcode.run_call, Core.mem_advanced, Core.sp_advanced,
      hstack.get?_sp hroom]
    rfl
  refine ⟨_, hcarried, ⟨?_, ?_, ?_⟩, rfl, hsp, hshows.ep, hshows.np⟩
  · rw [Memory.size_put, hsize]
  · rw [hsp, List.length_cons, Word.ofNat_succ_sub_one]
  · rw [hsp, hshows.pc_add_one]
    exact hstack.piles.2.put hlength (by omega)

theorem Reaches.enter {n : Nat} (hinsn : code[pc]? = some (.ofOpcode .enter (.ofNat n)))
    (hfits : below.length + n < room) :
    Reaches code room 1 ⟨pc, fp, ep, w :: below⟩
      ⟨pc + 1, fp, .ofNat (below.length + n), w :: below⟩ := by
  refine .of_carryOut hinsn fun hroom core hshows => ?_
  have hextent : core.regs.sp + .ofNat n = .ofNat (below.length + n) := by
    rw [hshows.stack.sp_of_cons, Int64.ofNat_add]
  have hlt : ¬ core.regs.np ≤ core.regs.sp + .ofNat n := by
    rw [Int64.not_le, hshows.np, hextent, Word.ofNat_lt_ofNat (by omega) hroom]
    exact hfits
  have hcarried : core.carryOut (.ofOpcode .enter (.ofNat n)) =
      .ok .next ⟨{ core.advanced.regs with ep := core.regs.sp + .ofNat n }, core.mem⟩ :=
    (Core.carryOut_enter (Opcode.ofByte?_toByte .enter) core).trans (if_neg hlt)
  have hstack := hshows.stack
  exact ⟨_, hcarried, ⟨hstack.size, hstack.sp, hstack.piles⟩, hshows.pc_add_one, hshows.fp,
    hextent, hshows.np⟩

theorem Reaches.loadr (locals : List Word) (hinsn : code[pc]? = some (.ofOpcode .loadr arg))
    (haddr : fp + arg = .ofNat rest.length) (hfits : (locals ++ w :: rest).length < room) :
    Reaches code room 1 ⟨pc, fp, ep, locals ++ w :: rest⟩
      ⟨pc + 1, fp, ep, w :: (locals ++ w :: rest)⟩ := by
  refine .of_carryOut hinsn fun hroom core hshows => ?_
  have hstack : core.Stacks room (locals ++ w :: rest) := hshows.stack
  have hsize := hstack.size
  have hw : core.advanced.mem.get? (core.regs.fp + arg) = some w := by
    rw [show core.regs.fp = fp from hshows.fp, haddr]
    exact hstack.piles.of_append.get?_cons (by omega)
  have hcarried : core.carryOut (.ofOpcode .loadr arg) = .ok .next (core.advanced.pushed w) := by
    rw [Core.carryOut_loadr, Core.fetching, hw]
    exact if_pos (hstack.covers_sp_add_one hroom hfits)
  exact ⟨_, hcarried, hstack.advanced.pushed hroom hfits, hshows.pc_add_one, hshows.fp, hshows.ep,
    hshows.np⟩

/-- STORER copies the top to a word of the frame. The slot above the top is used on the way. -/
theorem Reaches.storer (locals : List Word) (hinsn : code[pc]? = some (.ofOpcode .storer arg))
    (haddr : fp + arg = .ofNat rest.length) (hfits : (w :: (locals ++ v :: rest)).length < room) :
    Reaches code room 1 ⟨pc, fp, ep, w :: (locals ++ v :: rest)⟩
      ⟨pc + 1, fp, ep, w :: (locals ++ w :: rest)⟩ := by
  refine .of_carryOut hinsn fun hroom core hshows => ?_
  have hstack : core.Stacks room (w :: (locals ++ v :: rest)) := hshows.stack
  let scratch := core.advanced.pushed (core.regs.fp + arg)
  have hscratch : scratch.Stacks room ((core.regs.fp + arg) :: w :: (locals ++ v :: rest)) :=
    hstack.advanced.pushed hroom hfits
  have hsize : scratch.mem.size < 2 ^ 63 := by
    rw [hscratch.size]
    exact hroom
  have hplace : core.regs.fp + arg = .ofNat rest.length := by
    rw [show core.regs.fp = fp from hshows.fp, haddr]
  have hframe : scratch.mem.Piles (((core.regs.fp + arg) :: w :: locals) ++ v :: rest) :=
    hscratch.piles
  have htop : scratch.mem.get? core.regs.sp = some w := by
    rw [hstack.sp_of_cons]
    exact hscratch.piles.2.get?_cons hsize
  have hcovers : scratch.mem.Covers (core.regs.fp + arg) := by
    rw [hplace]
    exact Memory.covers_of_get? (hframe.of_append.get?_cons hsize)
  have hcarried : core.carryOut (.ofOpcode .storer arg) =
      .ok .next ⟨{ scratch.regs with sp := core.regs.sp },
        scratch.mem.put (core.regs.fp + arg) w⟩ := by
    rw [Core.carryOut_storer, if_pos (hstack.covers_sp_add_one hroom hfits)]
    exact Core.moving_of_get? htop hcovers _
  refine ⟨_, hcarried, ⟨?_, ?_, ?_⟩, hshows.pc_add_one, hshows.fp, hshows.ep, hshows.np⟩
  · rw [Memory.size_put, hscratch.size]
  · rw [hstack.sp, List.length_cons, List.length_cons, List.length_append, List.length_append]
    rfl
  · rw [hplace]
    exact (hframe.put_append hsize).2

theorem Reaches.storea (locals : List Word)
    (hinsn : code[pc]? = some (.ofOpcode .storea (.ofNat rest.length))) :
    Reaches code room 1 ⟨pc, fp, ep, w :: (locals ++ v :: rest)⟩
      ⟨pc + 1, fp, ep, w :: (locals ++ w :: rest)⟩ := by
  refine .of_carryOut hinsn fun hroom core hshows => ?_
  have hstack : core.advanced.Stacks room (w :: (locals ++ v :: rest)) := hshows.stack.advanced
  have hsize : core.advanced.mem.size < 2 ^ 63 := by
    rw [hstack.size]
    exact hroom
  have hframe : core.advanced.mem.Piles ((w :: locals) ++ v :: rest) := hstack.piles
  have hcarried : core.carryOut (.ofOpcode .storea (.ofNat rest.length)) =
      .ok .next ⟨{ core.advanced.regs with sp := core.regs.sp },
        core.advanced.mem.put (.ofNat rest.length) w⟩ := by
    rw [Core.carryOut_storea]
    exact Core.moving_of_get? (hstack.get?_sp hroom)
      (Memory.covers_of_get? (hframe.of_append.get?_cons hsize)) _
  refine ⟨_, hcarried, ⟨?_, ?_, hframe.put_append hsize⟩, hshows.pc_add_one, hshows.fp, hshows.ep,
    hshows.np⟩
  · rw [Memory.size_put, hstack.size]
  · rw [hshows.stack.sp, List.length_cons, List.length_cons, List.length_append, List.length_append]
    rfl

/-- RETURN drops the frame down to the word below the three that link it to its caller. -/
theorem Reaches.ret (locals : List Word) {target : Nat} {fp' ep' : Word}
    (hinsn : code[pc]? = some (.ofOpcode .ret arg)) (hfits : ep' < .ofNat room) :
    Reaches code room 1
      ⟨pc, .ofNat (outer.length + 3), ep, locals ++ .ofNat target :: fp' :: ep' :: w :: outer⟩
      ⟨target, fp', ep', w :: outer⟩ := by
  refine .of_carryOut hinsn fun hroom core hshows => ?_
  have hframe : core.advanced.mem.Piles (.ofNat target :: fp' :: ep' :: w :: outer) :=
    hshows.stack.piles.of_append
  have hsize : core.advanced.mem.size < 2 ^ 63 := by
    rw [hshows.stack.advanced.size]
    exact hroom
  have hbase : core.advanced.regs.fp = .ofNat (outer.length + 3) := hshows.fp
  have htarget : core.advanced.mem.get? core.advanced.regs.fp = some (.ofNat target) := by
    rw [hbase]
    exact hframe.get?_cons hsize
  have hep : core.advanced.mem.get? (core.advanced.regs.fp - 2) = some ep' := by
    rw [hbase, show Int64.ofNat (outer.length + 3) - 2 = .ofNat (outer.length + 1) from
      Word.ofNat_add_sub (outer.length + 1) 2]
    exact hframe.2.2.get?_cons hsize
  have hfp : core.advanced.mem.load (core.advanced.regs.fp - 1) = fp' := by
    rw [hbase, Word.ofNat_succ_sub_one]
    exact Memory.load_of_get? (hframe.2.get?_cons hsize)
  have hcarried : core.carryOut (.ofOpcode .ret arg) =
      .ok .next ⟨⟨.ofNat target, core.regs.fp - 3, fp', ep', core.regs.np⟩, core.mem⟩ := by
    rw [Core.carryOut_ofOpcode, Opcode.run_ret, htarget]
    dsimp only
    rw [hep]
    dsimp only
    rw [if_neg (Int64.not_le.mpr (hshows.np ▸ hfits)), hfp]
    rfl
  refine ⟨_, hcarried, ⟨hshows.stack.size, ?_, hframe.2.2.2⟩, rfl, rfl, rfl, hshows.np⟩
  rw [List.length_cons, Word.ofNat_succ_sub_one, ← Word.ofNat_add_sub outer.length 3]
  exact congrArg (· - 3) hbase

end View

namespace Core

variable {code : Array Instruction} {room pc : Nat} {fp ep : Word} {values below : List Word}
  {core : Core} {w : Word}

theorem Shows.alloc (h : core.Shows room ⟨pc, fp, ep, values⟩)
    (hw : core.mem[values.length]? = some w) :
    ∃ after, core.carryOut (.ofOpcode .alloc 1) = .ok .next after ∧
      after.Shows room ⟨pc + 1, fp, ep, w :: values⟩ := by
  have hcarried : core.carryOut (.ofOpcode .alloc 1) =
      .ok .next ⟨{ core.advanced.regs with sp := core.regs.sp + 1 }, core.mem⟩ := by
    rw [carryOut_ofOpcode]
    rfl
  refine ⟨_, hcarried, ⟨h.stack.size, ?_, hw, h.stack.piles⟩, h.pc_add_one, h.fp, h.ep, h.np⟩
  rw [List.length_cons, Word.ofNat_succ_sub_one]
  exact h.stack.sp_add_one

theorem Shows.enter_refused {n : Nat} (h : core.Shows room ⟨pc, fp, ep, w :: below⟩)
    (hover : room ≤ below.length + n) (hsmall : below.length + n < 2 ^ 63) :
    core.carryOut (.ofOpcode .enter (.ofNat n)) =
      .error (.refusal (.stackOverflow (.ofNat pc) Opcode.enter.toByte (.ofNat n)
        (.ofNat (below.length + n)) (.ofNat room))) core.advanced := by
  have hextent : core.regs.sp + .ofNat n = .ofNat (below.length + n) := by
    rw [h.stack.sp_of_cons, Int64.ofNat_add]
  have hle : core.regs.np ≤ core.regs.sp + .ofNat n := by
    rw [h.np, hextent, ← Int64.not_lt, Word.ofNat_lt_ofNat hsmall (by omega)]
    omega
  have hcarried : core.carryOut (.ofOpcode .enter (.ofNat n)) =
      .error (.refusal (.stackOverflow core.regs.pc Opcode.enter.toByte (.ofNat n)
        (core.regs.sp + .ofNat n) core.regs.np)) core.advanced :=
    (carryOut_enter (Opcode.ofByte?_toByte .enter) core).trans (if_pos hle)
  rw [hcarried, show core.regs.pc = .ofNat pc from h.pc, hextent, h.np]

end Core

namespace Session

variable {σ : Type} {obs : Observers σ} {code : Array Instruction} {core after : Core}
  {s : Session σ} {insn : Instruction}

structure Stands (code : Array Instruction) (core : Core) (s : Session σ) : Prop where
  code : s.machine.code = code
  core : s.machine.core = core
  running : s.machine.halted = false
  failure : s.machine.failure = none

private theorem Stands.run_stride (h : s.Stands code core) (approving : obs.Approving)
    (hfetch : core.fetch? code = some insn) (hcarried : core.carryOut insn = .ok .next after)
    (budget : Nat) (cause : Failure) :
    ∃ t : Session σ, t.Stands code after ∧
      s.run obs (budget + 1) cause = t.run obs budget cause := by
  obtain ⟨rfl, rfl, hrunning, hfailure⟩ := h
  have hcycled : s.machine.unmarked.cycled =
      .ok () (s.machine.unmarked.completed .next after) :=
    Machine.cycled_of_carryOut hfetch hcarried
  obtain ⟨t, ht, hrun⟩ := run_of_cycled_ok approving hrunning hfailure hcycled budget cause
  have hsame : t.machine.unmarked = (s.machine.completed .next after).unmarked := ht
  have hcode := congrArg Machine.code hsame
  have hhalted : t.machine.halted = (s.machine.halted || false) := Machine.halted_of_unmarked hsame
  refine ⟨t, ⟨hcode, Machine.core_of_unmarked hsame, ?_, ?_⟩, hrun⟩
  · rw [hhalted, hrunning, Bool.or_false]
  · exact (Machine.failure_of_unmarked hsame).trans hfailure

theorem Stands.run_strides {k : Nat} (h : s.Stands code core) (approving : obs.Approving)
    (hstrides : core.Strides code k after) (budget : Nat) (cause : Failure) :
    ∃ t : Session σ, t.Stands code after ∧
      s.run obs (budget + k) cause = t.run obs budget cause := by
  induction hstrides generalizing s with
  | rest core => exact ⟨s, h, rfl⟩
  | step hfetch hcarried _ ih =>
      obtain ⟨t, ht, hrun⟩ := h.run_stride approving hfetch hcarried _ cause
      obtain ⟨u, hu, hrest⟩ := ih ht
      exact ⟨u, hu, hrun.trans hrest⟩

theorem Stands.run_halt (h : s.Stands code core) (approving : obs.Approving) {arg : Word}
    (hfetch : core.fetch? code = some (.ofOpcode .halt arg)) (budget : Nat) (cause : Failure) :
    ∃ t : Session σ, s.run obs (budget + 1) cause = (.ok core.result, t) ∧
      t.machine.core = core.advanced ∧ t.machine.halted = true := by
  obtain ⟨rfl, rfl, hrunning, hfailure⟩ := h
  have hcarried : s.machine.core.carryOut (.ofOpcode .halt arg) =
      .ok .halt s.machine.core.advanced := Core.carryOut_ofOpcode .halt arg s.machine.core
  have hcycled : s.machine.unmarked.cycled =
      .ok () (s.machine.unmarked.completed .halt s.machine.core.advanced) :=
    Machine.cycled_of_carryOut hfetch hcarried
  obtain ⟨t, ht, hrun⟩ := run_of_cycled_ok approving hrunning hfailure hcycled budget cause
  have hsame : t.machine.unmarked =
      (s.machine.completed .halt s.machine.core.advanced).unmarked := ht
  have hcore : t.machine.core = s.machine.core.advanced := Machine.core_of_unmarked hsame
  have hhalted : t.machine.halted = true :=
    (Machine.halted_of_unmarked hsame).trans (Bool.or_true _)
  refine ⟨t, ?_, hcore, hhalted⟩
  rw [hrun, run_of_halted obs hhalted ((Machine.failure_of_unmarked hsame).trans hfailure), hcore]
  rfl

theorem Stands.run_refused (h : s.Stands code core) (approving : obs.Approving)
    {refusal : Failure} (hfetch : core.fetch? code = some insn)
    (hcarried : core.carryOut insn = .error (.refusal refusal) after) (budget : Nat)
    (cause : Failure) : (s.run obs (budget + 1) cause).1 = .error refusal := by
  obtain ⟨rfl, rfl, hrunning, hfailure⟩ := h
  have hcycled : s.machine.unmarked.cycled =
      .error (.halt refusal) { s.machine.unmarked with core := after } := by
    have hunmarked : s.machine.unmarked.core.fetch? s.machine.unmarked.code = some insn := hfetch
    have hcarried' : s.machine.unmarked.core.carryOut insn = .error (.refusal refusal) after :=
      hcarried
    simp only [Machine.cycled, hunmarked, hcarried']
  obtain ⟨t, ht, hrun⟩ := run_of_cycled_error approving hrunning hfailure hcycled budget cause
  rw [hrun]
  rfl

end Session
end FrameMachine
