import FrameMachine.Proofs.Allocation
import FrameMachine.Proofs.StackTop
/-!
# The heap under stack traffic

As long as the registers keep their order, everything the stack does stays below `np`. Only the
instructions that store through an address reach a word of the heap, and STORER, which leaves
its address in the slot above the top, when that slot is the first word of the heap.
-/
namespace FrameMachine

namespace Word

private theorem ofNat_lt_of_lt {n : Word} {i : Nat} (h : i < n.toNatClampNeg) :
    0 ≤ Int64.ofNat i ∧ Int64.ofNat i < n := by
  have hi : i < 2 ^ 63 := Nat.lt_trans h n.toNatClampNeg_lt
  have hofNat : (Int64.ofNat i).toInt = i := Int64.toInt_ofNat_of_lt hi
  have hn : n.toInt.toNat = n.toNatClampNeg := Int64.toNat_toInt n
  rw [Int64.le_iff_toInt_le, Int64.lt_iff_toInt_lt, hofNat, Int64.toInt_zero]
  omega

/-- A sum with a nonnegative word is exact, or it has wrapped around once, from the top. -/
theorem toInt_add_eq_ite {a b : Word} (hb : 0 ≤ b) :
    (a + b).toInt =
      if a.toInt + b.toInt < 2 ^ 63 then a.toInt + b.toInt else a.toInt + b.toInt - 2 ^ 64 := by
  have hb' := Int64.le_iff_toInt_le.mp hb
  have hlow := a.le_toInt
  have hhigh := a.toInt_lt
  have hhigh' := b.toInt_lt
  rw [Int64.toInt_zero] at hb'
  rw [Int64.toInt_add, Int.bmod_eq_emod]
  split <;> split <;> omega

private theorem toInt_add_of_nonneg {a b : Word} (hb : 0 ≤ b) (h : 0 ≤ a + b) :
    (a + b).toInt = a.toInt + b.toInt := by
  have h' := Int64.le_iff_toInt_le.mp h
  have hhigh := a.toInt_lt
  have hhigh' := b.toInt_lt
  rw [Int64.toInt_zero] at h'
  have hsum := toInt_add_eq_ite (a := a) hb
  omega

end Word

/-- The operation stores through an address, and the given heap address is one it stores to.
The last case of STORER is its scratch slot, with no room left between stack and heap. -/
def Opcode.StoresTo (op : Opcode) (arg : Word) (core : Core) (addr : Word) : Prop :=
  match op with
  | storea => arg = addr
  | store =>
      core.top.toInt ≤ addr.toInt ∧ addr.toInt < core.top.toInt + arg.toInt
  | storer =>
      core.regs.fp + arg = addr ∨
        (core.regs.sp = core.regs.ep ∧ core.regs.ep = core.regs.np - 1 ∧ addr = core.regs.np)
  | _ => False

instance (op : Opcode) (arg : Word) (core : Core) (addr : Word) :
    Decidable (op.StoresTo arg core addr) := by
  cases op <;> dsimp only [Opcode.StoresTo] <;> infer_instance

namespace Core

variable {code : Array Instruction} {capacity : Word} {before after : Core} {addr : Word}

/-- Stack, frame, heap and end of memory lie in this order. -/
structure Ordered (capacity : Word) (core : Core) : Prop where
  low : -1 ≤ core.regs.sp
  sp_le_ep : core.regs.sp ≤ core.regs.ep
  ep_lt_np : core.regs.ep < core.regs.np
  np_le : core.regs.np ≤ capacity

instance (capacity : Word) (core : Core) : Decidable (core.Ordered capacity) :=
  decidable_of_iff (-1 ≤ core.regs.sp ∧ core.regs.sp ≤ core.regs.ep ∧
      core.regs.ep < core.regs.np ∧ core.regs.np ≤ capacity)
    ⟨fun h => ⟨h.1, h.2.1, h.2.2.1, h.2.2.2⟩,
      fun h => ⟨h.low, h.sp_le_ep, h.ep_lt_np, h.np_le⟩⟩

def StoresTo (code : Array Instruction) (core : Core) (addr : Word) : Prop :=
  ∃ insn op, core.fetch? code = some insn ∧ Opcode.ofByte? insn.opcode = some op ∧
    op.StoresTo insn.arg core addr

instance (code : Array Instruction) (core : Core) (addr : Word) :
    Decidable (core.StoresTo code addr) :=
  decidable_of_iff
    (∃ insn ∈ core.fetch? code, ∃ op ∈ Opcode.ofByte? insn.opcode,
      op.StoresTo insn.arg core addr) <| by
    simp only [StoresTo, Option.mem_def, exists_and_left]

private theorem Ordered.np_pos (h : before.Ordered capacity) : 0 ≤ before.regs.np := by
  have hlow := h.low
  have hsp := h.sp_le_ep
  have hep := h.ep_lt_np
  grind

/-- What an operation writes at or above `np` it stores through an address, because whatever it
pushes lies between the ordered tops before and after it. -/
private theorem Ordered.storesTo_of_writes {op : Opcode} {arg : Word} (h : before.Ordered capacity)
    (h' : after.Ordered capacity) (htop : after.regs.sp = op.topAfter arg before)
    (hep : op.movesFrame = false → after.regs.ep = before.regs.ep)
    (hnp : before.regs.np ≤ addr) (hw : op.Writes arg before addr) :
    op.StoresTo arg before addr := by
  have hnp0 := h.np_pos
  obtain ⟨hlow, hsp, hlt, hcap⟩ := h
  obtain ⟨hlow', hsp', hlt', hcap'⟩ := h'
  rw [htop] at hlow' hsp'
  have hhere : before.regs.sp < before.regs.np := Int64.lt_of_le_of_lt hsp hlt
  have hdown : before.regs.sp - 1 < before.regs.np := by grind
  have hout {slot : Word} (hslot : slot < before.regs.np) : addr ≠ slot := by
    rintro rfl
    exact Int64.not_le.mpr hslot hnp
  cases op with
  | loadc | loada | loadrc | loadr | dup =>
      rw [hep rfl] at hsp'
      exact absurd hw (hout (Int64.lt_of_le_of_lt hsp' hlt))
  | add | sub | mul | div | mod | and | or | xor | eq | neq | le | leq | gr | geq =>
      exact absurd hw (hout hdown)
  | not | neg | call | new => exact absurd hw (hout hhere)
  | pop | alloc | jump | jumpz | jumpi | enter | ret | halt => exact hw.elim
  | slide =>
      have hbound := hep rfl
      simp only [Opcode.Writes, Opcode.topAfter] at hw hsp'
      grind
  | mark =>
      have hbound := hep rfl
      simp only [Opcode.topAfter] at hsp' hlow'
      have hslots : before.regs.sp + 1 ≤ before.regs.sp + 2 := by
        clear * - hlow hlow'
        grind
      have hbelow : addr ≤ before.regs.sp + 2 := by
        rcases hw with rfl | rfl
        · exact hslots
        · exact Int64.le_refl _
      grind
  | load =>
      have hbound := hep rfl
      obtain ⟨i, hi, rfl⟩ := hw
      obtain ⟨hi0, hi'⟩ := Word.ofNat_lt_of_lt hi
      simp only [Opcode.topAfter] at hsp' hlow'
      grind
  | storea => exact hw.symm
  | store =>
      obtain ⟨i, hi, rfl⟩ := hw
      obtain ⟨hi0, hi'⟩ := Word.ofNat_lt_of_lt hi
      have hsum := Word.toInt_add_of_nonneg hi0 (Int64.le_trans hnp0 hnp)
      have hi0' := Int64.le_iff_toInt_le.mp hi0
      have hi'' := Int64.lt_iff_toInt_lt.mp hi'
      rw [Int64.toInt_zero] at hi0'
      rw [Opcode.StoresTo, top, hsum]
      omega
  | storer =>
      rcases hw with rfl | rfl
      · refine .inr ⟨?_, ?_, ?_⟩ <;> grind
      · exact .inl rfl

private theorem Completes.storesTo (hdone : before.Completes code after)
    (h : before.Ordered capacity) (h' : after.Ordered capacity) (hnp : before.regs.np ≤ addr)
    (hchanged : after.mem.get? addr ≠ before.mem.get? addr) : before.StoresTo code addr := by
  obtain ⟨insn, flow, hfetch, hrun⟩ := hdone
  obtain ⟨op, hop, heffect⟩ := effect_of_carryOut hrun
  have htop := sp_of_carryOut hop hrun
  refine ⟨insn, op, hfetch, hop, ?_⟩
  have hput {w : Word} (hne : (before.mem.put before.regs.sp w).get? addr ≠ before.mem.get? addr) :
      addr = before.regs.sp := by
    by_contra hother
    exact hne (Memory.get?_put_of_ne (Ne.symm hother))
  cases heffect with
  | confined hstill hconf =>
      have hw : op.Writes insn.arg before addr := by
        by_contra hnot
        exact hchanged (hconf.get? addr hnot)
      exact h.storesTo_of_writes h' htop (fun _ => hconf.ep) hnp hw
  | enter _ | ret _ _ _ => exact absurd rfl hchanged
  | call _ | refused _ _ | granted _ _ _ =>
      exact h.storesTo_of_writes h' htop nofun hnp (hput hchanged)

private theorem Completes.get?_of_not_storesTo (hdone : before.Completes code after)
    (h : before.Ordered capacity) (h' : after.Ordered capacity) (hnp : before.regs.np ≤ addr)
    (hnot : ¬ before.StoresTo code addr) : after.mem.get? addr = before.mem.get? addr := by
  by_contra hchanged
  exact hnot (hdone.storesTo h h' hnp hchanged)

/-- A word of the heap keeps its value over many instructions while none stores to it. The heap
only grows, so the word stays at or above `np`. -/
private theorem get?_of_isChain {first last : Core} {middle : List Core}
    (hchain : (first :: middle ++ [last]).IsChain (Completes code))
    (hordered : ∀ core ∈ first :: middle ++ [last], core.Ordered capacity)
    (hnp : first.regs.np ≤ addr) (hnot : ∀ core ∈ first :: middle, ¬ core.StoresTo code addr) :
    last.mem.get? addr = first.mem.get? addr := by
  obtain ⟨hfirst, hrest⟩ := List.forall_mem_cons.mp hordered
  obtain ⟨hnot', hnots⟩ := List.forall_mem_cons.mp hnot
  induction middle generalizing first with
  | nil =>
      have hdone : first.Completes code last := (List.isChain_cons_cons.mp hchain).1
      exact hdone.get?_of_not_storesTo hfirst (hrest last (by simp)) hnp hnot'
  | cons next middle ih =>
      obtain ⟨hdone, hchain'⟩ := List.isChain_cons_cons.mp hchain
      have hnext := hrest next (by simp)
      have hep : -1 ≤ first.regs.ep := Int64.le_trans hfirst.low hfirst.sp_le_ep
      have hle : next.regs.np ≤ first.regs.np := Attempts.np_le (.inl hdone) hep hfirst.np_pos
      have hlast := ih hchain' hrest (Int64.le_trans hle hnp) hnots hnext
        (fun core hcore => hrest core (List.mem_cons_of_mem _ hcore)) (hnots next (by simp))
        (fun core hcore => hnots core (List.mem_cons_of_mem _ hcore))
      rw [hlast]
      exact hdone.get?_of_not_storesTo hfirst hnext hnp hnot'

private theorem np_le_of_mem_allocations {first : Core} {rest : List Core} {b : Block}
    (hchain : (first :: rest).IsChain (Attempts code))
    (hordered : ∀ core ∈ first :: rest, core.Ordered capacity)
    (hb : b ∈ allocations code (first :: rest)) :
    ∀ core ∈ (first :: rest).getLast?, core.regs.np ≤ b.addr := by
  induction rest generalizing first with
  | nil => cases hb
  | cons next rest ih =>
      obtain ⟨hattempt, hchain'⟩ := List.isChain_cons_cons.mp hchain
      obtain ⟨hfirst, hordered'⟩ := List.forall_mem_cons.mp hordered
      intro core hcore
      rw [List.getLast?_cons_cons] at hcore
      rw [allocations, List.mem_append, Option.mem_toList] at hb
      rcases hb with hb | hb
      · -- the block begins at the `np` it leaves behind, which only falls from here on
        have hep : -1 ≤ first.regs.ep := Int64.le_trans hfirst.low hfirst.sp_le_ep
        rcases hattempt.allocation? hep hfirst.np_pos with ⟨_, hnone⟩ | ⟨b', hsome, haddr, _, _⟩
        · rw [hnone] at hb
          cases hb
        · rw [hsome] at hb
          cases hb
          have htally := tally_of_isChain hchain'
            (fun c hc => Int64.le_trans (hordered' c hc).low (hordered' c hc).sp_le_ep)
            (hordered' next (by simp)).np_pos
          rw [haddr, Int64.le_iff_toInt_le]
          exact (htally.bounds core (List.mem_of_getLast? hcore)).2
      · exact ih hchain' hordered' hb core hcore

end Core

variable {σ : Type}

/-- Over any calls that keep the registers in order, a completed instruction changes a word at or
above `np` only by storing to it. The words from a granted block upward keep their values,
through calls, returns and further requests, until an instruction stores to them. -/
theorem heap_changed_only_by_stores (plan : Plan σ) (code : Array Instruction) (m : Machine)
    (built : plan.build code = .ok m) (world : σ) (calls : List Call)
    (ordered : ∀ core ∈ Session.states plan.observers calls ⟨m, world⟩,
      core.Ordered plan.words) :
    let states := Session.states plan.observers calls ⟨m, world⟩
    (∀ (past future : List Core) (before after : Core),
      states = past ++ before :: after :: future → before.Completes code after →
      ∀ addr, before.regs.np ≤ addr → after.mem.get? addr ≠ before.mem.get? addr →
        before.StoresTo code addr) ∧
    (∀ (past middle future : List Core) (first last : Core),
      states = past ++ (first :: middle ++ [last]) ++ future →
      (first :: middle ++ [last]).IsChain (Core.Completes code) →
      ∀ b ∈ Core.allocations code (past ++ [first]), ∀ addr, b.addr ≤ addr →
        (∀ core ∈ first :: middle, ¬ core.StoresTo code addr) →
        last.mem.get? addr = first.mem.get? addr) := by
  intro states
  have hchain := (plan.states_of_build built world calls).2
  change states.IsChain _ at hchain
  change ∀ core ∈ states, _ at ordered
  refine ⟨?_, ?_⟩
  · intro past future before after hsplit hdone addr hnp hchanged
    have hbefore := ordered before (by rw [hsplit]; simp)
    have hafter := ordered after (by rw [hsplit]; simp)
    exact hdone.storesTo hbefore hafter hnp hchanged
  · intro past middle future first last hsplit hdone b hb addr hlow hnot
    have hmiddle : ∀ core ∈ first :: middle ++ [last], core.Ordered plan.words := by
      intro core hcore
      apply ordered core
      rw [hsplit]
      exact List.mem_append_left _ (List.mem_append_right _ hcore)
    have hnp : first.regs.np ≤ b.addr := by
      have hupto : states = past ++ [first] ++ (middle ++ [last] ++ future) := by
        rw [hsplit]
        simp
      rw [hupto] at hchain ordered
      obtain ⟨head, rest, hpast⟩ := List.exists_cons_of_ne_nil
        (List.append_ne_nil_of_right_ne_nil past (List.cons_ne_nil first []))
      have hlast : first ∈ (head :: rest).getLast? := by
        rw [← hpast, List.getLast?_concat]
        rfl
      rw [hpast] at hchain ordered hb
      exact Core.np_le_of_mem_allocations hchain.left_of_append
        (fun core hcore => ordered core (List.mem_append_left _ hcore)) hb first hlast
    exact Core.get?_of_isChain hdone hmiddle (Int64.le_trans hnp hlow) hnot

/-- Puts a nine in the heap and calls a subroutine that fills its frame up to the heap, where a
STORER leaves its address in the first word of the block. -/
def fullFrame : Array Instruction :=
  #[.ofOpcode .enter 5, .ofOpcode .loadc 2, .ofOpcode .new 0, .ofOpcode .loadc 9,
    .ofOpcode .storea 9, .ofOpcode .mark 0, .ofOpcode .loadc 9, .ofOpcode .call 0,
    .ofOpcode .halt 0, .ofOpcode .enter 3, .ofOpcode .loadc 1, .ofOpcode .dup 0,
    .ofOpcode .dup 0, .ofOpcode .storer 1, .ofOpcode .ret 0]

theorem heap_changed_only_by_stores_full_frame :
    let plan : Plan Unit := ⟨10, {}⟩
    let states := Session.states plan.observers [.run 20 .canceled] ⟨.initial fullFrame 10, ()⟩
    let state := fun n => states.getD n default
    plan.build fullFrame = .ok (.initial fullFrame 10) ∧
    (∀ core ∈ states, core.Ordered plan.words) ∧
    Core.allocations fullFrame states = [⟨8, 2, 4⟩] ∧
    (state 13).mem.get? 8 = some 5 ∧ (state 12).StoresTo fullFrame 8 ∧
    (state 5).mem.get? 9 = some 9 ∧ (state 14).mem.get? 9 = (state 5).mem.get? 9 := by
  intro plan states state
  have hbuilt : plan.build fullFrame = .ok (.initial fullFrame 10) := rfl
  have hordered : ∀ core ∈ states, core.Ordered plan.words := by decide +kernel
  obtain ⟨hstep, hkept⟩ :=
    heap_changed_only_by_stores plan fullFrame _ hbuilt () [.run 20 .canceled] hordered
  refine ⟨hbuilt, hordered, by decide +kernel, by decide +kernel, ?_, by decide +kernel, ?_⟩
  · exact hstep (states.take 12) (states.drop 14) (state 12) (state 13) (by decide +kernel)
      (by decide +kernel) 8 (by decide +kernel) (by decide +kernel)
  · exact hkept (states.take 5) ((states.drop 6).take 8) (states.drop 15) (state 5) (state 14)
      (by decide +kernel) (by decide +kernel) ⟨8, 2, 4⟩ (by decide +kernel) 9
      (by decide +kernel) (by decide +kernel)

end FrameMachine
