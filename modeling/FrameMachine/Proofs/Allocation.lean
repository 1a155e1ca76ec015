import FrameMachine.Proofs.Course
import Mathlib.Algebra.Ring.Int.Defs
/-!
# The heap over whole runs

Every NEW that is granted moves `np` down by the size it asked for, and nothing else moves it.
As long as no frame ends below the stack, the words subtract like integers, so the blocks are
stacked downward from the end of memory without gaps or overlaps.
-/
namespace FrameMachine

/-- A block of the heap, with the frame's end that was in force when it was granted. -/
structure Block where
  addr : Word
  size : Word
  extent : Word
  deriving DecidableEq, Repr, Inhabited

def Block.Disjoint (a b : Block) : Prop :=
  a.addr.toInt + a.size.toInt ≤ b.addr.toInt ∨ b.addr.toInt + b.size.toInt ≤ a.addr.toInt

/-- The block is not empty, lies above its frame and ends at or below the limit. -/
structure Block.Fits (limit : Int) (b : Block) : Prop where
  above : b.extent.toInt < b.addr.toInt
  nonneg : 0 ≤ b.addr.toInt
  positive : 0 < b.size.toInt
  below : b.addr.toInt + b.size.toInt ≤ limit

private theorem Block.Fits.mono {b : Block} {limit more : Int} (h : b.Fits limit)
    (hle : limit ≤ more) :
    b.Fits more :=
  ⟨h.above, h.nonneg, h.positive, Int.le_trans h.below hle⟩

private theorem Word.toInt_sub_of_nonneg {a b : Word} (ha : 0 ≤ a) (hb : 0 ≤ b) :
    (a - b).toInt = a.toInt - b.toInt := by
  have ha' := Int64.le_iff_toInt_le.mp ha
  have hb' := Int64.le_iff_toInt_le.mp hb
  have hlt := a.toInt_lt
  have hlt' := b.toInt_lt
  rw [Int64.toInt_zero] at ha' hb'
  rw [Int64.toInt_sub, Int.bmod_eq_of_le] <;> omega

namespace Core

variable {code : Array Instruction} {before after : Core}

def top (core : Core) : Word := core.mem.load core.regs.sp

/-- The block that a NEW between the two cores left on the stack, if it moved `np`. -/
def allocation? (code : Array Instruction) (before after : Core) : Option Block :=
  if before.opcode? code = some .new ∧ after.regs.np ≠ before.regs.np then
    some ⟨after.top, before.top, before.regs.ep⟩
  else none

def allocations (code : Array Instruction) : List Core → List Block
  | before :: after :: rest =>
    (allocation? code before after).toList ++ allocations code (after :: rest)
  | _ => []

theorem top_put {mem : Memory} {regs : Registers} (h : mem.Covers regs.sp) (w : Word) :
    (⟨regs, mem.put regs.sp w⟩ : Core).top = w := by
  rw [top, Memory.load_of_get? (Memory.get?_put_self h)]

private theorem allocation?_of_np_eq (h : after.regs.np = before.regs.np) :
    allocation? code before after = none := by
  rw [allocation?, if_neg]
  exact fun hmoved => hmoved.2 h

private theorem Attempts.np_cases (h : before.Attempts code after) :
    after.regs.np = before.regs.np ∨
    ∃ size, before.opcode? code = some .new ∧ before.top = size ∧ 0 < size ∧
      before.regs.ep < before.regs.np - size ∧ after.regs.np = before.regs.np - size ∧
      after.top = before.regs.np - size := by
  rcases h with hdone | hbreaks
  · obtain ⟨insn, op, hfetch, hop, heffect⟩ := hdone.effect
    cases heffect with
    | confined _ hconf => exact .inl hconf.np
    | @granted size hsize hpos hfits =>
        refine .inr ⟨size, (opcode?_eq hfetch).trans hop, Memory.load_of_get? hsize, hpos, hfits,
          rfl, ?_⟩
        exact top_put (Memory.covers_of_get? hsize) _
    | _ => exact .inl rfl
  · rcases hbreaks.cases with rfl | ⟨insn, stop, _, hback⟩
    · exact .inl rfl
    · cases hback with
      | still _ _ hnp _ => exact .inl hnp
      | ret _ _ _ _ => exact .inl rfl

theorem Attempts.allocation? (h : before.Attempts code after) (hep : -1 ≤ before.regs.ep)
    (hnp : 0 ≤ before.regs.np) :
    (after.regs.np = before.regs.np ∧ allocation? code before after = none) ∨
    ∃ b : Block, allocation? code before after = some b ∧ b.addr = after.regs.np ∧
      b.Fits before.regs.np.toInt ∧ b.addr.toInt + b.size.toInt = before.regs.np.toInt := by
  rcases h.np_cases with hsame | ⟨size, hop, hsize, hpos, hfits, hnp', htop⟩
  · exact .inl ⟨hsame, allocation?_of_np_eq hsame⟩
  · have hmoved : after.regs.np ≠ before.regs.np := by grind
    have hexact : (before.regs.np - size).toInt = before.regs.np.toInt - size.toInt :=
      Word.toInt_sub_of_nonneg hnp (Int64.le_of_lt hpos)
    have hext := Int64.lt_iff_toInt_lt.mp hfits
    have hlow := Int64.le_iff_toInt_le.mp hep
    have hsz := Int64.lt_iff_toInt_lt.mp hpos
    rw [Int64.toInt_zero] at hsz
    rw [show (-1 : Word).toInt = -1 from rfl] at hlow
    refine .inr ⟨⟨before.regs.np - size, size, before.regs.ep⟩, ?_, hnp'.symm, ?_, ?_⟩
    · rw [Core.allocation?, if_pos ⟨hop, hmoved⟩, hsize, htop]
    · constructor <;> dsimp only <;> omega
    · dsimp only
      omega

structure Tally (code : Array Instruction) (first : Core) (rest : List Core) : Prop where
  bounds : ∀ core ∈ first :: rest,
    0 ≤ core.regs.np.toInt ∧ core.regs.np.toInt ≤ first.regs.np.toInt
  antitone : (first :: rest).Pairwise fun earlier later => later.regs.np ≤ earlier.regs.np
  fits : ∀ b ∈ allocations code (first :: rest), b.Fits first.regs.np.toInt
  stacked : (allocations code (first :: rest)).Pairwise fun earlier later =>
    later.addr.toInt + later.size.toInt ≤ earlier.addr.toInt
  total : ((allocations code (first :: rest)).map fun b => b.size.toInt).sum =
    first.regs.np.toInt - ((first :: rest).getLast (List.cons_ne_nil first rest)).regs.np.toInt

private theorem Tally.single (code : Array Instruction) {core : Core} (hnp : 0 ≤ core.regs.np) :
    Tally code core [] where
  bounds := by
    intro other hother
    rw [List.mem_singleton.mp hother]
    exact ⟨Int64.le_iff_toInt_le.mp hnp, Int.le_refl _⟩
  antitone := List.pairwise_singleton _ core
  fits := nofun
  stacked := .nil
  total := (Int.sub_self _).symm

theorem Attempts.np_le (h : before.Attempts code after) (hep : -1 ≤ before.regs.ep)
    (hnp : 0 ≤ before.regs.np) : after.regs.np ≤ before.regs.np := by
  rcases h.allocation? hep hnp with ⟨hsame, _⟩ | ⟨b, _, haddr, hfits, _⟩
  · rw [hsame]
    exact Int64.le_refl _
  · have hpos := hfits.positive
    have hbelow := hfits.below
    rw [← haddr, Int64.le_iff_toInt_le]
    omega

private theorem Tally.cons {rest : List Core} (h : before.Attempts code after)
    (hep : -1 ≤ before.regs.ep) (hnp : 0 ≤ before.regs.np) (ht : Tally code after rest) :
    Tally code before (after :: rest) := by
  have hle := h.np_le hep hnp
  have hle' := Int64.le_iff_toInt_le.mp hle
  have hfits : ∀ b ∈ allocations code (after :: rest), b.Fits before.regs.np.toInt :=
    fun b hb => (ht.fits b hb).mono hle'
  have hlast : (before :: after :: rest).getLast (List.cons_ne_nil _ _) =
      (after :: rest).getLast (List.cons_ne_nil _ _) := List.getLast_cons_cons
  have hbounds : ∀ core ∈ before :: after :: rest,
      0 ≤ core.regs.np.toInt ∧ core.regs.np.toInt ≤ before.regs.np.toInt := by
    refine List.forall_mem_cons.mpr ⟨⟨Int64.le_iff_toInt_le.mp hnp, Int.le_refl _⟩, ?_⟩
    intro core hcore
    have hcore := ht.bounds core hcore
    exact ⟨hcore.1, Int.le_trans hcore.2 hle'⟩
  have hantitone : (before :: after :: rest).Pairwise fun earlier later =>
      later.regs.np ≤ earlier.regs.np := by
    refine List.pairwise_cons.mpr ⟨fun core hcore => ?_, ht.antitone⟩
    exact Int64.le_iff_toInt_le.mpr (hbounds core (List.mem_cons_of_mem _ hcore)).2
  rcases h.allocation? hep hnp with ⟨hsame, hnone⟩ | ⟨b, hsome, haddr, hb, hend⟩
  · have hblocks : allocations code (before :: after :: rest) =
        allocations code (after :: rest) := by
      rw [allocations, hnone, Option.toList_none, List.nil_append]
    refine ⟨hbounds, hantitone, ?_, ?_, ?_⟩ <;> rw [hblocks]
    · exact hfits
    · exact ht.stacked
    · rw [hlast, ht.total, hsame]
  · have hblocks : allocations code (before :: after :: rest) =
        b :: allocations code (after :: rest) := by
      rw [allocations, hsome, Option.toList_some, List.singleton_append]
    refine ⟨hbounds, hantitone, ?_, ?_, ?_⟩ <;> rw [hblocks]
    · exact List.forall_mem_cons.mpr ⟨hb, hfits⟩
    · refine List.pairwise_cons.mpr ⟨fun other hother => ?_, ht.stacked⟩
      rw [haddr]
      exact (ht.fits other hother).below
    · rw [hlast, List.map_cons, List.sum_cons, ht.total, ← haddr]
      omega

theorem tally_of_isChain {first : Core} {rest : List Core}
    (h : (first :: rest).IsChain (Attempts code))
    (hep : ∀ core ∈ first :: rest, -1 ≤ core.regs.ep) (hnp : 0 ≤ first.regs.np) :
    Tally code first rest := by
  induction rest generalizing first with
  | nil => exact .single code hnp
  | cons next rest ih =>
      obtain ⟨hfirst, hrest⟩ := List.isChain_cons_cons.mp h
      have hep' := List.forall_mem_cons.mp hep
      have hnext : 0 ≤ next.regs.np := by
        rcases hfirst.allocation? hep'.1 hnp with ⟨hsame, _⟩ | ⟨b, _, haddr, hb, _⟩
        · rwa [hsame]
        · rw [← haddr]
          exact Int64.le_iff_toInt_le.mpr hb.nonneg
      exact .cons hfirst hep'.1 hnp (ih hrest hep'.2 hnext)

private theorem Attempts.effect_of_new {size : Word} (h : before.Attempts code after)
    (hop : before.opcode? code = some .new) (hsize : before.mem.get? before.regs.sp = some size) :
    ∃ arg, before.Effect arg .new after := by
  rcases h with hdone | ⟨hnone, _⟩ | ⟨insn, stop, hfetch, hstop⟩
  · obtain ⟨insn, op, hfetch, hop', heffect⟩ := hdone.effect
    rw [opcode?_eq hfetch, hop'] at hop
    cases hop
    exact ⟨insn.arg, heffect⟩
  · rw [opcode?, hnone, Option.bind_none] at hop
    cases hop
  · rw [opcode?_eq hfetch] at hop
    rw [carryOut_of_opcode hop, Opcode.run_new] at hstop
    split at hstop
    · rename_i hmiss
      cases hsize.symm.trans hmiss
    · split at hstop <;> cases hstop

/-- Whether a NEW is refused is decided as over the integers. -/
private theorem Attempts.new_refused_iff {size : Word} (h : before.Attempts code after)
    (hop : before.opcode? code = some .new) (hsize : before.mem.get? before.regs.sp = some size)
    (hnp : 0 ≤ before.regs.np) :
    (after.regs.np = before.regs.np ↔
      size.toInt ≤ 0 ∨ before.regs.np.toInt - size.toInt ≤ before.regs.ep.toInt) ∧
    (after.regs.np = before.regs.np → after.top = 0) := by
  have hcov := Memory.covers_of_get? hsize
  have hexact : 0 < size → (before.regs.np - size).toInt = before.regs.np.toInt - size.toInt :=
    fun hpos => Word.toInt_sub_of_nonneg hnp (Int64.le_of_lt hpos)
  have hzero : size ≤ 0 ↔ size.toInt ≤ 0 := Int64.le_iff_toInt_le
  obtain ⟨arg, heffect⟩ := h.effect_of_new hop hsize
  cases heffect with
  | confined hstill _ => cases hstill
  | @refused size' hsize' hlack =>
      obtain rfl : size = size' := Option.some.inj (hsize.symm.trans hsize')
      refine ⟨iff_of_true rfl ?_, fun _ => top_put hcov 0⟩
      by_cases hpos : size ≤ 0
      · exact .inl (hzero.mp hpos)
      · have hle := hlack.resolve_left hpos
        rw [Int64.le_iff_toInt_le, hexact (Int64.not_le.mp hpos)] at hle
        exact .inr hle
  | @granted size' hsize' hpos hfits =>
      obtain rfl : size = size' := Option.some.inj (hsize.symm.trans hsize')
      have hmoved : before.regs.np - size ≠ before.regs.np := by grind
      refine ⟨iff_of_false hmoved ?_, fun hsame => absurd hsame hmoved⟩
      rw [Int64.lt_iff_toInt_lt, hexact hpos] at hfits
      rw [← hzero]
      rintro (hle | hle)
      · exact absurd hpos (Int64.not_lt.mpr hle)
      · omega

/-- Each core of the list has come down from the first by the sizes granted before it. -/
private theorem total_of_isChain {first : Core} {rest : List Core}
    (h : (first :: rest).IsChain (Attempts code)) (hep : ∀ core ∈ first :: rest, -1 ≤ core.regs.ep)
    (hnp : 0 ≤ first.regs.np) {past future : List Core} {core : Core}
    (hsplit : first :: rest = past ++ core :: future) :
    first.regs.np.toInt - core.regs.np.toInt =
      ((allocations code (past ++ [core])).map fun b => b.size.toInt).sum := by
  cases past with
  | nil =>
      cases hsplit
      exact Int.sub_self _
  | cons head past =>
      have hhead : first = head := (List.cons.inj hsplit).1
      subst head
      have hlist : first :: rest = (first :: (past ++ [core])) ++ future := by
        rw [hsplit]
        simp
      rw [hlist] at h hep
      have htally := tally_of_isChain h.left_of_append
        (fun c hc => hep c (List.mem_append_left future hc)) hnp
      have htotal := htally.total
      rw [List.getLast_cons (List.append_ne_nil_of_right_ne_nil _ (List.cons_ne_nil _ _)),
        List.getLast_concat] at htotal
      exact htotal.symm

end Core

variable {σ : Type}

/-- The heap of a machine, over any calls during which no frame ends below the stack. In every
state `np` lies in memory, it never rises, and what it has come down by is the sum of the sizes
granted so far. The blocks come out at falling addresses, share no word, lie in memory and above
the frame they were asked from. A NEW with a readable size is refused exactly when that size is
not positive or does not fit above the frame, as integers; refused, it answers zero. -/
theorem heap_accounts (plan : Plan σ) (code : Array Instruction) (m : Machine)
    (built : plan.build code = .ok m) (world : σ) (calls : List Call)
    (framed : ∀ core ∈ Session.states plan.observers calls ⟨m, world⟩, -1 ≤ core.regs.ep) :
    let states := Session.states plan.observers calls ⟨m, world⟩
    let blocks := Core.allocations code states
    (∀ core ∈ states, 0 ≤ core.regs.np.toInt ∧ core.regs.np.toInt ≤ plan.words.toInt) ∧
    (states.Pairwise fun earlier later : Core => later.regs.np ≤ earlier.regs.np) ∧
    (∀ (past future : List Core) (core : Core), states = past ++ core :: future →
      plan.words.toInt - core.regs.np.toInt =
        ((Core.allocations code (past ++ [core])).map fun b : Block => b.size.toInt).sum) ∧
    (blocks.Pairwise fun earlier later : Block =>
      later.addr.toInt < earlier.addr.toInt ∧ earlier.Disjoint later) ∧
    (∀ b ∈ blocks, b.Fits plan.words.toInt) ∧
    (∀ (past future : List Core) (before after : Core) (size : Word),
      states = past ++ before :: after :: future →
      before.opcode? code = some .new → before.mem.get? before.regs.sp = some size →
      (after.regs.np = before.regs.np ↔
        size.toInt ≤ 0 ∨ before.regs.np.toInt - size.toInt ≤ before.regs.ep.toInt) ∧
      (after.regs.np = before.regs.np → after.top = 0)) := by
  intro states blocks
  obtain ⟨⟨rest, hstates⟩, hchain⟩ := plan.states_of_build built world calls
  have hnp : m.core.regs.np = plan.words := by rw [plan.core_of_build built]
  have hpos : 0 ≤ m.core.regs.np := by
    rw [hnp]
    exact Int64.le_of_lt plan.words_pos
  change states = m.core :: rest at hstates
  change states.IsChain _ at hchain
  change ∀ core ∈ states, _ at framed
  rw [hstates] at hchain framed
  have htally := Core.tally_of_isChain hchain framed hpos
  simp only [blocks, hstates, ← hnp]
  refine ⟨htally.bounds, htally.antitone, ?_, ?_, htally.fits, ?_⟩
  · intro past future core hsplit
    exact Core.total_of_isChain hchain framed hpos hsplit
  · refine htally.stacked.imp_of_mem fun {earlier later} _ hlater hbelow => ?_
    have hsize := (htally.fits later hlater).positive
    exact ⟨by omega, .inr hbelow⟩
  · intro past future before after size hsplit hop hsize
    rw [hsplit, List.isChain_append_cons_cons] at hchain
    have hbefore := (htally.bounds before (by rw [hsplit]; simp)).1
    exact hchain.2.1.new_refused_iff hop hsize (Int64.le_iff_toInt_le.mpr hbefore)

def threeRequests : Array Instruction :=
  #[.ofOpcode .loadc 3, .ofOpcode .new 0, .ofOpcode .loadc 9, .ofOpcode .new 0, .ofOpcode .enter 2,
    .ofOpcode .loadc 2, .ofOpcode .new 0, .ofOpcode .halt 0]

theorem heap_accounts_three_requests :
    let plan : Plan Unit := ⟨9, {}⟩
    let states := Session.states plan.observers [.step, .run 10 .canceled]
      ⟨.initial threeRequests 9, ()⟩
    let blocks := Core.allocations threeRequests states
    plan.build threeRequests = .ok (.initial threeRequests 9) ∧
    (∀ core ∈ states, -1 ≤ core.regs.ep) ∧ blocks = [⟨6, 3, -1⟩, ⟨4, 2, 3⟩] ∧
    (blocks.Pairwise fun earlier later : Block =>
      later.addr.toInt < earlier.addr.toInt ∧ earlier.Disjoint later) ∧
    ∀ b ∈ blocks, b.Fits plan.words.toInt := by
  intro plan states blocks
  have hbuilt : plan.build threeRequests = .ok (.initial threeRequests 9) := by decide +kernel
  have hframed : ∀ core ∈ states, -1 ≤ core.regs.ep := by decide +kernel
  have hblocks : blocks = [⟨6, 3, -1⟩, ⟨4, 2, 3⟩] := by decide +kernel
  obtain ⟨-, -, -, hapart, hfits, -⟩ :=
    heap_accounts plan threeRequests _ hbuilt () [.step, .run 10 .canceled] hframed
  exact ⟨hbuilt, hframed, hblocks, hapart, hfits⟩

end FrameMachine
