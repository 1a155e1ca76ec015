import Mathlib.Data.Finmap
import Mathlib.Data.Finset.Sort
import FrameMachine.Proofs.EntryCodec
/-!
# Trace stores as finite maps

The records of a store are those of the observations it was shown, one for each step and the
newest step first. Read this way, a store answers as a finite map from steps to what was last
traced there, through any sequence of openings, traces and closings. The states are marshalled by
any codec whose reading undoes its writing.
-/
namespace FrameMachine.TraceStore

private theorem key_lt_iff {a b : UInt64} : key a < key b ↔ a < b := by
  rw [key, key, Bytes.bigEndian_lt_iff a.toNat_lt b.toNat_lt, UInt64.lt_iff_toNat_lt]

private theorem key_inj {a b : UInt64} : key a = key b ↔ a = b := by
  rw [key, key, Bytes.bigEndian_inj a.toNat_lt b.toNat_lt, UInt64.toNat_inj]

private theorem lookup_insert_of_ne {key other : List UInt8} (h : other ≠ key) (record : List UInt8)
    (records : List (List UInt8 × List UInt8)) :
    (insert key record records).lookup other = records.lookup other := by
  have hkey : (other == key) = false := beq_eq_false_iff_ne.mpr h
  induction records with
  | nil => simp [insert, List.lookup_cons, hkey]
  | cons first rest ih =>
      obtain ⟨k, r⟩ := first
      unfold insert
      split
      · rw [List.lookup_cons, hkey]
      split
      · rename_i heq
        rw [List.lookup_cons, List.lookup_cons, heq, hkey]
      · rw [List.lookup_cons, List.lookup_cons, ih]

structure Observation where
  step : UInt64
  insn : Instruction
  snap : Snapshot
  deriving DecidableEq

namespace Observation

/-- Puts an observation in its place, over an older one of the same step. -/
def place (o : Observation) : List Observation → List Observation
  | [] => [o]
  | p :: rest =>
    if p.step < o.step then o :: p :: rest
    else if p.step = o.step then o :: rest
    else p :: place o rest

def Descending (seen : List Observation) : Prop :=
  seen.Pairwise fun newer older => older.step < newer.step

theorem place_of_newest {o : Observation} {seen : List Observation}
    (h : ∀ p ∈ seen, p.step < o.step) : o.place seen = o :: seen := by
  cases seen with
  | nil => rfl
  | cons p rest => rw [place, if_pos (h p List.mem_cons_self)]

private theorem mem_place {o p : Observation} {seen : List Observation} (hdesc : Descending seen) :
    p ∈ o.place seen ↔ p = o ∨ p ∈ seen ∧ p.step ≠ o.step := by
  induction seen with
  | nil => simp [place]
  | cons q rest ih =>
      obtain ⟨hq, hrest⟩ := List.pairwise_cons.mp hdesc
      -- every step behind `q` lies below the step of `q`
      have hbelow : p ∈ rest → p.step < q.step := hq p
      unfold place
      split
      · rename_i hlt
        have hne : p ∈ q :: rest → p.step ≠ o.step := by
          intro hp hstep
          rw [← hstep] at hlt
          rcases List.mem_cons.mp hp with rfl | hp
          · exact UInt64.lt_irrefl _ hlt
          · exact UInt64.lt_asymm hlt (hbelow hp)
        rw [List.mem_cons]
        grind
      split
      · rename_i heq
        have hne : p ∈ rest → p.step ≠ o.step := by
          intro hp hstep
          have := hbelow hp
          rw [hstep, heq] at this
          exact UInt64.lt_irrefl _ this
        rw [List.mem_cons, List.mem_cons]
        grind
      · rw [List.mem_cons, ih hrest, List.mem_cons]
        grind

private theorem descending_place {o : Observation} {seen : List Observation}
    (hdesc : Descending seen) :
    Descending (o.place seen) := by
  induction seen with
  | nil => simp [place, Descending]
  | cons q rest ih =>
      obtain ⟨hq, hrest⟩ := List.pairwise_cons.mp hdesc
      unfold place
      split
      · rename_i hlt
        refine List.pairwise_cons.mpr ⟨?_, hdesc⟩
        intro p hp
        rcases List.mem_cons.mp hp with rfl | hp
        · exact hlt
        · exact UInt64.lt_trans (hq p hp) hlt
      split
      · rename_i heq
        refine List.pairwise_cons.mpr ⟨?_, hrest⟩
        intro p hp
        rw [← heq]
        exact hq p hp
      · rename_i hge hne
        refine List.pairwise_cons.mpr ⟨?_, ih hrest⟩
        intro p hp
        rcases (mem_place hrest).mp hp with rfl | ⟨hp, -⟩
        · exact UInt64.lt_of_le_of_ne (UInt64.not_lt.mp hge) (Ne.symm hne)
        · exact hq p hp

end Observation

open Observation

inductive Operation where
  | opening
  | closing
  | tracing (o : Observation)
  deriving DecidableEq

/-- A finite map from steps to the instruction and the state last traced there, with the mark
that says whether it can be used. -/
structure Ledger where
  isOpen : Bool := false
  contents : Finmap fun _ : UInt64 => Instruction × Snapshot := ∅

namespace Ledger

def perform (ledger : Ledger) : Operation → Ledger
  | .opening => { ledger with isOpen := true }
  | .closing => { ledger with isOpen := false }
  | .tracing o =>
    if ledger.isOpen then
      { ledger with contents := ledger.contents.insert o.step (o.insn, o.snap) }
    else ledger

def performAll (ops : List Operation) (ledger : Ledger) : Ledger := ops.foldl perform ledger

end Ledger

/-- The observations are the bindings of the map. -/
def Lists (seen : List Observation) (contents : Finmap fun _ : UInt64 => Instruction × Snapshot) :
    Prop :=
  ∀ o, o ∈ seen ↔ contents.lookup o.step = some (o.insn, o.snap)

namespace Lists

variable {seen : List Observation} {contents : Finmap fun _ : UInt64 => Instruction × Snapshot}

private theorem place (h : Lists seen contents) (hdesc : Descending seen) (o : Observation) :
    Lists (o.place seen) (contents.insert o.step (o.insn, o.snap)) := by
  intro p
  rw [mem_place hdesc, h p]
  by_cases hstep : p.step = o.step
  · rw [hstep, Finmap.lookup_insert]
    obtain ⟨_, _, _⟩ := p
    obtain ⟨_, _, _⟩ := o
    grind
  · rw [Finmap.lookup_insert_of_ne _ hstep]
    grind

private theorem mem_iff (h : Lists seen contents) (step : UInt64) :
    step ∈ contents ↔ ∃ o ∈ seen, o.step = step := by
  rw [Finmap.mem_iff]
  constructor
  · rintro ⟨⟨insn, snap⟩, hlookup⟩
    exact ⟨⟨step, insn, snap⟩, (h _).mpr hlookup, rfl⟩
  · rintro ⟨o, ho, rfl⟩
    exact ⟨_, (h o).mp ho⟩

/-- The steps in ascending order are those of the observations from the oldest on. -/
private theorem sort_keys (h : Lists seen contents) (hdesc : Descending seen) :
    contents.keys.sort (· ≤ ·) = seen.reverse.map (·.step) := by
  have hlt : (seen.reverse.map (·.step)).Pairwise (· < ·) := by
    rw [List.pairwise_map, List.pairwise_reverse]
    exact hdesc
  have hkeys : contents.keys = (seen.reverse.map (·.step)).toFinset := by
    ext step
    simp [Finmap.mem_keys, h.mem_iff]
  rw [hkeys]
  apply (List.toFinset_sort _ (hlt.imp UInt64.ne_of_lt)).mpr
  exact hlt.imp UInt64.le_of_lt

private theorem card_keys (h : Lists seen contents) (hdesc : Descending seen) :
    contents.keys.card = seen.length := by
  rw [← Finset.length_sort (· ≤ ·), h.sort_keys hdesc, List.length_map, List.length_reverse]

private theorem digests_eq (h : Lists seen contents) (hdesc : Descending seen) :
    (contents.keys.sort (· ≤ ·)).filterMap
        (fun step => (contents.lookup step).map (·.2.digest)) =
      seen.reverse.map fun o => o.snap.digest := by
  have hlookup : ∀ o ∈ seen.reverse,
      (contents.lookup o.step).map (·.2.digest) = some o.snap.digest := by
    intro o ho
    rw [(h o).mp (List.mem_reverse.mp ho), Option.map_some]
  rw [h.sort_keys hdesc, List.filterMap_map, ← List.filterMap_eq_map]
  exact List.filterMap_congr hlookup

end Lists

section Marshalled

variable [codec : Codec]

private theorem trace_of_closed {store : TraceStore} (h : store.isOpen = false) (step : UInt64)
    (insn : Instruction) (snap : Snapshot) :
    store.trace step insn snap = (some .storeClosed, store) := by
  simp [trace, h]

theorem trace_of_open {store : TraceStore} (h : store.isOpen = true) (step : UInt64)
    (insn : Instruction) (snap : Snapshot) :
    store.trace step insn snap = (none, store.put step (Entry.ofState step insn snap).encode) := by
  simp [trace, h]

namespace Observation

def entry (o : Observation) : Entry := .ofState o.step o.insn o.snap

def record (o : Observation) : List UInt8 × List UInt8 := (key o.step, o.entry.encode)

def Sliced (o : Observation) : Prop := o.snap.marshal.length < 2 ^ 63

private theorem Sliced.decode?_encode {o : Observation} (h : o.Sliced) :
    Entry.decode? o.entry.encode = some o.entry := by
  apply Entry.decode?_encode
  simp only [entry, Entry.ofState, Sliced] at h ⊢
  omega

private theorem insert_record (o : Observation) (seen : List Observation) :
    insert (key o.step) o.entry.encode (seen.map record) = (o.place seen).map record := by
  induction seen with
  | nil => rfl
  | cons p rest ih =>
      simp only [List.map_cons, record, insert, key_lt_iff, key_inj, place]
      split
      · rfl
      split
      · rfl
      · rw [List.map_cons, ← ih]
        rfl

end Observation

/-- The store holds exactly the records of these observations. -/
structure Holds (store : TraceStore) (seen : List Observation) : Prop where
  records : store.records = seen.map record
  descending : Descending seen
  sliced : ∀ o ∈ seen, o.Sliced

namespace Holds

variable {store : TraceStore} {seen : List Observation}

theorem trace (h : store.Holds seen) (hopen : store.isOpen = true) {o : Observation}
    (ho : o.Sliced) : (store.trace o.step o.insn o.snap).2.Holds (o.place seen) := by
  refine ⟨?_, descending_place h.descending, ?_⟩
  · rw [trace_of_open hopen, ← insert_record, ← h.records]
    rfl
  · intro p hp
    rcases (mem_place h.descending).mp hp with rfl | ⟨hp, -⟩
    · exact ho
    · exact h.sliced p hp

private theorem lookup_of_mem (h : store.Holds seen) {o : Observation} (ho : o ∈ seen) :
    store.records.lookup (key o.step) = some o.entry.encode := by
  rw [h.records]
  have hdesc := h.descending
  clear h
  induction seen with
  | nil => cases ho
  | cons p rest ih =>
      obtain ⟨hp, hrest⟩ := List.pairwise_cons.mp hdesc
      rw [List.map_cons, record, List.lookup_cons]
      rcases List.mem_cons.mp ho with rfl | ho
      · simp
      · have hne : (key o.step == key p.step) = false := by
          rw [beq_eq_false_iff_ne, Ne, key_inj]
          exact UInt64.ne_of_lt (hp o ho)
        rw [hne]
        exact ih ho hrest

private theorem lookup_of_not_mem (h : store.Holds seen) {step : UInt64}
    (hstep : ∀ o ∈ seen, o.step ≠ step) : store.records.lookup (key step) = none := by
  rw [h.records, List.lookup_eq_none_iff]
  intro r hr
  obtain ⟨o, ho, rfl⟩ := List.mem_map.mp hr
  simpa [record, key_inj] using Ne.symm (hstep o ho)

theorem entry_of_mem (h : store.Holds seen) (hopen : store.isOpen = true) {o : Observation}
    (ho : o ∈ seen) : store.entry o.step = .ok o.entry := by
  rw [TraceStore.entry, if_pos hopen, h.lookup_of_mem ho]
  simp only [(h.sliced o ho).decode?_encode]

theorem entry_of_not_mem (h : store.Holds seen) (hopen : store.isOpen = true) {step : UInt64}
    (hstep : ∀ o ∈ seen, o.step ≠ step) : store.entry step = .error .noSuchStep := by
  rw [TraceStore.entry, if_pos hopen, h.lookup_of_not_mem hstep]

theorem snapshot_of_mem (roundTrips : codec.RoundTrips) (h : store.Holds seen)
    (hopen : store.isOpen = true) {o : Observation} (ho : o ∈ seen)
    (hshort : ∀ ws ∈ o.snap.mem, ws.size ≤ Cbor.maxElements) :
    store.snapshot o.step = .ok o.snap := by
  have hread : o.entry.snapshot = .ok o.snap :=
    Snapshot.unmarshal_marshal_of_le roundTrips hshort
  rw [snapshot, h.entry_of_mem hopen ho]
  simp only [bind, Except.bind, hread]

theorem size (h : store.Holds seen) (hopen : store.isOpen = true) :
    store.size = .ok seen.length := by
  rw [TraceStore.size, if_pos hopen, h.records, List.length_map]

theorem digests (h : store.Holds seen) (hopen : store.isOpen = true) :
    store.digests = ((seen.reverse.map fun o => o.snap.digest).toArray, none) := by
  have hread (l : List Observation) (hl : ∀ o ∈ l, o.Sliced) (done : Array Digest) :
      digestsOf (l.map fun o => o.entry.encode) done =
        (done ++ (l.map fun o => o.snap.digest).toArray, none) := by
    induction l generalizing done with
    | nil => simp [digestsOf]
    | cons o l ih =>
        obtain ⟨ho, hl⟩ := List.forall_mem_cons.mp hl
        simp only [List.map_cons, digestsOf, ho.decode?_encode, ih hl]
        simp [Observation.entry, Entry.ofState]
  have hsliced : ∀ o ∈ seen.reverse, o.Sliced :=
    fun o ho => h.sliced o (List.mem_reverse.mp ho)
  have hrecords : store.records.reverse.map (·.2) = seen.reverse.map fun o => o.entry.encode := by
    rw [h.records, ← List.map_reverse, List.map_map]
    rfl
  rw [TraceStore.digests, if_pos hopen, hrecords, hread _ hsliced, Array.empty_append]

end Holds

def perform (store : TraceStore) : Operation → TraceStore
  | .opening => store.opened
  | .closing => store.closed
  | .tracing o => (store.trace o.step o.insn o.snap).2

def performAll (ops : List Operation) (store : TraceStore) : TraceStore := ops.foldl perform store

/-- A store and the map it stands for. -/
def Refines (store : TraceStore) (ledger : Ledger) : Prop :=
  store.isOpen = ledger.isOpen ∧ ∃ seen, store.Holds seen ∧ Lists seen ledger.contents

private theorem Refines.perform {store : TraceStore} {ledger : Ledger} (h : store.Refines ledger)
    (op : Operation) (hop : ∀ o, op = .tracing o → o.Sliced) :
    (store.perform op).Refines (ledger.perform op) := by
  obtain ⟨hopen, seen, hholds, hlists⟩ := h
  cases op with
  | opening => exact ⟨rfl, seen, ⟨hholds.records, hholds.descending, hholds.sliced⟩, hlists⟩
  | closing => exact ⟨rfl, seen, ⟨hholds.records, hholds.descending, hholds.sliced⟩, hlists⟩
  | tracing o =>
      simp only [TraceStore.perform, Ledger.perform, ← hopen]
      cases hstore : store.isOpen with
      | false =>
          rw [trace_of_closed hstore, if_neg Bool.false_ne_true]
          exact ⟨hopen, seen, hholds, hlists⟩
      | true =>
          have htraced := hholds.trace hstore (hop o rfl)
          refine ⟨?_, o.place seen, htraced, hlists.place hholds.descending o⟩
          rw [trace_of_open hstore]
          exact hstore

private theorem Refines.performAll {store : TraceStore} {ledger : Ledger} (h : store.Refines ledger)
    {ops : List Operation} (hops : ∀ o, .tracing o ∈ ops → o.Sliced) :
    (store.performAll ops).Refines (ledger.performAll ops) := by
  induction ops generalizing store ledger with
  | nil => exact h
  | cons op ops ih =>
      have hfirst := h.perform op (by rintro o rfl; exact hops o List.mem_cons_self)
      exact ih hfirst fun o ho => hops o (List.mem_cons_of_mem op ho)

structure Answers (store : TraceStore)
    (contents : Finmap fun _ : UInt64 => Instruction × Snapshot) : Prop where
  entry : ∀ step insn snap, contents.lookup step = some (insn, snap) →
    ∃ e, store.entry step = .ok e ∧ e.step = step ∧ e.insn = insn ∧ e.digest = snap.digest ∧
      ((∀ ws ∈ snap.mem, ws.size ≤ 131072) → e.snapshot = .ok snap)
  absent : ∀ step, step ∉ contents → store.entry step = .error .noSuchStep
  size : store.size = .ok contents.keys.card
  digests : store.digests =
    (((contents.keys.sort (· ≤ ·)).filterMap fun step =>
      (contents.lookup step).map (·.2.digest)).toArray, none)

private theorem Refines.answers (roundTrips : codec.RoundTrips) {store : TraceStore}
    {ledger : Ledger} (h : store.Refines ledger) (hopen : store.isOpen = true) :
    store.Answers ledger.contents := by
  obtain ⟨-, seen, hholds, hlists⟩ := h
  refine ⟨?_, ?_, ?_, ?_⟩
  · intro step insn snap hlookup
    have hmem : ⟨step, insn, snap⟩ ∈ seen := (hlists _).mpr hlookup
    have hentry := hholds.entry_of_mem hopen hmem
    refine ⟨_, hentry, rfl, rfl, rfl, ?_⟩
    intro hshort
    exact Snapshot.unmarshal_marshal_of_le roundTrips hshort
  · intro step hstep
    apply hholds.entry_of_not_mem hopen
    intro o ho heq
    exact hstep ((hlists.mem_iff step).mpr ⟨o, ho, heq⟩)
  · rw [hholds.size hopen, hlists.card_keys hholds.descending]
  · rw [hholds.digests hopen, hlists.digests_eq hholds.descending]

private theorem entry_trace_of_ne (store : TraceStore) {step other : UInt64} (h : other ≠ step)
    (insn : Instruction) (snap : Snapshot) :
    (store.trace step insn snap).2.entry other = store.entry other := by
  have hlookup := lookup_insert_of_ne (mt key_inj.mp h) (Entry.ofState step insn snap).encode
    store.records
  unfold trace
  split
  · simp only [entry, put, hlookup]
  · rfl

private theorem performAll_of_closed {store : TraceStore} (h : store.isOpen = false)
    {ops : List Operation} (hops : .opening ∉ ops) : store.performAll ops = store := by
  induction ops with
  | nil => rfl
  | cons op ops ih =>
      obtain ⟨hop, hrest⟩ := List.ne_and_not_mem_of_not_mem_cons hops
      have hsame : store.perform op = store := by
        cases op with
        | opening => exact absurd rfl hop
        | closing =>
            obtain ⟨records, isOpen⟩ := store
            cases h
            rfl
        | tracing o => rw [perform, trace_of_closed h]
      rw [performAll, List.foldl_cons, hsame]
      exact ih hrest

private theorem refines_of_performAll {ops : List Operation}
    (hops : ∀ o, .tracing o ∈ ops → o.Sliced) :
    (performAll ops {}).Refines (Ledger.performAll ops {}) := by
  have hempty : ({} : TraceStore).Refines {} := by
    refine ⟨rfl, [], ⟨rfl, List.Pairwise.nil, nofun⟩, ?_⟩
    intro o
    simp
  exact hempty.performAll hops

/-- With any codec whose reading undoes its writing, a store answers as the finite map of what was
last traced in it. A trace succeeds on every open store and leaves the entries of other steps
alone. A closed store refuses every call, and the next opening finds it as it was before it was
closed. -/
theorem store_refines_finite_map (roundTrips : codec.RoundTrips) (ops : List Operation)
    (sliced : ∀ o, .tracing o ∈ ops → o.Sliced) :
    let store := performAll ops {}
    let ledger := Ledger.performAll ops {}
    store.isOpen = ledger.isOpen ∧
    (store.isOpen = true → store.Answers ledger.contents ∧
      ∀ step insn snap, (store.trace step insn snap).1 = none) ∧
    (∀ step insn snap other, other ≠ step →
      (store.trace step insn snap).2.entry other = store.entry other) ∧
    (store.isOpen = false → store.size = .error .closed ∧ store.digests = (#[], some .closed) ∧
      ∀ step, store.entry step = .error .closed ∧ store.snapshot step = .error .closed ∧
        ∀ insn snap, store.trace step insn snap = (some .storeClosed, store)) ∧
    (∀ later, .opening ∉ later →
      store.performAll (.closing :: later ++ [.opening]) = store.opened) := by
  intro store ledger
  have hrefines : store.Refines ledger := refines_of_performAll sliced
  refine ⟨hrefines.1, ?_, ?_, ?_, ?_⟩
  · intro hopen
    refine ⟨hrefines.answers roundTrips hopen, fun step insn snap => ?_⟩
    rw [trace_of_open hopen]
  · intro step insn snap other hne
    exact store.entry_trace_of_ne hne insn snap
  · intro hclosed
    have hentry (step : UInt64) : store.entry step = .error .closed := by
      simp [entry, hclosed]
    refine ⟨by simp [size, hclosed], by simp [digests, hclosed], fun step => ⟨hentry step, ?_, ?_⟩⟩
    · rw [snapshot, hentry]
      rfl
    · exact trace_of_closed hclosed step
  · intro later hlater
    have hquiet : store.closed.performAll later = store.closed :=
      performAll_of_closed rfl hlater
    calc
      store.performAll (.closing :: later ++ [.opening]) =
          (store.closed.performAll later).opened := by
        simp [performAll, perform]
      _ = store.opened := by rw [hquiet]; rfl

end Marshalled

theorem store_refines_finite_map_reopened :
    let old : Observation := ⟨256, ⟨0, 7⟩, ⟨{}, none⟩⟩
    let other : Observation := ⟨255, ⟨200, 0⟩, ⟨⟨1, 2, 3, 4, 5⟩, some #[]⟩⟩
    let new : Observation := ⟨256, ⟨36, 0⟩, ⟨⟨0, -1, -1, -1, 8⟩, some #[5, -9223372036854775808]⟩⟩
    let late : Observation := ⟨7, ⟨1, 1⟩, ⟨{}, none⟩⟩
    let store := performAll [.opening, .tracing old, .tracing other, .tracing new, .closing,
      .tracing late, .opening] {}
    Zstd.stored.RoundTrips ∧ (∀ o ∈ [old, other, new, late], o.Sliced) ∧ store.isOpen = true ∧
    (∃ e, store.entry 256 = .ok e ∧ e.step = 256 ∧ e.insn = new.insn ∧
      e.digest = new.snap.digest ∧ e.snapshot = .ok new.snap) ∧
    store.entry 7 = .error .noSuchStep ∧ store.size = .ok 2 ∧
    store.digests = (#[other.snap.digest, new.snap.digest], none) := by
  intro old other new late store
  have hall : ∀ o ∈ [old, other, new, late], o.Sliced := by
    unfold Sliced
    decide +kernel
  have hsliced : ∀ o, .tracing o ∈ [Operation.opening, .tracing old, .tracing other, .tracing new,
      .closing, .tracing late, .opening] → o.Sliced := by
    intro o ho
    apply hall
    simpa using ho
  obtain ⟨-, hanswers, -⟩ := store_refines_finite_map Zstd.stored_roundTrips _ hsliced
  have hopen : store.isOpen = true := rfl
  obtain ⟨hentry, habsent, hsize, hdigests⟩ := (hanswers hopen).1
  have hkeys : (Ledger.performAll [.opening, .tracing old, .tracing other, .tracing new, .closing,
      .tracing late, .opening] {}).contents.keys = [255, 256].toFinset := by decide
  have hsort : [255, 256].toFinset.sort (· ≤ ·) = ([255, 256] : List UInt64) :=
    (List.toFinset_sort _ (by decide)).mpr (by decide)
  refine ⟨Zstd.stored_roundTrips, hall, hopen, ?_, habsent 7 ?_, ?_, ?_⟩
  · obtain ⟨e, hread, hstep, hinsn, hdigest, hsnap⟩ := hentry 256 new.insn new.snap rfl
    exact ⟨e, hread, hstep, hinsn, hdigest, hsnap (by simp [new])⟩
  · decide
  · rw [hsize, hkeys]
    rfl
  · rw [hdigests, hkeys, hsort]
    rfl

end FrameMachine.TraceStore
