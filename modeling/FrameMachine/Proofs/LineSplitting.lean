import FrameMachine.LineWriter
/-!
# Lines in any portions

A line writer may be given its bytes in portions of any size. Between two flushes it hands on
the lines of all that was written as one text, each as soon as its newline has come, and the
buffer holds what follows the last newline. A flush hands on that rest unless it is empty. So the
lines do not show where one portion ended and the next began.
-/
namespace FrameMachine

namespace Sink

variable {σ : Type} {sink : Sink σ}

def Returning (sink : Sink σ) : Prop :=
  ∀ line world, (sink line world).1 = .returned ()

def feed (sink : Sink σ) (lines : List (List UInt8)) (world : σ) : σ :=
  lines.foldl (fun world line => (sink line world).2) world

@[simp] theorem feed_nil (world : σ) : sink.feed [] world = world := rfl

private theorem feed_append (lines more : List (List UInt8)) (world : σ) :
    sink.feed (lines ++ more) world = sink.feed more (sink.feed lines world) :=
  List.foldl_append

private theorem Returning.eq (h : sink.Returning) (line : List UInt8) (world : σ) :
    sink line world = (.returned (), sink.feed [line] world) :=
  Prod.ext (h line world) rfl

end Sink

namespace LineWriter

/-- The lines of a text that a newline ends, without their newlines. -/
def complete (text : List UInt8) : List (List UInt8) := (text.splitOn newline).dropLast

/-- What follows the last newline of a text. -/
def trailing (text : List UInt8) : List UInt8 :=
  (text.splitOn newline).getLast (List.splitOn_ne_nil newline text)

def flushed (text : List UInt8) : List (List UInt8) :=
  if trailing text = [] then [] else [trailing text]

def ended (lines : List (List UInt8)) : List UInt8 := lines.flatMap (· ++ [newline])

section Texts

variable (text more : List UInt8) {lines : List (List UInt8)}

private theorem splitOn_eq_concat : text.splitOn newline = complete text ++ [trailing text] := by
  rw [complete, trailing, List.dropLast_concat_getLast]

private theorem newline_not_mem_splitOn : ∀ part ∈ text.splitOn newline, newline ∉ part := by
  induction text with
  | nil => simp
  | cons b text ih =>
      rw [List.splitOn_cons_eq_if_modifyHead]
      split
      · simpa using ih
      · rename_i hb
        have hne : newline ≠ b := fun h => hb (by simp [h])
        cases hparts : text.splitOn newline with
        | nil => exact absurd hparts (List.splitOn_ne_nil newline text)
        | cons part parts =>
            rw [hparts] at ih
            simpa [hne] using ih

private theorem newline_not_mem_complete : ∀ line ∈ complete text, newline ∉ line := by
  intro line hline
  apply newline_not_mem_splitOn text
  simp [splitOn_eq_concat, hline]

private theorem newline_not_mem_trailing : newline ∉ trailing text := by
  apply newline_not_mem_splitOn text
  simp [splitOn_eq_concat]

@[simp] theorem complete_nil : complete [] = [] := rfl

@[simp] theorem trailing_nil : trailing [] = [] := rfl

private theorem ended_complete_append : ended (complete text) ++ trailing text = text := by
  have hjoin (lines : List (List UInt8)) (last : List UInt8) :
      [newline].intercalate (lines ++ [last]) = ended lines ++ last := by
    induction lines with
    | nil => simp [ended]
    | cons line lines ih => simp_all [ended, List.intercalate_cons_of_ne_nil]
  rw [← hjoin, ← splitOn_eq_concat, List.intercalate_splitOn]

private theorem splitOn_ended_append (h : ∀ line ∈ lines, newline ∉ line) :
    (ended lines ++ text).splitOn newline = lines ++ text.splitOn newline := by
  induction lines with
  | nil => simp [ended]
  | cons line lines ih =>
      obtain ⟨hline, hlines⟩ := List.forall_mem_cons.mp h
      have hsplit := List.splitOn_append_cons_self_of_not_mem hline (ended lines ++ text)
      rw [ih hlines] at hsplit
      simpa [ended] using hsplit

private theorem filter_ended (h : ∀ line ∈ lines, newline ∉ line) :
    (ended lines).filter (· ≠ newline) = lines.flatten := by
  induction lines with
  | nil => simp [ended]
  | cons line lines ih =>
      obtain ⟨hline, hlines⟩ := List.forall_mem_cons.mp h
      have hkept : line.filter (· ≠ newline) = line := by
        rw [List.filter_eq_self]
        intro b hb
        simp only [ne_eq, decide_eq_true_eq]
        rintro rfl
        exact hline hb
      have hrest := ih hlines
      simp_all [ended]

private theorem count_ended (h : ∀ line ∈ lines, newline ∉ line) :
    (ended lines).count newline = lines.length := by
  induction lines with
  | nil => simp [ended]
  | cons line lines ih =>
      obtain ⟨hline, hlines⟩ := List.forall_mem_cons.mp h
      have hnone := List.count_eq_zero_of_not_mem hline
      have hrest := ih hlines
      simp_all [ended]

private theorem filter_newline :
    text.filter (· ≠ newline) = (complete text).flatten ++ trailing text := by
  have hrest : (trailing text).filter (· ≠ newline) = trailing text := by
    rw [List.filter_eq_self]
    intro b hb
    simp only [ne_eq, decide_eq_true_eq]
    rintro rfl
    exact newline_not_mem_trailing text hb
  conv => lhs; rw [← ended_complete_append text]
  rw [List.filter_append, filter_ended (newline_not_mem_complete text), hrest]

private theorem length_complete : (complete text).length = text.count newline := by
  have hnone := List.count_eq_zero_of_not_mem (newline_not_mem_trailing text)
  conv => rhs; rw [← ended_complete_append text]
  rw [List.count_append, count_ended (newline_not_mem_complete text), hnone, Nat.add_zero]

private theorem splitOn_append :
    (text ++ more).splitOn newline = complete text ++ (trailing text ++ more).splitOn newline := by
  rw [← splitOn_ended_append _ (newline_not_mem_complete text), ← List.append_assoc,
    ended_complete_append]

private theorem complete_append :
    complete (text ++ more) = complete text ++ complete (trailing text ++ more) := by
  have h := splitOn_append text more
  rw [splitOn_eq_concat, splitOn_eq_concat, ← List.append_assoc] at h
  exact (List.append_inj' h rfl).1

private theorem trailing_append : trailing (text ++ more) = trailing (trailing text ++ more) := by
  have h := splitOn_append text more
  rw [splitOn_eq_concat, splitOn_eq_concat, ← List.append_assoc] at h
  simpa using (List.append_inj' h rfl).2

variable {text}

private theorem splitOn_of_not_mem (h : newline ∉ text) :
    complete text = [] ∧ trailing text = text := by
  simp [complete, trailing, List.splitOn_eq_singleton h]

private theorem splitOn_of_newline (h : newline ∉ text) :
    complete (text ++ newline :: more) = text :: complete more ∧
      trailing (text ++ newline :: more) = trailing more := by
  have hsplit := List.splitOn_append_cons_self_of_not_mem h more
  simp [complete, trailing, hsplit, List.dropLast_cons_of_ne_nil, List.getLast_cons]

end Texts

variable {σ : Type} {sink : Sink σ}

/-- The lines handed on for a text, with its rest if `all` is asked for. -/
def handedOn (all : Bool) (lead text : List UInt8) : List (List UInt8) :=
  (complete text ++ if all then flushed text else []).map (lead ++ ·)

/-- Draining hands on the lines of a text whose first bytes are already known to hold no newline;
with `all` it hands on the rest as well, which otherwise stays in the buffer. -/
private theorem drain_eq (returning : sink.Returning) (all : Bool)
    (lead unfinished bytes : List UInt8) (world : σ) (h : newline ∉ unfinished.reverse) :
    drain sink all lead unfinished bytes world =
      (.returned (), ⟨lead, if all then [] else trailing (unfinished.reverse ++ bytes)⟩,
        sink.feed (handedOn all lead (unfinished.reverse ++ bytes)) world) := by
  induction bytes generalizing unfinished world with
  | nil =>
      obtain ⟨hnone, hrest⟩ := splitOn_of_not_mem h
      rw [List.append_nil, handedOn, flushed, hnone, hrest, drain]
      cases all with
      | false => simp
      | true => by_cases hlast : unfinished = [] <;> simp [hlast, returning.eq]
  | cons b bytes ih =>
      rw [drain]
      split
      · -- the newline ends a line, and what follows is drained as a text of its own
        rename_i hb
        obtain ⟨hfirst, hrest⟩ := splitOn_of_newline bytes h
        rw [returning.eq, hb, handedOn, flushed, hfirst, hrest]
        dsimp only
        rw [ih [] _ nofun, List.reverse_nil, List.nil_append, handedOn, flushed, List.cons_append,
          List.map_cons]
        rfl
      · rename_i hb
        rw [ih (b :: unfinished) world (by simpa [Ne.symm hb] using h)]
        simp

inductive Request where
  | write (bytes : List UInt8)
  | sync
  | close
  deriving DecidableEq, Repr

def Request.bytes : Request → List UInt8
  | write bytes => bytes
  | sync | close => []

def perform (sink : Sink σ) (request : Request) (s : LineWriter × σ) :
    Ending Unit × LineWriter × σ :=
  match request with
  | .write bytes => s.1.write sink bytes s.2
  | .sync => s.1.sync sink s.2
  | .close => s.1.close sink s.2

def performAll (sink : Sink σ) (requests : List Request) (s : LineWriter × σ) : LineWriter × σ :=
  requests.foldl (fun s request => (perform sink request s).2) s

/-- What was written between flushes: one text for each flush so far, and the text since the
last of them. -/
structure Groups where
  finished : List (List UInt8) := []
  current : List UInt8 := []
  deriving DecidableEq, Repr

namespace Groups

def add (g : Groups) : Request → Groups
  | .write bytes => { g with current := g.current ++ bytes }
  | .sync | .close => ⟨g.finished ++ [g.current], []⟩

def lines (lead : List UInt8) (g : Groups) : List (List UInt8) :=
  g.finished.flatMap (handedOn true lead) ++ handedOn false lead g.current

def news (lead : List UInt8) (g : Groups) : Request → List (List UInt8)
  | .write bytes => (complete (trailing g.current ++ bytes)).map (lead ++ ·)
  | .sync | .close => (flushed g.current).map (lead ++ ·)

private theorem lines_add (lead : List UInt8) (g : Groups) (request : Request) :
    (g.add request).lines lead = g.lines lead ++ g.news lead request := by
  cases request with
  | write bytes => simp [add, lines, news, handedOn, complete_append g.current bytes]
  | sync | close => simp [add, lines, news, handedOn]

def text (g : Groups) : List UInt8 := g.finished.flatten ++ g.current

private theorem text_foldl_add (requests : List Request) (g : Groups) :
    (requests.foldl add g).text = g.text ++ requests.flatMap Request.bytes := by
  induction requests generalizing g with
  | nil => simp
  | cons request requests ih =>
      rw [List.foldl_cons, ih]
      cases request <;> simp [add, text, Request.bytes]

/-- Without their leads, the lines of the groups and the current rest are all of their text but
for the newlines. -/
private theorem flatMap_drop_lines (lead : List UInt8) (g : Groups) :
    (g.lines lead).flatMap (·.drop lead.length) ++ trailing g.current =
      g.text.filter (· ≠ newline) := by
  have hdrop (lines : List (List UInt8)) :
      (lines.map (lead ++ ·)).flatMap (·.drop lead.length) = lines.flatten := by
    simp [List.flatMap_map]
  have hfinished (group : List UInt8) :
      (handedOn true lead group).flatMap (·.drop lead.length) = group.filter (· ≠ newline) := by
    rw [handedOn, hdrop, filter_newline, flushed]
    by_cases hlast : trailing group = [] <;> simp [hlast]
  have hcurrent : (handedOn false lead g.current).flatMap (·.drop lead.length) ++
      trailing g.current = g.current.filter (· ≠ newline) := by
    rw [handedOn, hdrop, filter_newline]
    simp
  rw [lines, List.flatMap_append, List.flatMap_assoc, List.append_assoc, hcurrent, text,
    List.filter_append, List.filter_flatten]
  simp only [hfinished, List.flatMap_def]

end Groups

def groups (requests : List Request) : Groups := requests.foldl .add {}

/-- A writer whose buffer holds the rest of the current group keeps to that with every request. -/
private theorem perform_eq (returning : sink.Returning) (lead : List UInt8) (g : Groups)
    (request : Request) (world : σ) :
    perform sink request (⟨lead, trailing g.current⟩, world) =
      (.returned (), ⟨lead, trailing (g.add request).current⟩,
        sink.feed (g.news lead request) world) := by
  have hflush : drain sink true lead [] (trailing g.current) world =
      (.returned (), ⟨lead, trailing []⟩,
        sink.feed ((flushed g.current).map (lead ++ ·)) world) := by
    obtain ⟨hnone, hrest⟩ := splitOn_of_not_mem (newline_not_mem_trailing g.current)
    rw [drain_eq returning _ _ _ _ _ (by simp)]
    simp [handedOn, flushed, hnone, hrest]
  cases request with
  | write bytes =>
      rw [perform, write, drain_eq returning _ _ _ _ _ (by simp)]
      simp [handedOn, Groups.add, Groups.news, trailing_append g.current bytes]
  | sync => exact hflush
  | close => exact hflush

private theorem performAll_eq (returning : sink.Returning) (lead : List UInt8)
    (requests : List Request) (g : Groups) (world : σ) :
    performAll sink requests (⟨lead, trailing g.current⟩, sink.feed (g.lines lead) world) =
      (⟨lead, trailing (requests.foldl .add g).current⟩,
        sink.feed ((requests.foldl .add g).lines lead) world) := by
  induction requests generalizing g with
  | nil => rfl
  | cons request requests ih =>
      rw [performAll, List.foldl_cons, perform_eq returning, ← Sink.feed_append, ← Groups.lines_add]
      exact ih (g.add request)

/-- However bytes are cut into portions, a line writer hands on the lines of the groups that its
flushes mark off: for each group the lines that a newline ends, and at the flush the rest unless
it is empty. A line is handed on by the write that brings its newline, between requests the buffer
holds the rest of the current group, and a flush empties it. Requests with the same groups leave
the same writer and the same lines, and these hold every byte written but the newlines, once and
in order. -/
theorem portions_leave_no_trace (returning : sink.Returning) (lead : List UInt8)
    (requests : List Request) (world : σ) :
    let g := groups requests
    let reached := performAll sink requests (⟨lead, []⟩, world)
    reached = (⟨lead, trailing g.current⟩, sink.feed (g.lines lead) world) ∧
    (∀ bytes, ∃ new, complete (g.current ++ bytes) = complete g.current ++ new ∧
      new.length = bytes.count newline ∧
      reached.1.write sink bytes reached.2 =
        (.returned (), ⟨lead, trailing (g.current ++ bytes)⟩,
          sink.feed (new.map (lead ++ ·)) reached.2)) ∧
    (∀ flush ∈ [sync sink, close sink], flush reached.1 reached.2 =
      (.returned (), ⟨lead, []⟩, sink.feed ((flushed g.current).map (lead ++ ·)) reached.2)) ∧
    (∀ others, groups others = g → performAll sink others (⟨lead, []⟩, world) = reached) ∧
    (g.lines lead).flatMap (·.drop lead.length) ++ reached.1.buffer =
      (requests.flatMap Request.bytes).filter (· ≠ newline) := by
  intro g reached
  have hreached (others : List Request) :
      performAll sink others (⟨lead, []⟩, world) =
        (⟨lead, trailing (groups others).current⟩,
          sink.feed ((groups others).lines lead) world) :=
    performAll_eq returning lead others {} world
  have hstate : reached = (⟨lead, trailing g.current⟩, sink.feed (g.lines lead) world) :=
    hreached requests
  refine ⟨hstate, ?_, ?_, ?_, ?_⟩
  · intro bytes
    refine ⟨_, complete_append g.current bytes, ?_, ?_⟩
    · have hrest := List.count_eq_zero_of_not_mem (newline_not_mem_trailing g.current)
      rw [length_complete, List.count_append, hrest, Nat.zero_add]
    · rw [hstate]
      exact perform_eq returning lead g (.write bytes) _
  · simp only [List.forall_mem_cons, List.not_mem_nil, false_implies, implies_true, and_true]
    rw [hstate]
    exact ⟨perform_eq returning lead g .sync _, perform_eq returning lead g .close _⟩
  · intro others hothers
    rw [hreached, hothers, hstate]
  · rw [hstate, Groups.flatMap_drop_lines]
    congr 1
    exact Groups.text_foldl_add requests {}

theorem portions_leave_no_trace_in_split_lines :
    let sink : Sink (List (List UInt8)) := fun line lines => (.returned (), lines ++ [line])
    let portions : List Request :=
      [.write [111, 10, 116], .write [], .write [119, 10, 10], .write [33], .sync, .sync,
        .write [10], .close, .write [97]]
    let whole : List Request :=
      [.write [111, 10, 116, 119, 10, 10, 33], .close, .close, .write [10], .sync, .write [97]]
    let reached := performAll sink portions (⟨[62, 32], []⟩, [])
    sink.Returning ∧ reached = (⟨[62, 32], [97]⟩,
      [[62, 32, 111], [62, 32, 116, 119], [62, 32], [62, 32, 33], [62, 32]]) ∧
    performAll sink whole (⟨[62, 32], []⟩, []) = reached := by
  intro sink portions whole reached
  have hreturning : sink.Returning := fun _ _ => rfl
  obtain ⟨hreached, -, -, hothers, -⟩ :=
    portions_leave_no_trace hreturning [62, 32] portions []
  exact ⟨hreturning, hreached.trans (by decide +kernel), hothers whole (by decide +kernel)⟩

end LineWriter
end FrameMachine
