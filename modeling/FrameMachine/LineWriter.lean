import FrameMachine.Supervision
/-!
# Line writers

A line writer takes bytes in any portions and hands every completed line to a sink,
with a lead in front and without its newline. What follows the last newline waits in
the buffer until more bytes come or the writer is synced.
-/
namespace FrameMachine

/-- Receives one line; it may panic or abandon the task. -/
abbrev Sink (σ : Type) := List UInt8 → σ → Ending Unit × σ

structure LineWriter where
  lead : List UInt8 := []
  buffer : List UInt8 := []
  deriving DecidableEq, Repr, Inhabited

namespace LineWriter

def newline : UInt8 := 10

variable {σ : Type}

/-- Hands on the lines of `bytes`, where `unfinished` holds in reverse what came
before them. A sink that does not return keeps its line but leaves the newline and
the rest in the buffer. With `all` the unfinished last line is handed on too. -/
def drain (sink : Sink σ) (all : Bool) (lead unfinished : List UInt8) :
    List UInt8 → σ → Ending Unit × LineWriter × σ
  | [], world =>
    if all && !unfinished.isEmpty then
      let (ending, world) := sink (lead ++ unfinished.reverse) world
      (ending, ⟨lead, []⟩, world)
    else (.returned (), ⟨lead, unfinished.reverse⟩, world)
  | b :: rest, world =>
    if b = newline then
      match sink (lead ++ unfinished.reverse) world with
      | (.returned (), world) => drain sink all lead [] rest world
      | (ending, world) => (ending, ⟨lead, b :: rest⟩, world)
    else drain sink all lead (b :: unfinished) rest world

def write (sink : Sink σ) (w : LineWriter) (bytes : List UInt8) (world : σ) :
    Ending Unit × LineWriter × σ :=
  drain sink false w.lead [] (w.buffer ++ bytes) world

def sync (sink : Sink σ) (w : LineWriter) (world : σ) : Ending Unit × LineWriter × σ :=
  drain sink true w.lead [] w.buffer world

def close (sink : Sink σ) (w : LineWriter) (world : σ) : Ending Unit × LineWriter × σ :=
  w.sync sink world

/-- The lines of a text as a writer with the given lead hands them on. -/
def linesOf (lead text : List UInt8) : List (List UInt8) :=
  let collect : Sink (Array (List UInt8)) := fun line acc => (.returned (), acc.push line)
  let (_, w, acc) := write collect ⟨lead, []⟩ text #[]
  (w.close collect acc).2.2.toList

end LineWriter
end FrameMachine
