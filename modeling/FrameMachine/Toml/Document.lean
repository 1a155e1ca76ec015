import FrameMachine.Toml.Marks
import FrameMachine.Toml.Tables
/-!
# TOML documents

Statements build up tables. A table that only came into being on the way to another
one is implicit and may still be defined once; anything else may not be defined again,
except that an array gives way to a later definition. Both marks belong to paths, so
all elements of an array of tables share them.

An inline table is built twice. One table stands in place while the entries are read,
so that dotted keys find it, and stays there if the place was free. The other collects
the entries under the last parts of their keys; it is the value of the expression,
takes the place of an array that gives way, and is an entry of the inline table around
it, where later definitions in that place are seen too.
-/
namespace FrameMachine.Toml

structure Document where
  tables : Tables := {}
  /-- The table that the next key belongs to. -/
  context : Path := []
  marks : Marks := .empty
  deriving Inhabited

namespace Document

def root (d : Document) : Table := d.tables.get Tables.root

def isImplicit (d : Document) (p : Path) : Bool := (d.marks.get p).isImplicit

def isArray (d : Document) (p : Path) : Bool := (d.marks.get p).isArray

def setImplicit (d : Document) (p : Path) (isImplicit : Bool) : Document :=
  { d with marks := d.marks.modify (fun m => { m with isImplicit := isImplicit }) p }

def addTable (d : Document) : TableId × Document :=
  let (id, tables) := d.tables.add
  (id, { d with tables := tables })

def put (d : Document) (id : TableId) (key : String) (node : Node) : Document :=
  { d with tables := d.tables.define id key node }

/-- Notes whether the last definition of a key was an array; an empty key stands for the
context itself. -/
def setKind (d : Document) (key : String) (isArray : Bool) : Document :=
  let p := if key = "" then d.context else d.context ++ [key]
  let p := if p = [] then [""] else p
  if d.isArray p = isArray then d
  else { d with marks := d.marks.modify (fun m => { m with isArray := isArray }) p }

/-- Defines a key of the context. An implicit table keeps its place. -/
def setNode (d : Document) (key : String) (node : Node) : Option Document := do
  let id ← d.tables.find? Tables.root d.context
  let p := d.context ++ [key]
  if ((d.tables.get id).lookup key).isNone then some (d.put id key node)
  else if d.isArray p then some ((d.setImplicit p false).put id key node)
  else if d.isImplicit p then some (d.setImplicit p false)
  else none

/-- Follows a path from a table and creates what is missing on it as implicit tables;
`walked` holds the keys before, the last one first. -/
def enter (d : Document) (id : TableId) (walked : Path) : Path → Option (TableId × Document)
  | [] => some (id, d)
  | key :: rest =>
    match (d.tables.get id).lookup key with
    | none =>
      let (sub, d) := d.addTable
      let d := (d.put id key (.table sub)).setImplicit (key :: walked).reverse true
      enter d sub (key :: walked) rest
    | some node =>
      match node.table? with
      | some sub => enter d sub (key :: walked) rest
      | none => none

def addElement (d : Document) (id : TableId) (key : String) (sub : TableId) : Option Document :=
  match (d.tables.get id).lookup key with
  | none => some (d.put id key (.elements sub []))
  | some (.elements last earlier) => some (d.put id key (.elements sub (last :: earlier)))
  | some _ => none

/-- Opens the table at a path, or one more element of the array of tables there. -/
def openTable (d : Document) (p : Path) (isElement : Bool) : Option Document := do
  let parent := p.dropLast
  let key := p.getLastD ""
  let (id, d) ← d.enter Tables.root [] parent
  let (sub, d) := d.addTable
  let d ←
    if isElement then d.addElement id key sub
    else setNode { d with context := parent } key (.table sub)
  some { d with context := p }

def openImplicit (d : Document) (p : Path) (isElement : Bool) : Option Document :=
  (d.setImplicit p true).openTable p isElement

def openParts (d : Document) : Path → Option Document
  | [] | [_] => some d
  | part :: rest => do
    let d ← d.openImplicit (d.context ++ [part]) false
    openParts d rest

mutual

/-- The node of an expression under a key of the context. While an inline table is read a
table stands in its place, as an element of an array of tables if it is in an array. -/
def place (d : Document) (key : String) (inArray : Bool) : Expr → Option (Node × Document)
  | .scalar v => some (.scalar v, d)
  | .array items => do
    let d ← placeItems (d.setKind key true) key items
    some (.array, d)
  | .table entries => do
    let outer := d.context
    let d ← d.openImplicit (outer ++ [key]) inArray
    let (own, d) := d.addTable
    let d ← placeEntries d (outer ++ [key]) (some own) entries
    some (.table own, { d with context := outer })

def placeItems (d : Document) (key : String) : List Expr → Option Document
  | [] => some d
  | e :: rest => do
    let (_, d) ← place d key true e
    placeItems d key rest

/-- Defines entries in a context, and their last parts in a table of their own if they
have one. -/
def placeEntries (d : Document) (context : Path) (own : Option TableId) :
    List (Path × Expr) → Option Document
  | [] => some d
  | (p, e) :: rest => do
    let d ← openParts { d with context := context } p
    let key := p.getLastD ""
    let (node, d) ← place d key false e
    let d ← d.setNode key node
    let d := d.setKind key (match e with | .array _ => true | _ => false)
    let d := match own with
      | some id => d.put id key node
      | none => d
    placeEntries d context own rest

end

def apply (d : Document) : Statement → Option Document
  | .header p => (d.openTable p false).map fun d => d.setKind "" false
  | .element p => (d.openTable p true).map fun d => d.setKind "" false
  | .assign p e =>
    let context := d.context
    (placeEntries d context none [(p, e)]).map fun d => { d with context := context }

def ofStatements? (ss : List Statement) : Option Document := ss.foldlM apply {}

def parse? (bytes : List UInt8) : Option Document := (statements? bytes).bind ofStatements?

end Document
end FrameMachine.Toml
