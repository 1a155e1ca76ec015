import FrameMachine.Setting
import FrameMachine.Toml.Document
/-!
# Configuration

A configuration file sets the capacity of the memory and whether every instruction is
logged through the standard logger. Other keys are allowed and ignored.
-/
namespace FrameMachine

structure Config where
  capacity : Word := 0
  trace : Bool := false
  deriving DecidableEq, Repr, Inhabited

namespace Config

inductive Error where
  /-- The text is no TOML, or a setting has the wrong type. -/
  | malformed
  | invalidCapacity (n : Word)
  deriving DecidableEq, Repr, Inhabited

def Error.message (detail : String) : Error → String
  | malformed => detail
  | invalidCapacity n => "invalid capacity " ++ n.text

/-- Keys match a setting in any case. -/
def names (field key : String) : Bool := field == key.map Char.toLower

def assign (cfg : Config) (key : String) (node : Toml.Node) : Option Config :=
  if names "capacity" key then
    match node with
    | .scalar (.integer n) => (Word.ofInt? n).map fun w => { cfg with capacity := w }
    | _ => none
  else if names "trace" key then
    match node with
    | .scalar (.boolean b) => some { cfg with trace := b }
    | _ => none
  else some cfg

/-- Reads a configuration. A capacity of zero stands for the default; the check that it is
not negative comes last. -/
def parse (text : List UInt8) : Except Error Config :=
  match (Toml.Document.parse? text).bind fun d => d.root.foldlM (fun cfg (k, n) => assign cfg k n) {} with
  | none => .error .malformed
  | some cfg =>
    if cfg.capacity < 0 then .error (.invalidCapacity cfg.capacity)
    else .ok (if cfg.capacity = 0 then { cfg with capacity := defaultCapacity } else cfg)

inductive Source where
  | missing
  | directory
  | file (text : List UInt8)
  deriving DecidableEq, Repr, Inhabited

inductive LoadError where
  | missing
  | directory
  | parse (e : Error)
  deriving DecidableEq, Repr, Inhabited

def LoadError.message (path detail : String) : LoadError → String
  | missing => "cannot read " ++ path ++ ": open " ++ path ++ ": no such file or directory"
  | directory => "cannot read " ++ path ++ ": read " ++ path ++ ": is a directory"
  | parse e => "parse error in " ++ path ++ ": " ++ e.message detail

def load : Source → Except LoadError Config
  | .missing => .error .missing
  | .directory => .error .directory
  | .file text =>
    match Config.parse text with
    | .ok cfg => .ok cfg
    | .error e => .error (.parse e)

/-- A line as the standard logger writes it: it ends in a newline, added where missing. -/
def terminated (line : String) : String := if line.endsWith "\n" then line else line ++ "\n"

def standardLogger {σ : Type} (append : String → σ → σ) : Logger σ := fun line world =>
  (.returned (), append (terminated line) world)

/-- The settings of a machine: a capacity of zero and an absent trace change nothing. -/
def settings {σ : Type} (cfg : Config) (standard : Logger σ) : Setting σ :=
  Setting.group
    ((if cfg.capacity = 0 then [] else [Setting.capacity cfg.capacity])
      ++ if cfg.trace then [Setting.logger (some standard)] else [])

end Config
end FrameMachine
