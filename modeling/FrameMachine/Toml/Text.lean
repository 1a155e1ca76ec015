import FrameMachine.Bytes
/-!
# TOML text

A document is UTF-8 without control characters other than tab and line ends, where a
carriage return belongs to a line end. A byte order mark in front is skipped. The
characters come back with every line end as one newline.
-/
namespace FrameMachine.Toml

def isBlank (c : Char) : Bool := c == ' ' || c == '\t'

def isDigit (c : Char) : Bool := '0' ≤ c && c ≤ '9'

def isHexDigit (c : Char) : Bool := isDigit c || ('a' ≤ c && c ≤ 'f') || ('A' ≤ c && c ≤ 'F')

def isBareKeyChar (c : Char) : Bool :=
  ('A' ≤ c && c ≤ 'Z') || ('a' ≤ c && c ≤ 'z') || isDigit c || c == '_' || c == '-'

/-- The character stands for bytes that could not be decoded, or may not occur at all. -/
def isForbidden (c : Char) : Bool :=
  c == '\x7f' || c == '\ufffd' || (c < ' ' && c != '\t' && c != '\n')

def skipMark : List UInt8 → List UInt8
  | 0xef :: 0xbb :: 0xbf :: rest => rest
  | 0xff :: 0xfe :: rest => rest
  | 0xfe :: 0xff :: rest => rest
  | bytes => bytes

/-- Joins carriage returns to their newlines and refuses forbidden characters; what has
been read comes first, newest first. -/
def normalize : List Char → List Char → Option (List Char)
  | done, [] => some done.reverse
  | done, '\r' :: '\n' :: rest => normalize ('\n' :: done) rest
  | done, c :: rest => if isForbidden c then none else normalize (c :: done) rest

def characters? (bytes : List UInt8) : Option (List Char) :=
  (Bytes.toString? (skipMark bytes)).bind fun s => normalize [] s.toList

end FrameMachine.Toml
