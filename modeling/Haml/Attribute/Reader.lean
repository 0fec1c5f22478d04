import Haml.Attribute.Basic
import Haml.Attribute.Block
import Haml.Escape.Html
import Haml.Options

/-!
Attribute dictionaries as they are written in a template. There are three writings:
`{:key => value, …}`, `{key: value, …}` and `(key=value …)`. The compiler of block values is the
parameter `block`.
-/
namespace Haml.Attribute

variable (s : Settings) (block : Text → Except Failure Text)

/-- A single value: a quoted string, a number, a keyword or a variable. -/
def scalar : Reader Scalar := do
  let c ← Reader.peek
  if Reader.isQuote c then
    let t ← Reader.quotedString
    return .text (if s.escapeValues then Escape.html t else t)
  else if Text.isDigit c then
    return .text (← Reader.number)
  else
    return Scalar.ofWord (← Reader.word fun _ => false)

/-- The items of a list up to its closing bracket, which is not passed over. -/
def items (close : Char) : Text → Reader (List Scalar)
  | [] => throw .stalled
  | _ :: steps => do
    let _ ← Reader.indentation
    if (← Reader.peek) = close then return []
    let v ← scalar s
    let _ ← Reader.indentation
    if (← Reader.peek) ≠ close then
      let _ ← Reader.symbol [[',']]
    return v :: (← items close steps)

def list : Reader (List Scalar) := do
  let c ← Reader.peek
  if c = '(' ∨ c = '[' then
    Reader.skip
    let vs ← items s (if c = '(' then ')' else ']') (← Reader.allowance)
    Reader.skip
    return vs
  else
    throw .misplaced

/-- The value after a separator; `opens` says which characters start a list. -/
def assigned (opens : Char → Bool) : Reader Value := do
  let _ ← Reader.indentation
  Reader.expectInput
  let c ← Reader.peek
  if c = '\n' then
    Reader.skip
    return .one (.text (← blockValue block))
  else if opens c then
    return .many (← list s)
  else
    return .one (← scalar s)

def isDash (c : Char) : Bool := c == '-'

/-- The key of an attribute in braces that does not start with a colon. -/
def bareKey : Reader Text := do
  if Reader.isQuote (← Reader.peek) then
    let key ← Reader.quotedString
    if key.isEmpty then Reader.reject .emptyName
    return key
  else
    Reader.word isDash

/-- An attribute in braces: `:key => value` or `key: value`. Without a value it is switched on. -/
def bracedEntry : Reader (Text × Value) := do
  let arrow := (← Reader.peek) = ':'
  let key ←
    if arrow then do
      Reader.skip
      Reader.word isDash
    else bareKey
  let _ ← Reader.indentation
  let c ← Reader.peek
  if c = '=' ∨ c = ':' then
    let _ ← Reader.symbol [if arrow then ['=', '>'] else [':']]
    return (key, ← assigned s block fun c => c == '(' || c == '[')
  else
    return (key, .one (.flag true))

/-- The characters of a key in parentheses besides those of words. -/
def isKeyMark (c : Char) : Bool := [':', '-', '$', '?', '[', ']'].contains c

/-- An attribute in parentheses: `key=value`. Without a value it is switched on. -/
def parenEntry : Reader (Text × Value) := do
  let key ← Reader.word isKeyMark
  let c ← Reader.peek
  if !(Text.isIndent c || c == '=' || c == ')') then Reader.unexpected
  let _ ← Reader.indentation
  if (← Reader.peek) = '=' then
    let _ ← Reader.symbol [['=']]
    return (key, ← assigned s block fun c => c == '[')
  else
    return (key, .one (.flag true))

/-- Adds an entry, whose key must be new. -/
def record (d : Attributes) (entry : Text × Value) : Reader Attributes := do
  if d.contains entry.1 then Reader.reject (.duplicate entry.1)
  return d.insert entry.1 entry.2

def parenEntries : Text → Attributes → Reader Attributes
  | [], _ => throw .stalled
  | _ :: steps, d => do
    let _ ← Reader.gap
    if ← Reader.atEnd then Reader.reject .unterminatedDictionary
    if (← Reader.peek) = ')' then
      Reader.skip
      return d
    let d ← record d (← parenEntry s block)
    let _ ← Reader.indentation
    if (← Reader.peek) = ',' then Reader.reject (.unexpected ',')
    parenEntries steps d

/-- The entries in braces up to the closing one. A comma or a line break stands between two. -/
def bracedEntries : Text → Attributes → Reader Attributes
  | [], _ => throw .stalled
  | _ :: steps, d => do
    let _ ← Reader.gap
    if ← Reader.atEnd then Reader.reject .unterminatedDictionary
    if (← Reader.peek) = '}' then
      Reader.skip
      return d
    let d ← record d (← bracedEntry s block)
    let _ ← Reader.indentation
    let c ← Reader.peek
    if c ≠ '}' ∧ c ≠ '\n' then
      let _ ← Reader.symbol [[',']]
    bracedEntries steps d

/-- An attribute dictionary in any of its writings. -/
def dictionary : Reader Attributes := do
  let c ← Reader.peek
  if c = '(' then
    Reader.skip
    parenEntries s block (← Reader.allowance) []
  else if c = '{' then
    Reader.skip
    bracedEntries s block (← Reader.allowance) []
  else
    throw .misplaced

end Haml.Attribute
