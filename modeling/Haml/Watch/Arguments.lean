import Haml.Dictionary
import Haml.Text.Integer

/-!
Arguments of the command line. Options may be shortened as long as they stay unique, one-letter
options may be joined, and a value may follow an equals sign. The two directories are taken together
where the first argument that belongs to no option stands.
-/
namespace Haml.Watch

structure Arguments where
  verbose : Bool := false
  inputExtensions : Option (List Text) := none
  extension : Text := ".html".toList
  refresh : Int := 3
  inputDir : Text := []
  outputDir : Option Text := none
  tags : Dictionary Text := []
  attrWrapper : Text := ['\'']
  inlineEquals : Bool := false
  jinja : Bool := false
  once : Bool := false
  deriving DecidableEq, Repr

inductive ArgumentError where
  | usage
  /-- A tag was not given as a name and a closing tag with one colon between. -/
  | badPair
  /-- Help was asked for. -/
  | help
  deriving DecidableEq, Repr

inductive Flag where
  | help
  | verbose
  | inputExtension
  | extension
  | refresh
  | tag
  | attrWrapper
  | inlineEquals
  | jinja
  | once
  deriving DecidableEq, Repr

inductive Arity where
  | none
  | one
  | some
  deriving DecidableEq, Repr

namespace Flag

def arity : Flag → Arity
  | help | verbose | inlineEquals | jinja | once => .none
  | extension | refresh | tag | attrWrapper => .one
  | inputExtension => .some

def names : List (Text × Flag) :=
  [("-h", help), ("--help", help), ("-v", verbose), ("--verbose", verbose),
   ("-i", inputExtension), ("--input-extension", inputExtension), ("-ext", extension),
   ("--extension", extension), ("-r", refresh), ("--refresh", refresh), ("--tag", tag),
   ("--attr-wrapper", attrWrapper), ("--django-inline", inlineEquals), ("--jinja", jinja),
   ("--once", once)].map fun e => (e.1.toList, e.2)

end Flag

/-- An option as it is written: `short` if it has one dash only, with the value joined to it, if
there is one, and whether an equals sign stands between. -/
structure Use where
  flag : Flag
  short : Bool
  joined : Option (Bool × Text) := none
  deriving DecidableEq, Repr

inductive Word where
  | value (t : Text)
  | option (u : Use)
  | unknown
  | dashes
  deriving DecidableEq, Repr

namespace Word

def isDouble (t : Text) : Bool := Text.startsWith ['-', '-'] t

def cutAtEquals (t : Text) : Text × Option Text :=
  match t.dropWhile (· != '=') with
  | [] => (t, none)
  | _ :: given => (t.takeWhile (· != '='), some given)

/-- The options that a word which is no option name can stand for. -/
def shortened (t : Text) : List Use :=
  if isDouble t then
    let (start, given) := cutAtEquals t
    (Flag.names.filter fun e => Text.startsWith start e.1).map fun e =>
      { flag := e.2, short := false, joined := given.map fun v => (true, v) }
  else
    Flag.names.filterMap fun e =>
      if e.1 = t.take 2 then some { flag := e.2, short := true, joined := some (false, t.drop 2) }
      else if Text.startsWith t e.1 then some { flag := e.2, short := !isDouble e.1 }
      else none

/-- Whether a word is a negative number, and so a value. A line break may end it. -/
def isNegative (t : Text) : Bool :=
  let body := if t.getLast? = some '\n' then t.dropLast else t
  match body with
  | '-' :: digits =>
    match digits.dropWhile Text.isDecimal with
    | [] => !digits.isEmpty
    | '.' :: places => !places.isEmpty && places.all Text.isDecimal
    | _ => false
  | _ => false

def classify (t : Text) : Except ArgumentError Word :=
  if t.head? ≠ some '-' then .ok (.value t)
  else match Flag.names.lookup t with
    | some f => .ok (.option { flag := f, short := !isDouble t })
    | none =>
      if t.length = 1 then .ok (.value t)
      else match cutAtEquals t with
        | (name, some given) =>
          match Flag.names.lookup name with
          | some f =>
            .ok (.option { flag := f, short := !isDouble name, joined := some (true, given) })
          | none => guess t
        | (_, none) => guess t
where
  guess (t : Text) : Except ArgumentError Word :=
    match shortened t with
    | [u] => .ok (.option u)
    | [] => .ok (if isNegative t || t.contains ' ' then .value t else .unknown)
    | _ => .error .usage

/-- The words of a command line. After two dashes all words are values. -/
def classifyAll : List Text → Except ArgumentError (List Word)
  | [] => .ok []
  | t :: ts =>
    if t = ['-', '-'] then .ok (.dashes :: ts.map .value)
    else do return (← classify t) :: (← classifyAll ts)

def isOption : Word → Bool
  | option _ | unknown => true
  | value _ | dashes => false

def value? : Word → Option Text
  | value t => some t
  | _ => none

end Word

namespace Arguments

/-- Takes note of an option and its values. -/
def apply (a : Arguments) (f : Flag) (values : List Text) : Except ArgumentError Arguments :=
  match f, values with
  | .help, _ => .error .help
  | .verbose, _ => .ok { a with verbose := true }
  | .inlineEquals, _ => .ok { a with inlineEquals := true }
  | .jinja, _ => .ok { a with jinja := true }
  | .once, _ => .ok { a with once := true }
  | .inputExtension, vs => .ok { a with inputExtensions := some vs }
  | .extension, [v] => .ok { a with extension := v }
  | .refresh, [v] =>
    match Text.integer? v with
    | some n => .ok { a with refresh := n }
    | none => .error .usage
  | .tag, [v] =>
    match Text.splitWhen (· == ':') v with
    | [name, closing] => .ok { a with tags := a.tags.insert name closing }
    | _ => .error .badPair
  | .attrWrapper, [v] =>
    if v = ['"'] ∨ v = ['\''] then .ok { a with attrWrapper := v } else .error .usage
  | _, _ => .error .usage

/-- The values of an option that follow it as words, and the words after them. -/
def following (f : Flag) (rest : List Word) : Except ArgumentError (List Text × List Word) :=
  match f.arity with
  | .none => .ok ([], rest)
  | .one =>
    match rest with
    | .value v :: rest => .ok ([v], rest)
    | _ => .error .usage
  | .some =>
    match rest.takeWhile (·.value?.isSome) with
    | [] => .error .usage
    | vs => .ok (vs.filterMap (·.value?), rest.drop vs.length)

/-- The options that an option joined with a value stands for: the value itself if the option takes
one, and more one-letter options otherwise. The flag says whether a letter was no option. -/
def unjoin (short : Bool) (rest : List Word) :
    Text → Flag → Bool → Except ArgumentError (List (Flag × List Text) × Bool × List Word)
  | t, f, equals =>
    match f.arity, t with
    | .none, [] => .error .usage
    | .none, c :: t =>
      if !short || equals || c == '-' then .error .usage
      else match Flag.names.lookup ['-', c], t with
        | none, _ => .ok ([(f, [])], true, rest)
        | some g, [] => do
          let (vs, rest) ← following g rest
          return ([(f, []), (g, vs)], false, rest)
        | some g, d :: t => do
          let (uses, odd, rest) ←
            if d = '=' then unjoin short rest t g true else unjoin short rest (d :: t) g false
          return ((f, []) :: uses, odd, rest)
    | _, t => .ok ([(f, [t])], false, rest)

/-- An option and its values: what to note, whether something odd was among it, and the rest. -/
def optionUses (u : Use) (rest : List Word) :
    Except ArgumentError (List (Flag × List Text) × Bool × List Word) :=
  match u.joined with
  | some (equals, t) => unjoin u.short rest t u.flag equals
  | none => do
    let (vs, rest) ← following u.flag rest
    return ([(u.flag, vs)], false, rest)

/-- The directories at the start of the words: the first is needed, the second may be missing. Two
dashes in place of the second do not count. -/
def directories? (words : List Word) : Option (Text × Option Text × List Word) :=
  let skip := List.dropWhile (· == Word.dashes)
  match skip words with
  | .value input :: rest =>
    match skip rest with
    | .value output :: rest =>
      some (input, if output = ['-', '-'] then none else some output, skip rest)
    | rest => some (input, none, rest)
  | _ => none

/-- Reads words up to the end. `needsDirs` says whether the directories are still to come and
`odd` whether some word belonged to nothing. -/
def read : Nat → Arguments → (needsDirs odd : Bool) → List Word → Except ArgumentError Arguments
  | 0, _, _, _, _ => .error .usage
  | _ + 1, a, needsDirs, odd, [] => if needsDirs || odd then .error .usage else .ok a
  | steps + 1, a, needsDirs, odd, w :: rest =>
    match w with
    | .unknown => read steps a needsDirs true rest
    | .option u => do
      let (uses, odd', rest) ← optionUses u rest
      let a ← uses.foldlM (fun (a : Arguments) e => a.apply e.1 e.2) a
      read steps a needsDirs (odd || odd') rest
    | .value _ | .dashes =>
      match if needsDirs then directories? (w :: rest) else none with
      | some (input, output, rest) =>
        read steps { a with inputDir := input, outputDir := output } false odd rest
      | none => read steps a needsDirs true ((w :: rest).dropWhile (! ·.isOption))

def parse (ts : List Text) : Except ArgumentError Arguments := do
  let words ← Word.classifyAll ts
  read (words.length + 1) {} true false words

end Arguments

end Haml.Watch
