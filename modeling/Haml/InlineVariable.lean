import Haml.Text.Blank

/-!
Inline variables. `#{name}` inside text stands for the value of an expression and is written as an
expression of the template language; a backslash in front keeps it as it is. The equals sign may be
enabled as a second mark.
-/
namespace Haml.InlineVariable

def isMark (equalsToo : Bool) (c : Char) : Bool := c == '#' || (equalsToo && c == '=')

/-- What follows the closing brace, if only white space stands before it. -/
def closing? (t : Text) : Option Text :=
  match t.dropWhile Text.isWhite with
  | '}' :: rest => some rest
  | _ => none

/-- The shortest non-empty body on one line that a closing brace follows, and what comes after. -/
def body? : Text → Option (Text × Text)
  | [] => none
  | c :: rest =>
    if c = '\n' then none
    else match closing? rest with
      | some after => some ([c], after)
      | none => (body? rest).map fun r => (c :: r.1, r.2)

/-- A body after an opening brace. White space around it does not belong to it, unless there is
nothing else inside the braces: then its last character that breaks no line is the body. -/
def braced? (t : Text) : Option (Text × Text) :=
  match body? (t.dropWhile Text.isWhite) with
  | some found => some found
  | none =>
    match t.dropWhile Text.isWhite, (t.takeWhile Text.isWhite).reverse.find? (· != '\n') with
    | '}' :: rest, some c => some ([c], rest)
    | _, _ => none

/-- The body of an inline variable at the start of a text, and what comes after it. -/
def start? (equalsToo : Bool) : Text → Option (Text × Text)
  | c :: '{' :: rest => if isMark equalsToo c then braced? rest else none
  | _ => none

theorem length_closing?_lt {t rest : Text} (h : closing? t = some rest) :
    rest.length < t.length := by
  have hd := (List.dropWhile_suffix Text.isWhite (l := t)).length_le
  unfold closing? at h
  split at h
  · rename_i r heq
    obtain rfl : r = rest := by simpa using h
    simp only [heq, List.length_cons] at hd
    omega
  · simp at h

theorem length_body?_lt {t b rest : Text} (h : body? t = some (b, rest)) :
    rest.length < t.length := by
  induction t generalizing b with
  | nil => simp [body?] at h
  | cons c t ih =>
    simp only [body?] at h
    split at h
    · simp at h
    · split at h
      · rename_i after hc
        obtain ⟨_, rfl⟩ : b = [c] ∧ after = rest := by simpa [eq_comm] using h
        have := length_closing?_lt hc
        simp only [List.length_cons]
        omega
      · simp only [Option.map_eq_some_iff, Prod.exists, Prod.mk.injEq] at h
        obtain ⟨b', r', hb, _, rfl⟩ := h
        have := ih hb
        simp only [List.length_cons]
        omega

theorem length_braced?_lt {t b rest : Text} (h : braced? t = some (b, rest)) :
    rest.length < t.length := by
  have hd := (List.dropWhile_suffix Text.isWhite (l := t)).length_le
  unfold braced? at h
  split at h
  · rename_i found hb
    simp only [Option.some.injEq] at h
    subst h
    have := length_body?_lt hb
    omega
  · split at h
    · rename_i r c heq _
      obtain ⟨_, rfl⟩ : b = [c] ∧ r = rest := by simpa [eq_comm] using h
      simp only [heq, List.length_cons] at hd
      omega
    · simp at h

theorem length_start?_lt {e : Bool} {t b rest : Text} (h : start? e t = some (b, rest)) :
    rest.length < t.length := by
  unfold start? at h
  split at h
  · split at h
    · have := length_braced?_lt h
      simp only [List.length_cons]
      omega
    · simp at h
  · simp at h

/-- Every inline variable written as an expression, unless a backslash stands before it; `before` is
the character in front of the text. -/
def expandFrom (equalsToo : Bool) (before : Option Char) (t : Text) : Text :=
  match t with
  | [] => []
  | c :: rest =>
    match _h : (if before = some '\\' then none else start? equalsToo (c :: rest)) with
    | some (body, rest') =>
      "\x7b\x7b ".toList ++ body ++ " \x7d\x7d".toList ++ expandFrom equalsToo (some '}') rest'
    | none => c :: expandFrom equalsToo (some c) rest
termination_by t.length
decreasing_by
  · split at _h
    · simp at _h
    · exact length_start?_lt _h
  · exact Nat.lt_succ_self _

/-- Every escaped inline variable without its backslash. -/
def unescape (equalsToo : Bool) (t : Text) : Text :=
  match t with
  | [] => []
  | c :: rest =>
    match _h : (if c = '\\' then start? equalsToo rest else none) with
    | some (_, rest') =>
      rest.take (rest.length - rest'.length) ++ unescape equalsToo rest'
    | none => c :: unescape equalsToo rest
termination_by t.length
decreasing_by
  · split at _h
    · exact Nat.lt_succ_of_lt (length_start?_lt _h)
    · simp at _h
  · exact Nat.lt_succ_self _

def replace (equalsToo : Bool) (t : Text) : Text :=
  unescape equalsToo (expandFrom equalsToo none t)

end Haml.InlineVariable
