import Haml.Text.Blank

/-!
Quoted literals. Inside the quotes a backslash starts an escape: a named control character, an octal
or hexadecimal code, or a line break that is left out. Any other backslash stands for itself.
-/
namespace Haml.Text

def hexDigit? (c : Char) : Option Nat :=
  if '0' ≤ c ∧ c ≤ '9' then some (c.toNat - 48)
  else if 'a' ≤ c ∧ c ≤ 'f' then some (c.toNat - 87)
  else if 'A' ≤ c ∧ c ≤ 'F' then some (c.toNat - 55)
  else none

def isOctal (c : Char) : Bool := '0' ≤ c && c ≤ '7'

def octalValue (digits : Text) : Nat := digits.foldl (fun n c => n * 8 + (c.toNat - 48)) 0

/-- The number that hexadecimal digits stand for, if all of them are digits. -/
def hexValue? (digits : Text) : Option Nat :=
  digits.foldlM (fun n c => (hexDigit? c).map (n * 16 + ·)) 0

def charOfCode? (n : Nat) : Option Char :=
  if n.isValidChar then some (Char.ofNat n) else none

/-- A code written with exactly `n` hexadecimal digits, and what follows them. -/
def hexCode? (n : Nat) (t : Text) : Option (Text × Text) :=
  if (t.take n).length = n then do
    let code ← hexValue? (t.take n)
    let c ← charOfCode? code
    return ([c], t.drop n)
  else none

def namedEscape? : Char → Option Char
  | '\\' => some '\\'
  | '\'' => some '\''
  | '"' => some '"'
  | 'a' => some '\x07'
  | 'b' => some '\x08'
  | 'f' => some '\x0c'
  | 'n' => some '\n'
  | 'r' => some '\r'
  | 't' => some '\t'
  | 'v' => some '\x0b'
  | _ => none

/-- What a backslash followed by `t` stands for, and what follows the escape. Characters given by
name are not known, nor are the codes of surrogates. -/
def escape? : Text → Option (Text × Text)
  | [] => none
  | c :: rest =>
    match namedEscape? c with
    | some d => some ([d], rest)
    | none =>
      if c = '\n' then some ([], rest)
      else if c = '\r' then some ([], (after? ['\n'] rest).getD rest)
      else if isOctal c then
        let digits := c :: (rest.take 2).takeWhile isOctal
        some ([Char.ofNat (octalValue digits)], (c :: rest).drop digits.length)
      else if c = 'x' then hexCode? 2 rest
      else if c = 'u' then hexCode? 4 rest
      else if c = 'U' then hexCode? 8 rest
      else if c = 'N' then none
      else some (['\\', c], rest)

theorem length_after?_le {start t rest : Text} (h : after? start t = some rest) :
    rest.length ≤ t.length := by
  induction start generalizing t with
  | nil => simp_all [after?]
  | cons s start ih =>
    cases t with
    | nil => simp [after?] at h
    | cons c t =>
      by_cases hc : s = c
      · have hle := ih (by simpa [after?, hc] using h)
        exact Nat.le_succ_of_le hle
      · simp [after?, hc] at h

theorem length_hexCode?_le {n : Nat} {t u rest : Text} (h : hexCode? n t = some (u, rest)) :
    rest.length ≤ t.length := by
  unfold hexCode? at h
  split at h
  · simp only [Option.bind_eq_bind, Option.bind_eq_some_iff] at h
    obtain ⟨code, _, c, _, h⟩ := h
    simp only [Option.pure_def, Option.some.injEq, Prod.mk.injEq] at h
    simp [← h.2]
  · simp at h

theorem length_escape?_lt {t u rest : Text} (h : escape? t = some (u, rest)) :
    rest.length < t.length := by
  cases t with
  | nil => simp [escape?] at h
  | cons c t =>
    suffices rest.length ≤ t.length by simpa using Nat.lt_succ_of_le this
    simp only [escape?] at h
    split at h
    · simp_all
    · split at h
      · simp_all
      · split at h
        · cases hr : after? ['\n'] t with
          | none => simp_all
          | some r =>
            have hle := length_after?_le hr
            simp_all
        · split at h
          · simp only [Option.some.injEq, Prod.mk.injEq] at h
            simp [← h.2]
          · split at h
            · exact length_hexCode?_le h
            · split at h
              · exact length_hexCode?_le h
              · split at h
                · exact length_hexCode?_le h
                · split at h <;> simp_all

/-- Reads a literal up to its closing quote `q`: its value, and what follows the quote. A line break
inside the literal is an error. -/
def unquote (q : Char) (t : Text) : Option (Text × Text) :=
  match t with
  | [] => none
  | c :: rest =>
    if c = q then some ([], rest)
    else if c = '\n' ∨ c = '\r' then none
    else if c = '\\' then
      match _h : escape? rest with
      | none => none
      | some (u, rest') => (unquote q rest').map fun r => (u ++ r.1, r.2)
    else (unquote q rest).map fun r => (c :: r.1, r.2)
termination_by t.length
decreasing_by
  · exact Nat.lt_succ_of_lt (length_escape?_lt _h)
  · exact Nat.lt_succ_self _

/-- A line that holds nothing but blanks and a comment. -/
def isRemark (line : Text) : Bool :=
  match line.dropWhile (fun c => c == ' ' || c == '\t' || c == '\x0c') with
  | [] => true
  | c :: _ => c == '#'

/-- The value of a literal that is opened by `q` and goes on with `source`. Where it closes early,
only remarks may follow it: a second literal or an operator is refused like anything else. A NUL is
not allowed anywhere. -/
def literal? (q : Char) (source : Text) : Option Text :=
  match unquote q source with
  | none => none
  | some (value, rest) =>
    if source.any (·.toNat == 0) then none
    else if (splitWhen (fun c => c == '\n' || c == '\r') rest).all isRemark then some value
    else none

end Haml.Text
