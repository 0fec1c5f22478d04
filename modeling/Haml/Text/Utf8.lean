import Haml.Text.Basic

/-! UTF-8 as it is read from files, with the place and the reason of the first error. -/
namespace Haml.Text.Utf8

/-- A piece of a byte sequence: a character, bytes that are part of none, or the start of a
character that the end of the sequence cuts off. -/
inductive Piece where
  | char (c : Char)
  | invalid (count : Nat) (reason : Text)
  | incomplete (count : Nat)
  deriving DecidableEq, Repr

def invalidStart : Text := "invalid start byte".toList
def invalidContinuation : Text := "invalid continuation byte".toList

/-- How many bytes follow a first byte, the range of the first of them, and the bits that the first
byte gives. -/
def lead? (b : Nat) : Option (Nat × Nat × Nat × Nat) :=
  if b < 0x80 then some (0, 0, 0, b)
  else if b < 0xC2 then none
  else if b < 0xE0 then some (1, 0x80, 0xBF, b - 0xC0)
  else if b = 0xE0 then some (2, 0xA0, 0xBF, 0)
  else if b = 0xED then some (2, 0x80, 0x9F, 0xD)
  else if b < 0xF0 then some (2, 0x80, 0xBF, b - 0xE0)
  else if b = 0xF0 then some (3, 0x90, 0xBF, 0)
  else if b < 0xF4 then some (3, 0x80, 0xBF, b - 0xF0)
  else if b = 0xF4 then some (3, 0x80, 0x8F, 4)
  else none

/-- Reads `n` more bytes of a character, the first of them between `lo` and `hi`. -/
def continue? : (n lo hi code seen : Nat) → List UInt8 → Piece
  | 0, _, _, code, _, _ => .char (Char.ofNat code)
  | _ + 1, _, _, _, seen, [] => .incomplete seen
  | n + 1, lo, hi, code, seen, b :: rest =>
    if lo ≤ b.toNat ∧ b.toNat ≤ hi then
      continue? n 0x80 0xBF (code * 64 + (b.toNat - 0x80)) (seen + 1) rest
    else .invalid seen invalidContinuation

def startsSurrogate (b c : UInt8) : Bool := b == 0xED && 0xA0 ≤ c && c ≤ 0xBF

/-- The piece that starts with a byte. The code of a surrogate is invalid, but cut off it counts as
incomplete like others. -/
def piece (b : UInt8) (rest : List UInt8) : Piece :=
  match lead? b.toNat with
  | none => .invalid 1 invalidStart
  | some (n, lo, hi, bits) =>
    match rest with
    | [c] => if startsSurrogate b c then .incomplete 2 else continue? n lo hi bits 1 rest
    | _ => continue? n lo hi bits 1 rest

/-- How many bytes of a piece come after its first one. -/
def Piece.extra : Piece → Nat
  | char c => c.utf8Size - 1
  | invalid count _ | incomplete count => count - 1

def pieces (position : Nat) (bytes : List UInt8) : List (Nat × Piece × List UInt8) :=
  match bytes with
  | [] => []
  | b :: rest =>
    let p := piece b rest
    (position, p, b :: rest.take p.extra) :: pieces (position + 1 + p.extra) (rest.drop p.extra)
termination_by bytes.length
decreasing_by
  simp only [List.length_drop, List.length_cons]
  omega

def hexByte (b : UInt8) : Text :=
  [Nat.digitChar (b.toNat / 16), Nat.digitChar (b.toNat % 16)]

/-- The report of bytes that are part of no character. -/
def report (position : Nat) (bytes : List UInt8) (reason : Text) : Text :=
  "'utf-8' codec can't decode ".toList ++
    (match bytes with
      | [b] => "byte 0x".toList ++ hexByte b ++ " in position ".toList ++ ofNat position
      | _ => "bytes in position ".toList ++ ofNat position ++ ['-'] ++
          ofNat (position + bytes.length - 1)) ++
    ": ".toList ++ reason

def Piece.text (position : Nat) (bytes : List UInt8) : Piece → Except Text Text
  | char c => .ok [c]
  | incomplete _ => .ok []
  | invalid _ reason => .error (report position bytes reason)

/-- The text that bytes stand for, or a report of the first error. A character that is cut off at
the end is left out. -/
def decode (bytes : List UInt8) : Except Text Text := do
  let texts ← (pieces 0 bytes).mapM fun x => x.2.1.text x.1 x.2.2
  return texts.flatten

/-- The text that bytes stand for, with the bytes that are part of no character written out. -/
def decodeShown (bytes : List UInt8) : Text :=
  (pieces 0 bytes).flatMap fun
    | (_, .char c, _) => [c]
    | (_, .invalid _ _, bs) | (_, .incomplete _, bs) =>
      bs.flatMap fun b => "\\x".toList ++ hexByte b

def encode (t : Text) : List UInt8 := t.flatMap String.utf8EncodeChar

end Haml.Text.Utf8
