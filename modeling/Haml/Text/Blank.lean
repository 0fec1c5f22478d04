import Haml.Text.Basic

/-!
Blank characters. There are two sets: `isWhite` is the White_Space property of Unicode, and
`isBlank` adds the four information separators U+001C to U+001F. Trimming goes by `isBlank`.
-/
namespace Haml.Text

/-- The White_Space property of Unicode. -/
def isWhite (c : Char) : Bool :=
  let n := c.toNat
  (9 ≤ n && n ≤ 13) || n == 0x20 || n == 0x85 || n == 0xA0 || n == 0x1680 ||
    (0x2000 ≤ n && n ≤ 0x200A) || n == 0x2028 || n == 0x2029 || n == 0x202F || n == 0x205F ||
    n == 0x3000

/-- White space or one of the information separators. -/
def isBlank (c : Char) : Bool := isWhite c || (0x1C ≤ c.toNat && c.toNat ≤ 0x1F)

def isIndent (c : Char) : Bool := c == ' ' || c == '\t'

/-- A character that may stand between two attributes: a space, a tab or a line break. -/
def isGap (c : Char) : Bool := c == ' ' || c == '\t' || c == '\r' || c == '\n'

def trimLeft (t : Text) : Text := t.dropWhile isBlank

def trimRight (t : Text) : Text := (t.reverse.dropWhile isBlank).reverse

def trim (t : Text) : Text := trimRight (trimLeft t)

theorem dropWhile_dropWhile (q : Char → Bool) (t : Text) :
    (t.dropWhile q).dropWhile q = t.dropWhile q := by
  induction t with
  | nil => rfl
  | cons c t ih => cases h : q c <;> simp [h, ih]

theorem trim_trim (t : Text) : trim (trim t) = trim t := by
  have hkept : trimLeft (trimRight (trimLeft t)) = trimRight (trimLeft t) := by
    cases h : trimLeft t with
    | nil => rfl
    | cons c u =>
      have hc : isBlank c = false := by
        have hhead := List.head?_dropWhile_not isBlank t
        rwa [show t.dropWhile isBlank = c :: u from h] at hhead
      have hright : trimRight (c :: u) = c :: trimRight u := by
        simp only [trimRight, List.reverse_cons, List.dropWhile_append]
        split <;> simp_all
      rw [hright, trimLeft, List.dropWhile_cons_of_neg (by simp [hc])]
  rw [trim, trim, hkept, trimRight, trimRight, List.reverse_reverse, dropWhile_dropWhile]

def words (t : Text) : List Text := (splitWhen isBlank t).filter (! ·.isEmpty)

end Haml.Text
