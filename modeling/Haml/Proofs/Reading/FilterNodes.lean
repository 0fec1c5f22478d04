import Haml.Proofs.Reading.Blocks
import Haml.Proofs.Reading.Series

/-!
Filters as they are read. A filter is a line with its name, and the lines of a block that is
indented by one more than the filter is.
-/
namespace Haml.Node

open Reader
open Text (endLines isIndent)

variable {name rest : Text}

theorem deeperTurn_eq_blockTurn (depth : Nat) :
    deeperTurn depth = Attribute.blockTurn (some (depth + 1)) := by
  rw [deeperTurn, Attribute.blockTurn]
  refine bind_congr fun done => ?_
  split
  · rfl
  · refine bind_congr fun m => ?_
    cases m with
    | none => rfl
    | some m => simp only [Nat.lt_succ_iff]

/-- A filter takes the lines of a block that is indented by one more than the filter is. -/
theorem deeperLines_eq_blockLines (depth : Nat) (steps : Text) :
    deeperLines depth steps = Attribute.blockLines (some (depth + 1)) steps := by
  rw [deeperLines_eq, Attribute.blockLines_eq, deeperTurn_eq_blockTurn]

theorem reads_line? {l : Text} (hl : '\n' ∉ l) (rest : Text) :
    Reads line? (l ++ ['\n']) (some l) rest :=
  (reads_atEnd (by simp)).look (.ite_neg (by simp) ((reads_line hl rest).map some))

theorem reads_filterNode {indent : Text} {ls : List Text} (hname : '\n' ∉ name)
    (hls : ∀ l ∈ ls, '\n' ∉ l ∧ Attribute.Fits (some (indent.length + 1)) l)
    (hends : Attribute.Ends (some (indent.length + 1)) rest) :
    Reads (filterNode indent) (':' :: (name ++ ['\n'] ++ endLines ls))
      { indent := indent
        content := .filter (Text.trimRight name)
          (Text.unlines (ls.map Attribute.blankToEmpty)) } rest := by
  have hbody := Attribute.reads_blockLines hls hends (Text.length_lt_endLines ls rest)
  rw [← deeperLines_eq_blockLines] at hbody
  refine (reads_peek rfl).look (.ite_neg (by simp) ?_)
  refine (reads_skip ':' _).bind ((reads_line? hname _).bind ?_)
  exact (reads_allowance _).look (hbody.last (reads_pure _ _))

/-- A filter on a line of its own. -/
theorem reads_next_filter (p : Profile) (block : Text → Except Failure Text) {indent : Text}
    {ls : List Text} (hindent : ∀ x ∈ indent, isIndent x = true) (hname : '\n' ∉ name)
    (hls : ∀ l ∈ ls, '\n' ∉ l ∧ Attribute.Fits (some (indent.length + 1)) l)
    (hends : Attribute.Ends (some (indent.length + 1)) rest) :
    Reads (next p block) (indent ++ ':' :: (name ++ ['\n'] ++ endLines ls))
      (0, some { indent := uniform indent
                 content := .filter (Text.trimRight name)
                  (Text.unlines (ls.map Attribute.blankToEmpty)) }) rest := by
  intro passed
  have hlength : (uniform indent).length = indent.length := length_uniform indent
  have hfilter : Reads (filterNode (uniform indent)) (':' :: (name ++ ['\n'] ++ endLines ls)) _
      rest := reads_filterNode hname (hlength ▸ hls) (hlength ▸ hends)
  have hnode : Reads (node p block (uniform indent)) (':' :: (name ++ ['\n'] ++ endLines ls)) _
      rest := (reads_peek rfl).look (.ite_pos rfl hfilter)
  have hstart : StartsLine (':' :: (name ++ ['\n'] ++ endLines ls) ++ rest) :=
    ⟨':', _, rfl, by decide, by decide⟩
  have hread := (hnode.map fun n => (0, some n)) (indent.reverse ++ passed)
  rw [List.append_assoc, next_line hindent hstart, hread]
  simp

end Haml.Node
