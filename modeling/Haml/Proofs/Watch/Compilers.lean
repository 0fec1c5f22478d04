import Haml.Proofs.Dictionary
import Haml.Proofs.Session.Sharing
import Haml.Proofs.Text.Utf8
import Haml.Watch.Pass

/-!
A compiler is made for every file that is compiled, always with the same options. The first one adds
its tags to the shared table, and the others add the same tags again, which changes nothing. So all
files are compiled by the same rules.
-/
namespace Haml

namespace Shared

theorem addClosings_addClosings (sh : Shared) (d : Dialect)
    (new : Dictionary OptionValue TagKey) :
    (sh.addClosings d new).addClosings d new = sh.addClosings d new := by
  cases d <;> simp [addClosings, Dictionary.update_update]

/-- A compiler that is asked for again adds nothing. -/
theorem adopt_adopt (sh : Shared) (given : Given) :
    (sh.adopt given).adopt given = sh.adopt given := by
  unfold adopt
  cases Compiler.ofList given with
  | error e => rfl
  | ok c => exact addClosings_addClosings ..

end Shared

namespace Watch

variable {options : Given} {start now : Shared}

/-- What is shared by the compilers of some options: nothing was added yet, or all that they add. -/
def SharedBy (options : Given) (start now : Shared) : Prop :=
  now = start ∨ now = start.adopt options

theorem SharedBy.compiler_eq (h : SharedBy options start now) :
    now.compiler options = start.compiler options := by
  rcases h with rfl | rfl
  · rfl
  · rw [Shared.compiler, Shared.adopt_adopt, Shared.compiler]

/-- What comes of a file depends on its content only. -/
theorem SharedBy.compileFile_eq (h : SharedBy options start now) (content : List UInt8) :
    (compileFile options now content).1 = (compileFile options start content).1 := by
  unfold compileFile
  rw [h.compiler_eq]
  cases Text.Utf8.decode content with
  | error _ => rfl
  | ok t => rfl

/-- What comes of a file whose content is a text. -/
theorem compileFile_encode (options : Given) (shared : Shared) (t : Text) :
    (compileFile options shared (Text.Utf8.encode t)).1 =
      (Compiler.made options >>= fun c =>
        compile (c.profile (shared.adopt options)) t).mapError Failure.message := by
  rw [compileFile, Text.Utf8.decode_encode]
  simp only [Shared.compiler]
  cases Compiler.made options with
  | error e => rfl
  | ok c => rfl

theorem SharedBy.compileFile (h : SharedBy options start now) (content : List UInt8) :
    SharedBy options start (compileFile options now content).2 := by
  unfold Watch.compileFile
  rw [h.compiler_eq]
  cases Text.Utf8.decode content with
  | error _ => exact h
  | ok t =>
    refine .inr ?_
    rw [Shared.compiler]
    cases Compiler.made options with
    | error e => rfl
    | ok c => rfl

end Watch

end Haml
