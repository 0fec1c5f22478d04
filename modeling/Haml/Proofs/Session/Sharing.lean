import Haml.Proofs.Compile.Tables
import Haml.Session

/-!
Compilers of a session. The compilers of a dialect share one table of closing tags, and each of them
adds its own tags to it. So what a compiler answers depends on all compilers of its dialect that
were made before the answer, also on those that were made after the compiler itself. It answers as
if it were alone if and only if no template tells the shared table from the one that it would have
alone.
-/
namespace Haml

abbrev Given := List (Text × OptionValue)

namespace Dialect

/-- What the table of a dialect gets when a compiler is asked for. If there is something wrong with
the tags of its own, the compiler is not made, but the table has got those before that. -/
def additions (d : Dialect) (given : Given) : Dictionary OptionValue TagKey :=
  match Compiler.ofList given with
  | .ok c => if c.dialect = d then c.options.closings.1 else []
  | .error _ => []

def tagsAfter (d : Dialect) (asked : List Given) : Tags where
  closings := asked.foldl (fun table given => table.update (d.additions given)) d.tags.closings
  inner := d.tags.inner

end Dialect

namespace Shared

theorem table_addClosings (sh : Shared) (d d' : Dialect) (new : Dictionary OptionValue TagKey) :
    (sh.addClosings d new).table d' = (sh.table d').update (if d = d' then new else []) := by
  cases d <;> cases d' <;> rfl

theorem filters_addClosings (sh : Shared) (d : Dialect) (new : Dictionary OptionValue TagKey) :
    (sh.addClosings d new).filters = sh.filters := by
  cases d <;> rfl

theorem table_adopt (sh : Shared) (given : Given) (d : Dialect) :
    (sh.adopt given).table d = (sh.table d).update (d.additions given) := by
  unfold adopt Dialect.additions
  cases Compiler.ofList given with
  | error e => rfl
  | ok c => exact table_addClosings ..

theorem filters_adopt (sh : Shared) (given : Given) : (sh.adopt given).filters = sh.filters := by
  unfold adopt
  cases Compiler.ofList given with
  | error e => rfl
  | ok c => exact filters_addClosings ..

end Shared

/-- What a compiler goes by after some compilers have been asked for. -/
def Compiler.profileAmong (c : Compiler) (fs : Filters) (asked : List Given) : Profile where
  settings := c.options.settings
  tags := c.dialect.tagsAfter asked
  filters := fs
  inlineEquals := c.inlineEquals

namespace Session

inductive Step where
  | create (given : Given)
  | process (number : Nat) (template : Text)

def next (s : Session) : Step → Session
  | .create given => (s.create given).2
  | .process _ _ => s

def after (fs : Filters) (steps : List Step) : Session :=
  steps.foldl next { shared := { filters := fs } }

def answer (s : Session) (i : Nat) (t : Text) : Except Failure Text := do
  s.process (← s.compiler i) t

def asked (steps : List Step) : List Given :=
  steps.filterMap fun
    | .create given => some given
    | .process _ _ => none

/-- How a session depends on the compilers that were asked for. -/
structure Follows (fs : Filters) (asked : List Given) (s : Session) : Prop where
  compilers : s.compilers = asked.map fun given => (Compiler.made given).toOption
  filters : s.shared.filters = fs
  table : ∀ d : Dialect, s.shared.table d = (d.tagsAfter asked).closings

theorem follows_start (fs : Filters) : Follows fs [] { shared := { filters := fs } } where
  compilers := rfl
  filters := rfl
  table d := by cases d <;> rfl

variable {fs : Filters} {before : List Given} {s : Session}

theorem Follows.create (h : Follows fs before s) (given : Given) :
    Follows fs (before ++ [given]) (s.create given).2 where
  compilers := by simp [Session.create, Shared.compiler, h.compilers]
  filters := (Shared.filters_adopt ..).trans h.filters
  table d := by
    refine (Shared.table_adopt ..).trans ?_
    simp [h.table d, Dialect.tagsAfter]

theorem Follows.next (h : Follows fs before s) (step : Step) :
    Follows fs (before ++ asked [step]) (s.next step) := by
  cases step with
  | create given => exact h.create given
  | process i t => exact (List.append_nil before).symm ▸ h

/-- Steps change a session through the compilers that they ask for. -/
theorem Follows.steps (h : Follows fs before s) (steps : List Step) :
    Follows fs (before ++ asked steps) (steps.foldl Session.next s) := by
  induction steps generalizing before s with
  | nil => simpa [asked] using h
  | cons step steps ih =>
    have hsplit : asked (step :: steps) = asked [step] ++ asked steps :=
      List.filterMap_append (l := [step])
    rw [hsplit, ← List.append_assoc]
    exact ih (h.next step)

theorem follows_after (fs : Filters) (steps : List Step) :
    Follows fs (asked steps) (after fs steps) :=
  (follows_start fs).steps steps

theorem Follows.answer {i : Nat} {given : Given} (h : Follows fs before s)
    (hi : before[i]? = some given) (t : Text) :
    s.answer i t =
      match Compiler.made given with
      | .ok c => compile (c.profileAmong fs before) t
      | .error _ => .error .notMade := by
  have hprofile (c : Compiler) : c.profile s.shared = c.profileAmong fs before := by
    simp only [Compiler.profile, Compiler.profileAmong, h.filters, h.table]
    rfl
  simp only [Session.answer, compiler, process, h.compilers, List.getElem?_map, hi, hprofile,
    Option.map_some]
  cases Compiler.made given <;> rfl

/-- A compiler of a session answers as it does in a session of its own if and only if its options
make no compiler, or no tag name tells the table that it shares from the table it has alone. -/
theorem answer_alone_iff (fs : Filters) (steps : List Step) (i : Nat) (given : Given)
    (hi : (asked steps)[i]? = some given) :
    (∀ t, (after fs steps).answer i t = (after fs [.create given]).answer 0 t) ↔
      ∀ c, Compiler.made given = .ok c →
        (c.dialect.tagsAfter [given]).Indistinct (!c.options.settings.outline)
          (c.dialect.tagsAfter (asked steps)) := by
  have halone : (asked [.create given])[0]? = some given := rfl
  simp only [(follows_after fs steps).answer hi, (follows_after fs [.create given]).answer halone]
  cases hm : Compiler.made given with
  | error e => simp
  | ok c =>
    have hiff := compile_eq_iff_indistinct (c.profileAmong fs [given])
      (c.dialect.tagsAfter (asked steps)) rfl
    refine hiff.trans ⟨fun h c' hc => ?_, fun h => h c rfl⟩
    obtain rfl := Except.ok.inj hc
    exact h

def givenTags (dialect : String) (tags : OptionValue) : Given :=
  [("tag_config".toList, .text dialect.toList), ("custom_self_closing_tags".toList, tags)]

def unnoticed : List Step :=
  [.create [],
    .create (givenTags "jinja2" (.table [("foo".toList, .text "endfoo".toList)])),
    .process 0 "-foo".toList,
    .create (givenTags "django" (.list
      [.list [.text "for".toList, .text "endfor".toList], .text []]))]

theorem answer_alone_unnoticed :
    (asked unnoticed)[0]? = some [] ∧
      ∀ t, (after {} unnoticed).answer 0 t = (after {} [.create []]).answer 0 t := by
  refine ⟨rfl, (answer_alone_iff {} unnoticed 0 [] rfl).mpr ?_⟩
  rintro c ⟨⟩
  decide +kernel

/-- A tag that a later compiler brings along changes what an older one makes of a template, also if
the later one is not made in the end. -/
theorem answer_changed_by_later_tag :
    (after {} [.create []]).answer 0 "-foo".toList = .ok "\x7b% foo %\x7d\n".toList ∧
    (after {} [.create [], .create (givenTags "django" (.table
      [("foo".toList, .text "endfoo".toList)]))]).answer 0 "-foo".toList =
        .ok "\x7b% foo %\x7d\n\x7b% endfoo %\x7d\n".toList ∧
    (after {} [.create [], .create (givenTags "django" (.list
      [.list [.text "foo".toList, .text "endfoo".toList], .text ['x']]))]).answer 0 "-foo".toList =
        .ok "\x7b% foo %\x7d\n\x7b% endfoo %\x7d\n".toList := by
  decide +kernel

end Session

end Haml
