import Haml.Proofs.Compile.Termination
import Haml.Proofs.Markup.LineEnds

/-!
Templates whose lines end with carriage returns. Main statement: such a template has the nodes of
the template without carriage returns, and an empty line of text for each blank line; so without
blank lines it has the same markup. It is refused in the two places of a dictionary where only a
bare line break has a meaning.
-/
namespace Haml

open Text (withReturns dropReturns)

variable {p : Profile} {t : Text}

theorem Tags.takes_returned {a b n m : Content} (tags : Tags) (h : a.Returned b)
    (h' : n.Returned m) : tags.takes b m = tags.takes a n := by
  cases h with
  | same =>
    cases h' with
    | same => rfl
    | filter => cases a <;> rfl
  | filter => rfl

theorem Tags.goesBelow_returned {a b n m : Node} (tags : Tags) (h : a.Returned b)
    (h' : n.Returned m) : tags.goesBelow b m = tags.goesBelow a n := by
  rw [goesBelow, goesBelow, h.depth_eq, h'.depth_eq, takes_returned tags h.content h'.content]

/-- A template without blank lines: there is none before its first node, and none after a node.
Those in the body of a filter do not count. -/
structure Dense (p : Profile) (t : Text) : Prop where
  start : ¬ StartsBlank t
  nodes : ∀ ns, readNodes p (compile p) t = .ok ns → ∀ n ∈ ns, n.newlines = 0

theorem parse_withReturns (hcr : '\r' ∉ t) (h : Dense p t) :
    Corresponds (Refused t) (Forest.Like Node.Returned) (parse p t) (parse p (withReturns t)) := by
  have hread : Corresponds (Refused t)
      (fun ns ns' => Node.Spread (StartsBlank t) ns.reverse ns'.reverse)
      (readNodes p (compile p) t) (readNodes p (compile p) (withReturns t)) :=
    readNodes_withReturns hcr
  have hnodes := h.nodes
  unfold parse
  generalize readNodes p (compile p) t = r at hread hnodes
  generalize readNodes p (compile p) (withReturns t) = r' at hread
  cases hread with
  | error => exact .error
  | refused h => exact .refused h
  | @ok ns ns' hspread =>
    have hsame : List.Forall₂ Node.Returned ns ns' := by
      rw [← List.forall₂_reverse_iff]
      exact hspread.forall₂ h.start fun n hn => hnodes ns rfl n (List.mem_reverse.mp hn)
    exact .ok (Forest.like_ofNodes hsame fun _ _ _ _ hab hnm => p.tags.goesBelow_returned hab hnm)

/-- A template with carriage returns is refused, or it has the nodes of the template without them
and one more for each blank line. If there is none, the markup is the same, or there is none. -/
theorem compile_withReturns (p : Profile) {t : Text} (hcr : '\r' ∉ t) :
    Corresponds (Refused t) (fun ns ns' => Node.Spread (StartsBlank t) ns.reverse ns'.reverse)
      (readNodes p (compile p) t) (readNodes p (compile p) (withReturns t)) ∧
    (p.filters.IgnoresReturns → Dense p t →
      (∃ e, compile p (withReturns t) = .error e ∧ Refused t e) ∨
      (compile p (withReturns t)).toOption.map dropReturns =
        (compile p t).toOption.map dropReturns) := by
  refine ⟨readNodes_withReturns hcr, fun hp h => ?_⟩
  have hcompile : Corresponds (Refused t) Text.SameText (compile p t)
      (compile p (withReturns t)) := by
    rw [compile_eq, compile_eq]
    exact (parse_withReturns hcr h).bind fun _ _ => finish_returned hp
  generalize compile p t = r, compile p (withReturns t) = r' at hcompile
  cases hcompile with
  | ok h => exact .inr (congrArg some h)
  | error => exact .inr rfl
  | refused h => exact .inl ⟨_, rfl, h⟩

/-- A template with a dictionary on two lines, a filter that holds a blank line, and filters that
leave their bodies to libraries. -/
def twoLined : Text :=
  ("%ul\x7b'a': 1,\n 'b': 2\x7d\n  %li= x\n  :plain\n    c\n\n    d\n" ++
    "  :markdown\n    e\n    f\n\n    g\n  :highlight\n    h\n    <i\n" ++
    "  :python\n    print(\"j\")\n  - if y\n    z\n").toList

theorem compile_withReturns_twoLined :
    Filters.IgnoresReturns {} ∧ Dense {} twoLined ∧ (compile {} twoLined).isOk = true ∧
      (compile {} (withReturns twoLined)).toOption.map dropReturns =
        (compile {} twoLined).toOption.map dropReturns := by
  have hnodes : (readNodes {} (compile {}) twoLined).toOption.all
      (·.all (·.newlines == 0)) = true := by
    decide +kernel
  have hdense : Dense {} twoLined := by
    constructor
    · rintro ⟨b, v, hb, ht⟩
      have hfirst : twoLined.head? = some '%' := by decide +kernel
      rw [ht] at hfirst
      cases b with
      | nil => exact absurd (Option.some.inj hfirst) (by decide)
      | cons x b =>
        obtain rfl := Option.some.inj hfirst
        exact absurd (hb '%' (List.mem_cons_self ..)) (by decide)
    · intro ns hns n hn
      rw [hns] at hnodes
      exact beq_iff_eq.mp (List.all_eq_true.mp hnodes n hn)
  have hlibraries : Filters.IgnoresReturns {} := Filters.ignoresReturns_default true true true
  refine ⟨hlibraries, hdense, by decide +kernel, ?_⟩
  have hok : (compile {} (withReturns twoLined)).isOk = true := by decide +kernel
  rcases (compile_withReturns {} (by decide +kernel)).2 hlibraries hdense with ⟨e, he, -⟩ | h
  · rw [he] at hok
    cases hok
  · exact h

/-- A blank line keeps a node from being put below another one, and a line break in braces is
refused. -/
theorem line_ends_matter :
    compile {} "%p\n\n  a".toList = .ok "<p>\n\n  a\n</p>\n".toList ∧
    compile {} (withReturns "%p\n\n  a".toList) = .ok "<p></p>\n\n  a\n".toList ∧
    compile {} "%p\x7ba: 1\n b: 2\x7d".toList = .ok "<p a='1' b='2'></p>\n".toList ∧
    compile {} (withReturns "%p\x7ba: 1\n b: 2\x7d".toList) =
      .error (.rejected (.expected [[',']]) (some "%p\x7ba: 1\r".toList)) := by
  decide +kernel

end Haml
