import Haml.Proofs.Forest.Placement
import Haml.Proofs.Reading.Causes
import Haml.Template.Preprocess
import Mathlib.Data.List.TakeWhile

/-!
Compilation gives markup, or explains the fault of the template, or else there is one of few causes
for its failure in the template or in a block value of it.
-/
namespace Haml

variable {p : Profile} {t : Text}

namespace Element

theorem renderEntry_error {s : Settings} {name : Text} {value : Value} {f : Failure}
    (h : renderEntry s name value = .error f) : f = .notText ∧ Unwritable (name, value) := by
  unfold renderEntry at h
  split at h
  · cases h
  · split at h
    any_goals cases h
    next items =>
      rcases bind_eq_error h with h | ⟨_, _, h⟩
      · rcases bind_eq_error h with h | ⟨_, _, h⟩
        · exact texts_error h
        · cases h
      · cases h

/-- A class that is not a text comes from a dictionary. -/
theorem unwritable_class {e : Element} (hf : e.Formed) {v : Scalar} (hv : v ∈ e.classes)
    (hnone : v.text? = none) : ∃ entry ∈ e.attributes, Unwritable entry := by
  rcases hf.classes v hv with hv | ⟨w, rfl, _⟩
  · unfold dictionaryClasses at hv
    split at hv
    · next classes hget => exact ⟨_, Dictionary.mem_of_get? hget, v, hv, hnone⟩
    · next c hget =>
      obtain rfl := List.mem_singleton.mp hv
      exact ⟨_, Dictionary.mem_of_get? hget, rfl, hnone⟩
    · cases hv
  · cases hnone

theorem renderAttributes_error {e : Element} (hf : e.Formed) {s : Settings} {f : Failure}
    (h : e.renderAttributes s = .error f) :
    f = .notText ∧ ∃ entry ∈ e.attributes, Unwritable entry := by
  rcases bind_eq_error h with h | ⟨entries, _, h⟩
  · obtain ⟨entry, hentry, h⟩ := exists_of_mapM_eq_error h
    obtain ⟨rfl, hbad⟩ := renderEntry_error h
    exact ⟨rfl, entry, hentry, hbad⟩
  · dsimp only at h
    split at h
    · cases h
    · rcases bind_eq_error h with h | ⟨_, _, h⟩
      · obtain ⟨rfl, v, hv, hnone⟩ := texts_error h
        exact ⟨rfl, unwritable_class hf hv hnone⟩
      · cases h

end Element

namespace Filter

/-- A filter explains its failure, unless it runs programs. -/
theorem apply_error {f : Filter} {fs : Filters} {s : Settings} {t : Text} {e : Failure}
    (h : f.apply fs s t = .error e) :
    (∃ fault ∈ [Fault.programFailed, .noMarkdown, .noHighlighter], e = .rejected fault none) ∨
      f = .program ∧ (e = .badProgram ∨ e = .badIndent) := by
  cases f with
  | program =>
    rw [apply] at h
    split at h
    · cases h
    · cases hrun : fs.libraries.run t with
      | ok out =>
        rw [hrun] at h
        cases h
      | error problem =>
        rw [hrun] at h
        obtain rfl := Except.error.inj h
        cases problem with
        | malformed => exact .inr ⟨rfl, .inl rfl⟩
        | indented => exact .inr ⟨rfl, .inr rfl⟩
        | raised => exact .inl ⟨_, by simp, rfl⟩
  | markdown =>
    rw [apply] at h
    split at h
    · cases h
    · cases h
      exact .inl ⟨_, by simp, rfl⟩
  | highlight =>
    rw [apply] at h
    split at h
    · cases h
    · cases h
      exact .inl ⟨_, by simp, rfl⟩
  | _ => cases h

end Filter

/-- A conditional comment without a condition has no closing bracket on its line. -/
theorem Content.condition?_eq_none {r : Text}
    (h : condition? (Text.trimRight ('/' :: '[' :: r)) = none) : ']' ∉ r := by
  intro hmem
  have hkept : Text.trimRight ('/' :: '[' :: r) = '/' :: '[' :: Text.trimRight r :=
    Text.trimRight_append (u := ['/']) (y := '[') (by decide) r
  have hbracket : ']' ∈ '[' :: Text.trimRight r :=
    List.mem_cons_of_mem _ (Text.mem_trimRight (by decide) hmem)
  rw [hkept, condition?, List.drop_one, List.tail_cons] at h
  split at h
  · next hnil => simpa using List.dropWhile_eq_nil_iff.mp hnil ']' hbracket
  · cases h

/-- Only elements, conditional comments and filters are not written. -/
theorem Content.faces_error {indent breaks : Text} {content : Content} {hasChildren : Bool}
    {e : Failure} (h : content.faces p indent breaks hasChildren = .error e) :
    (∃ element, content = .element element ∧ element.renderAttributes p.settings = .error e) ∨
    (∃ line, content = .conditional line ∧ condition? line = none ∧ e = .noBracket) ∨
    ∃ name body, content = .filter name body ∧
      (e = .rejected (.unknownFilter name) none ∨
        ∃ f, p.filters.registered.get? name = some f ∧
          f.apply p.filters p.settings (Text.dedent body) = .error e) := by
  cases content with
  | element element =>
    rcases bind_eq_error h with h | ⟨_, _, h⟩
    · rcases bind_eq_error h with h | ⟨_, _, h⟩
      · exact .inl ⟨element, rfl, h⟩
      · cases h
    · cases h
  | conditional line =>
    rw [faces] at h
    split at h
    · next hnone =>
      cases h
      exact .inr (.inl ⟨line, rfl, hnone, rfl⟩)
    · cases h
  | filter name body =>
    refine .inr (.inr ⟨name, body, rfl, ?_⟩)
    rcases bind_eq_error h with h | ⟨f, hfind, h⟩
    · unfold Filters.find at h
      split at h
      · cases h
      · cases h
        exact .inl rfl
    · unfold Filters.find at hfind
      split at hfind
      · next hget =>
        cases hfind
        rcases bind_eq_error h with h | ⟨_, _, h⟩
        · exact .inr ⟨_, hget, h⟩
        · cases h
      · cases hfind
  | plain line => cases h
  | comment line => cases h
  | doctype line => cases h
  | silent line => cases h
  | expression line => cases h
  | tag line => cases h

/-- A node that was read from the text is not written for a cause that is seen there. -/
theorem Content.flaw_of_faces {indent breaks : Text} {content : Content} {hasChildren : Bool}
    {e : Failure} (horigin : Node.Origin p content) (htraced : Traced p t content)
    (h : content.faces p indent breaks hasChildren = .error e) : Flaw p t e := by
  rcases faces_error h with
    ⟨element, rfl, hrender⟩ | ⟨line, rfl, hnone, rfl⟩ | ⟨name, body, rfl, hfilter⟩
  · obtain ⟨rfl, entry, hentry, hbad⟩ := Element.renderAttributes_error horigin.formed hrender
    exact .cause (Sourced.cause htraced hentry hbad)
  · obtain ⟨b, r, hb, hline, rfl⟩ := htraced
    exact .cause (.bracket hb hline (condition?_eq_none hnone))
  · obtain ⟨b, l, hb, hline, rfl⟩ := htraced
    rcases hfilter with rfl | ⟨f, hget, happly⟩
    · exact .rejected
    · rcases Filter.apply_error happly with ⟨fault, -, rfl⟩ | ⟨rfl, he⟩
      · exact .rejected
      · exact .cause (.program hb hline hget he)

/-- A forest is not written because some node of it is not. -/
theorem Forest.write_error {f : Forest Node} {e : Failure} (h : f.write p = .error e) :
    ∃ n ∈ f.toList, ∃ hasChildren, n.faces p hasChildren = .error e := by
  induction f with
  | nil => cases h
  | cons n below others ihBelow ihOthers =>
    have hothers : others.write p = .error e →
        ∃ m ∈ (cons n below others).toList, ∃ hasChildren, m.faces p hasChildren = .error e := by
      intro h
      obtain ⟨m, hm, hfaces⟩ := ihOthers h
      exact ⟨m, by simp [hm], hfaces⟩
    rcases bind_eq_error h with h | ⟨faces, _, h⟩
    · exact ⟨n, by simp, _, h⟩
    · dsimp only at h
      split at h
      · rcases bind_eq_error h with h | ⟨_, _, h⟩
        · obtain ⟨m, hm, hfaces⟩ := ihBelow h
          exact ⟨m, by simp [hm], hfaces⟩
        · rcases bind_eq_error h with h | ⟨_, _, h⟩
          · exact hothers h
          · cases h
      · rcases bind_eq_error h with h | ⟨_, _, h⟩
        · cases h
        · rcases bind_eq_error h with h | ⟨_, _, h⟩
          · exact hothers h
          · cases h

theorem render_error {f : Forest Node} {e : Failure} (h : f.render p = .error e) :
    f.write p = .error e := by
  unfold Forest.render Forest.written at h
  cases hw : f.write p with
  | error e' =>
    rw [hw] at h
    cases h
    rfl
  | ok w =>
    rw [hw] at h
    cases h

theorem flaw_of_compile {e : Failure} (h : compile p t = .error e) : Flaw p t e := by
  have hread := readNodes_flawed p t
  have hkinds := (readNodes_alike (t := t) (.refl p) (.self _ (compile p))).2
  rw [compile_eq, parse, bind_assoc] at h
  cases hr : readNodes p (compile p) t with
  | error e' =>
    rw [hr] at h hread
    cases h
    exact hread
  | ok nodes =>
    rw [hr] at h hread hkinds
    have hfinish : finish p (Forest.ofNodes p.tags nodes) = .error e := h
    unfold finish at hfinish
    split at hfinish
    · cases hfinish
    · obtain ⟨n, hn, hasChildren, hfaces⟩ := Forest.write_error (render_error hfinish)
      rw [Forest.toList_ofNodes] at hn
      exact Content.flaw_of_faces (hkinds n hn).content (hread n hn) hfaces

/-- There is a cause for the failure in the text or in a block value of it. -/
def Caused (p : Profile) (t : Text) (e : Failure) : Prop :=
  ∃ u, (u = t ∨ Inside u t) ∧ Cause p u e

theorem Caused.of_inside {u : Text} {e : Failure} (hu : Inside u t) (h : Caused p u e) :
    Caused p t e := by
  obtain ⟨v, hv, hcause⟩ := h
  refine ⟨v, .inr ?_, hcause⟩
  rcases hv with rfl | hv
  · exact hu
  · exact hv.trans hu

/-- A failure without an explanation has a cause. -/
theorem caused_of_compile {e : Failure} (h : compile p t = .error e)
    (he : ∀ fault near, e ≠ .rejected fault near) : Caused p t e := by
  -- a block value is shorter than the text that it stands in
  induction hn : t.length using Nat.strongRecOn generalizing t with
  | ind n ih =>
    cases flaw_of_compile h with
    | rejected => exact absurd rfl (he _ _)
    | cause hcause => exact ⟨t, .inl rfl, hcause⟩
    | stalled => exact absurd h (settled_compile p t)
    | @nested u _ hu hfail =>
      rw [← hn] at ih
      exact .of_inside hu (ih u.length hu.length_lt hfail rfl)

theorem compile_cases (p : Profile) (t : Text) :
    (∃ html, compile p t = .ok html) ∨ (∃ fault near, compile p t = .error (.rejected fault near)) ∨
      ∃ e, compile p t = .error e ∧ (∀ fault near, e ≠ .rejected fault near) ∧ Caused p t e := by
  cases h : compile p t with
  | ok html => exact .inl ⟨html, rfl⟩
  | error e =>
    right
    by_cases he : ∃ fault near, e = .rejected fault near
    · obtain ⟨fault, near, rfl⟩ := he
      exact .inl ⟨fault, near, rfl⟩
    · have hnot : ∀ fault near, e ≠ .rejected fault near := fun fault near heq =>
        he ⟨fault, near, heq⟩
      exact .inr ⟨e, rfl, hnot, caused_of_compile h hnot⟩

/-- Compilation gives markup or explains a fault, unless there is a cause for another failure in the
template or in a block value. A template engine gets a source, or the fault as an error of the first
line, unless there is such a cause. -/
theorem clean_unless_caused (p : Profile) (t : Text) :
    ((∃ html, compile p t = .ok html) ∨
      (∃ fault near, compile p t = .error (.rejected fault near)) ∨
      ∃ e, compile p t = .error e ∧ Caused p t e) ∧
    ∀ (name : Text) (file : Option Text),
      (∃ source, Template.preprocess t name file = .ok source) ∨
      (∃ message, Template.preprocess t name file = .error (.syntaxFault message 1 name file)) ∨
      ∃ e, Template.preprocess t name file = .error (.failed e) ∧ Caused {} t e := by
  constructor
  · rcases compile_cases p t with hok | hrejected | ⟨e, h, _, hcaused⟩
    · exact .inl hok
    · exact .inr (.inl hrejected)
    · exact .inr (.inr ⟨e, h, hcaused⟩)
  · intro name file
    by_cases hname : Template.isTemplate name = true
    · simp only [Template.preprocess, if_pos hname]
      rcases compile_cases {} t with ⟨html, h⟩ | ⟨fault, near, h⟩ | ⟨e, h, hnot, hcaused⟩
      · exact .inl ⟨html, by rw [h]⟩
      · exact .inr (.inl ⟨_, by rw [h]⟩)
      · refine .inr (.inr ⟨e, ?_, hcaused⟩)
        rw [h]
        cases e with
        | rejected fault near => exact absurd rfl (hnot fault near)
        | _ => rfl
    · exact .inl ⟨t, if_neg hname⟩

/-- One template for every cause. -/
theorem compile_unexplained :
    compile {} ".".toList = .error .bareMark ∧
    compile {} "%a\x7bb".toList = .error .pastEnd ∧
    compile {} ":plain\n  a\n  ".toList = .error .pastEnd ∧
    compile {} "%a\x7bb: '\\x'\x7d".toList = .error .badLiteral ∧
    compile {} "%a\x7bb:\n\n  c\x7d".toList = .error .noMargin ∧
    compile {} "%a\x7bclass: none\x7d".toList = .error .notText ∧
    compile {} "/[if".toList = .error .noBracket ∧
    Template.preprocess ".".toList "a.haml".toList none = .error (.failed .bareMark) := by
  decide +kernel

end Haml
