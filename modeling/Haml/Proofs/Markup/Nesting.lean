import Haml.Proofs.Compile.Termination
import Haml.Proofs.Forest.Placement
import Haml.Proofs.Markup.Clean

/-!
Nesting of the markup. The tokens of a template are given by recursion on its forest: every element,
template tag and comment contributes the token that opens it, then the tokens of what stands below
it, then the token that closes it. The markup of a template, with all its trimming, is scanned to
just these tokens.
-/
namespace Haml

/-! ## The tokens of a forest -/

namespace Element

def hasInline (e : Element) : Bool := !(e.inline.getD []).isEmpty

def shownAttributes (e : Element) (s : Settings) : Text :=
  match e.renderAttributes s with
  | .ok (x :: t) => ' ' :: x :: t
  | _ => []

/-- What an element without content is ended by. -/
def slash (e : Element) (s : Settings) : Text :=
  if e.selfClosing && !e.hasInline && !s.format.isHtml then [' ', '/'] else []

end Element

def conditionOf (line : Text) : Text := (line.drop 2).takeWhile (· != ']')

def Forest.tokens (p : Profile) : Forest Node → List Token
  | nil => []
  | cons n below others =>
    (match n.content with
      | .element e =>
        .opening (e.tag ++ e.shownAttributes p.settings ++ e.slash p.settings) ::
          (tokens p below ++ if e.selfClosing && !e.hasInline then [] else [.closing e.tag])
      | .tag line =>
        .statement (tagStatement line) ::
          (tokens p below ++ (p.tags.closing? (tagName line)).toList.map .statement)
      | .comment _ => .commentOpening :: (tokens p below ++ [.commentClosing])
      | .conditional line =>
        .conditionOpening (conditionOf line) :: (tokens p below ++ [.conditionClosing])
      | .plain _ => tokens p below
      | _ => []) ++ tokens p others

namespace Content

def opens (p : Profile) : Content → List Token
  | element e => [.opening (e.tag ++ e.shownAttributes p.settings ++ e.slash p.settings)]
  | tag line => [.statement (tagStatement line)]
  | comment _ => [.commentOpening]
  | conditional line => [.conditionOpening (conditionOf line)]
  | _ => []

def closes (p : Profile) : Content → List Token
  | element e => if e.selfClosing && !e.hasInline then [] else [.closing e.tag]
  | tag line => (p.tags.closing? (tagName line)).toList.map .statement
  | comment _ => [.commentClosing]
  | conditional _ => [.conditionClosing]
  | _ => []

end Content

theorem Forest.tokens_cons (p : Profile) (n : Node) (below others : Forest Node) :
    (cons n below others).tokens p = n.content.opens p ++
      ((if n.content.showsChildren then below.tokens p else []) ++
        (n.content.closes p ++ others.tokens p)) := by
  cases h : n.content <;>
    simp [tokens, Content.opens, Content.closes, Content.showsChildren, h]

/-! ## The two texts of a node -/

theorem Node.isBlank_breaks (n : Node) : ∀ x ∈ n.breaks, Text.isBlank x = true := by
  intro x hx
  rw [List.eq_of_mem_replicate hx]
  decide

/-- The wrapper and the closing tags of a profile have no marks. -/
structure Profile.Clean (p : Profile) : Prop where
  wrapper : Free p.settings.wrapper
  closings : ∀ name closing, p.tags.closing? name = some closing → Free closing

namespace Content

/-- The texts of a node have no marks. Expressions and the conditions of comments may have some, and
what is not written may too. Doctypes and filters are left out. -/
def Clean : Content → Prop
  | plain line | comment line | tag line => Free line
  | element e => e.Clean
  | conditional line => Free (((condition? line).map (·.2)).getD [])
  | expression _ | silent _ => True
  | doctype _ | filter _ _ => False

instance : DecidablePred Clean
  | plain line | comment line | tag line => inferInstanceAs (Decidable (Free line))
  | element e => inferInstanceAs (Decidable e.Clean)
  | conditional line => inferInstanceAs (Decidable (Free (((condition? line).map (·.2)).getD [])))
  | expression _ | silent _ => isTrue trivial
  | doctype _ | filter _ _ => isFalse id

/-- An expression is not ended before its end. -/
def Unbroken : Content → Prop
  | expression line => ¬ ['}', '}'] <:+: line
  | _ => True

instance : DecidablePred Unbroken
  | expression line => inferInstanceAs (Decidable (¬ ['}', '}'] <:+: line))
  | plain _ | comment _ | tag _ | element _ | conditional _ | silent _ | doctype _ | filter _ _ =>
    isTrue trivial

end Content

theorem free_plainText {p : Profile} {line : Text} (h : Free line) :
    Free (Content.plainText p line) := by
  unfold Content.plainText
  rw [InlineVariable.replace_eq h.unmarked]
  split
  · exact h.sub fun _ hx => List.mem_cons_of_mem _ hx
  · exact h

theorem Spells.trim {rest t : Text} (h : Spells rest t []) : Spells rest (Text.trim t) [] :=
  h.trimLeft.trimRight nofun

theorem trim_expressionText (e : Text) :
    Text.trim (Content.expressionText e) = Content.expressionText e := by
  have hlast : Content.expressionText e = '{' :: '{' :: ' ' :: (e ++ [' ', '}']) ++ ['}'] :=
    (Content.expressionText_eq e).trans (by simp)
  have hleft : Text.trimLeft (Content.expressionText e) = Content.expressionText e := by
    rw [Content.expressionText_eq]
    rfl
  rw [Text.trim, hleft, hlast, Text.trimRight_concat (by decide)]

/-- Inline content begins with something. -/
theorem Content.inlineText_cons {p : Profile} {e : Element} {t : Text}
    (h : inlineText p e = some t) : ∃ y u, t = y :: u ∧ Text.isBlank y = false := by
  unfold inlineText at h
  split at h
  · cases h
  · next inline hinline =>
    split at h
    · cases h
    · next hne =>
      split at h
      · obtain rfl := Option.some.inj h
        exact ⟨'{', _, rfl, by decide⟩
      · obtain rfl := Option.some.inj h
        have htrim := e.trimmed inline hinline
        cases inline with
        | nil => simp at hne
        | cons x inline => exact InlineVariable.replace_cons (Text.isBlank_of_trim htrim) inline

/-- Inline content is written as something that holds no tokens. -/
theorem inlineText_eq {p : Profile} {e : Element} (hc : e.Clean) (hi : e.hasInline = true) :
    ∃ x t, ((Content.inlineText p e).map fun u => if e.trimsInner then Text.trim u else u) =
      some (x :: t) ∧ ∀ rest, Spells rest (x :: t) [] := by
  obtain ⟨y, v, hin⟩ : ∃ y v, e.inline = some (y :: v) := by
    cases hin : e.inline with
    | none => simp [Element.hasInline, hin] at hi
    | some w =>
      cases w with
      | nil => simp [Element.hasInline, hin] at hi
      | cons y v => exact ⟨y, v, rfl⟩
  have hfree : Free (y :: v) := by simpa [hin] using hc.inline
  have hne : Text.trim (y :: v) ≠ [] := Text.trim_ne_nil (e.trimmed _ hin)
  -- the text is not empty before trimming, and trimming does not make it so
  have hmain : ∀ u : Text, u ≠ [] → Text.trim u ≠ [] → (∀ rest, Spells rest u []) →
      ∃ x t, (some u).map (fun u => if e.trimsInner then Text.trim u else u) = some (x :: t) ∧
        ∀ rest, Spells rest (x :: t) [] := by
    intro u hu htrim hspell
    cases e.trimsInner with
    | false =>
      obtain ⟨x, t, rfl⟩ := List.exists_cons_of_ne_nil hu
      exact ⟨x, t, rfl, hspell⟩
    | true =>
      obtain ⟨x, t, hx⟩ := List.exists_cons_of_ne_nil htrim
      exact ⟨x, t, by simp [hx], fun rest => hx ▸ (hspell rest).trim⟩
  cases hv : e.isVariable with
  | true =>
    have htext : Content.inlineText p e = some (Content.expressionText (Text.trim (y :: v))) := by
      simp [Content.inlineText, hin, hv]
    rw [htext]
    refine hmain _ ?_ ?_ fun rest => ?_
    · simp [Content.expressionText_eq]
    · rw [trim_expressionText]
      simp [Content.expressionText_eq]
    · refine spells_expression fun hm => ?_
      exact hfree '}' (Text.mem_of_mem_trim (hm.subset (by simp))) (by decide)
  | false =>
    have htext : Content.inlineText p e = some (y :: v) := by
      simp [Content.inlineText, hin, hv, InlineVariable.replace_eq hfree.unmarked]
    rw [htext]
    exact hmain _ nofun hne fun rest => spells_free hfree

theorem inlineText_eq_none {p : Profile} {e : Element} (hi : e.hasInline = false) :
    Content.inlineText p e = none := by
  unfold Content.inlineText
  cases hin : e.inline with
  | none => rfl
  | some w =>
    have hw : w.isEmpty = true := by simpa [Element.hasInline, hin] using hi
    simp [hw]

/-- What ends the opening tag of an element puts no tokens behind it. -/
theorem openingEnd_eq {p : Profile} {breaks : Text} {e : Element} (hasChildren : Bool)
    (hc : e.Clean) (hb : Free breaks) :
    ∃ tail, Content.openingEnd p breaks e hasChildren = e.slash p.settings ++ '>' :: tail ∧
      ∀ rest, Spells rest tail [] := by
  unfold Content.openingEnd Element.slash
  cases hi : e.hasInline with
  | true =>
    obtain ⟨x, t, heq, hspell⟩ := @inlineText_eq p e hc hi
    rw [heq]
    exact ⟨x :: t, by simp, hspell⟩
  | false =>
    rw [inlineText_eq_none hi]
    simp only [Option.map_none, Bool.not_false, Bool.and_true]
    cases e.selfClosing with
    | true =>
      cases p.settings.format.isHtml with
      | true => exact ⟨[], rfl, fun _ => .nil⟩
      | false => exact ⟨[], rfl, fun _ => .nil⟩
    | false =>
      cases hasChildren with
      | true => exact ⟨breaks, rfl, fun _ => spells_free hb⟩
      | false => exact ⟨[], rfl, fun _ => .nil⟩

/-- The tokens of the two texts of a node. -/
structure Faced (p : Profile) (content : Content) (f : Faces) : Prop where
  before : ∀ rest, Spells rest (f.before.getD []) (content.opens p)
  after : ∀ rest, Spells rest (f.after.getD []) (content.closes p)

theorem spells_then {k : Token} {t rest : Text} (hk : k.Legible) (hc : k ≠ .commentOpening)
    (ht : Spells rest t []) : Spells rest (k.spell ++ t) [k] :=
  .token hk (fun h => absurd h hc) ht

theorem free_tag {e : Element} (hf : e.Formed) : Free e.tag := fun x hx => (hf.tag x hx).not_mark

theorem legible_opening {p : Profile} {e : Element} (hp : p.Clean) (hf : e.Formed) (hc : e.Clean) :
    (Token.opening (e.tag ++ e.shownAttributes p.settings ++ e.slash p.settings)).Legible := by
  refine ⟨((free_tag hf).append ?_).append ?_, ?_⟩
  · unfold Element.shownAttributes
    split
    · next h => exact .cons (by decide) (Element.free_renderAttributes hp.wrapper hf hc h)
    · simp [Free]
  · unfold Element.slash
    split <;> decide
  · obtain ⟨x, b, hx⟩ := List.exists_cons_of_ne_nil hf.tag_ne_nil
    refine ⟨x, b ++ e.shownAttributes p.settings ++ e.slash p.settings, by simp [hx], ?_⟩
    have hname := hf.tag x (by simp [hx])
    constructor
    · rintro rfl
      exact absurd hname (by decide)
    · rintro rfl
      exact absurd hname (by decide)

theorem closingTag_eq (indent breaks : Text) (e : Element) (hasChildren : Bool) :
    Content.closingTag indent breaks e hasChildren =
      if e.selfClosing && !e.hasInline then breaks
      else (if !e.hasInline && hasChildren then indent else []) ++
        ((Token.closing e.tag).spell ++ if e.hasInline then breaks else ['\n']) := by
  unfold Content.closingTag Element.hasInline
  cases (e.inline.getD []).isEmpty <;> cases e.selfClosing <;> cases hasChildren <;>
    simp [Token.spell]

theorem faced_element {p : Profile} {indent breaks : Text} {e : Element} {hasChildren : Bool}
    {f : Faces} (hp : p.Clean) (hi : Free indent) (hb : Free breaks) (hf : e.Formed) (hc : e.Clean)
    (h : (Content.element e).faces p indent breaks hasChildren = .ok f) :
    Faced p (.element e) f := by
  obtain ⟨opening, ho, h⟩ := bind_eq_ok h
  obtain ⟨attributes, ha, ho⟩ := bind_eq_ok ho
  obtain rfl := Except.ok.inj h
  have hfree := Element.free_renderAttributes hp.wrapper hf hc ha
  have hshown : (if attributes.isEmpty then []
      else ' ' :: InlineVariable.replace p.inlineEquals attributes) =
      e.shownAttributes p.settings := by
    rw [InlineVariable.replace_eq hfree.unmarked, Element.shownAttributes, ha]
    cases attributes <;> rfl
  obtain ⟨tail, hend, htail⟩ := @openingEnd_eq p breaks e hasChildren hc hb
  have hopening : opening = indent ++
      ((Token.opening (e.tag ++ e.shownAttributes p.settings ++ e.slash p.settings)).spell ++
        tail) := by
    rw [← Except.ok.inj ho, hshown, hend]
    simp [Token.spell]
  refine ⟨fun rest => ?_, fun rest => ?_⟩
  · have hspell := spells_then (legible_opening hp hf hc) (by simp) (htail rest)
    exact hopening ▸ (spells_free hi).append hspell
  · show Spells rest (Content.closingTag indent breaks e hasChildren)
      (if e.selfClosing && !e.hasInline then [] else [.closing e.tag])
    rw [closingTag_eq]
    split
    · exact spells_free hb
    · refine (spells_free ?_).append (spells_then (free_tag hf) (by simp) (spells_free ?_))
      · split
        · exact hi
        · decide
      · split
        · exact hb
        · decide

theorem faced_conditional {p : Profile} {indent breaks line : Text} {hasChildren : Bool}
    {f : Faces} (hc : Content.Clean (.conditional line)) (ho : Node.Origin p (.conditional line))
    (h : (Content.conditional line).faces p indent breaks hasChildren = .ok f) :
    Faced p (.conditional line) f := by
  obtain ⟨t, rfl⟩ := ho.conditional_eq
  unfold Content.faces at h
  dsimp only at h
  split at h
  · cases h
  · next condition text hcond =>
    obtain rfl := Except.ok.inj h
    have htext : Free text := by simpa [Content.Clean, hcond] using hc
    have hcondition : condition = '[' :: conditionOf ('/' :: '[' :: t) ++ [']'] := by
      unfold Content.condition? at hcond
      split at hcond
      · cases hcond
      · have := (Prod.mk.inj (Option.some.inj hcond)).1
        simpa [conditionOf] using this.symm
    have hlegible : (Token.conditionOpening (conditionOf ('/' :: '[' :: t))).Legible := by
      intro hm
      simpa using List.all_eq_true.mp List.all_takeWhile _ hm
    refine ⟨fun rest => ?_, fun rest => ?_⟩
    · have hafter : Free (if hasChildren then ['\n'] else text) := by
        split
        · decide
        · exact htext
      have hspell : Spells rest _ _ := spells_then hlegible (by simp) (spells_free hafter)
      simpa [hcondition, Token.spell, Content.opens] using hspell
    · exact spells_then (k := .conditionClosing) trivial (by simp)
        (spells_free (t := ['\n']) (by decide))

theorem faced_tag {p : Profile} {indent breaks line : Text} {hasChildren : Bool}
    {f : Faces} (hp : p.Clean) (hi : Free indent) (hb : Free breaks) (hc : Free line)
    (h : (Content.tag line).faces p indent breaks hasChildren = .ok f) :
    Faced p (.tag line) f := by
  have hstatement : Free (tagStatement line) :=
    hc.sub fun x hx => (List.dropWhile_suffix _).subset (Text.mem_of_mem_trim hx)
  have hopen : ∀ rest t, Free t →
      Spells rest (indent ++ Content.tagText (tagStatement line) ++ t)
        (Content.opens p (.tag line)) := by
    intro rest t ht
    rw [List.append_assoc]
    exact (spells_free hi).append
      (spells_then (k := .statement _) hstatement (by simp) (spells_free ht))
  obtain rfl := Except.ok.inj h
  cases hclosing : p.tags.closing? (tagName line) with
  | some closing =>
    refine ⟨fun rest => ?_, fun rest => ?_⟩
    · simpa [hclosing] using hopen rest breaks hb
    · have hspell : Spells rest _ _ :=
        spells_then (k := .statement closing) (hp.closings _ _ hclosing) (by simp) (spells_free hb)
      have hcloses : Content.closes p (.tag line) = [.statement closing] := by
        simp [Content.closes, hclosing]
      rw [hcloses]
      simpa [hclosing, Token.spell] using (spells_free hi).append hspell
  | none =>
    have hcloses : Content.closes p (.tag line) = [] := by simp [Content.closes, hclosing]
    cases hasChildren with
    | true =>
      refine ⟨fun rest => ?_, fun rest => ?_⟩
      · simpa [hclosing] using hopen rest breaks hb
      · simpa [hclosing, hcloses] using Spells.nil
    | false =>
      refine ⟨fun rest => ?_, fun rest => ?_⟩
      · simpa [hclosing] using hopen rest [] (by decide)
      · simpa [hclosing, hcloses] using spells_free hb

theorem faced {p : Profile} {indent breaks : Text} {content : Content} {hasChildren : Bool}
    {f : Faces} (hp : p.Clean) (hi : Free indent) (hb : Free breaks) (ho : Node.Origin p content)
    (hc : content.Clean) (hu : content.Unbroken)
    (h : content.faces p indent breaks hasChildren = .ok f) : Faced p content f := by
  cases content with
  | element e => exact faced_element hp hi hb ho.formed hc h
  | conditional line => exact faced_conditional hc ho h
  | tag line => exact faced_tag hp hi hb hc h
  | plain line =>
    obtain rfl := Except.ok.inj h
    have htext := hi.append (free_plainText (p := p) hc)
    cases hasChildren with
    | true => exact ⟨fun _ => spells_free (htext.append hb), fun _ => .nil⟩
    | false => exact ⟨fun _ => spells_free htext, fun _ => spells_free hb⟩
  | comment line =>
    obtain rfl := Except.ok.inj h
    have htext : Free (if hasChildren then breaks
        else Text.trim (Text.dropChar '/' line) ++ [' ']) := by
      split
      · exact hb
      · refine Free.append ?_ (by decide)
        exact hc.sub fun x hx => (List.dropWhile_suffix _).subset (Text.mem_of_mem_trim hx)
    refine ⟨fun rest => ?_, fun rest => ?_⟩
    · exact .token (k := .commentOpening) trivial (fun _ => nofun)
        (.char (x := ' ') (by decide) (spells_free htext))
    · exact spells_then (k := .commentClosing) trivial (by simp)
        (spells_free (t := ['\n']) (by decide))
  | silent line =>
    obtain rfl := Except.ok.inj h
    exact ⟨fun _ => .nil, fun _ => spells_free (hb.sub fun _ hx => List.mem_of_mem_drop hx)⟩
  | expression line =>
    obtain rfl := Except.ok.inj h
    have hinfix : Text.trim (Text.dropChar '=' line) <:+: line :=
      (Text.trim_within _).trans (List.dropWhile_suffix _).isInfix
    refine ⟨fun rest => ?_, fun rest => spells_free hb⟩
    exact (spells_free hi).append (spells_expression fun hm => hu (hm.trans hinfix))
  | doctype line => exact hc.elim
  | filter name body => exact hc.elim

/-! ## The markup of a forest -/

namespace Forest

/-- What it takes to write a row of trees. -/
theorem write_cons {p : Profile} {n : Node} {below others : Forest Node} {w : Forest Written}
    (h : (cons n below others).write p = .ok w) :
    ∃ f lower rest, n.faces p (!below.isEmpty) = .ok f ∧ others.write p = .ok rest ∧
      (if n.content.showsChildren then below.write p = .ok lower
        else lower = below.map fun m => { node := m }) ∧
      w = cons { node := n, before := f.before.getD [], after := f.after.getD [] } lower rest := by
  obtain ⟨f, hf, h⟩ := bind_eq_ok h
  dsimp only at h
  split at h
  · obtain ⟨lower, hlower, h⟩ := bind_eq_ok h
    obtain ⟨rest, hrest, h⟩ := bind_eq_ok h
    refine ⟨f, lower, rest, hf, hrest, ?_, (Except.ok.inj h).symm⟩
    rw [if_pos ‹_›]
    exact hlower
  · obtain ⟨lower, hlower, h⟩ := bind_eq_ok h
    obtain ⟨rest, hrest, h⟩ := bind_eq_ok h
    refine ⟨f, lower, rest, hf, hrest, ?_, (Except.ok.inj h).symm⟩
    rw [if_neg ‹_›]
    exact (Except.ok.inj hlower).symm

theorem html_cons (w : Written) (below others : Forest Written) :
    (cons w below others).html = w.before ++ (below.html ++ (w.after ++ others.html)) := by
  simp [html, texts]

/-- Nodes that have been given no texts. -/
theorem html_unwritten (f : Forest Node) :
    (f.map fun n => ({ node := n } : Written)).html = [] := by
  induction f with
  | nil => rfl
  | cons n below others ihb iho =>
    simp only [map]
    rw [html_cons, ihb, iho]
    rfl

end Forest

theorem Spells.trimEnds {rest t : Text} {ts : List Token} {left right : Bool} (h : Spells rest t ts)
    (hrest : right = true → .commentOpening ∈ ts → rest.head? ≠ some '[') :
    Spells rest (Haml.trimEnds left right t) ts := by
  have hleft : Spells rest (if left then Text.trimLeft t else t) ts := by
    split
    · exact h.trimLeft
    · exact h
  unfold Haml.trimEnds
  dsimp only
  split
  · next hr => exact hleft.trimRight (hrest hr)
  · exact hleft

theorem Content.comment_of_mem_opens {p : Profile} {content : Content}
    (h : .commentOpening ∈ content.opens p) : ∃ line, content = .comment line := by
  cases content with
  | comment line => exact ⟨line, rfl⟩
  | _ => simp [opens] at h

theorem Content.not_mem_closes (p : Profile) (content : Content) :
    .commentOpening ∉ content.closes p := by
  cases content with
  | element e =>
    simp only [closes]
    split <;> simp
  | _ => simp [closes]

theorem Content.Clean.trimsChildren_eq {content : Content} (h : content.Clean) :
    content.trimsChildren = content.showsChildren := by
  cases content with
  | doctype line => exact h.elim
  | _ => rfl

/-- The text before what stands below an element. -/
theorem before_element {p : Profile} {n : Node} {e : Element} {hasChildren : Bool} {f : Faces}
    (he : n.content = .element e) (h : n.faces p hasChildren = .ok f) :
    ∃ t, f.before.getD [] = n.indent ++ '<' :: t := by
  rw [Node.faces, he] at h
  obtain ⟨opening, ho, h⟩ := bind_eq_ok h
  obtain ⟨attributes, _, ho⟩ := bind_eq_ok ho
  obtain rfl := Except.ok.inj h
  obtain rfl := Except.ok.inj ho
  exact ⟨_, by simp; rfl⟩

/-- A row whose first root trims around itself begins with the tag of that root. -/
theorem html_of_firstTrims {p : Profile} {f : Forest Node} {w : Forest Written}
    (hread : ∀ n ∈ f.toList, Node.Read p n) (h : f.write p = .ok w) (hfirst : w.firstTrims = true)
    (inner left : Bool) : ∃ t, (w.trim inner left).html = '<' :: t := by
  cases f with
  | nil =>
    obtain rfl := Except.ok.inj h
    cases hfirst
  | cons n below others =>
    obtain ⟨f, lower, row, hf, _, _, rfl⟩ := Forest.write_cons h
    have hn := hread n (by simp)
    have houter : n.content.trimsOuter = true := hfirst
    obtain ⟨e, he⟩ : ∃ e, n.content = .element e := by
      cases hc : n.content with
      | element e => exact ⟨e, rfl⟩
      | _ => simp [hc, Content.trimsOuter] at houter
    obtain ⟨t, ht⟩ := before_element he hf
    have htrim : ∀ right, ∃ v, trimEnds true right (f.before.getD []) = '<' :: v := by
      intro right
      have hleft : Text.trimLeft (n.indent ++ '<' :: t) = '<' :: t := by
        rw [Text.trimLeft,
          List.dropWhile_append_of_pos fun x hx => Text.isBlank_of_isIndent (hn.indent x hx)]
        rfl
      cases right with
      | false => exact ⟨t, by simp [trimEnds, ht, hleft]⟩
      | true =>
        refine ⟨Text.trimRight t, ?_⟩
        simp only [trimEnds, ht, hleft, if_true]
        exact @Text.trimRight_append [] '<' (by decide) t
    have houterLeft : (left || n.content.trimsOuter) = true := by simp [houter]
    rw [Forest.trim, Forest.html_cons]
    simp only [Trims.apply, Forest.trims, houterLeft]
    obtain ⟨v, hv⟩ := htrim _
    rw [hv]
    exact ⟨_, rfl⟩

/-- The markup of a row is put together from the tokens of the row. -/
theorem spells_html {p : Profile} (hp : p.Clean) {f : Forest Node} {w : Forest Written}
    (hread : ∀ n ∈ f.toList, Node.Read p n) (hclean : ∀ n ∈ f.toList, n.content.Clean)
    (hexpr : ∀ n ∈ f.toList, n.content.Unbroken) (h : f.write p = .ok w) (inner left : Bool)
    (rest : Text) : Spells rest (w.trim inner left).html (f.tokens p) := by
  induction f generalizing w inner left rest with
  | nil =>
    obtain rfl := Except.ok.inj h
    exact .nil
  | cons n below others ihb iho =>
    obtain ⟨f, lower, row, hf, hrow, hlower, rfl⟩ := Forest.write_cons h
    have hn := hread n (by simp)
    have hbelow : ∀ m ∈ below.toList, m ∈ (Forest.cons n below others).toList := by
      simp +contextual
    have hothers : ∀ m ∈ others.toList, m ∈ (Forest.cons n below others).toList := by
      simp +contextual
    have hfaced : Faced p n.content f := faced hp (free_of_isIndent hn.indent) (free_breaks _)
      hn.content (hclean n (by simp)) (hexpr n (by simp)) hf
    have hnext : ∀ rest, Spells rest (row.trim inner n.content.trimsOuter).html (others.tokens p) :=
      fun rest => iho (fun m hm => hread m (hothers m hm)) (fun m hm => hclean m (hothers m hm))
        (fun m hm => hexpr m (hothers m hm)) hrow _ _ rest
    have hinside : ∀ rest, Spells rest
        (if n.content.trimsChildren then lower.trim n.content.trimsInner n.content.trimsInner
          else lower).html
        (if n.content.showsChildren then below.tokens p else []) := by
      intro rest
      rw [(hclean n (by simp)).trimsChildren_eq]
      split
      · next hshows =>
        rw [if_pos hshows] at hlower
        exact ihb (fun m hm => hread m (hbelow m hm)) (fun m hm => hclean m (hbelow m hm))
          (fun m hm => hexpr m (hbelow m hm)) hlower _ _ rest
      · next hshows =>
        rw [if_neg hshows] at hlower
        rw [hlower, Forest.html_unwritten]
        exact .nil
    rw [Forest.trim, Forest.html_cons, Forest.tokens_cons]
    refine Spells.append ?_ ((hinside _).append (Spells.append ?_ (hnext rest)))
    · refine (hfaced.before _).trimEnds fun hright hcomment => ?_
      -- a comment mark that is trimmed is followed by the tag that trims it
      obtain ⟨line, hline⟩ := Content.comment_of_mem_opens hcomment
      have hwrite : below.write p = .ok lower := by
        simpa [hline, Content.showsChildren] using hlower
      have hfirst : lower.firstTrims = true := by
        simpa [Forest.trims, hline, Content.trimsInner, Content.trimsChildren] using hright
      obtain ⟨t, ht⟩ := html_of_firstTrims (fun m hm => hread m (hbelow m hm)) hwrite hfirst
        n.content.trimsInner n.content.trimsInner
      have hchildren : n.content.trimsChildren = true := by simp [hline, Content.trimsChildren]
      rw [if_pos hchildren, ht]
      nofun
    · exact (hfaced.after _).trimEnds fun _ hm => absurd hm (Content.not_mem_closes p n.content)

/-! ## The markup of a template -/

/-- The nodes of a template are as they can be read. -/
theorem read_of_parse {p : Profile} {t : Text} {f : Forest Node} (h : parse p t = .ok f) :
    ∀ n ∈ f.toList, Node.Read p n := by
  obtain ⟨nodes, hnodes, h⟩ := bind_eq_ok h
  obtain rfl := Except.ok.inj h
  obtain ⟨_, hread⟩ := readNodes_alike (.refl p) (.self t.length (compile p))
  rw [hnodes] at hread
  rw [Forest.toList_ofNodes]
  exact hread

/-- The closing tags that a language has from the start have no marks. -/
theorem Dialect.free_closing (d : Dialect) {name closing : Text}
    (h : d.tags.closing? name = some closing) : Free closing := by
  have hrows : ∀ r ∈ d.tags.closings, Free r.2.asText := by
    cases d <;> decide
  obtain ⟨v, hv, h⟩ := Option.bind_eq_some_iff.mp h
  obtain ⟨r, hr, rfl⟩ := Option.map_eq_some_iff.mp hv
  split at h
  · obtain rfl := Option.some.inj h
    exact hrows r (List.mem_of_find?_eq_some hr)
  · cases h

/-- The markup of a template is well nested: its tokens are those that its forest gives. -/
theorem scan_compile {p : Profile} {d : Dialect} {t html : Text} {f : Forest Node}
    (htags : p.tags = d.tags) (hwrapper : p.settings.wrapper ∈ [['\''], ['"']])
    (houtline : p.settings.outline = false) (hparse : parse p t = .ok f)
    (hclean : ∀ n ∈ f.toList, n.content.Clean) (hexpr : ∀ n ∈ f.toList, n.content.Unbroken)
    (h : compile p t = .ok html) : scan html = f.tokens p := by
  have hp : p.Clean := by
    refine ⟨?_, fun name closing hc => d.free_closing (htags ▸ hc)⟩
    have hfree : ∀ w ∈ [['\''], ['"']], Free w := by decide
    exact hfree _ hwrapper
  rw [compile_eq, hparse] at h
  have hrender : f.render p = .ok html := by
    have hfinish : finish p f = .ok html := h
    simpa [finish, houtline] using hfinish
  cases hw : f.write p with
  | error e => simp [Forest.render, Forest.written, hw, Except.map] at hrender
  | ok w =>
    obtain rfl : (w.trim false false).html = html := by
      simpa [Forest.render, Forest.written, hw, Except.map] using hrender
    exact scan_of_spells (spells_html hp (read_of_parse hparse) hclean hexpr hw false false [])

def nested : Text :=
  ("%p.a\x7b'b': 'c'\x7d d\n  -if e\n    =f > g\n  -else\n    %br>\n  /\n    %i<= h\n    [j]\n" ++
    "  /[if <k]\n    l\n  -# <m").toList

theorem scan_compile_nested :
    ∃ f html, parse {} nested = .ok f ∧
      (∀ n ∈ f.toList, n.content.Clean ∧ n.content.Unbroken) ∧
      compile {} nested = .ok html ∧ scan html = f.tokens {} := by
  have hcheck : (match parse {} nested, compile {} nested with
      | .ok f, .ok _ => decide (∀ n ∈ f.toList, n.content.Clean ∧ n.content.Unbroken)
      | _, _ => false) = true := by
    decide +kernel
  split at hcheck
  · next f html hf hhtml =>
    have hnodes := of_decide_eq_true hcheck
    refine ⟨f, html, hf, hnodes, hhtml, ?_⟩
    exact scan_compile (d := .django) rfl (by decide) rfl hf (fun n hn => (hnodes n hn).1)
      (fun n hn => (hnodes n hn).2) hhtml
  · cases hcheck

/-- An expression that is ended early can bring in any markup: two templates whose other texts have
no marks may have the same markup, but not the same tokens. So there is no way at all to scan the
tokens of every such template. -/
theorem not_scannable_of_broken_expression :
    ¬ ∃ scan : Text → List Token, ∀ (t html : Text) (f : Forest Node), parse {} t = .ok f →
      (∀ n ∈ f.toList, n.content.Clean) → compile {} t = .ok html → scan html = f.tokens {} := by
  rintro ⟨scan, h⟩
  have hbroken := h "=a \x7d\x7d<br>\x7b\x7b c".toList _ _ rfl (by decide) rfl
  have helement := h "=a\n%br>\n=c".toList _ _ rfl (by decide) rfl
  exact absurd (hbroken.symm.trans helement) (by decide)

end Haml
