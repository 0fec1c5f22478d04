import Haml.Proofs.Compile.Filters
import Haml.Proofs.Markup.Nesting

/-!
What is seen of a template in its markup. Every node has a text of its own: a line of plain text, an
opening tag with its inline content, an expression, a statement, a comment or what a filter makes of
its body. These texts stand in the markup in the order of the template, those of the nodes below a
node after its own and before those of the nodes that follow it. Whatever is trimmed, nothing but
blanks at their ends is lost. Nodes below an expression or a document type are not seen, nor is the
text of a comment that has nodes below it.
-/
namespace Haml

/-! ## Own texts -/

namespace Element

def attributesText (p : Profile) (e : Element) : Text :=
  match e.renderAttributes p.settings with
  | .ok (x :: t) => ' ' :: InlineVariable.replace p.inlineEquals (x :: t)
  | _ => []

def contentText (p : Profile) (e : Element) : Text :=
  match Content.inlineText p e with
  | some t => '>' :: t
  | none => if e.selfClosing && !p.settings.format.isHtml then " />".toList else ['>']

end Element

def filterText (p : Profile) (indent name body : Text) : Text :=
  match p.filters.find name >>= fun f => f.apply p.filters p.settings (Text.dedent body) with
  | .ok t => Text.indentBreaks indent t
  | .error _ => []

theorem filterText_eq {p : Profile} {name body text : Text} {f : Filter} (indent : Text)
    (hf : p.filters.find name = .ok f)
    (htext : f.apply p.filters p.settings (Text.dedent body) = .ok text) :
    filterText p indent name body = Text.indentBreaks indent text := by
  simp only [filterText, hf, bind, Except.bind, htext]

/-- The text that a node has of its own. Of a comment with nodes below it only the marks are left,
and a silent comment has none. -/
def Node.ownText (p : Profile) (n : Node) (hasChildren : Bool) : Text :=
  match n.content with
  | .plain line => Content.plainText p line
  | .element e => '<' :: e.tag ++ e.attributesText p ++ e.contentText p
  | .comment line =>
    if hasChildren then "<!--".toList
    else "<!-- ".toList ++ Text.trim (Text.dropChar '/' line)
  | .conditional line =>
    match Content.condition? line with
    | some (condition, text) =>
      "<!--".toList ++ condition ++ ['>'] ++ if hasChildren then [] else text
    | none => []
  | .doctype line => Doctype.header p.settings line
  | .silent _ => []
  | .expression line =>
    "\x7b\x7b ".toList ++ Text.trim (Text.dropChar '=' line) ++ " \x7d\x7d".toList
  | .tag line => "\x7b% ".toList ++ tagStatement line ++ " %\x7d".toList
  | .filter name body => filterText p n.indent name body

def Content.hidesBelow : Content → Bool
  | silent _ | expression _ | doctype _ => true
  | plain _ | element _ | comment _ | conditional _ | tag _ | filter _ _ => false

/-- The nodes of a row are seen in a text: the own text of the first one, without the blanks at its
ends, then the nodes below it, unless it hides them, then the others. -/
def Forest.ShownIn (p : Profile) : Forest Node → Text → Prop
  | nil, _ => True
  | cons n below others, t =>
    ∃ front inside behind, t = front ++ (inside ++ behind) ∧
      Text.trim (n.ownText p (!below.isEmpty)) <:+: front ∧
      (n.content.hidesBelow = false → ShownIn p below inside) ∧
      ShownIn p others behind

/-! ## Own texts in the texts before -/

namespace Content

variable {p : Profile} {indent breaks : Text}

theorem trimRight_openingEnd {e : Element} (hasChildren : Bool)
    (hb : ∀ x ∈ breaks, Text.isBlank x = true) :
    Text.trimRight (openingEnd p breaks e hasChildren) = Text.trimRight (e.contentText p) := by
  unfold openingEnd Element.contentText
  cases hinline : inlineText p e with
  | some t =>
    obtain ⟨y, u, rfl, hy⟩ := inlineText_cons hinline
    by_cases hi : e.trimsInner = true
    · -- the trimmed content goes on as far as the content itself
      simp only [Option.map_some, if_pos hi, Text.trim_cons hy]
      exact Text.trimRight_append_trimRight ['>', y] u
    · simp [hi]
  | none =>
    simp only [Option.map_none]
    cases e.selfClosing with
    | true => cases p.settings.format.isHtml <;> rfl
    | false =>
      cases hasChildren with
      | true =>
        simp only [Bool.false_eq_true, if_false, if_true, Bool.false_and]
        exact Text.trimRight_append_blank hb ['>']
      | false => rfl

/-- The parts of an opening tag. -/
theorem openingTag_eq {e : Element} {hasChildren : Bool} {t : Text}
    (h : openingTag p indent breaks e hasChildren = .ok t) :
    t = indent ++ '<' :: e.tag ++ e.attributesText p ++ openingEnd p breaks e hasChildren := by
  obtain ⟨attributes, ha, h⟩ := bind_eq_ok h
  have hshown : e.attributesText p = if attributes.isEmpty then []
      else ' ' :: InlineVariable.replace p.inlineEquals attributes := by
    rw [Element.attributesText, ha]
    cases attributes <;> rfl
  rw [← hshown] at h
  exact (Except.ok.inj h).symm

/-- What is written of an element before its children is its opening tag. -/
theorem trim_openingTag {e : Element} {hasChildren : Bool} {t : Text}
    (hi : ∀ x ∈ indent, Text.isBlank x = true) (hb : ∀ x ∈ breaks, Text.isBlank x = true)
    (h : openingTag p indent breaks e hasChildren = .ok t) :
    Text.trim t = Text.trim ('<' :: e.tag ++ e.attributesText p ++ e.contentText p) := by
  obtain rfl := openingTag_eq h
  have htag : ∀ u : Text, Text.trim ('<' :: u) = Text.trimRight ('<' :: u) := fun u => by
    rw [Text.trim, Text.trimLeft_cons (by decide)]
  calc Text.trim (indent ++ '<' :: e.tag ++ e.attributesText p ++ openingEnd p breaks e hasChildren)
      = Text.trimRight
          ('<' :: e.tag ++ e.attributesText p ++ openingEnd p breaks e hasChildren) := by
        simp only [List.append_assoc, List.cons_append, Text.trim_blank_append hi, htag]
    _ = Text.trimRight ('<' :: e.tag ++ e.attributesText p ++ e.contentText p) := by
        rw [← Text.trimRight_append_trimRight, trimRight_openingEnd hasChildren hb,
          Text.trimRight_append_trimRight]
    _ = Text.trim ('<' :: e.tag ++ e.attributesText p ++ e.contentText p) := (htag _).symm

/-- The own text of a node is all there is in the text before the nodes below it. -/
theorem trim_before {n : Node} {hasChildren : Bool} {f : Faces} (hn : Node.Read p n)
    (h : n.faces p hasChildren = .ok f) :
    Text.trim (f.before.getD []) = Text.trim (n.ownText p hasChildren) := by
  obtain ⟨indent, content, newlines⟩ := n
  have hi : ∀ x ∈ indent, Text.isBlank x = true :=
    fun x hx => Text.isBlank_of_isIndent (hn.indent x hx)
  have hb : ∀ x ∈ List.replicate (newlines + 1) '\n', Text.isBlank x = true :=
    Node.isBlank_breaks ⟨indent, content, newlines⟩
  -- the two forms that most lines are written in
  have hline := fun t => Text.trim_blank_append hi t
  have hbroken : ∀ t, Text.trim (indent ++ t ++ List.replicate (newlines + 1) '\n') = Text.trim t :=
    fun t => (Text.trim_append_blank hb _).trans (hline t)
  cases content with
  | plain line =>
    cases hasChildren <;> cases h
    · exact hline _
    · exact hbroken _
  | element e =>
    obtain ⟨opening, ho, h⟩ := bind_eq_ok h
    cases h
    exact trim_openingTag hi hb ho
  | comment line =>
    cases hasChildren <;> cases h
    · exact Text.trim_append_blank (List.all_eq_true.mp (by decide))
        ("<!-- ".toList ++ Text.trim (Text.dropChar '/' line))
    · exact (Text.trim_append_blank (b := ' ' :: List.replicate (newlines + 1) '\n')
        (by simp [Text.isBlank, Text.isWhite]) "<!--".toList)
  | conditional line =>
    unfold Node.faces faces at h
    unfold Node.ownText
    dsimp only at h ⊢
    cases hcondition : condition? line with
    | none =>
      rw [hcondition] at h
      cases h
    | some r =>
      rw [hcondition] at h
      cases h
      cases hasChildren with
      | false => rfl
      | true =>
        simp only [Option.getD_some, if_true, List.append_nil]
        exact Text.trim_append_blank (List.all_eq_true.mp (by decide)) _
  | doctype line =>
    cases h
    rfl
  | silent line =>
    cases h
    rfl
  | expression line =>
    cases h
    exact hline _
  | tag line =>
    unfold Node.faces faces at h
    dsimp only at h
    cases hclosing : p.tags.closing? (tagName line) with
    | some closing =>
      rw [hclosing] at h
      cases h
      exact hbroken _
    | none =>
      rw [hclosing] at h
      cases hasChildren <;> cases h
      · exact hline _
      · exact hbroken _
  | filter name body =>
    obtain ⟨filter, hfilter, h⟩ := bind_eq_ok h
    obtain ⟨text, htext, h⟩ := bind_eq_ok h
    cases h
    exact (hline _).trans (congrArg Text.trim (filterText_eq indent hfilter htext).symm)

end Content

/-! ## Own texts in the markup -/

theorem Content.shows_of_hidesBelow {content : Content} (h : content.hidesBelow = false)
    (hfilter : content.isFilter = false) :
    content.showsChildren = true ∧ content.trimsChildren = true := by
  cases content with
  | silent _ | expression _ | doctype _ => cases h
  | filter _ _ => cases hfilter
  | _ => exact ⟨rfl, rfl⟩

/-- What is left of a text that is trimmed at both ends stands in it however it is trimmed. -/
theorem trim_within_trimEnds (left right : Bool) (t : Text) :
    Text.trim t <:+: trimEnds left right t := by
  cases left <;> cases right
  · exact Text.trim_within t
  · exact Text.trim_within_trimRight t
  · exact (Text.trimRight_initial _).isInfix
  · exact List.infix_refl _

namespace Forest

variable {p : Profile}

theorem ShownIn.append_left {f : Forest Node} {t : Text} (h : f.ShownIn p t) (u : Text) :
    f.ShownIn p (u ++ t) := by
  cases f with
  | nil => trivial
  | cons n below others =>
    obtain ⟨front, inside, behind, rfl, hown, hbelow, hothers⟩ := h
    refine ⟨u ++ front, inside, behind, by simp, ?_, hbelow, hothers⟩
    exact hown.trans (List.suffix_append u front).isInfix

/-- The nodes of a row are seen in its markup, whatever is trimmed. -/
theorem shownIn_html {f : Forest Node} {w : Forest Written} (hread : ∀ n ∈ f.toList, Node.Read p n)
    (hbare : f.FiltersBare) (h : f.write p = .ok w) (inner left : Bool) :
    f.ShownIn p (w.trim inner left).html := by
  induction f generalizing w inner left with
  | nil => trivial
  | cons n below others ihb iho =>
    simp only [toList, List.mem_cons, List.mem_append] at hread
    obtain ⟨hfilter, hbelow, hothers⟩ := hbare
    obtain ⟨faces, lower, rest, hf, hrest, hlower, rfl⟩ := write_cons h
    have hown := Content.trim_before (hread n (.inl rfl)) hf
    rw [trim, html_cons]
    refine ⟨_, _, _, rfl, ?_, fun hhides => ?_, ?_⟩
    · rw [← hown]
      exact trim_within_trimEnds _ _ _
    · cases hcontent : n.content.isFilter with
      | true =>
        obtain rfl := hfilter hcontent
        trivial
      | false =>
        obtain ⟨hshows, htrims⟩ := Content.shows_of_hidesBelow hhides hcontent
        rw [if_pos hshows] at hlower
        dsimp only
        rw [if_pos htrims]
        exact ihb (fun m hm => hread m (.inr (.inl hm))) hbelow hlower _ _
    · exact (iho (fun m hm => hread m (.inr (.inr hm))) hothers hrest _ _).append_left _

end Forest

/-- The markup of a template that is accepted comes from the texts of its nodes. -/
theorem exists_written {p : Profile} {t html : Text} (hp : p.settings.outline = false)
    (h : compile p t = .ok html) :
    ∃ f w, parse p t = .ok f ∧ f.write p = .ok w ∧ html = (w.trim false false).html := by
  rw [compile_eq] at h
  obtain ⟨f, hparse, hfinish⟩ := bind_eq_ok h
  have hrender : f.render p = .ok html := by simpa [finish, hp] using hfinish
  cases hw : f.write p with
  | error e => simp [Forest.render, Forest.written, hw, Except.map] at hrender
  | ok w =>
    rw [Forest.render, Forest.written, hw] at hrender
    exact ⟨f, w, hparse, hw, (Except.ok.inj hrender).symm⟩

/-- Every node of a template is seen in its markup, in its place, unless it stands below a silent
comment, an expression or a document type. -/
theorem nodes_shown {p : Profile} {t html : Text} (hp : p.settings.outline = false)
    (h : compile p t = .ok html) : ∃ f, parse p t = .ok f ∧ f.ShownIn p html := by
  obtain ⟨f, w, hparse, hw, rfl⟩ := exists_written hp h
  refine ⟨f, hparse, ?_⟩
  exact Forest.shownIn_html (read_of_parse hparse) (filtersBare_of_parse hparse) hw false false

def page : Text :=
  ("!!!\n%ul.a>\n  %li< #\x7bb\x7d c\n  -if d\n    / e\n    =f\n  -# g\n    h\n  /\n" ++
    "    \\#i\n      :css\n        j").toList

theorem nodes_shown_page :
    ∃ html f, compile {} page = .ok html ∧ parse {} page = .ok f ∧ f.toList.length = 11 ∧
      f.ShownIn {} html := by
  have hcheck : (compile {} page).toOption.isSome = true ∧
      (parse {} page).toOption.all (·.toList.length == 11) = true := by
    decide +kernel
  obtain ⟨hok, hcount⟩ := hcheck
  cases hhtml : compile {} page with
  | error e =>
    rw [hhtml] at hok
    cases hok
  | ok html =>
    obtain ⟨f, hparse, hshown⟩ := nodes_shown rfl hhtml
    rw [hparse] at hcount
    exact ⟨html, f, rfl, hparse, beq_iff_eq.mp hcount, hshown⟩

/-- Texts that are lost: that of a comment with a node below it, and that of a node below an
expression. -/
theorem texts_lost :
    (compile {} "/ a\n  b".toList = .ok "<!-- \n  b\n-->\n".toList ∧
      ¬ ['a'] <:+: "<!-- \n  b\n-->\n".toList) ∧
    compile {} "=a\n  b".toList = .ok "\x7b\x7b a \x7d\x7d\n".toList ∧
      ¬ ['b'] <:+: "\x7b\x7b a \x7d\x7d\n".toList := by
  decide +kernel

end Haml
