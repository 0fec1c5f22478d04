import Haml.Proofs.Dictionary
import Haml.Proofs.Forest.Likeness
import Haml.Proofs.Markup.Nesting
import Haml.Proofs.Reading.LineEnds
import Haml.Proofs.Text.Returned

/-!
Carriage returns in the nodes of a template. Main statement: forests whose filters have bodies that
differ in carriage returns only are written as texts that differ in carriage returns only, or
neither is written. Where filters leave their bodies to libraries, this is assumed of the libraries.
-/
namespace Haml

namespace Escape

open Text (SameText Returned dropReturns)

theorem htmlFrom_cons {r : Region} {c : Char} {rest : Text}
    (h : (c ≠ '{' ∧ c ≠ '%' ∧ c ≠ '}') ∨ ∀ d, rest.head? = some d → d ≠ '%' ∧ d ≠ '{' ∧ d ≠ '}') :
    htmlFrom r (c :: rest) = (if r = .markup then entity c else [c]) ++ htmlFrom r rest := by
  cases rest with
  | nil => simp [htmlFrom]
  | cons d rest =>
    rw [htmlFrom]
    rcases h with ⟨h₁, h₂, h₃⟩ | h
    · simp [h₁, h₂, h₃]
    · obtain ⟨h₁, h₂, h₃⟩ := h d rfl
      simp [h₁, h₂, h₃]

theorem dropReturns_return (r : Region) :
    dropReturns (if r = .markup then entity '\r' else ['\r']) = [] := by
  split <;> rfl

/-- Escaping looks at pairs of characters, and none of them holds a line end. -/
theorem sameText_htmlFrom {b : Bool} {t t' : Text} (r : Region) (h : Returned b t t') :
    SameText (htmlFrom r t) (htmlFrom r t') := by
  induction hlength : t.length using Nat.strong_induction_on generalizing b r t t' with
  | _ n ih =>
    subst hlength
    cases h with
    | nil => exact .refl _
    | last => cases r <;> rfl
    | bare h =>
      rw [htmlFrom_cons (.inl (by decide)), htmlFrom_cons (.inl (by decide))]
      exact (SameText.refl _).append (ih _ (by simp) r h rfl)
    | @returned t t' h =>
      have hlater := ih _ (by simp) r h rfl
      rw [htmlFrom_cons (.inl (by decide)), htmlFrom_cons (.inl (by decide)),
        htmlFrom_cons (c := '\n') (.inl (by decide))]
      exact SameText.append (t := []) (dropReturns_return r) ((SameText.refl _).append hlater)
    | @char b x t t' hn hr h =>
      have hnext := ih _ (by simp) r h rfl
      have hstep : ∀ u : Text, (∀ d, u.head? = some d → d ≠ '%' ∧ d ≠ '{' ∧ d ≠ '}') →
          htmlFrom r (x :: u) = (if r = .markup then entity x else [x]) ++ htmlFrom r u :=
        fun u hu => htmlFrom_cons (.inr hu)
      generalize (b || !Text.isBlank x) = b' at h
      cases h with
      | nil => exact .refl _
      | last =>
        rw [hstep [] nofun, hstep ['\r'] (by simp)]
        exact (SameText.refl _).append hnext
      | @returned t t' h =>
        rw [hstep ('\n' :: t) (by simp), hstep ('\r' :: '\n' :: t') (by simp)]
        exact (SameText.refl _).append hnext
      | @bare _ t t' h =>
        rw [hstep ('\n' :: t) (by simp), hstep ('\n' :: t') (by simp)]
        exact (SameText.refl _).append hnext
      | @char _ y t t' hn' hr' h =>
        have hpair : ∀ r', SameText (x :: y :: htmlFrom r' t) (x :: y :: htmlFrom r' t') := by
          intro r'
          have hlt : t.length < (x :: y :: t).length := by
            simp only [List.length_cons]
            omega
          exact SameText.append (.refl [x, y]) (ih _ hlt r' h rfl)
        rw [htmlFrom, htmlFrom]
        split
        · exact hpair _
        · split
          · exact hpair _
          · split
            · exact hpair _
            · split
              · exact hpair _
              · exact (SameText.refl _).append hnext

end Escape

namespace Filter

open Text (SameText Returned dropReturns)

variable {t t' : Text}

theorem sameText_keepBreaks (h : SameText t t') : SameText (keepBreaks t) (keepBreaks t') := by
  have hbreaks : SameText (Text.replaceChar '\n' "&#x000A;".toList (Text.trimRight t))
      (Text.replaceChar '\n' "&#x000A;".toList (Text.trimRight t')) := h.trimRight.flatMap rfl
  exact congrArg dropReturns hbreaks

theorem sameText_cdataSection (h : SameText t t') :
    SameText (cdataSection t) (cdataSection t') := by
  apply SameText.append _ (.refl _)
  apply SameText.append (.refl _)
  exact SameText.indentBreaks _ (SameText.append (.refl ['\n']) h.trimRight)

theorem Embedding.sameText_render (e : Embedding) (s : Settings) (h : SameText t t') :
    SameText (e.render s t) (e.render s t') := by
  unfold Embedding.render
  iterate 5 apply SameText.append _ (.refl _)
  exact (SameText.refl _).append (h.trimRight.indentBreaks _)

/-! ## Markdown -/

theorem all_isBlank_dropReturns (l : Text) :
    (dropReturns l).all Text.isBlank = l.all Text.isBlank := by
  induction l with
  | nil => rfl
  | cons x l ih =>
    by_cases hr : x = '\r'
    · subst hr
      exact ih
    · rw [Text.dropReturns_cons hr, List.all_cons, List.all_cons, ih]

theorem paragraphs_dropReturns (ls : List Text) :
    paragraphs (ls.map dropReturns) = (paragraphs ls).map (·.map dropReturns) := by
  induction ls with
  | nil => rfl
  | cons l ls ih =>
    cases ls with
    | nil =>
      simp only [List.map_cons, List.map_nil, paragraphs, all_isBlank_dropReturns]
      split <;> rfl
    | cons next ls =>
      have hrest : paragraphs (dropReturns next :: ls.map dropReturns) = _ := ih
      rw [List.map_cons, List.map_cons]
      unfold paragraphs
      rw [all_isBlank_dropReturns, hrest]
      split
      · rfl
      · cases paragraphs (next :: ls) with
        | nil => rfl
        | cons p ps =>
          simp only [List.map_cons, all_isBlank_dropReturns]
          split <;> rfl

theorem dropReturns_renderParagraphs (t : Text) :
    dropReturns (renderParagraphs t) = renderParagraphs (dropReturns t) := by
  rw [renderParagraphs, renderParagraphs, Text.dropReturns_unlines, Text.lines_dropReturns,
    paragraphs_dropReturns, List.map_map, List.map_map]
  congr 1
  apply List.map_congr_left
  intro p _
  show dropReturns ("<p>".toList ++ Text.unlines p ++ "</p>".toList) = _
  rw [Text.dropReturns_append, Text.dropReturns_append, Text.dropReturns_unlines]
  rfl

/-! ## Highlighting -/

theorem dropReturns_highlightName {l l' : Text} (h : Text.RowReturned l l') :
    dropReturns (highlightName l') = dropReturns (highlightName l) := by
  rcases h.ends with rfl | ⟨hblank, rfl⟩
  · rfl
  · have hsame : SameText (l.flatMap Escape.entity) ((l ++ ['\r']).flatMap Escape.entity) := by
      have hreturn : SameText l (l ++ ['\r']) := by
        rw [SameText, Text.dropReturns_append]
        exact List.append_nil _
      exact hreturn.flatMap rfl
    cases l with
    | nil => cases hblank
    | cons x l =>
      have hwrapped : SameText _ _ :=
        (SameText.refl "<span class=\"n\">".toList).append (hsame.append (.refl "</span>".toList))
      rw [highlightName, highlightName, List.append_assoc, List.append_assoc]
      exact hwrapped

theorem sameText_highlightText (asCode : Bool) (h : Returned false t t') :
    SameText (highlightText asCode t) (highlightText asCode t') := by
  have hbody : Returned false (trimBreaks t) (trimBreaks t') := h.dropFirstBreaks.dropLastBreaks
  apply SameText.append _ (.refl _)
  apply SameText.append (.refl _)
  split
  · rw [SameText, Text.dropReturns_unlines, Text.dropReturns_unlines, List.map_map, List.map_map]
    apply congrArg Text.unlines
    rw [← List.forall₂_eq_eq_eq, List.forall₂_map_left_iff, List.forall₂_map_right_iff]
    exact hbody.lines.flip.imp fun _ _ hl => dropReturns_highlightName hl
  · exact hbody.sameText.flatMap rfl

/-! ## Programs -/

theorem Returned.any_eq {b : Bool} {q : Char → Bool} (hq : q '\r' = false) (h : Returned b t t') :
    t'.any q = t.any q := by
  induction h with
  | nil => rfl
  | last => simp [hq]
  | char _ _ _ ih => rw [List.any_cons, List.any_cons, ih]
  | bare _ ih => rw [List.any_cons, List.any_cons, ih]
  | returned _ ih => rw [List.any_cons, List.any_cons, List.any_cons, ih, hq, Bool.false_or]

theorem universalBreaks_cons {x : Char} (hx : x ≠ '\r') (t : Text) :
    Text.universalBreaks (x :: t) = x :: Text.universalBreaks t := by
  rw [Text.universalBreaks]
  · intro rest hx'
    exact absurd hx' hx
  · exact hx

theorem universalBreaks_of_not_mem (h : '\r' ∉ t) : Text.universalBreaks t = t := by
  induction t with
  | nil => rfl
  | cons x t ih =>
    rw [List.mem_cons, not_or] at h
    rw [universalBreaks_cons (Ne.symm h.1), ih h.2]

/-- With all line ends written as line feeds, at most one is added at the end. -/
theorem universalBreaks_returned {b : Bool} (h : Returned b t t') :
    Text.universalBreaks t' = t ∨ Text.universalBreaks t' = t ++ ['\n'] := by
  induction h with
  | nil => exact .inl rfl
  | last => exact .inr rfl
  | char _ hr _ ih =>
    rw [universalBreaks_cons hr]
    exact ih.imp (congrArg _) (congrArg _)
  | bare _ ih =>
    rw [universalBreaks_cons (by decide)]
    exact ih.imp (congrArg _) (congrArg _)
  | returned _ ih => exact ih.imp (congrArg ('\n' :: ·)) (congrArg ('\n' :: ·))

/-- A program has the same statements. -/
theorem statements_returned {b : Bool} (h : Returned b t t') : statements t' = statements t := by
  have hlines : (t'.universalBreaks.lines.filter fun l => !l.all isProgramBlank) =
      t.universalBreaks.lines.filter fun l => !l.all isProgramBlank := by
    rw [universalBreaks_of_not_mem h.not_mem]
    rcases universalBreaks_returned h with he | he
    · rw [he]
    · rw [he, Text.lines_append_break, List.filter_append]
      exact List.append_nil _
  rw [statements, statements, Returned.any_eq rfl h, hlines]

theorem runLines_returned {b : Bool} (h : Returned b t t') : runLines t' = runLines t := by
  rw [runLines, runLines, statements_returned h]

end Filter

/-! ## Filters -/

namespace Filters

open Text (SameText Returned dropReturns)

/-- Libraries and filters of one's own do not care for carriage returns at the ends of lines: what
they make of a text with some is what they make of it without, but for carriage returns. -/
structure IgnoresReturns (fs : Filters) : Prop where
  markdown : ∀ t t', Returned false t t' →
    SameText (fs.libraries.markdown t) (fs.libraries.markdown t')
  lexer : ∀ t t', Returned false t t' → SameText (fs.lexer t t) (fs.lexer t' t')
  run : ∀ t t', Returned false t t' →
    (fs.libraries.run t').toOption.map dropReturns = (fs.libraries.run t).toOption.map dropReturns
  custom : ∀ name write, fs.registered.get? name = some (.custom write) →
    ∀ s t t', Returned false t t' → SameText (write s t) (write s t')

/-- The libraries for plain input do not care for carriage returns, whichever of them are there. -/
theorem ignoresReturns_default (markdown highlighter guesses : Bool) :
    IgnoresReturns { hasMarkdown := markdown, hasHighlighter := highlighter
                     guessesLanguage := guesses } where
  markdown t t' h := by
    show dropReturns (Filter.renderParagraphs t') = dropReturns (Filter.renderParagraphs t)
    rw [Filter.dropReturns_renderParagraphs, Filter.dropReturns_renderParagraphs, h.sameText]
  lexer t t' h := by
    cases guesses with
    | true => exact Filter.sameText_highlightText false h
    | false => exact Filter.sameText_highlightText true h
  run t t' h := congrArg (·.toOption.map dropReturns) (Filter.runLines_returned h)
  custom name write h := by
    have hmem := Dictionary.mem_of_get? h
    simp at hmem

variable {fs : Filters} {t t' : Text}

/-- What a filter makes of a text does not depend on its carriage returns. -/
theorem IgnoresReturns.apply {S : Failure → Prop} (hfs : fs.IgnoresReturns) {name : Text}
    {f : Filter} (hf : fs.find name = .ok f) (s : Settings) (h : Returned false t t') :
    Corresponds S SameText (f.apply fs s t) (f.apply fs s t') := by
  have hsame := h.sameText
  have hembed : ∀ e : Filter.Embedding, SameText (e.render s t) (e.render s t') :=
    fun e => e.sameText_render s hsame
  cases f with
  | plain => exact .ok hsame
  | preserve => exact .ok (Filter.sameText_keepBreaks hsame)
  | escaped => exact .ok (Escape.sameText_htmlFrom .markup h)
  | cdata => exact .ok (Filter.sameText_cdataSection hsame)
  | css | stylus | less | sass | javascript | coffee => exact .ok (hembed _)
  | markdown =>
    rw [Filter.apply, Filter.apply]
    split
    · exact .ok (hfs.markdown t t' h)
    · exact .error
  | highlight =>
    rw [Filter.apply, Filter.apply, h.isEmpty_eq]
    split
    · apply Corresponds.ok
      split
      · exact .refl _
      · exact hfs.lexer t t' h
    · exact .error
  | program =>
    rw [Filter.apply, Filter.apply, h.isEmpty_eq]
    split
    · exact .ok (.refl _)
    · have hrun := hfs.run t t' h
      generalize fs.libraries.run t = r, fs.libraries.run t' = r' at hrun
      cases r <;> cases r'
      · exact .error
      · cases hrun
      · cases hrun
      · exact .ok (Option.some.inj hrun)
  | custom write =>
    refine .ok (hfs.custom name write ?_ s t t' h)
    unfold find at hf
    split at hf
    · next hget => rw [hget, Except.ok.inj hf]
    · cases hf

end Filters

/-! ## Faces -/

namespace Content

variable {c c' : Content}

theorem Returned.trimsOuter_eq (h : c.Returned c') : c'.trimsOuter = c.trimsOuter := by
  cases h <;> rfl

theorem Returned.trimsInner_eq (h : c.Returned c') : c'.trimsInner = c.trimsInner := by
  cases h <;> rfl

theorem Returned.trimsChildren_eq (h : c.Returned c') : c'.trimsChildren = c.trimsChildren := by
  cases h <;> rfl

theorem Returned.showsChildren_eq (h : c.Returned c') : c'.showsChildren = c.showsChildren := by
  cases h <;> rfl

structure SameFaces (f f' : Faces) : Prop where
  before : Text.SameText (f.before.getD []) (f'.before.getD [])
  after : Text.SameText (f.after.getD []) (f'.after.getD [])

theorem faces_returned {S : Failure → Prop} {p : Profile} (hp : p.filters.IgnoresReturns)
    (indent breaks : Text) (hasChildren : Bool) (h : c.Returned c') :
    Corresponds S SameFaces (c.faces p indent breaks hasChildren)
      (c'.faces p indent breaks hasChildren) := by
  cases h with
  | same => exact .refl (fun f => ⟨.refl _, .refl _⟩) _
  | @filter name body body' h =>
    show Corresponds S SameFaces (p.filters.find name >>= _) (p.filters.find name >>= _)
    cases hf : p.filters.find name with
    | error e => exact .error
    | ok f =>
      apply (hp.apply hf p.settings h.dedent).bind
      intro text text' htext
      rw [h.isEmpty_eq]
      exact .ok ⟨(Text.SameText.refl indent).append (htext.indentBreaks indent), .refl _⟩

end Content

theorem Node.Returned.depth_eq {n n' : Node} (h : n.Returned n') : n'.depth = n.depth := by
  rw [Node.depth, Node.depth, h.indent]

theorem Node.Returned.faces {S : Failure → Prop} {p : Profile} (hp : p.filters.IgnoresReturns)
    {n n' : Node} (h : n.Returned n') (hasChildren : Bool) :
    Corresponds S Content.SameFaces (n.faces p hasChildren) (n'.faces p hasChildren) := by
  have hbreaks : n'.breaks = n.breaks := by rw [Node.breaks, Node.breaks, h.newlines]
  rw [Node.faces, Node.faces, h.indent, hbreaks]
  exact Content.faces_returned hp _ _ hasChildren h.content

/-! ## Forests -/

structure Written.Returned (w w' : Written) : Prop where
  content : w.node.content.Returned w'.node.content
  before : Text.SameText w.before w'.before
  after : Text.SameText w.after w'.after

theorem sameText_trimEnds {t t' : Text} (left right : Bool) (h : Text.SameText t t') :
    Text.SameText (trimEnds left right t) (trimEnds left right t') := by
  cases left <;> cases right
  · exact h
  · exact h.trimRight
  · exact h.trimLeft
  · exact h.trimLeft.trimRight

theorem Trims.apply_returned {w w' : Written} (trims : Trims) (h : w.Returned w') :
    (trims.apply w).Returned (trims.apply w') where
  content := by
    unfold Trims.apply
    split <;> exact h.content
  before := sameText_trimEnds _ _ h.before
  after := sameText_trimEnds _ _ h.after

namespace Forest

theorem like_write {S : Failure → Prop} {p : Profile} (hp : p.filters.IgnoresReturns)
    {f f' : Forest Node} (h : Like Node.Returned f f') :
    Corresponds S (Like Written.Returned) (f.write p) (f'.write p) := by
  induction h with
  | nil => exact .ok .nil
  | @cons n n' below others below' others' hn hbelow hothers ihb iho =>
    have hrow : ∀ w w' row row', Written.Returned w w' → Like Written.Returned row row' →
        Corresponds S (Like Written.Returned) (do return cons w row (← others.write p))
          (do return cons w' row' (← others'.write p)) := by
      intro w w' row row' hw hrow
      apply iho.bind
      intro rest rest' hrest
      exact .ok (.cons hw hrow hrest)
    rw [write, write, hbelow.isEmpty_eq, hn.content.showsChildren_eq]
    apply (hn.faces hp _).bind
    intro faces faces' hfaces
    split
    · apply ihb.bind
      exact fun row row' => hrow _ _ row row' ⟨hn.content, hfaces.before, hfaces.after⟩
    · apply hrow _ _ _ _ ⟨hn.content, hfaces.before, hfaces.after⟩
      exact hbelow.map fun n n' hn => ⟨hn.content, .refl _, .refl _⟩

variable {f f' : Forest Written}

theorem firstTrims_eq (h : Like Written.Returned f f') : f'.firstTrims = f.firstTrims := by
  cases h with
  | nil => rfl
  | cons hw _ _ => exact hw.content.trimsOuter_eq

theorem lastTrims_eq (h : Like Written.Returned f f') : f'.lastTrims = f.lastTrims := by
  induction h with
  | nil => rfl
  | cons hw _ hothers _ iho =>
    cases hothers with
    | nil => exact hw.content.trimsOuter_eq
    | cons => exact iho

/-- Nodes are trimmed alike, since the flags of elements are the same. -/
theorem like_trim (inner left : Bool) (h : Like Written.Returned f f') :
    Like Written.Returned (f.trim inner left) (f'.trim inner left) := by
  induction h generalizing inner left with
  | nil => exact .nil
  | @cons w w' below others below' others' hw hbelow hothers ihb iho =>
    have hheeded : Like Written.Returned (if w.node.content.trimsChildren then below else nil)
        (if w.node.content.trimsChildren then below' else nil) := by
      split
      · exact hbelow
      · exact .nil
    have htrims : trims inner left w' below' others' = trims inner left w below others := by
      simp only [trims, hw.content.trimsOuter_eq, hw.content.trimsInner_eq,
        hw.content.trimsChildren_eq, firstTrims_eq hheeded, lastTrims_eq hheeded,
        firstTrims_eq hothers, hothers.isEmpty_eq]
    rw [trim, trim, htrims, hw.content.trimsOuter_eq, hw.content.trimsInner_eq,
      hw.content.trimsChildren_eq]
    apply Like.cons (Trims.apply_returned _ hw) _ (iho ..)
    split
    · exact ihb ..
    · exact hbelow

theorem sameText_html (h : Like Written.Returned f f') : Text.SameText f.html f'.html := by
  induction h with
  | nil => exact .refl _
  | cons hw _ _ ihb iho =>
    rw [html_cons, html_cons]
    exact hw.before.append (ihb.append (hw.after.append iho))

theorem render_returned {S : Failure → Prop} {p : Profile} (hp : p.filters.IgnoresReturns)
    {f f' : Forest Node} (h : Like Node.Returned f f') :
    Corresponds S Text.SameText (f.render p) (f'.render p) := by
  have hwritten : Corresponds S (Like Written.Returned) (f.write p) (f'.write p) := like_write hp h
  rw [render, render, written, written]
  generalize f.write p = r, f'.write p = r' at hwritten
  cases hwritten with
  | ok h => exact .ok (sameText_html (like_trim false false h))
  | error => exact .error
  | refused h => exact .refused h

end Forest

/-! ## Outlines -/

theorem Node.Returned.outlineRow {n n' : Node} (h : n.Returned n') :
    Text.SameText n.outlineRow n'.outlineRow := by
  rw [Node.outlineRow, Node.outlineRow, h.depth_eq, h.newlines]
  obtain ⟨-, -, hcontent⟩ := h
  generalize n.content = c, n'.content = c' at hcontent
  cases hcontent with
  | same => exact .refl _
  | filter h =>
    apply Text.SameText.append (.refl _)
    exact (Text.SameText.refl _).append h.sameText

theorem Forest.sameText_outline {f f' : Forest Node} (h : Like Node.Returned f f') :
    Text.SameText f.outline f'.outline := by
  rw [Text.SameText, outline, outline, Text.dropReturns_unlines, Text.dropReturns_unlines,
    List.map_cons, List.map_cons, List.map_map, List.map_map]
  apply congrArg fun rows => Text.unlines (Text.dropReturns rootRow :: rows)
  rw [← List.forall₂_eq_eq_eq, List.forall₂_map_left_iff, List.forall₂_map_right_iff]
  exact h.toList.flip.imp fun _ _ hn => hn.outlineRow

/-- A template is finished alike. -/
theorem finish_returned {S : Failure → Prop} {p : Profile} (hp : p.filters.IgnoresReturns)
    {f f' : Forest Node} (h : Forest.Like Node.Returned f f') :
    Corresponds S Text.SameText (finish p f) (finish p f') := by
  unfold finish
  split
  · exact .ok (Forest.sameText_outline h)
  · exact Forest.render_returned hp h

end Haml
