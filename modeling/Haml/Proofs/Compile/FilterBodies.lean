import Haml.Proofs.Compile.PlainText
import Haml.Proofs.Reading.FilterNodes
import Haml.Proofs.Text.Margins

/-!
The bodies of filters. The lines below a filter are taken off their margin when they are read and
put behind the margin of the filter when they are written, so that they keep their places to one
another; style sheets and scripts put an element around them and a margin of their own before them.
-/
namespace Haml

open Text (endLines indentOf isBlank isIndent)

/-! ## Rows of an embedded text -/

namespace Filter

namespace Embedding

variable {e : Embedding}

def opening (e : Embedding) (s : Settings) : Text :=
  '<' :: e.element ++ " type=".toList ++ s.wrapper ++ e.mime ++ s.wrapper ++ ['>']

def closing (e : Embedding) : Text := "</".toList ++ e.element ++ ['>']

def cdataRows (s : Settings) (mark : Text) : List Text :=
  if s.cdata then ["  ".toList ++ mark] else []

/-- An embedded text line by line. The opening tag is one line, unless there is a line break in what
is put around attributes. -/
def rows (e : Embedding) (s : Settings) (t : Text) : List Text :=
  (e.opening s).lines ++ cdataRows s e.cdataOpen ++
    (Text.trimRight t).lines.map (indent s ++ ·) ++ cdataRows s e.cdataClose ++ [e.closing]

def Unbroken (e : Embedding) : Prop :=
  '\n' ∉ e.element ∧ '\n' ∉ e.cdataOpen ∧ '\n' ∉ e.cdataClose

instance (e : Embedding) : Decidable e.Unbroken := inferInstanceAs (Decidable (_ ∧ _))

theorem break_not_mem_cdataRows (s : Settings) {mark : Text} (h : '\n' ∉ mark) :
    ∀ l ∈ cdataRows s mark, '\n' ∉ l := by
  intro l hl
  rw [cdataRows] at hl
  split at hl
  · rw [List.mem_singleton.mp hl]
    simpa using h
  · cases hl

theorem endLines_cdataRows (s : Settings) (mark : Text) :
    endLines (cdataRows s mark) = cdataLine s mark := by
  rw [cdataRows, cdataLine]
  split
  · simp
  · rfl

theorem break_not_mem_indent (s : Settings) : '\n' ∉ indent s := by
  rw [indent]
  split <;> decide

theorem lines_render (h : e.Unbroken) (s : Settings) (t : Text) :
    (e.render s t).lines = e.rows s t := by
  obtain ⟨helement, hopen, hclose⟩ := h
  -- the text is cut at the line breaks of the frame; those of the body are left to its own lines
  have hrender : e.render s t = e.opening s ++ '\n' :: (endLines (cdataRows s e.cdataOpen) ++
      (indent s ++ Text.indentBreaks (indent s) (Text.trimRight t) ++ '\n' ::
        (endLines (cdataRows s e.cdataClose) ++ e.closing))) := by
    simp [render, opening, closing, endLines_cdataRows]
  have hbody : (indent s ++ Text.indentBreaks (indent s) (Text.trimRight t)).lines =
      (Text.trimRight t).lines.map (indent s ++ ·) := by
    rw [Text.append_indentBreaks, Text.lines_unlines]
    · exact fun h => Text.splitWhen_ne_nil _ _ (List.map_eq_nil_iff.mp h)
    · intro l hl
      obtain ⟨k, hk, rfl⟩ := List.mem_map.mp hl
      exact fun hmem => (List.mem_append.mp hmem).elim (break_not_mem_indent s)
        (Text.not_mem_of_mem_lines hk)
  have hclosing : '\n' ∉ e.closing := by simpa [closing] using helement
  rw [hrender, Text.lines_append_break,
    Text.lines_endLines_append (break_not_mem_cdataRows s hopen), Text.lines_append_break, hbody,
    Text.lines_endLines_append (break_not_mem_cdataRows s hclose), Text.lines_of_not_mem hclosing]
  simp [rows]

end Embedding

/-- What a filter puts around its body. -/
structure Frame where
  start : String
  mime : String
  cdataStart : String
  cdataEnd : String
  finish : String

/-- The lines of a body with a frame around them. The first line of the frame is one line, unless
there is a line break in what is put around attributes. -/
def Frame.rows (frame : Frame) (s : Settings) (bs : List Text) : List Text :=
  Text.lines (frame.start.toList ++ s.wrapper ++ frame.mime.toList ++ s.wrapper ++ ['>']) ++
    (if s.cdata then [frame.cdataStart.toList] else []) ++
    (Text.trimRight (Text.unlines bs)).lines.map
      ((if s.cdata then "    ".toList else "  ".toList) ++ ·) ++
    (if s.cdata then [frame.cdataEnd.toList] else []) ++ [frame.finish.toList]

def styleFrame (mime : String) : Frame :=
  ⟨"<style type=", mime, "  /*<![CDATA[*/", "  /*]]>*/", "</style>"⟩

def scriptFrame (mime cdataStart cdataEnd : String) : Frame :=
  ⟨"<script type=", mime, cdataStart, cdataEnd, "</script>"⟩

/-- The filters that show their body as it is, by their names, and what they put around it. -/
def showing : List (Text × Option Frame) :=
  [("plain".toList, none), ("css".toList, some (styleFrame "text/css")),
   ("stylus".toList, some (styleFrame "text/stylus")),
   ("less".toList, some (styleFrame "text/less")), ("sass".toList, some (styleFrame "text/sass")),
   ("javascript".toList, some (scriptFrame "text/javascript" "  //<![CDATA[" "  //]]>")),
   ("coffee".toList, some (scriptFrame "text/coffeescript" "  #<![CDATA[" "  #]]>")),
   ("coffeescript".toList, some (scriptFrame "text/coffeescript" "  #<![CDATA[" "  #]]>"))]

def shownRows (s : Settings) (frame : Option Frame) (bs : List Text) : List Text :=
  frame.elim bs fun frame => frame.rows s bs

variable {name : Text} {f : Filter} {frame : Option Frame}

theorem name_of_mem_showing (h : (name, frame) ∈ showing) :
    '\n' ∉ name ∧ Text.trimRight name = name := by
  have hall : ∀ r ∈ showing, '\n' ∉ r.1 ∧ Text.trimRight r.1 = r.1 := by decide
  exact hall _ h

/-- A filter shows a body in a frame. -/
def Shows (f : Filter) (frame : Option Frame) : Prop :=
  ∀ (fs : Filters) (s : Settings) (bs : List Text), bs ≠ [] → (∀ b ∈ bs, '\n' ∉ b) →
    ∃ t, f.apply fs s (Text.unlines bs) = .ok t ∧ t.lines = shownRows s frame bs

theorem shows_plain : Shows plain none :=
  fun _ _ _ hne hbs => ⟨_, rfl, Text.lines_unlines hne hbs⟩

structure Frame.Fits (frame : Frame) (e : Embedding) : Prop where
  start : frame.start.toList = '<' :: e.element ++ " type=".toList
  mime : frame.mime.toList = e.mime
  cdataStart : frame.cdataStart.toList = "  ".toList ++ e.cdataOpen
  cdataEnd : frame.cdataEnd.toList = "  ".toList ++ e.cdataClose
  finish : frame.finish.toList = "</".toList ++ e.element ++ ['>']

theorem Frame.Fits.rows_eq {frame : Frame} {e : Embedding} (h : frame.Fits e) (s : Settings)
    (bs : List Text) : e.rows s (Text.unlines bs) = frame.rows s bs := by
  rw [Frame.rows, h.start, h.mime, h.cdataStart, h.cdataEnd, h.finish]
  rfl

theorem shows_of_fits {e : Embedding} {frame : Frame}
    (happly : ∀ fs s t, f.apply fs s t = .ok (e.render s t)) (he : e.Unbroken) (h : frame.Fits e) :
    Shows f (some frame) :=
  fun fs s bs _ _ =>
    ⟨_, happly fs s _, (Embedding.lines_render he s _).trans (h.rows_eq s bs)⟩

theorem find_of_mem_showing (h : (name, frame) ∈ showing) :
    ∃ f, Filters.find {} name = .ok f ∧ Shows f frame := by
  simp only [showing, List.mem_cons, Prod.mk.injEq, List.not_mem_nil, or_false] at h
  rcases h with ⟨rfl, rfl⟩ | ⟨rfl, rfl⟩ | ⟨rfl, rfl⟩ | ⟨rfl, rfl⟩ | ⟨rfl, rfl⟩ | ⟨rfl, rfl⟩ |
    ⟨rfl, rfl⟩ | ⟨rfl, rfl⟩
  · exact ⟨plain, rfl, shows_plain⟩
  all_goals
    exact ⟨_, rfl, shows_of_fits (fun _ _ _ => rfl) (by decide) ⟨rfl, rfl, rfl, rfl, rfl⟩⟩

end Filter

/-! ## Writing a filter -/

namespace Forest

/-- A node without flags, alone. -/
theorem render_alone {p : Profile} {n : Node} {f : Faces} (hf : n.faces p false = .ok f)
    (hflags : n.content.trimsInner = false ∧ n.content.trimsOuter = false) :
    (cons n nil nil).render p = .ok (f.before.getD [] ++ f.after.getD []) := by
  have hwrite : (cons n nil nil).write p =
      .ok (cons ⟨n, f.before.getD [], f.after.getD []⟩ nil nil) := by
    rw [write, show n.faces p (!(nil : Forest Node).isEmpty) = .ok f from hf]
    cases n.content.showsChildren <;> rfl
  have htrim : (cons ⟨n, f.before.getD [], f.after.getD []⟩ nil nil : Forest Written).trim
      false false = cons ⟨n, f.before.getD [], f.after.getD []⟩ nil nil :=
    trim_eq_self fun w hw => by
      obtain rfl : w = _ := by simpa using hw
      exact hflags
  rw [render, written, hwrite]
  show Except.ok (html (trim false false _)) = _
  rw [htrim]
  simp [html, texts]

end Forest

namespace Filter

variable {p : Profile} {name : Text} {f : Filter} {frame : Option Frame}

/-- A line of the body of a filter as it is to be shown: nothing, written as a blank line, or a text
behind the margin of the body. -/
inductive BodyLine where
  | empty (pad : Text) (blank : ∀ x ∈ pad, isIndent x = true)
  | text (t : Text) (unbroken : '\n' ∉ t) (black : t.all isBlank = false)

namespace BodyLine

def shown : BodyLine → Text
  | empty _ _ => []
  | text t _ _ => t

def written (margin : Text) : BodyLine → Text
  | empty pad _ => pad
  | text t _ _ => margin ++ t

theorem shown_filled (b : BodyLine) : '\n' ∉ b.shown ∧ Text.Filled b.shown := by
  cases b with
  | empty pad blank => exact ⟨by simp [shown], .inl rfl⟩
  | text t unbroken black =>
    obtain ⟨x, hx, hblack⟩ := List.all_eq_false.mp black
    refine ⟨unbroken, .inr (List.all_eq_false.mpr ⟨x, hx, fun hindent => hblack ?_⟩)⟩
    exact Text.isBlank_of_isIndent hindent

theorem blankToEmpty_written (margin : Text) (b : BodyLine) :
    Attribute.blankToEmpty (b.written margin) = Text.behind margin b.shown := by
  cases b with
  | empty pad blank =>
    have hall : pad.all isBlank = true :=
      List.all_eq_true.mpr fun x hx => Text.isBlank_of_isIndent (blank x hx)
    rw [written, Attribute.blankToEmpty, if_pos hall]
    rfl
  | text t unbroken black =>
    have hne : t.isEmpty = false := by
      cases t with
      | nil => cases black
      | cons x t => rfl
    rw [written, Attribute.blankToEmpty, if_neg (by simp [List.all_append, black]), shown,
      Text.behind, hne]
    rfl

theorem written_fits {n : Nat} {margin : Text} (hmargin : ∀ x ∈ margin, isIndent x = true)
    (hdeep : n < margin.length) (b : BodyLine) :
    '\n' ∉ b.written margin ∧ Attribute.Fits (some (n + 1)) (b.written margin) := by
  cases b with
  | empty pad blank =>
    exact ⟨Text.break_not_mem blank, .inl fun x hx => Text.isBlank_of_isIndent (blank x hx)⟩
  | text t unbroken black =>
    refine ⟨fun h => (List.mem_append.mp h).elim (Text.break_not_mem hmargin) unbroken, .inr ?_⟩
    rw [written, indentOf, List.takeWhile_append_of_pos fun x hx =>
      Text.isBlank_of_isIndent (hmargin x hx), List.length_append]
    omega

end BodyLine

/-- The text of a filter node that was read from a body. -/
theorem render_body (hf : Shows f frame) (hfind : p.filters.find name = .ok f)
    {margin : Text} (hmargin : ∀ x ∈ margin, isIndent x = true) {bs : List Text}
    (hbs : ∀ b ∈ bs, '\n' ∉ b ∧ Text.Filled b) (hflush : ∃ b ∈ bs, Text.Flush b) (indent : Text) :
    (Forest.cons { indent := indent
                   content := .filter name (Text.unlines (bs.map (Text.behind margin))) }
      .nil .nil).render p =
      .ok (endLines ((shownRows p.settings frame bs).map (indent ++ ·))) := by
  have hne : bs ≠ [] := by
    obtain ⟨b, hb, -⟩ := hflush
    exact List.ne_nil_of_mem hb
  have hbody : (Text.unlines (bs.map (Text.behind margin))).isEmpty = false := by
    obtain ⟨b, hb, x, u, rfl, -⟩ := hflush
    have hin := Text.within_unlines (List.mem_map_of_mem hb : Text.behind margin (x :: u) ∈ _)
    have hx : x ∈ Text.behind margin (x :: u) := List.mem_append_right _ (by simp)
    exact List.isEmpty_eq_false_iff.mpr (List.ne_nil_of_mem (hin.subset hx))
  obtain ⟨t, happly, hlines⟩ := hf p.filters p.settings bs hne fun b hb => (hbs b hb).1
  have hrows : (shownRows p.settings frame bs).map (indent ++ ·) ≠ [] := by
    rw [← hlines]
    exact fun h => Text.splitWhen_ne_nil _ _ (List.map_eq_nil_iff.mp h)
  have hfaces : Node.faces p { indent := indent
                               content := .filter name
                                (Text.unlines (bs.map (Text.behind margin))) } false =
      .ok { before := some (indent ++ Text.indentBreaks indent t), after := some ['\n'] } := by
    rw [Node.faces, Content.faces, hfind]
    show (f.apply p.filters p.settings (Text.dedent _) >>= _) = _
    rw [Text.dedent_behind hmargin hbs hflush, happly]
    show Except.ok _ = _
    rw [hbody]
    rfl
  rw [Forest.render_alone hfaces ⟨rfl, rfl⟩, Text.endLines_eq_unlines hrows, ← hlines,
    ← Text.append_indentBreaks]
  rfl

/-- A filter reproduces its body. The filter and its lines are read up to a line that is not
indented deeper, and they are written behind the indentation of the filter, the lines of the body
at the same places to one another. -/
theorem reproduces_body {block : Text → Except Failure Text} (hname : (name, frame) ∈ showing)
    (hfind : p.filters.find name = Filters.find {} name)
    {x : Char} (hx : isIndent x = true) (n : Nat)
    {margin : Text} (hmargin : ∀ y ∈ margin, isIndent y = true) (hdeep : n < margin.length)
    {body : List BodyLine} (hflush : ∃ b ∈ body, Text.Flush b.shown) {rest : Text}
    (hrest : rest = [] ∨ ∃ l after, rest = l ++ after ∧ '\n' ∉ l ∧ l.all isBlank = false ∧
      indentOf l ≤ n) :
    ∃ node, Reader.Reads (Node.next p block)
        (List.replicate n x ++ ':' :: (name ++ ['\n'] ++ endLines (body.map (·.written margin))))
        (0, some node) rest ∧
      (Forest.cons node .nil .nil).render p =
        .ok (endLines ((shownRows p.settings frame (body.map (·.shown))).map
          (List.replicate n x ++ ·))) := by
  obtain ⟨f, hf, hshows⟩ := find_of_mem_showing hname
  obtain ⟨hbreak, htrim⟩ := name_of_mem_showing hname
  have hindent : ∀ y ∈ List.replicate n x, isIndent y = true := fun y hy =>
    List.eq_of_mem_replicate hy ▸ hx
  have hlines : ∀ l ∈ body.map (·.written margin),
      '\n' ∉ l ∧ Attribute.Fits (some ((List.replicate n x).length + 1)) l := by
    intro l hl
    obtain ⟨b, -, rfl⟩ := List.mem_map.mp hl
    rw [List.length_replicate]
    exact b.written_fits hmargin hdeep
  have hends : Attribute.Ends (some ((List.replicate n x).length + 1)) rest := by
    rw [List.length_replicate]
    rcases hrest with rfl | ⟨l, after, rfl, hl, hblack, hle⟩
    · exact .inl rfl
    · exact .inr ⟨_, Nat.lt_succ_of_le hle, Reader.margin?_of_black hl (by simpa using hblack)⟩
  -- an indentation of one character only is kept as it is
  have huniform : Node.uniform (List.replicate n x) = List.replicate n x := by
    cases n with
    | zero => rfl
    | succ n => simp [Node.uniform, List.replicate_succ]
  have hread := Node.reads_next_filter p block hindent hbreak hlines hends
  have hbody : (body.map (·.written margin)).map Attribute.blankToEmpty =
      (body.map (·.shown)).map (Text.behind margin) := by
    simp [BodyLine.blankToEmpty_written]
  rw [huniform, htrim, hbody] at hread
  refine ⟨_, hread, render_body hshows (hfind.trans hf) hmargin ?_ ?_ _⟩
  · intro b hb
    obtain ⟨line, -, rfl⟩ := List.mem_map.mp hb
    exact line.shown_filled
  · obtain ⟨b, hb, hb'⟩ := hflush
    exact ⟨b.shown, List.mem_map_of_mem hb, hb'⟩

def scriptBody : List BodyLine :=
  [.text "  a = (b) ->".toList (by decide) (by decide),
   .empty " \t".toList (List.all_eq_true.mp (by decide)),
   .text "c  b".toList (by decide) (by decide), .text " d  ".toList (by decide) (by decide),
   .empty [] (by simp)]

def styleBody : List BodyLine :=
  [.text "p \x7b".toList (by decide) (by decide), .text "  top: 1".toList (by decide) (by decide),
   .text "\x7d".toList (by decide) (by decide)]

/-- A script in a CDATA section, and a style sheet without one at the end of the template. -/
theorem reproduces_body_embedded :
    (∃ node, Reader.Reads (Node.next { settings := { cdata := true } } (compile {}))
        "\t:coffee\n\t    a = (b) ->\n \t\n\t  c  b\n\t   d  \n\n".toList
        (0, some node) "\t%p".toList ∧
      (Forest.cons node .nil .nil).render { settings := { cdata := true } } =
        .ok ("\t<script type='text/coffeescript'>\n\t  #<![CDATA[\n\t      a = (b) ->\n" ++
          "\t    \n\t    c  b\n\t     d\n\t  #]]>\n\t</script>\n").toList) ∧
    ∃ node, Reader.Reads (Node.next {} (compile {}))
        "  :css\n    p \x7b\n      top: 1\n    \x7d\n".toList (0, some node) [] ∧
      (Forest.cons node .nil .nil).render {} =
        .ok "  <style type='text/css'>\n    p \x7b\n      top: 1\n    \x7d\n  </style>\n".toList := by
  constructor
  · have hflush : ∃ b ∈ scriptBody, Text.Flush b.shown :=
      ⟨_, .tail _ (.tail _ (.head _)), 'c', _, rfl, by decide⟩
    have hname : ("coffee".toList, some (scriptFrame "text/coffeescript" "  #<![CDATA[" "  #]]>")) ∈
        showing := by
      simp [showing]
    have hmargin : ∀ y ∈ "\t  ".toList, isIndent y = true := List.all_eq_true.mp (by decide)
    have hwritten : "\t:coffee\n\t    a = (b) ->\n \t\n\t  c  b\n\t   d  \n\n".toList =
        List.replicate 1 '\t' ++ ':' :: ("coffee".toList ++ ['\n'] ++
          endLines (scriptBody.map (·.written "\t  ".toList))) := by
      decide +kernel
    have hshown : ("\t<script type='text/coffeescript'>\n\t  #<![CDATA[\n\t      a = (b) ->\n" ++
        "\t    \n\t    c  b\n\t     d\n\t  #]]>\n\t</script>\n").toList =
        endLines ((shownRows { cdata := true }
          (some (scriptFrame "text/coffeescript" "  #<![CDATA[" "  #]]>"))
          (scriptBody.map (·.shown))).map (List.replicate 1 '\t' ++ ·)) := by
      decide +kernel
    rw [hwritten, hshown]
    exact reproduces_body hname rfl rfl 1 hmargin (by decide) hflush
      (.inr ⟨"\t%p".toList, [], rfl, by decide, by decide, by decide⟩)
  · have hflush : ∃ b ∈ styleBody, Text.Flush b.shown := ⟨_, .head _, 'p', _, rfl, by decide⟩
    have hname : ("css".toList, some (styleFrame "text/css")) ∈ showing := by simp [showing]
    have hmargin : ∀ y ∈ "    ".toList, isIndent y = true := List.all_eq_true.mp (by decide)
    have hwritten : "  :css\n    p \x7b\n      top: 1\n    \x7d\n".toList =
        List.replicate 2 ' ' ++ ':' :: ("css".toList ++ ['\n'] ++
          endLines (styleBody.map (·.written "    ".toList))) := by
      decide +kernel
    have hshown :
        "  <style type='text/css'>\n    p \x7b\n      top: 1\n    \x7d\n  </style>\n".toList =
        endLines ((shownRows {} (some (styleFrame "text/css"))
          (styleBody.map (·.shown))).map (List.replicate 2 ' ' ++ ·)) := by
      decide +kernel
    rw [hwritten, hshown]
    exact reproduces_body hname rfl rfl 2 hmargin (by decide) hflush (.inl rfl)

end Filter

end Haml
