import Haml.Proofs.Markup.Shown
import Haml.Proofs.Reading.Spellings

/-!
Templates that are a single element. Whatever parts the element is written with, such a template has
one node. Main statement: it is compiled whenever the attributes of the element can be rendered, and
these attributes stand in the markup.
-/
namespace Haml

open Reader Node

variable {p : Profile} {block : Text → Except Failure Text}

namespace Element.Spelling

/-- An element begins with a tag or a shortcut, of which two characters tell that it is one. -/
theorem starts (e : Spelling) (rest : Text) :
    ∃ x y u, e.text ++ rest = x :: y :: u ∧ x ∈ ['%', '#', '.'] ∧ y ≠ '{' ∧ y ≠ '}' := by
  have hfront : e.tag.text ++ e.shortcuts.flatMap Sigil.text <+: e.text ++ rest := by
    rw [text, ← List.append_assoc]
    exact (List.prefix_append _ _).trans (List.prefix_append _ _)
  have hmark : ∃ x ∈ ['%', '#', '.'], ∃ n : Name, x :: n.text <+: e.text ++ rest := by
    cases htag : e.tag with
    | absent =>
      obtain ⟨c, cs, hcs⟩ := List.exists_cons_of_ne_nil (e.started htag)
      rw [htag, hcs, List.flatMap_cons, Tag.text, List.nil_append] at hfront
      cases c with
      | toId n => exact ⟨'#', by simp, n, (List.prefix_append _ _).trans hfront⟩
      | toClass n => exact ⟨'.', by simp, n, (List.prefix_append _ _).trans hfront⟩
    | plain n =>
      rw [htag] at hfront
      exact ⟨'%', by simp, n, (List.prefix_append _ _).trans hfront⟩
    | qualified n m =>
      rw [htag, Tag.text, List.cons_append, List.append_assoc] at hfront
      exact ⟨'%', by simp, n, (List.prefix_append ('%' :: n.text) _).trans hfront⟩
  obtain ⟨x, hx, n, u, htext⟩ := hmark
  obtain ⟨y, w, hn⟩ := List.exists_cons_of_ne_nil n.ne_nil
  have hy := n.letters y (by simp [hn])
  refine ⟨x, y, w ++ u, by rw [← htext, hn, List.cons_append, List.cons_append], hx, ?_, ?_⟩
  all_goals
    rintro rfl
    exact absurd hy (by decide)

def node (s : Settings) (e : Spelling) : Node := { indent := [], content := .element (e.element s) }

theorem reads_node (e : Spelling) (rest : Text) :
    Reads (Node.node p block []) e.text (e.node p.settings) rest := by
  obtain ⟨x, y, u, htext, hx, hy⟩ := e.starts rest
  have hcolon : x ≠ ':' := by
    rintro rfl
    exact absurd hx (by decide)
  apply (reads_peek (congrArg List.head? htext)).look
  apply Reads.ite_neg hcolon
  intro q
  have hstarts : startsElement ⟨q, e.text ++ rest, 0, 0⟩ = true := by
    simp only [List.mem_cons, List.not_mem_nil, or_false] at hx
    simp [startsElement, Cursor.ahead, Cursor.piece, htext, hy, or_assoc, hx]
  have hget : (get : Reader Cursor) ⟨q, e.text ++ rest, 0, 0⟩ =
      .ok ⟨q, e.text ++ rest, 0, 0⟩ ⟨q, e.text ++ rest, 0, 0⟩ := rfl
  rw [bind_of_ok hget, hstarts, if_pos rfl, bind_of_ok (reads_element e q)]
  rfl

theorem parse_text (e : Spelling) :
    parse p e.text = .ok (.cons (e.node p.settings) .nil .nil) := by
  obtain ⟨x, y, u, htext, hx, -⟩ := e.starts []
  rw [List.append_nil] at htext
  have hstart : StartsLine e.text := by
    simp only [List.mem_cons, List.not_mem_nil, or_false] at hx
    refine ⟨x, y :: u, htext, ?_⟩
    rcases hx with rfl | rfl | rfl <;> decide
  have hread : readNodes p (compile p) e.text = .ok [e.node p.settings] := by
    have hnode : Node.node p (compile p) [] ⟨[], e.text ++ [], 0, 0⟩ = _ := reads_node e [] []
    have hall : all p (compile p) (' ' :: e.text) [] ⟨[], [] ++ e.text, 0, 0⟩ = _ :=
      all_line ' ' e.text [] (by simp) hstart []
    have hend : all p (compile p) e.text [e.node p.settings] ⟨e.text.reverse ++ [], [], 0, 0⟩ = _ :=
      all_end (by simp) [e.node p.settings] (e.text.reverse ++ []) (by simp [htext])
    rw [List.append_nil] at hnode
    rw [List.nil_append] at hall
    rw [readNodes, Cursor.ofText, hall.trans ((bind_of_ok hnode).trans hend)]
    rfl
  rw [parse, hread]
  rfl

/-- The attributes are not trimmed away from the opening tag. -/
theorem attributesText_trim (p : Profile) (e : Element) :
    e.attributesText p <:+: Text.trim ('<' :: e.tag ++ e.attributesText p ++ e.contentText p) := by
  have hclose : '>' ∈ e.contentText p := by
    unfold contentText
    split
    · simp
    · split <;> simp
  have hne : Text.trimRight (e.contentText p) ≠ [] :=
    List.ne_nil_of_mem (Text.mem_trimRight (by decide) hclose)
  rw [List.cons_append, List.cons_append, Text.trim_cons (by decide),
    Text.trimRight_append_of_ne_nil _ hne]
  exact ⟨'<' :: e.tag, Text.trimRight (e.contentText p), by simp⟩

/-- A template that is an element is compiled if its attributes can be rendered, and they stand in
the markup. -/
theorem compile_text (hp : p.settings.outline = false) (e : Spelling)
    (h : ∃ t, (e.element p.settings).renderAttributes p.settings = .ok t) :
    ∃ html, compile p e.text = .ok html ∧ (e.element p.settings).attributesText p <:+: html := by
  obtain ⟨html, hcompile⟩ : ∃ html, compile p e.text = .ok html := by
    obtain ⟨t, ht⟩ := h
    obtain ⟨f, hf⟩ : ∃ f, (e.node p.settings).faces p false = .ok f := by
      simp only [Node.faces, node, Content.faces, Content.openingTag, ht]
      exact ⟨_, rfl⟩
    have hwrite : ∃ w, (Forest.cons (e.node p.settings) .nil .nil).write p = .ok w := by
      simp only [Forest.write, Forest.isEmpty, Bool.not_true, hf]
      exact ⟨_, rfl⟩
    obtain ⟨w, hw⟩ := hwrite
    rw [compile_eq, parse_text]
    change ∃ html, finish p _ = .ok html
    rw [finish, hp, if_neg (by simp), Forest.render, Forest.written, hw]
    exact ⟨_, rfl⟩
  refine ⟨html, hcompile, ?_⟩
  obtain ⟨f, w, hparse, hw, rfl⟩ := exists_written hp hcompile
  have hshown := Forest.shownIn_html (read_of_parse hparse) (filtersBare_of_parse hparse) hw false
    false
  rw [parse_text] at hparse
  obtain rfl := Except.ok.inj hparse
  obtain ⟨front, inside, behind, heq, hown, -, -⟩ := hshown
  rw [heq]
  exact (attributesText_trim _ _).trans (hown.trans (List.prefix_append front _).isInfix)

end Element.Spelling

end Haml
