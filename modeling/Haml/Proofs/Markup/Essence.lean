import Haml.Proofs.Forest.Placement
import Haml.Proofs.Markup.Nesting

/-!
Markup without its blanks. The trimming of texts and the breaks after nodes change nothing but
blanks, so what is left of the markup without them can be read off the forest directly: `essence`
is defined by recursion on the forest. Silent comments are not seen in it.
-/
namespace Haml

/-- A text without its blanks. -/
def squeeze (t : Text) : Text := t.filter fun c => !Text.isBlank c

@[simp] theorem squeeze_nil : squeeze [] = [] := rfl

@[simp] theorem squeeze_append (t u : Text) : squeeze (t ++ u) = squeeze t ++ squeeze u :=
  List.filter_append ..

@[simp] theorem squeeze_cons (x : Char) (t : Text) :
    squeeze (x :: t) = (if Text.isBlank x then [] else [x]) ++ squeeze t := by
  by_cases h : Text.isBlank x = true <;> simp [squeeze, h]

theorem squeeze_eq_nil {t : Text} (h : ∀ x ∈ t, Text.isBlank x = true) : squeeze t = [] := by
  rw [squeeze, List.filter_eq_nil_iff]
  intro x hx
  simp [h x hx]

theorem squeeze_ne_nil {t : Text} (h : ∃ x ∈ t, Text.isBlank x = false) : squeeze t ≠ [] := by
  obtain ⟨x, hx, hblank⟩ := h
  exact List.ne_nil_of_mem (List.mem_filter.mpr ⟨hx, by simp [hblank]⟩)

theorem ne_nil_of_squeeze {t : Text} (h : squeeze t ≠ []) : t ≠ [] := by
  rintro rfl
  exact h rfl

theorem squeeze_trimLeft (t : Text) : squeeze (Text.trimLeft t) = squeeze t := by
  have hsplit := List.takeWhile_append_dropWhile (p := Text.isBlank) (l := t)
  have htaken : squeeze (t.takeWhile Text.isBlank) = [] :=
    squeeze_eq_nil fun x hx => List.all_eq_true.mp List.all_takeWhile x hx
  conv_rhs => rw [← hsplit, squeeze_append, htaken]
  rfl

theorem squeeze_reverse (t : Text) : squeeze t.reverse = (squeeze t).reverse :=
  List.filter_reverse ..

theorem squeeze_trimRight (t : Text) : squeeze (Text.trimRight t) = squeeze t := by
  have h := squeeze_trimLeft t.reverse
  rw [squeeze_reverse] at h
  rw [Text.trimRight, squeeze_reverse]
  rw [Text.trimLeft] at h
  rw [h, List.reverse_reverse]

theorem squeeze_trim (t : Text) : squeeze (Text.trim t) = squeeze t := by
  rw [Text.trim, squeeze_trimRight, squeeze_trimLeft]

theorem squeeze_trimEnds (left right : Bool) (t : Text) :
    squeeze (trimEnds left right t) = squeeze t := by
  cases left <;> cases right <;> simp [trimEnds, squeeze_trimLeft, squeeze_trimRight]

def Faces.squeezed (f : Faces) : Text × Text :=
  (squeeze (f.before.getD []), squeeze (f.after.getD []))

/-- The texts of a node without blanks, where one that is missing is still missing. -/
def Faces.faded (f : Faces) : Faces := ⟨f.before.map squeeze, f.after.map squeeze⟩

theorem Faces.squeezed_eq (f : Faces) :
    f.squeezed = (f.faded.before.getD [], f.faded.after.getD []) := by
  obtain ⟨before, after⟩ := f
  cases before <;> cases after <;> rfl

namespace Content

theorem squeeze_openingEnd {p : Profile} {breaks : Text} (e : Element) (hasChildren : Bool)
    (h : squeeze breaks = []) :
    squeeze (openingEnd p breaks e hasChildren) = squeeze (openingEnd p [] e hasChildren) := by
  unfold openingEnd
  split
  · rfl
  · split
    · rfl
    · split
      · simp [h]
      · rfl

theorem squeeze_closingTag {indent breaks : Text} (e : Element) (hasChildren : Bool)
    (h : squeeze breaks = []) :
    squeeze (closingTag indent breaks e hasChildren) =
      squeeze (closingTag indent [] e hasChildren) := by
  unfold closingTag
  dsimp only
  split
  · simp [h]
  · split
    · simp [h]
    · rfl

/-- The breaks after a node are seen in its blanks only. -/
theorem faded_faces (p : Profile) (indent : Text) {breaks : Text} (content : Content)
    (hasChildren : Bool) (h : squeeze breaks = []) :
    (content.faces p indent breaks hasChildren).map Faces.faded =
      (content.faces p indent [] hasChildren).map Faces.faded := by
  cases content with
  | plain line => cases hasChildren <;> simp [faces, Except.map, Faces.faded, h]
  | element e =>
    unfold faces openingTag
    dsimp only
    cases e.renderAttributes p.settings with
    | error e => rfl
    | ok attributes =>
      refine congrArg Except.ok (congrArg₂ Faces.mk (congrArg some ?_) (congrArg some ?_))
      · simp only [squeeze_append]
        rw [squeeze_openingEnd e hasChildren h]
      · exact squeeze_closingTag e hasChildren h
  | comment line => cases hasChildren <;> simp [faces, Except.map, Faces.faded, h]
  | conditional line => rfl
  | doctype line => simp [faces, Except.map, Faces.faded, h]
  | silent line =>
    have hdrop : squeeze (breaks.drop 1) = [] := by
      rw [squeeze, List.filter_eq_nil_iff] at h ⊢
      exact fun x hx => h x (List.drop_subset _ _ hx)
    exact congrArg Except.ok (congrArg (Faces.mk none) (congrArg some hdrop))
  | expression line => simp [faces, Except.map, Faces.faded, h]
  | tag line =>
    unfold faces
    dsimp only
    cases p.tags.closing? (tagName line) with
    | some closing => simp [Except.map, Faces.faded, h]
    | none => cases hasChildren <;> simp [Except.map, Faces.faded, h]
  | filter name body =>
    unfold faces
    dsimp only
    cases p.filters.find name with
    | error e => rfl
    | ok f =>
      change ((f.apply p.filters p.settings body.dedent >>= _).map _ : Except Failure _) =
        (f.apply p.filters p.settings body.dedent >>= _).map _
      cases f.apply p.filters p.settings body.dedent with
      | error e => rfl
      | ok text =>
        refine congrArg Except.ok (congrArg (Faces.mk _) (congrArg some ?_))
        cases body <;> simp [h]

theorem squeezed_faces (p : Profile) (indent : Text) {breaks : Text} (content : Content)
    (hasChildren : Bool) (h : squeeze breaks = []) :
    (content.faces p indent breaks hasChildren).map Faces.squeezed =
      (content.faces p indent [] hasChildren).map Faces.squeezed := by
  have hsqueezed : ∀ x : Except Failure Faces, x.map Faces.squeezed =
      (x.map Faces.faded).map fun f => (f.before.getD [], f.after.getD []) := by
    intro x
    cases x with
    | error e => rfl
    | ok f => exact congrArg Except.ok f.squeezed_eq
  rw [hsqueezed, hsqueezed, faded_faces p indent content hasChildren h]

theorem squeeze_indentBreaks {margin : Text} (h : squeeze margin = []) (t : Text) :
    squeeze (Text.indentBreaks margin t) = squeeze t := by
  induction t with
  | nil => rfl
  | cons x t ih =>
    have hstep : Text.indentBreaks margin (x :: t) =
        (if x = '\n' then '\n' :: margin else [x]) ++ Text.indentBreaks margin t := rfl
    rw [hstep, squeeze_append, ih]
    by_cases hx : x = '\n'
    · simp [hx, h]
    · simp [hx]

/-- The indentation of a node is seen in its blanks only. -/
theorem squeezed_faces_indent (p : Profile) {indent : Text} (breaks : Text) (content : Content)
    (hasChildren : Bool) (h : squeeze indent = []) :
    (content.faces p indent breaks hasChildren).map Faces.squeezed =
      (content.faces p [] breaks hasChildren).map Faces.squeezed := by
  cases content with
  | plain line => cases hasChildren <;> simp [faces, Except.map, Faces.squeezed, h]
  | element e =>
    unfold faces openingTag
    dsimp only
    cases e.renderAttributes p.settings with
    | error e => rfl
    | ok attributes =>
      refine congrArg Except.ok (Prod.ext ?_ ?_)
      · simp [Faces.squeezed, h]
      · simp only [Faces.squeezed, Option.getD_some, closingTag]
        split
        · rfl
        · split
          · rfl
          · cases hasChildren <;> simp [h]
  | comment line | conditional line | doctype line | silent line => rfl
  | expression line => simp [faces, Except.map, Faces.squeezed, h]
  | tag line =>
    unfold faces
    dsimp only
    cases p.tags.closing? (tagName line) with
    | some closing => simp [Except.map, Faces.squeezed, h]
    | none => cases hasChildren <;> simp [Except.map, Faces.squeezed, h]
  | filter name body =>
    unfold faces
    dsimp only
    cases p.filters.find name with
    | error e => rfl
    | ok f =>
      change ((f.apply p.filters p.settings body.dedent >>= _).map _ : Except Failure _) =
        (f.apply p.filters p.settings body.dedent >>= _).map _
      cases f.apply p.filters p.settings body.dedent with
      | error e => rfl
      | ok text =>
        refine congrArg Except.ok (Prod.ext ?_ rfl)
        simp only [Faces.squeezed, Option.getD_some, squeeze_append, h, squeeze_nil,
          squeeze_indentBreaks h, squeeze_indentBreaks squeeze_nil]

end Content

theorem Node.squeeze_breaks (n : Node) : squeeze n.breaks = [] := squeeze_eq_nil n.isBlank_breaks

namespace Forest

/-- The markup of a forest without blanks. -/
def essence (p : Profile) : Forest Node → Except Failure Text
  | nil => .ok []
  | cons n below others => do
    let f ← (n.faces p (!below.isEmpty)).map Faces.squeezed
    let inside ← if n.content.showsChildren then essence p below else pure []
    let after ← essence p others
    return f.1 ++ (inside ++ (f.2 ++ after))

theorem squeeze_html_trim (inner left : Bool) (f : Forest Written) :
    squeeze (f.trim inner left).html = squeeze f.html := by
  induction f generalizing inner left with
  | nil => rfl
  | cons w below others ihb iho =>
    rw [trim, html_cons, html_cons]
    have hbelow : squeeze (if w.node.content.trimsChildren then
        trim w.node.content.trimsInner w.node.content.trimsInner below else below).html =
        squeeze below.html := by
      split
      · exact ihb _ _
      · rfl
    simp only [squeeze_append, hbelow, iho, Trims.apply, squeeze_trimEnds]

theorem squeeze_write (p : Profile) (f : Forest Node) :
    (f.write p).map (fun w => squeeze w.html) = f.essence p := by
  induction f with
  | nil => rfl
  | cons n below others ihb iho =>
    rw [write, essence, ← iho, ← ihb]
    cases n.faces p (!below.isEmpty) with
    | error e => rfl
    | ok f =>
      cases hs : n.content.showsChildren with
      | false =>
        cases others.write p with
        | error e => rfl
        | ok others' =>
          refine congrArg Except.ok ?_
          simp [html_cons, Faces.squeezed, html_unwritten]
      | true =>
        cases below.write p with
        | error e => rfl
        | ok below' =>
          cases others.write p with
          | error e => rfl
          | ok others' =>
            refine congrArg Except.ok ?_
            simp [html_cons, Faces.squeezed]

theorem squeeze_render (p : Profile) (f : Forest Node) :
    (f.render p).map squeeze = f.essence p := by
  rw [← squeeze_write, render, written]
  cases f.write p with
  | error e => rfl
  | ok w => exact congrArg Except.ok (squeeze_html_trim false false w)

end Forest

end Haml
