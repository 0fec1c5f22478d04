import Haml.Proofs.Compile.Termination
import Haml.Proofs.Forest.Placement
import Haml.Proofs.Text.Trimming
import Mathlib.Data.List.TakeWhile

/-!
Tables of closing tags. A template looks a table up by the names of its tag lines only: a line that
closes a block is refused, and another one is closed as the table says. Two tables give the same
result for every template if and only if they do so for every name on a line of its own.
-/
namespace Haml

/-- What the name of a tag line can be. -/
def IsTagName (w : Text) : Prop :=
  ' ' ∉ w ∧ '\n' ∉ w ∧ w.head?.any Text.isBlank = false

instance : DecidablePred IsTagName := fun _ => inferInstanceAs (Decidable (_ ∧ _ ∧ _))

theorem isTagName_tagName {line : Text} (h : '\n' ∉ line) : IsTagName (tagName line) := by
  refine ⟨fun hx => ?_, fun hx => ?_, ?_⟩
  · simpa using List.mem_takeWhile_imp hx
  · have hstatement := (List.takeWhile_subset _) hx
    exact h ((List.dropWhile_suffix _).subset (Text.mem_of_mem_trim hstatement))
  · cases hname : tagName line with
    | nil => rfl
    | cons x u =>
      obtain ⟨rest, hrest⟩ := List.takeWhile_prefix (l := tagStatement line) (· != ' ')
      rw [show (tagStatement line).takeWhile (· != ' ') = x :: u from hname] at hrest
      exact Text.isBlank_of_trim hrest.symm

namespace Tags

/-- Tags that no template tells apart: they refuse the same names and, where markup is written,
close the others alike. -/
structure Indistinct (markup : Bool) (tags tags' : Tags) : Prop where
  isClosing : ∀ w, IsTagName w → tags'.isClosing w = tags.isClosing w
  closing? : markup = true → ∀ w, IsTagName w → tags.isClosing w = false →
    tags'.closing? w = tags.closing? w

def mentioned (tags : Tags) : List Text :=
  tags.closings.flatMap fun e => e.2.asText :: match e.1 with
    | .text name => [name]
    | _ => []

variable {tags : Tags} {w : Text}

theorem isClosing_of_not_mentioned (h : w ∉ tags.mentioned) : tags.isClosing w = false := by
  rw [isClosing, List.any_eq_false]
  rintro ⟨key, value⟩ he htext
  refine h (List.mem_flatMap.mpr ⟨_, he, ?_⟩)
  cases value with
  | text t => simp [OptionValue.asText, (beq_iff_eq.mp htext : t = w)]
  | _ => cases htext

theorem closing?_of_not_mentioned (h : w ∉ tags.mentioned) : tags.closing? w = none := by
  have hfind : tags.closings.find? (·.1 == .text w) = none := by
    rw [List.find?_eq_none]
    rintro ⟨key, value⟩ he hkey
    obtain rfl : key = .text w := beq_iff_eq.mp hkey
    exact h (List.mem_flatMap.mpr ⟨_, he, by simp⟩)
  simp [closing?, Dictionary.get?, hfind]

/-- Only the names that one of the tables mentions have to be compared. -/
theorem indistinct_iff {markup : Bool} {tags tags' : Tags} :
    Indistinct markup tags tags' ↔
      ∀ w ∈ tags.mentioned ++ tags'.mentioned, IsTagName w →
        tags'.isClosing w = tags.isClosing w ∧
        (markup = true → tags.isClosing w = false → tags'.closing? w = tags.closing? w) := by
  refine ⟨fun h w _ hw => ⟨h.isClosing w hw, fun hm => h.closing? hm w hw⟩, fun h => ?_⟩
  -- A name that no table mentions is neither refused nor closed.
  have houtside : ∀ w, w ∉ tags.mentioned ++ tags'.mentioned →
      w ∉ tags.mentioned ∧ w ∉ tags'.mentioned := by simp
  refine ⟨fun w hw => ?_, fun hm w hw hclosing => ?_⟩
  · by_cases hmem : w ∈ tags.mentioned ++ tags'.mentioned
    · exact (h w hmem hw).1
    · obtain ⟨h₁, h₂⟩ := houtside w hmem
      rw [isClosing_of_not_mentioned h₁, isClosing_of_not_mentioned h₂]
  · by_cases hmem : w ∈ tags.mentioned ++ tags'.mentioned
    · exact (h w hmem hw).2 hm hclosing
    · obtain ⟨h₁, h₂⟩ := houtside w hmem
      rw [closing?_of_not_mentioned h₁, closing?_of_not_mentioned h₂]

instance (markup : Bool) (tags tags' : Tags) : Decidable (Indistinct markup tags tags') :=
  decidable_of_iff' _ indistinct_iff

end Tags

/-! ### Tables that are not told apart -/

section Indistinct

variable {p : Profile} {tags tags' : Tags}

theorem Node.sameLines_of_indistinct {markup : Bool} (h : p.tags.Indistinct markup tags') :
    Node.SameLines p { p with tags := tags' } where
  settings := rfl
  ofLine l hl := by
    have hname : IsTagName (tagName (Text.trimRight l)) :=
      isTagName_tagName fun hx => hl ((Text.trimRight_initial l).subset hx)
    simp only [Node.ofLine, h.isClosing _ hname]

theorem Node.Read.faces_eq (h : p.tags.Indistinct true tags') {n : Node} (hn : Node.Read p n)
    (hasChildren : Bool) :
    n.faces { p with tags := tags' } hasChildren = n.faces p hasChildren := by
  obtain ⟨indent, content, newlines⟩ := n
  cases content with
  | tag line =>
    obtain ⟨hl, hclosing⟩ := hn.content.tag_opens
    simp only [Node.faces, Content.faces, h.closing? rfl _ (isTagName_tagName hl) hclosing]
  | _ => rfl

theorem Forest.write_eq_of_indistinct (h : p.tags.Indistinct true tags') (f : Forest Node)
    (hf : ∀ n ∈ f.toList, Node.Read p n) : f.write { p with tags := tags' } = f.write p := by
  induction f with
  | nil => rfl
  | cons n below others ihBelow ihOthers =>
    simp only [toList, List.mem_cons, List.mem_append] at hf
    simp only [write, (hf n (.inl rfl)).faces_eq h, ihBelow fun m hm => hf m (.inr (.inl hm)),
      ihOthers fun m hm => hf m (.inr (.inr hm))]

/-- Where a node goes depends on the inner tags only. -/
theorem Forest.ofNodes_eq_of_inner (h : tags'.inner = tags.inner) (nodes : List Node) :
    ofNodes tags' nodes = ofNodes tags nodes := by
  have hadd (n : Node) (f : Forest Node) : f.add tags' n = f.add tags n := by
    have hbelow (a : Node) : tags'.goesBelow a n = tags.goesBelow a n := by
      simp only [Tags.goesBelow, Tags.takes, Tags.belongsIn, h]
    fun_induction add tags n f with
    | case1 => rfl
    | case2 a below ha ih => rw [add, hbelow, if_pos ha, ih]
    | case3 a below ha => rw [add, hbelow, if_neg ha]
    | case4 a below others hne ih => rw [add.eq_3 _ _ _ _ _ hne, ih]
  simp only [ofNodes, hadd]

theorem finish_eq_of_indistinct (hinner : tags'.inner = p.tags.inner)
    (h : p.tags.Indistinct (!p.settings.outline) tags') {nodes : List Node}
    (hread : ∀ n ∈ nodes, Node.Read p n) :
    finish { p with tags := tags' } (Forest.ofNodes tags' nodes) =
      finish p (Forest.ofNodes p.tags nodes) := by
  rw [Forest.ofNodes_eq_of_inner hinner]
  cases ho : p.settings.outline with
  | true => simp only [finish, ho, if_true]
  | false =>
    rw [ho] at h
    have hwrite := (Forest.ofNodes p.tags nodes).write_eq_of_indistinct h
      (by rwa [Forest.toList_ofNodes])
    simp only [finish, Forest.render, Forest.written, hwrite]

theorem compile_eq_of_indistinct (hinner : tags'.inner = p.tags.inner)
    (h : p.tags.Indistinct (!p.settings.outline) tags') (t : Text) :
    compile { p with tags := tags' } t = compile p t :=
  (compileAt_alike (Node.sameLines_of_indistinct h)
    (fun _ hread => finish_eq_of_indistinct hinner h hread) (t.length + 1) (t.length + 1) t
    (by omega) (by omega)).1

end Indistinct

/-! ### A name on a line of its own -/

/-- A tag line with a given name. Something stands after the name, so that blanks at its end belong
to it. -/
def tagLine (w : Text) : Text := if w.isEmpty then ['-'] else '-' :: ' ' :: w ++ [' ', '.']

section TagLine

variable {p : Profile} {tags' : Tags} {w : Text}

theorem exists_tagLine (w : Text) : ∃ t, tagLine w = '-' :: t := by
  cases w <;> exact ⟨_, rfl⟩

theorem not_mem_tagLine (hw : IsTagName w) : '\n' ∉ tagLine w := by
  unfold tagLine
  split
  · decide
  · simpa using hw.2.1

theorem trimRight_tagLine (w : Text) : Text.trimRight (tagLine w) = tagLine w := by
  unfold tagLine
  split
  · rfl
  · simpa using Text.trimRight_concat (u := '-' :: ' ' :: w ++ [' ']) (y := '.') (by decide)

theorem tagName_tagLine (hw : IsTagName w) : tagName (tagLine w) = w := by
  cases w with
  | nil => rfl
  | cons x w =>
    obtain ⟨hspace, _, hblank⟩ := hw
    have hx : Text.isBlank x = false := hblank
    have hstatement : tagStatement (tagLine (x :: w)) = x :: w ++ [' ', '.'] := by
      have hright := Text.trimRight_concat (u := x :: w ++ [' ']) (y := '.') (by decide)
      have hleft : Text.trimLeft (' ' :: x :: w ++ [' ', '.']) = x :: w ++ [' ', '.'] :=
        Text.trimLeft_cons hx _
      show Text.trim (' ' :: x :: w ++ [' ', '.']) = _
      rw [Text.trim, hleft]
      simpa using hright
    have hword : ∀ y ∈ x :: w, (y != ' ') = true := fun y hy => by
      simpa using fun h : y = ' ' => hspace (h ▸ hy)
    rw [tagName, hstatement, List.takeWhile_append_of_pos hword]
    simp

theorem ofLine_tagLine (p : Profile) (hw : IsTagName w) :
    Node.ofLine p (tagLine w) =
      if p.tags.isClosing w then .error (.rejected (.closingTag w) none)
      else .ok (.tag (tagLine w)) := by
  have hline : Node.ofLine p (tagLine w) =
      if p.tags.isClosing (tagName (Text.trimRight (tagLine w))) then
        .error (.rejected (.closingTag (tagName (Text.trimRight (tagLine w)))) none)
      else .ok (.tag (Text.trimRight (tagLine w))) := by
    cases w <;> rfl
  rw [hline, trimRight_tagLine, tagName_tagLine hw]

theorem Reader.line_ofText {l : Text} (hne : l ≠ []) (hl : '\n' ∉ l) :
    Reader.line (Cursor.ofText l) = .ok l { passed := l.reverse, rest := [] } := by
  obtain ⟨x, t, rfl⟩ := List.exists_cons_of_ne_nil hne
  have hkept : ∀ y ∈ x :: t, (y != '\n') = true := fun y hy => by
    simpa using fun h : y = '\n' => hl (h ▸ hy)
  have htake : Reader.takeWhile (· != '\n') (Cursor.ofText (x :: t)) =
      .ok (x :: t) { passed := (x :: t).reverse, rest := [] } := by
    simp [Reader.takeWhile, Cursor.ofText, Cursor.ahead, Cursor.span, Cursor.past,
      List.takeWhile_eq_self_iff.mpr hkept, List.dropWhile_eq_nil_iff.mpr hkept]
  simp only [Reader.line, bind, EStateM.bind, htake]
  rfl

theorem node_tagLine (p : Profile) (block : Text → Except Failure Text) (hw : IsTagName w) :
    Node.node p block [] (Cursor.ofText (tagLine w)) =
      match Node.ofLine p (tagLine w) with
      | .ok content => .ok { indent := [], content := content }
          { passed := (tagLine w).reverse, rest := [] }
      | .error e => .error e { passed := (tagLine w).reverse, rest := [] } := by
  obtain ⟨t, ht⟩ := exists_tagLine w
  have hline := Reader.line_ofText (List.cons_ne_nil _ _) (ht ▸ not_mem_tagLine hw)
  have hpeek : Reader.peek (Cursor.ofText ('-' :: t)) = .ok '-' (Cursor.ofText ('-' :: t)) := rfl
  have hget : (get : Reader Cursor) (Cursor.ofText ('-' :: t)) =
      .ok (Cursor.ofText ('-' :: t)) (Cursor.ofText ('-' :: t)) := rfl
  have hstart : Node.startsElement (Cursor.ofText ('-' :: t)) = false := rfl
  rw [ht]
  simp only [Node.node, bind, EStateM.bind, hpeek, hget, hstart, hline, Char.reduceEq, reduceIte,
    Bool.false_eq_true]
  cases Node.ofLine p ('-' :: t) <;> rfl

/-- A template that is one tag line has one node. -/
theorem readNodes_tagLine (p : Profile) (block : Text → Except Failure Text) (hw : IsTagName w) :
    readNodes p block (tagLine w) =
      (Node.ofLine p (tagLine w)).map fun content => [{ indent := [], content := content }] := by
  have hnode := node_tagLine p block hw
  obtain ⟨t, ht⟩ := exists_tagLine w
  rw [ht] at hnode ⊢
  have hnext : Node.next p block (Cursor.ofText ('-' :: t)) =
      (do return (0, some (← Node.node p block []))) (Cursor.ofText ('-' :: t)) := rfl
  simp only [readNodes, Node.all, bind, EStateM.bind, hnext, hnode]
  cases Node.ofLine p ('-' :: t) <;> rfl

theorem compile_tagLine (p : Profile) (hw : IsTagName w) :
    compile p (tagLine w) =
      if p.tags.isClosing w then .error (.rejected (.closingTag w) none)
      else finish p (.cons { indent := [], content := .tag (tagLine w) } .nil .nil) := by
  simp only [compile, compileAt, readNodes_tagLine p _ hw, ofLine_tagLine p hw]
  split <;> rfl

theorem faces_tagLine (p : Profile) (hw : IsTagName w) :
    Node.faces p { indent := [], content := .tag (tagLine w) } false =
      .ok (match p.tags.closing? w with
        | some closing =>
          { before := some (Content.tagText (tagStatement (tagLine w)) ++ ['\n'])
            after := some (Content.tagText closing ++ ['\n']) }
        | none =>
          { before := some (Content.tagText (tagStatement (tagLine w)))
            after := some ['\n'] }) := by
  simp only [Node.faces, Content.faces, tagName_tagLine hw]
  rfl

/-- The markup of one tag line: the tag and what closes it. -/
theorem finish_tagLine (p : Profile) (hw : IsTagName w)
    (ho : p.settings.outline = false) :
    finish p (.cons { indent := [], content := .tag (tagLine w) } .nil .nil) =
      .ok (Content.tagText (tagStatement (tagLine w)) ++ ['\n'] ++
        (p.tags.closing? w).elim [] fun closing => Content.tagText closing ++ ['\n']) := by
  have hwrite : Forest.write p (.cons { indent := [], content := .tag (tagLine w) } .nil .nil) =
      (do
        let f ← Node.faces p { indent := [], content := .tag (tagLine w) } false
        return .cons ⟨_, f.before.getD [], f.after.getD []⟩ .nil .nil) := rfl
  have hhtml (n : Node) (before after : Text) (hn : n.content = .tag (tagLine w)) :
      (Forest.trim false false (.cons ⟨n, before, after⟩ .nil .nil)).html = before ++ after := by
    simp [Forest.trim, Forest.trims, Trims.apply, trimEnds, Forest.html, Forest.texts, hn,
      Content.trimsOuter, Content.trimsInner, Content.trimsChildren, Forest.firstTrims,
      Forest.lastTrims, Forest.first?, Forest.last?]
  rw [finish, ho, Forest.render, Forest.written, hwrite, faces_tagLine p hw]
  cases p.tags.closing? w with
  | none => exact congrArg Except.ok ((hhtml _ _ _ rfl).trans (by simp))
  | some closing => exact congrArg Except.ok (hhtml _ _ _ rfl)

theorem exists_finish_tagLine (p : Profile) (hw : IsTagName w) :
    ∃ html,
      finish p (.cons { indent := [], content := .tag (tagLine w) } .nil .nil) = .ok html := by
  cases ho : p.settings.outline with
  | true => exact ⟨_, by rw [finish, ho]; rfl⟩
  | false => exact ⟨_, finish_tagLine p hw ho⟩

theorem Content.tagText_injective : Function.Injective Content.tagText := fun t u h => by
  simpa only [tagText, List.append_cancel_right_eq, List.append_cancel_left_eq] using h

/-- A tag line with a name shows whether a table refuses the name. -/
theorem isClosing_eq_of_compile_eq (hw : IsTagName w)
    (h : compile { p with tags := tags' } (tagLine w) = compile p (tagLine w)) :
    tags'.isClosing w = p.tags.isClosing w := by
  obtain ⟨html, hok⟩ := exists_finish_tagLine p hw
  obtain ⟨html', hok'⟩ := exists_finish_tagLine { p with tags := tags' } hw
  rw [compile_tagLine _ hw, compile_tagLine _ hw, hok, hok'] at h
  cases hc : p.tags.isClosing w <;> cases hc' : tags'.isClosing w <;> simp_all

/-- A tag line with a name that is not refused shows how a table closes the name. -/
theorem closing?_eq_of_compile_eq (hw : IsTagName w) (ho : p.settings.outline = false)
    (hc : p.tags.isClosing w = false)
    (h : compile { p with tags := tags' } (tagLine w) = compile p (tagLine w)) :
    tags'.closing? w = p.tags.closing? w := by
  have hc' : tags'.isClosing w = false := (isClosing_eq_of_compile_eq hw h).trans hc
  rw [compile_tagLine _ hw, compile_tagLine _ hw, hc, hc', finish_tagLine p hw ho,
    finish_tagLine { p with tags := tags' } hw ho] at h
  have hends := List.append_cancel_left (Except.ok.inj h)
  cases hn : p.tags.closing? w with
  | none =>
    cases hn' : tags'.closing? w with
    | none => rfl
    | some _ => simp [hn, hn'] at hends
  | some closing =>
    cases hn' : tags'.closing? w with
    | none => simp [hn, hn'] at hends
    | some closing' =>
      simp only [hn, hn', Option.elim_some, List.append_cancel_right_eq] at hends
      rw [Content.tagText_injective hends]

end TagLine

/-- Two tables give the same result for every template if and only if no name tells them apart. -/
theorem compile_eq_iff_indistinct (p : Profile) (tags' : Tags)
    (hinner : tags'.inner = p.tags.inner) :
    (∀ t, compile { p with tags := tags' } t = compile p t) ↔
      p.tags.Indistinct (!p.settings.outline) tags' := by
  refine ⟨fun h => ⟨fun w hw => isClosing_eq_of_compile_eq hw (h _), fun hm w hw hc => ?_⟩,
    compile_eq_of_indistinct hinner⟩
  exact closing?_eq_of_compile_eq hw (by simpa using hm) hc (h _)

end Haml
