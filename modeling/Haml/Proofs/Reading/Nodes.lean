import Haml.Compile
import Haml.Proofs.Reading.Elements
import Haml.Proofs.Text.Trimming

/-!
The readers of nodes. Every node leaves less to be read, so the loop over the nodes of a template
ends. Two profiles may read a template side by side; they read the same nodes if they take every
line for the same content.
-/
namespace Haml

namespace Node

open Reader

variable {c c₁ : Cursor} {E : Failure → Prop} {p p' : Profile}
  {block block' : Text → Except Failure Text}

theorem settled_ofLine (p : Profile) (l : Text) : Settled (ofLine p l) := by
  unfold ofLine
  dsimp only
  split
  · exact settled_ok _
  · split
    any_goals exact settled_ok _
    split
    · exact settled_error nofun
    · exact settled_ok _

/-- What a single line can be taken for. -/
theorem ofLine_cases {p : Profile} {l : Text} {content : Content} (h : ofLine p l = .ok content) :
    content ∈ [Content.plain, .doctype, .comment, .silent, .expression].map (· (Text.trimRight l)) ∨
    (content = .conditional (Text.trimRight l) ∧ ∃ t, l = '/' :: '[' :: t) ∨
    (content = .tag (Text.trimRight l) ∧ (∃ t, l = '-' :: t) ∧
      p.tags.isClosing (tagName (Text.trimRight l)) = false) := by
  unfold ofLine at h
  dsimp only at h
  split at h
  · cases h
    simp
  · split at h
    all_goals try (cases h; simp)
    split at h
    · cases h
    · next hclosing =>
      cases h
      simp [hclosing]

/-- Two profiles with the same settings that take every line for the same content. -/
structure SameLines (p p' : Profile) : Prop where
  settings : p'.settings = p.settings
  ofLine : ∀ l, '\n' ∉ l → ofLine p' l = ofLine p l

theorem SameLines.refl (p : Profile) : SameLines p p := ⟨rfl, fun _ _ => rfl⟩

/-- How the content of a node comes about: it is an element or a filter, or it is what a single line
was taken for. -/
inductive Origin (p : Profile) : Content → Prop
  | element {e : Element} (h : e.Formed) : Origin p (.element e)
  | filter (name body : Text) : Origin p (.filter name body)
  | line {l : Text} {content : Content} (hl : '\n' ∉ l) (h : ofLine p l = .ok content) :
      Origin p content

theorem Origin.formed {e : Element} (h : Origin p (.element e)) : e.Formed := by
  cases h with
  | element h => exact h
  | line _ h =>
    rcases ofLine_cases h with h | ⟨h, _⟩ | ⟨h, _⟩
    · simp at h
    · cases h
    · cases h

/-- The line of a conditional comment starts with its marks. -/
theorem Origin.conditional_eq {line : Text} (h : Origin p (.conditional line)) :
    ∃ t, line = '/' :: '[' :: t := by
  cases h with
  | line _ h =>
    rcases ofLine_cases h with h | ⟨h, t, rfl⟩ | ⟨h, _⟩
    · simp at h
    · cases h
      exact ⟨_, Text.trimRight_append (u := ['/']) (y := '[') (by decide) t⟩
    · cases h

/-- The line of a tag is a single one, and it closes no block. -/
theorem Origin.tag_opens {line : Text} (h : Origin p (.tag line)) :
    '\n' ∉ line ∧ p.tags.isClosing (tagName line) = false := by
  cases h with
  | line hl h =>
    rcases ofLine_cases h with h | ⟨h, _⟩ | ⟨h, _, hclosing⟩
    · simp at h
    · cases h
    · cases h
      exact ⟨fun hx => hl ((Text.trimRight_initial _).subset hx), hclosing⟩

structure Read (p : Profile) (n : Node) : Prop where
  indent : ∀ x ∈ n.indent, Text.isIndent x = true
  content : Origin p n.content

theorem deeperTurn_alike (hE : ∀ e, e ≠ .stalled → E e) (depth : Nat) (h₁ : c.Moves c₁) :
    Alike c E (Attribute.LineTaken c₁ True) (deeperTurn depth c₁) (deeperTurn depth c₁) := by
  refine (atEnd_alike h₁).bind fun b c₂ h₂ hb => ?_
  obtain ⟨rfl, hb⟩ := hb
  refine .ite (fun _ => alike_pure h₂ ⟨rfl, trivial⟩) (fun hend => ?_)
  have hline := Attribute.lineTaken_alike (E := E) True h₂ fun he => hend (hb.mpr he)
  refine (peekMargin_alike hE h₂).bind fun m c₃ h₃ hm => ?_
  obtain ⟨rfl, _⟩ := hm
  cases m with
  | none => exact hline
  | some m => exact .ite (fun _ => alike_pure h₃ ⟨rfl, trivial⟩) (fun _ => hline)

theorem deeperLines_alike (hE : ∀ e, e ≠ .stalled → E e) (depth : Nat) (steps : Text)
    (h₁ : c.Moves c₁) (hend : c₁.LineEnd) (hsteps : c₁.rest.length < steps.length) :
    Alike c E (fun _ c₂ => c₂.LineEnd) (deeperLines depth steps c₁)
      (deeperLines depth steps c₁) := by
  rw [deeperLines_eq]
  refine iterate_alike (I := fun _ c₂ => c₂.LineEnd) (fun acc c' h' hend => ?_) steps steps [] h₁
    hend hsteps hsteps
  refine gather_alike ((deeperTurn_alike hE depth h').mono fun o c₂ h₂ ho => ?_)
  cases o with
  | none =>
    obtain ⟨rfl, _⟩ := ho
    exact hend
  | some l =>
    refine ⟨ho.length_lt, ?_⟩
    obtain ⟨_, l', hl, _⟩ := ho
    exact hl.lineEnd h' h₂

theorem filterNode_alike (hE : ∀ e, e ≠ .stalled → E e) (indent : Text) (hc : c.Within) :
    Alike c E (fun n c₁ => c₁.rest.length < c.rest.length ∧
        ((∀ x ∈ indent, Text.isIndent x = true) → Read p n) ∧ c₁.LineEnd)
      (filterNode indent c) (filterNode indent c) := by
  refine (peek_alike hE (.refl hc)).bind fun x c₁ h₁ hx => ?_
  obtain ⟨rfl, t, ht⟩ := hx
  refine .ite (fun _ => alike_throw h₁ (hE _ (by simp))) (fun _ => ?_)
  refine (skip_alike h₁ ht).bind fun _ c₂ h₂ hs => ?_
  refine ((line?_alike (.refl h₂.1)).since h₂).bind fun name c₃ h₃ hn => ?_
  refine (allowance_alike h₃).bind fun steps c₄ h₄ ha => ?_
  obtain ⟨rfl, rfl⟩ := ha
  have hend : c₄.LineEnd := by
    rcases hn.2 with ⟨_, rfl, hnil⟩ | ⟨l, _, _, hl⟩
    · exact Or.inl hnil
    · exact hl.lineEnd h₂ h₄
  refine ((deeperLines_alike hE _ _ (.refl h₄.1) hend (by simp)).since h₄).bind
    fun body c₅ h₅ hb => ?_
  cases name with
  | none => exact alike_throw h₅ (hE _ (by simp))
  | some name =>
    refine alike_pure h₅ ⟨?_, fun hi => ⟨hi, .filter _ _⟩, hb.2⟩
    have h1 := hn.1.length_le
    have h2 := hb.1.length_le
    simp only [hs.1, List.length_cons]
    omega

/-- A node leaves less to be read and ends with a line. Profiles that take lines for the same
contents read the same node. -/
theorem node_alike (S : SameLines p p') {indent : Text}
    (hi : ∀ x ∈ indent, Text.isIndent x = true) (hc : c.Within)
    (B : Blocks c.text.length E block block') :
    Alike c E (fun n c₁ => c₁.rest.length < c.rest.length ∧ Read p n ∧ c₁.LineEnd)
      (node p block indent c) (node p' block' indent c) := by
  have hE := B.failures
  refine (peek_alike hE (.refl hc)).bind fun x c₁ h₁ hx => ?_
  obtain ⟨rfl, t, ht⟩ := hx
  refine .ite (fun _ => ?_) (fun _ => ?_)
  · exact (filterNode_alike hE indent hc).mono fun n c₂ _ hn => ⟨hn.1, hn.2.1 hi, hn.2.2⟩
  refine (get_alike h₁).bind fun a c₂ h₂ ha => ?_
  obtain ⟨rfl, rfl⟩ := ha
  refine .ite (fun _ => ?_) (fun _ => ?_)
  · rw [S.settings]
    exact (Element.element_alike hc B).bind fun e c₃ h₃ he =>
      alike_pure h₃ ⟨he.1, ⟨hi, .element he.2.1⟩, he.2.2⟩
  · refine (line_alike h₂).bind fun l c₃ h₃ hl => ?_
    have hlt := hl.length_lt (by simp [ht])
    rw [S.ofLine l hl.1]
    cases hline : ofLine p l with
    | ok content => exact alike_pure h₃ ⟨hlt, ⟨hi, .line hl.1 hline⟩, hl.lineEnd h₂ h₃⟩
    | error e => exact alike_throw h₃ (hE e ((settled_ofLine p l).ne_stalled hline))

theorem isIndent_uniform {indent : Text} (h : ∀ x ∈ indent, Text.isIndent x = true) :
    ∀ x ∈ uniform indent, Text.isIndent x = true := by
  cases indent with
  | nil => exact h
  | cons y indent =>
    intro x hx
    rw [List.eq_of_mem_replicate hx]
    exact h y (by simp)

theorem length_uniform (b : Text) : (uniform b).length = b.length := by
  cases b with
  | nil => rfl
  | cons x b => simp [uniform]

theorem blankTurn_alike (n : Nat) (h₁ : c.Moves c₁) :
    Alike c E (Turned (fun _ _ => True) (fun r _ => ∀ x ∈ r.2, Text.isIndent x = true) c₁)
      (blankTurn n c₁) (blankTurn n c₁) := by
  refine (indentation_alike h₁).bind fun t c₂ h₂ ht => ?_
  refine (accept_alike '\n' h₂).bind fun b c₃ h₃ hb => ?_
  rcases hb with ⟨rfl, hr⟩ | ⟨rfl, _, _⟩
  · refine alike_pure h₃ ⟨?_, trivial⟩
    have := length_le_of_append ht.2
    simp only [hr, List.length_cons] at this
    omega
  · refine alike_pure h₃ (isIndent_uniform fun x hx => ?_)
    rw [ht.1] at hx
    exact List.all_eq_true.mp List.all_takeWhile x hx

theorem blankLines_alike (steps : Text) (h₁ : c.Moves c₁) (hsteps : c₁.rest.length < steps.length) :
    Alike c E (fun r _ => ∀ x ∈ r.2, Text.isIndent x = true)
      (blankLines steps 0 c₁) (blankLines steps 0 c₁) := by
  rw [blankLines_eq]
  exact iterate_alike (fun n c' h' _ => blankTurn_alike n h') steps steps 0 h₁ trivial hsteps hsteps

theorem next_alike (S : SameLines p p') (hc : c.Within) (B : Blocks c.text.length E block block') :
    Alike c E (fun r c₁ =>
        (∀ n, r.2 = some n → c₁.rest.length < c.rest.length ∧ Read p n ∧ c₁.LineEnd) ∧
        (r.2 = none → c₁.rest = []))
      (next p block c) (next p' block' c) := by
  refine (allowance_alike (.refl hc)).bind fun steps c₁ h₁ ha => ?_
  obtain ⟨rfl, rfl⟩ := ha
  refine (blankLines_alike _ h₁ (by simp)).bind fun r c₂ h₂ hi => ?_
  obtain ⟨blanks, indent⟩ := r
  refine (atEnd_alike h₂).bind fun b c₃ h₃ hb => ?_
  obtain ⟨rfl, hb⟩ := hb
  refine .ite (fun hend => alike_pure h₃ ⟨nofun, fun _ => hb.mp hend⟩) (fun _ => ?_)
  refine ((node_alike S hi h₃.1 (B.since h₃)).since h₃).bind fun n c₄ h₄ hn =>
    alike_pure h₄ ⟨?_, nofun⟩
  rintro _ ⟨⟩
  have := h₃.length_le
  exact ⟨by have := hn.2.1; omega, hn.2.2⟩

theorem read_addNewlines {blanks : Nat} {read : List Node} (h : ∀ n ∈ read, Read p n) :
    ∀ n ∈ addNewlines blanks read, Read p n := by
  cases read with
  | nil => exact h
  | cons m ms =>
    intro n hn
    rcases List.mem_cons.mp hn with rfl | hn
    · obtain ⟨hi, hm⟩ := h m (by simp)
      exact ⟨hi, hm⟩
    · exact h n (by simp [hn])

theorem nodeTurn_alike (S : SameLines p p') (read : List Node) (hc : c.Within)
    (B : Blocks c.text.length E block block') :
    Alike c E (Turned
        (fun read' _ => (∀ n ∈ read, Read p n) → ∀ n ∈ read', Read p n)
        (fun read' _ => (∀ n ∈ read, Read p n) → ∀ n ∈ read', Read p n) c)
      (nodeTurn p block read c) (nodeTurn p' block' read c) := by
  refine (next_alike S hc B).bind fun r c₁ h₁ hr => ?_
  obtain ⟨blanks, found⟩ := r
  cases found with
  | none =>
    refine alike_pure h₁ fun hread n hn => ?_
    exact read_addNewlines hread n (List.mem_reverse.mp hn)
  | some m =>
    obtain ⟨hlt, hm, _⟩ := hr.1 m rfl
    refine alike_pure h₁ ⟨hlt, fun hread n hn => ?_⟩
    rcases List.mem_cons.mp hn with rfl | hn
    · exact hm
    · exact read_addNewlines hread n hn

theorem all_alike (S : SameLines p p') (hc : c.Within) (B : Blocks c.text.length E block block')
    (steps steps' : Text) (hsteps : c.rest.length < steps.length)
    (hsteps' : c.rest.length < steps'.length) :
    Alike c E (fun nodes _ => ∀ n ∈ nodes, Read p n)
      (all p block steps [] c) (all p' block' steps' [] c) := by
  rw [all_eq, all_eq]
  refine iterate_alike (I := fun read _ => ∀ n ∈ read, Read p n)
    (fun read c₁ h₁ hread => ?_) steps steps' [] (.refl hc) nofun hsteps hsteps'
  refine ((nodeTurn_alike S read h₁.1 (B.since h₁)).since h₁).mono fun r c₂ _ hr => ?_
  cases r with
  | inl read' => exact ⟨hr.2.1, hr.2.2 hread⟩
  | inr nodes => exact hr.2 hread

end Node

/-- Compilers of block values that agree on texts shorter than a template, with profiles that take
lines for the same contents, read the same nodes from it. -/
theorem readNodes_alike {p p' : Profile} {block block' : Text → Except Failure Text}
    {E : Failure → Prop} {t : Text} (S : Node.SameLines p p') (B : Blocks t.length E block block') :
    readNodes p' block' t = readNodes p block t ∧
      match readNodes p block t with
      | .ok nodes => ∀ n ∈ nodes, Node.Read p n
      | .error e => E e := by
  obtain ⟨heq, hout⟩ := Node.all_alike (c := Cursor.ofText t) S (Cursor.within_ofText t) B
    (' ' :: t) (' ' :: t) (by simp [Cursor.ofText]) (by simp [Cursor.ofText])
  unfold readNodes
  rw [heq]
  cases hr : Node.all p block (' ' :: t) [] (Cursor.ofText t) with
  | ok nodes c' =>
    rw [hr] at hout
    exact ⟨rfl, hout.2⟩
  | error e c' =>
    rw [hr] at hout
    exact ⟨rfl, hout.2⟩

end Haml
