import Haml.Element.Reader
import Haml.Proofs.Outcome
import Haml.Proofs.Reading.Attributes
import Mathlib.Data.Bool.AllAny

/-!
The reader of elements. An element leaves less to be read, and its texts are made of what it can be
written with: its tag and its shortcuts are words, and all else in its id and its classes comes from
its dictionaries.
-/
namespace Haml.Element

open Reader
open Attribute (isDash)

variable {c c₁ : Cursor} {E : Failure → Prop} {s : Settings}
  {block block' : Text → Except Failure Text}

def Nameable (x : Char) : Prop := (Text.isWord x || isDash x) = true ∨ x = ':'

instance : DecidablePred Nameable := fun _ => inferInstanceAs (Decidable (_ ∨ _))

structure Shortcut (r : Option Text × List Scalar) : Prop where
  id : ∀ w, r.1 = some w → ∀ x ∈ w, Nameable x
  classes : ∀ v ∈ r.2, ∃ w, v = .text w ∧ ∀ x ∈ w, Nameable x

/-- What every element is made of. -/
structure Formed (e : Element) : Prop where
  tag_ne_nil : e.tag ≠ []
  tag : ∀ x ∈ e.tag, Nameable x
  id : ∀ i, e.id = some i → ∀ x ∈ i,
    Nameable x ∨ ∃ w, .text w ∈ dictionaryIds e.attributes ∧ x ∈ w
  classes : ∀ v ∈ e.classes,
    v ∈ dictionaryClasses e.attributes ∨ ∃ w, v = .text w ∧ ∀ x ∈ w, Nameable x

theorem nameable_of_wordRead {w : Text} {c₂ : Cursor} (h : WordRead isDash c₁ w c₂) :
    ∀ x ∈ w, Nameable x :=
  fun x hx => Or.inl (h.inWord x hx)

theorem tagName_alike (hE : ∀ e, e ≠ .stalled → E e) (h₁ : c.Moves c₁) :
    Alike c E (fun w c₂ => c₂.rest.length < c₁.rest.length ∧ ∀ x ∈ w, Nameable x)
      (tagName c₁) (tagName c₁) := by
  refine (word_alike hE _ h₁).bind fun w c₂ h₂ hw => ?_
  have hlt := hw.length_lt
  have hname := nameable_of_wordRead hw
  refine (accept_alike ':' h₂).bind fun b c₃ h₃ hb => ?_
  have hle : c₃.rest.length ≤ c₂.rest.length := by
    rcases hb with ⟨_, hr⟩ | ⟨_, rfl, _⟩
    · simp [hr]
    · omega
  refine .ite (fun _ => ?_) (fun _ => alike_pure h₃ ⟨by omega, hname⟩)
  refine (word_alike hE _ h₃).bind fun w' c₄ h₄ hw' => alike_pure h₄ ⟨?_, fun x hx => ?_⟩
  · have := hw'.length_lt
    omega
  · rcases List.mem_append.mp hx with hx | hx
    · exact hname x hx
    · rcases List.mem_cons.mp hx with rfl | hx
      · exact Or.inr rfl
      · exact nameable_of_wordRead hw' x hx

def AtShortcut (c : Cursor) : Prop := c.rest.head? = some '#' ∨ c.rest.head? = some '.'

theorem shortcutTurn_alike (hE : ∀ e, e ≠ .stalled → E e) (r : Option Text × List Scalar)
    (h₁ : c.Moves c₁) :
    Alike c E (Turned (fun r' _ => Shortcut r → Shortcut r')
        (fun r' c₂ => r' = r ∧ c₂ = c₁ ∧ ¬ AtShortcut c₁) c₁)
      (shortcutTurn r c₁) (shortcutTurn r c₁) := by
  refine (accept_alike '#' h₁).bind fun b c₂ h₂ hb => ?_
  rcases hb with ⟨rfl, hr⟩ | ⟨rfl, rfl, hid⟩
  · refine (word_alike hE _ h₂).bind fun w c₃ h₃ hw => alike_pure h₃ ⟨?_, fun hs => ?_⟩
    · have := hw.length_lt
      simp only [hr, List.length_cons]
      omega
    · refine ⟨?_, hs.classes⟩
      rintro _ ⟨⟩
      exact nameable_of_wordRead hw
  · refine (accept_alike '.' h₂).bind fun b c₃ h₃ hb => ?_
    rcases hb with ⟨rfl, hr⟩ | ⟨rfl, rfl, hclass⟩
    · refine (word_alike hE _ h₃).bind fun w c₄ h₄ hw => alike_pure h₄ ⟨?_, fun hs => ?_⟩
      · have := hw.length_lt
        simp only [hr, List.length_cons]
        omega
      · refine ⟨hs.id, fun v hv => ?_⟩
        rcases List.mem_append.mp hv with hv | hv
        · exact hs.classes v hv
        · exact ⟨w, List.mem_singleton.mp hv, nameable_of_wordRead hw⟩
    · refine alike_pure h₃ ⟨rfl, rfl, ?_⟩
      rintro (h | h)
      · exact hid h
      · exact hclass h

/-- The shortcuts ahead are read; if there is one, less is left to be read. -/
theorem shortcuts_alike (hE : ∀ e, e ≠ .stalled → E e) (hc : c.Within) (steps : Text)
    (hsteps : c.rest.length < steps.length) :
    Alike c E (fun r c₁ => Shortcut r ∧ (AtShortcut c → c₁.rest.length < c.rest.length))
      (shortcuts steps none [] c) (shortcuts steps none [] c) := by
  rw [shortcuts_eq]
  refine iterate_alike
    (I := fun r c₁ => Shortcut r ∧ (c₁ = c ∨ c₁.rest.length < c.rest.length))
    (fun r c₁ h₁ hI => ?_) steps steps _ (.refl hc) ⟨⟨nofun, nofun⟩, Or.inl rfl⟩ hsteps hsteps
  refine (shortcutTurn_alike hE r h₁).mono fun o c₂ h₂ ho => ?_
  cases o with
  | inl r' =>
    refine ⟨ho.1, ho.2 hI.1, Or.inr ?_⟩
    have := h₁.length_le
    have := ho.1
    omega
  | inr r' =>
    obtain ⟨rfl, rfl, hend⟩ := ho
    refine ⟨hI.1, fun hat => ?_⟩
    rcases hI.2 with rfl | hlt
    · exact absurd hat hend
    · exact hlt

theorem dictionaryTurn_alike (d : Attributes) (hc : c.Within)
    (B : Blocks c.text.length E block block') :
    Alike c E (Turned (fun _ _ => True) (fun _ _ => True) c)
      (dictionaryTurn s block d c) (dictionaryTurn s block' d c) := by
  have hread : ∀ c₁ : Cursor, c₁ = c → Alike c E (Turned (fun _ _ => True) (fun _ _ => True) c)
      ((do return .inl (d.update (← Attribute.dictionary s block)) :
        Reader (Attributes ⊕ Attributes)) c₁)
      ((do return .inl (d.update (← Attribute.dictionary s block')) :
        Reader (Attributes ⊕ Attributes)) c₁) := by
    rintro c₁ rfl
    exact (Attribute.dictionary_alike hc B).bind fun _ c₂ h₂ hlt => alike_pure h₂ ⟨hlt, trivial⟩
  refine (peek?_alike (.refl hc)).bind fun o c₁ h₁ ho => ?_
  split
  · exact hread c₁ ho.1
  · exact hread c₁ ho.1
  · exact alike_pure h₁ trivial

theorem dictionaries_alike (hc : c.Within) (B : Blocks c.text.length E block block') (steps : Text)
    (hsteps : c.rest.length < steps.length) :
    Alike c E (fun _ _ => True) (dictionaries s block steps [] c)
      (dictionaries s block' steps [] c) := by
  rw [dictionaries_eq, dictionaries_eq]
  refine iterate_alike (I := fun _ _ => True) (fun d c₁ h₁ _ => ?_) steps steps [] (.refl hc)
    trivial hsteps hsteps
  exact ((dictionaryTurn_alike d h₁.1 (B.since h₁)).since h₁).mono fun r c₂ _ hr => hr.2

theorem isBarePoint_alike (hE : ∀ e, e ≠ .stalled → E e) (h₁ : c.Moves c₁) :
    Alike c E (fun _ c₂ => c₂ = c₁) (isBarePoint c₁) (isBarePoint c₁) := by
  unfold isBarePoint
  split
  · exact alike_error h₁ (hE _ (by simp))
  · exact alike_error h₁ (hE _ (by simp))
  · exact alike_ok h₁ rfl

/-- The start of an element is passed over, or it is a shortcut that is still to be read. -/
theorem opening_alike (hE : ∀ e, e ≠ .stalled → E e) (hc : c.Within) :
    Alike c E (fun r c₁ => (∀ w, r.1 = some w → ∀ x ∈ w, Nameable x) ∧
        (c₁.rest.length < c.rest.length ∨ (r.2 = true ∧ c₁ = c ∧ AtShortcut c)))
      (opening c) (opening c) := by
  refine (peek_alike hE (.refl hc)).bind fun x c₁ h₁ hx => ?_
  obtain ⟨rfl, t, ht⟩ := hx
  refine .ite (fun _ => ?_) (fun _ => .ite (fun hpoint => ?_) (fun _ => .ite (fun hid => ?_) ?_))
  · refine (skip_alike h₁ ht).bind fun _ c₂ h₂ hs => ?_
    refine (tagName_alike hE h₂).bind fun w c₃ h₃ hw => alike_pure h₃ ⟨?_, Or.inl ?_⟩
    · rintro _ ⟨⟩
      exact hw.2
    · have hlt := hw.1
      have hlen := congrArg List.length hs.1
      simp only [List.length_cons] at hlen
      omega
  · refine (isBarePoint_alike hE h₁).bind fun b c₂ h₂ he => ?_
    subst he
    refine .ite (fun _ => ?_) (fun _ => ?_)
    · refine (skip_alike h₂ ht).bind fun _ c₃ h₃ hs => alike_pure h₃ ⟨nofun, Or.inl ?_⟩
      simp [hs.1]
    · exact alike_pure h₂ ⟨nofun, Or.inr ⟨rfl, rfl, Or.inr (by simp [ht, hpoint])⟩⟩
  · exact alike_pure h₁ ⟨nofun, Or.inr ⟨rfl, rfl, Or.inl (by simp [ht, hid])⟩⟩
  · exact fun _ => alike_throw h₁ (hE _ (by simp))

/-- The shortcuts of an element, if it may have some, and what is read after them. -/
theorem shortcutsIf_alike {β : Type} {R : β → Cursor → Prop}
    {f f' : Option Text × List Scalar → Reader β} (hE : ∀ e, e ≠ .stalled → E e) (hs : Bool)
    (h₁ : c.Moves c₁) (hat : c₁.rest.length < c.rest.length ∨ (hs = true ∧ c₁ = c ∧ AtShortcut c))
    (hf : ∀ r c₂, c.Moves c₂ → c₂.rest.length < c.rest.length → Shortcut r →
      Alike c E R (f r c₂) (f' r c₂)) :
    Alike c E R
      ((if hs = true then do let t ← Reader.allowance; let r ← shortcuts t none []; f r
        else do let r ← pure (none, []); f r) c₁)
      ((if hs = true then do let t ← Reader.allowance; let r ← shortcuts t none []; f' r
        else do let r ← pure (none, []); f' r) c₁) := by
  refine .ite (fun _ => ?_) (fun hno => ?_)
  · refine (allowance_alike h₁).bind fun t c₂ h₂ ha => ?_
    obtain ⟨rfl, rfl⟩ := ha
    refine ((shortcuts_alike hE h₂.1 _ (by simp)).since h₂).bind fun r c₃ h₃ hr =>
      hf r c₃ h₃ ?_ hr.2.1
    have hle := hr.1.length_le
    rcases hat with hlt | ⟨_, rfl, hat⟩
    · omega
    · exact hr.2.2 hat
  · refine Alike.bind (Q := fun r c₂ => r = (none, []) ∧ c₂ = c₁) (alike_pure h₁ ⟨rfl, rfl⟩)
      fun r c₂ h₂ he => ?_
    obtain ⟨rfl, rfl⟩ := he
    rcases hat with hlt | ⟨htrue, _⟩
    · exact hf _ c₂ h₂ hlt ⟨nofun, nofun⟩
    · exact absurd htrue hno

theorem settled_texts (vs : List Scalar) : Settled (texts vs) := by
  refine settled_mapM (fun v => ?_) vs
  cases v.text? with
  | none => exact settled_error nofun
  | some t => exact settled_ok t

theorem settled_mergeIds (ids : List Scalar) : Settled (mergeIds ids) := by
  unfold mergeIds
  split
  · exact settled_ok none
  · exact (settled_texts ids).bind fun _ _ => settled_ok _

theorem settled_build (tag id : Option Text) (classes : List Scalar) (attributes : Attributes) :
    Settled (build tag id classes attributes) :=
  (settled_mergeIds _).bind fun _ _ => settled_ok _

theorem texts_ok {vs : List Scalar} {ts : List Text} (h : texts vs = .ok ts) :
    ∀ t ∈ ts, .text t ∈ vs := by
  intro t ht
  obtain ⟨v, hv, hvt⟩ := exists_of_mapM_eq_ok h t ht
  cases v with
  | text u =>
    obtain rfl : u = t := Except.ok.inj hvt
    exact hv
  | nothing => cases hvt
  | flag b => cases hvt

theorem mem_intercalate {x : Char} {sep : Text} {ts : List Text} (h : x ∈ sep.intercalate ts) :
    x ∈ sep ∨ ∃ t ∈ ts, x ∈ t := by
  induction ts with
  | nil => simp at h
  | cons t ts ih =>
    cases ts with
    | nil => exact Or.inr ⟨t, by simp, by simpa using h⟩
    | cons t' ts =>
      rw [List.intercalate_cons_cons, List.mem_append, List.mem_append] at h
      rcases h with (h | h) | h
      · exact Or.inr ⟨t, by simp, h⟩
      · exact Or.inl h
      · rcases ih h with h | ⟨u, hu, h⟩
        · exact Or.inl h
        · exact Or.inr ⟨u, List.mem_cons_of_mem t hu, h⟩

theorem mergeIds_ok {ids : List Scalar} {id : Option Text} (h : mergeIds ids = .ok id) :
    ∀ i, id = some i → ∀ x ∈ i, x = '_' ∨ ∃ w, .text w ∈ ids ∧ x ∈ w := by
  rintro i rfl x hx
  unfold mergeIds at h
  split at h
  · cases h
  · obtain ⟨ts, hts, h⟩ := bind_eq_ok h
    obtain rfl : ['_'].intercalate ts = i := Option.some.inj (Except.ok.inj h)
    rcases mem_intercalate hx with hx | ⟨t, ht, hx⟩
    · exact Or.inl (List.mem_singleton.mp hx)
    · exact Or.inr ⟨t, texts_ok hts t ht, hx⟩

theorem formed_build {tag id : Option Text} {classes : List Scalar} {attributes : Attributes}
    {e : Element} (htag : ∀ w, tag = some w → ∀ x ∈ w, Nameable x) (hs : Shortcut (id, classes))
    (h : build tag id classes attributes = .ok e) : Formed e := by
  obtain ⟨merged, hm, h⟩ := bind_eq_ok h
  have hdiv : ∀ x ∈ "div".toList, Nameable x := List.all_iff_forall_prop.mp (by decide)
  obtain rfl := Except.ok.inj h
  have hmerged := mergeIds_ok hm
  refine ⟨?_, ?_, ?_, ?_⟩
  · cases tag with
    | none => exact List.cons_ne_nil _ _
    | some w => cases w <;> exact List.cons_ne_nil _ _
  · cases tag with
    | none => exact hdiv
    | some w =>
      cases w with
      | nil => exact hdiv
      | cons y w => exact htag (y :: w) rfl
  · intro i hi x hx
    rcases hmerged i hi x hx with rfl | ⟨w, hw, hxw⟩
    · exact Or.inl (Or.inl (by decide))
    · rcases List.mem_append.mp hw with hw | hw
      · refine Or.inl (hs.id w ?_ x hxw)
        cases id with
        | none => cases hw
        | some i =>
          simp only at hw
          split at hw
          · cases hw
          · obtain rfl : w = i := by simpa using hw
            rfl
      · exact Or.inr ⟨w, hw, hxw⟩
  · intro v hv
    rcases List.mem_append.mp hv with hv | hv
    · exact Or.inl hv
    · exact Or.inr (hs.classes v hv)

/-- An element leaves less to be read, and it ends with its line. -/
theorem element_alike (hc : c.Within) (B : Blocks c.text.length E block block') :
    Alike c E (fun e c₁ => c₁.rest.length < c.rest.length ∧ Formed e ∧ c₁.LineEnd)
      (element s block c) (element s block' c) := by
  have hE := B.failures
  have haccept : ∀ {c₁ c₂ : Cursor} {b : Bool} {x : Char}, (b = true ∧ c₁.rest = x :: c₂.rest) ∨
      (b = false ∧ c₂ = c₁ ∧ c₁.rest.head? ≠ some x) → c₂.rest.length ≤ c₁.rest.length := by
    rintro c₁ c₂ b x (⟨_, hr⟩ | ⟨_, rfl, _⟩)
    · simp [hr]
    · omega
  refine (opening_alike hE hc).bind fun r c₁ h₁ hr => ?_
  obtain ⟨tag, hs⟩ := r
  refine shortcutsIf_alike hE hs h₁ hr.2 fun r c₂ h₂ hlt hshort => ?_
  obtain ⟨id, classes⟩ := r
  refine (allowance_alike h₂).bind fun t c₃ h₃ ha => ?_
  obtain ⟨rfl, rfl⟩ := ha
  refine ((dictionaries_alike h₃.1 (B.since h₃) _ (by simp)).since h₃).bind
    fun attributes c₄ h₄ hm => ?_
  refine (accept_alike '>' h₄).bind fun outer c₅ h₅ houter => ?_
  refine (accept_alike '<' h₅).bind fun inner c₆ h₆ hinner => ?_
  refine (accept_alike '/' h₆).bind fun slash c₇ h₇ hslash => ?_
  refine (accept_alike '=' h₇).bind fun equals c₈ h₈ hequals => ?_
  refine (line?_alike h₈).bind fun inline c₉ h₉ hl => ?_
  have hline : c₉.rest.length ≤ c₈.rest.length ∧ c₉.LineEnd := by
    rcases hl with ⟨_, rfl, hnil⟩ | ⟨l, _, hne, hl⟩
    · exact ⟨by omega, Or.inl hnil⟩
    · exact ⟨Nat.le_of_lt (hl.length_lt hne), hl.lineEnd h₈ h₉⟩
  have h1 := hm.1.length_le
  have h2 := haccept houter
  have h3 := haccept hinner
  have h4 := haccept hslash
  have h5 := haccept hequals
  cases hbuild : build tag id classes attributes with
  | error e => exact alike_throw h₉ (hE e ((settled_build _ _ _ _).ne_stalled hbuild))
  | ok e =>
    have hformed := formed_build hr.1 hshort hbuild
    exact alike_pure h₉ ⟨by omega,
      ⟨hformed.tag_ne_nil, hformed.tag, hformed.id, hformed.classes⟩, hline.2⟩

end Haml.Element
