import Haml.Proofs.Markup.Tokens
import Haml.Proofs.Reading.Nodes
import Haml.Proofs.Text.Variables

/-!
Texts without marks. The texts of an element are free of marks if its attributes and its inline
content are; so are the words it is named by, and what is written around them. In such texts there
is no inline variable to be replaced.
-/
namespace Haml

theorem Element.Nameable.not_mark {x : Char} (h : Nameable x) : x ∉ marks := by
  have hnone : ∀ x ∈ marks, ¬ Nameable x := List.all_iff_forall_prop.mp (by decide)
  exact fun hm => hnone x hm h

theorem free_of_isIndent {t : Text} (h : ∀ x ∈ t, Text.isIndent x = true) : Free t := by
  intro x hx hm
  have hnone : ∀ x ∈ marks, ¬ Text.isIndent x = true := List.all_iff_forall_prop.mp (by decide)
  exact hnone x hm (h x hx)

theorem free_breaks (n : Nat) : Free (List.replicate n '\n') := by
  intro x hx
  rw [List.eq_of_mem_replicate hx]
  decide

theorem Free.unmarked {b : Bool} {t : Text} (h : Free t) : InlineVariable.Unmarked b t :=
  InlineVariable.unmarked_of_not_mem (h.not_mem (by decide))

def Scalar.Clean : Scalar → Prop
  | text t => Free t
  | _ => True

instance : DecidablePred Scalar.Clean
  | .text t => inferInstanceAs (Decidable (Free t))
  | .nothing => isTrue trivial
  | .flag _ => isTrue trivial

def Value.Clean : Value → Prop
  | one v => v.Clean
  | many vs => ∀ v ∈ vs, v.Clean

instance : DecidablePred Value.Clean
  | .one v => inferInstanceAs (Decidable v.Clean)
  | .many vs => inferInstanceAs (Decidable (∀ v ∈ vs, v.Clean))

namespace Element

/-- The keys and values of the attributes and the inline content have no marks. -/
structure Clean (e : Element) : Prop where
  attributes : ∀ a ∈ e.attributes, Free a.1 ∧ a.2.Clean
  inline : Free (e.inline.getD [])

instance (e : Element) : Decidable e.Clean :=
  decidable_of_iff ((∀ a ∈ e.attributes, Free a.1 ∧ a.2.Clean) ∧ Free (e.inline.getD []))
    ⟨fun h => ⟨h.1, h.2⟩, fun h => ⟨h.attributes, h.inline⟩⟩

theorem free_texts {vs : List Scalar} {ts : List Text} (hv : ∀ v ∈ vs, v.Clean)
    (h : texts vs = .ok ts) : ∀ t ∈ ts, Free t :=
  fun t ht => hv (.text t) (texts_ok h t ht)

theorem free_intercalate {sep : Text} {ts : List Text} (hs : Free sep) (ht : ∀ t ∈ ts, Free t) :
    Free (sep.intercalate ts) := by
  intro x hx
  rcases mem_intercalate hx with hx | ⟨t, hm, hx⟩
  · exact hs x hx
  · exact ht t hm x hx

theorem free_quotesFrom {q : Char} {inside : Bool} {t : Text} (ht : Free t) :
    Free (Escape.quotesFrom q inside t) := by
  induction t generalizing inside with
  | nil => exact ht
  | cons x t ih =>
    have hx : x ∉ marks := ht x (by simp)
    refine Free.append ?_ (ih (ht.sub fun _ h => List.mem_cons_of_mem x h))
    split
    · exact .cons (by decide) (.cons hx (by simp [Free]))
    · exact .cons hx (by simp [Free])

theorem free_escapeText {s : Settings} {t : Text} (ht : Free t) : Free (escapeText s t) := by
  unfold escapeText Escape.quotes
  split
  · split
    · exact free_quotesFrom ht
    · exact ht
  · exact ht

theorem free_escapeItems {s : Settings} {vs : List Scalar} {t : Text} (hv : ∀ v ∈ vs, v.Clean)
    (h : escapeItems s vs = .ok t) : Free t := by
  obtain ⟨ts, hts, h⟩ := bind_eq_ok h
  have hfree := free_texts hv hts
  obtain rfl := Except.ok.inj h
  intro x hx
  obtain ⟨u, hu, hxu⟩ := List.mem_flatten.mp hx
  obtain ⟨w, hw, rfl⟩ := List.mem_map.mp hu
  split at hxu
  · exact Free.cons (by decide) (hfree w hw) x hxu
  · exact hfree w hw x hxu

theorem free_wrap {s : Settings} {t : Text} (hs : Free s.wrapper) (ht : Free t) :
    Free (wrap s t) :=
  (hs.append ht).append hs

theorem free_renderEntry {s : Settings} {name t : Text} {value : Value} (hs : Free s.wrapper)
    (hn : Free name) (hv : value.Clean) (h : renderEntry s name value = .ok (some t)) : Free t := by
  have hvalue : ∀ u, Free u → Free (name ++ '=' :: wrap s u) := fun u hu =>
    hn.append (.cons (by decide) (free_wrap hs hu))
  unfold renderEntry at h
  split at h
  · cases h
  · split at h
    · cases h
    · cases h
    · obtain rfl := Option.some.inj (Except.ok.inj h)
      split
      · exact hvalue name hn
      · exact hn
    · obtain rfl := Option.some.inj (Except.ok.inj h)
      exact hvalue _ (free_escapeText hv)
    · obtain ⟨u, hu, h⟩ := bind_eq_ok h
      obtain rfl := Option.some.inj (Except.ok.inj h)
      exact hvalue u (free_escapeItems hv hu)

theorem clean_of_get? {e : Element} (hc : e.Clean) {key : Text} {v : Value}
    (h : e.attributes.get? key = some v) : v.Clean := by
  obtain ⟨a, ha, rfl⟩ := Option.map_eq_some_iff.mp h
  exact (hc.attributes a (List.mem_of_find?_eq_some ha)).2

theorem clean_dictionaryIds {e : Element} (hc : e.Clean) :
    ∀ v ∈ dictionaryIds e.attributes, v.Clean := by
  intro v hv
  unfold dictionaryIds at hv
  split at hv
  · next h => exact clean_of_get? hc h v hv
  · next h =>
    rw [List.mem_singleton.mp hv]
    exact clean_of_get? hc h
  · cases hv

theorem clean_dictionaryClasses {e : Element} (hc : e.Clean) :
    ∀ v ∈ dictionaryClasses e.attributes, v.Clean := by
  intro v hv
  unfold dictionaryClasses at hv
  split at hv
  · next h => exact clean_of_get? hc h v hv
  · next h =>
    rw [List.mem_singleton.mp hv]
    exact clean_of_get? hc h
  · cases hv

theorem free_id {e : Element} (hf : e.Formed) (hc : e.Clean) {i : Text} (h : e.id = some i) :
    Free i := by
  intro x hx
  rcases hf.id i h x hx with hn | ⟨w, hw, hxw⟩
  · exact hn.not_mark
  · exact clean_dictionaryIds hc (.text w) hw x hxw

theorem clean_classes {e : Element} (hf : e.Formed) (hc : e.Clean) : ∀ v ∈ e.classes, v.Clean := by
  intro v hv
  rcases hf.classes v hv with hd | ⟨w, rfl, hw⟩
  · exact clean_dictionaryClasses hc v hd
  · exact fun x hx => (hw x hx).not_mark

theorem free_idEntry {e : Element} {s : Settings} (hs : Free s.wrapper) (hf : e.Formed)
    (hc : e.Clean) :
    ∀ u ∈ (match e.id with
      | some i => if i.isEmpty then [] else ["id=".toList ++ wrap s i]
      | none => []), Free u := by
  intro u hu
  split at hu
  · next i hi =>
    split at hu
    · cases hu
    · rw [List.mem_singleton.mp hu]
      exact Free.append (by decide) (free_wrap hs (free_id hf hc hi))
  · cases hu

theorem free_renderAttributes {e : Element} {s : Settings} {t : Text} (hs : Free s.wrapper)
    (hf : e.Formed) (hc : e.Clean) (h : e.renderAttributes s = .ok t) : Free t := by
  obtain ⟨entries, hentries, h⟩ := bind_eq_ok h
  have hentry : ∀ u, some u ∈ entries → Free u := by
    intro u hu
    obtain ⟨a, ha, hau⟩ := exists_of_mapM_eq_ok hentries (some u) hu
    exact free_renderEntry hs (hc.attributes a ha).1 (hc.attributes a ha).2 hau
  have hid := free_idEntry hs hf hc
  have hjoin : ∀ classes ids : List Text, (∀ u ∈ classes, Free u) → (∀ u ∈ ids, Free u) →
      Free ([' '].intercalate (entries.filterMap (fun entry => entry) ++ classes ++ ids)) := by
    intro classes ids hclasses hids
    refine free_intercalate (by decide) fun u hu => ?_
    rcases List.mem_append.mp hu with hu | hu
    · rcases List.mem_append.mp hu with hu | hu
      · obtain ⟨entry, hm, rfl⟩ := List.mem_filterMap.mp hu
        exact hentry u hm
      · exact hclasses u hu
    · exact hids u hu
  dsimp only at h
  split at h
  · obtain rfl := Except.ok.inj h
    exact hjoin [] _ (by simp) hid
  · obtain ⟨ts, hts, h⟩ := bind_eq_ok h
    obtain rfl := Except.ok.inj h
    refine hjoin _ _ (fun u hu => ?_) hid
    rw [List.mem_singleton.mp hu]
    refine Free.append (by decide) (free_wrap hs (free_intercalate (by decide) ?_))
    exact free_texts (clean_classes hf hc) hts

end Element

end Haml
