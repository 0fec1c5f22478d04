import Haml.Escape.Html
import Mathlib.Data.List.Infix
import Mathlib.Logic.Function.Basic

/-!
Escaping can be undone. `readFrom` pairs every character of a text with the region in which an
escaping run reads it. A run over an escaped text is in the region of a character as long as it
reads what was written for that character, so the entities in markup tell the characters that they
stand for.
-/
namespace Haml.Escape

/-! ## Reading by regions -/

/-- The region that two characters lead to, if they are an opener or the closer of the region they
stand in. -/
def turn? (r : Region) (c d : Char) : Option Region :=
  if c = '{' ∧ d = '%' then some .tag
  else if c = '{' ∧ d = '{' then some .expression
  else if r = .tag ∧ c = '%' ∧ d = '}' then some .markup
  else if r = .expression ∧ c = '}' ∧ d = '}' then some .markup
  else none

/-- The characters of a text, each with the region in which it is read. -/
def readFrom (r : Region) : Text → List (Region × Char)
  | [] => []
  | [c] => [(r, c)]
  | c :: d :: rest =>
    match turn? r c d with
    | some r' => (r, c) :: (r, d) :: readFrom r' rest
    | none => (r, c) :: readFrom r (d :: rest)

def write : Region × Char → Text
  | (.markup, c) => entity c
  | (_, c) => [c]

def specials : List Char := ['&', '<', '>', '"', '\'']

variable {r r' : Region} {c d : Char} {t : Text}

theorem entity_of_not_mem (h : c ∉ specials) : entity c = [c] := by
  simp only [specials, List.mem_cons, List.not_mem_nil, or_false, not_or] at h
  obtain ⟨h₁, h₂, h₃, h₄, h₅⟩ := h
  unfold entity
  split
  · exact absurd rfl h₁
  · exact absurd rfl h₂
  · exact absurd rfl h₃
  · exact absurd rfl h₄
  · exact absurd rfl h₅
  · rfl

/-- Openers and closers have no entities. -/
theorem turn?_plain (h : turn? r c d = some r') : c ∉ specials ∧ d ∉ specials := by
  unfold turn? at h
  split at h
  · next hcd => rw [hcd.1, hcd.2]; decide
  · split at h
    · next hcd => rw [hcd.1, hcd.2]; decide
    · split at h
      · next hcd => rw [hcd.2.1, hcd.2.2]; decide
      · split at h
        · next hcd => rw [hcd.2.1, hcd.2.2]; decide
        · cases h

theorem write_of_not_mem (h : c ∉ specials) : write (r, c) = [c] := by
  cases r with
  | markup => exact entity_of_not_mem h
  | tag => rfl
  | expression => rfl

theorem write_eq (r : Region) (c : Char) :
    write (r, c) = if r = .markup then entity c else [c] := by
  cases r <;> rfl

/-- Nothing but openers and closers changes the region. -/
theorem readFrom_cons (h : ∀ d, t.head? = some d → turn? r c d = none) :
    readFrom r (c :: t) = (r, c) :: readFrom r t := by
  cases t with
  | nil => rfl
  | cons d t => rw [readFrom, h d rfl]

theorem readFrom_turn (h : turn? r c d = some r') :
    readFrom r (c :: d :: t) = (r, c) :: (r, d) :: readFrom r' t := by
  rw [readFrom]
  simp only [h]

theorem map_readFrom (r : Region) (t : Text) : (readFrom r t).map Prod.snd = t := by
  fun_induction readFrom r t with
  | case1 => rfl
  | case2 => rfl
  | case3 r c d rest r' _ ih => rw [List.map_cons, List.map_cons, ih]
  | case4 r c d rest _ ih => rw [List.map_cons, ih]

theorem htmlFrom_turn (h : turn? r c d = some r') :
    htmlFrom r (c :: d :: t) = c :: d :: htmlFrom r' t := by
  unfold turn? at h
  rw [htmlFrom]
  split at h
  · next hcd => rw [if_pos hcd, Option.some.inj h]
  · next hcd =>
    rw [if_neg hcd]
    split at h
    · next hcd => rw [if_pos hcd, Option.some.inj h]
    · next hcd =>
      rw [if_neg hcd]
      split at h
      · next hcd => rw [if_pos hcd, Option.some.inj h]
      · next hcd =>
        rw [if_neg hcd]
        split at h
        · next hcd => rw [if_pos hcd, Option.some.inj h]
        · cases h

theorem htmlFrom_step (h : turn? r c d = none) :
    htmlFrom r (c :: d :: t) = write (r, c) ++ htmlFrom r (d :: t) := by
  unfold turn? at h
  rw [htmlFrom, write_eq]
  split at h
  · cases h
  · next hcd =>
    rw [if_neg hcd]
    split at h
    · cases h
    · next hcd =>
      rw [if_neg hcd]
      split at h
      · cases h
      · next hcd =>
        rw [if_neg hcd]
        split at h
        · cases h
        · next hcd => rw [if_neg hcd]

/-- Escaping writes the characters one after another, each by its region. -/
theorem htmlFrom_eq_flatMap (r : Region) (t : Text) :
    htmlFrom r t = (readFrom r t).flatMap write := by
  fun_induction readFrom r t with
  | case1 => rfl
  | case2 r c => rw [htmlFrom, List.flatMap_singleton, write_eq]
  | case3 r c d rest r' hturn ih =>
    obtain ⟨hc, hd⟩ := turn?_plain hturn
    rw [htmlFrom_turn hturn, List.flatMap_cons, List.flatMap_cons, write_of_not_mem hc,
      write_of_not_mem hd, ih]
    rfl
  | case4 r c d rest hturn ih => rw [htmlFrom_step hturn, List.flatMap_cons, ih]

/-! ## Reading what was written -/

def written (x : Region × Char) : List (Region × Char) := (write x).map (Prod.mk x.1)

theorem entity_specials :
    entity '&' = ['&', 'a', 'm', 'p', ';'] ∧ entity '<' = ['&', 'l', 't', ';'] ∧
    entity '>' = ['&', 'g', 't', ';'] ∧ entity '"' = ['&', 'q', 'u', 'o', 't', ';'] ∧
    entity '\'' = ['&', '#', '3', '9', ';'] := by
  decide

/-- An entity has an ampersand at its start and no other mark in it. -/
theorem entity_cases (c : Char) :
    (entity c = [c] ∧ c ∉ specials) ∨
      (c ∈ specials ∧ ∃ u, entity c = '&' :: u ∧ u ≠ [] ∧ ∀ x ∈ u, x ∉ '{' :: specials) := by
  by_cases h : c ∈ specials
  · refine .inr ⟨h, ?_⟩
    simp only [specials, List.mem_cons, List.not_mem_nil, or_false] at h
    rcases h with rfl | rfl | rfl | rfl | rfl <;> simp [entity_specials, specials]
  · exact .inl ⟨entity_of_not_mem h, h⟩

def letters : Text := "&ampltgquo#39;".toList

theorem entity_ends (x : Char) :
    (∀ y ∈ entity x, y = x ∨ y ∈ letters) ∧
      ((entity x).getLast? = some x ∨ (entity x).getLast? = some ';') := by
  by_cases h : x ∈ specials
  · simp only [specials, List.mem_cons, List.not_mem_nil, or_false] at h
    rcases h with rfl | rfl | rfl | rfl | rfl <;>
      exact ⟨fun y hy => .inr (List.contains_iff_mem.mp (List.all_eq_true.mp (by decide) y hy)),
        by decide⟩
  · rw [entity_of_not_mem h]
    simp

theorem length_entity (x : Char) :
    1 ≤ (entity x).length ∧ (x ∈ specials → 1 < (entity x).length) := by
  obtain ⟨h, hx⟩ | ⟨-, u, h, hne, -⟩ := entity_cases x
  · exact ⟨by rw [h]; rfl, fun hmem => absurd hmem hx⟩
  · have hpos := List.length_pos_iff.mpr hne
    rw [h, List.length_cons]
    exact ⟨by omega, fun _ => by omega⟩

/-- Escaping makes a text longer, unless there is nothing to escape. -/
theorem length_flatMap_entity (t : Text) :
    t.length ≤ (t.flatMap entity).length ∧
      ((∃ x ∈ t, x ∈ specials) → t.length < (t.flatMap entity).length) := by
  induction t with
  | nil => simp
  | cons x t ih =>
    obtain ⟨hone, hspecial⟩ := length_entity x
    rw [List.flatMap_cons, List.length_append, List.length_cons]
    refine ⟨by omega, ?_⟩
    rintro ⟨y, hy, hmem⟩
    rcases List.mem_cons.mp hy with rfl | hy
    · have := hspecial hmem
      omega
    · have := ih.2 ⟨y, hy, hmem⟩
      omega

theorem flatMap_entity_eq (h : ∀ x ∈ t, x ∉ specials) : t.flatMap entity = t := by
  induction t with
  | nil => rfl
  | cons x t ih =>
    rw [List.flatMap_cons, entity_of_not_mem (h x (by simp)), ih fun y hy => h y (by simp [hy])]
    rfl

theorem turn?_ampersand (r : Region) (c : Char) : turn? r c '&' = none := by
  simp [turn?]

theorem turn?_markup (h : c ≠ '{') (d : Char) : turn? .markup c d = none := by
  simp [turn?, h]

/-- What is written for a text begins with its first character, or else with an ampersand. -/
theorem head?_htmlFrom (r : Region) (d : Char) (t : Text) :
    (htmlFrom r (d :: t)).head? = some d ∨ (htmlFrom r (d :: t)).head? = some '&' := by
  have hwrite : (write (r, d)).head? = some d ∨ (write (r, d)).head? = some '&' := by
    cases r with
    | tag => exact .inl rfl
    | expression => exact .inl rfl
    | markup =>
      obtain ⟨h, -⟩ | ⟨-, u, h, -, -⟩ := entity_cases d
      · exact .inl (congrArg List.head? h)
      · exact .inr (congrArg List.head? h)
  have hne : write (r, d) ≠ [] := by
    intro h
    simp [h] at hwrite
  cases t with
  | nil => rwa [htmlFrom, ← write_eq]
  | cons e t =>
    cases hturn : turn? r d e with
    | some r' => exact .inl (congrArg List.head? (htmlFrom_turn hturn))
    | none => rwa [htmlFrom_step hturn, List.head?_append_of_ne_nil _ hne]

/-- A run in markup stays there as long as it reads no brace. -/
theorem readFrom_markup {u : Text} (h : ∀ x ∈ u, x ≠ '{') (t : Text) :
    readFrom .markup (u ++ t) = u.map (Prod.mk .markup) ++ readFrom .markup t := by
  induction u with
  | nil => rfl
  | cons x u ih =>
    rw [List.cons_append, readFrom_cons fun d _ => turn?_markup (h x (by simp)) d,
      ih fun y hy => h y (by simp [hy])]
    rfl

theorem html_append (h : '{' ∉ t) (u : Text) : html (t ++ u) = html t ++ html u := by
  have hbrace : ∀ x ∈ t, x ≠ '{' := by
    rintro x hx rfl
    exact h hx
  have hnil := readFrom_markup hbrace []
  rw [List.append_nil] at hnil
  simp only [html, htmlFrom_eq_flatMap, readFrom_markup hbrace u, hnil, List.flatMap_append]
  simp [readFrom]

theorem html_eq_flatMap_entity (h : '{' ∉ t) : html t = t.flatMap entity := by
  induction t with
  | nil => rfl
  | cons x t ih =>
    rw [List.mem_cons, not_or] at h
    have happend := html_append (t := [x]) (by simpa using h.1) t
    rw [List.singleton_append] at happend
    rw [happend, ih h.2]
    rfl

theorem html_brace (h : ∀ x ∈ t.head?, x ≠ '{' ∧ x ≠ '%') : html ('{' :: t) = '{' :: html t := by
  cases t with
  | nil => rfl
  | cons d t =>
    obtain ⟨h₁, h₂⟩ := h d rfl
    exact htmlFrom_step (by simp [turn?, h₁, h₂])

/-- A run reads what is written for a character in the region of that character. -/
theorem readFrom_write (h : ∀ d, t.head? = some d → turn? r c d = none) :
    readFrom r (write (r, c) ++ t) = written (r, c) ++ readFrom r t := by
  cases r with
  | tag => exact readFrom_cons h
  | expression => exact readFrom_cons h
  | markup =>
    obtain ⟨he, -⟩ | ⟨-, u, he, -, hu⟩ := entity_cases c
    · have hwrite : write (.markup, c) = [c] := he
      rw [written, hwrite]
      exact readFrom_cons h
    · refine readFrom_markup (fun x hx => ?_) t
      have hx : x ∈ '&' :: u := he ▸ hx
      rcases List.mem_cons.mp hx with rfl | hx
      · decide
      · exact List.ne_of_not_mem_cons (hu x hx)

/-- A run over an escaped text is always in the region of the character that was escaped. -/
theorem readFrom_htmlFrom (r : Region) (t : Text) :
    readFrom r (htmlFrom r t) = (readFrom r t).flatMap written := by
  fun_induction readFrom r t with
  | case1 => rfl
  | case2 r c =>
    have hend := readFrom_write (r := r) (c := c) (t := []) (by simp)
    rw [List.append_nil] at hend
    rw [htmlFrom, ← write_eq, hend]
    rfl
  | case3 r c d rest r' hturn ih =>
    obtain ⟨hc, hd⟩ := turn?_plain hturn
    rw [htmlFrom_turn hturn, readFrom_turn hturn, ih, List.flatMap_cons, List.flatMap_cons, written,
      written, write_of_not_mem hc, write_of_not_mem hd]
    rfl
  | case4 r c d rest hturn ih =>
    rw [htmlFrom_step hturn, readFrom_write, ih, List.flatMap_cons]
    intro e he
    obtain hd | hd := head?_htmlFrom r d rest
    · rw [hd] at he
      cases he
      exact hturn
    · rw [hd] at he
      cases he
      exact turn?_ampersand r c

/-! ## Undoing -/

/-- The special character whose entity is read in markup at the start. -/
def entityAt? (l : List (Region × Char)) : Option Char :=
  specials.find? fun c => ((entity c).map (Prod.mk .markup)).isPrefixOf l

/-- The text that was escaped, if every entity that is read in markup stands for its character. -/
def restore : List (Region × Char) → Text
  | [] => []
  | x :: rest =>
    match entityAt? (x :: rest) with
    | some c => c :: restore (rest.drop ((entity c).length - 1))
    | none => x.2 :: restore rest
termination_by l => l.length
decreasing_by
  · exact Nat.lt_succ_of_le (List.drop_sublist _ rest).length_le
  · exact Nat.lt_succ_self _

/-- No entity is the start of another. -/
theorem entityAt?_written (h : c ∈ specials) (l : List (Region × Char)) :
    entityAt? (written (.markup, c) ++ l) = some c := by
  simp only [specials, List.mem_cons, List.not_mem_nil, or_false] at h
  rcases h with rfl | rfl | rfl | rfl | rfl <;>
    simp [entityAt?, written, write, entity_specials, specials, List.isPrefixOf]

theorem restore_entity (h : c ∈ specials) (l : List (Region × Char)) :
    restore (written (.markup, c) ++ l) = c :: restore l := by
  have hat := entityAt?_written h l
  obtain ⟨-, hc⟩ | ⟨-, u, he, -, -⟩ := entity_cases c
  · exact absurd h hc
  · have hw : written (.markup, c) = (.markup, '&') :: u.map (Prod.mk .markup) := by
      rw [written, write, he, List.map_cons]
    have hdrop : (u.map (Prod.mk Region.markup) ++ l).drop ((entity c).length - 1) = l := by
      rw [he, List.length_cons, Nat.add_sub_cancel, ← List.length_map (f := Prod.mk Region.markup),
        List.drop_left]
    rw [hw, List.cons_append] at hat ⊢
    rw [restore, hat]
    exact congrArg (c :: restore ·) hdrop

theorem restore_cons {x : Region × Char} (h : x ≠ (.markup, '&')) (l : List (Region × Char)) :
    restore (x :: l) = x.2 :: restore l := by
  have hnone : entityAt? (x :: l) = none := by
    simp [entityAt?, specials, entity_specials, List.isPrefixOf, h.symm]
  rw [restore, hnone]

theorem restore_flatMap (l : List (Region × Char)) :
    restore (l.flatMap written) = l.map Prod.snd := by
  induction l with
  | nil => rw [List.flatMap_nil, restore, List.map_nil]
  | cons x l ih =>
    obtain ⟨r, c⟩ := x
    rw [List.flatMap_cons, List.map_cons, ← ih]
    by_cases h : r = .markup ∧ c ∈ specials
    · obtain ⟨rfl, hc⟩ := h
      exact restore_entity hc _
    · have hself : written (r, c) = [(r, c)] := by
        rw [written, write_eq]
        split
        · next hr =>
          subst hr
          rw [entity_of_not_mem fun hc => h ⟨rfl, hc⟩]
          rfl
        · rfl
      rw [hself]
      refine restore_cons ?_ _
      rintro ⟨⟩
      exact h ⟨rfl, by decide⟩

/-- Where an ampersand is written in markup, it is the start of an entity. -/
theorem first_of_written {x : Region × Char} {front back : List (Region × Char)}
    (h : written x = front ++ (.markup, '&') :: back) :
    front = [] ∧ ∃ c ∈ specials, x = (.markup, c) := by
  obtain ⟨r, c⟩ := x
  have hmem : (.markup, '&') ∈ written (r, c) := by rw [h]; simp
  obtain ⟨y, hy, heq⟩ := List.mem_map.mp hmem
  obtain ⟨rfl, rfl⟩ := Prod.mk.inj heq
  obtain ⟨he, hc⟩ | ⟨hc, u, he, -, hu⟩ := entity_cases c
  · have hy : '&' ∈ entity c := hy
    rw [he, List.mem_singleton] at hy
    exact absurd (hy ▸ hc) (by decide)
  · refine ⟨?_, c, hc, rfl⟩
    have hw : (entity c).map (Prod.mk Region.markup) = front ++ (.markup, '&') :: back := h
    rw [he, List.map_cons] at hw
    cases front with
    | nil => rfl
    | cons z front =>
      have hmem : (.markup, '&') ∈ u.map (Prod.mk Region.markup) := by
        rw [(List.cons.inj hw).2]
        simp
      obtain ⟨y, hy, heq⟩ := List.mem_map.mp hmem
      obtain ⟨-, rfl⟩ := Prod.mk.inj heq
      exact absurd (hu _ hy) (by decide)

/-- Apart from ampersands, no character that has an entity is written in markup. -/
theorem not_special_of_mem_written {l : List (Region × Char)}
    (h : (.markup, c) ∈ l.flatMap written) : c ∉ ['<', '>', '"', '\''] := by
  obtain ⟨⟨r, d⟩, -, hx⟩ := List.mem_flatMap.mp h
  obtain ⟨y, hy, heq⟩ := List.mem_map.mp hx
  obtain ⟨rfl, rfl⟩ := Prod.mk.inj heq
  have hy : y ∈ entity d := hy
  have hspecial : y ∉ specials ∨ y = '&' := by
    obtain ⟨he, hd⟩ | ⟨-, u, he, -, hu⟩ := entity_cases d
    · rw [he, List.mem_singleton] at hy
      exact .inl (hy ▸ hd)
    · rw [he, List.mem_cons] at hy
      rcases hy with rfl | hy
      · exact .inr rfl
      · exact .inl (List.not_mem_of_not_mem_cons (hu y hy))
  rcases hspecial with hspecial | rfl
  · exact List.not_mem_of_not_mem_cons hspecial
  · decide

/-- An ampersand is written in markup for entities only, as their first character. -/
theorem entity_of_ampersand {l back : List (Region × Char)}
    (h : (.markup, '&') :: back <:+ l.flatMap written) :
    ∃ c ∈ specials, written (.markup, c) <+: (.markup, '&') :: back := by
  induction l with
  | nil => simp at h
  | cons x l ih =>
    obtain ⟨front, hfront⟩ := h
    rw [List.flatMap_cons] at hfront
    obtain ⟨u, hx, hu⟩ | ⟨u, -, hu⟩ := List.append_eq_append_iff.mp hfront
    · cases u with
      | nil => exact ih ⟨[], hu⟩
      | cons y u =>
        obtain ⟨rfl, -⟩ := List.cons.inj hu
        obtain ⟨rfl, c, hc, rfl⟩ := first_of_written hx
        exact ⟨c, hc, l.flatMap written, by rw [hx, hu]; rfl⟩
    · exact ih ⟨u, hu.symm⟩

/-- An escaping run over an escaped text finds the entities in markup. Put back, they give the text
that was escaped; no other character that has an entity is read in markup. So no two texts are
escaped alike. -/
theorem html_lossless (t : Text) :
    html t = (readFrom .markup t).flatMap write ∧
    restore (readFrom .markup (html t)) = t ∧
    (∀ c, (.markup, c) ∈ readFrom .markup (html t) → c ∉ ['<', '>', '"', '\'']) ∧
    (∀ back, (.markup, '&') :: back <:+ readFrom .markup (html t) →
      ∃ c ∈ specials, (entity c).map (Prod.mk .markup) <+: (.markup, '&') :: back) ∧
    Function.Injective html := by
  have hread (t : Text) : readFrom .markup (html t) = (readFrom .markup t).flatMap written :=
    readFrom_htmlFrom .markup t
  have hrestore : Function.LeftInverse (fun t => restore (readFrom .markup t)) html := by
    intro t
    show restore (readFrom .markup (html t)) = t
    rw [hread, restore_flatMap, map_readFrom]
  refine ⟨htmlFrom_eq_flatMap .markup t, hrestore t, fun c hc => ?_, fun back hback => ?_,
    hrestore.injective⟩
  · rw [hread] at hc
    exact not_special_of_mem_written hc
  · rw [hread] at hback
    exact entity_of_ampersand hback

end Haml.Escape
