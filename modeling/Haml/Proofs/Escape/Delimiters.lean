import Haml.Proofs.Escape.Regions
import Haml.Proofs.Text.Trimming

/-!
Template regions. A template is cut from left to right: an opener that has a closer somewhere behind
it starts a region, which goes on to the first such closer, and all else is markup. Escaping decides
on the fly what it copies. Main statement: it copies just the template regions if and only if no
character that has an entity is in a region for the one and in markup for the other; this is so
where every opener is closed before the next one.
-/
namespace Haml.Escape

/-! ## Cutting a template -/

/-- The text up to and with the first `stop`, and what follows it. -/
def through? (stop : Text) : Text → Option (Text × Text)
  | [] => none
  | c :: t =>
    match Text.after? stop (c :: t) with
    | some rest => some (stop, rest)
    | none => (through? stop t).map fun r => (c :: r.1, r.2)

/-- The template region at the start of a text, and what follows it. -/
def region? : Text → Option (Text × Text)
  | '{' :: '%' :: t => (through? ['%', '}'] t).map fun r => ('{' :: '%' :: r.1, r.2)
  | '{' :: '{' :: t => (through? ['}', '}'] t).map fun r => ('{' :: '{' :: r.1, r.2)
  | _ => none

variable {c x : Char} {t u rest stop : Text}

theorem through?_length (h : through? stop t = some (u, rest)) (hstop : stop ≠ []) :
    rest.length < t.length := by
  induction t generalizing u with
  | nil => simp [through?] at h
  | cons c t ih =>
    rw [through?] at h
    split at h
    · next r hr =>
      cases h
      have hlength := congrArg List.length (Text.eq_append_of_after? hr)
      have hpos := List.length_pos_iff.mpr hstop
      rw [List.length_append] at hlength
      omega
    · obtain ⟨r, hr, heq⟩ := Option.map_eq_some_iff.mp h
      cases heq
      have := ih hr
      rw [List.length_cons]
      omega

theorem region?_length (h : region? t = some (u, rest)) : rest.length < t.length := by
  unfold region? at h
  split at h
  · obtain ⟨r, hr, heq⟩ := Option.map_eq_some_iff.mp h
    cases heq
    have := through?_length hr (by simp)
    simp only [List.length_cons]
    omega
  · obtain ⟨r, hr, heq⟩ := Option.map_eq_some_iff.mp h
    cases heq
    have := through?_length hr (by simp)
    simp only [List.length_cons]
    omega
  · cases h

/-- The characters of a template, each with whether it lies in a template region. -/
def guarded (t : Text) : List (Bool × Char) :=
  match _h : region? t with
  | some (u, rest) => u.map (Prod.mk true) ++ guarded rest
  | none =>
    match t with
    | [] => []
    | c :: rest => (false, c) :: guarded rest
termination_by t.length
decreasing_by
  · exact region?_length _h
  · exact Nat.lt_succ_self _

def put (x : Bool × Char) : Text := if x.1 then [x.2] else entity x.2

/-- A template with its regions copied and all else escaped. -/
def escapeOutside (t : Text) : Text := (guarded t).flatMap put

/-- The characters of a text, each with whether escaping copies it. -/
def copied (t : Text) : List (Bool × Char) :=
  (readFrom .markup t).map fun x => (decide (x.1 ≠ .markup), x.2)

theorem html_eq_flatMap (t : Text) : html t = (copied t).flatMap put := by
  have hput : ∀ x : Region × Char, put (decide (x.1 ≠ .markup), x.2) = write x := by
    rintro ⟨r, c⟩
    cases r <;> rfl
  rw [html, htmlFrom_eq_flatMap, copied, List.flatMap_map]
  exact congrArg (List.flatMap · _) (funext fun x => (hput x).symm)

theorem map_copied (t : Text) : (copied t).map Prod.snd = t := by
  rw [copied, List.map_map]
  exact map_readFrom .markup t

/-! ## Two ways to cut a text -/

theorem through?_append (h : through? stop t = some (u, rest)) : u ++ rest = t := by
  induction t generalizing u with
  | nil => simp [through?] at h
  | cons c t ih =>
    rw [through?] at h
    split at h
    · next r hr =>
      cases h
      exact (Text.eq_append_of_after? hr).symm
    · obtain ⟨r, hr, heq⟩ := Option.map_eq_some_iff.mp h
      cases heq
      rw [List.cons_append, ih hr]

theorem region?_append (h : region? t = some (u, rest)) : u ++ rest = t := by
  unfold region? at h
  split at h
  · obtain ⟨r, hr, heq⟩ := Option.map_eq_some_iff.mp h
    cases heq
    simp [through?_append hr]
  · obtain ⟨r, hr, heq⟩ := Option.map_eq_some_iff.mp h
    cases heq
    simp [through?_append hr]
  · cases h

theorem map_guarded (t : Text) : (guarded t).map Prod.snd = t := by
  fun_induction guarded t with
  | case1 t u rest h ih =>
    rw [List.map_append, List.map_map, ih]
    exact (congrArg (· ++ rest) (List.map_id u)).trans (region?_append h)
  | case2 => rfl
  | case3 c rest h ih => rw [List.map_cons, ih]

theorem put_of_not_mem {b : Bool} (h : c ∉ specials) : put (b, c) = [c] := by
  rw [put, entity_of_not_mem h, ite_self]

/-- If the same text is cut in two ways, neither result can run ahead of the other by characters
without entities. -/
theorem flatMap_put_ne {k l : List (Bool × Char)} (hkl : k.map Prod.snd = l.map Prod.snd)
    {w : Text} (hne : w ≠ []) (hw : ∀ x ∈ w, x ∉ specials) :
    k.flatMap put ≠ w ++ l.flatMap put := by
  induction k generalizing l w with
  | nil =>
    intro h
    exact hne (List.append_eq_nil_iff.mp h.symm).1
  | cons x k ih =>
    cases l with
    | nil => simp at hkl
    | cons y l =>
      obtain ⟨b, c⟩ := x
      obtain ⟨b', c'⟩ := y
      obtain ⟨rfl, htail⟩ : c = c' ∧ k.map Prod.snd = l.map Prod.snd := by simpa using hkl
      obtain ⟨a, w, rfl⟩ := List.exists_cons_of_ne_nil hne
      intro h
      have ha := hw a (by simp)
      by_cases hc : c ∈ specials
      · -- what is written for `c` begins with a character that has an entity
        have hhead : (put (b, c)).head? = some c ∨ (put (b, c)).head? = some '&' := by
          obtain ⟨-, hc'⟩ | ⟨-, v, he, -, -⟩ := entity_cases c
          · exact absurd hc hc'
          · cases b with
            | true => exact .inl rfl
            | false => exact .inr (congrArg List.head? he)
        have hfirst : (put (b, c)).head? = some a := by
          have hput : put (b, c) ≠ [] := by
            intro hnil
            simp [hnil] at hhead
          have := congrArg List.head? h
          rwa [List.flatMap_cons, List.head?_append_of_ne_nil _ hput] at this
        rcases hhead with hhead | hhead
        · rw [hhead] at hfirst
          cases hfirst
          exact ha hc
        · rw [hhead] at hfirst
          cases hfirst
          exact ha (by decide)
      · rw [List.flatMap_cons, List.flatMap_cons, put_of_not_mem hc, put_of_not_mem hc,
          List.singleton_append, List.cons_append] at h
        obtain ⟨rfl, h⟩ := List.cons.inj h
        refine ih htail (w := w ++ [c]) (by simp) ?_ (by simpa using h)
        intro x hx
        rcases List.mem_append.mp hx with hx | hx
        · exact hw x (by simp [hx])
        · rwa [List.mem_singleton.mp hx]

/-- What is written for a character tells whether it is copied, whatever follows. -/
theorem put_inj {b b' : Bool} {k l : List (Bool × Char)} (hc : c ∈ specials)
    (hkl : k.map Prod.snd = l.map Prod.snd)
    (h : put (b, c) ++ k.flatMap put = put (b', c) ++ l.flatMap put) : b = b' := by
  obtain ⟨-, hc'⟩ | ⟨-, u, he, hne, hu⟩ := entity_cases c
  · exact absurd hc hc'
  · have hplain : ∀ x ∈ u, x ∉ specials := fun x hx => List.not_mem_of_not_mem_cons (hu x hx)
    have hcopy : put (true, c) = [c] := rfl
    have hentity : put (false, c) = '&' :: u := he
    cases b <;> cases b'
    · rfl
    · rw [hcopy, hentity] at h
      exact absurd (List.cons.inj h).2.symm (flatMap_put_ne hkl.symm hne hplain)
    · rw [hcopy, hentity] at h
      exact absurd (List.cons.inj h).2 (flatMap_put_ne hkl hne hplain)
    · rfl

def isSpecial (x : Bool × Char) : Bool := specials.contains x.2

/-- Two ways to cut a text give the same result just if they agree on the characters that have
entities. -/
theorem flatMap_put_eq_iff {k l : List (Bool × Char)} (hkl : k.map Prod.snd = l.map Prod.snd) :
    k.flatMap put = l.flatMap put ↔ k.filter isSpecial = l.filter isSpecial := by
  induction k generalizing l with
  | nil =>
    cases l with
    | nil => simp
    | cons y l => simp at hkl
  | cons x k ih =>
    cases l with
    | nil => simp at hkl
    | cons y l =>
      obtain ⟨b, c⟩ := x
      obtain ⟨b', c'⟩ := y
      obtain ⟨rfl, htail⟩ : c = c' ∧ k.map Prod.snd = l.map Prod.snd := by simpa using hkl
      rw [List.flatMap_cons, List.flatMap_cons]
      by_cases hc : c ∈ specials
      · have hspecial (b : Bool) : isSpecial (b, c) = true := List.contains_iff_mem.mpr hc
        rw [List.filter_cons_of_pos (hspecial b), List.filter_cons_of_pos (hspecial b')]
        constructor
        · intro h
          obtain rfl := put_inj hc htail h
          rw [(ih htail).mp (List.append_cancel_left h)]
        · intro h
          obtain ⟨heq, hrest⟩ := List.cons.inj h
          cases heq
          rw [(ih htail).mpr hrest]
      · have hspecial (b : Bool) : ¬ isSpecial (b, c) = true :=
          fun h => hc (List.contains_iff_mem.mp h)
        rw [List.filter_cons_of_neg (hspecial b), List.filter_cons_of_neg (hspecial b'),
          put_of_not_mem hc, put_of_not_mem hc, ← ih htail]
        exact ⟨List.append_cancel_left, congrArg _⟩

/-! ## Templates whose regions are closed -/

def Opens (t : Text) : Prop := ['{', '%'] <+: t ∨ ['{', '{'] <+: t

/-- The body of a region whose closer is `x` and a brace: neither an opener nor the closer begins
in it. -/
def Inner (x : Char) (body : Text) : Prop :=
  ∀ u, u <:+ body ++ [x] → ¬ Opens u ∧ ¬ [x, '}'] <+: u

instance : DecidablePred Opens := fun t =>
  inferInstanceAs (Decidable (['{', '%'] <+: t ∨ ['{', '{'] <+: t))

instance (x : Char) (body : Text) : Decidable (Inner x body) :=
  decidable_of_iff (∀ u ∈ (body ++ [x]).tails, ¬ Opens u ∧ ¬ [x, '}'] <+: u)
    (forall_congr' fun u => by rw [List.mem_tails])

/-- Every opener is closed, and no other one stands before its closer. -/
inductive Delimited : Text → Prop where
  | nil : Delimited []
  | plain {c : Char} {t : Text} : ¬ Opens (c :: t) → Delimited t → Delimited (c :: t)
  | tag {body t : Text} : Inner '%' body → Delimited t →
      Delimited ('{' :: '%' :: (body ++ '%' :: '}' :: t))
  | expression {body t : Text} : Inner '}' body → Delimited t →
      Delimited ('{' :: '{' :: (body ++ '}' :: '}' :: t))

theorem opens_cons {d : Char} :
    Opens (c :: d :: t) ↔ (c = '{' ∧ d = '%') ∨ (c = '{' ∧ d = '{') := by
  simp [Opens, List.cons_prefix_cons, eq_comm]

/-- The regions other than markup, each with the first character of its closer. -/
inductive Closes : Region → Char → Prop where
  | tag : Closes .tag '%'
  | expression : Closes .expression '}'

theorem Closes.turn? {r : Region} (h : Closes r x) : turn? r x '}' = some .markup := by
  cases h <;> rfl

theorem turn?_markup_none {d : Char} (h : ¬ Opens (c :: d :: t)) :
    Escape.turn? .markup c d = none := by
  rw [opens_cons, not_or] at h
  simp [Escape.turn?, h.1, h.2]

theorem Closes.turn?_none {r : Region} {d : Char} (hr : Closes r x) (hopens : ¬ Opens (c :: d :: t))
    (hcloses : ¬ [x, '}'] <+: c :: d :: t) : Escape.turn? r c d = none := by
  rw [opens_cons, not_or] at hopens
  rw [List.cons_prefix_cons, List.cons_prefix_cons] at hcloses
  cases hr with
  | tag =>
    have hcd : ¬ (c = '%' ∧ d = '}') := fun h => hcloses ⟨h.1.symm, h.2.symm, List.nil_prefix⟩
    simp [Escape.turn?, hopens.1, hopens.2, hcd]
  | expression =>
    have hcd : ¬ (c = '}' ∧ d = '}') := fun h => hcloses ⟨h.1.symm, h.2.symm, List.nil_prefix⟩
    simp [Escape.turn?, hopens.1, hopens.2, hcd]

theorem Inner.tail {body : Text} (h : Inner x (c :: body)) : Inner x body :=
  fun u hu => h u (hu.trans (List.suffix_cons c _))

/-- Two characters in a region, where the first one belongs to the body. -/
theorem Inner.pair {body : Text} (h : Inner x (c :: body)) (t : Text) :
    ∃ d u, body ++ x :: '}' :: t = d :: u ∧ ¬ Opens (c :: d :: u) ∧ ¬ [x, '}'] <+: c :: d :: u := by
  obtain ⟨d, u, hdu⟩ := List.exists_cons_of_ne_nil (l := body ++ [x]) (by simp)
  obtain ⟨hopens, hcloses⟩ := h (c :: d :: u) (by rw [← hdu]; exact List.suffix_rfl)
  refine ⟨d, u ++ '}' :: t, ?_, ?_, ?_⟩
  · rw [← List.cons_append, ← hdu]
    simp
  · rwa [opens_cons] at hopens ⊢
  · simpa [List.cons_prefix_cons] using hcloses

/-- A body with neither a brace nor the first character of the closer is a body. -/
theorem inner_of_not_mem {body : Text} (hbrace : '{' ∉ body) (hx : x ∉ body) (hne : x ≠ '{') :
    Inner x body := by
  intro u hu
  constructor
  · have hu' : '{' ∉ u := fun hmem => by
      have hmem' := hu.subset hmem
      simp only [List.mem_append, List.mem_singleton] at hmem'
      exact hmem'.elim hbrace fun h => hne h.symm
    rintro (⟨v, rfl⟩ | ⟨v, rfl⟩) <;> exact hu' (by simp)
  · rintro ⟨v, rfl⟩
    -- the `x` behind the body has nothing after it, so this one would be in the body
    obtain ⟨w, hw⟩ := hu
    have hbody := congrArg List.dropLast hw
    rw [List.dropLast_concat, List.dropLast_append_of_ne_nil (by simp)] at hbody
    exact hx (hbody ▸ by simp)

/-- A region that is closed is read up to its closer. -/
theorem readFrom_inner {r : Region} {body : Text} (hr : Closes r x) (h : Inner x body) (t : Text) :
    readFrom r (body ++ x :: '}' :: t) =
      (body ++ [x, '}']).map (Prod.mk r) ++ readFrom .markup t := by
  induction body with
  | nil => exact readFrom_turn hr.turn?
  | cons c body ih =>
    obtain ⟨d, u, hdu, hopens, hcloses⟩ := h.pair t
    have hnone : ∀ e, (body ++ x :: '}' :: t).head? = some e → Escape.turn? r c e = none := by
      intro e he
      rw [hdu] at he
      cases he
      exact hr.turn?_none hopens hcloses
    rw [List.cons_append, readFrom_cons hnone, ih h.tail]
    rfl

theorem through?_inner {body : Text} (h : Inner x body) (t : Text) :
    through? [x, '}'] (body ++ x :: '}' :: t) = some (body ++ [x, '}'], t) := by
  induction body with
  | nil => simp [through?, Text.after?]
  | cons c body ih =>
    obtain ⟨d, u, hdu, -, hcloses⟩ := h.pair t
    have hnone : Text.after? [x, '}'] (c :: (body ++ x :: '}' :: t)) = none := by
      rw [Option.eq_none_iff_forall_ne_some]
      intro r hr
      rw [hdu] at hr
      exact hcloses ⟨r, (Text.eq_append_of_after? hr).symm⟩
    rw [List.cons_append, through?, hnone, ih h.tail]
    rfl

theorem guarded_region (h : region? t = some (u, rest)) :
    guarded t = u.map (Prod.mk true) ++ guarded rest := by
  rw [guarded]
  split
  · next hr =>
    rw [h] at hr
    cases hr
    rfl
  · next hr => rw [h] at hr; cases hr

theorem guarded_cons (h : ¬ Opens (c :: t)) : guarded (c :: t) = (false, c) :: guarded t := by
  have hnone : region? (c :: t) = none := by
    unfold region?
    split
    · next u heq => exact absurd (.inl ⟨u, heq.symm⟩) h
    · next u heq => exact absurd (.inr ⟨u, heq.symm⟩) h
    · rfl
  rw [guarded]
  split
  · next hr => rw [hnone] at hr; cases hr
  · rfl

theorem flatMap_put_true (u : Text) : (u.map (Prod.mk true)).flatMap put = u := by
  induction u with
  | nil => rfl
  | cons c u ih => rw [List.map_cons, List.flatMap_cons, ih]; rfl

theorem flatMap_write_region {r : Region} (hr : Closes r x) (u : Text) :
    (u.map (Prod.mk r)).flatMap write = u := by
  induction u with
  | nil => rfl
  | cons c u ih =>
    rw [List.map_cons, List.flatMap_cons, ih]
    cases hr <;> rfl

/-- A region that is closed is copied, and escaping goes on in markup. -/
theorem html_region {r : Region} {d : Char} {body : Text}
    (hopen : Escape.turn? .markup c d = some r) (hr : Closes r x) (h : Inner x body) (t : Text) :
    html (c :: d :: (body ++ x :: '}' :: t)) = c :: d :: (body ++ [x, '}']) ++ html t := by
  rw [html, htmlFrom_turn hopen, htmlFrom_eq_flatMap, readFrom_inner hr h, List.flatMap_append,
    flatMap_write_region hr, ← htmlFrom_eq_flatMap]
  rfl

theorem escapeOutside_region {u rest : Text} (h : region? t = some (u, rest)) :
    escapeOutside t = u ++ escapeOutside rest := by
  rw [escapeOutside, guarded_region h, List.flatMap_append, flatMap_put_true, escapeOutside]

theorem Delimited.html_eq (h : Delimited t) : html t = escapeOutside t := by
  induction h with
  | nil => rw [escapeOutside, guarded]; rfl
  | @plain c t hopens _ ih =>
    have hstep : htmlFrom .markup (c :: t) = write (.markup, c) ++ htmlFrom .markup t := by
      cases t with
      | nil => exact (List.append_nil (write (.markup, c))).symm
      | cons d t => exact htmlFrom_step (turn?_markup_none hopens)
    rw [escapeOutside, guarded_cons hopens, List.flatMap_cons, ← escapeOutside, ← ih, html, hstep]
    rfl
  | @tag body t hbody _ ih =>
    have hregion : region? ('{' :: '%' :: (body ++ '%' :: '}' :: t)) =
        some ('{' :: '%' :: (body ++ ['%', '}']), t) := by
      rw [region?, through?_inner hbody]
      rfl
    rw [html_region rfl .tag hbody, escapeOutside_region hregion, ih]
  | @expression body t hbody _ ih =>
    have hregion : region? ('{' :: '{' :: (body ++ '}' :: '}' :: t)) =
        some ('{' :: '{' :: (body ++ ['}', '}']), t) := by
      rw [region?, through?_inner hbody]
      rfl
    rw [html_region rfl .expression hbody, escapeOutside_region hregion, ih]

/-- Escaping copies the template regions and escapes all else just if it reads the same characters
in markup as lie outside the regions, of those that have entities; so it does if every opener is
closed before the next one. -/
theorem html_protects_iff (t : Text) :
    (html t = escapeOutside t ↔ (copied t).filter isSpecial = (guarded t).filter isSpecial) ∧
    (Delimited t → html t = escapeOutside t) := by
  refine ⟨?_, Delimited.html_eq⟩
  rw [html_eq_flatMap, escapeOutside]
  exact flatMap_put_eq_iff (by rw [map_copied, map_guarded])

def mixed : Text := "<\x7b% a \"b\" %\x7d&\x7b\x7b c|d:'<' \x7d\x7d>".toList

theorem delimited_mixed : Delimited mixed := by
  have hexpression : Inner '}' " c|d:'<' ".toList := by decide
  have htag : Inner '%' " a \"b\" ".toList := by decide
  exact .plain (by decide) (.tag htag (.plain (by decide) (.expression hexpression
    (.plain (by decide) .nil))))

theorem html_protects_iff_mixed :
    Delimited mixed ∧ html mixed = escapeOutside mixed ∧
    (copied mixed).filter isSpecial = (guarded mixed).filter isSpecial ∧
    html mixed = "&lt;\x7b% a \"b\" %\x7d&amp;\x7b\x7b c|d:'<' \x7d\x7d&gt;".toList := by
  obtain ⟨hiff, hdelimited⟩ := html_protects_iff mixed
  have heq := hdelimited delimited_mixed
  exact ⟨delimited_mixed, heq, hiff.mp heq, by decide⟩

/-- Escaping and the regions of the template do not agree: behind an opener that is not closed,
behind a tag that holds the opener of an expression, and in a tag that holds an expression. -/
theorem html_unguarded :
    (html "\x7b\x7b <".toList = "\x7b\x7b <".toList ∧
      escapeOutside "\x7b\x7b <".toList = "\x7b\x7b &lt;".toList) ∧
    (html "\x7b% \x7b\x7b %\x7d <".toList = "\x7b% \x7b\x7b %\x7d <".toList ∧
      escapeOutside "\x7b% \x7b\x7b %\x7d <".toList = "\x7b% \x7b\x7b %\x7d &lt;".toList) ∧
    html "\x7b% \x7b\x7b \x7d\x7d < %\x7d".toList = "\x7b% \x7b\x7b \x7d\x7d &lt; %\x7d".toList ∧
    escapeOutside "\x7b% \x7b\x7b \x7d\x7d < %\x7d".toList =
      "\x7b% \x7b\x7b \x7d\x7d < %\x7d".toList := by
  decide +kernel

end Haml.Escape
