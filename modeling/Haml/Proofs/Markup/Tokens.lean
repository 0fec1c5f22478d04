import Haml.Node.Faces
import Haml.Proofs.Text.Trimming

/-!
Tokens of markup. `scan` goes over a text from left to right and gathers its tokens: tags of
elements, template tags, and the marks of comments. What stands between the braces of an expression
is passed over. `Spells rest t ts` says that `t`, with `rest` after it, is put together from the
tokens `ts`, from expressions, and from characters that no token is made of; such a text is scanned
to just these tokens, and trimming it does not change them.
-/
namespace Haml

theorem Content.expressionText_eq (e : Text) :
    expressionText e = '{' :: '{' :: ' ' :: (e ++ [' ', '}', '}']) :=
  List.append_assoc ..

theorem Content.tagText_eq (t : Text) :
    tagText t = '{' :: '%' :: ' ' :: (t ++ [' ', '%', '}']) :=
  List.append_assoc ..

inductive Token where
  /-- The opening tag of an element, with its attributes. -/
  | opening (body : Text)
  | closing (name : Text)
  | statement (text : Text)
  | commentOpening
  | commentClosing
  | conditionOpening (condition : Text)
  | conditionClosing
  deriving DecidableEq, Repr

namespace Token

def spell : Token → Text
  | opening body => '<' :: body ++ ['>']
  | closing name => '<' :: '/' :: name ++ ['>']
  | statement t => Content.tagText t
  | commentOpening => ['<', '!', '-', '-']
  | commentClosing => ['-', '-', '>']
  | conditionOpening c => '<' :: '!' :: '-' :: '-' :: '[' :: c ++ [']', '>']
  | conditionClosing => ['<', '!', '[', 'e', 'n', 'd', 'i', 'f', ']', '-', '-', '>']

end Token

/-! ## Scanning -/

/-- The text before the first `stop`, if there is one. -/
def upTo? (stop : Text) : Text → Option Text
  | [] => if stop.isEmpty then some [] else none
  | x :: t => if Text.startsWith stop (x :: t) then some [] else (upTo? stop t).map (x :: ·)

/-- A kind of token: what it starts with, what it stops at, and the token for what stands between.
Expressions are bracketed too, but they are no tokens. -/
structure Bracket where
  start : Text
  stop : Text
  token? : Text → Option Token

/-- The kinds of tokens. One whose start is the start of another comes after it. -/
def brackets : List Bracket :=
  [⟨['<', '!', '-', '-', '['], [']', '>'], fun c => some (.conditionOpening c)⟩,
   ⟨['<', '!', '-', '-'], [], fun _ => some .commentOpening⟩,
   ⟨['<', '!', '[', 'e', 'n', 'd', 'i', 'f', ']', '-', '-', '>'], [],
     fun _ => some .conditionClosing⟩,
   ⟨['<', '/'], ['>'], fun name => some (.closing name)⟩,
   ⟨['<'], ['>'], fun body => some (.opening body)⟩,
   ⟨['{', '%', ' '], [' ', '%', '}'], fun t => some (.statement t)⟩,
   ⟨['{', '{'], ['}', '}'], fun _ => none⟩,
   ⟨['-', '-', '>'], [], fun _ => some .commentClosing⟩]

/-- What a bracket encloses at the front of a text. -/
def Bracket.body? (b : Bracket) (t : Text) : Option Text :=
  (Text.after? b.start t).bind (upTo? b.stop)

/-- The first kind of token that a text begins with, and what it encloses. -/
def bracket? (t : Text) : Option (Bracket × Text) :=
  brackets.findSome? fun b => (b.body? t).map (b, ·)

/-- The tokens of a text whose first `n` characters belong to a token before. -/
def scanFrom : Nat → Text → List Token
  | _, [] => []
  | n + 1, _ :: t => scanFrom n t
  | 0, x :: t =>
    match bracket? (x :: t) with
    | some (b, body) =>
      (b.token? body).toList ++ scanFrom (b.start.length + body.length + b.stop.length - 1) t
    | none => scanFrom 0 t

def scan (t : Text) : List Token := scanFrom 0 t

theorem scanFrom_length (u t : Text) : scanFrom u.length (u ++ t) = scan t := by
  induction u with
  | nil => rfl
  | cons x u ih => exact ih

theorem scan_cons {x : Char} {t : Text} (h : bracket? (x :: t) = none) :
    scan (x :: t) = scan t := by
  simp only [scan, scanFrom, h]

/-- A token at the front of a text is scanned as a whole. -/
theorem scan_bracket {b : Bracket} {body t : Text} (hb : b.start ≠ [])
    (h : bracket? (b.start ++ (body ++ (b.stop ++ t))) = some (b, body)) :
    scan (b.start ++ (body ++ (b.stop ++ t))) = (b.token? body).toList ++ scan t := by
  obtain ⟨x, u, hx⟩ := List.exists_cons_of_ne_nil hb
  have hlen : b.start.length + body.length + b.stop.length - 1 =
      (u ++ (body ++ b.stop)).length := by
    simp only [hx, List.length_cons, List.length_append]
    omega
  have happ : u ++ (body ++ (b.stop ++ t)) = (u ++ (body ++ b.stop)) ++ t := by simp
  rw [hx, List.cons_append] at h ⊢
  simp only [scan, scanFrom, h]
  rw [hlen, happ, scanFrom_length, scan]

theorem upTo?_nil (t : Text) : upTo? [] t = some [] := by
  cases t with
  | nil => rfl
  | cons x t => rfl

theorem upTo?_self (stop t : Text) : upTo? stop (stop ++ t) = some [] := by
  cases h : stop ++ t with
  | nil =>
    obtain ⟨rfl, _⟩ := List.append_eq_nil_iff.mp h
    rfl
  | cons x u =>
    have hs : Text.startsWith stop (x :: u) = true := by
      rw [← h, Text.startsWith, Text.after?_append]
      rfl
    rw [upTo?, if_pos hs]

theorem upTo?_cons {stop t body : Text} {x : Char} (hx : Text.after? stop (x :: t) = none)
    (h : upTo? stop t = some body) : upTo? stop (x :: t) = some (x :: body) := by
  simp [upTo?, Text.startsWith, hx, h]

theorem takeWhile_ne_append {x : Char} {u : Text} (h : x ∉ u) (v : Text) :
    (u ++ x :: v).takeWhile (· != x) = u := by
  rw [List.takeWhile_append_of_pos]
  · simp
  · intro z hz
    simp only [bne_iff_ne]
    rintro rfl
    exact h hz

/-- A body is ended by its stop if it lacks some character of it that comes up only once there. -/
theorem upTo?_append {a b body : Text} {x : Char} (hx : x ∉ body) (ha : x ∉ a) (t : Text) :
    upTo? (a ++ x :: b) (body ++ ((a ++ x :: b) ++ t)) = some body := by
  induction body with
  | nil => exact upTo?_self _ _
  | cons y body ih =>
    refine upTo?_cons ?_ (ih fun h => hx (List.mem_cons_of_mem y h))
    -- the first `x` would come later in the text than in the stop
    refine Option.eq_none_iff_forall_ne_some.mpr fun r hr => ?_
    have heq : ((y :: body) ++ a) ++ x :: (b ++ t) = a ++ x :: (b ++ r) := by
      simpa using Text.eq_append_of_after? hr
    have htake := congrArg (List.takeWhile (· != x)) heq
    rw [takeWhile_ne_append (by simp_all), takeWhile_ne_append ha] at htake
    have hlen := congrArg List.length htake
    simp only [List.length_append, List.length_cons] at hlen
    omega

/-- The end of an expression is found if no braces close before it. -/
theorem upTo?_braces {e : Text} (he : ¬ ['}', '}'] <:+: e) (t : Text) :
    upTo? ['}', '}'] (e ++ (' ' :: '}' :: '}' :: t)) = some (e ++ [' ']) := by
  induction e with
  | nil => exact upTo?_cons (by simp [Text.after?]) (upTo?_self ['}', '}'] t)
  | cons y e ih =>
    refine upTo?_cons ?_ (ih fun h => he (h.trans (List.suffix_cons y e).isInfix))
    refine Option.eq_none_iff_forall_ne_some.mpr fun r hr => he ?_
    cases e with
    | nil =>
      have heq : y :: ' ' :: '}' :: '}' :: t = '}' :: '}' :: r := Text.eq_append_of_after? hr
      simp at heq
    | cons z e =>
      have heq : y :: z :: (e ++ (' ' :: '}' :: '}' :: t)) = '}' :: '}' :: r :=
        Text.eq_append_of_after? hr
      obtain ⟨rfl, rfl, _⟩ : y = '}' ∧ z = '}' ∧ _ := by simpa using heq
      exact ⟨[], e, rfl⟩

/-! ## Texts put together from tokens -/

/-- The characters that mark tokens and expressions. -/
def marks : List Char := ['<', '>', '{', '}', '%']

def Free (t : Text) : Prop := ∀ x ∈ t, x ∉ marks

instance : DecidablePred Free := fun t => List.decidableBAll (· ∉ marks) t

theorem Free.append {t u : Text} (ht : Free t) (hu : Free u) : Free (t ++ u) := by
  intro x hx
  rcases List.mem_append.mp hx with hx | hx
  · exact ht x hx
  · exact hu x hx

theorem Free.cons {x : Char} {t : Text} (hx : x ∉ marks) (ht : Free t) : Free (x :: t) := by
  intro y hy
  rcases List.mem_cons.mp hy with rfl | hy
  · exact hx
  · exact ht y hy

theorem Free.sub {t u : Text} (ht : Free t) (h : ∀ x ∈ u, x ∈ t) : Free u :=
  fun x hx => ht x (h x hx)

theorem Free.not_mem {t : Text} (ht : Free t) {x : Char} (hx : x ∈ marks) : x ∉ t :=
  fun h => ht x h hx

/-- A token that can be told from what stands around it. -/
def Token.Legible : Token → Prop
  | opening body => Free body ∧ ∃ x b, body = x :: b ∧ x ≠ '!' ∧ x ≠ '/'
  | closing name => Free name
  | statement t => Free t
  | conditionOpening c => ']' ∉ c
  | _ => True

/-- A text that is put together from tokens, expressions and characters that are no marks. What
comes after it matters for a comment only, which must not look like a conditional one. -/
inductive Spells (rest : Text) : Text → List Token → Prop
  | nil : Spells rest [] []
  | char {x : Char} {t : Text} {ts : List Token} (hx : x ∉ marks) (h : Spells rest t ts) :
      Spells rest (x :: t) ts
  | token {k : Token} {t : Text} {ts : List Token} (hk : k.Legible)
      (hnext : k = .commentOpening → (t ++ rest).head? ≠ some '[') (h : Spells rest t ts) :
      Spells rest (k.spell ++ t) (k :: ts)
  | expression {e t : Text} {ts : List Token} (he : ¬ ['}', '}'] <:+: e) (h : Spells rest t ts) :
      Spells rest (Content.expressionText e ++ t) ts

theorem spells_free {t rest : Text} (h : Free t) : Spells rest t [] := by
  induction t with
  | nil => exact .nil
  | cons x t ih => exact .char (h x (by simp)) (ih (h.sub (by simp +contextual)))

theorem Spells.append {rest t t' : Text} {ts ts' : List Token} (h : Spells (t' ++ rest) t ts)
    (h' : Spells rest t' ts') : Spells rest (t ++ t') (ts ++ ts') := by
  induction h with
  | nil => exact h'
  | char hx _ ih => exact .char hx ih
  | token hk hnext _ ih =>
    rw [List.append_assoc]
    refine .token hk (fun hc => ?_) ih
    rw [List.append_assoc]
    exact hnext hc
  | expression he _ ih =>
    rw [List.append_assoc]
    exact .expression he ih

/-- An expression alone. -/
theorem spells_expression {e rest : Text} (he : ¬ ['}', '}'] <:+: e) :
    Spells rest (Content.expressionText e) [] := by
  have h : Spells rest (Content.expressionText e ++ []) [] := .expression he .nil
  rwa [List.append_nil] at h

theorem bracket?_plain {x : Char} {t : Text} (hx : x ∉ marks)
    (ht : x = '-' → Text.after? ['-', '>'] t = none) : bracket? (x :: t) = none := by
  simp only [marks, List.mem_cons, List.not_mem_nil, or_false, not_or] at hx
  obtain ⟨hlt, _, hbrace, _, _⟩ := hx
  by_cases hd : x = '-'
  · subst hd
    simp [bracket?, brackets, Bracket.body?, Text.after?, ht rfl]
  · simp [bracket?, brackets, Bracket.body?, Text.after?, Ne.symm hlt, Ne.symm hbrace, Ne.symm hd]

/-- No text that is put together in this way begins with the end of a comment mark. -/
theorem Spells.head_ne {rest t : Text} {ts : List Token} (h : Spells rest t ts) :
    t.head? ≠ some '>' := by
  cases h with
  | nil => nofun
  | char hx _ =>
    rintro ⟨⟩
    exact hx (by decide)
  | @token k _ _ => cases k <;> nofun
  | expression => nofun

theorem Spells.after?_none {rest t : Text} {ts : List Token} (h : Spells rest t ts) :
    Text.after? ['-', '>'] t = none := by
  cases h with
  | nil => rfl
  | @char x t _ _ h =>
    have hhead := h.head_ne
    cases t with
    | nil => simp [Text.after?]
    | cons y t =>
      have hy : '>' ≠ y := fun he => hhead (by rw [he]; rfl)
      simp [Text.after?, hy]
  | @token k _ _ => cases k <;> rfl
  | expression => rfl

theorem scan_token {b : Bracket} {body t : Text} {k : Token} (hb : b.start ≠ [])
    (hk : b.token? body = some k) (hspell : k.spell = b.start ++ (body ++ b.stop))
    (h : bracket? (b.start ++ (body ++ (b.stop ++ t))) = some (b, body)) :
    scan (k.spell ++ t) = k :: scan t := by
  have happ : k.spell ++ t = b.start ++ (body ++ (b.stop ++ t)) := by simp [hspell]
  rw [happ, scan_bracket hb h, hk]
  rfl

/-- A token at the front of a text is the first one that is scanned. -/
theorem scan_spell {k : Token} {t : Text} (hk : k.Legible)
    (hnext : k = .commentOpening → t.head? ≠ some '[') : scan (k.spell ++ t) = k :: scan t := by
  cases k with
  | opening body =>
    obtain ⟨hfree, x, b, rfl, hx, hx'⟩ := hk
    have hup : upTo? ['>'] (x :: (b ++ '>' :: t)) = some (x :: b) :=
      upTo?_append (a := []) (hfree.not_mem (by decide)) (by simp) t
    refine @scan_token ⟨['<'], ['>'], fun b => some (.opening b)⟩ (x :: b) t _ (by simp) rfl rfl ?_
    simp [bracket?, brackets, Bracket.body?, Text.after?, Ne.symm hx, Ne.symm hx', hup]
  | closing name =>
    have hup : upTo? ['>'] (name ++ '>' :: t) = some name :=
      upTo?_append (a := []) (Free.not_mem hk (by decide)) (by simp) t
    refine @scan_token ⟨['<', '/'], ['>'], fun b => some (.closing b)⟩ name t _ (by simp) rfl rfl ?_
    simp [bracket?, brackets, Bracket.body?, Text.after?, hup]
  | statement s =>
    have hup : upTo? [' ', '%', '}'] (s ++ ' ' :: '%' :: '}' :: t) = some s :=
      upTo?_append (a := [' ']) (Free.not_mem hk (by decide)) (by decide) t
    refine @scan_token ⟨['{', '%', ' '], [' ', '%', '}'], fun b => some (.statement b)⟩ s t _
      (by simp) rfl (Content.tagText_eq s) ?_
    simp [bracket?, brackets, Bracket.body?, Text.after?, hup]
  | commentOpening =>
    have hno : Text.after? ['['] t = none := by
      cases t with
      | nil => rfl
      | cons y t =>
        have hy : '[' ≠ y := fun he => hnext rfl (by rw [he]; rfl)
        simp [Text.after?, hy]
    refine @scan_token ⟨['<', '!', '-', '-'], [], fun _ => some .commentOpening⟩ [] t _
      (by simp) rfl rfl ?_
    simp [bracket?, brackets, Bracket.body?, Text.after?, upTo?_nil, hno]
  | commentClosing =>
    refine @scan_token ⟨['-', '-', '>'], [], fun _ => some .commentClosing⟩ [] t _ (by simp) rfl rfl ?_
    simp [bracket?, brackets, Bracket.body?, Text.after?, upTo?_nil]
  | conditionOpening c =>
    have hup : upTo? [']', '>'] (c ++ ']' :: '>' :: t) = some c :=
      upTo?_append (a := []) hk (by simp) t
    refine @scan_token
      ⟨['<', '!', '-', '-', '['], [']', '>'], fun c => some (.conditionOpening c)⟩ c t _
      (by simp) rfl rfl ?_
    simp [bracket?, brackets, Bracket.body?, Text.after?, hup]
  | conditionClosing =>
    refine @scan_token ⟨['<', '!', '[', 'e', 'n', 'd', 'i', 'f', ']', '-', '-', '>'], [],
      fun _ => some .conditionClosing⟩ [] t _ (by simp) rfl rfl ?_
    simp [bracket?, brackets, Bracket.body?, Text.after?, upTo?_nil]

theorem scan_expression {e t : Text} (he : ¬ ['}', '}'] <:+: e) :
    scan (Content.expressionText e ++ t) = scan t := by
  have hup : upTo? ['}', '}'] (' ' :: (e ++ ' ' :: '}' :: '}' :: t)) = some (' ' :: (e ++ [' '])) :=
    upTo?_cons (by simp [Text.after?]) (upTo?_braces he t)
  have happ : Content.expressionText e ++ t =
      ['{', '{'] ++ ((' ' :: (e ++ [' '])) ++ (['}', '}'] ++ t)) := by
    simp [Content.expressionText_eq]
  rw [happ, @scan_bracket ⟨['{', '{'], ['}', '}'], fun _ => none⟩ (' ' :: (e ++ [' '])) t (by simp) ?_]
  · rfl
  · simp [bracket?, brackets, Bracket.body?, Text.after?, hup]

/-- A text that is put together from tokens is scanned to just these. -/
theorem scan_of_spells {t : Text} {ts : List Token} (h : Spells [] t ts) : scan t = ts := by
  induction h with
  | nil => rfl
  | char hx h ih =>
    rw [scan_cons (bracket?_plain hx fun _ => h.after?_none)]
    exact ih
  | token hk hnext _ ih => rw [scan_spell hk (by simpa using hnext), ih]
  | expression he _ ih => rw [scan_expression he, ih]

/-! ## Trimming -/

theorem Token.spell_first (k : Token) : ∃ x u, k.spell = x :: u ∧ Text.isBlank x = false := by
  cases k <;> exact ⟨_, _, rfl, by decide⟩

theorem Token.spell_last (k : Token) : ∃ u y, k.spell = u ++ [y] ∧ Text.isBlank y = false := by
  cases k with
  | opening body => exact ⟨'<' :: body, '>', rfl, by decide⟩
  | closing name => exact ⟨'<' :: '/' :: name, '>', rfl, by decide⟩
  | statement t =>
    refine ⟨'{' :: '%' :: ' ' :: (t ++ [' ', '%']), '}', (Content.tagText_eq t).trans ?_, by decide⟩
    simp
  | commentOpening => exact ⟨['<', '!', '-'], '-', rfl, by decide⟩
  | commentClosing => exact ⟨['-', '-'], '>', rfl, by decide⟩
  | conditionOpening c =>
    refine ⟨'<' :: '!' :: '-' :: '-' :: '[' :: (c ++ [']']), '>', ?_, by decide⟩
    simp [spell]
  | conditionClosing =>
    exact ⟨['<', '!', '[', 'e', 'n', 'd', 'i', 'f', ']', '-', '-'], '>', rfl, by decide⟩

theorem Spells.tokens_nil {rest : Text} {ts : List Token} (h : Spells rest [] ts) : ts = [] := by
  generalize ht : ([] : Text) = t at h
  cases h with
  | nil => rfl
  | char => cases ht
  | @token k =>
    obtain ⟨x, u, hspell, _⟩ := k.spell_first
    simp [hspell] at ht
  | expression => simp [Content.expressionText_eq] at ht

theorem Spells.trimLeft {rest t : Text} {ts : List Token} (h : Spells rest t ts) :
    Spells rest (Text.trimLeft t) ts := by
  induction h with
  | nil => exact .nil
  | @char x t ts hx h ih =>
    by_cases hb : Text.isBlank x
    · rwa [Text.trimLeft, List.dropWhile_cons, if_pos hb]
    · rw [Text.trimLeft, List.dropWhile_cons, if_neg hb]
      exact .char hx h
  | @token k t ts hk hnext h ih =>
    obtain ⟨x, u, hspell, hx⟩ := k.spell_first
    have htrim : Text.trimLeft (k.spell ++ t) = k.spell ++ t := by
      simp [Text.trimLeft, hspell, hx]
    rw [htrim]
    exact .token hk hnext h
  | @expression e t ts he h ih =>
    have htrim : Text.trimLeft (Content.expressionText e ++ t) = Content.expressionText e ++ t := by
      rw [Content.expressionText_eq]
      rfl
    rw [htrim]
    exact .expression he h

/-- Trimming at the end keeps the tokens. It may bring a comment mark up to what comes after. -/
theorem Spells.trimRight {rest t : Text} {ts : List Token} (h : Spells rest t ts)
    (hrest : .commentOpening ∈ ts → rest.head? ≠ some '[') : Spells rest (Text.trimRight t) ts := by
  induction h with
  | nil => exact .nil
  | @char x t ts hx h ih =>
    have ih := ih hrest
    rw [Text.trimRight_cons]
    split
    · next hempty =>
      rw [List.isEmpty_iff.mp hempty] at ih
      have hfree : Free [x] := by simpa [Free] using hx
      rw [ih.tokens_nil]
      exact spells_free (hfree.sub fun _ h => (Text.trimRight_initial [x]).subset h)
    · exact .char hx ih
  | @token k t ts hk hnext h ih =>
    obtain ⟨u, y, hspell, hy⟩ := k.spell_last
    rw [hspell, Text.trimRight_append hy, ← hspell]
    refine .token hk (fun hc => ?_) (ih fun hm => hrest (List.mem_cons_of_mem k hm))
    obtain ⟨blanks, hblanks⟩ := Text.trimRight_initial t
    cases ht : Text.trimRight t with
    | nil => exact hrest (by simp [hc])
    | cons z v =>
      have := hnext hc
      rw [← hblanks, ht] at this
      exact this
  | @expression e t ts he h ih =>
    have hlast : Content.expressionText e = '{' :: '{' :: ' ' :: (e ++ [' ', '}']) ++ ['}'] :=
      (Content.expressionText_eq e).trans (by simp)
    rw [hlast, Text.trimRight_append (by decide), ← hlast]
    exact .expression he (ih hrest)

end Haml
