import Haml.Proofs.Reading.Causes
import Mathlib.Logic.Function.Basic

/-!
How readers use the compiler of block values. They ask it for the values of some texts, one after
another, and go on with each value; a text without a value ends the reading with the failure of that
text. So a reading goes on as before if more texts have values, and a failure that depends on what
the compiler says of a text is the failure of that text. Only the reader of a whole line reports
closing tags; the readers of attributes, elements and filters do not.
-/
namespace Haml

def Failure.IsClosingTag : Failure → Prop
  | .rejected (.closingTag _) _ => True
  | _ => False

namespace Reader

variable {α β : Type}

abbrev Compilers := Text → Except Failure Text

/-- Asks for the value of `u` and goes on with it. -/
def answered (k : Text → Compilers → EStateM.Result Failure Cursor α) (u : Text) (c : Cursor)
    (block : Compilers) : EStateM.Result Failure Cursor α :=
  match block u with
  | .ok html => k html block
  | .error e => .error e c

theorem answered_ok {k : Text → Compilers → EStateM.Result Failure Cursor α} {u html : Text}
    {block : Compilers} (h : block u = .ok html) (c : Cursor) :
    answered k u c block = k html block := by
  rw [answered, h]

theorem answered_error {k : Text → Compilers → EStateM.Result Failure Cursor α} {u : Text}
    {e : Failure} {block : Compilers} (h : block u = .error e) (c : Cursor) :
    answered k u c block = .error e c := by
  rw [answered, h]

/-- Outcomes, one for each compiler of block values, that are found by asking the compiler. Failures
that do not come from the compiler satisfy `P`. -/
inductive Queries (P : Failure → Prop) : (Compilers → EStateM.Result Failure Cursor α) → Prop
  | ok (a : α) (c : Cursor) : Queries P fun _ => .ok a c
  | error {e : Failure} (h : P e) (c : Cursor) : Queries P fun _ => .error e c
  | ask (u : Text) (c : Cursor) {k : Text → Compilers → EStateM.Result Failure Cursor α}
      (h : ∀ html, Queries P (k html)) : Queries P (answered k u c)

variable {P : Failure → Prop} {r : Compilers → EStateM.Result Failure Cursor α}
  {block block' : Compilers} {u : Text} {c : Cursor}

theorem Queries.mono {P' : Failure → Prop} (h : Queries P r) (hP : ∀ e, P e → P' e) :
    Queries P' r := by
  induction h with
  | ok a c => exact .ok a c
  | error h c => exact .error (hP _ h) c
  | ask u c h ih => exact .ask u c ih

/-- A reading that ends with a value does so if more texts have values. -/
theorem Queries.ok_of_le (h : Queries P r) {a : α} (hr : r block = .ok a c)
    (hle : ∀ u html, block u = .ok html → block' u = .ok html) : r block' = .ok a c := by
  induction h with
  | ok a c => exact hr
  | error h c => cases hr
  | ask u c' h ih =>
    cases hu : block u with
    | error e =>
      rw [answered_error hu] at hr
      cases hr
    | ok html =>
      rw [answered_ok hu] at hr
      rw [answered_ok (hle u html hu)]
      exact ih html hr

/-- The outcome changes with what the compiler says of the text `u`. -/
def DependsOn (r : Compilers → EStateM.Result Failure Cursor α) (block : Compilers) (u : Text) :
    Prop :=
  ∃ v, r (Function.update block u v) ≠ r block

/-- A reading that fails, and that would not if the text `u` had a value. -/
theorem dependsOn_of_ok {v : Except Failure Text} {a : α} {e : Failure} {c' : Cursor}
    (hok : r (Function.update block u v) = .ok a c) (herror : r block = .error e c') :
    DependsOn r block u := by
  refine ⟨v, ?_⟩
  rw [hok, herror]
  simp

/-- The failure of a text that matters is the failure of the reading. -/
theorem Queries.error_of_dependsOn (h : Queries P r) (hu : DependsOn r block u) {e : Failure}
    (he : block u = .error e) : ∃ c, r block = .error e c := by
  obtain ⟨v, hv⟩ := hu
  induction h with
  | ok a c => exact absurd rfl hv
  | error h c => exact absurd rfl hv
  | ask w c h ih =>
    by_cases hw : w = u
    · subst hw
      exact ⟨c, answered_error he c⟩
    · cases hb : block w with
      | error e' =>
        rw [answered_error hb, answered_error (by rwa [Function.update_of_ne hw])] at hv
        exact absurd rfl hv
      | ok html =>
        rw [answered_ok hb, answered_ok (by rwa [Function.update_of_ne hw])] at hv
        rw [answered_ok hb]
        exact ih html hv

/-- A failure that does not satisfy `P` is that of a text that matters. -/
theorem Queries.exists_dependsOn (h : Queries P r) {e : Failure} (hr : r block = .error e c) :
    P e ∨ ∃ u, block u = .error e ∧ DependsOn r block u := by
  induction h with
  | ok a c => cases hr
  | error h c' =>
    cases hr
    exact .inl h
  | ask w c' h ih =>
    cases hb : block w with
    | error e' =>
      rw [answered_error hb] at hr
      cases hr
      -- another failure of the same text would be seen
      obtain ⟨e', hne⟩ : ∃ e', e' ≠ e := by
        by_cases he : e = .stalled
        · exact ⟨.pastEnd, by simp [he]⟩
        · exact ⟨.stalled, Ne.symm he⟩
      exact .inr ⟨w, hb, .error e', by simp [answered, hb, hne]⟩
    | ok html =>
      rw [answered_ok hb] at hr
      obtain hown | ⟨u, hu, v, hv⟩ := ih html hr
      · exact .inl hown
      · have hwu : w ≠ u := by
          rintro rfl
          rw [hb] at hu
          cases hu
        refine .inr ⟨u, hu, v, ?_⟩
        rwa [answered_ok hb, answered_ok (by rwa [Function.update_of_ne hwu])]

/-- What an action makes of the outcome of another one before it. -/
def goOn (f : α → Reader β) : EStateM.Result Failure Cursor α → EStateM.Result Failure Cursor β
  | .ok a c => f a c
  | .error e c => .error e c

theorem bind_eq_goOn (x : Reader α) (f : α → Reader β) (c : Cursor) :
    (x >>= f) c = goOn f (x c) := by
  cases h : x c with
  | ok a c' => rw [bind_of_ok h, goOn]
  | error e c' => simp only [Bind.bind, EStateM.bind, h, goOn]

theorem Queries.goOn (h : Queries P r) {f : Compilers → α → Reader β}
    (hf : ∀ a c, Queries P fun block => f block a c) :
    Queries P fun block => Reader.goOn (f block) (r block) := by
  induction h with
  | ok a c => exact hf a c
  | error h c => exact .error h c
  | @ask u c k h ih =>
    have hask : (fun block => Reader.goOn (f block) (answered k u c block)) =
        answered (fun html block => Reader.goOn (f block) (k html block)) u c := by
      funext block
      cases hu : block u with
      | ok html => rw [answered_ok hu, answered_ok hu]
      | error e => rw [answered_error hu, answered_error hu, Reader.goOn]
    rw [hask]
    exact .ask u c ih

/-- One action after another. -/
theorem Queries.bind {x : Compilers → Reader α} {f : Compilers → α → Reader β}
    (hx : Queries P fun block => x block c) (hf : ∀ a c, Queries P fun block => f block a c) :
    Queries P fun block => (x block >>= f block) c := by
  simp only [bind_eq_goOn]
  exact hx.goOn hf

/-! ## Readers that ask -/

/-- A reader that uses the compiler of block values by asking it, and that reports no closing tag of
its own. -/
def Asking (r : Compilers → Reader α) : Prop :=
  ∀ c, Queries (fun e => ¬ e.IsClosingTag) fun block => r block c

variable {x : Compilers → Reader α} {f : Compilers → α → Reader β}

theorem asking_pure (a : α) : Asking fun _ => (pure a : Reader α) := fun c => .ok a c

theorem asking_throw {e : Failure} (h : ¬ e.IsClosingTag) : Asking fun _ => (throw e : Reader α) :=
  fun c => .error h c

theorem Asking.bind (hx : Asking x) (hf : ∀ a, Asking fun block => f block a) :
    Asking fun block => x block >>= f block :=
  fun c => (hx c).bind fun a c => hf a c

theorem Asking.ite {q : Prop} [Decidable q] {x y : Compilers → Reader α} (hx : Asking x)
    (hy : Asking y) : Asking fun block => if q then x block else y block := by
  by_cases h : q
  · simpa [h] using hx
  · simpa [h] using hy

/-- An action that is done under a condition, before another one. -/
theorem Asking.guarded {q : Prop} [Decidable q] {y : Reader β} (hy : Asking fun _ => y)
    (hx : Asking x) : Asking fun block => if q then do let _ ← y; x block else x block :=
  .ite (hy.bind fun _ => hx) hx

/-- A reader that does not use the compiler. -/
theorem asking_const {r : Reader α} (h : ∀ c e c', r c = .error e c' → ¬ e.IsClosingTag) :
    Asking fun _ => r := by
  intro c
  dsimp only
  cases hr : r c with
  | ok a c' => exact .ok a c'
  | error e c' => exact .error (h c e c' hr) c'

theorem asking_stalled : Asking fun _ => (throw .stalled : Reader α) :=
  asking_throw not_false

theorem asking_iterate {σ : Type} {turn : Compilers → σ → Reader (σ ⊕ α)}
    (h : ∀ s, Asking fun block => turn block s) (steps : Text) (s : σ) :
    Asking fun block => iterate (turn block) steps s := by
  induction steps generalizing s with
  | nil => exact asking_stalled
  | cons x steps ih =>
    apply (h s).bind
    intro o
    cases o with
    | inl s' => exact ih s'
    | inr a => exact asking_pure a

theorem asking_gather {turn : Reader (Option α)} (h : Asking fun _ => turn) (acc : List α) :
    Asking fun _ => gather turn acc := by
  apply h.bind
  intro o
  cases o with
  | none => exact asking_pure _
  | some a => exact asking_pure _

/-! ## The lexical readers -/

theorem asking_reject {fault : Fault} (h : ∀ near, ¬ (Failure.rejected fault near).IsClosingTag) :
    Asking fun _ => (reject fault : Reader α) :=
  fun c => .error (h _) c

theorem asking_peek : Asking fun _ => peek := by
  apply asking_const
  intro c e c' h
  unfold peek at h
  split at h
  · cases h
    exact not_false
  · cases h

theorem asking_peek? : Asking fun _ => peek? := by
  apply asking_const
  intro c e c' h
  unfold peek? at h
  split at h
  · split at h
    · cases h
    · cases h
      exact not_false
  · cases h

theorem asking_atEnd : Asking fun _ => atEnd := fun c => .ok c.atEnd c

theorem asking_skip : Asking fun _ => skip := fun c => .ok () c.next

theorem asking_unread : Asking fun _ => unread := fun c => .ok () c.back

theorem asking_allowance : Asking fun _ => allowance := fun c => .ok (' ' :: c.ahead) c

theorem asking_takeWhile (q : Char → Bool) : Asking fun _ => takeWhile q := by
  apply asking_const
  intro c e c' h
  unfold takeWhile at h
  split at h
  · split at h
    · cases h
    · cases h
      exact not_false
  · cases h

theorem asking_indentation : Asking fun _ => indentation := asking_takeWhile _

theorem asking_gap : Asking fun _ => gap := asking_takeWhile _

theorem asking_accept (x : Char) : Asking fun _ => accept x :=
  asking_peek?.bind fun _ => .ite (asking_skip.bind fun _ => asking_pure _) (asking_pure _)

theorem asking_expectInput : Asking fun _ => expectInput :=
  asking_atEnd.bind fun _ => .ite (asking_reject fun _ => not_false) (asking_pure _)

theorem asking_unexpected : Asking fun _ => (unexpected : Reader α) :=
  asking_peek.bind fun _ => asking_reject fun _ => not_false

theorem isClosingTag_margin? {t : Text} {e : Failure} (h : margin? t = .error e) :
    ¬ e.IsClosingTag := by
  induction t with
  | nil =>
    cases h
    exact not_false
  | cons x t ih =>
    rw [margin?] at h
    split at h
    · cases h
    · split at h
      · cases hm : margin? t with
        | ok m =>
          rw [hm] at h
          cases h
        | error e' =>
          rw [hm] at h
          cases h
          exact ih hm
      · cases h

theorem asking_peekMargin : Asking fun _ => peekMargin := by
  apply asking_const
  intro c e c' h
  unfold peekMargin at h
  split at h
  · cases h
  · next hm =>
    cases h
    exact isClosingTag_margin? hm

theorem asking_line : Asking fun _ => line :=
  (asking_takeWhile _).bind fun _ => (asking_accept _).bind fun _ => asking_pure _

theorem asking_line? : Asking fun _ => line? :=
  asking_atEnd.bind fun _ => .ite (asking_pure _) (asking_line.bind fun _ => asking_pure _)

theorem asking_quotedString : Asking fun _ => quotedString := by
  apply asking_const
  intro c e c' h
  unfold quotedString at h
  split at h
  · cases h
    exact not_false
  · split at h
    · split at h
      · cases h
        exact not_false
      · dsimp only at h
        split at h
        · cases h
          exact not_false
        · split at h <;> cases h
          exact not_false
    · cases h
      exact not_false

theorem asking_number : Asking fun _ => number :=
  (asking_takeWhile _).bind fun _ => asking_peek.bind fun _ => asking_pure _

theorem asking_symbol (symbols : List Text) : Asking fun _ => symbol symbols := by
  apply asking_const
  intro c e c' h
  unfold symbol at h
  split at h
  · cases h
  · cases h
    exact not_false

theorem asking_word (extra : Char → Bool) : Asking fun _ => word extra :=
  asking_expectInput.bind fun _ => asking_peek.bind fun _ =>
    .ite (asking_takeWhile _) (asking_reject fun _ => not_false)

end Reader

namespace Attribute

open Reader

variable {s : Settings}

theorem asking_scalar : Asking fun _ => scalar s :=
  asking_peek.bind fun _ => .ite (asking_quotedString.bind fun _ => asking_pure _)
    (.ite (asking_number.bind fun _ => asking_pure _)
      ((asking_word _).bind fun _ => asking_pure _))

theorem asking_itemTurn (close : Char) : Asking fun _ => itemTurn s close := by
  refine asking_indentation.bind fun _ => asking_peek.bind fun _ => .ite (asking_pure _) ?_
  refine asking_scalar.bind fun v => asking_indentation.bind fun _ => asking_peek.bind fun _ => ?_
  exact (asking_symbol _).guarded (asking_pure _)

theorem asking_items (close : Char) (steps : Text) : Asking fun _ => items s close steps := by
  rw [items_eq]
  exact asking_iterate (fun acc => asking_gather (asking_itemTurn close) acc) steps []

theorem asking_list : Asking fun _ => list s := by
  refine asking_peek.bind fun _ => .ite ?_ (asking_throw not_false)
  refine asking_skip.bind fun _ => asking_allowance.bind fun steps => ?_
  exact (asking_items _ steps).bind fun _ => asking_skip.bind fun _ => asking_pure _

theorem asking_blockLine :
    Asking fun _ => (do return some (blankToEmpty (← Reader.line)) : Reader (Option Text)) :=
  asking_line.bind fun _ => asking_pure _

theorem asking_blockTurn (margin : Option Nat) : Asking fun _ => blockTurn margin := by
  refine asking_atEnd.bind fun _ => .ite (asking_pure _) (asking_peekMargin.bind fun m => ?_)
  cases m with
  | none => exact asking_blockLine
  | some m =>
    cases margin with
    | none => exact asking_throw not_false
    | some least => exact .ite (asking_pure _) asking_blockLine

theorem asking_blockLines (margin : Option Nat) (steps : Text) :
    Asking fun _ => blockLines margin steps := by
  rw [blockLines_eq]
  exact asking_iterate (fun acc => asking_gather (asking_blockTurn margin) acc) steps []

/-- The one place where the compiler is asked. -/
theorem asking_blockValue : Asking blockValue := by
  refine asking_peekMargin.bind fun m => asking_allowance.bind fun steps => ?_
  refine (asking_blockLines m steps).bind fun ls => asking_unread.bind fun _ c => ?_
  have hask : Queries (fun e => ¬ e.IsClosingTag)
      (answered (fun html _ => .ok (flatten html) c) (Text.unlines ls) c) :=
    .ask _ c fun html => .ok _ c
  apply cast _ hask
  congr 1
  funext block
  dsimp only
  cases hu : block (Text.unlines ls) with
  | ok html =>
    rw [answered_ok hu]
    rfl
  | error e =>
    rw [answered_error hu]
    rfl

theorem asking_assigned (opens : Char → Bool) : Asking fun block => assigned s block opens := by
  refine asking_indentation.bind fun _ => asking_expectInput.bind fun _ => ?_
  apply asking_peek.bind
  intro x
  refine .ite ?_ (.ite (asking_list.bind fun _ => asking_pure _)
    (asking_scalar.bind fun _ => asking_pure _))
  exact asking_skip.bind fun _ => asking_blockValue.bind fun _ => asking_pure _

theorem asking_bareKey : Asking fun _ => bareKey := by
  refine asking_peek.bind fun _ => .ite ?_ (asking_word _)
  apply asking_quotedString.bind
  intro key
  exact .guarded (asking_reject fun _ => not_false) (asking_pure _)

theorem asking_bracedEntry : Asking (bracedEntry s) := by
  have hafter (x : Char) (key : Text) : Asking fun block => (do
      let _ ← Reader.indentation
      let c ← Reader.peek
      if c = '=' ∨ c = ':' then
        let _ ← Reader.symbol [if x = ':' then ['=', '>'] else [':']]
        return (key, ← assigned s block fun c => c == '(' || c == '[')
      else
        return (key, .one (.flag true)) : Reader (Text × Value)) := by
    refine asking_indentation.bind fun _ => asking_peek.bind fun _ => .ite ?_ (asking_pure _)
    exact (asking_symbol _).bind fun _ => (asking_assigned _).bind fun _ => asking_pure _
  refine asking_peek.bind fun x => .ite ?_ (asking_bareKey.bind fun key => hafter x key)
  exact asking_skip.bind fun _ => (asking_word _).bind fun key => hafter x key

theorem asking_parenEntry : Asking (parenEntry s) := by
  refine (asking_word _).bind fun key => asking_peek.bind fun _ => asking_unexpected.guarded ?_
  refine asking_indentation.bind fun _ => asking_peek.bind fun _ => .ite ?_ (asking_pure _)
  exact (asking_symbol _).bind fun _ => (asking_assigned _).bind fun _ => asking_pure _

theorem asking_record (d : Attributes) (entry : Text × Value) : Asking fun _ => record d entry :=
  Asking.guarded (asking_reject fun _ => not_false) (asking_pure _)

theorem asking_recordTurn {entry : Compilers → Reader (Text × Value)} {close : Char}
    {separate : Attributes → Char → Reader (Attributes ⊕ Attributes)} (hentry : Asking entry)
    (hseparate : ∀ d x, Asking fun _ => separate d x) (d : Attributes) :
    Asking fun block => recordTurn (entry block) close separate d := by
  refine asking_gap.bind fun _ => asking_atEnd.bind fun _ =>
    .guarded (asking_reject fun _ => not_false) ?_
  refine asking_peek.bind fun _ => .ite (asking_skip.bind fun _ => asking_pure _) ?_
  refine hentry.bind fun e => (asking_record d e).bind fun d => asking_indentation.bind fun _ => ?_
  exact asking_peek.bind fun x => hseparate d x

theorem asking_parenTurn (d : Attributes) : Asking fun block => parenTurn s block d := by
  have hseparate (d : Attributes) (x : Char) : Asking fun _ => (do
      if x = ',' then Reader.reject (.unexpected ',')
      return .inl d : Reader (Attributes ⊕ Attributes)) :=
    Asking.guarded (asking_reject fun _ => not_false) (asking_pure _)
  exact asking_recordTurn asking_parenEntry hseparate d

theorem asking_bracedTurn (d : Attributes) : Asking fun block => bracedTurn s block d := by
  have hseparate (d : Attributes) (x : Char) : Asking fun _ => (do
      if x ≠ '\x7d' ∧ x ≠ '\n' then
        let _ ← Reader.symbol [[',']]
      return .inl d : Reader (Attributes ⊕ Attributes)) :=
    (asking_symbol _).guarded (asking_pure _)
  exact asking_recordTurn asking_bracedEntry hseparate d

theorem asking_dictionary : Asking (dictionary s) := by
  refine asking_peek.bind fun _ => .ite ?_ (.ite ?_ (asking_throw not_false))
  · simp only [parenEntries_eq]
    refine asking_skip.bind fun _ => asking_allowance.bind fun steps => ?_
    exact asking_iterate asking_parenTurn steps []
  · simp only [bracedEntries_eq]
    refine asking_skip.bind fun _ => asking_allowance.bind fun steps => ?_
    exact asking_iterate asking_bracedTurn steps []

end Attribute

namespace Element

open Reader

variable {s : Settings}

theorem asking_tagName : Asking fun _ => tagName := by
  refine (asking_word _).bind fun _ => (asking_accept _).bind fun _ => .ite ?_ (asking_pure _)
  exact (asking_word _).bind fun _ => asking_pure _

theorem asking_shortcutTurn (r : Option Text × List Scalar) : Asking fun _ => shortcutTurn r := by
  refine (asking_accept _).bind fun _ => .ite ((asking_word _).bind fun _ => asking_pure _) ?_
  refine (asking_accept _).bind fun _ => .ite ?_ (asking_pure _)
  exact (asking_word _).bind fun _ => asking_pure _

theorem asking_shortcuts (steps : Text) (id : Option Text) (classes : List Scalar) :
    Asking fun _ => shortcuts steps id classes := by
  rw [shortcuts_eq]
  exact asking_iterate asking_shortcutTurn steps (id, classes)

theorem asking_dictionaryTurn (d : Attributes) : Asking fun block => dictionaryTurn s block d := by
  apply asking_peek?.bind
  intro o
  split
  · exact Attribute.asking_dictionary.bind fun _ => asking_pure _
  · exact Attribute.asking_dictionary.bind fun _ => asking_pure _
  · exact asking_pure _

theorem asking_isBarePoint : Asking fun _ => isBarePoint := by
  apply asking_const
  intro c e c' h
  unfold isBarePoint at h
  split at h <;> cases h
  all_goals exact not_false

theorem asking_opening : Asking fun _ => opening := by
  refine asking_peek.bind fun _ => .ite ?_ (.ite ?_ (.ite (asking_pure _) ?_))
  · exact asking_skip.bind fun _ => asking_tagName.bind fun _ => asking_pure _
  · refine asking_isBarePoint.bind fun _ => .ite ?_ (asking_pure _)
    exact asking_skip.bind fun _ => asking_pure _
  · exact asking_throw not_false

/-- The dictionaries of an element and what is read after them. -/
theorem asking_dictionaries {f : Attributes → Reader Element} (hf : ∀ d, Asking fun _ => f d) :
    Asking fun block => (do f (← dictionaries s block (← Reader.allowance) [])) := by
  simp only [dictionaries_eq]
  apply asking_allowance.bind
  intro steps
  exact (asking_iterate asking_dictionaryTurn steps []).bind hf

theorem asking_element : Asking (element s) := by
  apply asking_opening.bind
  intro r
  obtain ⟨tag, hasShortcuts⟩ := r
  -- what follows the shortcuts is the same with and without them
  have hafter {f : Option Text × List Scalar → Compilers → Reader Element}
      (hf : ∀ r, Asking (f r)) : Asking fun block =>
        if hasShortcuts = true then do f (← shortcuts (← Reader.allowance) none []) block
        else f (none, []) block := by
    apply Asking.ite _ (hf _)
    apply asking_allowance.bind
    intro steps
    exact (asking_shortcuts steps none []).bind hf
  apply hafter
  intro r
  apply asking_dictionaries
  intro attributes
  refine (asking_accept _).bind fun _ => (asking_accept _).bind fun _ => ?_
  refine (asking_accept _).bind fun _ => (asking_accept _).bind fun _ => ?_
  apply asking_line?.bind
  intro inline
  cases hbuild : build tag r.1 r.2 attributes with
  | error e =>
    apply asking_throw
    rw [(build_error hbuild).1]
    exact not_false
  | ok e => exact asking_pure _

end Element

namespace Node

open Reader

variable {p : Profile}

theorem asking_deeperTurn (depth : Nat) : Asking fun _ => deeperTurn depth := by
  refine asking_atEnd.bind fun _ => .ite (asking_pure _) (asking_peekMargin.bind fun m => ?_)
  cases m with
  | none => exact Attribute.asking_blockLine
  | some m => exact .ite (asking_pure _) Attribute.asking_blockLine

theorem asking_deeperLines (depth : Nat) (steps : Text) :
    Asking fun _ => deeperLines depth steps := by
  rw [deeperLines_eq]
  exact asking_iterate (fun acc => asking_gather (asking_deeperTurn depth) acc) steps []

theorem asking_filterNode (indent : Text) : Asking fun _ => filterNode indent := by
  refine asking_peek.bind fun _ => .guarded (asking_throw not_false) ?_
  refine asking_skip.bind fun _ => asking_line?.bind fun name => ?_
  apply asking_allowance.bind
  intro steps
  apply (asking_deeperLines _ steps).bind
  intro body
  cases name with
  | none => exact asking_throw not_false
  | some name => exact asking_pure _

end Node

end Haml
