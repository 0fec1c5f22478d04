import Haml.Proofs.Reading.Nodes

/-!
Compilation comes to an end. No loop uses up its allowance, because every turn that goes on leaves
less to be read; no nesting of block values uses up its depth, because the text of a block value is
shorter than the text that it stands in. So compilation is the recursion that it is meant to be: the
nodes are read with compilation itself for block values, and then written.
-/
namespace Haml

namespace Filter

theorem settled_mapError_failure (r : Except ProgramError Text) :
    Settled (r.mapError ProgramError.failure) := by
  cases r with
  | ok t => exact settled_ok t
  | error e => cases e <;> exact settled_error nofun

theorem settled_apply (f : Filter) (fs : Filters) (s : Settings) (t : Text) :
    Settled (f.apply fs s t) := by
  cases f with
  | program => exact settled_ite (settled_ok _) (settled_mapError_failure _)
  | markdown => exact settled_ite (settled_ok _) (settled_error nofun)
  | highlight => exact settled_ite (settled_ok _) (settled_error nofun)
  | _ => exact settled_ok _

end Filter

theorem Filters.settled_find (fs : Filters) (name : Text) : Settled (fs.find name) := by
  unfold find
  split
  · exact settled_ok _
  · exact settled_error nofun

namespace Element

theorem settled_renderEntry (s : Settings) (name : Text) (value : Value) :
    Settled (renderEntry s name value) := by
  unfold renderEntry
  split
  · exact settled_ok none
  · split
    any_goals exact settled_ok _
    exact ((settled_texts _).bind fun _ _ => settled_ok _).bind fun _ _ => settled_ok _

theorem settled_renderAttributes (e : Element) (s : Settings) : Settled (e.renderAttributes s) := by
  unfold renderAttributes
  refine (settled_mapM (fun a : Text × Value => settled_renderEntry s a.1 a.2) _).bind
    fun entries _ => ?_
  dsimp only
  split
  · exact settled_ok _
  · exact (settled_texts _).bind fun _ _ => settled_ok _

end Element

theorem Content.settled_faces (p : Profile) (indent breaks : Text) (content : Content)
    (hasChildren : Bool) : Settled (content.faces p indent breaks hasChildren) := by
  cases content with
  | element e =>
    refine Settled.bind ?_ fun _ _ => settled_ok _
    exact (e.settled_renderAttributes p.settings).bind fun _ _ => settled_ok _
  | conditional line =>
    unfold faces
    dsimp only
    split
    · exact settled_error nofun
    · exact settled_ok _
  | filter name body =>
    refine (p.filters.settled_find name).bind fun f _ => ?_
    exact (f.settled_apply p.filters p.settings _).bind fun _ _ => settled_ok _
  | _ => exact settled_ok _

theorem Forest.settled_write (p : Profile) (f : Forest Node) : Settled (f.write p) := by
  induction f with
  | nil => exact settled_ok nil
  | cons n below others ihBelow ihOthers =>
    refine (Content.settled_faces p _ _ _ _).bind fun faces _ => ?_
    dsimp only
    split
    · exact ihBelow.bind fun _ _ => ihOthers.bind fun _ _ => settled_ok _
    · exact ihOthers.bind fun _ _ => settled_ok _

theorem settled_finish (p : Profile) (f : Forest Node) : Settled (finish p f) :=
  settled_ite (settled_ok _) (((f.settled_write p).map _).map _)

/-- Profiles that take lines for the same contents, and that write the forests of such contents
alike, compile every text alike, at every depth above its length. -/
theorem compileAt_alike {p p' : Profile} (S : Node.SameLines p p')
    (hfinish : ∀ nodes : List Node, (∀ n ∈ nodes, Node.Read p n) →
      finish p' (Forest.ofNodes p'.tags nodes) = finish p (Forest.ofNodes p.tags nodes))
    (depth depth' : Nat) (t : Text) (h : t.length < depth) (h' : t.length < depth') :
    compileAt p' depth' t = compileAt p depth t ∧ Settled (compileAt p depth t) := by
  induction depth generalizing depth' t with
  | zero => simp at h
  | succ depth ih =>
    cases depth' with
    | zero => simp at h'
    | succ depth' =>
      have B : Blocks t.length (· ≠ .stalled) (compileAt p depth) (compileAt p' depth') :=
        { failures := fun _ he => he
          agree := fun u hu => (ih depth' u (by omega) (by omega)).1
          failed := fun u e hu he => (ih depth' u (by omega) (by omega)).2.ne_stalled he }
      obtain ⟨heq, hout⟩ := readNodes_alike S B
      simp only [compileAt, heq]
      cases hr : readNodes p (compileAt p depth) t with
      | error e =>
        rw [hr] at hout
        exact ⟨rfl, settled_error hout⟩
      | ok nodes =>
        rw [hr] at hout
        exact ⟨hfinish nodes hout, settled_finish p _⟩

theorem compileAt_eq (p : Profile) {depth : Nat} {t : Text} (h : t.length < depth) :
    compileAt p depth t = compile p t :=
  (compileAt_alike (.refl p) (fun _ _ => rfl) (t.length + 1) depth t (by omega) h).1

theorem settled_compile (p : Profile) (t : Text) : Settled (compile p t) :=
  (compileAt_alike (.refl p) (fun _ _ => rfl) (t.length + 1) (t.length + 1) t (by omega)
    (by omega)).2

/-- The nodes of a template depend on block values through texts shorter than the template. -/
theorem readNodes_congr (p : Profile) {block block' : Text → Except Failure Text} {t : Text}
    (h : ∀ u, u.length < t.length → block' u = block u) :
    readNodes p block' t = readNodes p block t :=
  (readNodes_alike (E := fun _ => True) (.refl p)
    ⟨fun _ _ => trivial, h, fun _ _ _ _ => trivial⟩).1

/-- Compilation is reading, with compilation for the block values, and then writing. -/
theorem compile_eq (p : Profile) (t : Text) : compile p t = parse p t >>= finish p := by
  have hread : readNodes p (compileAt p t.length) t = readNodes p (compile p) t :=
    readNodes_congr p fun u hu => compileAt_eq p hu
  simp only [compile, compileAt, parse, hread, bind_assoc, pure_bind]

namespace Reader

variable {α σ : Type}

/-- A loop repeats a turn from a state on, and a turn that goes on passes over something. -/
structure Runs (turn : σ → Reader (σ ⊕ α)) (s : σ) (loop : Text → Reader α) : Prop where
  repeats : ∀ steps, loop steps = iterate turn steps s
  advances : Advances turn

theorem advances_gather {turn : Reader (Option α)} {Q : Cursor → Option α → Cursor → Prop}
    (hturn : ∀ c, c.Within → Alike c (fun _ => True) (Q c) (turn c) (turn c))
    (hlt : ∀ c a c', Q c (some a) c' → c'.rest.length < c.rest.length) :
    Advances (gather turn) := by
  refine advances_of_alike (I := fun _ _ _ _ => True) (Q := fun _ _ _ _ => True)
    fun acc c hc => gather_alike ((hturn c hc).mono fun o c' _ ho => ?_)
  cases o with
  | none => trivial
  | some a => exact ⟨hlt c a c' ho, trivial⟩

end Reader

theorem Blocks.self (n : Nat) (block : Text → Except Failure Text) :
    Blocks n (fun _ => True) block block :=
  ⟨fun _ _ => trivial, fun _ _ => rfl, fun _ _ _ _ => trivial⟩

/-- How the readers of templates proceed. A node that was read has been passed over, and every loop
passes over something in each turn that goes on. Only a block value ends with a step back, which
does not lead before its start. -/
structure Progress (p : Profile) (block : Text → Except Failure Text) : Prop where
  next : ∀ c blanks n c', c.Within → Node.next p block c = .ok (blanks, some n) c' →
    c.Moves c' ∧ c.position < c'.position
  blockValue : ∀ c v c', c.Within → c.passed ≠ [] → Attribute.blockValue block c = .ok v c' →
    c.Moves c'
  nodes : ∀ read, Reader.Runs (Node.nodeTurn p block) read (Node.all p block · read)
  blankLines : ∀ n, Reader.Runs Node.blankTurn n (Node.blankLines · n)
  deeperLines : ∀ depth,
    Reader.Runs (Reader.gather (Node.deeperTurn depth)) [] (Node.deeperLines depth)
  shortcuts : ∀ r, Reader.Runs Element.shortcutTurn r (Element.shortcuts · r.1 r.2)
  dictionaries : ∀ d, Reader.Runs (Element.dictionaryTurn p.settings block) d
    (Element.dictionaries p.settings block · d)
  parenEntries : ∀ d, Reader.Runs (Attribute.parenTurn p.settings block) d
    (Attribute.parenEntries p.settings block · d)
  bracedEntries : ∀ d, Reader.Runs (Attribute.bracedTurn p.settings block) d
    (Attribute.bracedEntries p.settings block · d)
  items : ∀ close, Reader.Runs (Reader.gather (Attribute.itemTurn p.settings close)) []
    (Attribute.items p.settings close)
  blockLines : ∀ margin,
    Reader.Runs (Reader.gather (Attribute.blockTurn margin)) [] (Attribute.blockLines margin)

theorem progress (p : Profile) (block : Text → Except Failure Text) : Progress p block where
  next c blanks n c' hc h := by
    obtain ⟨_, hout⟩ := Node.next_alike (.refl p) hc (.self c.text.length block)
    rw [h] at hout
    exact ⟨hout.1, hout.1.position_lt hc (hout.2.1 n rfl).1⟩
  blockValue c v c' hc hp h := by
    have hshort : c.rest.length < c.text.length := by
      have := List.length_pos_iff.mpr hp
      simp only [Cursor.text, List.length_append, List.length_reverse]
      omega
    obtain ⟨_, hout⟩ := Attribute.blockValue_alike hc hshort (.self c.text.length block)
    rw [h] at hout
    exact hout.1
  nodes read :=
    ⟨fun steps => Node.all_eq p block steps read,
      Reader.advances_of_alike fun r _ hc => Node.nodeTurn_alike (.refl p) r hc (.self _ block)⟩
  blankLines n :=
    ⟨fun steps => Node.blankLines_eq steps n,
      Reader.advances_of_alike fun n _ hc => Node.blankTurn_alike n (.refl hc)⟩
  deeperLines depth :=
    ⟨Node.deeperLines_eq depth,
      Reader.advances_gather
        (fun _ hc => Node.deeperTurn_alike (fun _ _ => trivial) depth (.refl hc))
        fun _ _ _ h => h.length_lt⟩
  shortcuts r :=
    ⟨fun steps => Element.shortcuts_eq steps r.1 r.2,
      Reader.advances_of_alike fun r _ hc =>
        Element.shortcutTurn_alike (fun _ _ => trivial) r (.refl hc)⟩
  dictionaries d :=
    ⟨fun steps => Element.dictionaries_eq p.settings block steps d,
      Reader.advances_of_alike fun d _ hc => Element.dictionaryTurn_alike d hc (.self _ block)⟩
  parenEntries d :=
    ⟨fun steps => Attribute.parenEntries_eq p.settings block steps d,
      Reader.advances_of_alike fun d _ hc => Attribute.parenTurn_alike d hc (.self _ block)⟩
  bracedEntries d :=
    ⟨fun steps => Attribute.bracedEntries_eq p.settings block steps d,
      Reader.advances_of_alike fun d _ hc => Attribute.bracedTurn_alike d hc (.self _ block)⟩
  items close :=
    ⟨Attribute.items_eq p.settings close,
      Reader.advances_gather
        (fun _ hc => Attribute.itemTurn_alike (fun _ _ => trivial) close (.refl hc))
        fun _ _ _ h => h⟩
  blockLines margin :=
    ⟨Attribute.blockLines_eq margin,
      Reader.advances_gather
        (fun _ hc => Attribute.blockTurn_alike (fun _ _ => trivial) margin (.refl hc))
        fun _ _ _ h => h.length_lt⟩

/-- Compilation ends with a result or with a failure that has a cause in the template. It is the
recursion that reads the nodes, with compilation itself for the block values, and writes them. The
block values of a template are shorter texts, and all its readers make progress. -/
theorem compile_terminates (p : Profile) (t : Text) :
    compile p t ≠ .error .stalled ∧
    compile p t = parse p t >>= finish p ∧
    (∀ block block' : Text → Except Failure Text,
      (∀ u, u.length < t.length → block' u = block u) →
        readNodes p block' t = readNodes p block t) ∧
    ∀ block, Progress p block :=
  ⟨settled_compile p t, compile_eq p t, fun _ _ h => readNodes_congr p h, progress p⟩

/-- A template whose first node has a block value. -/
theorem compile_terminates_block :
    compile {} "%a(b=\n =c\n)".toList ≠ .error .stalled ∧
    ∃ n c', Node.next {} (compile {}) (.ofText "%a(b=\n =c\n)".toList) = .ok (0, some n) c' ∧
      0 < c'.position := by
  obtain ⟨hend, _, _, hprogress⟩ := compile_terminates {} "%a(b=\n =c\n)".toList
  refine ⟨hend, _, _, rfl, ?_⟩
  exact ((hprogress (compile {})).next (.ofText "%a(b=\n =c\n)".toList) 0 _ _ ⟨rfl, rfl⟩ rfl).2

end Haml
