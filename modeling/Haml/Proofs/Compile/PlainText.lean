import Haml.Proofs.Compile.Comments
import Haml.Proofs.Markup.Nesting
import Haml.Proofs.Text.Lines
import Haml.Proofs.Text.Variables

/-!
Plain text. `Text.echo` says line by line what is kept of a text whose lines are all plain text. The
nodes of such a text are its lines, with the blank lines counted on them; whatever forest they are
put into, they are written in their order, so the markup is the echo of the text.
-/
namespace Haml

namespace Text

def unescaped : Text → Text
  | '\\' :: t => t
  | t => t

/-- What is kept of a line: as many copies of the first character of its indentation as that is
long, and the rest without blanks at its end and without a backslash at its start. Nothing is kept
of a blank line. -/
def echoLine (l : Text) : Text :=
  if l.all isIndent then []
  else
    let indent := l.takeWhile isIndent
    indent.map (fun _ => indent.headD ' ') ++ unescaped (trimRight (l.dropWhile isIndent))

/-- Lines as they are kept, a line end after each. No line end follows the last one if it is blank,
since it has none in the text. -/
def echoLines : List Text → Text
  | [] => []
  | [l] => if l.all isIndent then [] else echoLine l ++ ['\n']
  | l :: ls => echoLine l ++ '\n' :: echoLines ls

/-- What is kept of a text, the blank lines at its start left out. -/
def echo (t : Text) : Text := echoLines (t.lines.dropWhile (·.all isIndent))

/-- The line is blank or what stands on it is no mark of another kind of line. -/
def StartsPlain (l : Text) : Prop :=
  ∀ x, (l.dropWhile isIndent).head? = some x → x ∉ "%#.:/!=-".toList

end Text

namespace Content

def IsPlain (p : Profile) (content : Content) : Prop :=
  ∃ l, content = .plain l ∧ InlineVariable.Unmarked p.inlineEquals l

end Content

/-! ## Writing -/

namespace Node

def lineText (n : Node) : Text :=
  match n.content with
  | .plain l => n.indent ++ Text.unescaped l ++ n.breaks
  | _ => []

theorem faces_plain {p : Profile} {n : Node} (h : n.content.IsPlain p) (hasChildren : Bool) :
    ∃ f, n.faces p hasChildren = .ok f ∧ f.before.getD [] ++ f.after.getD [] = n.lineText ∧
      (hasChildren = true → f.after = none) := by
  obtain ⟨l, hl, hmarks⟩ := h
  have hplain : Content.plainText p l = Text.unescaped l := by
    rw [Content.plainText, InlineVariable.replace_eq hmarks]
    rfl
  rw [faces, lineText, hl]
  cases hasChildren with
  | true => exact ⟨_, rfl, by simp [hplain], fun _ => rfl⟩
  | false => exact ⟨_, rfl, by simp [hplain], by simp⟩

end Node

namespace Forest

theorem firstTrims_eq_false {f : Forest Written}
    (h : ∀ w ∈ f.toList, w.node.content.trimsOuter = false) : f.firstTrims = false := by
  cases f with
  | nil => rfl
  | cons w below others => exact h w (by simp)

theorem lastTrims_eq_false {f : Forest Written}
    (h : ∀ w ∈ f.toList, w.node.content.trimsOuter = false) : f.lastTrims = false := by
  induction f with
  | nil => rfl
  | cons w below others _ iho =>
    cases others with
    | nil => exact h w (by simp)
    | cons v below' others' =>
      exact iho fun u hu => h u (List.mem_cons_of_mem _ (List.mem_append_right _ hu))

/-- Nothing is trimmed where no node has a flag. -/
theorem trim_eq_self {f : Forest Written}
    (h : ∀ w ∈ f.toList, w.node.content.trimsInner = false ∧ w.node.content.trimsOuter = false) :
    f.trim false false = f := by
  induction f with
  | nil => rfl
  | cons w below others ihb iho =>
    obtain ⟨hinner, houter⟩ := h w (by simp)
    have hbelow := ihb fun v hv => h v (by simp [hv])
    have hothers := iho fun v hv => h v (by simp [hv])
    have hfirst : below.firstTrims = false := firstTrims_eq_false fun v hv => (h v (by simp [hv])).2
    have hlast : below.lastTrims = false := lastTrims_eq_false fun v hv => (h v (by simp [hv])).2
    have hnext : others.firstTrims = false := firstTrims_eq_false fun v hv => (h v (by simp [hv])).2
    have happly : (trims false false w below others).apply w = w := by
      cases hheeded : w.node.content.trimsChildren with
      | true => simp [trims, Trims.apply, trimEnds, hinner, houter, hfirst, hlast, hnext, hheeded]
      | false =>
        have hnil : (nil : Forest Written).firstTrims = false ∧
            (nil : Forest Written).lastTrims = false := ⟨rfl, rfl⟩
        simp [trims, Trims.apply, trimEnds, hinner, houter, hnil, hnext, hheeded]
    rw [trim, happly, hinner, houter, hbelow, hothers, ite_self]

/-- Lines of plain text are given their texts, which are one after another however the lines are
nested. -/
theorem write_plain {p : Profile} {f : Forest Node} (h : ∀ n ∈ f.toList, n.content.IsPlain p) :
    ∃ w, f.write p = .ok w ∧ w.html = f.toList.flatMap Node.lineText ∧
      ∀ v ∈ w.toList, v.node.content.IsPlain p := by
  induction f with
  | nil => exact ⟨nil, rfl, rfl, by simp⟩
  | cons n below others ihb iho =>
    obtain ⟨faces, hfaces, htext, hafter⟩ := Node.faces_plain (h n (by simp)) (!below.isEmpty)
    obtain ⟨lower, hlower, hhtml, hlowerPlain⟩ := ihb fun m hm => h m (by simp [hm])
    obtain ⟨rest, hrest, hrestHtml, hrestPlain⟩ := iho fun m hm => h m (by simp [hm])
    have hshows : n.content.showsChildren = true := by
      obtain ⟨l, hl, -⟩ := h n (by simp)
      rw [hl]
      rfl
    refine ⟨cons ⟨n, faces.before.getD [], faces.after.getD []⟩ lower rest, ?_, ?_, ?_⟩
    · rw [write, hfaces, hshows, hrest]
      simp only [if_true, hlower]
      rfl
    · rw [html_cons, hhtml, hrestHtml, toList_cons, List.flatMap_cons, List.flatMap_append, ← htext]
      cases below with
      | nil => simp
      | cons m below' others' => simp [hafter rfl]
    · intro v hv
      rw [toList_cons, List.mem_cons, List.mem_append] at hv
      rcases hv with rfl | hv | hv
      · exact h n (by simp)
      · exact hlowerPlain v hv
      · exact hrestPlain v hv

theorem render_plain {p : Profile} {f : Forest Node} (h : ∀ n ∈ f.toList, n.content.IsPlain p) :
    f.render p = .ok (f.toList.flatMap Node.lineText) := by
  obtain ⟨w, hw, hhtml, hplain⟩ := write_plain h
  have htrim : w.trim false false = w := by
    refine trim_eq_self fun v hv => ?_
    obtain ⟨l, hl, -⟩ := hplain v hv
    simp [hl, Content.trimsInner, Content.trimsOuter]
  rw [render, written, hw, ← hhtml]
  exact congrArg (fun w => Except.ok w.html) htrim

end Forest

/-! ## Reading -/

namespace Node

open Reader

variable {p : Profile} {block : Text → Except Failure Text}

theorem lineText_addNewlines {read : List Node} (hne : read ≠ [])
    (h : ∀ n ∈ read, n.content.IsPlain p) :
    (addNewlines 1 read).reverse.flatMap lineText = read.reverse.flatMap lineText ++ ['\n'] := by
  obtain ⟨n, read, rfl⟩ := List.exists_cons_of_ne_nil hne
  obtain ⟨l, hl, -⟩ := h n (by simp)
  have hone : lineText { n with newlines := n.newlines + 1 } = lineText n ++ ['\n'] := by
    simp [lineText, hl, breaks, List.replicate_succ']
  simp [addNewlines, hone]

theorem isPlain_addNewlines {k : Nat} {read : List Node} (h : ∀ n ∈ read, n.content.IsPlain p) :
    ∀ n ∈ addNewlines k read, n.content.IsPlain p := by
  cases read with
  | nil => exact h
  | cons m read => exact List.forall_mem_cons.mpr (List.forall_mem_cons.mp h)

/-- A line that is plain text is read as such. -/
theorem ofLine_plain {x : Char} {v : Text} (hx : x ∉ "%#.:/!=-".toList)
    (hmarks : InlineVariable.Unmarked p.inlineEquals (x :: v)) :
    ofLine p (x :: v) = .ok (.plain (Text.trimRight (x :: v))) := by
  have hmark : ∀ {y : Char} {u : Text}, x :: v = y :: u → y ∉ "%#.:/!=-".toList := by
    intro y u h
    rwa [← (List.cons.inj h).1]
  unfold ofLine
  rw [InlineVariable.start?_eq_none hmarks, if_neg (by simp)]
  split
  · rfl
  · next h => exact absurd (by decide) (hmark h)
  · next h => exact absurd (by decide) (hmark h)
  · next h => exact absurd (by decide) (hmark h)
  · next h => exact absurd (by decide) (hmark h)
  · next h => exact absurd (by decide) (hmark h)
  · next h => exact absurd (by decide) (hmark h)
  · rfl

theorem uniform_eq (b : Text) : uniform b = b.map fun _ => b.headD ' ' := by
  cases b with
  | nil => rfl
  | cons x b => simp [uniform, List.replicate_succ]

theorem echoLine_eq {l : Text} (h : l.all Text.isIndent = false) :
    Text.echoLine l = uniform (l.takeWhile Text.isIndent) ++
      Text.unescaped (Text.trimRight (l.dropWhile Text.isIndent)) := by
  rw [Text.echoLine, if_neg (by simp [h]), uniform_eq]

def ofPlain (l : Text) : Node where
  indent := uniform (l.takeWhile Text.isIndent)
  content := .plain (Text.trimRight (l.dropWhile Text.isIndent))

theorem lineText_ofPlain {l : Text} (h : l.all Text.isIndent = false) :
    (ofPlain l).lineText = Text.echoLine l ++ ['\n'] := by
  rw [echoLine_eq h]
  rfl

theorem exists_start {l : Text} (h : l.all Text.isIndent = false) :
    ∃ x v, l.dropWhile Text.isIndent = x :: v ∧ Text.isIndent x = false := by
  cases hdrop : l.dropWhile Text.isIndent with
  | nil =>
    have hall : l.all Text.isIndent = true := by
      rw [← List.takeWhile_append_dropWhile (p := Text.isIndent) (l := l), hdrop, List.append_nil]
      exact List.all_takeWhile
    rw [h] at hall
    cases hall
  | cons x v => exact ⟨x, v, rfl, head?_dropWhile (by rw [hdrop]; rfl)⟩

/-- What is promised of a line: it has no break, no mark and no inline variable. -/
structure IsPlainLine (p : Profile) (l : Text) : Prop where
  unbroken : '\n' ∉ l
  start : l.StartsPlain
  unmarked : InlineVariable.Unmarked p.inlineEquals l

variable {l u rest : Text}

theorem IsPlainLine.isPlain (h : IsPlainLine p l) : (ofPlain l).content.IsPlain p := by
  refine ⟨_, rfl, fun x hx hin => h.unmarked x hx (hin.trans ?_)⟩
  exact (Text.trimRight_initial _).isInfix.trans (List.dropWhile_suffix _).isInfix

/-- A line that is not blank is read as the node that it is kept as; `e` ends it, unless it is the
last one. -/
theorem IsPlainLine.reads_node {e : Text} (h : IsPlainLine p l)
    (hblank : l.all Text.isIndent = false) (he : e = ['\n'] ∨ e = [] ∧ rest = []) :
    Reads (node p block (uniform (l.takeWhile Text.isIndent))) (l.dropWhile Text.isIndent ++ e)
      (ofPlain l) rest := by
  obtain ⟨x, v, hdrop, hx⟩ := exists_start hblank
  have hsuffix : l.dropWhile Text.isIndent <:+ l := List.dropWhile_suffix _
  have hmark : x ∉ "%#.:/!=-".toList := h.start x (by rw [hdrop]; rfl)
  have hbreak : '\n' ∉ l.dropWhile Text.isIndent := fun hmem => h.unbroken (hsuffix.subset hmem)
  have hline : ofLine p (l.dropWhile Text.isIndent) =
      .ok (.plain (Text.trimRight (l.dropWhile Text.isIndent))) := by
    rw [hdrop]
    refine ofLine_plain hmark fun y hy hin => h.unmarked y hy ?_
    exact (hdrop ▸ hin).trans hsuffix.isInfix
  have hsingle : Single (l.dropWhile Text.isIndent) := by
    simp only [String.reduceToList, List.mem_cons, not_or] at hmark
    exact ⟨hbreak, by simp [hdrop, hx, hmark]⟩
  refine reads_node_line hsingle hline ⟨e ++ rest, by simp⟩ ?_
  rcases he with rfl | ⟨rfl, rfl⟩
  · exact reads_line hbreak rest
  · rw [List.append_nil]
    exact reads_line_end hbreak

/-- The loop at a line of plain text that is not blank. -/
theorem all_plain_line {e : Text} (h : IsPlainLine p l) (hblank : l.all Text.isIndent = false)
    (he : e = ['\n'] ∨ e = [] ∧ rest = []) (x : Char) (steps : Text) (read : List Node) (q : Text) :
    all p block (x :: steps) read ⟨q, l ++ (e ++ rest), 0, 0⟩ =
      all p block steps (ofPlain l :: read) ⟨e.reverse ++ (l.reverse ++ q), rest, 0, 0⟩ := by
  have hcut : l.takeWhile Text.isIndent ++ l.dropWhile Text.isIndent = l :=
    List.takeWhile_append_dropWhile
  have hstart : StartsLine (l.dropWhile Text.isIndent ++ e ++ rest) := by
    obtain ⟨y, v, hdrop, hy⟩ := exists_start hblank
    refine ⟨y, v ++ e ++ rest, by rw [hdrop]; rfl, hy, ?_⟩
    rintro rfl
    exact h.unbroken ((List.dropWhile_suffix _).subset (hdrop ▸ List.mem_cons_self ..))
  have hsplit : l ++ (e ++ rest) =
      l.takeWhile Text.isIndent ++ (l.dropWhile Text.isIndent ++ e ++ rest) := by
    rw [List.append_assoc, ← List.append_assoc (l.takeWhile _), hcut]
  have hpassed : (l.dropWhile Text.isIndent ++ e).reverse ++
      ((l.takeWhile Text.isIndent).reverse ++ q) = e.reverse ++ (l.reverse ++ q) := by
    rw [List.reverse_append, List.append_assoc, ← List.append_assoc _ _ q, ← List.reverse_append,
      hcut]
  rw [hsplit, all_line x steps read (List.all_eq_true.mp List.all_takeWhile) hstart,
    bind_of_ok (h.reads_node hblank he _), addNewlines_zero, hpassed]

/-- The lines of a plain text are read as nodes that show what is kept of them; `read` are the nodes
before. As long as there are none, blank lines are dropped. -/
theorem all_plain {ls : List Text} (hne : ls ≠ []) (hls : ∀ l ∈ ls, IsPlainLine p l)
    (steps : Text) (hsteps : (Text.unlines ls).length < steps.length) (read : List Node)
    (hread : ∀ n ∈ read, n.content.IsPlain p) (q : Text) :
    ∃ nodes c, all p block steps read ⟨q, Text.unlines ls, 0, 0⟩ = .ok nodes c ∧
      (∀ n ∈ nodes, n.content.IsPlain p) ∧
      nodes.flatMap lineText = read.reverse.flatMap lineText ++
        Text.echoLines (if read = [] then ls.dropWhile (·.all Text.isIndent) else ls) := by
  induction ls generalizing steps read q with
  | nil => exact absurd rfl hne
  | cons l ls ih =>
    have hl := hls l (by simp)
    have hnode : ∀ n ∈ ofPlain l :: read, n.content.IsPlain p :=
      List.forall_mem_cons.mpr ⟨hl.isPlain, hread⟩
    obtain ⟨x, steps, rfl⟩ :=
      List.exists_cons_of_ne_nil (List.ne_nil_of_length_pos (Nat.zero_lt_of_lt hsteps))
    cases ls with
    | nil =>
      -- the last line has no break, and gives nothing if it is blank
      have htext : Text.unlines [l] = l := List.intercalate_singleton ..
      rw [htext] at hsteps ⊢
      by_cases hblank : l.all Text.isIndent = true
      · have hend : all p block (x :: steps) read ⟨q, l, 0, 0⟩ = _ :=
          all_end (List.all_eq_true.mp hblank) read q (List.cons_ne_nil x steps)
        refine ⟨_, _, hend, by simpa using hread, ?_⟩
        cases read <;> simp [hblank, Text.echoLines]
      · rw [Bool.not_eq_true] at hblank
        have hmore : steps ≠ [] := by
          rintro rfl
          obtain rfl : l = [] := List.length_eq_zero_iff.mp (by simpa using hsteps)
          cases hblank
        have hline : all p block (x :: steps) read ⟨q, l ++ ([] ++ []), 0, 0⟩ = _ :=
          all_plain_line hl hblank (.inr ⟨rfl, rfl⟩) x steps read q
        rw [List.append_nil, List.append_nil] at hline
        have hend := hline.trans (all_end (by simp) _ _ hmore)
        refine ⟨_, _, hend, fun n hn => hnode n (List.mem_reverse.mp hn), ?_⟩
        cases read <;> simp [hblank, Text.echoLines, lineText_ofPlain hblank]
    | cons l' ls =>
      have htext : Text.unlines (l :: l' :: ls) = l ++ (['\n'] ++ Text.unlines (l' :: ls)) := by
        simp [Text.unlines, List.intercalate_cons_cons]
      rw [htext] at hsteps ⊢
      simp only [List.length_append, List.length_cons] at hsteps
      have hrest : ∀ k ∈ l' :: ls, IsPlainLine p k := fun k hk => hls k (by simp [hk])
      by_cases hblank : l.all Text.isIndent = true
      · -- a blank line is a break of the node before it, if there is one
        obtain ⟨nodes, c, hall, hplain, hshown⟩ := ih (by simp) hrest (x :: steps)
          (by rw [List.length_cons]; omega) _ (isPlain_addNewlines hread) ('\n' :: (l.reverse ++ q))
        refine ⟨nodes, c, ?_, hplain, ?_⟩
        · rw [List.singleton_append,
            all_blank (List.all_eq_true.mp hblank) read _ q (List.cons_ne_nil x steps), hall]
        · rw [hshown]
          cases read with
          | nil => simp [addNewlines, hblank]
          | cons m read =>
            rw [lineText_addNewlines (by simp) hread]
            simp [addNewlines, Text.echoLines, Text.echoLine, hblank]
      · rw [Bool.not_eq_true] at hblank
        obtain ⟨nodes, c, hall, hplain, hshown⟩ := ih (by simp) hrest steps (by omega) _
          hnode (['\n'].reverse ++ (l.reverse ++ q))
        refine ⟨nodes, c, ?_, hplain, ?_⟩
        · rw [all_plain_line hl hblank (.inl rfl), hall]
        · rw [hshown]
          cases read <;> simp [hblank, Text.echoLines, lineText_ofPlain hblank]

end Node

/-- A template is written as it stands, but for blanks at the ends of lines, blank lines at its
start, mixed indentations and escapes, if it has no inline variables and none of its lines starts
with a mark. -/
theorem plain_text_echoed {p : Profile} {t : Text} (hp : p.settings.outline = false)
    (hmarks : InlineVariable.Unmarked p.inlineEquals t) (hlines : ∀ l ∈ t.lines, l.StartsPlain) :
    compile p t = .ok t.echo := by
  have hplain : ∀ l ∈ t.lines, Node.IsPlainLine p l := fun l hl =>
    ⟨Text.not_mem_of_mem_lines hl, hlines l hl,
      fun x hx hin => hmarks x hx (hin.trans (Text.within_of_mem_lines hl))⟩
  have hne : t.lines ≠ [] := Text.splitWhen_ne_nil _ t
  have hsteps : (Text.unlines t.lines).length < (' ' :: t).length := by
    rw [Text.unlines_lines, List.length_cons]
    exact Nat.lt_succ_self _
  obtain ⟨nodes, c, hall, hnodes, htext⟩ := Node.all_plain hne hplain _ hsteps [] (by simp) []
  rw [Text.unlines_lines] at hall
  have hread : readNodes p (compile p) t = .ok nodes := by
    rw [readNodes, Cursor.ofText, hall]
  have hparse : parse p t = .ok (Forest.ofNodes p.tags nodes) := by
    rw [parse, hread]
    rfl
  rw [compile_eq, hparse]
  show finish p (Forest.ofNodes p.tags nodes) = _
  rw [finish_eq_render hp, Forest.render_plain (by rwa [Forest.toList_ofNodes]),
    Forest.toList_ofNodes, htext]
  rfl

def poem : Text :=
  " \t\n\n\\%a  \n \t b\\c \t\n\n   \n     d # \x7be\x7d\n\t \\\\f\n\n\\\ng\n \t".toList

theorem plain_text_echoed_poem :
    (Profile.settings {}).outline = false ∧ InlineVariable.Unmarked false poem ∧
    (∀ l ∈ poem.lines, l.StartsPlain) ∧ compile {} poem = .ok poem.echo ∧
    poem.echo = "%a\n   b\\c\n\n\n     d # \x7be\x7d\n\t\t\\f\n\n\ng\n".toList := by
  have hmarks : InlineVariable.Unmarked false poem := by
    intro x hx
    obtain rfl : x = '#' := by simpa [InlineVariable.isMark] using hx
    decide +kernel
  have hlines : ∀ l ∈ poem.lines, l.StartsPlain := by
    have hstarts : ∀ l ∈ poem.lines, (l.dropWhile Text.isIndent).head?.all
        (fun x => !"%#.:/!=-".toList.contains x) = true := by
      decide +kernel
    intro l hl x hx
    simpa [hx] using hstarts l hl
  exact ⟨rfl, hmarks, hlines, plain_text_echoed rfl hmarks hlines, by decide +kernel⟩

end Haml
