import Haml.Node.Forest

/-!
Where the next member of a forest lands. A member goes down along the last roots as long as they
take it; `landing` is the member that it comes to stand below, and `place` is the forest with the
member in its place. In an `Ordered` forest the indentations do not decrease from a member to those
below it and do not increase from a root to the ones after it. There the descent, which looks at
one last root at a time, ends at the nearest member before that is indented less, or at the last
child of that one if it takes the new member at the same indentation.
-/
namespace Haml.Forest

variable {α β : Type}

def roots : Forest α → List α
  | nil => []
  | cons a _ others => a :: roots others

/-- The member below which the next one comes to stand; `p` is the one that the row is below. -/
def landing (goes : α → Bool) (p : α) : Forest α → α
  | nil => p
  | cons a below nil => if goes a then landing goes a below else p
  | cons _ _ others => landing goes p others

def place (goes : α → Bool) (next : α) : Forest α → Forest α
  | nil => cons next nil nil
  | cons a below nil =>
    if goes a then cons a (place goes next below) nil else cons a below (cons next nil nil)
  | cons a below others => cons a below (place goes next others)

@[simp] theorem roots_nil : (nil : Forest α).roots = [] := rfl
@[simp] theorem roots_cons (a : α) (below others : Forest α) :
    (cons a below others).roots = a :: others.roots := rfl
@[simp] theorem toList_nil : (nil : Forest α).toList = [] := rfl
@[simp] theorem toList_cons (a : α) (below others : Forest α) :
    (cons a below others).toList = a :: (below.toList ++ others.toList) := rfl

theorem landing_last (goes : α → Bool) (p a : α) (below : Forest α) :
    landing goes p (cons a below nil) = if goes a then landing goes a below else p := rfl

theorem landing_skip (goes : α → Bool) (p a : α) (below : Forest α) {others : Forest α}
    (h : others ≠ nil) : landing goes p (cons a below others) = landing goes p others := by
  cases others with
  | nil => exact absurd rfl h
  | cons b lower rest => rfl

theorem place_last (goes : α → Bool) (next a : α) (below : Forest α) :
    place goes next (cons a below nil) =
      if goes a then cons a (place goes next below) nil else cons a below (cons next nil nil) := rfl

theorem place_skip (goes : α → Bool) (next a : α) (below : Forest α) {others : Forest α}
    (h : others ≠ nil) :
    place goes next (cons a below others) = cons a below (place goes next others) := by
  cases others with
  | nil => exact absurd rfl h
  | cons b lower rest => rfl

theorem last?_skip (a : α) (below : Forest α) {others : Forest α} (h : others ≠ nil) :
    last? (cons a below others) = last? others := by
  cases others with
  | nil => exact absurd rfl h
  | cons b lower rest => rfl

/-- The last root of a row is the last one of its roots. -/
theorem getLast?_roots (f : Forest α) : f.roots.getLast? = f.last? := by
  induction f with
  | nil => rfl
  | cons a below others _ ih =>
    by_cases h : others = nil
    · subst h; rfl
    · rw [last?_skip a below h, ← ih, roots_cons]
      cases others with
      | nil => exact absurd rfl h
      | cons b lower rest => simp [List.getLast?_cons_cons]

/-- The next member comes after all the others. -/
theorem toList_place (goes : α → Bool) (next : α) (f : Forest α) :
    (f.place goes next).toList = f.toList ++ [next] := by
  induction f with
  | nil => rfl
  | cons a below others ihb iho =>
    by_cases h : others = nil
    · subst h
      rw [place_last]
      cases goes a <;> simp [ihb]
    · rw [place_skip goes next a below h]
      simp [iho]

theorem place_congr {goes goes' : α → Bool} {next : α} {f : Forest α}
    (h : ∀ a ∈ f.toList, goes a = goes' a) : f.place goes next = f.place goes' next := by
  induction f with
  | nil => rfl
  | cons a below others ihb iho =>
    have hb := ihb fun b hm => h b (by simp [hm])
    have ho := iho fun b hm => h b (by simp [hm])
    by_cases hn : others = nil
    · subst hn
      rw [place_last, place_last, h a (by simp), hb]
    · rw [place_skip _ _ _ _ hn, place_skip _ _ _ _ hn, ho]

/-- Placing numbers and placing the nodes that they stand for give the same forest. -/
theorem map_place (tags : Tags) (node : α → Node) (next : α) (f : Forest α) :
    (f.place (fun a => tags.goesBelow (node a) (node next)) next).map node =
      (f.map node).add tags (node next) := by
  induction f with
  | nil => rfl
  | cons a below others ihb iho =>
    cases others with
    | nil =>
      simp only [place_last, map, add]
      by_cases h : tags.goesBelow (node a) (node next) = true
      · simp only [if_pos h, map, ihb]
      · simp only [if_neg h, map]
    | cons b lower rest =>
      rw [place_skip _ _ _ _ (by simp)]
      simp only [map] at iho ⊢
      rw [iho]
      rfl

theorem map_self (f : Forest α) : f.map (fun a => a) = f := by
  induction f with
  | nil => rfl
  | cons a below others ihb iho => simp [map, ihb, iho]

theorem toList_add (tags : Tags) (next : Node) (f : Forest Node) :
    (f.add tags next).toList = f.toList ++ [next] := by
  have h := map_place tags (fun n => n) next f
  rw [map_self, map_self] at h
  rw [← h, toList_place]

/-- The forest of a template holds its nodes in their order. -/
theorem toList_ofNodes (tags : Tags) (nodes : List Node) : (ofNodes tags nodes).toList = nodes := by
  have h : ∀ (nodes : List Node) (f : Forest Node),
      (nodes.foldl (fun f n => f.add tags n) f).toList = f.toList ++ nodes := by
    intro nodes
    induction nodes with
    | nil => simp
    | cons n nodes ih =>
      intro f
      rw [List.foldl_cons, ih, toList_add]
      simp
  exact h nodes nil

theorem landing_mem (goes : α → Bool) (p : α) (f : Forest α) :
    landing goes p f ∈ p :: f.toList := by
  induction f generalizing p with
  | nil => simp [landing]
  | cons a below others ihb iho =>
    by_cases h : others = nil
    · subst h
      rw [landing_last]
      cases goes a with
      | false => simp
      | true =>
        have := ihb a
        simp only [if_pos, toList_cons, toList_nil, List.append_nil]
        exact List.mem_cons_of_mem p this
    · rw [landing_skip goes p a below h]
      rcases List.mem_cons.mp (iho p) with he | hm
      · simp [he]
      · simp [hm]

/-- A row gets a new root exactly when the new member lands below its parent. -/
theorem roots_place [DecidableEq α] (goes : α → Bool) (p next : α) (f : Forest α)
    (hp : p ∉ f.toList) :
    (f.place goes next).roots = if landing goes p f = p then f.roots ++ [next] else f.roots := by
  induction f with
  | nil => simp [place, landing]
  | cons a below others _ iho =>
    simp only [toList_cons, List.mem_cons, List.mem_append, not_or] at hp
    by_cases h : others = nil
    · subst h
      rw [place_last, landing_last]
      cases hg : goes a with
      | false => simp
      | true =>
        -- the member has gone below `a`, so it lands at a member of the row
        have hne : landing goes a below ≠ p := by
          intro he
          rcases List.mem_cons.mp (landing_mem goes a below) with hm | hm
          · exact hp.1 (he ▸ hm)
          · exact hp.2.1 (he ▸ hm)
        simp [hne]
    · rw [place_skip goes next a below h, landing_skip goes p a below h, roots_cons, iho hp.2.2]
      split <;> rfl

/-- The members below each one, as `kids` lists them, are those of the forest. -/
def Hangs (kids : α → List α) : Forest α → Prop
  | nil => True
  | cons a below others => kids a = below.roots ∧ Hangs kids below ∧ Hangs kids others

theorem hangs_congr {kids kids' : α → List α} {f : Forest α} (h : f.Hangs kids)
    (heq : ∀ a ∈ f.toList, kids' a = kids a) : f.Hangs kids' := by
  induction f with
  | nil => trivial
  | cons a below others ihb iho =>
    obtain ⟨ha, hb, ho⟩ := h
    refine ⟨?_, ihb hb ?_, iho ho ?_⟩
    · rw [heq a (by simp), ha]
    · intro b hm
      exact heq b (by simp [hm])
    · intro b hm
      exact heq b (by simp [hm])

/-- A forest hangs together after a new member was put at the end of the row that it lands in. -/
theorem hangs_place [DecidableEq α] (goes : α → Bool) (p next : α) (f : Forest α)
    (kids kids' : α → List α) (hf : f.Hangs kids) (hn : (p :: f.toList).Nodup)
    (hnext : next ∉ p :: f.toList) (hleaf : kids next = [])
    (hkids : ∀ a, kids' a = if a = landing goes p f then kids a ++ [next] else kids a) :
    (f.place goes next).Hangs kids' := by
  have hne : ∀ q ∈ p :: f.toList, next ≠ q := fun q hq he => hnext (he ▸ hq)
  induction f generalizing p with
  | nil =>
    refine ⟨?_, trivial, trivial⟩
    have hl := hne _ (landing_mem goes p nil)
    rw [hkids, if_neg hl, hleaf]
    rfl
  | cons a below others ihb iho =>
    obtain ⟨ha, hb, ho⟩ := hf
    simp only [toList_cons, List.nodup_cons, List.mem_cons, List.mem_append, not_or,
      List.nodup_append] at hn
    obtain ⟨⟨hpa, hpb, hpo⟩, ⟨hab, hao⟩, hnb, hno, hdis⟩ := hn
    by_cases h : others = nil
    · subst h
      rw [landing_last] at hkids
      rw [place_last]
      cases hg : goes a with
      | true =>
        rw [hg, if_pos rfl] at hkids
        rw [if_pos rfl]
        refine ⟨?_, ihb a hb ?_ ?_ hkids ?_, trivial⟩
        · rw [hkids, roots_place goes a next below hab, ha]
          by_cases he : landing goes a below = a
          · rw [if_pos he.symm, if_pos he]
          · rw [if_neg (Ne.symm he), if_neg he]
        · exact List.nodup_cons.mpr ⟨hab, hnb⟩
        · intro hm
          exact hnext (List.mem_cons_of_mem p (by simpa using hm))
        · intro q hq
          exact hne q (List.mem_cons_of_mem p (by simpa using hq))
      | false =>
        rw [hg] at hkids
        simp only [Bool.false_eq_true, if_false] at hkids ⊢
        refine ⟨?_, ?_, ?_, trivial, trivial⟩
        · rw [hkids, if_neg (Ne.symm hpa), ha]
        · refine hangs_congr hb fun b hm => ?_
          rw [hkids, if_neg]
          intro he
          exact hpb (he ▸ hm)
        · rw [hkids, if_neg (hne p (by simp)), hleaf]
          rfl
    · rw [landing_skip goes p a below h] at hkids
      rw [place_skip goes next a below h]
      have hland : ∀ b, b ≠ p → b ∉ others.toList → b ≠ landing goes p others := by
        intro b hbp hbo he
        rcases List.mem_cons.mp (landing_mem goes p others) with hm | hm
        · exact hbp (he.trans hm)
        · exact hbo (he ▸ hm)
      refine ⟨?_, ?_, iho p ho ?_ ?_ hkids ?_⟩
      · rw [hkids, if_neg (hland a (Ne.symm hpa) hao), ha]
      · refine hangs_congr hb fun b hm => ?_
        rw [hkids, if_neg]
        refine hland b (fun he => hpb (he ▸ hm)) fun hm' => hdis b hm b hm' rfl
      · exact List.nodup_cons.mpr ⟨hpo, hno⟩
      · intro hm
        refine hnext ?_
        rcases List.mem_cons.mp hm with hm | hm
        · simp [hm]
        · simp [hm]
      · intro q hq
        refine hne q ?_
        rcases List.mem_cons.mp hq with hq | hq
        · simp [hq]
        · simp [hq]

section Order

variable (depth : α → Int) (takes : α → α → Bool)

/-- Whether the last root of a row takes the next member: one that is indented deeper, or one of the
same indentation that belongs inside it. -/
def fits (last next : α) : Bool :=
  decide (depth last < depth next) || (depth last == depth next && takes last next)

/-- Every root fits below `p`, and no root is indented deeper than one before it; the same holds of
the rows below. -/
def Ordered (p : α) : Forest α → Prop
  | nil => True
  | cons a below others =>
    fits depth takes p a = true ∧ (∀ b ∈ others.roots, depth b ≤ depth a) ∧
      Ordered a below ∧ Ordered p others

variable {depth takes}

theorem fits_iff {a b : α} : fits depth takes a b = true ↔
    depth a < depth b ∨ (depth a = depth b ∧ takes a b = true) := by
  simp [fits]

theorem depth_le_of_fits {a b : α} (h : fits depth takes a b = true) : depth a ≤ depth b := by
  rcases fits_iff.mp h with h | h
  · omega
  · omega

theorem depth_le_of_not_fits {a b : α} (h : fits depth takes a b = false) : depth b ≤ depth a := by
  have : ¬ depth a < depth b := by
    intro hlt
    rw [fits_iff.mpr (Or.inl hlt)] at h
    exact Bool.noConfusion h
  omega

/-- What is below a member is indented at least as far. -/
theorem depth_le_of_ordered {p : α} {f : Forest α} (h : f.Ordered depth takes p) :
    ∀ x ∈ f.toList, depth p ≤ depth x := by
  induction f generalizing p with
  | nil => simp
  | cons a below others ihb iho =>
    obtain ⟨hpa, _, hb, ho⟩ := h
    have hle := depth_le_of_fits hpa
    intro x hx
    simp only [toList_cons, List.mem_cons, List.mem_append] at hx
    rcases hx with rfl | hx | hx
    · exact hle
    · exact Int.le_trans hle (ihb hb x hx)
    · exact iho ho x hx

/-- A new root is not indented deeper than the ones before it. -/
theorem depth_le_of_mem_roots_place {next p : α} {f : Forest α} (h : f.Ordered depth takes p)
    (hf : f ≠ nil) {a : α} (ha : ∀ b ∈ f.roots, depth b ≤ depth a) :
    ∀ b ∈ (f.place (fits depth takes · next) next).roots, depth b ≤ depth a := by
  induction f with
  | nil => exact absurd rfl hf
  | cons c below others _ iho =>
    obtain ⟨_, hc, _, ho⟩ := h
    have hca : depth c ≤ depth a := ha c (by simp)
    by_cases hn : others = nil
    · subst hn
      rw [place_last]
      cases hg : fits depth takes c next with
      | true => simpa using hca
      | false =>
        have hle := depth_le_of_not_fits hg
        simp only [Bool.false_eq_true, if_false, roots_cons, roots_nil, List.mem_cons,
          List.not_mem_nil, or_false]
        rintro b (rfl | rfl)
        · exact hca
        · omega
    · rw [place_skip _ _ _ _ hn, roots_cons]
      intro b hb
      rcases List.mem_cons.mp hb with rfl | hb
      · exact hca
      · exact iho ho hn (fun d hd => ha d (by simp [hd])) b hb

/-- Placing a member keeps a forest ordered. -/
theorem ordered_place {next p : α} {f : Forest α} (h : f.Ordered depth takes p)
    (hp : fits depth takes p next = true) :
    (f.place (fits depth takes · next) next).Ordered depth takes p := by
  induction f generalizing p with
  | nil => exact ⟨hp, by simp, trivial, trivial⟩
  | cons a below others ihb iho =>
    obtain ⟨hpa, hle, hb, ho⟩ := h
    by_cases hn : others = nil
    · subst hn
      rw [place_last]
      cases hg : fits depth takes a next with
      | true => exact ⟨hpa, by simp, ihb hb hg, trivial⟩
      | false =>
        refine ⟨hpa, ?_, hb, hp, by simp, trivial, trivial⟩
        have hle := depth_le_of_not_fits hg
        simpa using hle
    · rw [place_skip _ _ _ _ hn]
      exact ⟨hpa, depth_le_of_mem_roots_place ho hn hle, hb, iho ho hp⟩

/-- A member that the last root does not take lands below the parent of the row. -/
theorem landing_of_last {goes : α → Bool} {p : α} {f : Forest α}
    (h : ∀ a, f.last? = some a → goes a = false) : landing goes p f = p := by
  induction f with
  | nil => rfl
  | cons a below others _ iho =>
    by_cases hn : others = nil
    · subst hn
      rw [landing_last, h a rfl]
      rfl
    · rw [landing_skip goes p a below hn]
      rw [last?_skip a below hn] at h
      exact iho h

theorem fits_of_mem_roots {p a : α} {f : Forest α} (h : f.Ordered depth takes p)
    (ha : a ∈ f.roots) : fits depth takes p a = true := by
  induction f with
  | nil => simp at ha
  | cons b below others _ iho =>
    rcases List.mem_cons.mp ha with rfl | ha
    · exact h.1
    · exact iho h.2.2.2 ha

/-- Below a member of its own indentation a new member goes no deeper, because what that one takes
at its indentation takes nothing itself. -/
theorem landing_of_same_depth {next a : α} {f : Forest α} (h : f.Ordered depth takes a)
    (hd : depth a = depth next) (hin : ∀ b, takes a b = true → takes b next = false) :
    landing (fits depth takes · next) a f = a := by
  apply landing_of_last
  intro b hb
  have hroot : b ∈ f.roots := List.mem_of_getLast? ((getLast?_roots f).trans hb)
  rcases fits_iff.mp (fits_of_mem_roots h hroot) with hlt | ⟨heq, ht⟩
  · have hne : ¬ depth b < depth next := by omega
    have hne' : depth b ≠ depth next := by omega
    simp [fits, hne, hne']
  · have hne : ¬ depth b < depth next := by omega
    simp [fits, hne, hin b ht]

/-- The place that the indentations alone determine: `m` itself, or its last child if that one has
the indentation of the new member and takes it. -/
def heir (depth : α → Int) (takes : α → α → Bool) (kids : α → List α) (next m : α) : α :=
  match (kids m).getLast? with
  | some c => if depth c = depth next ∧ takes c next = true then c else m
  | none => m

/-- The descent ends at the nearest member before that is indented less, or at its heir. -/
theorem landing_eq_heir {kids : α → List α} {next p : α} {f : Forest α}
    (h : f.Ordered depth takes p) (hp : depth p < depth next)
    (hin : ∀ a b, takes a b = true → takes b next = false)
    (hf : f.Hangs kids) (hkids : (kids p).getLast? = f.last?) :
    ∃ m before after, p :: f.toList = before ++ m :: after ∧ depth m < depth next ∧
      (∀ x ∈ after, depth next ≤ depth x) ∧
      landing (fits depth takes · next) p f = heir depth takes kids next m := by
  induction f generalizing p with
  | nil =>
    refine ⟨p, [], [], rfl, hp, by simp, ?_⟩
    simp [landing, heir, hkids, last?]
  | cons a below others ihb iho =>
    obtain ⟨hpa, hle, hb, ho⟩ := h
    obtain ⟨hka, hfb, hfo⟩ := hf
    have hbelow : ∀ x ∈ a :: below.toList, depth a ≤ depth x := by
      intro x hx
      rcases List.mem_cons.mp hx with rfl | hx
      · omega
      · exact depth_le_of_ordered hb x hx
    by_cases hn : others = nil
    · subst hn
      rw [landing_last]
      rw [show last? (cons a below nil) = some a from rfl] at hkids
      by_cases hlt : depth a < depth next
      · -- `a` is indented less than the new member, which goes on below it
        have hka' : (kids a).getLast? = below.last? := by rw [hka, getLast?_roots]
        obtain ⟨m, before, after, hsplit, hm, hafter, hland⟩ := ihb hb hlt hfb hka'
        refine ⟨m, p :: before, after, ?_, hm, hafter, ?_⟩
        · simp [hsplit]
        · rw [if_pos (fits_iff.mpr (Or.inl hlt)), hland]
      · -- all of the row is indented as far as the new member, so `p` is the nearest
        have hge : depth next ≤ depth a := by omega
        refine ⟨p, [], a :: below.toList, by simp, hp, ?_, ?_⟩
        · intro x hx
          exact Int.le_trans hge (hbelow x hx)
        · simp only [heir, hkids]
          by_cases hg : depth a = depth next ∧ takes a next = true
          · rw [if_pos (fits_iff.mpr (Or.inr hg)), if_pos hg]
            exact landing_of_same_depth hb hg.1 (hin a)
          · have hnf : ¬ fits depth takes a next = true := by
              intro hfit
              rcases fits_iff.mp hfit with h' | h'
              · exact hlt h'
              · exact hg h'
            rw [if_neg hnf, if_neg hg]
    · rw [landing_skip _ _ _ _ hn]
      rw [last?_skip a below hn] at hkids
      obtain ⟨m, before, after, hsplit, hm, hafter, hland⟩ := iho ho hp hfo hkids
      cases before with
      | nil =>
        -- nothing after `p` in the rest of the row is indented less, so nothing below `a` is
        obtain ⟨rfl, rfl⟩ : p = m ∧ others.toList = after := by simpa using hsplit
        refine ⟨p, [], a :: (below.toList ++ others.toList), rfl, hp, ?_, hland⟩
        have hna : depth next ≤ depth a := by
          cases others with
          | nil => exact absurd rfl hn
          | cons b lower rest => exact Int.le_trans (hafter b (by simp)) (hle b (by simp))
        intro x hx
        rw [← List.cons_append, List.mem_append] at hx
        rcases hx with hx | hx
        · exact Int.le_trans hna (hbelow x hx)
        · exact hafter x hx
      | cons q before =>
        obtain ⟨rfl, ho'⟩ : p = q ∧ others.toList = before ++ m :: after := by simpa using hsplit
        refine ⟨m, p :: a :: (below.toList ++ before), after, ?_, hm, hafter, hland⟩
        simp [ho']

end Order

end Haml.Forest
