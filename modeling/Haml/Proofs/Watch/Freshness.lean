import Haml.Proofs.Watch.Walk

/-!
What passes keep true of the compiled files. While sources are written and compiled files are thrown
away, with passes in between, a time that is noted for a source is never later than the source, and
a compiled file whose source has not changed since is what comes of the source. So a pass leaves the
compiled file of every source as it has to be. A source that cannot be compiled does not touch its
compiled file, and it is tried again only as long as there is none.
-/
namespace Haml.Watch

/-! ## Visits -/

namespace Glimpse

variable {make : List UInt8 → Except Text Text} {g g' : Glimpse} {f : File}

/-- The time that is noted is not later than the source, and if the source is of that time, its
compiled file is up to date. -/
def Settled (make : List UInt8 → Except Text Text) (g : Glimpse) : Prop :=
  ∀ t, g.noted = some t → ∃ f, g.source = some f ∧ t ≤ f.modified ∧
    (t = f.modified → ∀ html, make f.content = .ok html →
      ∀ o, g.output = some o → o.content = Text.Utf8.encode html)

theorem isDue_of_source (hf : g.source = some f) :
    g.isDue = g.noted.all fun t => t < f.modified || g.output.isNone := by
  rw [isDue, hf, Option.any_some]

/-- Nothing is due for a source that has not changed and has a compiled file. -/
theorem isDue_eq_false (hf : g.source = some f) (h : g.isDue = false) :
    ∃ t o, g.noted = some t ∧ f.modified ≤ t ∧ g.output = some o := by
  rw [isDue_of_source hf] at h
  cases hn : g.noted with
  | none => simp [hn] at h
  | some t =>
    cases ho : g.output with
    | none => simp [hn, ho] at h
    | some o => exact ⟨t, o, rfl, by simpa [hn, ho] using h, rfl⟩

theorem Visit.source_eq (hv : Visit make g g') : g'.source = g.source := by
  cases hv <;> rfl

theorem Visit.settled (hv : Visit make g g') (h : g.Settled make) : g'.Settled make := by
  cases hv with
  | idle => exact h
  | failed _ hf hm =>
    intro t ht
    obtain rfl := Option.some.inj ht
    refine ⟨_, hf, Int.le_refl _, ?_⟩
    intro _ html hhtml
    rw [hm] at hhtml
    cases hhtml
  | written _ hf hm =>
    intro t ht
    obtain rfl := Option.some.inj ht
    refine ⟨_, hf, Int.le_refl _, ?_⟩
    intro _ html hhtml o ho
    obtain rfl := Option.some.inj ho
    rw [hm] at hhtml
    cases hhtml
    rfl

/-- A visit leaves the compiled file up to date. -/
theorem Visit.output_ok (hv : Visit make g g') (h : g.Settled make) (hf : g.source = some f)
    {html : Text} (hm : make f.content = .ok html) :
    g'.output.map (·.content) = some (Text.Utf8.encode html) := by
  cases hv with
  | idle hdue =>
    obtain ⟨t, o, ht, hle, ho⟩ := isDue_eq_false hf hdue
    obtain ⟨f', hf', hle', hcontent⟩ := h t ht
    obtain rfl := Option.some.inj (hf.symm.trans hf')
    rw [ho, Option.map_some, hcontent (by omega) html hm o ho]
  | failed _ hf' hm' =>
    obtain rfl := Option.some.inj (hf.symm.trans hf')
    cases hm.symm.trans hm'
  | written _ hf' hm' =>
    obtain rfl := Option.some.inj (hf.symm.trans hf')
    cases hm.symm.trans hm'
    rfl

/-- A visit that fails leaves the compiled file alone. -/
theorem Visit.output_error (hv : Visit make g g') (hf : g.source = some f) {reason : Text}
    (hm : make f.content = .error reason) : g'.output = g.output := by
  cases hv with
  | idle => rfl
  | failed => rfl
  | written _ hf' hm' =>
    obtain rfl := Option.some.inj (hf.symm.trans hf')
    cases hm.symm.trans hm'

/-- Directly after a visit another one is due only if there is no compiled file. -/
theorem Visit.isDue_eq (hv : Visit make g g') (hf : g.source = some f) :
    g'.isDue = g'.output.isNone := by
  cases hv with
  | idle hdue =>
    obtain ⟨t, o, -, -, ho⟩ := isDue_eq_false hf hdue
    simp [hdue, ho]
  | failed _ hf' => simp [isDue, hf']
  | written _ hf' => simp [isDue, hf']

/-- A source without a compiled file after a visit is one that cannot be compiled. -/
theorem Visit.problem_of_missing (hv : Visit make g g') (h : g.Settled make)
    (hf : g.source = some f) (ho : g'.output = none) : (g'.problem? make).isSome = true := by
  cases hm : make f.content with
  | error reason => simp [problem?, hv.source_eq, hf, hm]
  | ok html =>
    have hwritten := hv.output_ok h hf hm
    rw [ho] at hwritten
    cases hwritten

end Glimpse

/-! ## Runs -/

inductive Step where
  | edit (source : Path) (content : List UInt8) (modified : Int)
  | discard (path : Path)
  | pass

namespace World

variable {job : Job} {start w w' : World} {p : Path} {steps : List Step}

/-- A step. What is written is a source, with a later time than it had, and what is thrown away is
not watched. -/
def step? (job : Job) (w : World) : Step → Option World
  | .edit p content t =>
    if job.isSource p && (w.files.find? (job.folder ++ p)).all fun f => f.modified < t then
      some { w with files := w.files.put (job.folder ++ p) { content := content, modified := t } }
    else none
  | .discard path =>
    if job.isWatched path then none else some { w with files := w.files.remove path }
  | .pass => some (w.pass job).1

def run? (job : Job) (w : World) (steps : List Step) : Option World := steps.foldlM (step? job) w

/-- What can happen in a step. -/
theorem step?_cases {s : Step} (h : w.step? job s = some w') :
    (∃ p f, job.isSource p = true ∧
      (∀ f', w.files.find? (job.folder ++ p) = some f' → f'.modified < f.modified) ∧
      w' = { w with files := w.files.put (job.folder ++ p) f }) ∨
    (∃ path, job.isWatched path = false ∧ w' = { w with files := w.files.remove path }) ∨
    w' = (w.pass job).1 := by
  cases s with
  | edit p content t =>
    rw [step?] at h
    split at h
    · next hallowed =>
      rw [Bool.and_eq_true, Option.all_eq_true] at hallowed
      refine .inl ⟨p, ⟨content, t⟩, hallowed.1, ?_, (Option.some.inj h).symm⟩
      intro f' hf'
      simpa using hallowed.2 f' hf'
    · cases h
  | discard path =>
    rw [step?] at h
    split at h
    · cases h
    · next hwatched => exact .inr (.inl ⟨path, by simpa using hwatched, (Option.some.inj h).symm⟩)
  | pass => exact .inr (.inr (Option.some.inj h).symm)

theorem folder_ne_of_not_watched {path q : Path} (hpath : job.isWatched path = false)
    (hq : job.isSource q = true) : job.folder ++ q ≠ path := by
  rintro rfl
  rw [Job.isWatched_source hq] at hpath
  cases hpath

/-- Sources stay. -/
theorem sources_step {s : Step} (h : w.step? job s = some w') (hp : p ∈ job.sources w.files) :
    p ∈ job.sources w'.files := by
  rw [Job.mem_sources] at hp ⊢
  refine ⟨hp.1, ?_⟩
  rcases step?_cases h with ⟨q, f, -, -, rfl⟩ | ⟨path, hpath, rfl⟩ | rfl
  · rw [FileSystem.find?_put]
    split
    · rfl
    · exact hp.2
  · rw [FileSystem.find?_remove, if_neg (folder_ne_of_not_watched hpath hp.1)]
    exact hp.2
  · exact passIn_keeps (P := fun w => (w.files.find? (job.folder ++ p)).isSome = true)
      (fun _ _ => isSome_find?_visit) _ _ hp.2

theorem sources_run (h : w.run? job steps = some w') (hp : p ∈ job.sources w.files) :
    p ∈ job.sources w'.files := by
  induction steps generalizing w with
  | nil => exact Option.some.inj h ▸ hp
  | cons s steps ih =>
    rw [run?, List.foldlM_cons, Option.bind_eq_bind, Option.bind_eq_some_iff] at h
    obtain ⟨w₁, hs, h⟩ := h
    exact ih h (sources_step hs hp)

/-! ## What runs keep true -/

/-- The noted times and the compiled files of a world are in order. -/
structure Fresh (job : Job) (shared : Shared) (w : World) : Prop where
  orderly : Orderly job shared w
  settled : ∀ p, job.isSource p = true → (w.glimpse job p).Settled (job.make shared)

theorem fresh_start (hcompiled : start.compiled = []) (hfiles : start.files.Distinct) :
    Fresh job start.shared start where
  orderly := ⟨hfiles, .inl rfl⟩
  settled p _ t ht := by
    simp [glimpse, hcompiled] at ht

/-- A pass brings every source up to date. -/
theorem visited_pass {shared : Shared} (h : Fresh job shared w) (ha : job.Apart w.files) :
    Orderly job shared (w.pass job).1 ∧
      Visited job shared w (w.pass job).1 (job.sources w.files) ∧
      (w.pass job).2.Perm ((w.due job).map (w.attempt job shared)) := by
  obtain ⟨ps, hps, hperm⟩ := pass_eq_visitAll h.orderly ha
  have hnodup : ps.Nodup := hperm.nodup_iff.mpr (Job.nodup_sources h.orderly.distinct)
  have hmem : ∀ p ∈ ps, p ∈ job.sources w.files := fun p => hperm.mem_iff.mp
  have hv := visited_visitAll h.orderly ha hmem hnodup
  rw [hps]
  refine ⟨h.orderly.visitAll ps, ⟨hv.source, ?_, ?_, ?_⟩, ?_⟩
  · intro q hq
    exact hv.noted q fun hp => hq (hmem q hp)
  · intro q hq _
    exact hv.seen q hq (hperm.mem_iff.mpr hq)
  · intro q hq hn
    exact absurd hq hn
  · rw [visitAll_attempts h.orderly ha hmem hnodup]
    exact (hperm.filter _).map _

theorem Fresh.pass {shared : Shared} (h : Fresh job shared w) (ha : job.Apart w.files) :
    Fresh job shared (w.pass job).1 := by
  obtain ⟨ho, hv, -⟩ := visited_pass h ha
  refine ⟨ho, ?_⟩
  intro p hp
  by_cases hmem : p ∈ job.sources w.files
  · exact (hv.seen p hmem hmem).settled (h.settled p hp)
  · -- nothing is noted for a source that is not there
    intro t ht
    have hnoted : (w.glimpse job p).noted = some t := (hv.noted p hmem).symm.trans ht
    obtain ⟨f, hf, -⟩ := h.settled p hp t hnoted
    have hfile : w.files.find? (job.folder ++ p) = some f := hf
    exact absurd (Job.mem_sources.mpr ⟨hp, by rw [hfile]; rfl⟩) hmem

theorem Fresh.edit {shared : Shared} {f : File} (h : Fresh job shared w) (ha : job.Apart w.files)
    (hp : job.isSource p = true)
    (hlater : ∀ f', w.files.find? (job.folder ++ p) = some f' → f'.modified < f.modified) :
    Fresh job shared { w with files := w.files.put (job.folder ++ p) f } := by
  refine ⟨⟨h.orderly.distinct.put _ _, h.orderly.shared⟩, ?_⟩
  intro q hq t ht
  obtain ⟨g, hg, hle, hcontent⟩ := h.settled q hq t ht
  have hfile : w.files.find? (job.folder ++ q) = some g := hg
  by_cases hqp : q = p
  · subst hqp
    have hlt := hlater g hfile
    refine ⟨f, by simp [glimpse], by omega, ?_⟩
    intro heq
    omega
  · have hsource : q ∈ job.sources w.files := Job.mem_sources.mpr ⟨hq, by rw [hfile]; rfl⟩
    refine ⟨g, by simpa [glimpse, hqp] using hfile, hle, ?_⟩
    intro heq html hm o ho
    have hout : w.files.find? (job.output q) = some o := by
      simpa [glimpse, (ha.output_ne hsource hp).symm] using ho
    exact hcontent heq html hm o hout

theorem Fresh.discard {shared : Shared} {path : Path} (h : Fresh job shared w)
    (hpath : job.isWatched path = false) :
    Fresh job shared { w with files := w.files.remove path } := by
  refine ⟨⟨h.orderly.distinct.remove _, h.orderly.shared⟩, ?_⟩
  intro q hq t ht
  obtain ⟨g, hg, hle, hcontent⟩ := h.settled q hq t ht
  have hfile : w.files.find? (job.folder ++ q) = some g := hg
  refine ⟨g, by simpa [glimpse, folder_ne_of_not_watched hpath hq] using hfile, hle, ?_⟩
  intro heq html hm o ho
  have hout : ¬ job.output q = path ∧ w.files.find? (job.output q) = some o := by
    simpa [glimpse] using ho
  exact hcontent heq html hm o hout.2

/-- One step keeps the world in order. -/
theorem Fresh.step {shared : Shared} {s : Step} (h : Fresh job shared w) (ha : job.Apart w.files)
    (hs : w.step? job s = some w') : Fresh job shared w' := by
  rcases step?_cases hs with ⟨p, f, hp, hlater, rfl⟩ | ⟨path, hpath, rfl⟩ | rfl
  · exact h.edit ha hp hlater
  · exact h.discard hpath
  · exact h.pass ha

/-- A run keeps the world in order, if the compiled files are apart at its end. -/
theorem Fresh.run {shared : Shared} (h : Fresh job shared w) (hr : w.run? job steps = some w')
    (ha : job.Apart w'.files) : Fresh job shared w' := by
  induction steps generalizing w with
  | nil => exact Option.some.inj hr ▸ h
  | cons s steps ih =>
    -- there were no more sources before than there are at the end
    have hapart : job.Apart w.files := ha.mono fun p hp => sources_run hr hp
    rw [run?, List.foldlM_cons, Option.bind_eq_bind, Option.bind_eq_some_iff] at hr
    obtain ⟨w₁, hs, hr⟩ := hr
    exact ih (h.step hapart hs) hr

/-! ## What a pass leaves behind -/

theorem due_pass {shared : Shared} (h : Fresh job shared w) (ha : job.Apart w.files) :
    ((w.pass job).1.due job).Perm ((job.sources w.files).filter fun p =>
      ((w.pass job).1.files.find? (job.output p)).isNone) := by
  obtain ⟨ho, hv, -⟩ := visited_pass h ha
  have hsources : (job.sources (w.pass job).1.files).Perm (job.sources w.files) :=
    (List.perm_ext_iff_of_nodup (Job.nodup_sources ho.distinct)
      (Job.nodup_sources h.orderly.distinct)).mpr fun _ => hv.mem_sources
  refine (hsources.filter _).trans (.of_eq (List.filter_congr ?_))
  intro p hp
  obtain ⟨f, hf⟩ := Option.isSome_iff_exists.mp (Job.mem_sources.mp hp).2
  exact (hv.seen p hp hp).isDue_eq hf

/-- After any run, a pass leaves what comes of a source in its compiled file, or leaves that file as
it is if the source cannot be compiled. Both files hold texts as UTF-8. The pass tries each source
that has to be compiled once. A pass directly after it tries those sources that still have no
compiled file, and fails on all of them. -/
theorem pass_fresh (hcompiled : start.compiled = []) (hfiles : start.files.Distinct)
    (hrun : start.run? job steps = some w) (hapart : job.Apart w.files) :
    (∀ p ∈ job.sources w.files, ∀ f, w.files.find? (job.folder ++ p) = some f →
      (∀ t, f.content.toByteArray = (String.ofList t).toUTF8 →
        job.make start.shared f.content = (Compiler.made job.options >>= fun c =>
          compile (c.profile (start.shared.adopt job.options)) t).mapError Failure.message) ∧
      (∀ html, job.make start.shared f.content = .ok html →
        ((w.pass job).1.files.find? (job.output p)).map (·.content.toByteArray) =
          some (String.ofList html).toUTF8) ∧
      ∀ reason, job.make start.shared f.content = .error reason →
        (w.pass job).1.files.find? (job.output p) = w.files.find? (job.output p)) ∧
    ((w.pass job).2.Perm ((w.due job).map (w.attempt job start.shared)) ∧
      (w.pass job).2.length = (w.due job).length ∧
      failures (w.pass job).2 =
        (w.due job).countP fun p => (w.attempt job start.shared p).problem.isSome) ∧
    (((w.pass job).1.pass job).2.map (·.source)).Perm ((job.sources w.files).filter fun p =>
      ((w.pass job).1.files.find? (job.output p)).isNone) ∧
    ∀ a ∈ ((w.pass job).1.pass job).2, a.problem.isSome = true := by
  have hfresh := (fresh_start hcompiled hfiles).run hrun hapart
  obtain ⟨-, hv, hattempts⟩ := visited_pass hfresh hapart
  obtain ⟨-, -, hagain⟩ := visited_pass (hfresh.pass hapart) (hv.apart hapart)
  have hdue := due_pass hfresh hapart
  refine ⟨?_, ⟨hattempts, ?_, ?_⟩, ?_, ?_⟩
  · intro p hp f hf
    have hvisit := hv.seen p hp hp
    refine ⟨?_, ?_, ?_⟩
    · intro t ht
      rw [Job.make, Text.Utf8.eq_encode ht, compileFile_encode]
    · intro html hm
      have hcontent := hvisit.output_ok (hfresh.settled p (Job.mem_sources.mp hp).1) hf hm
      obtain ⟨o, ho, hbytes⟩ := Option.map_eq_some_iff.mp hcontent
      refine Option.map_eq_some_iff.mpr ⟨o, ho, ?_⟩
      rw [hbytes, Text.Utf8.toByteArray_encode]
    · intro reason hm
      exact hvisit.output_error hf hm
  · rw [hattempts.length_eq, List.length_map]
  · rw [failures, hattempts.countP_eq, List.countP_map]
    rfl
  · refine (hagain.map _).trans ?_
    rw [List.map_map]
    have hid : ((·.source) ∘ (w.pass job).1.attempt job start.shared) = id := rfl
    rwa [hid, List.map_id]
  · intro a hmem
    obtain ⟨p, hp, rfl⟩ := List.mem_map.mp (hagain.mem_iff.mp hmem)
    obtain ⟨hsource, hmissing⟩ := List.mem_filter.mp (hdue.mem_iff.mp hp)
    obtain ⟨f, hf⟩ := Option.isSome_iff_exists.mp (Job.mem_sources.mp hsource).2
    exact (hv.seen p hsource hsource).problem_of_missing
      (hfresh.settled p (Job.mem_sources.mp hsource).1) hf (Option.isNone_iff_eq_none.mp hmissing)

def sampleJob : Job where
  folder := [['i']]
  destination := [['o']]
  extensions := ["haml".toList]
  outputEnd := ".html".toList

/-- One source is there from the start, with a compiled file of unknown origin. -/
def sampleStart : World where
  files := {
    files := [
      ([['i'], "x.haml".toList], { content := [0x25, 0x70], modified := 5 }),
      ([['o'], "x.html".toList], { content := [], modified := 9 })] }

/-- The bytes of `%b é€😀`. -/
def sampleSource : List UInt8 :=
  [0x25, 0x62, 0x20, 0xC3, 0xA9, 0xE2, 0x82, 0xAC, 0xF0, 0x9F, 0x98, 0x80]

/-- A source in a subfolder is written twice, `=a` and then an element that cannot be compiled, and
its compiled file is thrown away; another one, `-endif`, was wrong from the start. -/
def sampleSteps : List Step :=
  [.pass, .edit [['s'], "y.haml".toList] [0x3D, 0x61] 7, .pass,
    .edit ["x.haml".toList] sampleSource 6,
    .edit [['s'], "y.haml".toList] [0x25, 0x70, 0x7B] 8,
    .edit [['s'], ['t'], "z.haml".toList] [0x2D, 0x65, 0x6E, 0x64, 0x69, 0x66] 1,
    .discard [['o'], ['s'], "y.html".toList]]

theorem pass_fresh_sample :
    ∃ w, sampleStart.run? sampleJob sampleSteps = some w ∧ sampleJob.Apart w.files ∧
      ((w.pass sampleJob).1.files.find? [['o'], "x.html".toList]).map (·.content) =
        some [0x3C, 0x62, 0x3E, 0xC3, 0xA9, 0xE2, 0x82, 0xAC, 0xF0, 0x9F, 0x98, 0x80,
          0x3C, 0x2F, 0x62, 0x3E, 0x0A] ∧
      (w.pass sampleJob).2.length = 3 ∧ failures (w.pass sampleJob).2 = 2 ∧
      ((w.pass sampleJob).1.pass sampleJob).2.length = 2 := by
  have hcheck : (sampleStart.run? sampleJob sampleSteps).any (fun w =>
      decide (sampleJob.Apart w.files ∧
        ["x.haml".toList] ∈ sampleJob.sources w.files ∧
        w.files.find? [['i'], "x.haml".toList] =
          some { content := sampleSource, modified := 6 } ∧
        (w.due sampleJob).length = 3 ∧
        (w.due sampleJob).countP (fun p => (w.attempt sampleJob {} p).problem.isSome) = 2 ∧
        ((sampleJob.sources w.files).filter fun p =>
          ((w.pass sampleJob).1.files.find? (sampleJob.output p)).isNone).length = 2)) = true := by
    decide +kernel
  obtain ⟨w, hrun, hw⟩ := (Option.any_eq_true _ _).mp hcheck
  obtain ⟨hapart, hmem, hfile, hdue, hfailed, hmissing⟩ := of_decide_eq_true hw
  obtain ⟨hfresh, ⟨-, htried, hfailures⟩, hagain, -⟩ := pass_fresh rfl (by decide) hrun hapart
  obtain ⟨hmake, hwritten, -⟩ := hfresh _ hmem _ hfile
  refine ⟨w, hrun, hapart, ?_, htried.trans hdue, hfailures.trans hfailed, ?_⟩
  · have htext : sampleJob.make {} sampleSource = .ok "<b>é€😀</b>\n".toList :=
      (hmake "%b é€😀".toList (by decide +kernel)).trans (by decide +kernel)
    obtain ⟨o, ho, hbytes⟩ := Option.map_eq_some_iff.mp (hwritten _ htext)
    refine Option.map_eq_some_iff.mpr ⟨o, ho, List.toByteArray_inj.mp (hbytes.trans ?_)⟩
    decide +kernel
  · rw [← hmissing, ← hagain.length_eq, List.length_map]

end World

end Haml.Watch
