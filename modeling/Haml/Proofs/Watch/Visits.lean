import Haml.Proofs.Watch.Compilers
import Haml.Proofs.Watch.Files

/-!
Visits to sources. A visit reads the source, the time that was noted for it and its compiled file,
and it changes at most the latter two. If the compiled files are apart from each other and from the
sources, a visit to one source is not seen by any other, so what some visits do is what each of them
does alone.
-/
namespace Haml.Watch

namespace Job

def isSource (job : Job) (p : Path) : Bool := p.getLast?.any job.watches

def isWatched (job : Job) (path : Path) : Bool := (Path.below? job.folder path).any job.isSource

/-- The sources that there are, as paths from the watched folder. -/
def sources (job : Job) (fs : FileSystem) : List Path :=
  (fs.files.filterMap fun e => Path.below? job.folder e.1).filter job.isSource

/-- What comes of the content of a source. -/
def make (job : Job) (shared : Shared) (content : List UInt8) : Except Text Text :=
  (compileFile job.options shared content).1

/-- The sources have compiled files of their own, and none of these is watched itself. -/
structure Apart (job : Job) (fs : FileSystem) : Prop where
  distinct : ∀ p ∈ job.sources fs, ∀ q ∈ job.sources fs, job.output p = job.output q → p = q
  outside : ∀ p ∈ job.sources fs, job.isWatched (job.output p) = false

instance (job : Job) (fs : FileSystem) : Decidable (job.Apart fs) :=
  decidable_of_iff
    ((∀ p ∈ job.sources fs, ∀ q ∈ job.sources fs, job.output p = job.output q → p = q) ∧
      ∀ p ∈ job.sources fs, job.isWatched (job.output p) = false)
    ⟨fun h => ⟨h.1, h.2⟩, fun h => ⟨h.1, h.2⟩⟩

variable {job : Job} {fs fs' : FileSystem} {p q : Path}

theorem mem_sources :
    p ∈ job.sources fs ↔ job.isSource p = true ∧ (fs.find? (job.folder ++ p)).isSome = true := by
  simp only [sources, List.mem_filter, List.mem_filterMap, Path.below?_eq_some,
    FileSystem.isSome_find?, List.mem_map]
  exact And.comm

theorem nodup_sources (h : fs.Distinct) : (job.sources fs).Nodup := by
  apply List.Nodup.filter
  have hmap : (fs.files.filterMap fun e => Path.below? job.folder e.1) =
      (fs.files.map (·.1)).filterMap (Path.below? job.folder) := by
    rw [List.filterMap_map]
    rfl
  rw [hmap]
  apply List.Nodup.filterMap _ h
  intro p q r hp hq
  rw [Path.below?_eq_some.mp hp, Path.below?_eq_some.mp hq]

theorem isWatched_source (hp : job.isSource p = true) : job.isWatched (job.folder ++ p) = true := by
  simp [isWatched, hp]

/-- Fewer sources are still apart. -/
theorem Apart.mono (h : job.Apart fs) (hsub : ∀ p ∈ job.sources fs', p ∈ job.sources fs) :
    job.Apart fs' where
  distinct p hp q hq := h.distinct p (hsub p hp) q (hsub q hq)
  outside p hp := h.outside p (hsub p hp)

/-- The compiled file of a source is not where another file is watched. -/
theorem Apart.output_ne (h : job.Apart fs) (hp : p ∈ job.sources fs) (hq : job.isSource q = true) :
    job.folder ++ q ≠ job.output p := by
  intro he
  have hwatched := isWatched_source hq
  rw [he, h.outside p hp] at hwatched
  cases hwatched

end Job

/-! ## What a visit sees -/

/-- What a visit to a source goes by: the source, the time that was noted for it and its compiled
file. -/
structure Glimpse where
  source : Option File
  noted : Option Int
  output : Option File
  deriving DecidableEq

def World.glimpse (job : Job) (w : World) (p : Path) : Glimpse where
  source := w.files.find? (job.folder ++ p)
  noted := w.compiled.lookup (job.folder ++ p)
  output := w.files.find? (job.output p)

namespace Glimpse

def isDue (g : Glimpse) : Bool :=
  g.source.any fun f => g.noted.all fun t => t < f.modified || g.output.isNone

def problem? (make : List UInt8 → Except Text Text) (g : Glimpse) : Option Text :=
  g.source.bind fun f => match make f.content with
    | .error reason => some reason
    | .ok _ => none

/-- What a visit makes of what it sees. -/
inductive Visit (make : List UInt8 → Except Text Text) (g : Glimpse) : Glimpse → Prop where
  | idle (h : g.isDue = false) : Visit make g g
  | failed {f : File} {reason : Text} (h : g.isDue = true) (hf : g.source = some f)
      (hm : make f.content = .error reason) : Visit make g { g with noted := some f.modified }
  | written {f : File} {html : Text} {t : Int} (h : g.isDue = true) (hf : g.source = some f)
      (hm : make f.content = .ok html) :
      Visit make g
        { g with
          noted := some f.modified
          output := some { content := Text.Utf8.encode html, modified := t } }

end Glimpse

def World.attempt (job : Job) (shared : Shared) (w : World) (p : Path) : Attempt where
  source := p
  problem := (w.glimpse job p).problem? (job.make shared)

def World.due (job : Job) (w : World) : List Path :=
  (job.sources w.files).filter fun p => (w.glimpse job p).isDue

/-! ## One visit -/

namespace World

variable {job : Job} {start : Shared} {w w' w'' : World} {p q : Path} {ps qs : List Path}

inductive Visits (job : Job) (w : World) (p : Path) : World × Option Attempt → Prop where
  | absent (h : w.files.find? (job.folder ++ p) = none) : Visits job w p (w, none)
  | idle (h : (w.glimpse job p).isDue = false) : Visits job w p (w.prepare job p, none)
  | failed {f : File} {reason : Text} {shared : Shared} (h : (w.glimpse job p).isDue = true)
      (hf : w.files.find? (job.folder ++ p) = some f)
      (hc : compileFile job.options w.shared f.content = (.error reason, shared)) :
      Visits job w p
        ({ (w.prepare job p).note (job.folder ++ p) f.modified with shared := shared },
          some { source := p, problem := some reason })
  | written {f : File} {html : Text} {shared : Shared} (h : (w.glimpse job p).isDue = true)
      (hf : w.files.find? (job.folder ++ p) = some f)
      (hc : compileFile job.options w.shared f.content = (.ok html, shared)) :
      Visits job w p
        ({ (w.prepare job p).note (job.folder ++ p) f.modified with
            files := (w.prepare job p).files.putNow (job.output p) (Text.Utf8.encode html)
            shared := shared },
          some { source := p, problem := none })

theorem isDue_prepare {f : File} (hf : w.files.find? (job.folder ++ p) = some f) :
    (w.prepare job p).isDue (job.folder ++ p) (job.output p) f.modified =
      (w.glimpse job p).isDue := by
  simp only [isDue, prepare, Glimpse.isDue, glimpse, hf, Option.any_some,
    FileSystem.find?_makeDirectory]
  cases w.compiled.lookup (job.folder ++ p) <;> rfl

/-- The folder of the compiled file of a source has been made. -/
theorem write_prepare (job : Job) (w : World) (p : Path) (content : List UInt8) :
    (w.prepare job p).files.write (job.output p) content =
      some ((w.prepare job p).files.putNow (job.output p) content) := by
  have hfolder : job.destination ++ p.dropLast = (job.output p).dropLast :=
    List.dropLast_concat.symm
  rw [prepare, hfolder]
  exact FileSystem.write_makeDirectory ..

theorem visits (job : Job) (w : World) (p : Path) : Visits job w p (w.visit job p) := by
  unfold visit
  cases hf : w.files.find? (job.folder ++ p) with
  | none => exact .absent hf
  | some f =>
    dsimp only
    rw [isDue_prepare hf]
    cases hdue : (w.glimpse job p).isDue with
    | false => exact .idle hdue
    | true =>
      rw [if_pos rfl]
      cases hc : compileFile job.options w.shared f.content with
      | mk result shared =>
        have hc' : compileFile job.options
            ((w.prepare job p).note (job.folder ++ p) f.modified).shared f.content =
            (result, shared) := hc
        rw [hc']
        cases result with
        | error reason => exact .failed hdue hf hc
        | ok html =>
          have hwrite : ((w.prepare job p).note (job.folder ++ p) f.modified).files.write
              (job.output p) (Text.Utf8.encode html) = _ := write_prepare job w p _
          dsimp only
          rw [hwrite]
          exact .written hdue hf hc

@[simp]
theorem lookup_note (w : World) (p q : Path) (t : Int) :
    (w.note p t).compiled.lookup q = if q = p then some t else w.compiled.lookup q := by
  rw [note, FileSystem.lookup_cons_pair, FileSystem.lookup_filter_ne]
  split <;> rfl

@[simp]
theorem files_note (w : World) (p : Path) (t : Int) : (w.note p t).files = w.files := rfl

@[simp]
theorem compiled_prepare (job : Job) (w : World) (p : Path) :
    (w.prepare job p).compiled = w.compiled := rfl

@[simp]
theorem find?_prepare (job : Job) (w : World) (p q : Path) :
    (w.prepare job p).files.find? q = w.files.find? q := FileSystem.find?_makeDirectory ..

/-- A file that is there is still there after a visit. -/
theorem isSome_find?_visit (h : (w.files.find? q).isSome = true) :
    ((w.visit job p).1.files.find? q).isSome = true := by
  have hvisit := visits job w p
  generalize w.visit job p = r at hvisit ⊢
  cases hvisit with
  | absent => exact h
  | idle => simpa using h
  | failed => simpa using h
  | written =>
    dsimp only
    rw [FileSystem.find?_putNow]
    split
    · rfl
    · simpa using h

/-- What visits go by in a world. -/
structure Orderly (job : Job) (start : Shared) (w : World) : Prop where
  distinct : w.files.Distinct
  shared : SharedBy job.options start w.shared

theorem Orderly.visit (h : Orderly job start w) (p : Path) :
    Orderly job start (w.visit job p).1 := by
  have hprepare : (w.prepare job p).files.Distinct := h.distinct.makeDirectory _
  have hvisit := visits job w p
  generalize w.visit job p = r at hvisit ⊢
  cases hvisit with
  | absent => exact h
  | idle => exact ⟨hprepare, h.shared⟩
  | @failed f reason shared _ _ hc =>
    refine ⟨hprepare, ?_⟩
    have hshared := h.shared.compileFile f.content
    rwa [hc] at hshared
  | @written f html shared _ _ hc =>
    refine ⟨hprepare.putNow _ _, ?_⟩
    have hshared := h.shared.compileFile f.content
    rwa [hc] at hshared

/-- What a visit tries. -/
theorem visit_attempt (h : Orderly job start w) (p : Path) :
    (w.visit job p).2 =
      if (w.glimpse job p).isDue then some (w.attempt job start p) else none := by
  have hvisit := visits job w p
  generalize w.visit job p = r at hvisit ⊢
  cases hvisit with
  | absent hf => simp [Glimpse.isDue, glimpse, hf]
  | idle hdue => simp [hdue]
  | @failed f reason shared hdue hf hc =>
    have hmake : job.make start f.content = .error reason := by
      rw [Job.make, ← h.shared.compileFile_eq, hc]
    rw [if_pos hdue]
    simp [attempt, Glimpse.problem?, glimpse, hf, hmake]
  | @written f html shared hdue hf hc =>
    have hmake : job.make start f.content = .ok html := by
      rw [Job.make, ← h.shared.compileFile_eq, hc]
    rw [if_pos hdue]
    simp [attempt, Glimpse.problem?, glimpse, hf, hmake]

/-! ## Visits one after another -/

/-- A world after visits to some sources: each of them sees what a visit to it alone leaves behind,
and nothing else that is seen has changed. -/
structure Visited (job : Job) (start : Shared) (w w' : World) (ps : List Path) : Prop where
  source : ∀ q, job.isSource q = true →
    w'.files.find? (job.folder ++ q) = w.files.find? (job.folder ++ q)
  noted : ∀ q, q ∉ ps → w'.compiled.lookup (job.folder ++ q) = w.compiled.lookup (job.folder ++ q)
  seen : ∀ q ∈ job.sources w.files, q ∈ ps →
    Glimpse.Visit (job.make start) (w.glimpse job q) (w'.glimpse job q)
  unseen : ∀ q ∈ job.sources w.files, q ∉ ps → w'.glimpse job q = w.glimpse job q

theorem Visited.mem_sources (h : Visited job start w w' ps) :
    q ∈ job.sources w'.files ↔ q ∈ job.sources w.files := by
  rw [Job.mem_sources, Job.mem_sources]
  refine and_congr_right fun hq => ?_
  rw [h.source q hq]

theorem Visited.apart (h : Visited job start w w' ps) (ha : job.Apart w.files) :
    job.Apart w'.files := ha.mono fun _ => h.mem_sources.mp

theorem Visited.refl (job : Job) (start : Shared) (w : World) : Visited job start w w [] where
  source _ _ := rfl
  noted _ _ := rfl
  seen _ _ hq := nomatch hq
  unseen _ _ _ := rfl

theorem Visited.trans (h : Visited job start w w' ps) (h' : Visited job start w' w'' qs)
    (hd : ps.Disjoint qs) : Visited job start w w'' (ps ++ qs) where
  source q hq := (h'.source q hq).trans (h.source q hq)
  noted q hq := by
    rw [List.mem_append, not_or] at hq
    exact (h'.noted q hq.2).trans (h.noted q hq.1)
  seen q hq hmem := by
    have hq' := h.mem_sources.mpr hq
    rcases List.mem_append.mp hmem with hmem | hmem
    · rw [h'.unseen q hq' (hd hmem)]
      exact h.seen q hq hmem
    · rw [← h.unseen q hq fun hp => hd hp hmem]
      exact h'.seen q hq' hmem
  unseen q hq hmem := by
    rw [List.mem_append, not_or] at hmem
    rw [h'.unseen q (h.mem_sources.mpr hq) hmem.2, h.unseen q hq hmem.1]

/-- A visit to a source. -/
theorem visited_visit (ho : Orderly job start w) (ha : job.Apart w.files)
    (hp : p ∈ job.sources w.files) : Visited job start w (w.visit job p).1 [p] := by
  have hother : ∀ q, q ∉ [p] → job.folder ++ q ≠ job.folder ++ p := by
    intro q hq he
    exact hq (List.mem_singleton.mpr (List.append_cancel_left he))
  have hself : job.folder ++ p ≠ job.output p := ha.output_ne hp (Job.mem_sources.mp hp).1
  have houtput : ∀ q ∈ job.sources w.files, q ∉ [p] → job.output q ≠ job.output p := by
    intro q hq hne he
    exact hne (List.mem_singleton.mpr (ha.distinct q hq p hp he))
  have hvisit := visits job w p
  generalize w.visit job p = r at hvisit ⊢
  cases hvisit with
  | absent hf =>
    rw [Job.mem_sources, hf] at hp
    cases hp.2
  | idle hdue =>
    have hglimpse : ∀ q, (w.prepare job p).glimpse job q = w.glimpse job q := by
      intro q
      simp [glimpse]
    refine ⟨fun q _ => by simp, fun q _ => rfl, ?_, fun q _ _ => hglimpse q⟩
    intro q _ hq
    rw [hglimpse, List.mem_singleton.mp hq]
    exact .idle hdue
  | @failed f reason shared hdue hf hc =>
    have hmake : job.make start f.content = .error reason := by
      rw [Job.make, ← ho.shared.compileFile_eq, hc]
    refine ⟨fun q _ => by simp, ?_, ?_, ?_⟩
    · intro q hq
      simp [hother q hq]
    · intro q _ hq
      obtain rfl := List.mem_singleton.mp hq
      have hvisit := Glimpse.Visit.failed hdue hf hmake
      simpa [glimpse] using hvisit
    · intro q _ hq
      simp [glimpse, hother q hq]
  | @written f html shared hdue hf hc =>
    have hmake : job.make start f.content = .ok html := by
      rw [Job.make, ← ho.shared.compileFile_eq, hc]
    refine ⟨?_, ?_, ?_, ?_⟩
    · intro q hq
      simp [ha.output_ne hp hq]
    · intro q hq
      simp [hother q hq]
    · intro q _ hq
      obtain rfl := List.mem_singleton.mp hq
      have hvisit := Glimpse.Visit.written (t := (w.prepare job q).files.clock) hdue hf hmake
      simpa [glimpse, hself] using hvisit
    · intro q hmem hq
      have hsource := (Job.mem_sources.mp hmem).1
      simp [glimpse, hother q hq, ha.output_ne hp hsource, houtput q hmem hq]

theorem visitAll_append (job : Job) (w : World) (ps qs : List Path) :
    visitAll job w (ps ++ qs) =
      ((visitAll job (visitAll job w ps).1 qs).1,
        (visitAll job w ps).2 ++ (visitAll job (visitAll job w ps).1 qs).2) := by
  induction ps generalizing w with
  | nil => rfl
  | cons p ps ih => simp [visitAll, ih]

theorem Orderly.visitAll (h : Orderly job start w) (ps : List Path) :
    Orderly job start (visitAll job w ps).1 := by
  induction ps generalizing w with
  | nil => exact h
  | cons p ps ih => exact ih (h.visit p)

theorem visited_visitAll (ho : Orderly job start w) (ha : job.Apart w.files)
    (hps : ∀ p ∈ ps, p ∈ job.sources w.files) (hn : ps.Nodup) :
    Visited job start w (visitAll job w ps).1 ps := by
  induction ps generalizing w with
  | nil => exact Visited.refl job start w
  | cons p ps ih =>
    obtain ⟨hp, hn⟩ := List.nodup_cons.mp hn
    have hvisit := visited_visit ho ha (hps p (List.mem_cons_self ..))
    have hrest : ∀ q ∈ ps, q ∈ job.sources (w.visit job p).1.files := fun q hq =>
      hvisit.mem_sources.mpr (hps q (List.mem_cons_of_mem _ hq))
    exact hvisit.trans (ih (ho.visit p) (hvisit.apart ha) hrest hn)
      (List.singleton_disjoint.mpr hp)

/-- What visits try is due in the world that they start from. -/
theorem visitAll_attempts (ho : Orderly job start w) (ha : job.Apart w.files)
    (hps : ∀ p ∈ ps, p ∈ job.sources w.files) (hn : ps.Nodup) :
    (visitAll job w ps).2 =
      (ps.filter fun p => (w.glimpse job p).isDue).map (w.attempt job start) := by
  induction ps generalizing w with
  | nil => rfl
  | cons p ps ih =>
    obtain ⟨hp, hn⟩ := List.nodup_cons.mp hn
    have hvisit := visited_visit ho ha (hps p (List.mem_cons_self ..))
    have hsources : ∀ q ∈ ps, q ∈ job.sources w.files := fun q hq =>
      hps q (List.mem_cons_of_mem _ hq)
    have hsame : ∀ q ∈ ps, (w.visit job p).1.glimpse job q = w.glimpse job q := by
      intro q hq
      apply hvisit.unseen q (hsources q hq)
      rintro hqp
      exact hp (List.mem_singleton.mp hqp ▸ hq)
    have hrest : (visitAll job (w.visit job p).1 ps).2 =
        (ps.filter fun q => (w.glimpse job q).isDue).map (w.attempt job start) := by
      rw [ih (ho.visit p) (hvisit.apart ha) (fun q hq => hvisit.mem_sources.mpr (hsources q hq)) hn,
        List.filter_congr fun q hq => by rw [hsame q hq]]
      apply List.map_congr_left
      intro q hq
      simp [attempt, hsame q (List.mem_of_mem_filter hq)]
    have hstep : (visitAll job w (p :: ps)).2 =
        (w.visit job p).2.toList ++ (visitAll job (w.visit job p).1 ps).2 := rfl
    rw [hstep, hrest, visit_attempt ho p, List.filter_cons]
    split <;> rfl

end World

end Haml.Watch
