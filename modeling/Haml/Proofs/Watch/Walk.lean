import Haml.Proofs.Watch.Visits

/-!
The walk of a pass. A pass looks at each folder when it comes to it, so it also sees what it has
written itself. If the compiled files are apart from the sources, it visits every source once all
the same, and no other file.
-/
namespace Haml.Watch

namespace World

variable {job : Job} {start : Shared} {w : World} {p dir : Path} {levels : Nat}

/-- Whatever visits keep is kept by a pass. -/
theorem passIn_keeps {P : World → Prop} (hvisit : ∀ w p, P w → P (w.visit job p).1)
    (levels : Nat) (dir : Path) (h : P w) : P (passIn job levels w dir).1 := by
  have hall : ∀ (ps : List Path) (w : World), P w → P (visitAll job w ps).1 := by
    intro ps
    induction ps with
    | nil => exact fun _ h => h
    | cons p ps ih => exact fun w h => ih _ (hvisit w p h)
  induction levels generalizing w dir with
  | zero => exact h
  | succ levels ih =>
    rw [passIn]
    generalize w.files.directoriesIn (job.folder ++ dir) = names
    generalize hdone : visitAll job w (w.sourcesIn job dir) = done
    have hd : P done.1 := hdone ▸ hall _ w h
    clear hdone
    induction names generalizing done with
    | nil => exact hd
    | cons name names ihn => exact ihn _ (ih _ hd)

/-- A path below a directory, at most so many levels further down. -/
def Within (dir : Path) (levels : Nat) (p : Path) : Prop :=
  ∃ r, p = dir ++ r ∧ r ≠ [] ∧ r.length ≤ levels

theorem within_succ :
    Within dir (levels + 1) p ↔
      (∃ name, p = dir ++ [name]) ∨ ∃ name, Within (dir ++ [name]) levels p := by
  constructor
  · rintro ⟨r, rfl, hne, hlen⟩
    cases r with
    | nil => exact absurd rfl hne
    | cons name r =>
      cases r with
      | nil => exact .inl ⟨name, rfl⟩
      | cons c r => exact .inr ⟨name, c :: r, by simp, by simp, by simpa using hlen⟩
  · rintro (⟨name, rfl⟩ | ⟨name, r, rfl, -, hlen⟩)
    · exact ⟨[name], rfl, by simp, by simp⟩
    · exact ⟨name :: r, by simp, by simp, by simpa using hlen⟩

/-- The paths below two directories beside each other are different. -/
theorem Within.name_eq {name name' : Text} {levels' : Nat} (h : Within (dir ++ [name]) levels p)
    (h' : Within (dir ++ [name']) levels' p) : name = name' := by
  obtain ⟨r, rfl, -, -⟩ := h
  obtain ⟨r', he, -, -⟩ := h'
  have hboth : name = name' ∧ r = r' := by simpa using he
  exact hboth.1

theorem Within.ne_file {name name' : Text} (h : Within (dir ++ [name]) levels p) :
    p ≠ dir ++ [name'] := by
  obtain ⟨r, rfl, hne, -⟩ := h
  simp [hne]

theorem mem_sourcesIn :
    p ∈ w.sourcesIn job dir ↔ p ∈ job.sources w.files ∧ ∃ name, p = dir ++ [name] := by
  rw [Job.mem_sources, sourcesIn, List.mem_map]
  simp only [List.mem_filter, FileSystem.mem_filesIn]
  constructor
  · rintro ⟨name, ⟨hfile, hwatches⟩, rfl⟩
    exact ⟨⟨by simpa [Job.isSource] using hwatches, by simpa using hfile⟩, name, rfl⟩
  · rintro ⟨⟨hsource, hfile⟩, name, rfl⟩
    exact ⟨name, ⟨by simpa using hfile, by simpa [Job.isSource] using hsource⟩, rfl⟩

theorem nodup_sourcesIn (job : Job) (h : w.files.Distinct) (dir : Path) :
    (w.sourcesIn job dir).Nodup := by
  apply List.Nodup.map
  · intro a b he
    simpa using he
  · exact (FileSystem.nodup_filesIn h _).filter _

/-- Passes over folders beside each other visit the sources of all of them, if a pass over each does
so. -/
theorem foldl_passIn (dir : Path)
    (ih : ∀ (w : World) (dir : Path), Orderly job start w → job.Apart w.files →
      ∃ ps, passIn job levels w dir = visitAll job w ps ∧ ps.Nodup ∧
        ∀ p, p ∈ ps ↔ p ∈ job.sources w.files ∧ Within dir levels p)
    {names : List Text} (hn : names.Nodup) (ho : Orderly job start w) (ha : job.Apart w.files)
    (attempts : List Attempt) :
    ∃ ps, names.foldl
        (fun done name =>
          let (w, attempts) := passIn job levels done.1 (dir ++ [name])
          (w, done.2 ++ attempts)) (w, attempts) =
        ((visitAll job w ps).1, attempts ++ (visitAll job w ps).2) ∧ ps.Nodup ∧
      ∀ p, p ∈ ps ↔ p ∈ job.sources w.files ∧ ∃ name ∈ names, Within (dir ++ [name]) levels p := by
  induction names generalizing w attempts with
  | nil => exact ⟨[], by simp [visitAll], List.nodup_nil, by simp⟩
  | cons name names ihn =>
    obtain ⟨hname, hn⟩ := List.nodup_cons.mp hn
    obtain ⟨ps, hps, hnodup, hmem⟩ := ih w (dir ++ [name]) ho ha
    have hvisited := visited_visitAll ho ha (fun p hp => ((hmem p).mp hp).1) hnodup
    obtain ⟨qs, hqs, hnodup', hmem'⟩ :=
      ihn hn (ho.visitAll ps) (hvisited.apart ha) (attempts ++ (visitAll job w ps).2)
    have hsources : ∀ p, p ∈ qs ↔
        p ∈ job.sources w.files ∧ ∃ name ∈ names, Within (dir ++ [name]) levels p := fun p => by
      rw [hmem' p, hvisited.mem_sources]
    refine ⟨ps ++ qs, ?_, ?_, ?_⟩
    · rw [List.foldl_cons, visitAll_append]
      simp only [hps, hqs, List.append_assoc]
    · apply List.Nodup.append hnodup hnodup'
      intro p hp hq
      obtain ⟨-, other, hother, hwithin⟩ := (hsources p).mp hq
      exact hname (((hmem p).mp hp).2.name_eq hwithin ▸ hother)
    · intro p
      rw [List.mem_append, hmem, hsources, List.exists_mem_cons_iff, ← and_or_left]

/-- A pass over a folder visits the sources below it, as far as it goes down. -/
theorem passIn_eq_visitAll (ho : Orderly job start w) (ha : job.Apart w.files) (levels : Nat)
    (dir : Path) :
    ∃ ps, passIn job levels w dir = visitAll job w ps ∧ ps.Nodup ∧
      ∀ p, p ∈ ps ↔ p ∈ job.sources w.files ∧ Within dir levels p := by
  induction levels generalizing w dir with
  | zero =>
    refine ⟨[], rfl, List.nodup_nil, ?_⟩
    intro p
    constructor
    · intro hp
      cases hp
    · rintro ⟨-, r, -, hne, hlen⟩
      exact absurd (List.length_eq_zero_iff.mp (by omega)) hne
  | succ levels ih =>
    have hmem : ∀ p ∈ w.sourcesIn job dir, p ∈ job.sources w.files := fun p hp =>
      (mem_sourcesIn.mp hp).1
    have hnodup := nodup_sourcesIn job ho.distinct dir
    have hvisited := visited_visitAll ho ha hmem hnodup
    obtain ⟨qs, hqs, hnodup', hmem'⟩ := foldl_passIn dir (fun w dir ho ha => ih ho ha dir)
      (w.files.nodup_directoriesIn (job.folder ++ dir)) (ho.visitAll (w.sourcesIn job dir))
      (hvisited.apart ha) (visitAll job w (w.sourcesIn job dir)).2
    refine ⟨w.sourcesIn job dir ++ qs, ?_, ?_, ?_⟩
    · rw [passIn, visitAll_append]
      exact hqs
    · apply List.Nodup.append hnodup hnodup'
      intro p hp hq
      obtain ⟨-, name, rfl⟩ := mem_sourcesIn.mp hp
      obtain ⟨-, other, -, hwithin⟩ := (hmem' _).mp hq
      exact hwithin.ne_file rfl
    · intro p
      rw [List.mem_append, mem_sourcesIn, hmem', hvisited.mem_sources, ← and_or_left, within_succ]
      refine and_congr_right fun hp => or_congr_right ⟨?_, ?_⟩
      · rintro ⟨name, -, hwithin⟩
        exact ⟨name, hwithin⟩
      · -- the folder that a source is in is shown when the pass looks for it
        rintro ⟨name, r, rfl, hne, hlen⟩
        obtain ⟨c, r, rfl⟩ := List.exists_cons_of_ne_nil hne
        refine ⟨name, ?_, _, rfl, hne, hlen⟩
        apply FileSystem.mem_directoriesIn (c := c) (r := r)
        simpa using (Job.mem_sources.mp hp).2

/-- A pass visits every source once. -/
theorem pass_eq_visitAll (ho : Orderly job start w) (ha : job.Apart w.files) :
    ∃ ps, w.pass job = visitAll job w ps ∧ ps.Perm (job.sources w.files) := by
  obtain ⟨ps, hps, hnodup, hmem⟩ := passIn_eq_visitAll ho ha w.files.extent []
  refine ⟨ps, hps, (List.perm_ext_iff_of_nodup hnodup (Job.nodup_sources ho.distinct)).mpr ?_⟩
  intro p
  rw [hmem p]
  refine and_iff_left_of_imp fun hp => ?_
  obtain ⟨hsource, hfile⟩ := Job.mem_sources.mp hp
  have hlen := FileSystem.length_lt_extent hfile
  rw [List.length_append] at hlen
  refine ⟨p, rfl, ?_, by omega⟩
  rintro rfl
  cases hsource

end World

end Haml.Watch
