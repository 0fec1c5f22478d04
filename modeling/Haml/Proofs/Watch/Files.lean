import Haml.Proofs.Dictionary
import Haml.Watch.FileSystem

/-!
What is found in a file system after a change, and what its directories show. A file that is there
is shown in its directory, and its directory in those above it.
-/
namespace Haml.Watch

namespace Path

theorem below?_eq_some {dir p r : Path} : below? dir p = some r ↔ p = dir ++ r := by
  induction dir generalizing p with
  | nil => simp [below?]
  | cons d dir ih =>
    cases p with
    | nil => simp [below?]
    | cons c p =>
      by_cases hd : d = c
      · simp [below?, hd, ih]
      · simp [below?, hd, Ne.symm hd]

@[simp]
theorem below?_append (dir r : Path) : below? dir (dir ++ r) = some r := below?_eq_some.mpr rfl

end Path

namespace FileSystem

variable {fs : FileSystem} {p q dir : Path} {f : File} {name : Text}

def Distinct (fs : FileSystem) : Prop := (fs.files.map (·.1)).Nodup

instance (fs : FileSystem) : Decidable fs.Distinct := inferInstanceAs (Decidable (List.Nodup _))

/-! ## Tables by path -/

section Tables

variable {β : Type} {table : List (Path × β)}

theorem lookup_cons_pair (q : Path) (e : Path × β) (table : List (Path × β)) :
    (e :: table).lookup q = if q = e.1 then some e.2 else table.lookup q := by
  rw [List.lookup_cons]
  by_cases h : q = e.1
  · simp [h]
  · simp [h, beq_eq_false_iff_ne.mpr h]

theorem isSome_lookup : (table.lookup p).isSome = true ↔ p ∈ table.map (·.1) := by
  induction table with
  | nil => simp
  | cons e table ih =>
    rw [lookup_cons_pair, List.map_cons, List.mem_cons, ← ih]
    split
    · next h => simp [h]
    · next h => simp [h]

theorem lookup_filter_ne (p q : Path) (table : List (Path × β)) :
    (table.filter (·.1 != p)).lookup q = if q = p then none else table.lookup q := by
  induction table with
  | nil => simp
  | cons e table ih =>
    obtain ⟨r, g⟩ := e
    rw [List.filter_cons, lookup_cons_pair]
    by_cases hr : r = p
    · by_cases hq : q = p
      · simpa [hr, hq] using ih
      · simpa [hr, hq] using ih
    · by_cases hq : q = r
      · simp [hr, hq]
      · simpa [lookup_cons_pair, hr, hq] using ih

end Tables

theorem isSome_find? : (fs.find? p).isSome = true ↔ p ∈ fs.files.map (·.1) := isSome_lookup

/-! ## Changes -/

theorem lookup_replaceOrAdd (files : List (Path × File)) :
    (put.replaceOrAdd p f files).lookup q = if q = p then some f else files.lookup q := by
  induction files with
  | nil => rw [put.replaceOrAdd, lookup_cons_pair]
  | cons e files ih =>
    obtain ⟨r, g⟩ := e
    rw [put.replaceOrAdd]
    split
    · next hr =>
      subst hr
      by_cases hq : q = r
      · simp [hq]
      · simp [lookup_cons_pair, hq]
    · next hr =>
      rw [lookup_cons_pair, lookup_cons_pair, ih]
      by_cases hq : q = r
      · simp [hq, hr]
      · simp [hq]

@[simp]
theorem find?_put (fs : FileSystem) (p : Path) (f : File) (q : Path) :
    (fs.put p f).find? q = if q = p then some f else fs.find? q := lookup_replaceOrAdd fs.files

@[simp]
theorem find?_putNow (fs : FileSystem) (p : Path) (content : List UInt8) (q : Path) :
    (fs.putNow p content).find? q =
      if q = p then some { content := content, modified := fs.clock } else fs.find? q :=
  find?_put ..

@[simp]
theorem find?_remove (fs : FileSystem) (p q : Path) :
    (fs.remove p).find? q = if q = p then none else fs.find? q := lookup_filter_ne p q fs.files

@[simp]
theorem find?_makeDirectory (fs : FileSystem) (p q : Path) :
    (fs.makeDirectory p).find? q = fs.find? q := by
  unfold makeDirectory
  split <;> rfl

theorem nodup_replaceOrAdd {files : List (Path × File)} (h : (files.map (·.1)).Nodup) :
    ((put.replaceOrAdd p f files).map (·.1)).Nodup := by
  induction files with
  | nil => simp [put.replaceOrAdd]
  | cons e files ih =>
    obtain ⟨r, g⟩ := e
    obtain ⟨hr, hrest⟩ := List.nodup_cons.mp h
    rw [put.replaceOrAdd]
    split
    · next hp => exact hp ▸ h
    · next hp =>
      rw [List.map_cons, List.nodup_cons]
      refine ⟨fun hmem => ?_, ih hrest⟩
      -- the file that was put is the only new one
      have hfound := isSome_lookup.mpr hmem
      rw [lookup_replaceOrAdd, if_neg hp] at hfound
      exact hr (isSome_lookup.mp hfound)

theorem Distinct.put (h : fs.Distinct) (p : Path) (f : File) : (fs.put p f).Distinct :=
  nodup_replaceOrAdd h

theorem Distinct.putNow (h : fs.Distinct) (p : Path) (content : List UInt8) :
    (fs.putNow p content).Distinct := h.put p _

theorem Distinct.remove (h : fs.Distinct) (p : Path) : (fs.remove p).Distinct :=
  List.Nodup.sublist (List.filter_sublist.map _) h

theorem Distinct.makeDirectory (h : fs.Distinct) (p : Path) : (fs.makeDirectory p).Distinct := by
  unfold FileSystem.makeDirectory
  split
  · exact h
  · exact h

/-! ## Directories -/

theorem hasDirectory_makeDirectory (fs : FileSystem) (p : Path) :
    (fs.makeDirectory p).hasDirectory p = true := by
  have hmade : p ∈ (fs.makeDirectory p).directories := by
    unfold makeDirectory
    split
    · next h => exact List.contains_iff_mem.mp h
    · exact List.mem_cons_self ..
  have hself : (Path.below? p p).isSome = true := by
    rw [Path.below?_eq_some.mpr (List.append_nil p).symm]
    rfl
  exact Bool.or_eq_true_iff.mpr (.inr (List.any_eq_true.mpr ⟨p, hmade, hself⟩))

/-- A file can be written where its directory was made. -/
theorem write_makeDirectory (fs : FileSystem) (p : Path) (content : List UInt8) :
    (fs.makeDirectory p.dropLast).write p content =
      some ((fs.makeDirectory p.dropLast).putNow p content) :=
  if_pos (hasDirectory_makeDirectory fs p.dropLast)

theorem mem_sortNames {names : List Text} : name ∈ sortNames names ↔ name ∈ names :=
  (List.mergeSort_perm _ _).mem_iff

theorem nodup_sortNames {names : List Text} (h : names.Nodup) : (sortNames names).Nodup :=
  (List.mergeSort_perm _ _).nodup_iff.mpr h

/-- The name that a path shows in a directory if it is one of a file there. -/
def fileName? (dir p : Path) : Option Text :=
  match Path.below? dir p with
  | some [name] => some name
  | _ => none

theorem fileName?_eq_some : fileName? dir p = some name ↔ p = dir ++ [name] := by
  rw [← Path.below?_eq_some, fileName?]
  split
  · next h => simp [h]
  · next h => simpa using fun hp => h _ hp

theorem filesIn_eq (fs : FileSystem) (dir : Path) :
    fs.filesIn dir = sortNames ((fs.files.map (·.1)).filterMap (fileName? dir)) := by
  rw [List.filterMap_map]
  rfl

theorem mem_filesIn : name ∈ fs.filesIn dir ↔ (fs.find? (dir ++ [name])).isSome = true := by
  rw [filesIn_eq, mem_sortNames, List.mem_filterMap, isSome_find?]
  simp only [fileName?_eq_some, exists_eq_right]

theorem nodup_filesIn (h : fs.Distinct) (dir : Path) : (fs.filesIn dir).Nodup := by
  rw [filesIn_eq]
  apply nodup_sortNames
  apply List.Nodup.filterMap _ h
  intro p q name hp hq
  rw [fileName?_eq_some.mp hp, fileName?_eq_some.mp hq]

theorem nodup_directoriesIn (fs : FileSystem) (dir : Path) : (fs.directoriesIn dir).Nodup :=
  nodup_sortNames (nodup_eraseDups _)

/-- The directories on the way to a file are shown in those above them. -/
theorem mem_directoriesIn {c : Text} {r : Path}
    (h : (fs.find? (dir ++ name :: c :: r)).isSome = true) : name ∈ fs.directoriesIn dir := by
  obtain ⟨e, he, hpath⟩ := List.mem_map.mp (isSome_find?.mp h)
  simp only [directoriesIn, mem_sortNames, List.mem_eraseDups, List.mem_append, List.mem_filterMap]
  exact .inl ⟨e, he, by simp [hpath]⟩

/-- No path of a file is as long as the extent of the file system. -/
theorem length_lt_extent (h : (fs.find? p).isSome = true) : p.length < fs.extent := by
  have hle : p.length ≤ (fs.files.map (·.1) ++ fs.directories).flatten.length :=
    (List.sublist_flatten_of_mem (List.mem_append_left _ (isSome_find?.mp h))).length_le
  unfold extent
  omega

end FileSystem

end Haml.Watch
