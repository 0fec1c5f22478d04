import Haml.Dictionary
import Mathlib.Data.List.Induction
import Mathlib.Data.List.Nodup

/-!
Dictionaries after entries have been put in. An entry of a key that is there replaces its value
where it stands; `Dictionary.merged` says for a list of entries what is left of them.
-/
namespace Haml

theorem nodup_eraseDups {α : Type} [BEq α] [LawfulBEq α] (l : List α) : l.eraseDups.Nodup := by
  cases l with
  | nil => simp
  | cons a l =>
    rw [List.eraseDups_cons, List.nodup_cons]
    exact ⟨by simp [List.mem_eraseDups], nodup_eraseDups _⟩
termination_by l.length
decreasing_by exact Nat.lt_succ_of_le (List.length_filter_le _ _)

namespace Dictionary

variable {β κ : Type} [DecidableEq κ] {d : Dictionary β κ} {j k : κ} {v x : β}

/-! ## What is in a dictionary -/

theorem mem_of_get? {d : Dictionary β κ} {key : κ} {v : β} (h : d.get? key = some v) :
    (key, v) ∈ d := by
  obtain ⟨entry, hfind, rfl⟩ := Option.map_eq_some_iff.mp h
  have hkey : entry.1 = key := by simpa using List.find?_some hfind
  rw [← hkey]
  exact List.mem_of_find?_eq_some hfind

theorem mem_insert {d : Dictionary β κ} {key : κ} {value : β} {entry : κ × β}
    (h : entry ∈ d.insert key value) : entry ∈ d ∨ entry = (key, value) := by
  induction d with
  | nil => exact .inr (List.mem_singleton.mp h)
  | cons first d ih =>
    obtain ⟨k, v⟩ := first
    rw [insert] at h
    split at h
    · next hk =>
      rcases List.mem_cons.mp h with rfl | h
      · exact .inr (by rw [hk])
      · exact .inl (List.mem_cons_of_mem _ h)
    · rcases List.mem_cons.mp h with rfl | h
      · exact .inl (List.mem_cons_self ..)
      · rcases ih h with h | h
        · exact .inl (List.mem_cons_of_mem _ h)
        · exact .inr h

theorem mem_update {d new : Dictionary β κ} {entry : κ × β} (h : entry ∈ d.update new) :
    entry ∈ d ∨ entry ∈ new := by
  induction new generalizing d with
  | nil => exact .inl h
  | cons first new ih =>
    rcases ih h with h | h
    · rcases mem_insert h with h | rfl
      · exact .inl h
      · exact .inr (List.mem_cons_self ..)
    · exact .inr (List.mem_cons_of_mem _ h)

theorem mem_keys_insert : j ∈ (d.insert k v).keys ↔ j = k ∨ j ∈ d.keys := by
  induction d with
  | nil => simp [insert, keys]
  | cons e d ih =>
    obtain ⟨i, y⟩ := e
    rw [insert]
    split
    · next hi =>
      subst hi
      simp [keys]
    · have hrest : j ∈ keys ((i, y) :: insert k v d) ↔ j = i ∨ j ∈ keys (insert k v d) := by
        simp [keys]
      rw [hrest, ih]
      simp [keys, or_left_comm]

theorem mem_keys_update {new : Dictionary β κ} :
    j ∈ (d.update new).keys ↔ j ∈ new.keys ∨ j ∈ d.keys := by
  induction new generalizing d with
  | nil => simp [update, keys]
  | cons e new ih =>
    have hstep : d.update (e :: new) = (d.insert e.1 e.2).update new := rfl
    rw [hstep, ih, mem_keys_insert]
    simp [keys, or_left_comm, or_assoc]

/-! ## Where it is -/

theorem insert_of_not_mem {key : κ} (v : β) (h : key ∉ d.keys) :
    d.insert key v = d ++ [(key, v)] := by
  induction d with
  | nil => rfl
  | cons e d ih =>
    simp only [keys, List.map_cons, List.mem_cons, not_or] at h
    rw [insert, if_neg (Ne.symm h.1), ih h.2]
    rfl

theorem insert_insert (k : κ) (v x : β) (d : Dictionary β κ) :
    (d.insert k x).insert k v = d.insert k v := by
  induction d with
  | nil => simp [insert]
  | cons e d ih =>
    obtain ⟨i, y⟩ := e
    by_cases hi : i = k
    · simp [insert, hi]
    · simp [insert, hi, ih]

/-- A key that is there keeps its place whatever is inserted. -/
theorem insert_comm (hk : k ∈ d.keys) (hjk : j ≠ k) :
    (d.insert j x).insert k v = (d.insert k v).insert j x := by
  induction d with
  | nil => cases hk
  | cons e d ih =>
    obtain ⟨i, y⟩ := e
    by_cases hi : i = k
    · subst hi
      simp [insert, Ne.symm hjk]
    · have hk : k ∈ keys d := by simpa [keys, Ne.symm hi] using hk
      by_cases hj : i = j
      · subst hj
        simp [insert, hi]
      · simp [insert, hi, hj, ih hk]

/-- An entry that is inserted last need not be there before. -/
theorem insert_update_insert {new : Dictionary β κ} (h : ∀ j ∈ new.keys, j ∈ d.keys) :
    ((d.insert k v).update new).insert k v = (d.update new).insert k v := by
  induction new generalizing d with
  | nil => exact insert_insert k v v d
  | cons e new ih =>
    obtain ⟨j, x⟩ := e
    show (((d.insert k v).insert j x).update new).insert k v =
      ((d.insert j x).update new).insert k v
    by_cases hj : k = j
    · rw [hj, insert_insert]
    · have hmem : j ∈ d.keys := h j (List.mem_cons_self ..)
      rw [insert_comm hmem hj]
      exact ih fun i hi => mem_keys_insert.mpr (.inr (h i (List.mem_cons_of_mem _ hi)))

/-- The same entries put in again change nothing. -/
theorem update_update (d new : Dictionary β κ) : (d.update new).update new = d.update new := by
  induction new using List.reverseRecOn with
  | nil => rfl
  | append_singleton new e ih =>
    obtain ⟨k, v⟩ := e
    have hlast : ∀ d : Dictionary β κ, d.update (new ++ [(k, v)]) = (d.update new).insert k v :=
      fun d => List.foldl_append ..
    rw [hlast, hlast, insert_update_insert fun j hj => mem_keys_update.mpr (.inl hj), ih]

/-! ## Merged entries -/

/-- Every key at its first place, with its last value. -/
def merged (es : List (Text × β)) : Dictionary β :=
  (es.map (·.1)).eraseDups.filterMap fun key => es.reverse.find? (·.1 == key)

theorem eraseDups_concat (keys : List Text) (key : Text) :
    (keys ++ [key]).eraseDups = if key ∈ keys then keys.eraseDups else keys.eraseDups ++ [key] := by
  rw [List.eraseDups_append]
  split
  · next h => simp [List.removeAll, h]
  · next h => simp [List.removeAll, h, List.eraseDups_cons]

theorem insert_filterMap {f f' : Text → Option (Text × β)} {keys : List Text} {key : Text} {v : β}
    (hf : ∀ k ∈ keys, ∃ u, f k = some (k, u)) (hkey : f' key = some (key, v))
    (hrest : ∀ k, k ≠ key → f' k = f k) (hmem : key ∈ keys) (hnodup : keys.Nodup) :
    insert key v (keys.filterMap f) = keys.filterMap f' := by
  induction keys with
  | nil => cases hmem
  | cons k keys ih =>
    obtain ⟨u, hu⟩ := hf k (by simp)
    rw [List.nodup_cons] at hnodup
    rw [List.filterMap_cons_some hu, insert]
    by_cases hk : k = key
    · subst hk
      have hsame : keys.filterMap f = keys.filterMap f' := by
        refine List.filterMap_congr fun k' hk' => (hrest k' ?_).symm
        rintro rfl
        exact hnodup.1 hk'
      rw [if_pos rfl, List.filterMap_cons_some hkey, hsame]
    · have hmem' : key ∈ keys := (List.mem_cons.mp hmem).resolve_left (Ne.symm hk)
      rw [if_neg hk, ih (fun k' hk' => hf k' (by simp [hk'])) hmem' hnodup.2,
        List.filterMap_cons_some ((hrest k hk).trans hu)]

theorem exists_find?_reverse {es : List (Text × β)} {key : Text} (h : key ∈ es.map (·.1)) :
    ∃ v, es.reverse.find? (·.1 == key) = some (key, v) := by
  obtain ⟨e, he, rfl⟩ := List.mem_map.mp h
  have hsome : (es.reverse.find? (·.1 == e.1)).isSome = true :=
    List.find?_isSome.mpr ⟨e, List.mem_reverse.mpr he, by simp⟩
  obtain ⟨found, hfound⟩ := Option.isSome_iff_exists.mp hsome
  have hkey : found.1 = e.1 := by simpa using List.find?_some hfound
  exact ⟨found.2, by rw [hfound, ← hkey]⟩

theorem mem_of_mem_merged {es : List (Text × β)} {e : Text × β} (h : e ∈ merged es) : e ∈ es := by
  obtain ⟨key, -, hfind⟩ := List.mem_filterMap.mp h
  exact List.mem_reverse.mp (List.mem_of_find?_eq_some hfind)

/-- One more entry replaces the value of its key, or comes last. -/
theorem merged_concat (es : List (Text × β)) (e : Text × β) :
    merged (es ++ [e]) = (merged es).insert e.1 e.2 := by
  obtain ⟨key, v⟩ := e
  have hlast : ((es ++ [(key, v)]).reverse.find? (·.1 == key)) = some (key, v) := by simp
  have hrest : ∀ k, k ≠ key →
      (es ++ [(key, v)]).reverse.find? (·.1 == k) = es.reverse.find? (·.1 == k) := by
    intro k hk
    simp [Ne.symm hk]
  rw [merged, merged, List.map_append, List.map_singleton, eraseDups_concat]
  split
  · next hmem =>
    -- the key stays where it first came, and only its value is another
    refine (insert_filterMap (fun k hk => ?_) hlast hrest (List.mem_eraseDups.mpr hmem)
      (nodup_eraseDups _)).symm
    exact exists_find?_reverse (List.mem_eraseDups.mp hk)
  · next hmem =>
    have hnew : key ∉ (merged es).keys := by
      intro h
      obtain ⟨e, he, hkey⟩ := List.mem_map.mp h
      exact hmem (List.mem_map.mpr ⟨e, mem_of_mem_merged he, hkey⟩)
    have hsame : (es.map (·.1)).eraseDups.filterMap
        (fun k => (es ++ [(key, v)]).reverse.find? (·.1 == k)) = merged es := by
      refine List.filterMap_congr fun k hk => hrest k ?_
      rintro rfl
      exact hmem (List.mem_eraseDups.mp hk)
    rw [List.filterMap_append, hsame]
    simp only [List.filterMap_cons, hlast, List.filterMap_nil]
    exact (insert_of_not_mem v hnew).symm

/-- Merging dictionaries one after another merges their entries. -/
theorem update_merged (es new : List (Text × β)) :
    (merged es).update new = merged (es ++ new) := by
  induction new generalizing es with
  | nil => simp [update]
  | cons e new ih =>
    rw [update, List.foldl_cons, ← merged_concat, ← update, ih]
    simp

theorem mem_of_get?_merged {es : List (Text × β)} {key : Text} {v : β}
    (h : (merged es).get? key = some v) : (key, v) ∈ es :=
  mem_of_mem_merged (mem_of_get? h)

end Dictionary

end Haml
