import EditableMarkup.Proofs.Tree.Same

/-!
# Setting the value of a key

Entries are read and written by their keys.  Writing one splits the entries at the
key: what stands before it and behind it is kept, and neither part has the key.
Writing what is read changes nothing, of two values under one key the last one
stays, and under different keys the order of writing does not count.
-/

namespace EditableMarkup

namespace Entries

variable {α : Type} {entries : Entries α} {key : String}

/-- Of entries in which no key stands twice, the one of a key stands between entries of other keys, and
it is the only one that is exchanged when the key is set; a new key comes last. -/
theorem exists_split (h : entries.Distinct) (key : String) :
    ∃ before behind, entries = before ++ ((entries.find? key).map (key, ·)).toList ++ behind ∧
      (∀ entry ∈ before ++ behind, entry.1 ≠ key) ∧
      ∀ value, entries.set key value = before ++ (key, value) :: behind := by
  induction entries with
  | nil => exact ⟨[], [], rfl, nofun, fun value => rfl⟩
  | cons entry rest ih =>
      obtain ⟨hnew, hrest⟩ := List.nodup_cons.mp h
      obtain ⟨other, old⟩ := entry
      by_cases hsame : other = key
      · subst hsame
        refine ⟨[], rest, by simp [find?], fun entry hentry heq => hnew ?_, fun value => by simp [set]⟩
        exact List.mem_map.mpr ⟨entry, hentry, heq⟩
      · obtain ⟨before, behind, hsplit, hothers, hset⟩ := ih hrest
        refine ⟨(other, old) :: before, behind, ?_, ?_, fun value => ?_⟩
        · rw [find?, if_neg hsame, List.cons_append, List.cons_append, ← hsplit]
        · exact List.forall_mem_cons.mpr ⟨hsame, hothers⟩
        · rw [set, if_neg hsame, hset, List.cons_append]

/-- Writing what is read changes nothing. -/
theorem set_of_find? {value : α} (h : entries.find? key = some value) :
    entries.set key value = entries := by
  induction entries with
  | nil => cases h
  | cons entry rest ih =>
      obtain ⟨other, old⟩ := entry
      rw [find?] at h
      rw [set]
      split
      · next hsame =>
          rw [if_pos hsame] at h
          cases h
          rw [hsame]
      · next hother =>
          rw [if_neg hother] at h
          rw [ih h]

/-- What was written is read. -/
theorem find?_set_self (entries : Entries α) (key : String) (value : α) :
    (entries.set key value).find? key = some value := by
  induction entries with
  | nil => rw [set, find?, if_pos rfl]
  | cons entry rest ih =>
      obtain ⟨other, old⟩ := entry
      rw [set]
      split
      · rw [find?, if_pos rfl]
      · next hother => rw [find?, if_neg hother, ih]

theorem find?_set_of_ne {other : String} (h : other ≠ key) (entries : Entries α) (value : α) :
    (entries.set key value).find? other = entries.find? other := by
  induction entries with
  | nil => simp [set, find?, h.symm]
  | cons entry rest ih =>
      obtain ⟨first, old⟩ := entry
      rw [set]
      split
      · next hfirst => rw [find?, find?, if_neg h.symm, if_neg (hfirst ▸ h.symm)]
      · rw [find?, find?, ih]

/-- The last value that is written under a key stays. -/
theorem set_set (entries : Entries α) (key : String) (value last : α) :
    (entries.set key value).set key last = entries.set key last := by
  induction entries with
  | nil => simp [set]
  | cons entry rest ih =>
      obtain ⟨other, old⟩ := entry
      rw [set, set]
      split
      · rw [set, if_pos rfl]
      · next hother => rw [set, if_neg hother, ih]

/-- Writing under two keys in either order differs in the order of new keys only. -/
theorem set_set_perm {other : String} (h : key ≠ other) (entries : Entries α) (value last : α) :
    ((entries.set key value).set other last).Perm ((entries.set other last).set key value) := by
  induction entries with
  | nil =>
      simp only [set, if_neg h, if_neg h.symm]
      exact .swap ..
  | cons entry rest ih =>
      obtain ⟨first, old⟩ := entry
      by_cases hkey : first = key
      · have hother : first ≠ other := hkey ▸ h
        rw [set, if_pos hkey, set, if_neg h, set, if_neg hother, set, if_pos hkey]
      · by_cases hother : first = other
        · rw [set, if_neg hkey, set, if_pos hother, set, if_pos hother, set, if_neg h.symm]
        · rw [set, if_neg hkey, set, if_neg hother, set, if_neg hother, set, if_neg hkey]
          exact ih.cons _

theorem mem_set_self (entries : Entries α) (key : String) (value : α) :
    (key, value) ∈ entries.set key value :=
  mem_of_find? (find?_set_self entries key value)

end Entries

/-- A mapping stays proper if a key is set to a proper value. -/
theorem Value.Proper.set {entries : Entries Value} (h : (Value.mapping entries).Proper)
    (key : String) {value : Value} (hvalue : value.Proper) :
    (Value.mapping (entries.set key value)).Proper := by
  refine ⟨h.1.set key value, Value.allProper_iff.mpr fun entry hentry => ?_⟩
  rcases Entries.mem_of_mem_set hentry with hold | rfl
  · exact Value.allProper_iff.mp h.2 entry hold
  · exact hvalue

end EditableMarkup
