import Telemetry.Proofs.Cache.Apply

/-!
What applying a notification changes, counters included, and what is published about it: the
paths of the leaves that are gone and the updates that were written, all of them full.
-/

namespace Telemetry.CacheTarget

section Remove

variable {leaves : List (String × CachedLeaf)} {patterns : List Path}

/-- Each leaf is either removed, once, or kept. -/
theorem perm_removeMatches (leaves : List (String × CachedLeaf)) (patterns : List Path) :
    List.Perm ((removeMatches leaves patterns).1 ++
      (removeMatches leaves patterns).2.map fun entry => entry.2.path)
      (leaves.map fun entry => entry.2.path) := by
  induction patterns generalizing leaves with
  | nil => exact List.Perm.refl _
  | cons pattern rest ih =>
    have hrest := ih (leaves.filter fun entry => !entry.2.path.isMatch pattern)
    have hsplit := (List.filter_append_perm (fun entry => entry.2.path.isMatch pattern) leaves).map
      fun entry => entry.2.path
    rw [List.map_append] at hsplit
    simp only [removeMatches, List.append_assoc]
    exact (hrest.append_left _).trans hsplit

theorem length_removeMatches (leaves : List (String × CachedLeaf)) (patterns : List Path) :
    (removeMatches leaves patterns).1.length + (removeMatches leaves patterns).2.length =
      leaves.length := by
  have h := (perm_removeMatches leaves patterns).length_eq
  rwa [List.length_append, List.length_map, List.length_map] at h

/-- What is removed are the paths of the leaves that match some pattern. -/
theorem mem_removeMatches {path : Path} :
    path ∈ (removeMatches leaves patterns).1 ↔ ∃ entry ∈ leaves, entry.2.path = path ∧
      patterns.any entry.2.path.isMatch = true := by
  induction patterns generalizing leaves with
  | nil => simp [removeMatches]
  | cons pattern rest ih =>
    simp only [removeMatches, List.mem_append, List.mem_map, List.mem_filter, ih, List.any_cons,
      Bool.or_eq_true, Bool.not_eq_true']
    constructor
    · rintro (⟨entry, ⟨hmem, hmatch⟩, hpath⟩ | ⟨entry, ⟨hmem, -⟩, hpath, hrest⟩)
      · exact ⟨entry, hmem, hpath, Or.inl hmatch⟩
      · exact ⟨entry, hmem, hpath, Or.inr hrest⟩
    · rintro ⟨entry, hmem, hpath, hmatch⟩
      cases hhead : entry.2.path.isMatch pattern with
      | true => exact Or.inl ⟨entry, ⟨hmem, hhead⟩, hpath⟩
      | false =>
        have hrest := hmatch.resolve_left (by simp [hhead])
        exact Or.inr ⟨entry, ⟨hmem, hhead⟩, hpath, hrest⟩

/-- Nothing is removed only if everything is kept. -/
theorem kept_of_removed_eq_nil (h : (removeMatches leaves patterns).1 = []) :
    (removeMatches leaves patterns).2 = leaves := by
  have hlength := length_removeMatches leaves patterns
  rw [h, List.length_nil, Nat.zero_add] at hlength
  have hsublist : List.Sublist (removeMatches leaves patterns).2 leaves := by
    rw [removeMatches_kept]
    exact List.filter_sublist
  exact hsublist.eq_of_length hlength

end Remove

/-- A change about which there is nothing to publish is none. -/
theorem eq_of_apply_isEmpty {t after : CacheTarget} {n changes : Notification}
    (h : t.apply n = .ok (after, changes)) (hempty : changes.isEmpty) : after = t := by
  obtain ⟨updates, -, -, rfl, rfl⟩ := apply_eq_ok_iff.mp h
  simp only [Notification.isEmpty, report, Bool.and_eq_true, List.isEmpty_iff,
    List.map_eq_nil_iff] at hempty
  obtain ⟨hremoved, rfl⟩ := hempty
  have hkept := kept_of_removed_eq_nil hremoved
  simp [commit, hremoved, hkept, writeAll]

end Telemetry.CacheTarget
