import Telemetry.Ingestion
import Telemetry.Proofs.InPlace
import Telemetry.Proofs.Path.Identity

/-!
What applying a notification does to a cache: the leaves that match a deleted pattern go, then
the updated leaves are written under the texts of their paths.
-/

namespace Telemetry.CacheTarget

/-- Leaves are kept in order under the texts of their paths, which are full. -/
structure Indexed (leaves : List (String × CachedLeaf)) : Prop where
  sorted : SortedMap.Sorted leaves
  path_text : ∀ text leaf, SortedMap.get? leaves text = some leaf → leaf.path.text = text
  bare : ∀ text leaf, SortedMap.get? leaves text = some leaf →
    leaf.path = Path.ofElems leaf.path.elems

theorem indexed_nil : Indexed [] := by
  refine ⟨SortedMap.sorted_nil, ?_, ?_⟩ <;>
    · intro text leaf h
      cases h

/-- Pattern by pattern or all at once: the leaves stay that match none. -/
theorem removeMatches_kept (leaves : List (String × CachedLeaf)) (patterns : List Path) :
    (removeMatches leaves patterns).2 =
      leaves.filter fun entry => patterns.all fun pattern => !entry.2.path.isMatch pattern := by
  induction patterns generalizing leaves with
  | nil => exact (List.filter_eq_self.mpr fun _ _ => rfl).symm
  | cons pattern rest ih =>
    rw [removeMatches]
    simp only [ih, List.filter_filter, List.all_cons, Bool.and_comm]

section Write

variable {timestamp : Int64} {leaves : List (String × CachedLeaf)}
  {updates : List (Path × TypedValue)}

theorem writeAll_cons (timestamp : Int64) (leaves : List (String × CachedLeaf))
    (update : Path × TypedValue) (updates : List (Path × TypedValue)) :
    writeAll timestamp leaves (update :: updates) =
      writeAll timestamp (SortedMap.insert leaves update.1.text
        ⟨update.1, update.2, timestamp⟩) updates := rfl

/-- A leaf that is not written to stays as it is. -/
theorem get?_writeAll_of_not_mem {text : String}
    (h : ∀ update ∈ updates, update.1.text ≠ text) :
    SortedMap.get? (writeAll timestamp leaves updates) text = SortedMap.get? leaves text := by
  induction updates generalizing leaves with
  | nil => rfl
  | cons update updates ih =>
    rw [writeAll_cons, ih fun other hother => h other (List.mem_cons_of_mem _ hother),
      SortedMap.get?_insert_of_ne _ _ (h update List.mem_cons_self).symm]

/-- A leaf that is there afterwards was written, or it was there and was not written to. -/
theorem get?_writeAll_cases {text : String} {leaf : CachedLeaf}
    (h : SortedMap.get? (writeAll timestamp leaves updates) text = some leaf) :
    (∃ update ∈ updates, update.1.text = text ∧ leaf = ⟨update.1, update.2, timestamp⟩) ∨
      (SortedMap.get? leaves text = some leaf ∧ ∀ update ∈ updates, update.1.text ≠ text) := by
  induction updates generalizing leaves with
  | nil => exact Or.inr ⟨h, fun _ hmem => by cases hmem⟩
  | cons update updates ih =>
    rw [writeAll_cons] at h
    rcases ih h with ⟨other, hother, htext, hleaf⟩ | ⟨hget, hnone⟩
    · exact Or.inl ⟨other, List.mem_cons_of_mem _ hother, htext, hleaf⟩
    · by_cases htext : update.1.text = text
      · rw [← htext, SortedMap.get?_insert_self, Option.some.injEq] at hget
        exact Or.inl ⟨update, List.mem_cons_self, htext, hget.symm⟩
      · rw [SortedMap.get?_insert_of_ne _ _ (Ne.symm htext)] at hget
        refine Or.inr ⟨hget, ?_⟩
        intro other hother
        rcases List.mem_cons.mp hother with rfl | hother
        · exact htext
        · exact hnone other hother

theorem get?_writeAll_of_mem {update : Path × TypedValue} (hmem : update ∈ updates)
    (hunique : ∀ other ∈ updates, other.1.text = update.1.text → other = update) :
    SortedMap.get? (writeAll timestamp leaves updates) update.1.text =
      some ⟨update.1, update.2, timestamp⟩ := by
  induction updates generalizing leaves with
  | nil => cases hmem
  | cons head updates ih =>
    rw [writeAll_cons]
    by_cases hlater : ∃ other ∈ updates, other.1.text = update.1.text
    · obtain ⟨other, hother, htext⟩ := hlater
      have hsame := hunique other (List.mem_cons_of_mem _ hother) htext
      exact ih (hsame ▸ hother) fun other hother => hunique other (List.mem_cons_of_mem _ hother)
    · have hnone : ∀ other ∈ updates, other.1.text ≠ update.1.text :=
        fun other hother htext => hlater ⟨other, hother, htext⟩
      rw [get?_writeAll_of_not_mem hnone]
      rcases List.mem_cons.mp hmem with rfl | hmem
      · exact SortedMap.get?_insert_self _ _ _
      · exact absurd rfl (hnone update hmem)

theorem sorted_writeAll (h : SortedMap.Sorted leaves) :
    SortedMap.Sorted (writeAll timestamp leaves updates) := by
  induction updates generalizing leaves with
  | nil => exact h
  | cons update updates ih => exact ih (h.insert _ _)

end Write

def patternsOf (n : Notification) : List Path :=
  n.deletes.map fun path => (n.basePath.join path).bare

def commit (t : CacheTarget) (timestamp : Int64)
    (removal : List Path × List (String × CachedLeaf)) (updates : List (Path × TypedValue)) :
    CacheTarget :=
  let written := { t with leaves := writeAll timestamp removal.2 updates }
  if !updates.all (·.1.isMeta) || !removal.1.isEmpty then
    { written with
      updateCount := t.updateCount + updates.length
      deleteCount := t.deleteCount + removal.1.length
      latest := if t.latest < timestamp then timestamp else t.latest }
  else written

def report (t : CacheTarget) (n : Notification) (removed : List Path)
    (updates : List (Path × TypedValue)) : Notification :=
  ⟨n.timestamp, some t.base, updates.map fun (path, value) => Update.of path value, removed,
    n.atomic⟩

@[simp]
theorem leaves_commit (t : CacheTarget) (timestamp : Int64)
    (removal : List Path × List (String × CachedLeaf)) (updates : List (Path × TypedValue)) :
    (t.commit timestamp removal updates).leaves = writeAll timestamp removal.2 updates := by
  unfold commit
  split <;> rfl

theorem name_commit (t : CacheTarget) (timestamp : Int64)
    (removal : List Path × List (String × CachedLeaf)) (updates : List (Path × TypedValue)) :
    (t.commit timestamp removal updates).name = t.name := by
  unfold commit
  split <;> rfl

end Telemetry.CacheTarget

namespace Telemetry.WatchedTarget

open CacheTarget

@[simp]
theorem run_remove (patterns : List Path) (w : WatchedTarget) :
    (remove patterns).run w = ((removeMatches w.target.leaves patterns).1,
      { w with target.leaves := (removeMatches w.target.leaves patterns).2 }) :=
  rfl

@[simp]
theorem run_write (timestamp : Int64) (updates : List (Path × TypedValue)) (w : WatchedTarget) :
    (write timestamp updates).run w =
      ((), { w with target.leaves := writeAll timestamp w.target.leaves updates }) :=
  rfl

@[simp]
theorem run_notify (changes : Notification) (w : WatchedTarget) :
    (notify changes).run w =
      ((), { w with heard := w.heard ++ if changes.isEmpty then [] else [changes] }) :=
  rfl

/-- Removing, writing and counting leave the target of the commit. -/
@[simp]
theorem run_count (t : CacheTarget) (heard : List Notification) (timestamp : Int64)
    (removal : List Path × List (String × CachedLeaf)) (updates : List (Path × TypedValue)) :
    (count timestamp updates removal.1).run
        ⟨{ t with leaves := writeAll timestamp removal.2 updates }, heard⟩ =
      ((), ⟨commit t timestamp removal updates, heard⟩) := by
  simp only [count, StateT.run_modify, commit]
  split <;> rfl

/-- A notification is refused before anything is changed in place. -/
theorem on_apply (n : Notification) (w : WatchedTarget) :
    (apply n).on w =
      match resolve n.basePath n.updates with
      | .error e => (.error e, w)
      | .ok updates =>
        match w.target.requireFresh n.timestamp updates with
        | .error e => (.error e, w)
        | .ok () =>
          let removal := removeMatches w.target.leaves (patternsOf n)
          let changes := report w.target n removal.1 updates
          (.ok changes, ⟨commit w.target n.timestamp removal updates,
            w.heard ++ if changes.isEmpty then [] else [changes]⟩) := by
  unfold apply
  simp only [InPlace.on_bind, InPlace.on_ofExcept, InPlace.on_get]
  cases hupdates : resolve n.basePath n.updates with
  | error e => rfl
  | ok updates =>
    simp only
    cases hfresh : w.target.requireFresh n.timestamp updates with
    | error e => rfl
    | ok =>
      simp only [InPlace.on_lift, InPlace.on_pure, run_remove, run_write, run_count, run_notify,
        CacheTarget.base, name_commit]
      rfl

/-- A notification that is refused leaves the target as it was and is not heard of; one that is
applied is heard of unless it changes nothing. -/
theorem on_apply_eq (n : Notification) (w : WatchedTarget) :
    (apply n).on w =
      match w.target.apply n with
      | .error e => (.error e, w)
      | .ok (after, changes) =>
        (.ok changes, ⟨after, w.heard ++ if changes.isEmpty then [] else [changes]⟩) := by
  rw [CacheTarget.apply, on_apply, on_apply]
  cases resolve n.basePath n.updates with
  | error e => rfl
  | ok updates =>
    simp only
    cases w.target.requireFresh n.timestamp updates <;> rfl

end Telemetry.WatchedTarget

namespace Telemetry.CacheTarget

section Apply

variable {t after : CacheTarget} {n changes : Notification}

/-- Updates are read relative to the base path of their notification. -/
theorem mem_of_resolve_eq_ok {base : Path} {updates : List Update}
    {resolved : List (Path × TypedValue)} (h : resolve base updates = .ok resolved)
    {full : Path × TypedValue} : full ∈ resolved ↔ ∃ update ∈ updates, ∃ path,
      update.path = some path ∧ update.value = some full.2 ∧ full.1 = (base.join path).bare := by
  induction updates generalizing resolved with
  | nil =>
    cases h
    simp
  | cons update updates ih =>
    unfold resolve at h
    cases hpath : update.path with
    | none => simp [hpath] at h
    | some path =>
      cases hvalue : update.value with
      | none => simp [hpath, hvalue] at h
      | some value =>
        simp only [hpath, hvalue] at h
        obtain ⟨rest, hrest, h⟩ := bind_eq_ok.mp h
        cases h
        obtain ⟨fullPath, fullValue⟩ := full
        simp only [List.mem_cons, ih hrest, Prod.mk.injEq, exists_eq_or_imp, hpath, hvalue,
          Option.some.injEq]
        constructor
        · rintro (⟨rfl, rfl⟩ | h)
          · exact Or.inl ⟨path, rfl, rfl, rfl⟩
          · exact Or.inr h
        · rintro (⟨other, rfl, rfl, rfl⟩ | h)
          · exact Or.inl ⟨rfl, rfl⟩
          · exact Or.inr h

/-- Updates have to be complete and none of them may be stale. -/
theorem apply_eq (t : CacheTarget) (n : Notification) :
    t.apply n = (do
      let updates ← resolve n.basePath n.updates
      t.requireFresh n.timestamp updates
      .ok (t.commit n.timestamp (removeMatches t.leaves (patternsOf n)) updates,
        t.report n (removeMatches t.leaves (patternsOf n)).1 updates)) := by
  rw [apply, WatchedTarget.on_apply]
  cases resolve n.basePath n.updates with
  | error e => rfl
  | ok updates =>
    simp only [ok_bind]
    cases t.requireFresh n.timestamp updates <;> rfl

theorem apply_eq_ok_iff : t.apply n = .ok (after, changes) ↔
    ∃ updates, resolve n.basePath n.updates = .ok updates ∧
      t.requireFresh n.timestamp updates = .ok () ∧
      after = t.commit n.timestamp (removeMatches t.leaves (patternsOf n)) updates ∧
      changes = t.report n (removeMatches t.leaves (patternsOf n)).1 updates := by
  rw [apply_eq]
  constructor
  · intro h
    obtain ⟨updates, hupdates, h⟩ := bind_eq_ok.mp h
    obtain ⟨_, hfresh, h⟩ := bind_eq_ok.mp h
    obtain ⟨hafter, hchanges⟩ := Prod.mk.inj (Except.ok.inj h)
    exact ⟨updates, hupdates, hfresh, hafter.symm, hchanges.symm⟩
  · rintro ⟨updates, hupdates, hfresh, rfl, rfl⟩
    exact bind_eq_ok.mpr ⟨updates, hupdates, bind_eq_ok.mpr ⟨(), hfresh, rfl⟩⟩

/-- Applying a notification removes what its deletes match, then writes its updates. -/
theorem apply_eq_ok (h : t.apply n = .ok (after, changes)) :
    ∃ updates, resolve n.basePath n.updates = .ok updates ∧
      after.leaves = writeAll n.timestamp
        (t.leaves.filter fun entry => n.deletes.all fun path =>
          !entry.2.path.isMatch (n.basePath.join path).bare) updates := by
  obtain ⟨updates, hupdates, -, rfl, -⟩ := apply_eq_ok_iff.mp h
  refine ⟨updates, hupdates, ?_⟩
  simp only [leaves_commit, removeMatches_kept, patternsOf, List.all_map, Function.comp_def]

theorem indexed_apply (hindexed : Indexed t.leaves) (h : t.apply n = .ok (after, changes)) :
    Indexed after.leaves := by
  obtain ⟨updates, hupdates, hleaves⟩ := apply_eq_ok h
  rw [hleaves]
  have hkept : ∀ text leaf, SortedMap.get? (t.leaves.filter fun entry => n.deletes.all fun path =>
      !entry.2.path.isMatch (n.basePath.join path).bare) text = some leaf →
      SortedMap.get? t.leaves text = some leaf := by
    intro text leaf hget
    rw [SortedMap.get?_filter hindexed.sorted, Option.filter_eq_some_iff] at hget
    exact hget.1
  refine ⟨sorted_writeAll (hindexed.sorted.filter _), ?_, ?_⟩
  · intro text leaf hget
    rcases get?_writeAll_cases hget with ⟨update, -, htext, rfl⟩ | ⟨hget, -⟩
    · exact htext
    · exact hindexed.path_text text leaf (hkept text leaf hget)
  · intro text leaf hget
    rcases get?_writeAll_cases hget with ⟨update, hmem, -, rfl⟩ | ⟨hget, -⟩
    · obtain ⟨_, -, path, -, -, hfull⟩ := (mem_of_resolve_eq_ok hupdates).mp hmem
      simp only [hfull]
      rfl
    · exact hindexed.bare text leaf (hkept text leaf hget)

end Apply

theorem name_of_apply {t after : CacheTarget} {n changes : Notification}
    (h : t.apply n = .ok (after, changes)) : after.name = t.name := by
  obtain ⟨updates, -, -, rfl, -⟩ := apply_eq_ok_iff.mp h
  exact name_commit t n.timestamp _ updates

theorem name_of_take {t after : CacheTarget} {message : SourceMessage}
    {changes : List Notification} (h : t.take message = .ok (after, changes)) :
    after.name = t.name := by
  cases message with
  | delta n =>
    simp only [take] at h
    cases happly : t.apply n with
    | error e => simp [happly] at h
    | ok applied =>
      simp only [happly, Except.ok.injEq, Prod.mk.injEq] at h
      rw [← h.1]
      exact name_of_apply happly
  | sync =>
    cases h
    rfl
  | failure text => cases h

theorem name_of_ingest (t : CacheTarget) (responses : List Response) :
    (t.ingest responses).2.target.name = t.name := by
  induction responses generalizing t with
  | nil => rfl
  | cons response rest ih =>
    unfold ingest
    cases SourceMessage.ofResponse response with
    | error e => rfl
    | ok message =>
      simp only
      cases htake : t.take message with
      | error e => rfl
      | ok taken =>
        simp only
        rw [ih, name_of_take htake]

end Telemetry.CacheTarget
