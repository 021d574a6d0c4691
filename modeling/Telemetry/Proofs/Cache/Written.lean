import Telemetry.Proofs.Cache.Apply

/-!
Which notification wrote a leaf. After a notification is applied a leaf has the time of the
notification if that writes it, and is the leaf from before if not; and a notification of complete
updates is refused only for a leaf that is newer than the notification that would write it.
-/

namespace Telemetry

namespace Notification

def writes (n : Notification) (text : String) : Bool :=
  n.updates.any fun update => update.path.any fun path => (n.basePath.join path).bare.text == text

theorem writes_eq_true {n : Notification} {text : String} : n.writes text = true ↔
    ∃ update ∈ n.updates, ∃ path, update.path = some path ∧
      (n.basePath.join path).bare.text = text := by
  simp [writes, Option.any_eq_true]

end Notification

namespace CacheTarget

variable {t after : CacheTarget} {n changes : Notification} {text : String}

/-- Updates are resolved if and only if all of them have a path and a value. -/
theorem exists_resolve_iff {base : Path} {updates : List Update} :
    (∃ resolved, resolve base updates = .ok resolved) ↔
      ∀ update ∈ updates, ∃ path value, update.path = some path ∧ update.value = some value := by
  induction updates with
  | nil => simp [resolve]
  | cons update rest ih =>
    rw [List.forall_mem_cons, ← ih, resolve]
    cases hpath : update.path with
    | none => simp
    | some path =>
      cases hvalue : update.value with
      | none => simp
      | some value =>
        cases resolve base rest with
        | error e => simp [bind, Except.bind]
        | ok resolved => simp [bind, Except.bind]

theorem writes_iff_of_resolve {updates : List (Path × TypedValue)}
    (h : resolve n.basePath n.updates = .ok updates) :
    n.writes text = true ↔ ∃ update ∈ updates, update.1.text = text := by
  rw [Notification.writes_eq_true]
  constructor
  · rintro ⟨update, hupdate, path, hpath, rfl⟩
    obtain ⟨_, value, -, hvalue⟩ := exists_resolve_iff.mp ⟨updates, h⟩ update hupdate
    exact ⟨(_, value), (mem_of_resolve_eq_ok h).mpr ⟨update, hupdate, path, hpath, hvalue, rfl⟩,
      rfl⟩
  · rintro ⟨full, hfull, rfl⟩
    obtain ⟨update, hupdate, path, hpath, -, hsame⟩ := (mem_of_resolve_eq_ok h).mp hfull
    exact ⟨update, hupdate, path, hpath, by rw [hsame]⟩

/-- A leaf is there because the notification wrote it or because it stayed. -/
theorem get?_apply_cases (hindexed : Indexed t.leaves) (h : t.apply n = .ok (after, changes))
    {leaf : CachedLeaf} (hleaf : SortedMap.get? after.leaves text = some leaf) :
    (n.writes text = true ∧ leaf.timestamp = n.timestamp) ∨
      (n.writes text = false ∧ SortedMap.get? t.leaves text = some leaf) := by
  obtain ⟨updates, hupdates, hafter⟩ := apply_eq_ok h
  have hwrites : n.writes text = true ↔ ∃ update ∈ updates, update.1.text = text :=
    writes_iff_of_resolve hupdates
  rw [hafter] at hleaf
  rcases get?_writeAll_cases hleaf with ⟨update, hupdate, htext, rfl⟩ | ⟨hkept, hnone⟩
  · exact Or.inl ⟨hwrites.mpr ⟨update, hupdate, htext⟩, rfl⟩
  · rw [SortedMap.get?_filter hindexed.sorted, Option.filter_eq_some_iff] at hkept
    refine Or.inr ⟨Bool.eq_false_iff.mpr fun hwritten => ?_, hkept.1⟩
    obtain ⟨update, hupdate, htext⟩ := hwrites.mp hwritten
    exact hnone update hupdate htext

theorem requireFresh_eq_error {timestamp : Int64} {updates : List (Path × TypedValue)}
    {cause : CacheError} (h : t.requireFresh timestamp updates = .error cause) :
    ∃ update ∈ updates, ∃ leaf, SortedMap.get? t.leaves update.1.text = some leaf ∧
      timestamp < leaf.timestamp ∧ cause = .stale update.1.text leaf.timestamp timestamp := by
  induction updates with
  | nil => cases h
  | cons update rest ih =>
    unfold requireFresh at h
    cases hget : SortedMap.get? t.leaves update.1.text with
    | none =>
      simp only [hget] at h
      obtain ⟨other, hother, hstale⟩ := ih h
      exact ⟨other, List.mem_cons_of_mem _ hother, hstale⟩
    | some leaf =>
      simp only [hget] at h
      split at h
      · rename_i hnewer
        exact ⟨update, List.mem_cons_self, leaf, hget, hnewer, (Except.error.inj h).symm⟩
      · obtain ⟨other, hother, hstale⟩ := ih h
        exact ⟨other, List.mem_cons_of_mem _ hother, hstale⟩

/-- Updates that have paths and values are refused for a newer leaf only. -/
theorem apply_eq_error {cause : CacheError}
    (hcomplete : ∀ update ∈ n.updates, ∃ path value, update = Update.of path value)
    (h : t.apply n = .error cause) :
    ∃ path value leaf, Update.of path value ∈ n.updates ∧
      SortedMap.get? t.leaves (n.basePath.join path).bare.text = some leaf ∧
      n.timestamp < leaf.timestamp ∧
      cause = .stale (n.basePath.join path).bare.text leaf.timestamp n.timestamp := by
  have hparts : ∀ update ∈ n.updates, ∃ path value,
      update.path = some path ∧ update.value = some value := by
    intro update hupdate
    obtain ⟨path, value, rfl⟩ := hcomplete update hupdate
    exact ⟨path, value, rfl, rfl⟩
  obtain ⟨updates, hupdates⟩ := exists_resolve_iff.mpr hparts
  have hfresh : t.requireFresh n.timestamp updates = .error cause := by
    rw [apply_eq] at h
    rcases bind_eq_error.mp h with hresolve | ⟨_, hresolve, h⟩
    · rw [hupdates] at hresolve
      cases hresolve
    · rw [hupdates] at hresolve
      cases hresolve
      rcases bind_eq_error.mp h with hfresh | ⟨_, -, h⟩
      · exact hfresh
      · cases h
  obtain ⟨full, hfull, leaf, hleaf, hnewer, rfl⟩ := requireFresh_eq_error hfresh
  obtain ⟨update, hupdate, path, hpath, -, hsame⟩ := (mem_of_resolve_eq_ok hupdates).mp hfull
  obtain ⟨own, value, rfl⟩ := hcomplete update hupdate
  cases hpath
  rw [hsame] at hleaf ⊢
  exact ⟨path, value, leaf, hupdate, hleaf, hnewer, rfl⟩

end CacheTarget

end Telemetry
