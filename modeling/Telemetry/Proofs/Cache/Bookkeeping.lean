import Telemetry.Proofs.Cache.Reference

/-!
The books of a cached target. Leaves stand under the texts of their paths, no leaf of the target
itself is newer than the latest change, and there are never more such leaves than updates were
counted. Only notifications touch leaves and counters; one that neither removes a leaf nor writes
outside of the cache's own container is not counted, and cannot add a leaf that is.
-/

namespace Telemetry

namespace CacheTarget

/-- What one call may do to a target. -/
inductive Turn (t : CacheTarget) : CacheTarget → Prop
  | applied {n changes : Notification} {after : CacheTarget}
      (h : t.apply n = .ok (after, changes)) : Turn t after
  | connected : Turn t t.connect
  | synced : Turn t t.markSynced

/-- The counters do not fall back, and no leaf that stays gets an earlier time. -/
structure Advances (before after : CacheTarget) : Prop where
  updateCount : before.updateCount ≤ after.updateCount
  deleteCount : before.deleteCount ≤ after.deleteCount
  latest : before.latest ≤ after.latest
  timestamp : ∀ text old new, SortedMap.get? before.leaves text = some old →
    SortedMap.get? after.leaves text = some new → old.timestamp ≤ new.timestamp

/-- Leaves and counters agree. -/
structure Booked (t : CacheTarget) : Prop where
  indexed : Indexed t.leaves
  dated : ∀ leaf ∈ t.dataLeaves, leaf.timestamp ≤ t.latest
  counted : t.leafCount ≤ t.updateCount

theorem mem_dataLeaves {t : CacheTarget} (h : Indexed t.leaves) {leaf : CachedLeaf} :
    leaf ∈ t.dataLeaves ↔
      leaf.path.isMeta = false ∧ ∃ text, SortedMap.get? t.leaves text = some leaf := by
  simp only [dataLeaves, SortedMap.values, List.mem_filter, List.mem_map, Bool.not_eq_true']
  constructor
  · rintro ⟨⟨⟨text, _⟩, hmem, rfl⟩, hdata⟩
    exact ⟨hdata, text, SortedMap.get?_eq_some_of_mem h.sorted hmem⟩
  · rintro ⟨hdata, text, hget⟩
    exact ⟨⟨(text, leaf), SortedMap.mem_of_get?_eq_some hget, rfl⟩, hdata⟩

section Count

def dataCount (leaves : List (String × CachedLeaf)) : Nat :=
  leaves.countP fun entry => !entry.2.path.isMeta

theorem leafCount_eq (t : CacheTarget) : t.leafCount = dataCount t.leaves := by
  rw [leafCount, dataLeaves, ← List.countP_eq_length_filter, SortedMap.values, List.countP_map]
  rfl

theorem dataCount_insert_le (leaves : List (String × CachedLeaf)) (text : String)
    (leaf : CachedLeaf) : dataCount (SortedMap.insert leaves text leaf) ≤
      dataCount leaves + if leaf.path.isMeta then 0 else 1 := by
  induction leaves with
  | nil => cases hmeta : leaf.path.isMeta <;> simp [SortedMap.insert, dataCount, hmeta]
  | cons entry rest ih =>
    unfold dataCount at ih ⊢
    unfold SortedMap.insert
    split <;> grind

/-- Each update adds one leaf at most, and none if it writes to the cache's own container. -/
theorem dataCount_writeAll_le (timestamp : Int64) (leaves : List (String × CachedLeaf))
    (updates : List (Path × TypedValue)) : dataCount (writeAll timestamp leaves updates) ≤
      dataCount leaves + updates.countP fun update => !update.1.isMeta := by
  induction updates generalizing leaves with
  | nil => exact Nat.le_refl _
  | cons update rest ih =>
    have hinsert := dataCount_insert_le leaves update.1.text ⟨update.1, update.2, timestamp⟩
    have hrest := ih (SortedMap.insert leaves update.1.text ⟨update.1, update.2, timestamp⟩)
    rw [writeAll_cons, List.countP_cons]
    cases hmeta : update.1.isMeta with
    | true =>
      simp only [hmeta, if_true] at hinsert
      simp only [Bool.not_true, Bool.false_eq_true, if_false]
      omega
    | false =>
      simp only [hmeta, Bool.false_eq_true, if_false] at hinsert
      simp only [Bool.not_false, if_true]
      omega

end Count

section Apply

variable {t after : CacheTarget} {n changes : Notification}

/-- A notification is counted, or it does no more than to write to the cache's own container. -/
theorem apply_counts (h : t.apply n = .ok (after, changes)) :
    ∃ updates removed, resolve n.basePath n.updates = .ok updates ∧
      after.leaves = writeAll n.timestamp (removeMatches t.leaves (patternsOf n)).2 updates ∧
      ((after.updateCount = t.updateCount + updates.length ∧
          after.deleteCount = t.deleteCount + removed ∧
          after.latest = if t.latest < n.timestamp then n.timestamp else t.latest) ∨
        ((∀ update ∈ updates, update.1.isMeta = true) ∧
          after = { t with leaves := writeAll n.timestamp t.leaves updates })) := by
  obtain ⟨updates, hupdates, -, rfl, -⟩ := apply_eq_ok_iff.mp h
  refine ⟨updates, (removeMatches t.leaves (patternsOf n)).1.length, hupdates,
    leaves_commit _ _ _ _, ?_⟩
  unfold commit
  split
  · exact Or.inl ⟨rfl, rfl, rfl⟩
  · rename_i hcounts
    simp only [Bool.or_eq_true, Bool.not_eq_true', not_or, Bool.not_eq_false, List.all_eq_true,
      List.isEmpty_iff] at hcounts
    exact Or.inr ⟨hcounts.1, by rw [kept_of_removed_eq_nil hcounts.2]⟩

theorem latest_le_apply (h : t.apply n = .ok (after, changes)) : t.latest ≤ after.latest := by
  obtain ⟨updates, removed, -, -, ⟨-, -, hlatest⟩ | ⟨-, rfl⟩⟩ := apply_counts h
  · rw [hlatest]
    split
    · exact Int64.le_of_lt ‹_›
    · exact Int64.le_refl _
  · exact Int64.le_refl _

/-- A change is the latest, or it is not counted. -/
theorem timestamp_le_latest (h : t.apply n = .ok (after, changes))
    {updates : List (Path × TypedValue)} (hupdates : resolve n.basePath n.updates = .ok updates)
    {update : Path × TypedValue} (hupdate : update ∈ updates) (hdata : update.1.isMeta = false) :
    n.timestamp ≤ after.latest := by
  obtain ⟨resolved, removed, hresolved, -, ⟨-, -, hlatest⟩ | ⟨hmeta, -⟩⟩ := apply_counts h
  · rw [hlatest]
    split
    · exact Int64.le_refl _
    · exact Int64.not_lt.mp ‹_›
  · rw [hupdates] at hresolved
    cases hresolved
    rw [hmeta update hupdate] at hdata
    cases hdata

/-- Notifications keep the books. -/
theorem Booked.apply (hbooked : t.Booked) (h : t.apply n = .ok (after, changes)) :
    after.Booked := by
  have hindexed := indexed_apply hbooked.indexed h
  obtain ⟨updates, removed, hupdates, hleaves, hcounts⟩ := apply_counts h
  refine ⟨hindexed, ?_, ?_⟩
  · intro leaf hleaf
    obtain ⟨hdata, text, hget⟩ := (mem_dataLeaves hindexed).mp hleaf
    rw [hleaves] at hget
    rcases get?_writeAll_cases hget with ⟨update, hupdate, -, rfl⟩ | ⟨hkept, -⟩
    · exact timestamp_le_latest h hupdates hupdate hdata
    · rw [removeMatches_kept, SortedMap.get?_filter hbooked.indexed.sorted,
        Option.filter_eq_some_iff] at hkept
      have hbefore := (mem_dataLeaves hbooked.indexed).mpr ⟨hdata, text, hkept.1⟩
      exact Int64.le_trans (hbooked.dated leaf hbefore) (latest_le_apply h)
  · have hcounted := hbooked.counted
    rw [leafCount_eq] at hcounted ⊢
    rcases hcounts with ⟨hcount, -, -⟩ | ⟨hmeta, hafter⟩
    · have hwritten := dataCount_writeAll_le n.timestamp
        (removeMatches t.leaves (patternsOf n)).2 updates
      have hkept : dataCount (removeMatches t.leaves (patternsOf n)).2 ≤ dataCount t.leaves := by
        rw [removeMatches_kept]
        exact List.filter_sublist.countP_le
      have hlength := List.countP_le_length (p := fun update => !update.1.isMeta) (l := updates)
      rw [hleaves, hcount]
      omega
    · have hwritten := dataCount_writeAll_le n.timestamp t.leaves updates
      have hnone : updates.countP (fun update => !update.1.isMeta) = 0 :=
        List.countP_eq_zero.mpr fun update hupdate => by simp [hmeta update hupdate]
      rw [hafter]
      simp only
      omega

/-- What is written is at least as new as what it replaces, also when that is deleted first. -/
theorem advances_apply (hindexed : Indexed t.leaves) (h : t.apply n = .ok (after, changes)) :
    t.Advances after := by
  have hcounts : t.updateCount ≤ after.updateCount ∧ t.deleteCount ≤ after.deleteCount := by
    obtain ⟨updates, removed, -, -, ⟨hupdated, hdeleted, -⟩ | ⟨-, rfl⟩⟩ := apply_counts h
    · omega
    · exact ⟨Nat.le_refl _, Nat.le_refl _⟩
  refine ⟨hcounts.1, hcounts.2, latest_le_apply h, ?_⟩
  intro text old new hold hnew
  obtain ⟨updates, hupdates, hfresh, -, -⟩ := apply_eq_ok_iff.mp h
  rcases get?_apply_cases hindexed h hnew with ⟨hwritten, htime⟩ | ⟨-, hkept⟩
  · obtain ⟨update, hupdate, rfl⟩ := (writes_iff_of_resolve hupdates).mp hwritten
    rw [htime]
    exact requireFresh_eq_ok.mp hfresh update hupdate old hold
  · rw [hold] at hkept
    cases hkept
    exact Int64.le_refl _

end Apply

section Turn

variable {t u : CacheTarget}

theorem Advances.refl (t : CacheTarget) : t.Advances t := by
  refine ⟨Nat.le_refl _, Nat.le_refl _, Int64.le_refl _, ?_⟩
  intro text old new hold hnew
  rw [hold] at hnew
  cases hnew
  exact Int64.le_refl _

theorem booked_fresh (name : String) : (fresh name).Booked :=
  ⟨indexed_nil, fun _ hleaf => (nomatch hleaf), Nat.le_refl _⟩

theorem Booked.turn (hbooked : t.Booked) (h : t.Turn u) : u.Booked := by
  cases h with
  | applied h => exact hbooked.apply h
  | connected => exact ⟨hbooked.indexed, hbooked.dated, hbooked.counted⟩
  | synced => exact ⟨hbooked.indexed, hbooked.dated, hbooked.counted⟩

theorem Turn.advances (hindexed : Indexed t.leaves) (h : t.Turn u) : t.Advances u := by
  have hsame := Advances.refl t
  cases h with
  | applied h => exact advances_apply hindexed h
  | connected => exact ⟨hsame.updateCount, hsame.deleteCount, hsame.latest, hsame.timestamp⟩
  | synced => exact ⟨hsame.updateCount, hsame.deleteCount, hsame.latest, hsame.timestamp⟩

end Turn

end CacheTarget

namespace Cache

variable {cache : Cache} {name : String} {t : CacheTarget}

/-- A call on a target is a turn of that target, or nothing happens. -/
theorem perform_turn (htarget : cache.target name = .ok t) (event : CacheEvent) :
    (∃ u, t.Turn u ∧ u.name = t.name ∧ (cache.perform name event).1 = cache.update u) ∨
      (cache.perform name event).1 = cache := by
  rcases perform_cases htarget event with ⟨n, u, changes, -, hu, hperform⟩ | ⟨u, hflag, hperform⟩ |
    hperform
  · exact Or.inl ⟨u, .applied hu, CacheTarget.name_of_apply hu, congrArg Prod.fst hperform⟩
  · rcases hflag with rfl | rfl
    · exact Or.inl ⟨t.connect, .connected, rfl, congrArg Prod.fst hperform⟩
    · exact Or.inl ⟨t.markSynced, .synced, rfl, congrArg Prod.fst hperform⟩
  · exact Or.inr (congrArg Prod.fst hperform)

/-- Each target takes a turn or stays as it is, whatever is called on which target. -/
theorem Consistent.target_perform (h : cache.Consistent) (name caller : String)
    (event : CacheEvent) :
    (cache.perform caller event).1.target name = cache.target name ∨
      ∃ t u, cache.target name = .ok t ∧ t.Turn u ∧
        (cache.perform caller event).1.target name = .ok u := by
  cases hcaller : cache.target caller with
  | error e =>
    rw [perform_of_unknown hcaller]
    exact Or.inl rfl
  | ok t =>
    rcases perform_turn hcaller event with ⟨u, hturn, hname, hafter⟩ | hafter
    · rw [hafter, target_update, hname, h.name caller t hcaller]
      by_cases hsame : name = caller
      · subst hsame
        exact Or.inr ⟨t, u, hcaller, hturn, if_pos rfl⟩
      · exact Or.inl (if_neg hsame)
    · rw [hafter]
      exact Or.inl rfl

/-- The books of all targets are kept, whatever is called. -/
theorem Reachable.booked (h : cache.Reachable) {name : String} {t : CacheTarget}
    (htarget : cache.target name = .ok t) : t.Booked := by
  induction h generalizing name t with
  | ofNames names =>
    rw [target_ofNames htarget]
    exact CacheTarget.booked_fresh name
  | listen listener _ ih => exact ih htarget
  | perform caller event hbefore ih =>
    rcases hbefore.consistent.target_perform name caller event with hsame |
      ⟨before, after, hfound, hturn, hafter⟩
    · exact ih (hsame.symm.trans htarget)
    · rw [hafter] at htarget
      cases htarget
      exact (ih hfound).turn hturn

/-- In every state of a cache the leaves of a target stand under the texts of their paths, which
have no origin and no target. No leaf outside of the cache's own container is newer than the latest
change, and there are no more of them than updates were counted. No call, on whatever target, turns
back a counter, the latest time, or the time of a leaf that is there before and after it. -/
theorem books_kept (hreachable : cache.Reachable) {name : String} {t : CacheTarget}
    (htarget : cache.target name = .ok t) :
    (∀ key leaf, (key, leaf) ∈ t.leaves →
        key = leaf.path.text ∧ leaf.path.origin = "" ∧ leaf.path.target = "") ∧
      (∀ leaf ∈ t.dataLeaves, leaf.timestamp ≤ t.latest) ∧
      t.leafCount ≤ t.updateCount ∧
      ∀ caller event, ∃ u, (cache.perform caller event).1.target name = .ok u ∧ t.Advances u := by
  have hbooked := hreachable.booked htarget
  refine ⟨?_, hbooked.dated, hbooked.counted, ?_⟩
  · intro key leaf hmem
    have hget := SortedMap.get?_eq_some_of_mem hbooked.indexed.sorted hmem
    have hbare := hbooked.indexed.bare key leaf hget
    refine ⟨(hbooked.indexed.path_text key leaf hget).symm, ?_, ?_⟩ <;>
    · rw [hbare]
      rfl
  · intro caller event
    rcases hreachable.consistent.target_perform name caller event with hsame |
      ⟨before, u, hfound, hturn, hu⟩
    · exact ⟨t, hsame.trans htarget, .refl t⟩
    · rw [htarget] at hfound
      cases hfound
      exact ⟨u, hu, hturn.advances hbooked.indexed⟩

/-- A leaf from before the epoch, the statistics, and then a delete of all queues that one update
of the same notification undoes while another writes to the cache's own container. -/
theorem books_kept_queue :
    let queue : String → Path := fun name => .ofElems [⟨"queue", [("name", name)]⟩]
    let first : Notification := ⟨-5, none, [.of (queue "eth0") (.uint 1)], [], false⟩
    let note : Path := .ofElems [.plain "meta", .plain "note"]
    let mixed : Notification :=
      ⟨3, none, [.of (queue "eth0") (.uint 2), .of note (.uint 3)], [queue "*"], false⟩
    let cache := (((ofNames ["target"]).perform "target" (.apply first)).1.perform "target"
      (.statistics 2)).1
    ∃ t u, cache.target "target" = .ok t ∧ t.leaves.length = 7 ∧ t.leafCount = 1 ∧
      t.updateCount = 1 ∧ t.latest = 0 ∧ (∀ leaf ∈ t.dataLeaves, leaf.timestamp ≤ t.latest) ∧
      (cache.perform "target" (.apply mixed)).1.target "target" = .ok u ∧ t.Advances u ∧
      u.updateCount = 3 ∧ u.deleteCount = 1 ∧ u.latest = 3 ∧ u.leafCount = 1 := by
  intro queue first note mixed cache
  have hreachable : cache.Reachable := .perform _ _ (.perform _ _ (.ofNames _))
  have hbefore : (cache.target "target").toOption.map
      (fun t => (t.leaves.length, t.leafCount, t.updateCount, t.latest)) = some (7, 1, 1, 0) := by
    decide +kernel
  have hafter : ((cache.perform "target" (.apply mixed)).1.target "target").toOption.map
      (fun u => (u.updateCount, u.deleteCount, u.latest, u.leafCount)) = some (3, 1, 3, 1) := by
    decide +kernel
  obtain ⟨t, ht, hfacts⟩ := Option.map_eq_some_iff.mp hbefore
  have htarget := toOption_eq_some.mp ht
  obtain ⟨-, hdated, -, hadvances⟩ := books_kept hreachable htarget
  obtain ⟨u, hu, hadvance⟩ := hadvances "target" (.apply mixed)
  rw [hu] at hafter
  simp only [Prod.mk.injEq] at hfacts
  simp only [Except.toOption, Option.map_some, Option.some.injEq, Prod.mk.injEq] at hafter
  obtain ⟨hleaves, hcount, hupdates, hlatest⟩ := hfacts
  obtain ⟨hupdated, hdeleted, hadvanced, hafter⟩ := hafter
  exact ⟨t, u, htarget, hleaves, hcount, hupdates, hlatest, hdated, hu, hadvance, hupdated,
    hdeleted, hadvanced, hafter⟩

end Cache

end Telemetry
