import Telemetry.Cache.Basic
import Telemetry.Proofs.Cache.Changes
import Telemetry.Proofs.Path.Matching

/-!
A cache is determined by what it publishes. A delete may be a pattern, but what is published are
the paths of the leaves it removed. Such a path, taken as a pattern in turn, matches its own leaf
and nothing that the first pattern did not match, because matching is reflexive and transitive.
So a second target that applies what the first one publishes removes the same leaves, counts the
same and refuses nothing.
-/

namespace Telemetry

def Update.KeysOrdered (update : Update) : Prop :=
  ∀ path, update.path = some path → Path.KeysOrdered path.elems

def Notification.KeysOrdered (n : Notification) : Prop :=
  Path.KeysOrdered n.basePath.elems ∧ ∀ update ∈ n.updates, update.KeysOrdered

namespace CacheTarget

def KeysOrdered (leaves : List (String × CachedLeaf)) : Prop :=
  ∀ entry ∈ leaves, Path.KeysOrdered entry.2.path.elems

theorem mem_writeAll {timestamp : Int64} {leaves : List (String × CachedLeaf)}
    {updates : List (Path × TypedValue)} {entry : String × CachedLeaf}
    (h : entry ∈ writeAll timestamp leaves updates) :
    entry ∈ leaves ∨ ∃ update ∈ updates, entry.2.path = update.1 := by
  induction updates generalizing leaves with
  | nil => exact Or.inl h
  | cons update rest ih =>
    rcases ih h with hinsert | ⟨other, hother, hpath⟩
    · rcases SortedMap.mem_insert hinsert with rfl | hmem
      · exact Or.inr ⟨update, List.mem_cons_self, rfl⟩
      · exact Or.inl hmem
    · exact Or.inr ⟨other, List.mem_cons_of_mem _ hother, hpath⟩

theorem keysOrdered_apply {t after : CacheTarget} {n changes : Notification}
    (hordered : KeysOrdered t.leaves) (hn : n.KeysOrdered)
    (h : t.apply n = .ok (after, changes)) : KeysOrdered after.leaves := by
  obtain ⟨updates, hupdates, hleaves⟩ := apply_eq_ok h
  intro entry hentry
  rw [hleaves] at hentry
  rcases mem_writeAll hentry with hmem | ⟨update, hupdate, hpath⟩
  · exact hordered entry (List.mem_filter.mp hmem).1
  · obtain ⟨sent, hsent, path, hsentPath, -, hfull⟩ := (mem_of_resolve_eq_ok hupdates).mp hupdate
    rw [hpath, hfull]
    exact hn.1.append (hn.2 sent hsent path hsentPath)

theorem keysOrdered_metaUpdate (name : String) (value : TypedValue) :
    (metaUpdate name value).KeysOrdered := by
  intro path hpath
  cases hpath
  exact (Path.keysOrdered_plain metaName).append (Path.keysOrdered_plain name)

section Remove

variable {leaves : List (String × CachedLeaf)} {patterns : List Path}

/-- Removing what is at the removed paths and below them removes the same leaves: each removed
path matches itself, and what matches it matches what it was removed for. -/
theorem removeMatches_removed (hordered : KeysOrdered leaves) :
    (removeMatches leaves (removeMatches leaves patterns).1).2 =
      (removeMatches leaves patterns).2 := by
  have hsame : ∀ entry ∈ leaves, (removeMatches leaves patterns).1.any entry.2.path.isMatch =
      patterns.any entry.2.path.isMatch := by
    intro entry hmem
    rw [Bool.eq_iff_iff, List.any_eq_true, List.any_eq_true]
    constructor
    · rintro ⟨path, hpath, hmatch⟩
      obtain ⟨other, -, rfl, hany⟩ := mem_removeMatches.mp hpath
      obtain ⟨pattern, hpattern, hother⟩ := List.any_eq_true.mp hany
      exact ⟨pattern, hpattern, Path.isMatch_trans hmatch hother⟩
    · intro hany
      have hself : entry.2.path.isMatch entry.2.path = true :=
        Path.matchElems_self (hordered entry hmem)
      have hremoved := mem_removeMatches.mpr ⟨entry, hmem, rfl, List.any_eq_true.mpr hany⟩
      exact ⟨entry.2.path, hremoved, hself⟩
  rw [removeMatches_kept, removeMatches_kept]
  refine List.filter_congr ?_
  intro entry hmem
  rw [← List.not_any_eq_all_not, ← List.not_any_eq_all_not, hsame entry hmem]

theorem removeMatches_map_bare (leaves : List (String × CachedLeaf)) (patterns : List Path) :
    removeMatches leaves (patterns.map Path.bare) = removeMatches leaves patterns := by
  induction patterns generalizing leaves with
  | nil => rfl
  | cons pattern rest ih =>
    simp only [List.map_cons, removeMatches, ih]
    rfl

end Remove

section Replica

variable {t after : CacheTarget} {n changes : Notification}

/-- What can be known of a target from its changes: all but how it is connected. -/
def replica (t : CacheTarget) : CacheTarget :=
  { t with connected := false, synced := false }

/-- Updates that are full already are read as they are. -/
theorem resolve_resolved {base own : Path} {updates : List Update}
    {resolved : List (Path × TypedValue)} (hown : own.elems = [])
    (h : resolve base updates = .ok resolved) :
    resolve own (resolved.map fun (path, value) => Update.of path value) = .ok resolved := by
  have hbare : ∀ full ∈ resolved, (own.join full.1).bare = full.1 := by
    intro full hfull
    obtain ⟨_, -, path, -, -, hpath⟩ := (mem_of_resolve_eq_ok h).mp hfull
    rw [hpath]
    simp only [Path.join, Path.bare, Path.ofElems, hown, List.nil_append]
  clear h
  induction resolved with
  | nil => rfl
  | cons full rest ih =>
    have hrest := ih fun other hother => hbare other (List.mem_cons_of_mem _ hother)
    have hhead := hbare full List.mem_cons_self
    simp only [List.map_cons, resolve, Update.of]
    rw [hhead]
    exact bind_eq_ok.mpr ⟨rest, hrest, rfl⟩

theorem requireFresh_replica (t : CacheTarget) (timestamp : Int64)
    (updates : List (Path × TypedValue)) :
    t.replica.requireFresh timestamp updates = t.requireFresh timestamp updates := by
  induction updates with
  | nil => rfl
  | cons update rest ih =>
    simp only [requireFresh, ih]
    rfl

/-- Of a removal, only what it keeps and how much it removes decides. -/
theorem commit_replica (t : CacheTarget) (timestamp : Int64)
    (updates : List (Path × TypedValue)) {removal other : List Path × List (String × CachedLeaf)}
    (hkept : other.2 = removal.2) (hlength : other.1.length = removal.1.length) :
    t.replica.commit timestamp other updates = (t.commit timestamp removal updates).replica := by
  have hempty : other.1.isEmpty = removal.1.isEmpty := by
    rw [Bool.eq_iff_iff, List.isEmpty_iff_length_eq_zero, List.isEmpty_iff_length_eq_zero, hlength]
  unfold commit
  simp only [hkept, hlength, hempty]
  split <;> rfl

/-- What a target publishes about a change makes its replica change in the same way. -/
theorem apply_replica (hordered : KeysOrdered t.leaves) (h : t.apply n = .ok (after, changes)) :
    ∃ published, t.replica.apply changes = .ok (after.replica, published) := by
  obtain ⟨updates, hupdates, hfresh, rfl, rfl⟩ := apply_eq_ok_iff.mp h
  have hpatterns : patternsOf (t.report n (removeMatches t.leaves (patternsOf n)).1 updates) =
      (removeMatches t.leaves (patternsOf n)).1.map Path.bare := rfl
  have hkept := @removeMatches_removed _ (patternsOf n) hordered
  have hremoved := length_removeMatches t.leaves (patternsOf n)
  have hagain := length_removeMatches t.leaves (removeMatches t.leaves (patternsOf n)).1
  rw [hkept] at hagain
  refine ⟨_, apply_eq_ok_iff.mpr ⟨updates, ?_, ?_, ?_, rfl⟩⟩
  · exact resolve_resolved rfl hupdates
  · rw [requireFresh_replica]
    exact hfresh
  · rw [hpatterns, removeMatches_map_bare]
    refine (commit_replica t n.timestamp updates hkept ?_).symm
    omega

end Replica

def applyAll (t : CacheTarget) : List Notification → Except CacheError CacheTarget
  | [] => .ok t
  | n :: rest => do
    let (t, _) ← t.apply n
    t.applyAll rest

theorem applyAll_append {t middle : CacheTarget} {first : List Notification}
    (h : t.applyAll first = .ok middle) (second : List Notification) :
    t.applyAll (first ++ second) = middle.applyAll second := by
  induction first generalizing t with
  | nil =>
    cases h
    rfl
  | cons n rest ih =>
    obtain ⟨⟨next, changes⟩, hnext, hrest⟩ := bind_eq_ok.mp h
    rw [List.cons_append, applyAll, hnext]
    exact ih hrest

end CacheTarget

/-- What is called on one target of a cache. -/
inductive CacheEvent where
  | apply (n : Notification)
  | connect
  | markSynced
  | statistics (now : Int64)
  | size (now : Int64)

namespace CacheEvent

def KeysOrdered : CacheEvent → Prop
  | apply n => n.KeysOrdered
  | _ => True

def notification? (t : CacheTarget) : CacheEvent → Option Notification
  | apply n => some n
  | statistics now => some ⟨now, none, t.statistics, [], false⟩
  | size now => some ⟨now, none, t.sizeUpdates, [], false⟩
  | _ => none

section Notification

variable {t : CacheTarget} {event : CacheEvent} {n : Notification}

/-- What a call writes is what it applies, or one of the two kinds of own leaves. -/
theorem forall_notification? {P : Notification → Prop} (happly : ∀ m, event = .apply m → P m)
    (hstatistics : ∀ now, P ⟨now, none, t.statistics, [], false⟩)
    (hsize : ∀ now, P ⟨now, none, t.sizeUpdates, [], false⟩)
    (hn : event.notification? t = some n) : P n := by
  cases event with
  | apply m =>
    cases hn
    exact happly _ rfl
  | connect => cases hn
  | markSynced => cases hn
  | statistics now =>
    cases hn
    exact hstatistics now
  | size now =>
    cases hn
    exact hsize now

theorem KeysOrdered.notification (h : event.KeysOrdered) (hn : event.notification? t = some n) :
    n.KeysOrdered := by
  refine forall_notification? ?_ ?_ ?_ hn
  · rintro m rfl
    exact h
  · exact fun now => ⟨Path.keysOrdered_nil,
      by simp [CacheTarget.statistics, CacheTarget.keysOrdered_metaUpdate]⟩
  · exact fun now => ⟨Path.keysOrdered_nil,
      by simp [CacheTarget.sizeUpdates, CacheTarget.keysOrdered_metaUpdate]⟩

end Notification

end CacheEvent

namespace Cache

def perform (cache : Cache) (name : String) (event : CacheEvent) : Cache × List Delivery :=
  let called : Except CacheError (Cache × List Delivery) :=
    match event with
    | .apply n => cache.apply name n
    | .connect => (cache.target name).map fun t => (cache.update t.connect, [])
    | .markSynced => (cache.target name).map fun t => (cache.update t.markSynced, [])
    | .statistics now => cache.writeMeta name now CacheTarget.statistics
    | .size now => cache.writeMeta name now CacheTarget.sizeUpdates
  called.toOption.getD (cache, [])

def run (cache : Cache) (name : String) : List CacheEvent → Cache × List Delivery
  | [] => (cache, [])
  | event :: rest =>
    let (cache, deliveries) := cache.perform name event
    let (cache, further) := cache.run name rest
    (cache, deliveries ++ further)

section Perform

variable {cache : Cache} {name listener : String} {t : CacheTarget}

/-- Writing the cache's own leaves applies a notification, or it is refused. -/
theorem writeMeta_cases (htarget : cache.target name = .ok t) (now : Int64)
    (updates : CacheTarget → List Update) :
    (∃ after changes, t.apply ⟨now, none, updates t, [], false⟩ = .ok (after, changes) ∧
      cache.writeMeta name now updates = .ok (cache.update after, cache.deliver changes)) ∨
    cache.writeMeta name now updates = .ok (cache, []) := by
  cases hwritten : t.writeMeta now (updates t) with
  | none => exact Or.inr (by simp [writeMeta, htarget, hwritten, bind, Except.bind])
  | some written =>
    refine Or.inl ⟨written.1, written.2, toOption_eq_some.mp hwritten, ?_⟩
    simp [writeMeta, htarget, hwritten, bind, Except.bind]

/-- A call writes a notification and hands over the changes, or it sets a flag, or it does
nothing. -/
theorem perform_cases (htarget : cache.target name = .ok t) (event : CacheEvent) :
    (∃ n after changes, event.notification? t = some n ∧ t.apply n = .ok (after, changes) ∧
      cache.perform name event = (cache.update after, cache.deliver changes)) ∨
    (∃ after, (after = t.connect ∨ after = t.markSynced) ∧
      cache.perform name event = (cache.update after, [])) ∨
    cache.perform name event = (cache, []) := by
  have hmeta : ∀ now (updates : CacheTarget → List Update),
      (∃ after changes, t.apply ⟨now, none, updates t, [], false⟩ = .ok (after, changes) ∧
        (cache.writeMeta name now updates).toOption.getD (cache, []) =
          (cache.update after, cache.deliver changes)) ∨
      (cache.writeMeta name now updates).toOption.getD (cache, []) = (cache, []) := by
    intro now updates
    rcases writeMeta_cases htarget now updates with ⟨after, changes, happly, hwritten⟩ | hwritten
    · rw [hwritten]
      exact Or.inl ⟨after, changes, happly, rfl⟩
    · rw [hwritten]
      exact Or.inr rfl
  cases event with
  | apply n =>
    cases happly : t.apply n with
    | error e =>
      refine Or.inr (Or.inr ?_)
      simp [perform, apply, htarget, happly, bind, Except.bind, Except.toOption]
    | ok applied =>
      refine Or.inl ⟨n, applied.1, applied.2, rfl, happly, ?_⟩
      simp [perform, apply, htarget, happly, bind, Except.bind, Except.toOption]
  | connect =>
    refine Or.inr (Or.inl ⟨t.connect, Or.inl rfl, ?_⟩)
    simp [perform, htarget, Except.map, Except.toOption]
  | markSynced =>
    refine Or.inr (Or.inl ⟨t.markSynced, Or.inr rfl, ?_⟩)
    simp [perform, htarget, Except.map, Except.toOption]
  | statistics now =>
    rcases hmeta now CacheTarget.statistics with ⟨after, changes, happly, hafter⟩ | hafter
    · exact Or.inl ⟨_, after, changes, rfl, happly, hafter⟩
    · exact Or.inr (Or.inr hafter)
  | size now =>
    rcases hmeta now CacheTarget.sizeUpdates with ⟨after, changes, happly, hafter⟩ | hafter
    · exact Or.inl ⟨_, after, changes, rfl, happly, hafter⟩
    · exact Or.inr (Or.inr hafter)

/-- Calls on targets that do not exist do nothing. -/
theorem perform_of_unknown {e : CacheError} (h : cache.target name = .error e)
    (event : CacheEvent) : cache.perform name event = (cache, []) := by
  have hmeta : ∀ now (updates : CacheTarget → List Update),
      (cache.writeMeta name now updates).toOption.getD (cache, []) = (cache, []) := by
    intro now updates
    simp [writeMeta, h, bind, Except.bind, Except.toOption]
  cases event with
  | apply n => simp [perform, apply, h, bind, Except.bind, Except.toOption]
  | connect => simp [perform, h, Except.map, Except.toOption]
  | markSynced => simp [perform, h, Except.map, Except.toOption]
  | statistics now => exact hmeta now CacheTarget.statistics
  | size now => exact hmeta now CacheTarget.sizeUpdates

structure Serves (cache : Cache) (listener name : String) (t : CacheTarget) : Prop where
  listener : cache.listener = some listener
  target : cache.target name = .ok t
  name : t.name = name
  ordered : CacheTarget.KeysOrdered t.leaves

theorem Serves.update (h : cache.Serves listener name t) {after : CacheTarget}
    (hname : after.name = t.name) (hordered : CacheTarget.KeysOrdered after.leaves) :
    (cache.update after).Serves listener name after := by
  refine ⟨h.listener, ?_, hname.trans h.name, hordered⟩
  rw [← h.name, ← hname]
  simp only [Cache.target, Cache.update, SortedMap.get?_insert_self]

/-- One call, and the replica follows. -/
theorem replica_perform (h : cache.Serves listener name t) {event : CacheEvent}
    (hevent : event.KeysOrdered) :
    ∃ after, (cache.perform name event).1.Serves listener name after ∧
      t.replica.applyAll ((cache.perform name event).2.map Delivery.notification) =
        .ok after.replica := by
  rcases perform_cases h.target event with ⟨n, after, changes, hn, happly, hperform⟩ |
    ⟨after, hflag, hperform⟩ | hperform
  · have hserves := h.update (CacheTarget.name_of_apply happly)
      (CacheTarget.keysOrdered_apply h.ordered (hevent.notification hn) happly)
    rw [hperform]
    refine ⟨after, hserves, ?_⟩
    simp only [deliver, h.listener]
    cases hempty : changes.isEmpty with
    | true =>
      rw [CacheTarget.eq_of_apply_isEmpty happly hempty]
      rfl
    | false =>
      obtain ⟨published, hreplica⟩ := CacheTarget.apply_replica h.ordered happly
      exact bind_eq_ok.mpr ⟨(after.replica, published), hreplica, rfl⟩
  · have hsame : after.replica = t.replica := by rcases hflag with rfl | rfl <;> rfl
    have hname : after.replica.name = t.replica.name := congrArg CacheTarget.name hsame
    have hleaves : after.replica.leaves = t.replica.leaves := congrArg CacheTarget.leaves hsame
    have hordered : CacheTarget.KeysOrdered after.replica.leaves := hleaves ▸ h.ordered
    rw [hperform]
    exact ⟨after, h.update hname hordered, congrArg Except.ok hsame.symm⟩
  · rw [hperform]
    exact ⟨t, h, rfl⟩

theorem replica_run (h : cache.Serves listener name t) {events : List CacheEvent}
    (hevents : ∀ event ∈ events, event.KeysOrdered) :
    ∃ after, (cache.run name events).1.Serves listener name after ∧
      t.replica.applyAll ((cache.run name events).2.map Delivery.notification) =
        .ok after.replica := by
  induction events generalizing cache t with
  | nil => exact ⟨t, h, rfl⟩
  | cons event rest ih =>
    obtain ⟨middle, hmiddle, hfirst⟩ := replica_perform h (hevents event List.mem_cons_self)
    obtain ⟨after, hafter, hrest⟩ := ih hmiddle
      fun other hother => hevents other (List.mem_cons_of_mem _ hother)
    refine ⟨after, hafter, ?_⟩
    simp only [run, List.map_append]
    rw [CacheTarget.applyAll_append hfirst]
    exact hrest

end Perform

/-- Whatever is called on a fresh target of a cache with a listener, a second fresh target accepts
all that the listener was handed. It ends with the same leaves and the same counters. -/
theorem replica_of_deliveries {cache : Cache} {listener name : String}
    (hlistener : cache.listener = some listener)
    (htarget : cache.target name = .ok (CacheTarget.fresh name)) (events : List CacheEvent)
    (hevents : ∀ event ∈ events, event.KeysOrdered) :
    ∃ t replica, (cache.run name events).1.target name = .ok t ∧
      (CacheTarget.fresh name).applyAll
        ((cache.run name events).2.map Delivery.notification) = .ok replica ∧
      replica.leaves = t.leaves ∧ replica.updateCount = t.updateCount ∧
      replica.deleteCount = t.deleteCount ∧ replica.latest = t.latest := by
  have hfresh : cache.Serves listener name (CacheTarget.fresh name) := by
    refine ⟨hlistener, htarget, rfl, ?_⟩
    intro entry hentry
    cases hentry
  obtain ⟨t, ht, hreplica⟩ := replica_run hfresh hevents
  exact ⟨t, t.replica, ht.target, hreplica, rfl, rfl, rfl, rfl⟩

/-- A delete of all queues removes leaves above and below each other and one of a queue that is
named like the wildcard, after a stale update was refused. -/
theorem replica_of_deliveries_wildcard :
    let queue : String → Path := fun name => .ofElems [⟨"queue", [("name", name)]⟩]
    let length : String → Path := fun name => .ofElems [⟨"queue", [("name", name)]⟩, .plain "length"]
    let events : List CacheEvent :=
      [.connect,
        .apply ⟨2, none, [.of (queue "eth0") (.uint 1), .of (length "eth0") (.uint 2),
          .of (queue "*") (.uint 3)], [], false⟩,
        .apply ⟨1, none, [.of (queue "eth0") (.uint 4)], [], false⟩,
        .statistics 3,
        .apply ⟨4, none, [.of (queue "eth1") (.uint 5)], [queue "*"], false⟩,
        .markSynced]
    let cache := (Cache.ofNames ["target"]).listen "replica"
    (cache.run "target" events).2.map (fun delivery => delivery.notification.deletes.length) =
        [0, 0, 3] ∧
      ∃ t replica, (cache.run "target" events).1.target "target" = .ok t ∧
        (CacheTarget.fresh "target").applyAll
          ((cache.run "target" events).2.map Delivery.notification) = .ok replica ∧
        replica.leaves = t.leaves ∧ replica.updateCount = t.updateCount ∧
        replica.deleteCount = t.deleteCount ∧ replica.latest = t.latest := by
  intro queue length events cache
  have hqueue : ∀ name, Path.KeysOrdered (queue name).elems := fun name =>
    Path.keysOrdered_singleton (List.pairwise_singleton _ _)
  have hlength : ∀ name, Path.KeysOrdered (length name).elems := fun name =>
    (hqueue name).append (Path.keysOrdered_plain "length")
  have hevents : ∀ event ∈ events, event.KeysOrdered := by
    simp [events, CacheEvent.KeysOrdered, Notification.KeysOrdered, Update.KeysOrdered, Update.of,
      Notification.basePath, Path.root, Path.ofElems, Path.keysOrdered_nil, hqueue, hlength]
  exact ⟨by decide +kernel, replica_of_deliveries rfl rfl events hevents⟩

end Cache

end Telemetry
