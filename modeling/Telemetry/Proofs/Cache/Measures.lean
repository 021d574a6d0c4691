import Mathlib.Data.List.Nodup
import Telemetry.Proofs.Cache.Bookkeeping
import Telemetry.Proofs.Wire

/-!
What the cache says about a target does not disturb the target. A reading is written by the same
application that keeps the counters, but it deletes nothing and writes to the cache's own container
only, so it neither counts nor touches any other leaf. A later reading finds what the first one
found, and writes the same values.
-/

namespace Telemetry

namespace Path

/-- Only paths of the cache's own container have the text of one. -/
theorem isMeta_of_text_eq {p q : Path} (hp : p.isMeta = true) (h : q.text = p.text) :
    q.isMeta = true := by
  cases helems : p.elems with
  | nil => simp [isMeta, helems] at hp
  | cons elem rest =>
    have hname : elem.name = metaName := by simpa [isMeta, helems] using hp
    have hne : q.elems ≠ [] := by
      intro hroot
      refine text_ne_root_of_named rest (hname ▸ by decide : elem.name ≠ "") ?_
      rw [← helems]
      exact h.symm.trans (congrArg (fun elems => (ofElems elems).text) hroot)
    have hsame := elems_eq_of_text_eq hne (by simp [helems]) h
    rw [isMeta, hsame]
    exact hp

end Path

inductive Gauge where
  | counters
  | size

namespace Gauge

def call : Gauge → Int64 → CacheEvent
  | counters, now => .statistics now
  | size, now => .size now

/-- What is read off a target, under the names of the leaves that it is written to. -/
def readings : Gauge → CacheTarget → List (String × TypedValue)
  | counters, t =>
    [("connected", .bool t.connected), ("sync", .bool t.synced),
      ("updateCount", .uint (UInt64.ofNat t.updateCount)),
      ("deleteCount", .uint (UInt64.ofNat t.deleteCount)),
      ("latestTimestamp", .int t.latest), ("leafCount", .uint (UInt64.ofNat t.leafCount))]
  | size, t =>
    [("size", .uint (UInt64.ofNat
      (t.dataLeaves.map fun leaf => (Wire.encodeUpdate leaf.path leaf.value).length).sum))]

end Gauge

namespace CacheTarget

def metaPath (name : String) : Path :=
  .ofElems [.plain metaName, .plain name]

def reading (readings : List (String × TypedValue)) (now : Int64) : Notification :=
  ⟨now, none, readings.map fun (name, value) => Update.of (metaPath name) value, [], false⟩

/-- No leaf that readings are written to is newer. -/
def Admits (t : CacheTarget) (readings : List (String × TypedValue)) (now : Int64) : Prop :=
  ∀ reading ∈ readings, ∀ leaf,
    SortedMap.get? t.leaves (metaPath reading.1).text = some leaf → leaf.timestamp ≤ now

structure Undisturbed (before after : CacheTarget) : Prop where
  dataLeaves : after.dataLeaves = before.dataLeaves
  leafCount : after.leafCount = before.leafCount
  updateCount : after.updateCount = before.updateCount
  deleteCount : after.deleteCount = before.deleteCount
  latest : after.latest = before.latest
  connected : after.connected = before.connected
  synced : after.synced = before.synced

/-- The leaves after readings were written: those of the readings hold them, all others are as
before. -/
structure Records (readings : List (String × TypedValue)) (now : Int64)
    (before after : CacheTarget) : Prop where
  written : ∀ name value, (name, value) ∈ readings →
    SortedMap.get? after.leaves (metaPath name).text = some ⟨metaPath name, value, now⟩
  kept : ∀ text, (∀ reading ∈ readings, (metaPath reading.1).text ≠ text) →
    SortedMap.get? after.leaves text = SortedMap.get? before.leaves text

instance (t : CacheTarget) (readings : List (String × TypedValue)) (now : Int64) :
    Decidable (t.Admits readings now) :=
  decidable_of_iff (∀ reading ∈ readings,
    ∀ leaf ∈ SortedMap.get? t.leaves (metaPath reading.1).text, leaf.timestamp ≤ now) Iff.rfl

section Readings

variable {t u : CacheTarget}

theorem Undisturbed.refl (t : CacheTarget) : t.Undisturbed t :=
  ⟨rfl, rfl, rfl, rfl, rfl, rfl, rfl⟩

theorem Undisturbed.trans {v : CacheTarget} (h : t.Undisturbed u) (hnext : u.Undisturbed v) :
    t.Undisturbed v :=
  ⟨hnext.dataLeaves.trans h.dataLeaves, hnext.leafCount.trans h.leafCount,
    hnext.updateCount.trans h.updateCount, hnext.deleteCount.trans h.deleteCount,
    hnext.latest.trans h.latest, hnext.connected.trans h.connected, hnext.synced.trans h.synced⟩

/-- Readings do not change while nothing that is measured does. -/
theorem Undisturbed.readings (h : t.Undisturbed u) (gauge : Gauge) :
    gauge.readings u = gauge.readings t := by
  cases gauge with
  | counters =>
    simp only [Gauge.readings, h.connected, h.synced, h.updateCount, h.deleteCount, h.latest,
      h.leafCount]
  | size => simp only [Gauge.readings, h.dataLeaves]

theorem dataLeaves_eq (t : CacheTarget) : t.dataLeaves =
    SortedMap.values (t.leaves.filter fun entry => !entry.2.path.isMeta) := by
  rw [dataLeaves, SortedMap.values, SortedMap.values, List.filter_map]
  rfl

/-- The size is the number of bytes of the leaves as encoded updates. -/
theorem size_eq (t : CacheTarget) : t.size =
    (t.dataLeaves.map fun leaf => (Wire.encodeUpdate leaf.path leaf.value).length).sum := by
  simp only [Wire.length_encodeUpdate]
  rfl

theorem metaPath_text_inj {name other : String} :
    (metaPath name).text = (metaPath other).text ↔ name = other := by
  rw [metaPath, metaPath, Path.ofElems_text_inj (List.cons_ne_nil _ _) (List.cons_ne_nil _ _)]
  simp [PathElem.plain]

theorem nodup_readings (gauge : Gauge) (t : CacheTarget) :
    ((gauge.readings t).map (·.1)).Nodup := by
  cases gauge <;>
  · simp only [Gauge.readings, List.map_cons, List.map_nil]
    decide

end Readings

section Write

variable {t : CacheTarget} {readings : List (String × TypedValue)} {now : Int64}

theorem fullUpdates_reading (readings : List (String × TypedValue)) (now : Int64) :
    (reading readings now).fullUpdates =
      readings.map fun (name, value) => (metaPath name, value) := by
  induction readings with
  | nil => rfl
  | cons first rest ih =>
    rw [Notification.fullUpdates_cons_of_complete (reading (first :: rest) now) rfl rfl rfl]
    exact congrArg _ ih

theorem complete_reading (readings : List (String × TypedValue)) (now : Int64) :
    (reading readings now).Complete := by
  intro update hupdate
  obtain ⟨⟨name, value⟩, -, rfl⟩ := List.mem_map.mp hupdate
  exact ⟨_, _, rfl, rfl⟩

theorem nothingNewer_reading : t.NothingNewer (reading readings now) ↔ t.Admits readings now := by
  simp only [NothingNewer, fullUpdates_reading, List.forall_mem_map, Admits]
  rfl

/-- Leaves of the cache's own container are written beside the others. -/
theorem filter_writeAll_of_isMeta {leaves : List (String × CachedLeaf)} (h : Indexed leaves)
    {updates : List (Path × TypedValue)} (hmeta : ∀ update ∈ updates, update.1.isMeta = true) :
    (writeAll now leaves updates).filter (fun entry => !entry.2.path.isMeta) =
      leaves.filter fun entry => !entry.2.path.isMeta := by
  have hwritten : SortedMap.Sorted (writeAll now leaves updates) := sorted_writeAll h.sorted
  refine SortedMap.ext_get? (hwritten.filter _) (h.sorted.filter _) fun text => ?_
  rw [SortedMap.get?_filter hwritten, SortedMap.get?_filter h.sorted, get?_writeAll]
  cases hfind : updates.reverse.find? fun update => update.1.text == text with
  | none => rfl
  | some update =>
    have hupdate := hmeta update (List.mem_reverse.mp (List.mem_of_find?_eq_some hfind))
    have htext : update.1.text = text := by simpa using List.find?_some hfind
    cases hget : SortedMap.get? leaves text with
    | none => simp [Option.filter_some, hupdate]
    | some leaf =>
      have hleaf : leaf.path.isMeta = true :=
        Path.isMeta_of_text_eq hupdate ((h.path_text text leaf hget).trans htext.symm)
      simp [Option.filter_some, hupdate, hleaf]

/-- What deletes nothing and writes to the cache's own container only does not count. -/
theorem commit_of_isMeta {updates : List (Path × TypedValue)}
    (hmeta : ∀ update ∈ updates, update.1.isMeta = true) :
    t.commit now ([], t.leaves) updates = { t with leaves := writeAll now t.leaves updates } := by
  have hall : updates.all (·.1.isMeta) = true := List.all_eq_true.mpr hmeta
  simp [commit, hall]

/-- Readings that are admitted are recorded, and nothing else happens. -/
theorem apply_reading (hindexed : Indexed t.leaves) (hnodup : (readings.map (·.1)).Nodup)
    (hadmits : t.Admits readings now) :
    ∃ u, t.apply (reading readings now) =
        .ok (u, { reading readings now with base := some t.base }) ∧
      u.name = t.name ∧ t.Undisturbed u ∧ Records readings now t u := by
  have hmeta : ∀ update ∈ readings.map (fun (name, value) => (metaPath name, value)),
      update.1.isMeta = true := by
    intro update hupdate
    obtain ⟨_, -, rfl⟩ := List.mem_map.mp hupdate
    rfl
  have hresolve := resolve_of_complete (complete_reading readings now)
  have hfresh := requireFresh_eq_ok.mpr (nothingNewer_reading.mpr hadmits)
  rw [fullUpdates_reading] at hresolve hfresh
  have hchanges : t.report (reading readings now) []
      (readings.map fun (name, value) => (metaPath name, value)) =
        { reading readings now with base := some t.base } := by
    simp only [report, reading, List.map_map]
    rfl
  have happly := apply_eq_ok_iff.mpr ⟨_, hresolve, hfresh, (commit_of_isMeta hmeta).symm,
    hchanges.symm⟩
  have hdata : dataLeaves { t with
      leaves := writeAll now t.leaves (readings.map fun (name, value) => (metaPath name, value)) } =
        t.dataLeaves := by
    rw [dataLeaves_eq, dataLeaves_eq, filter_writeAll_of_isMeta hindexed hmeta]
  refine ⟨_, happly, rfl, ⟨hdata, congrArg List.length hdata, rfl, rfl, rfl, rfl, rfl⟩, ?_, ?_⟩
  · intro name value hmem
    have hupdate : (metaPath name, value) ∈
        readings.map fun (name, value) => (metaPath name, value) :=
      List.mem_map.mpr ⟨_, hmem, rfl⟩
    refine get?_writeAll_of_mem hupdate ?_
    intro other hother htext
    obtain ⟨one, hone, rfl⟩ := List.mem_map.mp hother
    have hsame := List.inj_on_of_nodup_map hnodup hone hmem (metaPath_text_inj.mp htext)
    rw [hsame]
  · intro text hnone
    refine get?_writeAll_of_not_mem ?_
    intro update hupdate
    obtain ⟨one, hone, rfl⟩ := List.mem_map.mp hupdate
    exact hnone one hone

theorem apply_reading_eq_error (h : ¬ t.Admits readings now) :
    ∃ e, t.apply (reading readings now) = .error e := by
  cases happly : t.apply (reading readings now) with
  | error e => exact ⟨e, rfl⟩
  | ok out =>
    have haccepted := (exists_apply_iff.mp ⟨out, happly⟩).2
    exact absurd (nothingNewer_reading.mp haccepted) h

end Write

end CacheTarget

namespace Cache

section Measure

variable {cache : Cache} {name : String} {t u : CacheTarget}

/-- Readings are taken by applying the notification that writes them. -/
theorem perform_call (htarget : cache.target name = .ok t) (gauge : Gauge) (now : Int64) :
    cache.perform name (gauge.call now) =
      match t.apply (CacheTarget.reading (gauge.readings t) now) with
      | .ok (after, changes) => (cache.update after, cache.deliver changes)
      | .error _ => (cache, []) := by
  have hwrite : ∀ updates : CacheTarget → List Update,
      updates t = (CacheTarget.reading (gauge.readings t) now).updates →
      (cache.writeMeta name now updates).toOption.getD (cache, []) =
        match t.apply (CacheTarget.reading (gauge.readings t) now) with
        | .ok (after, changes) => (cache.update after, cache.deliver changes)
        | .error _ => (cache, []) := by
    intro updates hupdates
    simp only [writeMeta, htarget, CacheTarget.writeMeta, hupdates, bind, Except.bind]
    rw [CacheTarget.reading]
    cases t.apply _ <;> rfl
  cases gauge with
  | counters => exact hwrite CacheTarget.statistics rfl
  | size =>
    refine hwrite CacheTarget.sizeUpdates ?_
    rw [CacheTarget.sizeUpdates, CacheTarget.size_eq]
    rfl

/-- Readings are recorded if they are admitted; if not, nothing happens. -/
theorem Consistent.perform_call (h : cache.Consistent) (htarget : cache.target name = .ok t)
    (gauge : Gauge) (now : Int64) :
    (t.Admits (gauge.readings t) now → ∃ u, u.name = name ∧ t.Undisturbed u ∧
      CacheTarget.Records (gauge.readings t) now t u ∧
      cache.perform name (gauge.call now) = (cache.update u, cache.deliver
        { CacheTarget.reading (gauge.readings t) now with
          base := some { Path.root with target := name } })) ∧
    (¬t.Admits (gauge.readings t) now → cache.perform name (gauge.call now) = (cache, [])) := by
  have hname := h.name name t htarget
  constructor
  · intro hadmits
    obtain ⟨u, hu, huname, hundisturbed, hrecords⟩ := CacheTarget.apply_reading
      (h.indexed name t htarget) (CacheTarget.nodup_readings gauge t) hadmits
    refine ⟨u, huname.trans hname, hundisturbed, hrecords, ?_⟩
    rw [Cache.perform_call htarget, hu, CacheTarget.base, hname]
  · intro hrefused
    obtain ⟨e, he⟩ := CacheTarget.apply_reading_eq_error hrefused
    rw [Cache.perform_call htarget, he]

/-- However often readings are taken, what is measured does not change. -/
theorem undisturbed_run (hreachable : cache.Reachable) (htarget : cache.target name = .ok t)
    (taken : List (Gauge × Int64)) :
    (cache.run name (taken.map fun (gauge, now) => gauge.call now)).1.Reachable ∧
      ∃ u, (cache.run name (taken.map fun (gauge, now) => gauge.call now)).1.target name = .ok u ∧
        t.Undisturbed u := by
  induction taken generalizing cache t with
  | nil => exact ⟨hreachable, t, htarget, .refl t⟩
  | cons first rest ih =>
    obtain ⟨gauge, now⟩ := first
    have hnext : ∃ u, (cache.perform name (gauge.call now)).1.target name = .ok u ∧
        t.Undisturbed u := by
      obtain ⟨haccepted, hrefused⟩ := hreachable.consistent.perform_call htarget gauge now
      by_cases hadmits : t.Admits (gauge.readings t) now
      · obtain ⟨u, hname, hundisturbed, -, hperform⟩ := haccepted hadmits
        rw [hperform, target_update, if_pos hname.symm]
        exact ⟨u, rfl, hundisturbed⟩
      · rw [hrefused hadmits]
        exact ⟨t, htarget, .refl t⟩
    obtain ⟨u, hu, hundisturbed⟩ := hnext
    obtain ⟨hafter, v, hv, hrest⟩ := ih (.perform name (gauge.call now) hreachable) hu
    exact ⟨hafter, v, hv, hundisturbed.trans hrest⟩

/-- Readings do not disturb what they measure. However many were taken, the leaves outside of the
cache's own container, the counters, the latest time and the flags are as before; so the next
readings are of the state before the first. If no leaf that they are written to is later they are
recorded, no other leaf and no other target changes, and the listener is handed them. If one is
later nothing changes and nobody is handed anything. -/
theorem readings_disturb_nothing (hreachable : cache.Reachable)
    (htarget : cache.target name = .ok t) (taken : List (Gauge × Int64)) (gauge : Gauge)
    (now : Int64) :
    let measured := (cache.run name (taken.map fun (gauge, now) => gauge.call now)).1
    ∃ u, measured.target name = .ok u ∧ t.Undisturbed u ∧
      (u.Admits (gauge.readings t) now → ∃ after v,
        measured.perform name (gauge.call now) = (after, measured.deliver
          { CacheTarget.reading (gauge.readings t) now with
            base := some { Path.root with target := name } }) ∧
        after.target name = .ok v ∧
        (∀ other, other ≠ name → after.target other = measured.target other) ∧
        t.Undisturbed v ∧ CacheTarget.Records (gauge.readings t) now u v) ∧
      (¬u.Admits (gauge.readings t) now →
        measured.perform name (gauge.call now) = (measured, [])) := by
  intro measured
  obtain ⟨hmeasured, u, hu, hundisturbed⟩ := undisturbed_run hreachable htarget taken
  have hnext := hmeasured.consistent.perform_call hu gauge now
  rw [hundisturbed.readings gauge] at hnext
  refine ⟨u, hu, hundisturbed, ?_, hnext.2⟩
  intro hadmits
  obtain ⟨v, hname, hagain, hrecords, hperform⟩ := hnext.1 hadmits
  refine ⟨measured.update v, v, hperform, ?_, ?_, hundisturbed.trans hagain, hrecords⟩
  · rw [target_update, if_pos hname.symm]
  · intro other hother
    rw [target_update, if_neg (hname ▸ hother)]

/-- A later leaf was taken in where the size is written. Until its time the size is not recorded;
then it is, and is that of the one queue. -/
theorem readings_disturb_nothing_queue :
    let queue : Path := .ofElems [⟨"queue", [("name", "eth0")]⟩]
    let known := ((ofNames ["target"]).perform "target"
      (.apply ⟨2, none, [.of queue (.uint 1)], [], false⟩)).1
    let cache := (known.perform "target"
      (.apply ⟨9, none, [.of (CacheTarget.metaPath "size") (.uint 1)], [], false⟩)).1
    let measured := (cache.run "target" [.statistics 3, .size 4]).1
    ∃ u v, measured.target "target" = .ok u ∧ u.leaves.length = 8 ∧ u.updateCount = 1 ∧
      measured.perform "target" (.size 8) = (measured, []) ∧
      (measured.perform "target" (.size 10)).1.target "target" = .ok v ∧
      v.dataLeaves = u.dataLeaves ∧ v.updateCount = 1 ∧
      SortedMap.get? v.leaves (CacheTarget.metaPath "size").text =
        some ⟨CacheTarget.metaPath "size", .uint 29, 10⟩ := by
  intro queue known cache measured
  have hreachable : cache.Reachable := .perform _ _ (.perform _ _ (.ofNames _))
  have hbefore : (cache.target "target").toOption.map (fun t => (t.updateCount,
      (t.dataLeaves.map fun leaf => (Wire.encodeUpdate leaf.path leaf.value).length).sum)) =
        some (1, 29) := by
    decide +kernel
  have hafter : (measured.target "target").toOption.map (fun u => (u.leaves.length,
      decide (u.Admits (Gauge.size.readings u) 8), decide (u.Admits (Gauge.size.readings u) 10))) =
        some (8, false, true) := by
    decide +kernel
  obtain ⟨t, ht, hfacts⟩ := Option.map_eq_some_iff.mp hbefore
  have htarget := toOption_eq_some.mp ht
  obtain ⟨hcount, hbytes⟩ := Prod.mk.inj hfacts
  obtain ⟨u, hu, hsame, -, hrefused⟩ :=
    readings_disturb_nothing hreachable htarget [(.counters, 3), (.size, 4)] .size 8
  obtain ⟨again, hagain, -, haccepted, -⟩ :=
    readings_disturb_nothing hreachable htarget [(.counters, 3), (.size, 4)] .size 10
  cases hu.symm.trans hagain
  change measured.target "target" = .ok u at hu
  rw [hu] at hafter
  simp only [Except.toOption, Option.map_some, Option.some.injEq, Prod.mk.injEq,
    decide_eq_false_iff_not, decide_eq_true_eq, hsame.readings] at hafter
  obtain ⟨hlength, hlate, hadmits⟩ := hafter
  obtain ⟨after, v, hperform, hv, -, hundisturbed, hrecords⟩ := haccepted hadmits
  have hwritten := hrecords.written "size" _ (List.mem_singleton.mpr rfl)
  refine ⟨u, v, hu, hlength, hsame.updateCount.trans hcount, hrefused hlate, ?_,
    hundisturbed.dataLeaves.trans hsame.dataLeaves.symm, hundisturbed.updateCount.trans hcount, ?_⟩
  · rw [← hv]
    exact congrArg (fun out => out.1.target "target") hperform
  · rw [hwritten, hbytes]
    rfl

end Measure

end Cache

end Telemetry
