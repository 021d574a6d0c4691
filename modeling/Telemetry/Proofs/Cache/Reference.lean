import Mathlib.Data.List.Induction
import Telemetry.Proofs.Cache.Replica
import Telemetry.Proofs.Cache.Written

/-!
What applying a notification means, said leaf by leaf. The last update of a leaf decides; a leaf
that is not updated stays unless a delete matches it. A notification is refused as a whole when
an update is incomplete or a leaf to be updated is newer, and what is handed to the listener is
what was removed and written, in full paths.
-/

namespace Telemetry

namespace Notification

def fullUpdates (n : Notification) : List (Path × TypedValue) :=
  n.updates.filterMap fun update =>
    match update.path, update.value with
    | some path, some value => some ((n.basePath.join path).bare, value)
    | _, _ => none

/-- Every update has a path and a value. -/
def Complete (n : Notification) : Prop :=
  ∀ update ∈ n.updates, ∃ path value, update.path = some path ∧ update.value = some value

def deletes? (n : Notification) (path : Path) : Bool :=
  n.fullDeletes.any path.isMatch

def written? (n : Notification) (text : String) : Option CachedLeaf :=
  (n.fullUpdates.reverse.find? fun update => update.1.text == text).map fun update =>
    ⟨update.1, update.2, n.timestamp⟩

/-- The leaf under a text after the notification, given the one before. -/
def leafAfter (n : Notification) (text : String) (before : Option CachedLeaf) :
    Option CachedLeaf :=
  (n.written? text).or (before.filter fun leaf => !n.deletes? leaf.path)

theorem deletes?_eq (n : Notification) (path : Path) :
    n.deletes? path = (CacheTarget.patternsOf n).any path.isMatch := by
  simp only [deletes?, fullDeletes, CacheTarget.patternsOf, List.any_map]
  rfl

theorem fullUpdates_cons_of_complete (n : Notification) {path : Path} {value : TypedValue}
    {update : Update} {rest : List Update} (hupdates : n.updates = update :: rest)
    (hpath : update.path = some path) (hvalue : update.value = some value) :
    n.fullUpdates =
      ((n.basePath.join path).bare, value) :: { n with updates := rest }.fullUpdates := by
  rw [fullUpdates, hupdates]
  simp only [List.filterMap_cons, hpath, hvalue]
  rfl

end Notification

namespace CacheTarget

section Apply

variable {t after : CacheTarget} {n changes : Notification}

def NothingNewer (t : CacheTarget) (n : Notification) : Prop :=
  ∀ update ∈ n.fullUpdates, ∀ leaf, SortedMap.get? t.leaves update.1.text = some leaf →
    leaf.timestamp ≤ n.timestamp

/-- Complete updates are read with their full paths, in order. -/
theorem resolve_of_complete (h : n.Complete) :
    resolve n.basePath n.updates = .ok n.fullUpdates := by
  obtain ⟨timestamp, base, updates, deletes, atomic⟩ := n
  induction updates with
  | nil => rfl
  | cons update rest ih =>
    obtain ⟨path, value, hpath, hvalue⟩ := h update List.mem_cons_self
    have hrest := ih fun other hother => h other (List.mem_cons_of_mem update hother)
    rw [Notification.fullUpdates_cons_of_complete _ rfl hpath hvalue]
    simp only [resolve, hpath, hvalue]
    exact bind_eq_ok.mpr ⟨_, hrest, rfl⟩

theorem resolve_eq_ok_iff {updates : List (Path × TypedValue)} :
    resolve n.basePath n.updates = .ok updates ↔ n.Complete ∧ updates = n.fullUpdates := by
  constructor
  · intro h
    have hcomplete : n.Complete := exists_resolve_iff.mp ⟨updates, h⟩
    rw [resolve_of_complete hcomplete] at h
    exact ⟨hcomplete, (Except.ok.inj h).symm⟩
  · rintro ⟨hcomplete, rfl⟩
    exact resolve_of_complete hcomplete

theorem requireFresh_eq_ok {timestamp : Int64} {updates : List (Path × TypedValue)} :
    t.requireFresh timestamp updates = .ok () ↔ ∀ update ∈ updates, ∀ leaf,
      SortedMap.get? t.leaves update.1.text = some leaf → leaf.timestamp ≤ timestamp := by
  induction updates with
  | nil => simp [requireFresh]
  | cons update rest ih =>
    rw [List.forall_mem_cons, ← ih, requireFresh]
    cases hget : SortedMap.get? t.leaves update.1.text with
    | none => simp
    | some leaf =>
      by_cases hnewer : timestamp < leaf.timestamp
      · simp [hnewer, Int64.not_le.mpr hnewer]
      · simp [hnewer, Int64.not_lt.mp hnewer]

/-- A notification is accepted if it is complete and updates nothing that is newer. -/
theorem exists_apply_iff : (∃ out, t.apply n = .ok out) ↔ n.Complete ∧ t.NothingNewer n := by
  constructor
  · rintro ⟨⟨after, changes⟩, h⟩
    obtain ⟨updates, hupdates, hfresh, -⟩ := apply_eq_ok_iff.mp h
    obtain ⟨hcomplete, rfl⟩ := resolve_eq_ok_iff.mp hupdates
    exact ⟨hcomplete, requireFresh_eq_ok.mp hfresh⟩
  · rintro ⟨hcomplete, hfresh⟩
    exact ⟨_, apply_eq_ok_iff.mpr
      ⟨_, resolve_of_complete hcomplete, requireFresh_eq_ok.mpr hfresh, rfl, rfl⟩⟩

/-- Of updates of one leaf the last counts. -/
theorem get?_writeAll (timestamp : Int64) (leaves : List (String × CachedLeaf))
    (updates : List (Path × TypedValue)) (text : String) :
    SortedMap.get? (writeAll timestamp leaves updates) text =
      ((updates.reverse.find? fun update => update.1.text == text).map fun update =>
        (⟨update.1, update.2, timestamp⟩ : CachedLeaf)).or (SortedMap.get? leaves text) := by
  induction updates using List.reverseRecOn with
  | nil => rfl
  | append_singleton updates update ih =>
    have hlast : writeAll timestamp leaves (updates ++ [update]) =
        SortedMap.insert (writeAll timestamp leaves updates) update.1.text
          ⟨update.1, update.2, timestamp⟩ := List.foldl_append
    rw [hlast, SortedMap.get?_insert, List.reverse_append, List.reverse_singleton,
      List.singleton_append, List.find?_cons]
    by_cases htext : update.1.text = text
    · simp [htext]
    · have hother : text ≠ update.1.text := Ne.symm htext
      have hskip : (update.1.text == text) = false := beq_eq_false_iff_ne.mpr htext
      rw [if_neg hother, ih, hskip]

/-- Every leaf is afterwards what the notification says it is. -/
theorem get?_leaves_apply (hindexed : Indexed t.leaves) (h : t.apply n = .ok (after, changes))
    (text : String) : SortedMap.get? after.leaves text =
      n.leafAfter text (SortedMap.get? t.leaves text) := by
  obtain ⟨updates, hupdates, hleaves⟩ := apply_eq_ok h
  obtain ⟨-, rfl⟩ := resolve_eq_ok_iff.mp hupdates
  rw [hleaves, get?_writeAll, SortedMap.get?_filter hindexed.sorted]
  have hdeletes : ∀ leaf : CachedLeaf, (n.deletes.all fun path =>
      !leaf.path.isMatch (n.basePath.join path).bare) = !n.deletes? leaf.path := by
    intro leaf
    rw [Notification.deletes?_eq, CacheTarget.patternsOf, List.any_map, ← List.not_any_eq_all_not]
    rfl
  simp only [hdeletes]
  rfl

end Apply

section Removed

variable {leaves : List (String × CachedLeaf)}

theorem nodup_paths (h : Indexed leaves) : (leaves.map fun entry => entry.2.path).Nodup := by
  refine List.pairwise_map.mpr (h.sorted.imp_of_mem ?_)
  intro entry other hentry hother hlt hsame
  have htext := h.path_text _ _ (SortedMap.get?_eq_some_of_mem h.sorted hentry)
  have hotherText := h.path_text _ _ (SortedMap.get?_eq_some_of_mem h.sorted hother)
  rw [← htext, ← hotherText, hsame, Std.ReflOrd.compare_self] at hlt
  cases hlt

/-- No leaf is removed twice, however many patterns match it. -/
theorem nodup_removeMatches (h : Indexed leaves) (patterns : List Path) :
    (removeMatches leaves patterns).1.Nodup :=
  (List.nodup_append.mp ((perm_removeMatches leaves patterns).nodup_iff.mpr (nodup_paths h))).1

end Removed

end CacheTarget

namespace Cache

/-- The states of a cache: whatever is called on its targets, and whoever listens. -/
inductive Reachable : Cache → Prop
  | ofNames (names : List String) : Reachable (ofNames names)
  | listen {cache : Cache} (listener : String) : Reachable cache →
      Reachable (cache.listen listener)
  | perform {cache : Cache} (name : String) (event : CacheEvent) : Reachable cache →
      Reachable (cache.perform name event).1

/-- Targets are kept under their names and leaves under the texts of their paths. -/
structure Consistent (cache : Cache) : Prop where
  name : ∀ name t, cache.target name = .ok t → t.name = name
  indexed : ∀ name t, cache.target name = .ok t → CacheTarget.Indexed t.leaves

section Consistent

variable {cache after : Cache} {name : String} {t u : CacheTarget} {n : Notification}
  {deliveries : List Delivery}

theorem target_eq_ok : cache.target name = .ok t ↔ SortedMap.get? cache.targets name = some t := by
  unfold target
  cases SortedMap.get? cache.targets name <;> simp

/-- Only the target of the same name is replaced. -/
theorem target_update (cache : Cache) (t : CacheTarget) (name : String) :
    (cache.update t).target name = if name = t.name then .ok t else cache.target name := by
  simp only [target, update, SortedMap.get?_insert]
  by_cases hname : name = t.name
  · simp only [if_pos hname]
  · simp only [if_neg hname]

theorem target_ofNames {names : List String} (h : (ofNames names).target name = .ok t) :
    t = CacheTarget.fresh name := by
  have hmem := SortedMap.mem_of_get?_ofList (target_eq_ok.mp h)
  obtain ⟨other, -, hsame⟩ := List.mem_map.mp hmem
  cases hsame
  rfl

theorem consistent_ofNames (names : List String) : (ofNames names).Consistent := by
  constructor
  · intro name t ht
    rw [target_ofNames ht]
    rfl
  · intro name t ht
    rw [target_ofNames ht]
    exact CacheTarget.indexed_nil

theorem Consistent.update (h : cache.Consistent) (hindexed : CacheTarget.Indexed u.leaves) :
    (cache.update u).Consistent := by
  constructor
  · intro name t ht
    rw [target_update] at ht
    split at ht
    · rename_i hname
      cases ht
      exact hname.symm
    · exact h.name name t ht
  · intro name t ht
    rw [target_update] at ht
    split at ht
    · cases ht
      exact hindexed
    · exact h.indexed name t ht

/-- Applying a notification replaces the target by what it becomes and hands on the changes. -/
theorem apply_eq_ok_iff : cache.apply name n = .ok (after, deliveries) ↔
    ∃ t u changes, cache.target name = .ok t ∧ t.apply n = .ok (u, changes) ∧
      after = cache.update u ∧ deliveries = cache.deliver changes := by
  constructor
  · intro h
    obtain ⟨t, ht, h⟩ := bind_eq_ok.mp h
    obtain ⟨⟨u, changes⟩, hu, h⟩ := bind_eq_ok.mp h
    cases h
    exact ⟨t, u, changes, ht, hu, rfl, rfl⟩
  · rintro ⟨t, u, changes, ht, hu, rfl, rfl⟩
    exact bind_eq_ok.mpr ⟨t, ht, bind_eq_ok.mpr ⟨(u, changes), hu, rfl⟩⟩

theorem perform_apply_of_ok (h : cache.apply name n = .ok (after, deliveries)) :
    cache.perform name (.apply n) = (after, deliveries) := by
  simp [perform, h, Except.toOption]

theorem perform_apply_of_error {e : CacheError} (h : cache.apply name n = .error e) :
    cache.perform name (.apply n) = (cache, []) := by
  simp [perform, h, Except.toOption]

theorem Consistent.perform (h : cache.Consistent) (name : String) (event : CacheEvent) :
    (cache.perform name event).1.Consistent := by
  cases ht : cache.target name with
  | error e =>
    rw [perform_of_unknown ht]
    exact h
  | ok t =>
    have hindexed := h.indexed name t ht
    rcases perform_cases ht event with ⟨n, u, changes, -, hu, hperform⟩ | ⟨u, hflag, hperform⟩ |
      hperform
    · rw [hperform]
      exact h.update (CacheTarget.indexed_apply hindexed hu)
    · rw [hperform]
      rcases hflag with rfl | rfl <;> exact h.update hindexed
    · rw [hperform]
      exact h

theorem Reachable.consistent (h : cache.Reachable) : cache.Consistent := by
  induction h with
  | ofNames names => exact consistent_ofNames names
  | listen listener _ ih => exact ⟨ih.name, ih.indexed⟩
  | perform name event _ ih => exact ih.perform name event

end Consistent

/-- What the listener is handed about a notification to a target that removed some leaves. -/
def handedOn (cache : Cache) (name : String) (n : Notification) (removed : List Path) :
    List Delivery :=
  match cache.listener with
  | none => []
  | some listener =>
    if removed = [] ∧ n.updates = [] then []
    else [⟨listener, ⟨n.timestamp, some { Path.root with target := name },
      n.fullUpdates.map fun (path, value) => Update.of path value, removed, n.atomic⟩⟩]

theorem fullUpdates_eq_nil_iff {n : Notification} (h : n.Complete) :
    n.fullUpdates = [] ↔ n.updates = [] := by
  refine ⟨fun hfull => ?_, fun hnone => by rw [Notification.fullUpdates, hnone]; rfl⟩
  refine List.eq_nil_iff_forall_not_mem.mpr ?_
  intro update hupdate
  obtain ⟨path, value, hpath, hvalue⟩ := h update hupdate
  have hskipped := List.filterMap_eq_nil_iff.mp hfull update hupdate
  simp [hpath, hvalue] at hskipped

theorem deliver_report {cache : Cache} {t : CacheTarget} {name : String} (hname : t.name = name)
    {n : Notification} (hcomplete : n.Complete) (removed : List Path) :
    cache.deliver (t.report n removed n.fullUpdates) = cache.handedOn name n removed := by
  unfold deliver handedOn
  cases cache.listener with
  | none => rfl
  | some listener =>
    have hempty : (t.report n removed n.fullUpdates).isEmpty = true ↔
        removed = [] ∧ n.updates = [] := by
      simp [Notification.isEmpty, CacheTarget.report, fullUpdates_eq_nil_iff hcomplete]
    simp only [hempty]
    rw [CacheTarget.report, CacheTarget.base, hname]

/-- What applying a notification to a target does. It is refused, and then nothing happens, unless
it is complete and updates nothing newer. If it is accepted every leaf is what the notification says,
no other target changes, and the listener is handed, if there is anything, the paths of the removed
leaves, each once, and all updates. -/
theorem apply_meets_reference {cache : Cache} (hreachable : cache.Reachable) {name : String}
    {t : CacheTarget} (htarget : cache.target name = .ok t) (n : Notification) :
    ((∃ out, cache.apply name n = .ok out) ↔ n.Complete ∧ t.NothingNewer n) ∧
      (∀ e, cache.apply name n = .error e → cache.perform name (.apply n) = (cache, [])) ∧
      ∀ after deliveries, cache.apply name n = .ok (after, deliveries) →
        cache.perform name (.apply n) = (after, deliveries) ∧
        ∃ u, after.target name = .ok u ∧
          (∀ text, SortedMap.get? u.leaves text =
            n.leafAfter text (SortedMap.get? t.leaves text)) ∧
          (∀ other, other ≠ name → after.target other = cache.target other) ∧
          ∃ removed, removed.Nodup ∧
            (∀ path, path ∈ removed ↔ n.deletes? path ∧
              ∃ text leaf, SortedMap.get? t.leaves text = some leaf ∧ leaf.path = path) ∧
            deliveries = cache.handedOn name n removed := by
  have hconsistent := hreachable.consistent
  have hname := hconsistent.name name t htarget
  have hindexed := hconsistent.indexed name t htarget
  refine ⟨?_, fun e he => perform_apply_of_error he, ?_⟩
  · rw [← CacheTarget.exists_apply_iff]
    constructor
    · rintro ⟨⟨after, deliveries⟩, h⟩
      obtain ⟨t', u, changes, ht', hu, -, -⟩ := apply_eq_ok_iff.mp h
      rw [htarget] at ht'
      cases ht'
      exact ⟨_, hu⟩
    · rintro ⟨⟨u, changes⟩, hu⟩
      exact ⟨_, apply_eq_ok_iff.mpr ⟨t, u, changes, htarget, hu, rfl, rfl⟩⟩
  · intro after deliveries h
    refine ⟨perform_apply_of_ok h, ?_⟩
    obtain ⟨t', u, changes, ht', hu, rfl, rfl⟩ := apply_eq_ok_iff.mp h
    rw [htarget] at ht'
    cases ht'
    obtain ⟨updates, hupdates, -, -, hchanges⟩ := CacheTarget.apply_eq_ok_iff.mp hu
    obtain ⟨hcomplete, rfl⟩ := CacheTarget.resolve_eq_ok_iff.mp hupdates
    have huname : u.name = name := (CacheTarget.name_of_apply hu).trans hname
    refine ⟨u, ?_, CacheTarget.get?_leaves_apply hindexed hu, ?_,
      (CacheTarget.removeMatches t.leaves (CacheTarget.patternsOf n)).1,
      CacheTarget.nodup_removeMatches hindexed _, ?_, ?_⟩
    · rw [target_update, if_pos huname.symm]
    · intro other hother
      rw [target_update, if_neg (huname ▸ hother)]
    · intro path
      simp only [CacheTarget.mem_removeMatches, Notification.deletes?_eq]
      constructor
      · rintro ⟨⟨text, leaf⟩, hmem, rfl, hmatch⟩
        exact ⟨hmatch, text, leaf, SortedMap.get?_eq_some_of_mem hindexed.sorted hmem, rfl⟩
      · rintro ⟨hmatch, text, leaf, hleaf, rfl⟩
        exact ⟨(text, leaf), SortedMap.mem_of_get?_eq_some hleaf, rfl, hmatch⟩
    · rw [hchanges]
      exact deliver_report hname hcomplete _

/-- Two deletes match one queue, another is removed and written again, twice. -/
theorem apply_meets_reference_queues :
    let queue : String → Path := fun name => .ofElems [⟨"queue", [("name", name)]⟩]
    let first : Notification :=
      ⟨2, none, [.of (queue "eth0") (.uint 1), .of (queue "eth1") (.uint 2)], [], false⟩
    let second : Notification :=
      ⟨3, none, [.of (queue "eth0") (.uint 3), .of (queue "eth0") (.uint 4)],
        [queue "*", queue "eth1"], false⟩
    let cache := (((ofNames ["target"]).listen "replica").perform "target" (.apply first)).1
    ∃ after removed u,
      cache.apply "target" second = .ok (after, cache.handedOn "target" second removed) ∧
      removed.Nodup ∧ queue "eth0" ∈ removed ∧ queue "eth1" ∈ removed ∧
      after.target "target" = .ok u ∧
      SortedMap.get? u.leaves (queue "eth0").text = some ⟨queue "eth0", .uint 4, 3⟩ ∧
      SortedMap.get? u.leaves (queue "eth1").text = none := by
  intro queue first second cache
  have hlistening : ((ofNames ["target"]).listen "replica").Reachable := .listen _ (.ofNames _)
  have hfresh : ((ofNames ["target"]).listen "replica").target "target" =
      .ok (CacheTarget.fresh "target") := rfl
  have hfirst := apply_meets_reference hlistening hfresh first
  obtain ⟨⟨reached, sent⟩, hreached⟩ := hfirst.1.mpr
    ⟨by simp [Notification.Complete, first, Update.of], fun _ _ _ hleaf => by cases hleaf⟩
  obtain ⟨hperform, t, ht, hleaves, -⟩ := hfirst.2.2 reached sent hreached
  have hcache : cache = reached := congrArg Prod.fst hperform
  have hdiffer : ((queue "eth1").text == (queue "eth0").text) = false := by decide +kernel
  have hfirstUpdates : first.fullUpdates = [(queue "eth0", .uint 1), (queue "eth1", .uint 2)] := rfl
  have hsecondUpdates : second.fullUpdates = [(queue "eth0", .uint 3), (queue "eth0", .uint 4)] :=
    rfl
  have heth0 : SortedMap.get? t.leaves (queue "eth0").text = some ⟨queue "eth0", .uint 1, 2⟩ := by
    rw [hleaves, Notification.leafAfter, Notification.written?, hfirstUpdates]
    simp [List.find?, hdiffer, first]
  have heth1 : SortedMap.get? t.leaves (queue "eth1").text = some ⟨queue "eth1", .uint 2, 2⟩ := by
    rw [hleaves, Notification.leafAfter, Notification.written?, hfirstUpdates]
    simp [first]
  have hreachable : cache.Reachable := .perform _ _ hlistening
  have hsecond := apply_meets_reference hreachable (hcache ▸ ht) second
  obtain ⟨⟨after, deliveries⟩, happly⟩ := hsecond.1.mpr (by
    refine ⟨by simp [Notification.Complete, second, Update.of], ?_⟩
    intro update hupdate leaf hleaf
    simp only [hsecondUpdates, List.mem_cons, List.not_mem_nil, or_false] at hupdate
    obtain rfl | rfl := hupdate <;>
    · rw [heth0] at hleaf
      cases hleaf
      decide)
  obtain ⟨-, u, hu, hafter, -, removed, hnodup, hremoved, hdeliveries⟩ :=
    hsecond.2.2 after deliveries happly
  refine ⟨after, removed, u, hdeliveries ▸ happly, hnodup, ?_, ?_, hu, ?_, ?_⟩
  · exact (hremoved _).mpr ⟨by decide +kernel, _, _, heth0, rfl⟩
  · exact (hremoved _).mpr ⟨by decide +kernel, _, _, heth1, rfl⟩
  · rw [hafter, heth0, Notification.leafAfter, Notification.written?, hsecondUpdates]
    simp [second]
  · have hmatch : second.deletes? (queue "eth1") = true := by decide +kernel
    have hother : ((queue "eth0").text == (queue "eth1").text) = false := by
      rw [BEq.comm]
      exact hdiffer
    rw [hafter, heth1, Notification.leafAfter, Notification.written?, hsecondUpdates]
    simp [List.find?, hother, hmatch]

end Cache

end Telemetry
