import Telemetry.Proofs.Cache.Reference
import Telemetry.Proofs.Cache.Viewing

/-!
Independent notifications commute. If neither of two notifications updates a path that the other
updates or deletes, then neither can make the other stale, so each of them is accepted or refused
in either order. A leaf that one of them writes is left alone by the other, and a leaf that none
of them writes goes if either deletes it, so the same leaves remain. Each leaf that was there
before and goes is counted once, by whichever notification comes first.
-/

namespace Telemetry

namespace Notification

/-- Neither of two notifications updates a path that the other updates or deletes. -/
structure Independent (a b : Notification) : Prop where
  apart : ∀ x ∈ a.fullUpdates, ∀ y ∈ b.fullUpdates, x.1 ≠ y.1
  spared : ∀ x ∈ a.fullUpdates, b.deletes? x.1 = false
  spares : ∀ y ∈ b.fullUpdates, a.deletes? y.1 = false

variable {a b n : Notification} {text : String} {leaf : CachedLeaf}

theorem Independent.symm (h : a.Independent b) : b.Independent a :=
  ⟨fun x hx y hy => (h.apart y hy x hx).symm, h.spares, h.spared⟩

theorem mem_fullUpdates {full : Path × TypedValue} : full ∈ n.fullUpdates ↔ ∃ update ∈ n.updates,
    ∃ path, update.path = some path ∧ update.value = some full.2 ∧
      full.1 = (n.basePath.join path).bare := by
  obtain ⟨fullPath, fullValue⟩ := full
  simp only [fullUpdates, List.mem_filterMap]
  refine exists_congr fun update => and_congr_right fun _ => ?_
  cases update.path with
  | none => simp
  | some path =>
    cases update.value with
    | none => simp
    | some value => simp [and_comm, eq_comm]

/-- What is written comes from an update. -/
theorem mem_of_written? (h : n.written? text = some leaf) :
    ∃ update ∈ n.fullUpdates, update.1.text = text ∧
      leaf = ⟨update.1, update.2, n.timestamp⟩ := by
  obtain ⟨update, hfind, rfl⟩ := Option.map_eq_some_iff.mp h
  exact ⟨update, List.mem_reverse.mp (List.mem_of_find?_eq_some hfind),
    by simpa using List.find?_some hfind, rfl⟩

theorem written?_eq_none : n.written? text = none ↔
    ∀ update ∈ n.fullUpdates, update.1.text ≠ text := by
  simp [written?]

/-- Updates are of full paths, which are named if those of the notification are. -/
theorem Named.of_mem_fullUpdates (hn : n.Named) {update : Path × TypedValue}
    (h : update ∈ n.fullUpdates) :
    update.1 = Path.ofElems update.1.elems ∧ Path.Named update.1.elems := by
  obtain ⟨sent, hsent, path, hpath, -, hfull⟩ := mem_fullUpdates.mp h
  rw [hfull]
  exact ⟨rfl, hn.1.append (hn.2 sent hsent path hpath)⟩

/-- Named paths that are updated are the same if their texts are. -/
theorem Independent.text_ne (h : a.Independent b) (ha : a.Named) (hb : b.Named)
    {x y : Path × TypedValue} (hx : x ∈ a.fullUpdates) (hy : y ∈ b.fullUpdates) :
    x.1.text ≠ y.1.text := by
  obtain ⟨hxfull, hxnamed⟩ := ha.of_mem_fullUpdates hx
  obtain ⟨hyfull, hynamed⟩ := hb.of_mem_fullUpdates hy
  intro htext
  refine h.apart x hx y hy ?_
  rw [hxfull, hyfull] at htext ⊢
  exact congrArg Path.ofElems ((Path.text_inj_of_named hxnamed hynamed).mp htext)

/-- A leaf that stands where an update writes has the path of the update. -/
theorem Named.path_of_keyed (hn : n.Named) {update : Path × TypedValue}
    (h : update ∈ n.fullUpdates) (hleaf : CacheTarget.Keyed update.1.text leaf) :
    leaf.path = update.1 := by
  obtain ⟨hfull, hnamed⟩ := hn.of_mem_fullUpdates h
  have htext := hleaf.path_text
  rw [hleaf.bare, hfull] at htext ⊢
  exact congrArg Path.ofElems ((Path.text_inj_of_named hleaf.named hnamed).mp htext)

/-- Where one of two independent notifications writes, the other does nothing. -/
theorem Independent.leafAfter_of_mem (h : a.Independent b) (ha : a.Named) (hb : b.Named)
    {x : Path × TypedValue} (hx : x ∈ a.fullUpdates) {before : Option CachedLeaf}
    (hbefore : ∀ leaf, before = some leaf → leaf.path = x.1) :
    b.leafAfter x.1.text before = before := by
  have hnone : b.written? x.1.text = none :=
    written?_eq_none.mpr fun y hy => (h.text_ne ha hb hx hy).symm
  rw [leafAfter, hnone, Option.none_or]
  cases before with
  | none => rfl
  | some leaf =>
    have hkept : b.deletes? leaf.path = false := by rw [hbefore leaf rfl, h.spared x hx]
    simp [Option.filter_some, hkept]

/-- Where one of two independent notifications writes it decides, before or after the other. -/
theorem Independent.leafAfter_comm_of_written (h : a.Independent b) (ha : a.Named) (hb : b.Named)
    {before : Option CachedLeaf}
    (hbefore : ∀ leaf, before = some leaf → CacheTarget.Keyed text leaf)
    (hwritten : a.written? text = some leaf) :
    b.leafAfter text (a.leafAfter text before) = a.leafAfter text (b.leafAfter text before) := by
  obtain ⟨x, hx, rfl, hpath⟩ := mem_of_written? hwritten
  have hwrites : a.leafAfter x.1.text before = some leaf := by
    rw [leafAfter, hwritten, Option.some_or]
  have hkept : b.leafAfter x.1.text (some leaf) = some leaf := by
    refine h.leafAfter_of_mem ha hb hx ?_
    intro other hother
    rw [← Option.some.inj hother, hpath]
  have hsame : b.leafAfter x.1.text before = before := by
    refine h.leafAfter_of_mem ha hb hx ?_
    intro old hold
    exact ha.path_of_keyed hx (hbefore old hold)
  rw [hwrites, hkept, hsame, hwrites]

/-- At every place two independent notifications come to the same in both orders. -/
theorem Independent.leafAfter_comm (h : a.Independent b) (ha : a.Named) (hb : b.Named)
    (text : String) (before : Option CachedLeaf)
    (hbefore : ∀ leaf, before = some leaf → CacheTarget.Keyed text leaf) :
    b.leafAfter text (a.leafAfter text before) = a.leafAfter text (b.leafAfter text before) := by
  cases hfirst : a.written? text with
  | some leaf => exact h.leafAfter_comm_of_written ha hb hbefore hfirst
  | none =>
    cases hsecond : b.written? text with
    | some leaf => exact (h.symm.leafAfter_comm_of_written hb ha hbefore hsecond).symm
    | none =>
      -- Neither writes, and the leaf goes if either deletes it.
      simp only [leafAfter, hfirst, hsecond, Option.none_or, Option.filter_filter, Bool.and_comm]

end Notification

namespace CacheTarget

theorem AllKeyed.indexed {leaves : List (String × CachedLeaf)} (h : AllKeyed leaves) :
    Indexed leaves :=
  ⟨h.sorted, fun text leaf hget => (h.keyed text leaf hget).path_text,
    fun text leaf hget => (h.keyed text leaf hget).bare⟩

def verdict (t : CacheTarget) (n : Notification) : Except CacheError Unit :=
  (t.apply n).map fun _ => ()

def settle (t : CacheTarget) (n : Notification) : CacheTarget :=
  match t.apply n with
  | .ok (after, _) => after
  | .error _ => t

section Verdict

variable {t u : CacheTarget} {a b n : Notification}

/-- Staleness depends on the leaves that are updated only. -/
theorem requireFresh_congr {timestamp : Int64} {updates : List (Path × TypedValue)}
    (h : ∀ update ∈ updates,
      SortedMap.get? u.leaves update.1.text = SortedMap.get? t.leaves update.1.text) :
    u.requireFresh timestamp updates = t.requireFresh timestamp updates := by
  induction updates with
  | nil => rfl
  | cons update rest ih =>
    rw [requireFresh, requireFresh, h update List.mem_cons_self,
      ih fun other hother => h other (List.mem_cons_of_mem update hother)]

theorem verdict_eq (t : CacheTarget) (n : Notification) :
    t.verdict n = resolve n.basePath n.updates >>= t.requireFresh n.timestamp := by
  rw [verdict, apply_eq]
  cases resolve n.basePath n.updates with
  | error e => rfl
  | ok updates =>
    change Except.map _ (t.requireFresh n.timestamp updates >>= _) = t.requireFresh _ _
    cases t.requireFresh n.timestamp updates <;> rfl

theorem verdict_eq_ok :
    t.verdict n = .ok () ↔ ∃ after changes, t.apply n = .ok (after, changes) := by
  unfold verdict
  cases t.apply n with
  | error e => simp [Except.map]
  | ok out => exact ⟨fun _ => ⟨out.1, out.2, rfl⟩, fun _ => rfl⟩

theorem settle_of_ok {after : CacheTarget} {changes : Notification}
    (h : t.apply n = .ok (after, changes)) : t.settle n = after := by
  rw [settle, h]

theorem settle_of_not_ok (h : t.verdict n ≠ .ok ()) : t.settle n = t := by
  unfold settle
  cases happly : t.apply n with
  | error e => rfl
  | ok out => exact absurd (verdict_eq_ok.mpr ⟨_, _, happly⟩) h

theorem name_settle (t : CacheTarget) (n : Notification) : (t.settle n).name = t.name := by
  unfold settle
  cases happly : t.apply n with
  | error e => rfl
  | ok out => exact name_of_apply happly

/-- An independent notification changes nothing where another one writes. -/
theorem get?_settle_of_mem (hkeyed : AllKeyed t.leaves) (h : a.Independent b) (ha : a.Named)
    (hb : b.Named) {x : Path × TypedValue} (hx : x ∈ a.fullUpdates) :
    SortedMap.get? (t.settle b).leaves x.1.text = SortedMap.get? t.leaves x.1.text := by
  by_cases haccepted : t.verdict b = .ok ()
  · obtain ⟨after, changes, happly⟩ := verdict_eq_ok.mp haccepted
    rw [settle_of_ok happly, get?_leaves_apply hkeyed.indexed happly]
    refine h.leafAfter_of_mem ha hb hx ?_
    intro leaf hleaf
    exact ha.path_of_keyed hx (hkeyed.keyed _ leaf hleaf)
  · rw [settle_of_not_ok haccepted]

/-- An independent notification does not change whether another one is accepted. -/
theorem verdict_settle (hkeyed : AllKeyed t.leaves) (h : a.Independent b) (ha : a.Named)
    (hb : b.Named) : (t.settle b).verdict a = t.verdict a := by
  rw [verdict_eq, verdict_eq]
  cases hresolve : resolve a.basePath a.updates with
  | error e => rfl
  | ok updates =>
    obtain ⟨-, rfl⟩ := resolve_eq_ok_iff.mp hresolve
    exact requireFresh_congr fun x hx => get?_settle_of_mem hkeyed h ha hb hx

end Verdict

section Count

variable {t after : CacheTarget} {a b n changes : Notification}

theorem length_removed (leaves : List (String × CachedLeaf)) (patterns : List Path) :
    (removeMatches leaves patterns).1.length =
      leaves.countP fun entry => patterns.any entry.2.path.isMatch := by
  have hlength := length_removeMatches leaves patterns
  have hsplit := @List.length_eq_countP_add_countP _
    (fun entry : String × CachedLeaf => patterns.any entry.2.path.isMatch) leaves
  simp only [removeMatches_kept, ← List.not_any_eq_all_not, ← List.countP_eq_length_filter]
    at hlength
  simp only [Bool.not_eq_true, Bool.decide_eq_false] at hsplit
  omega

/-- Each leaf that is deleted is counted once. -/
theorem deleteCount_apply (h : t.apply n = .ok (after, changes)) :
    after.deleteCount = t.deleteCount + t.leaves.countP fun entry => n.deletes? entry.2.path := by
  obtain ⟨updates, -, -, rfl, -⟩ := apply_eq_ok_iff.mp h
  have hremoved := length_removed t.leaves (patternsOf n)
  simp only [Notification.deletes?_eq, ← hremoved]
  unfold commit
  split
  · rfl
  · rename_i hcounts
    simp only [Bool.or_eq_true, not_or, Bool.not_eq_true, Bool.not_eq_false', List.isEmpty_iff]
      at hcounts
    rw [hcounts.2]
    rfl

/-- Of the leaves that one notification deletes, those are left after an independent one that this
does not delete. -/
theorem filter_apply_of_independent (hkeyed : AllKeyed t.leaves) (h : a.Independent b)
    (ha : a.Named) (happly : t.apply a = .ok (after, changes)) :
    after.leaves.filter (fun entry => b.deletes? entry.2.path) =
      t.leaves.filter fun entry => !a.deletes? entry.2.path && b.deletes? entry.2.path := by
  have hsorted := (indexed_apply hkeyed.indexed happly).sorted
  refine SortedMap.ext_get? (hsorted.filter _) (hkeyed.sorted.filter _) fun text => ?_
  rw [SortedMap.get?_filter hsorted, SortedMap.get?_filter hkeyed.sorted,
    get?_leaves_apply hkeyed.indexed happly, Notification.leafAfter]
  cases hwritten : a.written? text with
  | none =>
    simp only [Option.none_or, Option.filter_filter]
  | some leaf =>
    -- What is written is not deleted, and neither was the leaf in its place.
    obtain ⟨x, hx, rfl, rfl⟩ := Notification.mem_of_written? hwritten
    have hspared := h.spared x hx
    cases hget : SortedMap.get? t.leaves x.1.text with
    | none => simp [Option.filter_some, hspared]
    | some old =>
      have hpath := ha.path_of_keyed hx (hkeyed.keyed _ old hget)
      simp [Option.filter_some, hspared, hpath]

/-- What either of two conditions holds of may be counted beginning with either. -/
theorem countP_add_countP_comm {α : Type} (p q : α → Bool) (items : List α) :
    items.countP p + items.countP (fun x => !p x && q x) =
      items.countP q + items.countP fun x => !q x && p x := by
  induction items with
  | nil => rfl
  | cons x items ih =>
    simp only [List.countP_cons]
    cases p x <;> cases q x <;> simp <;> omega

end Count

section Settle

variable {t s u s' u' : CacheTarget} {a b changes : Notification}

theorem AllKeyed.settle (h : AllKeyed t.leaves) (ha : a.Named) : AllKeyed (t.settle a).leaves := by
  by_cases haccepted : t.verdict a = .ok ()
  · obtain ⟨after, changes, happly⟩ := verdict_eq_ok.mp haccepted
    rw [settle_of_ok happly]
    exact (shows_apply h ha happly).allKeyed
  · rw [settle_of_not_ok haccepted]
    exact h

/-- Two independent notifications that are both accepted leave the same leaves in both orders. -/
theorem leaves_comm (hkeyed : AllKeyed t.leaves) (h : a.Independent b) (ha : a.Named)
    (hb : b.Named) {c₁ c₂ c₃ c₄ : Notification} (hs : t.apply a = .ok (s, c₁))
    (hu : s.apply b = .ok (u, c₂)) (hs' : t.apply b = .ok (s', c₃))
    (hu' : s'.apply a = .ok (u', c₄)) : u.leaves = u'.leaves := by
  have hkeyedS := (shows_apply hkeyed ha hs).allKeyed
  have hkeyedS' := (shows_apply hkeyed hb hs').allKeyed
  refine SortedMap.ext_get? (indexed_apply hkeyedS.indexed hu).sorted
    (indexed_apply hkeyedS'.indexed hu').sorted fun text => ?_
  rw [get?_leaves_apply hkeyedS.indexed hu, get?_leaves_apply hkeyed.indexed hs,
    get?_leaves_apply hkeyedS'.indexed hu', get?_leaves_apply hkeyed.indexed hs']
  exact h.leafAfter_comm ha hb text _ (hkeyed.keyed text)

/-- After both orders the same number of leaves have been deleted. -/
theorem deleteCount_comm (hkeyed : AllKeyed t.leaves) (h : a.Independent b) (ha : a.Named)
    (hb : b.Named) {c₁ c₂ c₃ c₄ : Notification} (hs : t.apply a = .ok (s, c₁))
    (hu : s.apply b = .ok (u, c₂)) (hs' : t.apply b = .ok (s', c₃))
    (hu' : s'.apply a = .ok (u', c₄)) : u.deleteCount = u'.deleteCount := by
  have hleft := congrArg List.length (filter_apply_of_independent hkeyed h ha hs)
  have hright := congrArg List.length (filter_apply_of_independent hkeyed h.symm hb hs')
  simp only [← List.countP_eq_length_filter] at hleft hright
  rw [deleteCount_apply hu, deleteCount_apply hs, deleteCount_apply hu', deleteCount_apply hs',
    hleft, hright, Nat.add_assoc, Nat.add_assoc]
  exact congrArg _ (countP_add_countP_comm _ _ t.leaves)

/-- A refused notification may come before or after another one. -/
theorem settle_comm_of_refused (hkeyed : AllKeyed t.leaves) (h : a.Independent b) (ha : a.Named)
    (hb : b.Named) (hrefused : t.verdict a ≠ .ok ()) :
    (t.settle a).settle b = (t.settle b).settle a := by
  have hlater : (t.settle b).verdict a ≠ .ok () := by
    rw [verdict_settle hkeyed h ha hb]
    exact hrefused
  rw [settle_of_not_ok hrefused, settle_of_not_ok hlater]

/-- Independent notifications come to the same leaves and the same count in both orders. -/
theorem settle_comm (hkeyed : AllKeyed t.leaves) (h : a.Independent b) (ha : a.Named)
    (hb : b.Named) : ((t.settle a).settle b).leaves = ((t.settle b).settle a).leaves ∧
      ((t.settle a).settle b).deleteCount = ((t.settle b).settle a).deleteCount := by
  by_cases hfirst : t.verdict a = .ok ()
  · by_cases hsecond : t.verdict b = .ok ()
    · obtain ⟨s, c₁, hs⟩ := verdict_eq_ok.mp hfirst
      obtain ⟨s', c₃, hs'⟩ := verdict_eq_ok.mp hsecond
      have hlater := verdict_settle hkeyed h.symm hb ha
      have hlater' := verdict_settle hkeyed h ha hb
      rw [settle_of_ok hs, hsecond] at hlater
      rw [settle_of_ok hs', hfirst] at hlater'
      obtain ⟨u, c₂, hu⟩ := verdict_eq_ok.mp hlater
      obtain ⟨u', c₄, hu'⟩ := verdict_eq_ok.mp hlater'
      rw [settle_of_ok hs, settle_of_ok hu, settle_of_ok hs', settle_of_ok hu']
      exact ⟨leaves_comm hkeyed h ha hb hs hu hs' hu',
        deleteCount_comm hkeyed h ha hb hs hu hs' hu'⟩
    · rw [settle_comm_of_refused hkeyed h.symm hb ha hsecond]
      exact ⟨rfl, rfl⟩
  · rw [settle_comm_of_refused hkeyed h ha hb hfirst]
    exact ⟨rfl, rfl⟩

end Settle

end CacheTarget

namespace CacheEvent

def Named : CacheEvent → Prop
  | apply n => n.Named
  | _ => True

theorem Named.notification {t : CacheTarget} {event : CacheEvent} {n : Notification}
    (h : event.Named) (hn : event.notification? t = some n) : n.Named := by
  refine forall_notification? ?_ t.named_statistics t.named_sizeUpdates hn
  rintro m rfl
  exact h

end CacheEvent

namespace Cache

/-- The states of a cache that only notifications of named elements are applied to. -/
inductive ReachableByNamed : Cache → Prop
  | ofNames (names : List String) : ReachableByNamed (ofNames names)
  | listen {cache : Cache} (listener : String) : ReachableByNamed cache →
      ReachableByNamed (cache.listen listener)
  | perform {cache : Cache} (name : String) (event : CacheEvent) (hevent : event.Named) :
      ReachableByNamed cache → ReachableByNamed (cache.perform name event).1

section Commute

variable {cache : Cache} {name : String} {t : CacheTarget} {a b n : Notification}

theorem ReachableByNamed.reachable (h : cache.ReachableByNamed) : cache.Reachable := by
  induction h with
  | ofNames names => exact .ofNames names
  | listen listener _ ih => exact .listen listener ih
  | perform name event _ _ ih => exact .perform name event ih

/-- All leaves have paths of named elements and are kept under their texts. -/
theorem ReachableByNamed.allKeyed (h : cache.ReachableByNamed) :
    ∀ name t, cache.target name = .ok t → CacheTarget.AllKeyed t.leaves := by
  induction h with
  | ofNames names =>
    intro name t ht
    rw [target_ofNames ht]
    exact CacheTarget.allKeyed_nil
  | listen listener _ ih => exact ih
  | @perform cache called event hevent _ ih =>
    have hreplaced : ∀ {u : CacheTarget}, CacheTarget.AllKeyed u.leaves → ∀ name t,
        (cache.update u).target name = .ok t → CacheTarget.AllKeyed t.leaves := by
      intro u hu name t ht
      rw [target_update] at ht
      split at ht
      · cases ht
        exact hu
      · exact ih name t ht
    cases ht : cache.target called with
    | error e =>
      rw [perform_of_unknown ht]
      exact ih
    | ok t =>
      have hkeyed := ih called t ht
      rcases perform_cases ht event with ⟨n, u, changes, hn, hu, hperform⟩ |
        ⟨u, hflag, hperform⟩ | hperform
      · rw [hperform]
        exact hreplaced (CacheTarget.shows_apply hkeyed (hevent.notification hn) hu).allKeyed
      · rw [hperform]
        rcases hflag with rfl | rfl <;> exact hreplaced hkeyed
      · rw [hperform]
        exact ih

/-- Whether the cache accepts a notification is up to the target. -/
theorem map_apply (htarget : cache.target name = .ok t) (n : Notification) :
    (cache.apply name n).map (fun _ => ()) = t.verdict n := by
  unfold apply CacheTarget.verdict
  rw [htarget]
  change Except.map _ (t.apply n >>= _) = _
  cases t.apply n <;> rfl

theorem target_perform_apply (hname : t.name = name) (htarget : cache.target name = .ok t)
    (n : Notification) : (cache.perform name (.apply n)).1.target name = .ok (t.settle n) := by
  unfold CacheTarget.settle
  cases happly : t.apply n with
  | error e =>
    have hrefused : cache.apply name n = .error e := by
      rw [apply, htarget]
      exact bind_eq_error.mpr (.inr ⟨t, rfl, by rw [happly]; rfl⟩)
    rw [perform_apply_of_error hrefused]
    exact htarget
  | ok out =>
    have haccepted := apply_eq_ok_iff.mpr ⟨t, out.1, out.2, htarget, happly, rfl, rfl⟩
    rw [perform_apply_of_ok haccepted, target_update,
      if_pos (hname.symm.trans (CacheTarget.name_of_apply happly).symm)]

/-- If neither of two notifications updates a path that the other updates or deletes, then in
either order each of them is accepted, or refused for the same reason, and in the end the same
leaves are cached and the same number of them have been deleted. -/
theorem independent_notifications_commute (hreachable : cache.ReachableByNamed)
    (htarget : cache.target name = .ok t) (ha : a.Named) (hb : b.Named)
    (hindependent : a.Independent b) :
    let afterA := (cache.perform name (.apply a)).1
    let afterB := (cache.perform name (.apply b)).1
    (afterB.apply name a).map (fun _ => ()) = (cache.apply name a).map (fun _ => ()) ∧
      (afterA.apply name b).map (fun _ => ()) = (cache.apply name b).map (fun _ => ()) ∧
      ∃ u v, (afterA.perform name (.apply b)).1.target name = .ok u ∧
        (afterB.perform name (.apply a)).1.target name = .ok v ∧
        u.leaves = v.leaves ∧ u.deleteCount = v.deleteCount := by
  intro afterA afterB
  have hkeyed := hreachable.allKeyed name t htarget
  have hname := hreachable.reachable.consistent.name name t htarget
  have hA : afterA.target name = .ok (t.settle a) := target_perform_apply hname htarget a
  have hB : afterB.target name = .ok (t.settle b) := target_perform_apply hname htarget b
  have hAB := target_perform_apply ((t.name_settle a).trans hname) hA b
  have hBA := target_perform_apply ((t.name_settle b).trans hname) hB a
  rw [map_apply hA, map_apply hB, map_apply htarget, map_apply htarget]
  exact ⟨CacheTarget.verdict_settle hkeyed hindependent ha hb,
    CacheTarget.verdict_settle hkeyed hindependent.symm hb ha,
    _, _, hAB, hBA, CacheTarget.settle_comm hkeyed hindependent ha hb⟩

/-- One notification writes a queue twice and deletes those of one interface, the other is older and
deletes those of one name. Both delete the same leaf, which counts once. -/
theorem independent_notifications_commute_queues :
    let queue : String → String → Path := fun interface name => .ofElems
      [⟨"interface", [("name", interface)]⟩, ⟨"queue", [("name", name)]⟩]
    let before : Notification := ⟨1, none, [.of (queue "eth0" "rx") (.uint 1),
      .of (queue "eth0" "tx") (.uint 2), .of (queue "eth1" "tx") (.uint 3)], [], false⟩
    let a : Notification := ⟨3, none, [.of (queue "eth2" "rx") (.uint 4),
      .of (queue "eth2" "rx") (.uint 5)], [queue "eth0" "*"], false⟩
    let b : Notification := ⟨2, none, [.of (queue "eth1" "rx") (.uint 6)], [queue "*" "tx"], false⟩
    let cache := ((ofNames ["router"]).perform "router" (.apply before)).1
    ∃ u v, ((cache.perform "router" (.apply a)).1.perform "router" (.apply b)).1.target "router" =
        .ok u ∧
      ((cache.perform "router" (.apply b)).1.perform "router" (.apply a)).1.target "router" =
        .ok v ∧
      u.leaves = v.leaves ∧ u.deleteCount = v.deleteCount ∧ u.deleteCount = 3 ∧
      SortedMap.keys u.leaves = [(queue "eth1" "rx").text, (queue "eth2" "rx").text] := by
  intro queue before a b cache
  have hnamed : ∀ timestamp updates deletes,
      (∀ update ∈ updates, ∃ interface name value, update = .of (queue interface name) value) →
      Notification.Named ⟨timestamp, none, updates, deletes, false⟩ := by
    intro timestamp updates deletes hupdates
    refine ⟨by rintro _ ⟨⟩, ?_⟩
    intro update hupdate path hpath elem helem
    obtain ⟨interface, name, value, rfl⟩ := hupdates update hupdate
    cases hpath
    simp only [queue, Path.ofElems, List.mem_cons, List.not_mem_nil, or_false] at helem
    rcases helem with rfl | rfl
    · exact ne_of_beq_false rfl
    · exact ne_of_beq_false rfl
  have hbefore : before.Named := hnamed _ _ _ (by simp [Update.of])
  have ha : a.Named := hnamed _ _ _ (by simp [Update.of])
  have hb : b.Named := hnamed _ _ _ (by simp [Update.of])
  have hindependent : a.Independent b := ⟨by decide +kernel, by decide +kernel, by decide +kernel⟩
  have hreachable : cache.ReachableByNamed := .perform _ _ hbefore (.ofNames _)
  have htarget : cache.target "router" = .ok ((CacheTarget.fresh "router").settle before) :=
    @target_perform_apply (ofNames ["router"]) _ (.fresh "router") rfl rfl before
  obtain ⟨-, -, u, v, hu, hv, hleaves, hcount⟩ :=
    independent_notifications_commute hreachable htarget ha hb hindependent
  have hend : (((cache.perform "router" (.apply a)).1.perform "router" (.apply b)).1.target
      "router").toOption.map (fun t => (t.deleteCount, SortedMap.keys t.leaves)) =
        some (3, [(queue "eth1" "rx").text, (queue "eth2" "rx").text]) := by
    decide +kernel
  rw [hu] at hend
  obtain ⟨hdeleted, hkeys⟩ := Prod.mk.inj (Option.some.inj hend)
  exact ⟨u, v, hu, hv, hleaves, hcount, hdeleted, hkeys⟩

end Commute

end Cache

end Telemetry
