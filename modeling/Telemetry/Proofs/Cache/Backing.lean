import Telemetry.Proofs.Cache.Apply
import Telemetry.Proofs.Transaction.Publication

/-!
The cache beside the leaves of a tree. A cached leaf is backed if it is a copy of a state leaf of
the tree with an equal value; the cache keeps up if all copies of all state leaves are cached.
Publishing a change keeps cached leaves backed. It keeps the cache up exactly if no delete that
is published matches a copy of a leaf that did not change.
-/

namespace Telemetry

open LeafMap (Lost Gained Kept)

namespace Siblings

/-- A cached leaf is a copy of a state leaf and has an equal value. -/
def Backed (s : Siblings) (m : LeafMap) (leaf : CachedLeaf) : Prop :=
  ∃ elems copy value cached, s.IsState elems ∧ copy ∈ s.copies elems ∧ m elems = some value ∧
    leaf.path = Path.ofElems copy ∧ leaf.value = LeafValue.toTyped cached ∧
    (cached == value) = true

def Cached (leaves : List (String × CachedLeaf)) (elems : List PathElem) (value : LeafValue) :
    Prop :=
  ∃ cached timestamp, SortedMap.get? leaves (Path.ofElems elems).text =
    some ⟨Path.ofElems elems, LeafValue.toTyped cached, timestamp⟩ ∧ (cached == value) = true

def KeepsUp (s : Siblings) (m : LeafMap) (leaves : List (String × CachedLeaf)) : Prop :=
  ∀ elems value, m elems = some value → s.IsState elems →
    ∀ copy ∈ s.copies elems, Cached leaves copy value

/-- No delete of a notification matches a copy of a state leaf that did not change. -/
def Spares (s : Siblings) (before after : LeafMap) (n : Notification) : Prop :=
  ∀ elems, Kept before after elems → s.IsState elems → ∀ copy ∈ s.copies elems,
    ∀ pattern ∈ n.deletes, (Path.ofElems copy).isMatch pattern = false

end Siblings

namespace CacheTarget

open Siblings (Backed Cached KeepsUp Spares)

variable {s : Siblings} {before after : LeafMap} {n changes : Notification}
  {t applied : CacheTarget}

private theorem join_basePath (hpublishes : Publishes s before after n)
    (elems : List PathElem) :
    (n.basePath.join (Path.ofElems elems)).bare = Path.ofElems elems := by
  simp only [Path.join, Path.bare, Path.ofElems, hpublishes.base, List.nil_append]

/-- What is written are the copies of the leaves that are gained. -/
private theorem mem_resolved (hpublishes : Publishes s before after n)
    {updates : List (Path × TypedValue)} (h : resolve n.basePath n.updates = .ok updates)
    {update : Path × TypedValue} : update ∈ updates ↔ ∃ elems value copy,
      Gained before after elems value ∧ copy ∈ s.copies elems ∧
        update = (Path.ofElems copy, value.toTyped) := by
  rw [mem_of_resolve_eq_ok h]
  constructor
  · rintro ⟨published, hpublished, path, hpath, hvalue, hfull⟩
    obtain ⟨elems, value, copy, hgained, hcopy, rfl⟩ := (hpublishes.updates published).mp hpublished
    cases hpath
    rw [join_basePath hpublishes] at hfull
    exact ⟨elems, value, copy, hgained, hcopy, Prod.ext hfull (Option.some.inj hvalue).symm⟩
  · rintro ⟨elems, value, copy, hgained, hcopy, rfl⟩
    exact ⟨_, (hpublishes.updates _).mpr ⟨elems, value, copy, hgained, hcopy, rfl⟩, _, rfl, rfl,
      (join_basePath hpublishes copy).symm⟩

private theorem isMatch_join (hpublishes : Publishes s before after n) (path pattern : Path) :
    path.isMatch (n.basePath.join pattern).bare = path.isMatch pattern := by
  simp only [Path.isMatch, Path.join, Path.bare, Path.ofElems, hpublishes.base, List.nil_append]

/-- A copy of a leaf that is gained is written. -/
theorem get?_apply_of_gained (hnames : s.state ≠ s.config)
    (hpublishes : Publishes s before after n) (happly : t.apply n = .ok (applied, changes))
    {elems copy : List PathElem} {value : LeafValue} (hgained : Gained before after elems value)
    (hcopy : copy ∈ s.copies elems) :
    SortedMap.get? applied.leaves (Path.ofElems copy).text =
      some ⟨Path.ofElems copy, value.toTyped, n.timestamp⟩ := by
  obtain ⟨updates, hupdates, hleaves⟩ := apply_eq_ok happly
  have hstate := hpublishes.gained_state elems value hgained
  rw [hleaves]
  have hmem : (Path.ofElems copy, value.toTyped) ∈ updates :=
    (mem_resolved hpublishes hupdates).mpr ⟨elems, value, copy, hgained, hcopy, rfl⟩
  refine get?_writeAll_of_mem hmem ?_
  intro other hother htext
  obtain ⟨elems', value', copy', hgained', hcopy', rfl⟩ :=
    (mem_resolved hpublishes hupdates).mp hother
  have hstate' := hpublishes.gained_state elems' value' hgained'
  have hsame : copy' = copy := (Path.ofElems_text_inj
    (Siblings.ne_nil_of_mem_copies hstate' hcopy')
    (Siblings.ne_nil_of_mem_copies hstate hcopy)).mp htext
  subst hsame
  have helems := Siblings.eq_of_mem_copies hnames hstate' hstate hcopy' hcopy
  subst helems
  have hvalue : value' = value := Option.some.inj (hgained'.1.symm.trans hgained.1)
  rw [hvalue]

/-- A leaf that is gained is written at its own path, whatever the containers are called. -/
theorem get?_apply_own (hpublishes : Publishes s before after n)
    (happly : t.apply n = .ok (applied, changes)) {elems : List PathElem} {value : LeafValue}
    (hgained : Gained before after elems value) :
    SortedMap.get? applied.leaves (Path.ofElems elems).text =
      some ⟨Path.ofElems elems, value.toTyped, n.timestamp⟩ := by
  obtain ⟨updates, hupdates, hleaves⟩ := apply_eq_ok happly
  have hstate := hpublishes.gained_state elems value hgained
  have hown : elems ∈ s.copies elems := Siblings.mem_copies.mpr (Or.inl rfl)
  have hmem : (Path.ofElems elems, value.toTyped) ∈ updates :=
    (mem_resolved hpublishes hupdates).mpr ⟨elems, value, elems, hgained, hown, rfl⟩
  rw [hleaves]
  refine get?_writeAll_of_mem hmem ?_
  intro other hother htext
  obtain ⟨elems', value', copy, hgained', hcopy, rfl⟩ :=
    (mem_resolved hpublishes hupdates).mp hother
  have hne := Siblings.ne_nil_of_mem_copies (hpublishes.gained_state elems' value' hgained') hcopy
  have hsame : copy = elems :=
    (Path.ofElems_text_inj hne (Siblings.ne_nil_of_mem_copies hstate hown)).mp htext
  have hleaf : copy = elems' :=
    Siblings.eq_of_isState_of_mem_copies (hsame ▸ hstate) hcopy
  have hvalue : some value' = some value := by
    rw [← hgained.1, ← hgained'.1, ← hleaf, hsame]
  rw [hsame, Option.some.inj hvalue]

/-- What is not a copy of a leaf that is gained stays unless a delete matches it. -/
theorem get?_apply_of_not_gained (hpublishes : Publishes s before after n)
    (hindexed : Indexed t.leaves) (happly : t.apply n = .ok (applied, changes))
    {copy : List PathElem} (hcopy : copy ≠ [])
    (hnot : ∀ elems value, Gained before after elems value → copy ∉ s.copies elems) :
    SortedMap.get? applied.leaves (Path.ofElems copy).text =
      (SortedMap.get? t.leaves (Path.ofElems copy).text).filter fun leaf =>
        n.deletes.all fun pattern => !leaf.path.isMatch pattern := by
  obtain ⟨updates, hupdates, hleaves⟩ := apply_eq_ok happly
  rw [hleaves, get?_writeAll_of_not_mem, SortedMap.get?_filter hindexed.sorted]
  · simp only [isMatch_join hpublishes]
  · intro update hupdate htext
    obtain ⟨elems, value, copy', hgained, hcopy', rfl⟩ :=
      (mem_resolved hpublishes hupdates).mp hupdate
    have hne := Siblings.ne_nil_of_mem_copies (hpublishes.gained_state _ _ hgained) hcopy'
    have hsame := (Path.ofElems_text_inj hne hcopy).mp htext
    exact hnot elems value hgained (hsame ▸ hcopy')

/-- A copy of a leaf that did not change is written by no other leaf. -/
private theorem not_gained_of_kept (hnames : s.state ≠ s.config)
    (hpublishes : Publishes s before after n) {elems copy : List PathElem}
    (hkept : Kept before after elems) (hstate : s.IsState elems) (hcopy : copy ∈ s.copies elems) :
    ∀ other value, Gained before after other value → copy ∉ s.copies other := by
  intro other value hgained hother
  have hsame := Siblings.eq_of_mem_copies hnames hstate (hpublishes.gained_state _ _ hgained)
    hcopy hother
  obtain ⟨old, new, hold, hnew, hequal⟩ := hkept
  subst hsame
  have hvalue : new = value := Option.some.inj (hnew.symm.trans hgained.1)
  have hdiffer := hgained.2 old hold
  rw [← hvalue, hequal] at hdiffer
  cases hdiffer

section Step

variable (hnames : s.state ≠ s.config) (hpublishes : Publishes s before after n)
  (hindexed : Indexed t.leaves) (happly : t.apply n = .ok (applied, changes))

include hpublishes hindexed happly

/-- A cached leaf stays backed: it is written again if its leaf has changed, and matches the
delete of its own path if its leaf is gone. -/
theorem backed_apply (hordered : before.WellFormed) (hfinite : after.WellFormed)
    (hbacked : ∀ text leaf, SortedMap.get? t.leaves text = some leaf → Backed s before leaf)
    {text : String} {leaf : CachedLeaf} (h : SortedMap.get? applied.leaves text = some leaf) :
    Backed s after leaf := by
  obtain ⟨updates, hupdates, hleaves⟩ := apply_eq_ok happly
  have hmem := @mem_resolved s before after n hpublishes updates hupdates
  rw [hleaves] at h
  rcases get?_writeAll_cases h with ⟨update, hupdate, -, rfl⟩ | ⟨hget, hnone⟩
  · obtain ⟨elems, value, copy, hgained, hcopy, rfl⟩ := hmem.mp hupdate
    have hself := LeafValue.beq_self_of_isFinite (hfinite elems value hgained.1).2
    exact ⟨elems, copy, value, value, hpublishes.gained_state _ _ hgained, hcopy, hgained.1, rfl,
      rfl, hself⟩
  · rw [SortedMap.get?_filter hindexed.sorted, Option.filter_eq_some_iff] at hget
    obtain ⟨hget, hspared⟩ := hget
    simp only [isMatch_join hpublishes, List.all_eq_true] at hspared
    obtain ⟨elems, copy, value, cached, hstate, hcopy, hvalue, hpath, hcached, hequal⟩ :=
      hbacked text leaf hget
    cases hafter : after elems with
    | none =>
      have hdelete : Path.ofElems copy ∈ n.deletes :=
        (hpublishes.deletes _).mpr ⟨elems, copy, ⟨⟨value, hvalue⟩, hafter⟩, hcopy, rfl⟩
      have hself : (Path.ofElems copy).isMatch (Path.ofElems copy) = true :=
        Path.matchElems_self
          (Siblings.forall_mem_of_mem_copies (fun _ h => h) (hordered _ _ hvalue).1 hcopy)
      have hnot := hspared _ hdelete
      rw [hpath, hself] at hnot
      cases hnot
    | some new =>
      rcases LeafMap.gained_or_kept before hafter with hgained | ⟨old, hold, hkept⟩
      · have hupdate := hmem.mpr ⟨elems, new, copy, hgained, hcopy, rfl⟩
        have htext := hindexed.path_text text leaf hget
        rw [hpath] at htext
        exact absurd htext (hnone _ hupdate)
      · rw [hvalue] at hold
        cases hold
        exact ⟨elems, copy, new, cached, hstate, hcopy, hafter, hpath, hcached,
          LeafValue.beq_trans hequal hkept⟩

include hnames

/-- What changed is cached anew, so the cache keeps up exactly where the rest is spared. -/
theorem keepsUp_apply_iff (hfinite : after.WellFormed) (hkeeps : KeepsUp s before t.leaves) :
    KeepsUp s after applied.leaves ↔ Spares s before after n := by
  have hstays : ∀ {elems copy}, Kept before after elems → s.IsState elems →
      copy ∈ s.copies elems → _ := fun hkept hstate hcopy =>
    get?_apply_of_not_gained hpublishes hindexed happly
      (Siblings.ne_nil_of_mem_copies hstate hcopy)
      (not_gained_of_kept hnames hpublishes hkept hstate hcopy)
  constructor
  · intro hafter elems hkept hstate copy hcopy pattern hpattern
    obtain ⟨old, value, hold, hvalue, hequal⟩ := hkept
    obtain ⟨cached, timestamp, hget, -⟩ := hafter elems value hvalue hstate copy hcopy
    rw [hstays ⟨old, value, hold, hvalue, hequal⟩ hstate hcopy, Option.filter_eq_some_iff] at hget
    have hspared := List.all_eq_true.mp hget.2 pattern hpattern
    simpa using hspared
  · intro hspares elems value hvalue hstate copy hcopy
    rcases LeafMap.gained_or_kept before hvalue with hgained | ⟨old, hold, hequal⟩
    · exact ⟨value, n.timestamp,
        get?_apply_of_gained hnames hpublishes happly hgained hcopy,
        LeafValue.beq_self_of_isFinite (hfinite elems value hvalue).2⟩
    · have hkept : Kept before after elems := ⟨old, value, hold, hvalue, hequal⟩
      obtain ⟨cached, timestamp, hget, hcached⟩ := hkeeps elems old hold hstate copy hcopy
      refine ⟨cached, timestamp, ?_, LeafValue.beq_trans hcached hequal⟩
      rw [hstays hkept hstate hcopy, hget, Option.filter_some, if_pos]
      refine List.all_eq_true.mpr ?_
      intro pattern hpattern
      simpa using hspares elems hkept hstate copy hcopy pattern hpattern

end Step

end CacheTarget

end Telemetry
