import Telemetry.Cache.Meta
import Telemetry.Proofs.Cache.View

/-!
The view of a cache, what a notification does to it, and what a subscriber is sent of it in the
beginning. Paths are told apart by their texts, which takes named elements: the text of the empty
path is that of one element without a name.
-/

namespace Telemetry

def Notification.Named (n : Notification) : Prop :=
  Path.Named n.basePath.elems ∧
    ∀ update ∈ n.updates, ∀ path, update.path = some path → Path.Named path.elems

theorem Path.Named.append {elems rest : List PathElem} (helems : Path.Named elems)
    (hrest : Path.Named rest) : Path.Named (elems ++ rest) := by
  intro elem hmem
  rcases List.mem_append.mp hmem with hmem | hmem
  · exact helems elem hmem
  · exact hrest elem hmem

namespace CacheTarget

/-- What is written of named leaves in the cache's own container is named. -/
theorem named_of_metaUpdates {now : Int64} {updates : List Update}
    (h : ∀ update ∈ updates, ∃ name value, name ≠ "" ∧ update = metaUpdate name value) :
    Notification.Named ⟨now, none, updates, [], false⟩ := by
  refine ⟨?_, ?_⟩
  · intro elem helem
    cases helem
  · intro update hupdate path hpath elem helem
    obtain ⟨name, value, hname, rfl⟩ := h update hupdate
    cases hpath
    simp only [Path.ofElems, List.mem_cons, List.not_mem_nil, or_false] at helem
    rcases helem with rfl | rfl
    · decide
    · exact hname

theorem named_statistics (t : CacheTarget) (now : Int64) :
    Notification.Named ⟨now, none, t.statistics, [], false⟩ := by
  refine named_of_metaUpdates ?_
  intro update hupdate
  simp only [statistics, List.mem_cons, List.not_mem_nil, or_false] at hupdate
  rcases hupdate with rfl | rfl | rfl | rfl | rfl | rfl <;> exact ⟨_, _, by decide, rfl⟩

theorem named_sizeUpdates (t : CacheTarget) (now : Int64) :
    Notification.Named ⟨now, none, t.sizeUpdates, [], false⟩ := by
  refine named_of_metaUpdates ?_
  intro update hupdate
  rw [sizeUpdates, List.mem_singleton] at hupdate
  exact ⟨_, _, by decide, hupdate⟩

/-- A leaf has a full path of named elements and is kept under its text. -/
structure Keyed (text : String) (leaf : CachedLeaf) : Prop where
  path_text : leaf.path.text = text
  bare : leaf.path = Path.ofElems leaf.path.elems
  named : Path.Named leaf.path.elems

structure AllKeyed (leaves : List (String × CachedLeaf)) : Prop where
  sorted : SortedMap.Sorted leaves
  keyed : ∀ text leaf, SortedMap.get? leaves text = some leaf → Keyed text leaf

theorem allKeyed_nil : AllKeyed [] := by
  refine ⟨SortedMap.sorted_nil, ?_⟩
  intro text leaf h
  cases h

def viewOf (leaves : List (String × CachedLeaf)) : View := fun elems =>
  (SortedMap.get? leaves (Path.ofElems elems).text).bind fun leaf =>
    if leaf.path.elems = elems then some (leaf.value, leaf.timestamp) else none

theorem viewOf_eq_some_iff {leaves : List (String × CachedLeaf)} (h : AllKeyed leaves)
    {elems : List PathElem} {value : TypedValue} {timestamp : Int64} :
    viewOf leaves elems = some (value, timestamp) ↔
      SortedMap.get? leaves (Path.ofElems elems).text =
        some ⟨Path.ofElems elems, value, timestamp⟩ := by
  constructor
  · intro hview
    obtain ⟨leaf, hget, hleaf⟩ := Option.bind_eq_some_iff.mp hview
    by_cases helems : leaf.path.elems = elems
    · rw [if_pos helems] at hleaf
      obtain ⟨hvalue, htime⟩ := Prod.mk.inj (Option.some.inj hleaf)
      have hpath : leaf.path = Path.ofElems elems := by
        rw [(h.keyed _ leaf hget).bare, helems]
      rw [hget, ← hvalue, ← htime, ← hpath]
    · rw [if_neg helems] at hleaf
      cases hleaf
  · intro hget
    rw [viewOf, hget]
    exact if_pos rfl

theorem viewOf_eq_none_of_not_named {leaves : List (String × CachedLeaf)} (h : AllKeyed leaves)
    {elems : List PathElem} (hnot : ¬ Path.Named elems) : viewOf leaves elems = none := by
  refine Option.eq_none_iff_forall_ne_some.mpr ?_
  intro found hfound
  have hget := (viewOf_eq_some_iff h).mp hfound
  exact hnot (h.keyed _ _ hget).named

section Write

variable {leaves : List (String × CachedLeaf)} {timestamp : Int64}

theorem allKeyed_insert (h : AllKeyed leaves) {elems : List PathElem} (hnamed : Path.Named elems)
    (value : TypedValue) : AllKeyed (SortedMap.insert leaves (Path.ofElems elems).text
      ⟨Path.ofElems elems, value, timestamp⟩) := by
  refine ⟨h.sorted.insert _ _, ?_⟩
  intro text leaf hget
  rw [SortedMap.get?_insert] at hget
  by_cases htext : text = (Path.ofElems elems).text
  · rw [if_pos htext] at hget
    rw [← Option.some.inj hget]
    exact ⟨htext.symm, rfl, hnamed⟩
  · rw [if_neg htext] at hget
    exact h.keyed text leaf hget

/-- A leaf that is written shows at its path and nowhere else. -/
theorem viewOf_insert (h : AllKeyed leaves) {elems : List PathElem} (hnamed : Path.Named elems)
    (value : TypedValue) :
    viewOf (SortedMap.insert leaves (Path.ofElems elems).text
      ⟨Path.ofElems elems, value, timestamp⟩) =
      View.store Path.root timestamp (viewOf leaves) (Update.of (Path.ofElems elems) value) := by
  funext other
  change _ = if other = elems then some (value, timestamp) else viewOf leaves other
  by_cases hother : other = elems
  · rw [if_pos hother, hother, viewOf, SortedMap.get?_insert_self]
    exact if_pos rfl
  · rw [if_neg hother]
    by_cases htext : (Path.ofElems other).text = (Path.ofElems elems).text
    · -- Only a path with a nameless element can have the same text, and none is cached there.
      have hnot : ¬ Path.Named other :=
        fun hsame => hother ((Path.text_inj_of_named hsame hnamed).mp htext)
      have hinsert := @allKeyed_insert leaves timestamp h elems hnamed value
      rw [viewOf_eq_none_of_not_named hinsert hnot, viewOf_eq_none_of_not_named h hnot]
    · simp only [viewOf, SortedMap.get?_insert_of_ne _ _ htext]

theorem viewOf_writeAll (h : AllKeyed leaves) {updates : List (Path × TypedValue)}
    (hupdates : ∀ update ∈ updates, update.1 = Path.ofElems update.1.elems ∧
      Path.Named update.1.elems) :
    AllKeyed (writeAll timestamp leaves updates) ∧
      viewOf (writeAll timestamp leaves updates) =
        (updates.map fun (path, value) => Update.of path value).foldl
          (View.store Path.root timestamp) (viewOf leaves) := by
  induction updates generalizing leaves with
  | nil => exact ⟨h, rfl⟩
  | cons update rest ih =>
    obtain ⟨hfull, hnamed⟩ := hupdates update List.mem_cons_self
    have hinsert := @allKeyed_insert leaves timestamp h _ hnamed update.2
    have hview := @viewOf_insert leaves timestamp h _ hnamed update.2
    rw [← hfull] at hinsert hview
    obtain ⟨hkeyed, hrest⟩ := ih hinsert fun other hother =>
      hupdates other (List.mem_cons_of_mem _ hother)
    refine ⟨hkeyed, ?_⟩
    rw [writeAll_cons, hrest, hview]
    rfl

end Write

section Remove

variable {leaves : List (String × CachedLeaf)}

theorem allKeyed_filter (h : AllKeyed leaves) (keep : String × CachedLeaf → Bool) :
    AllKeyed (leaves.filter keep) := by
  refine ⟨h.sorted.filter _, ?_⟩
  intro text leaf hget
  rw [SortedMap.get?_filter h.sorted, Option.filter_eq_some_iff] at hget
  exact h.keyed text leaf hget.1

/-- The leaves that are kept are what a subscriber keeps who drops the removed paths. -/
theorem viewOf_removeMatches (h : AllKeyed leaves) (patterns : List Path) :
    viewOf (removeMatches leaves patterns).2 =
      (viewOf leaves).drop (removeMatches leaves patterns).1 := by
  have hkept := allKeyed_filter h fun entry => patterns.all fun pattern =>
    !entry.2.path.isMatch pattern
  rw [← removeMatches_kept] at hkept
  have hremoved : ∀ elems leaf, SortedMap.get? leaves (Path.ofElems elems).text = some leaf →
      leaf.path = Path.ofElems elems →
      (elems ∈ (removeMatches leaves patterns).1.map Path.elems ↔
        patterns.any (Path.ofElems elems).isMatch = true) := by
    intro elems leaf hget hpath
    rw [List.mem_map]
    constructor
    · rintro ⟨path, hmem, rfl⟩
      obtain ⟨entry, -, rfl, hany⟩ := mem_removeMatches.mp hmem
      exact hany
    · intro hany
      have hmem := SortedMap.mem_of_get?_eq_some hget
      rw [← hpath] at hany
      exact ⟨leaf.path, mem_removeMatches.mpr ⟨_, hmem, rfl, hany⟩, congrArg Path.elems hpath⟩
  funext elems
  refine Option.ext ?_
  rintro ⟨value, timestamp⟩
  rw [viewOf_eq_some_iff hkept, removeMatches_kept, SortedMap.get?_filter h.sorted,
    Option.filter_eq_some_iff, View.drop]
  constructor
  · rintro ⟨hget, hspared⟩
    have hnot : elems ∉ (removeMatches leaves patterns).1.map Path.elems := by
      rw [hremoved elems _ hget rfl, List.any_eq_true]
      rintro ⟨pattern, hpattern, hmatch⟩
      have hunmatched := List.all_eq_true.mp hspared pattern hpattern
      simp [hmatch] at hunmatched
    rw [if_neg hnot]
    exact (viewOf_eq_some_iff h).mpr hget
  · intro hview
    by_cases hmem : elems ∈ (removeMatches leaves patterns).1.map Path.elems
    · rw [if_pos hmem] at hview
      cases hview
    · rw [if_neg hmem] at hview
      have hget := (viewOf_eq_some_iff h).mp hview
      rw [hremoved elems _ hget rfl] at hmem
      refine ⟨hget, ?_⟩
      rw [← List.not_any_eq_all_not]
      simpa using hmem

end Remove

def view (t : CacheTarget) : View := viewOf t.leaves

/-- A target changes as a view does that takes what is published. -/
structure Shows (before after : CacheTarget) (published : List Notification) : Prop where
  allKeyed : AllKeyed after.leaves
  view : after.view = before.view.takes published
  /-- Paths are published in full. -/
  base : ∀ n ∈ published, n.basePath.elems = []

namespace Shows

variable {before middle after : CacheTarget} {first second published : List Notification}

theorem of_leaves_eq (h : AllKeyed before.leaves) (hleaves : after.leaves = before.leaves) :
    Shows before after [] := by
  refine ⟨hleaves ▸ h, ?_, ?_⟩
  · unfold CacheTarget.view
    rw [hleaves]
    rfl
  · intro n hn
    cases hn

theorem append (hfirst : Shows before middle first) (hsecond : Shows middle after second) :
    Shows before after (first ++ second) := by
  refine ⟨hsecond.allKeyed, ?_, ?_⟩
  · rw [hsecond.view, hfirst.view, View.takes_append]
  · intro n hn
    rcases List.mem_append.mp hn with hn | hn
    · exact hfirst.base n hn
    · exact hsecond.base n hn

/-- Nothing is lost if empty notifications are not published. -/
theorem filter_isEmpty (h : Shows before after published) :
    Shows before after (published.filter fun n => !n.isEmpty) := by
  refine ⟨h.allKeyed, ?_, ?_⟩
  · rw [View.takes_filter_isEmpty]
    exact h.view
  · intro n hn
    exact h.base n (List.mem_filter.mp hn).1

end Shows

/-- What is published about a notification that is applied makes the same change. -/
theorem shows_apply {t after : CacheTarget} {n changes : Notification} (h : AllKeyed t.leaves)
    (hn : n.Named) (happly : t.apply n = .ok (after, changes)) : Shows t after [changes] := by
  obtain ⟨updates, hupdates, -, rfl, rfl⟩ := apply_eq_ok_iff.mp happly
  have hnamed : ∀ update ∈ updates, update.1 = Path.ofElems update.1.elems ∧
      Path.Named update.1.elems := by
    intro update hupdate
    obtain ⟨sent, hsent, path, hpath, -, hfull⟩ := (mem_of_resolve_eq_ok hupdates).mp hupdate
    rw [hfull]
    exact ⟨rfl, hn.1.append (hn.2 sent hsent path hpath)⟩
  have hkept := allKeyed_filter h fun entry => (patternsOf n).all fun pattern =>
    !entry.2.path.isMatch pattern
  rw [← removeMatches_kept] at hkept
  obtain ⟨hkeyed, hview⟩ := @viewOf_writeAll _ n.timestamp hkept updates hnamed
  refine ⟨?_, ?_, ?_⟩
  · rw [leaves_commit]
    exact hkeyed
  · have hdrop := viewOf_removeMatches h (patternsOf n)
    have hjoin := @View.drop_map_join t.base rfl (viewOf t.leaves)
      (removeMatches t.leaves (patternsOf n)).1
    rw [view, leaves_commit, hview, hdrop, ← hjoin]
    rfl
  · intro other hother
    rw [List.mem_singleton.mp hother]
    rfl

/-- Ingestion publishes what it changes, one notification after the other. -/
theorem shows_ingest {t : CacheTarget} (h : AllKeyed t.leaves) {responses : List Response}
    (hresponses : ∀ n, .update n ∈ responses → n.Named) :
    Shows t (t.ingest responses).2.target (t.ingest responses).2.changes := by
  induction responses generalizing t with
  | nil => exact Shows.of_leaves_eq h rfl
  | cons response rest ih =>
    have hrest : ∀ n, .update n ∈ rest → n.Named :=
      fun n hn => hresponses n (List.mem_cons_of_mem _ hn)
    have htail : ∀ {next : CacheTarget} {changes : List Notification}, Shows t next changes →
        Shows t (next.ingest rest).2.target (changes ++ (next.ingest rest).2.changes) := by
      intro next changes hnext
      exact hnext.append (ih hnext.allKeyed hrest)
    cases response with
    | update n =>
      cases happly : t.apply n with
      | error e =>
        simp only [ingest, SourceMessage.ofResponse, take, happly]
        exact Shows.of_leaves_eq h rfl
      | ok applied =>
        simp only [ingest, SourceMessage.ofResponse, take, happly]
        exact htail (shows_apply h (hresponses n List.mem_cons_self) happly)
    | sync complete => exact htail (Shows.of_leaves_eq h rfl)
    | failure code message => exact Shows.of_leaves_eq h rfl
    | empty => exact Shows.of_leaves_eq h rfl

section Query

variable {leaves : List (String × CachedLeaf)}

def dumped (base : Path) (leaf : CachedLeaf) : Notification :=
  ⟨leaf.timestamp, some base, [Update.of leaf.path leaf.value], [], false⟩

theorem take_dumped {base : Path} (hbase : base.elems = []) (v : View) (leaf : CachedLeaf)
    (elems : List PathElem) : v.take (dumped base leaf) elems =
      if elems = leaf.path.elems then some (leaf.value, leaf.timestamp) else v elems := by
  have hfull : (base.join leaf.path).elems = leaf.path.elems := by
    rw [Path.join, hbase, List.nil_append]
  rw [← hfull]
  rfl

/-- Of several leaves at different paths, each is stored at its own. -/
theorem takes_dumped {base : Path} (hbase : base.elems = []) {items : List CachedLeaf}
    (hunique : ∀ a ∈ items, ∀ b ∈ items, a.path.elems = b.path.elems → a = b) (v : View)
    (elems : List PathElem) (known : TypedValue × Int64) :
    v.takes (items.map (dumped base)) elems = some known ↔
      (∃ leaf ∈ items, leaf.path.elems = elems ∧ known = (leaf.value, leaf.timestamp)) ∨
        (v elems = some known ∧ ∀ leaf ∈ items, leaf.path.elems ≠ elems) := by
  induction items generalizing v with
  | nil => simp [View.takes]
  | cons leaf rest ih =>
    have hrest := ih (fun a ha b hb => hunique a (List.mem_cons_of_mem _ ha) b
      (List.mem_cons_of_mem _ hb)) (v.take (dumped base leaf))
    rw [List.map_cons, View.takes_cons, hrest, take_dumped hbase]
    by_cases helems : elems = leaf.path.elems
    · rw [if_pos helems]
      constructor
      · rintro (⟨other, hother, hpath, hknown⟩ | ⟨hknown, -⟩)
        · exact Or.inl ⟨other, List.mem_cons_of_mem _ hother, hpath, hknown⟩
        · exact Or.inl ⟨leaf, List.mem_cons_self, helems.symm, (Option.some.inj hknown).symm⟩
      · rintro (⟨other, hother, hpath, rfl⟩ | ⟨-, hnone⟩)
        · have hsame := hunique other hother leaf List.mem_cons_self (hpath.trans helems)
          by_cases hlater : ∃ later ∈ rest, later.path.elems = elems
          · obtain ⟨later, hmem, hlaterPath⟩ := hlater
            have hequal := hunique other hother later (List.mem_cons_of_mem _ hmem)
              (hpath.trans hlaterPath.symm)
            exact Or.inl ⟨later, hmem, hlaterPath, by rw [hequal]⟩
          · refine Or.inr ⟨by rw [hsame], ?_⟩
            intro later hmem hlaterPath
            exact hlater ⟨later, hmem, hlaterPath⟩
        · exact absurd helems.symm (hnone leaf List.mem_cons_self)
    · rw [if_neg helems]
      simp only [List.mem_cons, exists_eq_or_imp, forall_eq_or_imp, Ne.symm helems, false_and,
        false_or, ne_eq, not_false_eq_true, true_and]

theorem mem_values_iff (h : AllKeyed leaves) {leaf : CachedLeaf} :
    leaf ∈ SortedMap.values leaves ↔ SortedMap.get? leaves leaf.path.text = some leaf := by
  rw [SortedMap.values, List.mem_map]
  constructor
  · rintro ⟨⟨text, stored⟩, hstored, rfl⟩
    have hget := SortedMap.get?_eq_some_of_mem h.sorted hstored
    rw [(h.keyed text stored hget).path_text]
    exact hget
  · intro hget
    exact ⟨_, SortedMap.mem_of_get?_eq_some hget, rfl⟩

/-- Leaves are told apart by the elements of their paths. -/
theorem eq_of_mem_values (h : AllKeyed leaves) {a b : CachedLeaf} (ha : a ∈ SortedMap.values leaves)
    (hb : b ∈ SortedMap.values leaves) (helems : a.path.elems = b.path.elems) : a = b := by
  have hgetA := (mem_values_iff h).mp ha
  have hgetB := (mem_values_iff h).mp hb
  have hpath : a.path = b.path := by
    rw [(h.keyed _ a hgetA).bare, (h.keyed _ b hgetB).bare, helems]
  rw [hpath, hgetB] at hgetA
  exact (Option.some.inj hgetA).symm

/-- What a subscription covers of a view are the leaves that match its patterns. -/
theorem restrict_view_eq_some_iff {t : CacheTarget} (h : AllKeyed t.leaves) {s : Subscription}
    {elems : List PathElem} {value : TypedValue} {timestamp : Int64} :
    t.view.restrict s elems = some (value, timestamp) ↔
      ∃ leaf ∈ SortedMap.values t.leaves, leaf.path.elems = elems ∧ leaf.value = value ∧
        leaf.timestamp = timestamp ∧ s.patterns.any leaf.path.isMatch = true := by
  constructor
  · intro hview
    rw [View.restrict] at hview
    by_cases hcovered : s.covers (Path.ofElems elems) = true
    · rw [if_pos hcovered] at hview
      have hget := (viewOf_eq_some_iff h).mp hview
      exact ⟨⟨Path.ofElems elems, value, timestamp⟩, (mem_values_iff h).mpr hget, rfl, rfl, rfl,
        hcovered⟩
    · rw [if_neg hcovered] at hview
      cases hview
  · rintro ⟨leaf, hleaf, rfl, rfl, rfl, hcovered⟩
    have hget := (mem_values_iff h).mp hleaf
    have hpath := (h.keyed _ leaf hget).bare
    have hview : t.view leaf.path.elems = some (leaf.value, leaf.timestamp) := by
      refine (viewOf_eq_some_iff h).mpr ?_
      rw [← hpath]
      exact hget
    have hsame : s.covers (Path.ofElems leaf.path.elems) = true := hcovered
    rw [View.restrict, if_pos hsame]
    exact hview

/-- In the beginning a subscriber is sent what its subscription covers. -/
theorem takes_query {t : CacheTarget} (h : AllKeyed t.leaves) (s : Subscription) :
    View.empty.takes (t.query s.patterns) = t.view.restrict s := by
  have hunique : ∀ a ∈ (SortedMap.values t.leaves).filter (fun leaf =>
      s.patterns.any leaf.path.isMatch), ∀ b ∈ (SortedMap.values t.leaves).filter (fun leaf =>
      s.patterns.any leaf.path.isMatch), a.path.elems = b.path.elems → a = b := by
    intro a ha b hb helems
    exact eq_of_mem_values h (List.mem_filter.mp ha).1 (List.mem_filter.mp hb).1 helems
  funext elems
  refine Option.ext ?_
  rintro ⟨value, timestamp⟩
  have htakes := @takes_dumped t.base rfl _ hunique View.empty elems (value, timestamp)
  rw [restrict_view_eq_some_iff h]
  refine htakes.trans ?_
  constructor
  · rintro (⟨leaf, hleaf, helems, hknown⟩ | ⟨hnone, -⟩)
    · obtain ⟨rfl, rfl⟩ := Prod.mk.inj hknown
      obtain ⟨hmem, hcovered⟩ := List.mem_filter.mp hleaf
      exact ⟨leaf, hmem, helems, rfl, rfl, hcovered⟩
    · cases hnone
  · rintro ⟨leaf, hmem, helems, rfl, rfl, hcovered⟩
    exact Or.inl ⟨leaf, List.mem_filter.mpr ⟨hmem, hcovered⟩, helems, rfl⟩

end Query

end CacheTarget

end Telemetry
