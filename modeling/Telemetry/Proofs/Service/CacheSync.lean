import Mathlib.Data.List.Induction
import Telemetry.Proofs.Cache.Backing
import Telemetry.Proofs.Service.Start

/-!
The cache of a collector that only transactions change, beside its tree.
-/

namespace Telemetry

namespace Service

/-- The cache holds copies of state leaves of the tree only, and nothing without a schema. -/
structure Tracked (names : Siblings) (s : Service) : Prop where
  indexed : CacheTarget.Indexed s.target.leaves
  nothing : s.transactor = none → s.tree = none ∧ s.target.leaves = []
  placed : ∀ t, s.transactor = some t → t.siblings = names ∧ ∃ tree, s.tree = some tree ∧
    Node.IsPlace t.schema.root tree ∧ tree.leafAt?.WellFormed ∧
    ∀ text leaf, SortedMap.get? s.target.leaves text = some leaf → names.Backed tree.leafAt? leaf

theorem tracked_set {names : Siblings} {s : Service} (h : s.Tracked names) {req : SetRequest}
    (hreq : req.KeysOrdered) : (s.set req).service.Tracked names := by
  cases ht : s.transactor with
  | none =>
    rw [set_eq_error_of_no_transactor ht]
    exact h
  | some t =>
    cases hc : t.transact s.now s.tree s.target req with
    | error e =>
      rw [set_of_error ht hc]
      exact ⟨h.indexed, h.nothing, h.placed⟩
    | ok c =>
      rw [set_of_ok ht hc]
      obtain ⟨hsiblings, tree, htree, hplace, hleaves, hbacked⟩ := h.placed t ht
      rw [htree] at hc
      obtain ⟨_, _, hsame, hrun, -, -, happly, -⟩ := Transactor.transact_eq_ok hc
      cases hsame
      have hpublishes := Transactor.publishes_of_transact hplace hc
      have hafter := SetRequest.wellFormed_run hreq hplace hleaves hrun
      refine ⟨CacheTarget.indexed_apply h.indexed happly, ?_, ?_⟩
      · intro hnone
        have hother : s.transactor = none := hnone
        rw [ht] at hother
        cases hother
      · intro other hother
        have hsame : some other = some t := (show s.transactor = some other from hother) ▸ ht
        cases hsame
        refine ⟨hsiblings, c.tree, rfl, (SetRequest.run_spec hplace hrun).1, hafter, ?_⟩
        intro text leaf hget
        rw [hsiblings] at hpublishes
        exact CacheTarget.backed_apply hpublishes h.indexed happly hleaves hafter hbacked hget

theorem after_ofSets_append (s : Service) (sets : List (Int64 × SetRequest)) (reading : Int64)
    (req : SetRequest) :
    s.after (.ofSets (sets ++ [(reading, req)])) =
      (((s.after (.ofSets sets)).withClock reading).set req).service := by
  rw [ServiceRun.ofSets, List.map_append, after_append]
  rfl

theorem tracked_after {names : Siblings} {s : Service} (h : s.Tracked names)
    {sets : List (Int64 × SetRequest)} (hsets : ∀ set ∈ sets, set.2.KeysOrdered) :
    (s.after (.ofSets sets)).Tracked names := by
  induction sets generalizing s with
  | nil => exact h
  | cons set rest ih =>
    have hclock : (s.withClock set.1).Tracked names := ⟨h.indexed, h.nothing, h.placed⟩
    exact ih (tracked_set hclock (hsets set List.mem_cons_self))
      fun other hother => hsets other (List.mem_cons_of_mem _ hother)

/-- Every leaf of the tree whose parent is the state container is cached with its value, at its
own path and at the one with the container renamed. -/
def KeepsUp (names : Siblings) (s : Service) : Prop :=
  ∀ tree above parent last value, s.tree = some tree → parent.name = names.state →
    tree.leafMap (above ++ [parent, last]) = some value →
    Siblings.Cached s.target.leaves (above ++ [parent, last]) value ∧
      Siblings.Cached s.target.leaves (above ++ [{ parent with name := names.config }, last]) value

/-- A transaction that is committed publishes no delete that matches a copy of a state leaf
which has an equal value before and after. -/
def Spares (names : Siblings) (s : Service) (reading : Int64) (req : SetRequest) : Prop :=
  ∀ outcome before after, ((s.withClock reading).set req).result = .ok outcome →
    s.tree = some before → ((s.withClock reading).set req).service.tree = some after →
    ∀ above parent last old value, parent.name = names.state →
      before.leafMap (above ++ [parent, last]) = some old →
      after.leafMap (above ++ [parent, last]) = some value → (old == value) = true →
      ∀ pattern ∈ outcome.notification.deletes,
        (Path.ofElems (above ++ [parent, last])).isMatch pattern = false ∧
          (Path.ofElems (above ++ [{ parent with name := names.config }, last])).isMatch pattern =
            false

section KeepsUp

variable {names : Siblings} {s : Service} {schema : SchemaNode}

private theorem keepsUp_iff_of_isPlace {tree : Node} (htree : s.tree = some tree)
    (hplace : Node.IsPlace schema tree) :
    s.KeepsUp names ↔ names.KeepsUp tree.leafAt? s.target.leaves := by
  rw [← Node.leafMap_eq_leafAt? hplace]
  constructor
  · intro h elems value hvalue hstate copy hcopy
    obtain ⟨above, parent, last, rfl, hname⟩ := hstate
    obtain ⟨hown, hsibling⟩ := h tree above parent last value htree hname hvalue
    rcases (Siblings.mem_copies_append hname).mp hcopy with rfl | rfl
    · exact hown
    · exact hsibling
  · intro h other above parent last value hother hname hvalue
    have hsame : tree = other := Option.some.inj (htree.symm.trans hother)
    subst hsame
    have hcopies := h _ value hvalue ⟨above, parent, last, rfl, hname⟩
    exact ⟨hcopies _ ((Siblings.mem_copies_append hname).mpr (Or.inl rfl)),
      hcopies _ ((Siblings.mem_copies_append hname).mpr (Or.inr rfl))⟩

private theorem spares_iff_of_commit {reading : Int64} {req : SetRequest} {before after : Node}
    {outcome : SetOutcome} (hbefore : s.tree = some before) (hplace : Node.IsPlace schema before)
    (hresult : ((s.withClock reading).set req).result = .ok outcome)
    (hafter : ((s.withClock reading).set req).service.tree = some after)
    (hkept : Node.IsPlace schema after) :
    s.Spares names reading req ↔
      names.Spares before.leafAt? after.leafAt? outcome.notification := by
  rw [← Node.leafMap_eq_leafAt? hplace, ← Node.leafMap_eq_leafAt? hkept]
  constructor
  · rintro h elems ⟨old, value, hold, hvalue, hequal⟩ ⟨above, parent, last, rfl, hname⟩ copy hcopy
      pattern hpattern
    obtain ⟨hown, hsibling⟩ := h outcome before after hresult hbefore hafter above parent last old
      value hname hold hvalue hequal pattern hpattern
    rcases (Siblings.mem_copies_append hname).mp hcopy with rfl | rfl
    · exact hown
    · exact hsibling
  · intro h outcome' before' after' hresult' hbefore' hafter' above parent last old value hname hold
      hvalue hequal pattern hpattern
    rw [hresult] at hresult'
    rw [hbefore] at hbefore'
    rw [hafter] at hafter'
    cases hresult'
    cases hbefore'
    cases hafter'
    have hcopies := h _ ⟨old, value, hold, hvalue, hequal⟩ ⟨above, parent, last, rfl, hname⟩
    exact ⟨hcopies _ ((Siblings.mem_copies_append hname).mpr (Or.inl rfl)) pattern hpattern,
      hcopies _ ((Siblings.mem_copies_append hname).mpr (Or.inr rfl)) pattern hpattern⟩

/-- Where the cache has kept up so far, it keeps up with a transaction exactly if that spares
what it does not change. -/
theorem keepsUp_set_iff (hnames : names.state ≠ names.config) (htracked : s.Tracked names)
    {req : SetRequest} (hreq : req.KeysOrdered) (hkeeps : s.KeepsUp names) (reading : Int64) :
    ((s.withClock reading).set req).service.KeepsUp names ↔ s.Spares names reading req := by
  have hfailed : ∀ e, ((s.withClock reading).set req).result = .error e →
      s.Spares names reading req := by
    intro e herror outcome before after hresult
    rw [herror] at hresult
    cases hresult
  cases ht : s.transactor with
  | none =>
    have hset := set_eq_error_of_no_transactor (s := s.withClock reading) ht req
    have hspares := hfailed _ (congrArg Reply.result hset)
    rw [hset]
    exact ⟨fun _ => hspares, fun _ => hkeeps⟩
  | some t =>
    cases hc : t.transact reading s.tree s.target req with
    | error e =>
      have hset := set_of_error (s := s.withClock reading) ht hc
      have hspares := hfailed _ (congrArg Reply.result hset)
      rw [hset]
      exact ⟨fun _ => hspares, fun _ => hkeeps⟩
    | ok c =>
      obtain ⟨hsiblings, tree, htree, hplace, hleaves, -⟩ := htracked.placed t ht
      have hset := set_of_ok (s := s.withClock reading) ht hc
      rw [htree] at hc
      obtain ⟨_, _, hsame, hrun, -, -, happly, -⟩ := Transactor.transact_eq_ok hc
      cases hsame
      have hpublishes := Transactor.publishes_of_transact hplace hc
      rw [hsiblings] at hpublishes
      have hafter := SetRequest.wellFormed_run hreq hplace hleaves hrun
      have hkept := (SetRequest.run_spec hplace hrun).1
      have hcommitted : ((s.withClock reading).set req).service.tree = some c.tree :=
        congrArg (fun reply => reply.service.tree) hset
      have htarget : ((s.withClock reading).set req).service.target = c.target :=
        congrArg (fun reply => reply.service.target) hset
      rw [keepsUp_iff_of_isPlace hcommitted hkept, htarget, spares_iff_of_commit htree hplace
        (congrArg Reply.result hset) hcommitted hkept]
      exact CacheTarget.keepsUp_apply_iff hnames hpublishes htracked.indexed happly hafter
        ((keepsUp_iff_of_isPlace htree hplace).mp hkeeps)

/-- A run of transactions keeps the cache up all along exactly if each of them spares what it
does not change. -/
theorem keepsUp_along_iff (hnames : names.state ≠ names.config) (htracked : s.Tracked names)
    (hkeeps : s.KeepsUp names) {sets : List (Int64 × SetRequest)}
    (hsets : ∀ set ∈ sets, set.2.KeysOrdered) :
    (∀ done, done <+: sets → (s.after (.ofSets done)).KeepsUp names) ↔
      ∀ done reading req, done ++ [(reading, req)] <+: sets →
        (s.after (.ofSets done)).Spares names reading req := by
  have hstep : ∀ done reading req, done ++ [(reading, req)] <+: sets →
      (s.after (.ofSets done)).KeepsUp names →
      ((s.after (.ofSets (done ++ [(reading, req)]))).KeepsUp names ↔
        (s.after (.ofSets done)).Spares names reading req) := by
    intro done reading req hpre hdone
    have hmem : ∀ set ∈ done ++ [(reading, req)], set.2.KeysOrdered :=
      fun set hset => hsets set (hpre.subset hset)
    have hbefore := tracked_after htracked
      fun set hset => hmem set (List.mem_append_left _ hset)
    rw [after_ofSets_append]
    exact keepsUp_set_iff hnames hbefore (hmem (reading, req) (by simp)) hdone reading
  constructor
  · intro h done reading req hpre
    have hdone := h done ((List.prefix_append done _).trans hpre)
    exact (hstep done reading req hpre hdone).mp (h _ hpre)
  · intro h done
    induction done using List.reverseRecOn with
    | nil => exact fun _ => hkeeps
    | append_singleton done set ih =>
      intro hpre
      have hdone := ih ((List.prefix_append done _).trans hpre)
      exact (hstep done set.1 set.2 hpre hdone).mpr (h done set.1 set.2 hpre)

end KeepsUp

end Service

namespace Collector

variable {settings : Settings} {given : Option Schema} {files : String → Option String}
  {isFree : Bool} {now : Int64} {c : Collector}

theorem tracked_start (h : start settings given files isFree now = .ok c) :
    c.service.Tracked (siblingsOf settings) := by
  have hleaves : c.service.target.leaves = [] := by
    rw [(start_eq_ok h).1]
    rfl
  refine ⟨hleaves ▸ CacheTarget.indexed_nil, fun ht => ⟨tree_of_start h ht, hleaves⟩, ?_⟩
  intro t ht
  obtain ⟨hsiblings, root, hroot, htree⟩ := transactor_of_start h ht
  obtain ⟨hplace, children, rfl, hholds⟩ := Schema.defaultRoot_spec hroot
  refine ⟨hsiblings, _, htree, hplace, hholds.wellFormed, ?_⟩
  intro text leaf hget
  rw [hleaves] at hget
  cases hget

/-- Nothing stands below the root at first, so there are no state leaves. -/
theorem keepsUp_start (h : start settings given files isFree now = .ok c) :
    c.service.KeepsUp (siblingsOf settings) := by
  intro tree above parent last value htree hname hvalue
  cases ht : c.service.transactor with
  | none =>
    rw [tree_of_start h ht] at htree
    cases htree
  | some t =>
    obtain ⟨-, root, hroot, hstart⟩ := transactor_of_start h ht
    obtain ⟨hplace, children, rfl, hholds⟩ := Schema.defaultRoot_spec hroot
    rw [hstart] at htree
    cases htree
    rw [Node.leafMap_eq_leafAt? hplace] at hvalue
    obtain ⟨name, helems, -⟩ := hholds.leafAt? hvalue
    have hlength := congrArg List.length helems
    simp at hlength

/-- Whatever transactions were run, every cached leaf is backed by the committed tree: it is a
leaf of the state container with an equal value, or the sibling of one. -/
theorem cached_leaf_is_backed (hstart : start settings given files isFree now = .ok c)
    (sets : List (Int64 × SetRequest)) (hsets : ∀ set ∈ sets, set.2.KeysOrdered) (text : String)
    (leaf : CachedLeaf) (hleaf : (text, leaf) ∈ (c.service.after (.ofSets sets)).target.leaves) :
    ∃ tree above parent last cached value,
      (c.service.after (.ofSets sets)).tree = some tree ∧
      leaf.path = Path.ofElems (above ++ [parent, last]) ∧
      leaf.value = LeafValue.toTyped cached ∧ (cached == value) = true ∧
      (parent.name = settings.set.stateContainer ∧
          tree.leafMap (above ++ [parent, last]) = some value ∨
        parent.name = settings.set.configContainer ∧
          tree.leafMap (above ++ [{ parent with name := settings.set.stateContainer }, last]) =
            some value) := by
  have htracked := Service.tracked_after (tracked_start hstart) hsets
  rw [SortedMap.mem_iff_get?_eq_some htracked.indexed.sorted] at hleaf
  cases ht : (c.service.after (.ofSets sets)).transactor with
  | none =>
    rw [(htracked.nothing ht).2] at hleaf
    cases hleaf
  | some t =>
    obtain ⟨-, tree, htree, hplace, -, hbacked⟩ := htracked.placed t ht
    obtain ⟨_, copy, value, cached, ⟨above, parent, last, rfl, hname⟩, hcopy, hvalue, hpath,
      hcached, hequal⟩ := hbacked text leaf hleaf
    rw [← Node.leafMap_eq_leafAt? hplace] at hvalue
    rcases (Siblings.mem_copies_append hname).mp hcopy with rfl | rfl
    · exact ⟨tree, above, parent, last, cached, value, htree, hpath, hcached, hequal,
        Or.inl ⟨hname, hvalue⟩⟩
    · refine ⟨tree, above, _, last, cached, value, htree, hpath, hcached, hequal, Or.inr ⟨rfl, ?_⟩⟩
      have hstate : settings.set.stateContainer = parent.name := hname.symm
      rw [hstate]
      exact hvalue

/-- An interface that is set is cached and backed. -/
theorem cached_leaf_is_backed_setMtus : ∃ text leaf tree above parent last cached value,
    (text, leaf) ∈ (startedInterfaces.service.after
      (.ofSets [(1, setMtus [("eth0", 1500)])])).target.leaves ∧
      (startedInterfaces.service.after (.ofSets [(1, setMtus [("eth0", 1500)])])).tree =
        some tree ∧
      leaf.path = Path.ofElems (above ++ [parent, last]) ∧
      leaf.value = LeafValue.toTyped cached ∧ (cached == value) = true ∧
      (parent.name = "state" ∧ tree.leafMap (above ++ [parent, last]) = some value ∨
        parent.name = "config" ∧
          tree.leafMap (above ++ [{ parent with name := "state" }, last]) = some value) := by
  obtain ⟨⟨text, leaf⟩, hhead⟩ : ∃ entry, (startedInterfaces.service.after
      (.ofSets [(1, setMtus [("eth0", 1500)])])).target.leaves.head? = some entry := ⟨_, rfl⟩
  have hleaf := List.mem_of_mem_head? hhead
  have hsets : ∀ set ∈ [((1 : Int64), setMtus [("eth0", 1500)])], set.2.KeysOrdered :=
    List.forall_mem_singleton.mpr (keysOrdered_setMtus _)
  obtain ⟨tree, above, parent, last, cached, value, hbacked⟩ :=
    cached_leaf_is_backed start_interfaces _ hsets text leaf hleaf
  exact ⟨text, leaf, tree, above, parent, last, cached, value, hleaf, hbacked⟩

/-- A run of transactions has every state leaf cached with its value, at its own path and at its
sibling's, all along exactly if none of them publishes a delete that matches a copy of a leaf
which it does not change. -/
theorem state_is_cached_iff_spared (hstart : start settings given files isFree now = .ok c)
    (hnames : settings.set.stateContainer ≠ settings.set.configContainer)
    (sets : List (Int64 × SetRequest)) (hsets : ∀ set ∈ sets, set.2.KeysOrdered) :
    (∀ done, done <+: sets →
        (c.service.after (.ofSets done)).KeepsUp (siblingsOf settings)) ↔
      ∀ done reading req, done ++ [(reading, req)] <+: sets →
        (c.service.after (.ofSets done)).Spares (siblingsOf settings) reading req :=
  Service.keepsUp_along_iff hnames (tracked_start hstart) (keepsUp_start hstart) hsets

/-- One transaction that sets one interface keeps the cache up. -/
theorem state_is_cached_after_setMtus :
    (startedInterfaces.service.after (.ofSets [(1, setMtus [("eth0", 1500)])])).KeepsUp
      (siblingsOf {}) := by
  have hsets : ∀ set ∈ [((1 : Int64), setMtus [("eth0", 1500)])], set.2.KeysOrdered :=
    List.forall_mem_singleton.mpr (keysOrdered_setMtus _)
  refine (state_is_cached_iff_spared start_interfaces (by decide) _ hsets).mpr ?_ _ List.prefix_rfl
  intro done reading req hpre outcome before after _ hbefore _ above parent last old value _ hold
  have hnil : done = [] := by
    have hlength := hpre.length_le
    simpa using hlength
  subst hnil
  have hempty : Node.emptyContainer = before := Option.some.inj hbefore
  have hnone : Node.emptyContainer.leafMap (above ++ [parent, last]) = none := rfl
  rw [← hempty, hnone] at hold
  cases hold

def wildcardSets : List (Int64 × SetRequest) :=
  [(1, setMtus [("*", 1), ("eth0", 2)]), (2, deleteInterface "*")]

/-- The cache drops the leaf of `eth0` with the removed one, though the tree still has it. -/
theorem state_is_not_cached_after_wildcardSets :
    start {} (some interfacesSchema) (fun _ => none) true 0 = .ok startedInterfaces ∧
      ¬ (startedInterfaces.service.after (.ofSets wildcardSets)).KeepsUp (siblingsOf {}) := by
  refine ⟨start_interfaces, ?_⟩
  intro h
  have hleaf : ((startedInterfaces.service.after (.ofSets wildcardSets)).tree.bind
      (·.leafMap (mtuPath "eth0").elems)).isSome = true := by decide +kernel
  have hdropped : (SortedMap.get? (startedInterfaces.service.after
      (.ofSets wildcardSets)).target.leaves (mtuPath "eth0").text).isNone = true := by
    decide +kernel
  obtain ⟨value, hvalue⟩ := Option.isSome_iff_exists.mp hleaf
  obtain ⟨tree, htree, hvalue⟩ := Option.bind_eq_some_iff.mp hvalue
  obtain ⟨⟨cached, timestamp, hget, -⟩, -⟩ := h tree
    [.plain "interfaces", ⟨"interface", [("name", "eth0")]⟩] (.plain "state") (.plain "mtu") value
    htree rfl hvalue
  change SortedMap.get? _ (mtuPath "eth0").text = _ at hget
  rw [hget] at hdropped
  cases hdropped

end Collector

end Telemetry
