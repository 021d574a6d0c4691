import Telemetry.Proofs.Cache.Backing
import Telemetry.Proofs.Service.Start

/-!
What a client reads of the leaf that it wrote last. A transaction publishes the difference of two
trees, so a leaf that it changed is cached with its new value and read at once. A leaf that it left
at the value it had is not published: if something else than transactions has removed it from the
cache or written another value there, that is what is still read.
-/

namespace Telemetry

namespace LeafEdit

def Reaches (base elems : List PathElem) : LeafEdit → Prop
  | .remove path => base <+: elems ∧ Path.covers path (elems.drop base.length) = true
  | .write leaves => ∃ leaf ∈ leaves.nest base, leaf.1 = elems

end LeafEdit

namespace LeafMap

/-- Some edit writes a value at a path, and nothing after that changes what is there. -/
def WritesLast (base : List PathElem) (edits : List LeafEdit) (elems : List PathElem)
    (value : LeafValue) : Prop :=
  ∃ done first rel later rest, edits = done ++ .write (first ++ (rel, value) :: later) :: rest ∧
    elems = base ++ rel ∧ (∀ leaf ∈ later, leaf.1 ≠ rel) ∧
    ∀ edit ∈ rest, ¬ edit.Reaches base elems

theorem edit_of_not_reaches (m : LeafMap) {base elems : List PathElem} {e : LeafEdit}
    (h : ¬ e.Reaches base elems) : edit base m e elems = m elems := by
  cases e with
  | remove path => exact if_neg h
  | write leaves =>
    refine assignAll_of_not_mem m ?_
    intro leaf hleaf helems
    exact h ⟨leaf, hleaf, helems⟩

theorem editAll_of_not_reaches (m : LeafMap) {base elems : List PathElem} {edits : List LeafEdit}
    (h : ∀ e ∈ edits, ¬ e.Reaches base elems) : m.editAll base edits elems = m elems := by
  induction edits generalizing m with
  | nil => rfl
  | cons e edits ih =>
    change (edit base m e).editAll base edits elems = _
    rw [ih _ fun other hother => h other (List.mem_cons_of_mem _ hother),
      edit_of_not_reaches m (h e List.mem_cons_self)]

/-- What is written last is there in the end. -/
theorem editAll_of_writesLast (m : LeafMap) {base elems : List PathElem} {edits : List LeafEdit}
    {value : LeafValue} (h : WritesLast base edits elems value) :
    m.editAll base edits elems = some value := by
  obtain ⟨done, first, rel, later, rest, rfl, rfl, hlater, hrest⟩ := h
  have hnested : ∀ leaf ∈ Assignments.nest base later, leaf.1 ≠ base ++ rel := by
    intro leaf hleaf helems
    obtain ⟨own, hown, rfl⟩ := List.mem_map.mp hleaf
    exact hlater own hown (List.append_cancel_left helems)
  rw [editAll, List.foldl_append, List.foldl_cons, ← editAll,
    editAll_of_not_reaches _ hrest, edit, Assignments.nest, List.map_append, List.map_cons,
    assignAll_append, assignAll_cons]
  refine (assignAll_of_not_mem _ hnested).trans ?_
  exact if_pos rfl

end LeafMap

namespace SetRequest

/-- Some operation of a request writes a value at a path, and no later one changes what is
there. -/
def WritesLast (req : SetRequest) (schema : SchemaNode) (elems : List PathElem)
    (value : LeafValue) : Prop :=
  ∃ place edits, schema.descend req.baseElems = some place ∧ req.leafEdits? place = some edits ∧
    LeafMap.WritesLast req.baseElems edits elems value

theorem leafAt?_of_writesLast {req : SetRequest} {schema : SchemaNode} {root after : Node}
    {elems : List PathElem} {value : LeafValue} (hplace : Node.IsPlace schema root)
    (h : req.run schema root = .ok after) (hwrites : req.WritesLast schema elems value) :
    after.leafAt? elems = some value := by
  obtain ⟨-, place, edits, hdescend, hedits, hafter⟩ := run_spec hplace h
  obtain ⟨place', edits', hdescend', hedits', hlast⟩ := hwrites
  cases hdescend.symm.trans hdescend'
  cases hedits.symm.trans hedits'
  rw [hafter]
  exact LeafMap.editAll_of_writesLast _ hlast

theorem keysOrdered_of_writesLast {req : SetRequest} {schema : SchemaNode}
    {elems : List PathElem} {value : LeafValue} (hreq : req.KeysOrdered)
    (hwrites : req.WritesLast schema elems value) : Path.KeysOrdered elems := by
  obtain ⟨place, edits, -, hedits, done, first, rel, later, rest, rfl, rfl, -, -⟩ := hwrites
  have hwrite := wellFormed_leafEdits hreq hedits (.write (first ++ (rel, value) :: later))
    (by simp)
  have hrel : Path.KeysOrdered rel := (hwrite (rel, value) (by simp)).1
  exact hreq.base.append hrel

end SetRequest

namespace ServiceEvent

def Mutates : ServiceEvent → Prop
  | set _ => True
  | ingest _ _ => True
  | statistics => True
  | size => True
  | _ => False

end ServiceEvent

namespace Service

variable {s : Service}

theorem target_perform_of_not_mutates {event : ServiceEvent} (h : ¬ event.Mutates) :
    (s.perform event).service.target = s.target := by
  cases event with
  | set req => exact absurd trivial h
  | ingest cancelled responses => exact absurd trivial h
  | statistics => exact absurd trivial h
  | size => exact absurd trivial h
  | subscribe id first =>
    simp only [perform, subscribe]
    cases Subscription.ofFirst s.target.name first <;> rfl
  | serve => rfl
  | cancel => rfl

theorem target_after_of_not_mutates {events : ServiceRun}
    (h : ∀ event ∈ events, ¬ event.2.Mutates) : (s.after events).target = s.target := by
  induction events generalizing s with
  | nil => rfl
  | cons head rest ih =>
    have hhead := @target_perform_of_not_mutates (s.withClock head.1) _ (h head List.mem_cons_self)
    exact (ih fun event hevent => h event (List.mem_cons_of_mem _ hevent)).trans hhead

/-- A leaf that is cached at a path is among what is read there. -/
theorem mem_get_of_cached {base : Option Path} {path : Path} {leaf : CachedLeaf} {text : String}
    (hget : SortedMap.get? s.target.leaves text = some leaf)
    (htarget : Status.requireTarget (base.getD Path.root).target s.target.name = .ok ())
    (hmatch : leaf.path.isMatch ((base.getD Path.root).join path).bare = true) :
    ∃ found, s.get base [path] = .ok found ∧
      ⟨leaf.timestamp, some s.target.base, [Update.of leaf.path leaf.value], [], false⟩ ∈ found := by
  have hmem : ⟨leaf.timestamp, some s.target.base, [Update.of leaf.path leaf.value], [], false⟩ ∈
      s.target.query [((base.getD Path.root).join path).bare] := by
    refine List.mem_map.mpr ⟨leaf, List.mem_filter.mpr ⟨?_, ?_⟩, rfl⟩
    · exact List.mem_map.mpr ⟨_, SortedMap.mem_of_get?_eq_some hget, rfl⟩
    · simp [hmatch]
  refine ⟨s.target.query [((base.getD Path.root).join path).bare], ?_, hmem⟩
  refine bind_eq_ok.mpr ⟨(), htarget, ?_⟩
  have hpatterns : patternsBelow (base.getD Path.root) [path] =
      [((base.getD Path.root).join path).bare] := rfl
  simp only [hpatterns]
  cases hquery : s.target.query [((base.getD Path.root).join path).bare] with
  | nil =>
    rw [hquery] at hmem
    cases hmem
  | cons first rest => rfl

/-- The cache is in order, and apart from the leaves right below the root the tree has state
leaves only. -/
structure Sound (s : Service) : Prop where
  indexed : CacheTarget.Indexed s.target.leaves
  placed : s.Placed
  state : ∀ t tree, s.transactor = some t → s.tree = some tree → ∀ elems value,
    tree.leafAt? elems = some value → elems.length ≤ 1 ∨ t.siblings.IsState elems

theorem sound_perform (h : s.Sound) (event : ServiceEvent) : (s.perform event).service.Sound := by
  have hindexed := target_perform (P := fun t => CacheTarget.Indexed t.leaves)
    (fun t n after changes ht happly => CacheTarget.indexed_apply ht happly)
    (fun t ht => ht) s event h.indexed
  refine ⟨hindexed, placed_perform h.placed event, ?_⟩
  intro t tree ht htree elems value hvalue
  rw [(sameKind_perform s event).1] at ht
  rcases tree_perform s event with hsame | ⟨other, req, c, hother, hc, hcommitted⟩
  · rw [hsame] at htree
    exact h.state t tree ht htree elems value hvalue
  · cases ht.symm.trans hother
    cases htree.symm.trans hcommitted
    obtain ⟨before, hbefore, hplace⟩ := h.placed t ht
    rw [hbefore] at hc
    have hpublishes := Transactor.publishes_of_transact hplace hc
    rcases LeafMap.gained_or_kept before.leafAt? hvalue with hgained | ⟨old, hold, -⟩
    · exact Or.inr (hpublishes.gained_state elems value hgained)
    · exact h.state t before ht hbefore elems old hold

theorem sound_after (h : s.Sound) (events : ServiceRun) : (s.after events).Sound :=
  after_induction (P := Sound) (fun _ _ h => ⟨h.indexed, h.placed, h.state⟩)
    (fun _ event h => sound_perform h event) h events

/-- What a transaction at a reading of the clock publishes carries that reading. -/
theorem timestamp_of_transact {t : Transactor} {now : Int64} {tree : Option Node}
    {target : CacheTarget} {req : SetRequest} {c : Committed}
    (h : t.transact now tree target req = .ok c) : c.outcome.notification.timestamp = now := by
  obtain ⟨_, difference, -, -, -, hextend, -⟩ := Transactor.transact_eq_ok h
  obtain ⟨_, _, -, -, hnotification⟩ := Siblings.extend_eq_ok hextend
  rw [hnotification]
  rfl

section Transact

variable {t : Transactor} {now : Int64} {before : Node} {req : SetRequest} {c : Committed}
  {elems : List PathElem} {value : LeafValue}

/-- A leaf that a transaction changes is cached with its new value. -/
theorem get?_transact_of_changed (hplace : Node.IsPlace t.schema.root before)
    (h : t.transact now (some before) s.target req = .ok c)
    (hvalue : c.tree.leafAt? elems = some value)
    (hchanged : ∀ old, before.leafAt? elems = some old → (old == value) = false) :
    SortedMap.get? c.target.leaves (Path.ofElems elems).text =
      some ⟨Path.ofElems elems, value.toTyped, now⟩ := by
  obtain ⟨_, _, -, -, -, -, happly, -⟩ := Transactor.transact_eq_ok h
  have hpublishes := Transactor.publishes_of_transact hplace h
  have hcached := CacheTarget.get?_apply_own hpublishes happly ⟨hvalue, hchanged⟩
  rw [timestamp_of_transact h] at hcached
  exact hcached

/-- What a transaction changes is read while the cache stays as the transaction left it. -/
theorem mem_get_of_changed (hplace : Node.IsPlace t.schema.root before)
    (h : t.transact now (some before) s.target req = .ok c)
    (hvalue : c.tree.leafAt? elems = some value)
    (hchanged : ∀ old, before.leafAt? elems = some old → (old == value) = false)
    (hordered : Path.KeysOrdered elems) {later : Service} (hlater : later.target = c.target)
    {base : Option Path} {path : Path} (hjoin : (base.getD Path.root).elems ++ path.elems = elems)
    (htarget : Status.requireTarget (base.getD Path.root).target s.target.name = .ok ()) :
    ∃ found, later.get base [path] = .ok found ∧
      ⟨now, some s.target.base, [Update.of (Path.ofElems elems) value.toTyped], [], false⟩ ∈
        found := by
  have hcached := get?_transact_of_changed hplace h hvalue hchanged
  obtain ⟨_, _, -, -, -, -, happly, -⟩ := Transactor.transact_eq_ok h
  have hname : later.target.name = s.target.name := by
    rw [hlater, CacheTarget.name_of_apply happly]
  have hbase : s.target.base = later.target.base := by
    rw [CacheTarget.base, CacheTarget.base, hname]
  have hself : (Path.ofElems elems).isMatch ((base.getD Path.root).join path).bare = true := by
    have hpath : ((base.getD Path.root).join path).bare = Path.ofElems elems := by
      rw [← hjoin]
      rfl
    rw [hpath]
    exact Path.matchElems_self hordered
  rw [← hlater] at hcached
  rw [← hname] at htarget
  rw [hbase]
  exact mem_get_of_cached hcached htarget hself

/-- A state leaf that stays at an equal value is no copy of a leaf that changes. -/
theorem not_copy_of_kept (hsound : s.Sound) (ht : s.transactor = some t)
    (hbefore : s.tree = some before) {after : Node} {old : LeafValue}
    (hold : before.leafAt? elems = some old) (hvalue : after.leafAt? elems = some value)
    (hequal : (old == value) = true) {other : List PathElem} {changed : LeafValue}
    (hstate : t.siblings.IsState other)
    (hgained : LeafMap.Gained before.leafAt? after.leafAt? other changed) :
    elems ∉ t.siblings.copies other := by
  intro hcopy
  have hother : elems = other := by
    rcases hsound.state t before ht hbefore elems old hold with hshort | hown
    · have hlong := Siblings.two_le_length_of_mem_copies hstate hcopy
      omega
    · exact Siblings.eq_of_isState_of_mem_copies hown hcopy
  rw [← hother] at hgained
  have hsame : value = changed := Option.some.inj (hvalue.symm.trans hgained.1)
  have hdiffers := hgained.2 old hold
  rw [← hsame, hequal] at hdiffers
  cases hdiffers

/-- About a leaf that a transaction leaves at an equal value nothing is published. The cache stays
as it is there, unless a delete reaches it that was published about another leaf. -/
theorem get?_transact_of_kept (hsound : s.Sound) (ht : s.transactor = some t)
    (hbefore : s.tree = some before) (hplace : Node.IsPlace t.schema.root before)
    (h : t.transact now (some before) s.target req = .ok c) {old : LeafValue}
    (hold : before.leafAt? elems = some old) (hvalue : c.tree.leafAt? elems = some value)
    (hequal : (old == value) = true) :
    (∀ update ∈ c.outcome.notification.updates, update.path ≠ some (Path.ofElems elems)) ∧
      ((∀ pattern ∈ c.outcome.notification.deletes,
        (Path.ofElems elems).isMatch pattern = false) →
        SortedMap.get? c.target.leaves (Path.ofElems elems).text =
          SortedMap.get? s.target.leaves (Path.ofElems elems).text) := by
  obtain ⟨_, _, -, -, -, -, happly, -⟩ := Transactor.transact_eq_ok h
  have hpublishes := Transactor.publishes_of_transact hplace h
  have hne := Node.elems_ne_nil_of_leafAt? hplace hold
  have hnot : ∀ other changed, LeafMap.Gained before.leafAt? c.tree.leafAt? other changed →
      elems ∉ t.siblings.copies other := fun other changed hgained =>
    not_copy_of_kept hsound ht hbefore hold hvalue hequal
      (hpublishes.gained_state other changed hgained) hgained
  refine ⟨?_, ?_⟩
  · intro update hupdate hpath
    obtain ⟨other, changed, copy, hgained, hcopy, rfl⟩ := (hpublishes.updates update).mp hupdate
    have hsame : copy = elems := congrArg Path.elems (Option.some.inj hpath)
    exact hnot other changed hgained (hsame ▸ hcopy)
  · intro hspared
    rw [CacheTarget.get?_apply_of_not_gained hpublishes hsound.indexed happly hne hnot]
    cases hget : SortedMap.get? s.target.leaves (Path.ofElems elems).text with
    | none => rfl
    | some leaf =>
      have htext := hsound.indexed.path_text _ leaf hget
      rw [Option.filter_some, if_pos]
      refine List.all_eq_true.mpr ?_
      intro pattern hpattern
      cases hmatch : leaf.path.isMatch pattern with
      | false => rfl
      | true =>
        have hreached := Path.isMatch_of_text_eq hne htext hmatch
        rw [hspared pattern hpattern] at hreached
        cases hreached

end Transact

end Service

namespace Collector

variable {settings : Settings} {given : Option Schema} {files : String → Option String}
  {isFree : Bool} {now : Int64} {c : Collector}

theorem sound_start (h : start settings given files isFree now = .ok c) : c.service.Sound := by
  have hleaves : c.service.target.leaves = [] := by
    rw [(start_eq_ok h).1]
    rfl
  refine ⟨hleaves ▸ CacheTarget.indexed_nil, placed_start h, ?_⟩
  intro t tree ht htree elems value hvalue
  obtain ⟨-, root, hroot, hstart⟩ := transactor_of_start h ht
  obtain ⟨-, children, rfl, hholds⟩ := Schema.defaultRoot_spec hroot
  cases htree.symm.trans hstart
  obtain ⟨name, rfl, -⟩ := hholds.leafAt? hvalue
  exact Or.inl (Nat.le_refl 1)

/-- Whatever happened before, a value that a transaction writes last at a path is in the tree
afterwards. If the leaf was not there before or had another value, it is also what is read at the
path from then on until something else changes. If it had an equal value, nothing is published
about it, and the cache stays there as it was unless a published delete reaches it. -/
theorem written_leaf_is_read (hstart : start settings given files isFree now = .ok c)
    (events : ServiceRun) (reading : Int64) {req : SetRequest} (hreq : req.KeysOrdered)
    {outcome : SetOutcome}
    (hset : (((c.service.after events).withClock reading).set req).result = .ok outcome)
    {t : Transactor} (ht : (c.service.after events).transactor = some t)
    {elems : List PathElem} {value : LeafValue}
    (hwrites : req.WritesLast t.schema.root elems value) :
    let s := c.service.after events
    let after := ((s.withClock reading).set req).service
    ∃ before tree, s.tree = some before ∧ after.tree = some tree ∧
      tree.leafMap elems = some value ∧
      ((∀ old, before.leafMap elems = some old → (old == value) = false) →
        ∀ (waiting : ServiceRun) (base : Option Path) (path : Path),
          (∀ event ∈ waiting, ¬ event.2.Mutates) →
          (base.getD Path.root).elems ++ path.elems = elems →
          Status.requireTarget (base.getD Path.root).target settings.server.target = .ok () →
          ∃ found, (after.after waiting).get base [path] = .ok found ∧
            ⟨reading, some ⟨"", [], settings.server.target⟩,
              [Update.of (Path.ofElems elems) value.toTyped], [], false⟩ ∈ found) ∧
      ((∃ old, before.leafMap elems = some old ∧ (old == value) = true) →
        (∀ update ∈ outcome.notification.updates, update.path ≠ some (Path.ofElems elems)) ∧
        ((∀ pattern ∈ outcome.notification.deletes,
          (Path.ofElems elems).isMatch pattern = false) →
          SortedMap.get? after.target.leaves (Path.ofElems elems).text =
            SortedMap.get? s.target.leaves (Path.ofElems elems).text)) := by
  intro s after
  have hsound : s.Sound := Service.sound_after (sound_start hstart) events
  have hname : s.target.name = settings.server.target := by
    rw [← name_of_start hstart, ← Service.name_after c.service events]
  obtain ⟨other, committed, hother, hc, rfl⟩ := Service.set_eq_ok hset
  cases ht.symm.trans hother
  obtain ⟨before, hbefore, hplace⟩ := hsound.placed t ht
  have hcommit : t.transact reading (some before) s.target req = .ok committed := by
    rw [← hbefore]
    exact hc
  obtain ⟨_, _, hsame, hrun, -⟩ := Transactor.transact_eq_ok hcommit
  cases hsame
  have hreply := Service.set_of_ok (s := s.withClock reading) ht hc
  have htree : after.tree = some committed.tree := congrArg (fun reply => reply.service.tree) hreply
  have htarget : after.target = committed.target :=
    congrArg (fun reply => reply.service.target) hreply
  have hkept := (SetRequest.run_spec hplace hrun).1
  have hvalue := SetRequest.leafAt?_of_writesLast hplace hrun hwrites
  refine ⟨before, committed.tree, hbefore, htree, ?_, ?_, ?_⟩
  · rw [Node.leafMap_eq_leafAt? hkept]
    exact hvalue
  · intro hchanged waiting base path hwaiting hjoin hrequired
    rw [Node.leafMap_eq_leafAt? hplace] at hchanged
    have hstays : (after.after waiting).target = committed.target :=
      (Service.target_after_of_not_mutates hwaiting).trans htarget
    rw [← hname] at hrequired ⊢
    exact Service.mem_get_of_changed hplace hcommit hvalue hchanged
      (SetRequest.keysOrdered_of_writesLast hreq hwrites) hstays hjoin hrequired
  · rintro ⟨old, hold, hequal⟩
    rw [Node.leafMap_eq_leafAt? hplace] at hold
    rw [htarget]
    exact Service.get?_transact_of_kept hsound ht hbefore hplace hcommit hold hvalue hequal

theorem writesLast_setMtu (name : String) (value : UInt64) :
    (setMtus [(name, value)]).WritesLast interfacesSchema.root (mtuPath name).elems
      (.uint value) := by
  have hedits : (setMtus [(name, value)]).leafEdits? interfacesSchema.root =
      some [.write [((mtuPath name).elems, .uint value)]] := by
    simp [SetRequest.leafEdits?, SetRequest.updateEdits?, setMtus, SetRequest.valueOf,
      SetRequest.pathOf, Update.of, TypedValue.leaves?, mtuPath, Path.ofElems, PathElem.plain,
      interfacesSchema, SchemaNode.descend, SchemaNode.child?, SchemaNode.children?,
      SortedMap.get?, TypedValue.lastLeaves?, SchemaNode.leafOf, LeafValue.ofTyped?,
      LeafValue.ofTyped, Except.toOption, Assignments.nest]
  refine ⟨interfacesSchema.root, _, rfl, hedits, [], [], (mtuPath name).elems, [], [], rfl, rfl,
    ?_, ?_⟩
  · intro leaf hleaf
    cases hleaf
  · intro edit hedit
    cases hedit

/-- The size of the packets of an interface is set and read. -/
theorem written_leaf_is_read_setMtus :
    let after := ((startedInterfaces.service.withClock 1).set (setMtus [("eth0", 1500)])).service
    ∃ found, after.get none [mtuPath "eth0"] = .ok found ∧
      ⟨1, some ⟨"", [], "target"⟩, [Update.of (mtuPath "eth0") (.uint 1500)], [], false⟩ ∈ found := by
  intro after
  obtain ⟨outcome, hset⟩ : ∃ outcome, ((startedInterfaces.service.withClock 1).set
      (setMtus [("eth0", 1500)])).result = .ok outcome := ⟨_, rfl⟩
  obtain ⟨before, _, hbefore, -, -, hread, -⟩ := written_leaf_is_read start_interfaces [] 1
    (keysOrdered_setMtus [("eth0", 1500)]) hset rfl (writesLast_setMtu "eth0" 1500)
  have hempty : Node.emptyContainer = before := Option.some.inj hbefore
  have hchanged : ∀ old, before.leafMap (mtuPath "eth0").elems = some old →
      (old == .uint 1500) = false := by
    intro old hold
    rw [← hempty] at hold
    cases hold
  exact hread hchanged [] none (mtuPath "eth0") (fun _ hevent => by cases hevent) rfl rfl

/-- A leaf that is removed from the cache and then set to the value it had cannot be read: the
tree does not change, so nothing is published. -/
theorem unchanged_leaf_is_not_read :
    let s := startedInterfaces.service.after [(1, .set (setMtus [("eth0", 1500)])),
      (2, .ingest false [.update ⟨2, none, [], [mtuPath "eth0"], false⟩])]
    let reply := (s.withClock 3).set (setMtus [("eth0", 1500)])
    start {} (some interfacesSchema) (fun _ => none) true 0 = .ok startedInterfaces ∧
      (setMtus [("eth0", 1500)]).WritesLast interfacesSchema.root (mtuPath "eth0").elems
        (.uint 1500) ∧
      (∃ outcome, reply.result = .ok outcome) ∧
      (∃ tree value, reply.service.tree = some tree ∧
        tree.leafMap (mtuPath "eth0").elems = some value) ∧
      ∃ status, reply.service.get none [mtuPath "eth0"] = .error status := by
  intro s reply
  have hset : reply.result.toOption.isSome = true := by decide +kernel
  have htree : (reply.service.tree.bind (·.leafMap (mtuPath "eth0").elems)).isSome = true := by
    decide +kernel
  have hread : (reply.service.get none [mtuPath "eth0"]).toOption.isNone = true := by
    decide +kernel
  obtain ⟨outcome, houtcome⟩ := Option.isSome_iff_exists.mp hset
  obtain ⟨value, hvalue⟩ := Option.isSome_iff_exists.mp htree
  obtain ⟨tree, htree, hleaf⟩ := Option.bind_eq_some_iff.mp hvalue
  refine ⟨start_interfaces, writesLast_setMtu "eth0" 1500,
    ⟨outcome, toOption_eq_some.mp houtcome⟩, ⟨tree, value, htree, hleaf⟩, ?_⟩
  cases hget : reply.service.get none [mtuPath "eth0"] with
  | error status => exact ⟨status, rfl⟩
  | ok found =>
    rw [hget] at hread
    cases hread

end Collector

end Telemetry
