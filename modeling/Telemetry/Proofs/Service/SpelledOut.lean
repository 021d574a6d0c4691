import Telemetry.Proofs.Service.Committed
import Telemetry.Proofs.Transaction.SpelledOut

/-!
A base path as a shorthand. A transaction with a base and the same one with the elements of the
base in every path publish the same and leave trees with the same leaves, if both are committed.
The first is the stricter one: it makes the place that its base leads to even where it only
deletes, so a delete of a path that is not accepted is refused there, and a list may grow longer
than it may be.
-/

namespace Telemetry

namespace Notification

theorem ofDiff_congr {schema : SchemaNode} {before after other : Node}
    (hafter : Node.IsPlace schema after) (hother : Node.IsPlace schema other)
    (h : after.leafAt? = other.leafAt?) : ofDiff before after = ofDiff before other := by
  have hmem : ∀ leaf, leaf ∈ after.leaves ↔ leaf ∈ other.leaves := by
    intro leaf
    rw [Node.mem_leaves_iff hafter, Node.mem_leaves_iff hother, h]
  have htexts : after.leavesByText = other.leavesByText := by
    refine SortedMap.ext_get? after.sorted_leavesByText other.sorted_leavesByText ?_
    intro text
    refine Option.ext ?_
    intro leaf
    rw [Node.get?_leavesByText hafter, Node.get?_leavesByText hother, hmem]
  obtain ⟨children, rfl⟩ := hafter.isContainer
  obtain ⟨others, rfl⟩ := hother.isContainer
  unfold ofDiff
  rw [htexts]
  rfl

end Notification

namespace Transactor

variable {t : Transactor} {now : Int64} {before after : Node} {target : CacheTarget}
  {req other : SetRequest} {c : Committed}

/-- A request that makes a valid tree with the same leaves as a committed one is committed and
publishes the same. -/
theorem transact_congr (hplace : Node.IsPlace t.schema.root c.tree)
    (hafter : Node.IsPlace t.schema.root after)
    (horigin : (other.base.getD Path.root).origin = (req.base.getD Path.root).origin)
    (h : t.transact now (some before) target req = .ok c)
    (hrun : other.run t.schema.root before = .ok after)
    (hconforms : Node.Conforms t.schema.root after) (hleaves : c.tree.leafAt? = after.leafAt?) :
    ∃ d, t.transact now (some before) target other = .ok d ∧ d.tree = after ∧
      d.outcome.notification = c.outcome.notification := by
  obtain ⟨_, difference, hbefore, -, hdiff, hextend, happly, -⟩ := transact_eq_ok h
  cases hbefore
  rw [Notification.ofDiff_congr hplace hafter hleaves] at hdiff
  have hstamped : difference.stamped now other target.name =
      difference.stamped now req target.name := by
    unfold Notification.stamped
    rw [horigin]
  rw [← hstamped] at hextend
  have hchecked := Node.validate_eq_ok_iff_conforms.mpr hconforms
  exact ⟨_, transact_of_stages hrun hchecked hdiff hextend happly, rfl, rfl⟩

end Transactor

namespace SetRequest

/-- Why a request may fail though it is committed when it is spelled out: it makes the place that
its base leads to. -/
inductive RefusedForBase (schema place : SchemaNode) (tree : Node) (req : SetRequest) :
    SetError → Prop
  /-- Where there was no place, or it was deleted, a delete below it had nothing to refuse. -/
  | delete {e : SetError} (refused : RefusesDelete place req.deletes e)
      (missing : tree.at? req.baseElems = none ∨ ∃ path ∈ req.deletes, path.elems = []) :
      RefusedForBase schema place tree req e
  /-- Deletes alone make no place, and with it the tree is not valid. -/
  | validation {cause : TreeError} (replaces : req.replaces = []) (updates : req.updates = [])
      (missing : tree.at? req.baseElems = none)
      (invalid : Node.validate schema (tree.create schema req.basePath).2 = .error cause) :
      RefusedForBase schema place tree req (.validation cause)

theorem origin_spelledOut (req : SetRequest) :
    (req.spelledOut.base.getD Path.root).origin = (req.base.getD Path.root).origin := by
  unfold spelledOut
  cases req.base <;> rfl

end SetRequest

/-- A place that conforms to the schema is a container of it. -/
theorem Node.Conforms.schema_eq_container {schema : SchemaNode} {node : Node}
    (h : Node.Conforms schema node) (hplace : Node.IsPlace schema node) :
    ∃ schemas, schema = .container schemas := by
  obtain ⟨children, rfl⟩ := hplace.isContainer
  cases h with
  | container known below => exact ⟨_, rfl⟩

namespace Service

/-- Two requests are both committed, publish the same and leave trees with the same leaves. -/
def CommitsAlike (s : Service) (req other : SetRequest) : Prop :=
  ∃ first second tree otherTree,
    (s.set req).result = .ok first ∧ (s.set other).result = .ok second ∧
    first.notification = second.notification ∧
    (s.set req).service.tree = some tree ∧ (s.set other).service.tree = some otherTree ∧
    tree.leafMap = otherTree.leafMap

variable {s : Service} {t : Transactor} {before : Node} {req : SetRequest} {place : SchemaNode}

private theorem commitsAlike_of_transact {other : SetRequest} {c d : Committed}
    (ht : s.transactor = some t) (hc : t.transact s.now s.tree s.target req = .ok c)
    (hd : t.transact s.now s.tree s.target other = .ok d)
    (hplace : Node.IsPlace t.schema.root c.tree) (hother : Node.IsPlace t.schema.root d.tree)
    (hnotification : c.outcome.notification = d.outcome.notification)
    (hleaves : c.tree.leafAt? = d.tree.leafAt?) : s.CommitsAlike req other := by
  refine ⟨c.outcome, d.outcome, c.tree, d.tree, ?_, ?_, hnotification, ?_, ?_, ?_⟩
  · rw [set_of_ok ht hc]
    rfl
  · rw [set_of_ok ht hd]
    rfl
  · rw [set_of_ok ht hc]
    rfl
  · rw [set_of_ok ht hd]
    rfl
  · rw [Node.leafMap_eq_leafAt? hplace, Node.leafMap_eq_leafAt? hother, hleaves]

/-- A request that is committed is committed spelled out. -/
theorem spelledOut_of_set (ht : s.transactor = some t) (hbefore : s.tree = some before)
    (hvalid : Node.IsValid t.schema.root before) (hat : req.RunsAt t.schema.root place)
    (hagree : req.KeysAgree place) {outcome : SetOutcome} (h : (s.set req).result = .ok outcome) :
    s.CommitsAlike req req.spelledOut := by
  have hroot := hvalid.conforms.schema_eq_container hvalid.place
  obtain ⟨_, c, hother, hc, -⟩ := set_eq_ok h
  cases Option.some.inj (ht.symm.trans hother)
  rw [hbefore] at hc
  obtain ⟨_, -, hsame, hrun, -⟩ := Transactor.transact_eq_ok hc
  cases hsame
  obtain ⟨other, hspelled⟩ := SetRequest.exists_run_spelledOut hvalid.place hroot hat hagree hrun
  obtain ⟨hplace, hotherPlace, -⟩ :=
    SetRequest.contents_run_spelledOut hvalid.place hroot hat hrun hspelled
  have hconforms := SetRequest.conforms_spelledOut hvalid.place hroot hat hrun hspelled
    (Transactor.isValid_transact hvalid hc).conforms
  have hleaves := SetRequest.leafAt?_spelledOut hvalid.place hroot hat hrun hspelled
  obtain ⟨d, hd, htree, hnotification⟩ := Transactor.transact_congr hplace hotherPlace
    (SetRequest.origin_spelledOut req) hc hspelled hconforms hleaves
  rw [← hbefore] at hc hd
  rw [← htree] at hotherPlace hleaves
  exact commitsAlike_of_transact ht hc hd hplace hotherPlace hnotification.symm hleaves

/-- A request that is committed spelled out is committed, or it is refused for making the place
that its base leads to. -/
theorem set_of_spelledOut (ht : s.transactor = some t) (hbefore : s.tree = some before)
    (hvalid : Node.IsValid t.schema.root before) (hat : req.RunsAt t.schema.root place)
    {outcome : SetOutcome} (h : (s.set req.spelledOut).result = .ok outcome) :
    s.CommitsAlike req req.spelledOut ∨ ∃ e, (s.set req).result = .error e ∧
      SetRequest.RefusedForBase t.schema.root place before req e := by
  have hroot := hvalid.conforms.schema_eq_container hvalid.place
  obtain ⟨_, d, hother, hd, -⟩ := set_eq_ok h
  cases Option.some.inj (ht.symm.trans hother)
  rw [hbefore] at hd
  obtain ⟨_, -, hsame, hspelled, -⟩ := Transactor.transact_eq_ok hd
  cases hsame
  rcases SetRequest.run_of_spelledOut hvalid.place hroot hat hspelled with
    ⟨after, hrun⟩ | ⟨e, hrun, hrefused, hmissing⟩
  · obtain ⟨hplace, hotherPlace, -⟩ :=
      SetRequest.contents_run_spelledOut hvalid.place hroot hat hrun hspelled
    have hleaves := SetRequest.leafAt?_spelledOut hvalid.place hroot hat hrun hspelled
    cases hchecked : Node.validate t.schema.root after with
    | ok =>
      have hconforms := Node.validate_eq_ok_iff_conforms.mp hchecked
      obtain ⟨c, hc, htree, hnotification⟩ := Transactor.transact_congr hotherPlace hplace
        (SetRequest.origin_spelledOut req).symm hd hrun hconforms hleaves.symm
      rw [← hbefore] at hc hd
      rw [← htree] at hplace hleaves
      exact Or.inl (commitsAlike_of_transact ht hc hd hplace hotherPlace hnotification hleaves)
    | error cause =>
      have herror : t.transact s.now s.tree s.target req = .error (.validation cause) :=
        Transactor.transact_eq_error_iff.mpr (hbefore ▸ .validation hrun hchecked)
      refine Or.inr ⟨.validation cause, by rw [set_of_error ht herror], ?_⟩
      rcases SetRequest.conforms_or_missing hvalid.place hroot hat hrun hspelled
        (Transactor.isValid_transact hvalid hd).conforms hvalid.conforms with
        hconforms | ⟨hreplaces, hupdates, hmissing, rfl⟩
      · rw [Node.validate_eq_ok_iff_conforms.mpr hconforms] at hchecked
        cases hchecked
      · exact .validation hreplaces hupdates hmissing hchecked
  · have herror : t.transact s.now s.tree s.target req = .error e :=
      Transactor.transact_eq_error_iff.mpr (hbefore ▸ .operations hrun)
    exact Or.inr ⟨e, by rw [set_of_error ht herror], .delete hrefused hmissing⟩

end Service

namespace Collector

variable {settings : Settings} {given : Option Schema} {files : String → Option String}
  {isFree : Bool} {now : Int64} {c : Collector} {t : Transactor}

/-- In every state a transaction with a base is committed alike with the elements of its base in
every path, if the objects that it writes to the base itself agree with the keys there. The other
way round it is, too, unless it is refused for making the place that its base leads to. -/
theorem base_is_shorthand (hstart : start settings given files isFree now = .ok c)
    (ht : c.service.transactor = some t) (events : ServiceRun) (reading : Int64)
    (req : SetRequest) (place : SchemaNode) (hat : req.RunsAt t.schema.root place) :
    let s := (c.service.after events).withClock reading
    ∃ tree, s.tree = some tree ∧
      (req.KeysAgree place → (∃ outcome, (s.set req).result = .ok outcome) →
        s.CommitsAlike req req.spelledOut) ∧
      ((∃ outcome, (s.set req.spelledOut).result = .ok outcome) →
        s.CommitsAlike req req.spelledOut ∨ ∃ e, (s.set req).result = .error e ∧
          SetRequest.RefusedForBase t.schema.root place tree req e) := by
  intro s
  obtain ⟨tree, htree, hvalid⟩ := isValid_after hstart ht events
  have hservice : s.transactor = some t := (Service.transactor_after _ _).trans ht
  refine ⟨tree, htree, ?_, ?_⟩
  · intro hagree hset
    obtain ⟨outcome, hset⟩ := hset
    exact Service.spelledOut_of_set hservice htree hvalid hat hagree hset
  · intro hset
    obtain ⟨outcome, hset⟩ := hset
    exact Service.set_of_spelledOut hservice htree hvalid hat hset

def setMtuBelow (name : String) (mtu : UInt64) : SetRequest :=
  ⟨some (interfacePath name), [], [], [.of (.ofElems [.plain "state", .plain "mtu"]) (.uint mtu)]⟩

theorem runsAt_interfacePath (name : String) (mtu : UInt64) :
    (setMtuBelow name mtu).RunsAt interfacesSchema.root
      (.list ["name"] none [("state", .container [("mtu", .leafOf (.uint none none))])]) := by
  refine ⟨?_, Or.inr ⟨_, _, _, ⟨"interface", [("name", name)]⟩, rfl, rfl, List.cons_ne_nil _ _⟩⟩
  refine SchemaNode.locateFrom_cons_eq_ok.mpr ⟨_, rfl, rfl, ?_⟩
  refine SchemaNode.locateFrom_cons_eq_ok.mpr ⟨.list ["name"] none
    [("state", .container [("mtu", .leafOf (.uint none none))])], ?_, ?_, rfl⟩
  · simp [SchemaNode.child?, SchemaNode.children?, SortedMap.get?]
  · exact SchemaNode.requirePassable_entry (by simp) rfl
      (by simp [SortedMap.contains, SortedMap.get?])

/-- The interface is made either way. -/
theorem base_is_shorthand_setMtuBelow :
    (startedInterfaces.service.withClock 1).CommitsAlike (setMtuBelow "eth0" 1500)
      (setMtuBelow "eth0" 1500).spelledOut := by
  have hat := runsAt_interfacePath "eth0" 1500
  obtain ⟨tree, -, hcommits, -⟩ := base_is_shorthand start_interfaces rfl [] 1 _ _ hat
  refine hcommits ?_ ⟨_, rfl⟩
  intro update hupdate hnil
  rw [List.mem_singleton.mp hupdate] at hnil
  cases hnil

def deleteUnknownBelow : SetRequest :=
  ⟨some (.ofElems [.plain "interfaces"]), [.ofElems [.plain "unknown"]], [], []⟩

/-- As long as there are no interfaces it is refused, and spelled out it is not. -/
theorem base_is_not_shorthand :
    let s := startedInterfaces.service.withClock 1
    start {} (some interfacesSchema) (fun _ => none) true 0 = .ok startedInterfaces ∧
      (∃ place, deleteUnknownBelow.RunsAt interfacesSchema.root place) ∧
      (∃ e, (s.set deleteUnknownBelow).result = .error e) ∧
      ∃ outcome, (s.set deleteUnknownBelow.spelledOut).result = .ok outcome := by
  intro s
  have hlocate : interfacesSchema.root.locate deleteUnknownBelow.basePath =
      .ok (.container [("interface", .list ["name"] none
        [("state", .container [("mtu", .leafOf (.uint none none))])])]) :=
    SchemaNode.locateFrom_cons_eq_ok.mpr ⟨_, rfl, rfl, rfl⟩
  exact ⟨start_interfaces, ⟨_, hlocate, Or.inl ⟨_, rfl⟩⟩, ⟨_, rfl⟩, ⟨_, rfl⟩⟩

end Collector

end Telemetry
