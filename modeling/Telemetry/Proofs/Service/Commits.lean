import Telemetry.Proofs.Service.Start

/-!
Transactions of a started collector as edits of a flat map. Whatever happened before, one that
succeeds turns the leaves of the tree into what the edits of its request make of them, and what
it publishes is the difference of the two trees.
-/

namespace Telemetry.Collector

variable {settings : Settings} {given : Option Schema} {files : String → Option String}
  {isFree : Bool} {now : Int64} {c : Collector}

/-- A transaction that succeeds does the edits that its request denotes, in their order, to the
leaves of the committed tree; it reports its operations in this order and publishes what
changed. -/
theorem set_does_leafEdits (hstart : start settings given files isFree now = .ok c)
    (events : ServiceRun) (reading : Int64) (req : SetRequest) (outcome : SetOutcome)
    (hset : (((c.service.after events).withClock reading).set req).result = .ok outcome) :
    ∃ schema before after place edits difference,
      (c.service.after events).transactor = some ⟨schema, siblingsOf settings⟩ ∧
      (c.service.after events).tree = some before ∧
      (((c.service.after events).withClock reading).set req).service.tree = some after ∧
      schema.root.descend req.baseElems = some place ∧
      req.leafEdits? place = some edits ∧
      after.leafMap = before.leafMap.editAll req.baseElems edits ∧
      outcome.results = req.deletes.map (·, Operation.delete)
        ++ req.replaces.map (SetRequest.pathOf ·, Operation.replace)
        ++ req.updates.map (SetRequest.pathOf ·, Operation.update) ∧
      Notification.ofDiff before after = .ok difference ∧
      (siblingsOf settings).extend (difference.stamped reading req settings.server.target) =
        .ok outcome.notification := by
  generalize hs : c.service.after events = s at hset ⊢
  obtain ⟨t, committed, ht, hcommitted, houtcome⟩ := Service.set_eq_ok hset
  obtain ⟨before, difference, hbefore, hrun, hdiff, hextend, -, hresults⟩ :=
    Transactor.transact_eq_ok hcommitted
  have hplaced := Service.placed_after (placed_start hstart) events
  have htransactor : c.service.transactor = some t := by
    rw [← Service.transactor_after c.service events, hs]
    exact ht
  have hname : s.target.name = settings.server.target := by
    rw [← hs, Service.name_after, name_of_start hstart]
  rw [hs] at hplaced
  obtain ⟨tree, htree, hplace⟩ := hplaced t ht
  have hsame : tree = before := Option.some.inj (htree.symm.trans hbefore)
  rw [hsame] at hplace
  obtain ⟨hafter, place, edits, hdescend, hedits, hleaves⟩ := SetRequest.run_spec hplace hrun
  have hsiblings : t = ⟨t.schema, siblingsOf settings⟩ := by
    rw [← (transactor_of_start hstart htransactor).1]
  refine ⟨t.schema, before, committed.tree, place, edits, difference, ?_, hbefore, ?_, hdescend,
    hedits, ?_, ?_, hdiff, ?_⟩
  · exact ht.trans (congrArg some hsiblings)
  · rw [Service.set_of_ok ht hcommitted]
    rfl
  · rw [Node.leafMap_eq_leafAt? hafter, Node.leafMap_eq_leafAt? hplace, hleaves]
  · rw [← houtcome, hresults]
    rfl
  · rw [← (transactor_of_start hstart htransactor).1, ← houtcome, ← hname]
    exact hextend

/-- The size of the packets of one interface is set, and no other leaf is written. -/
theorem set_does_leafEdits_setMtus : ∃ outcome after edits,
    start {} (some interfacesSchema) (fun _ => none) true 0 = .ok startedInterfaces ∧
      ((startedInterfaces.service.withClock 1).set (setMtus [("eth0", 1500)])).result =
        .ok outcome ∧
      ((startedInterfaces.service.withClock 1).set (setMtus [("eth0", 1500)])).service.tree =
        some after ∧
      after.leafMap = Node.emptyContainer.leafMap.editAll [] edits ∧
      outcome.results = [(mtuPath "eth0", .update)] := by
  obtain ⟨outcome, hset⟩ : ∃ outcome, ((startedInterfaces.service.withClock 1).set
      (setMtus [("eth0", 1500)])).result = .ok outcome := ⟨_, rfl⟩
  obtain ⟨_, before, after, _, edits, _, -, hbefore, hafter, -, -, hleaves, hresults, -, -⟩ :=
    set_does_leafEdits start_interfaces [] 1 (setMtus [("eth0", 1500)]) outcome hset
  have hempty : Node.emptyContainer = before := Option.some.inj hbefore
  rw [← hempty] at hleaves
  exact ⟨outcome, after, edits, start_interfaces, hset, hafter, hleaves, hresults⟩

end Telemetry.Collector
