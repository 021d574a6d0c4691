import Telemetry.Proofs.Service.Committed
import Telemetry.Proofs.Transaction.Effects

/-!
Transactions that are done twice. What a request writes does not depend on the tree, so the
second time finds the tree as the first one left it, whatever was ingested in between. Only a
delete of a path that is not accepted may go through at first, where the tree does not reach that
far, and be refused once the request itself has made the nodes above.
-/

namespace Telemetry

namespace Notification

/-- A tree does not differ from itself; without finite values it would. -/
theorem isEmpty_ofDiff_self {schema : SchemaNode} {tree : Node}
    (hvalid : Node.IsValid schema tree) :
    ∃ difference, ofDiff tree tree = .ok difference ∧ difference.deletes = [] ∧
      difference.updates = [] := by
  obtain ⟨children, rfl⟩ := hvalid.place.isContainer
  obtain ⟨difference, hdiff⟩ :
      ∃ difference, ofDiff (.container children) (.container children) = .ok difference :=
    ⟨_, rfl⟩
  refine ⟨difference, hdiff, ?_, ?_⟩
  · refine List.eq_nil_iff_forall_not_mem.mpr ?_
    intro path hpath
    obtain ⟨elems, -, ⟨value, hvalue⟩, hgone⟩ :=
      (mem_deletes_ofDiff hvalid.place hvalid.place hdiff).mp hpath
    rw [hvalue] at hgone
    cases hgone
  · refine List.eq_nil_iff_forall_not_mem.mpr ?_
    intro update hupdate
    obtain ⟨elems, value, -, hvalue, hchanged⟩ :=
      (mem_updates_ofDiff hvalid.place hvalid.place hdiff).mp hupdate
    have hself := LeafValue.beq_self_of_isFinite (hvalid.finite elems value hvalue)
    rw [hchanged value hvalue] at hself
    cases hself

end Notification

namespace Transactor

variable {t : Transactor} {tree : Node} {req : SetRequest}

/-- A request that changes nothing is committed and publishes nothing. -/
theorem transact_of_run_self (hvalid : Node.IsValid t.schema.root tree)
    (h : req.run t.schema.root tree = .ok tree) (now : Int64) (target : CacheTarget) :
    ∃ c, t.transact now (some tree) target req = .ok c ∧ c.tree = tree ∧
      c.outcome.notification.deletes = [] ∧ c.outcome.notification.updates = [] := by
  obtain ⟨difference, hdiff, hdeletes, hupdates⟩ := Notification.isEmpty_ofDiff_self hvalid
  have hchecked := Node.validate_eq_ok_iff_conforms.mpr hvalid.conforms
  let emptied : Notification :=
    { difference.stamped now req target.name with deletes := [], updates := [] }
  have hextend : t.siblings.extend (difference.stamped now req target.name) = .ok emptied := by
    simp [Siblings.extend, emptied, Notification.stamped, hdeletes, hupdates, pure, Except.pure,
      bind, Except.bind]
  obtain ⟨⟨after, changes⟩, happly⟩ : ∃ applied, target.apply emptied = .ok applied := ⟨_, rfl⟩
  exact ⟨_, transact_of_stages h hchecked hdiff hextend happly, rfl, rfl, rfl⟩

end Transactor

/-- A transaction that fails or changes nothing leaves the tree as it is. -/
theorem Service.set_of_run_self {s : Service} {t : Transactor} {tree : Node} {req : SetRequest}
    {P : SetError → Prop} (ht : s.transactor = some t) (htree : s.tree = some tree)
    (hvalid : Node.IsValid t.schema.root tree)
    (h : req.run t.schema.root tree = .ok tree ∨
      ∃ e, req.run t.schema.root tree = .error e ∧ P e) :
    (s.set req).service.tree = some tree ∧
      ((∃ outcome, (s.set req).result = .ok outcome ∧ outcome.notification.deletes = [] ∧
          outcome.notification.updates = []) ∨
        ∃ e, (s.set req).result = .error e ∧ P e) := by
  rcases h with hrun | ⟨e, hrun, he⟩
  · obtain ⟨c, hc, hsame, hdeletes, hupdates⟩ :=
      Transactor.transact_of_run_self hvalid hrun s.now s.target
    rw [← htree] at hc
    rw [set_of_ok ht hc]
    exact ⟨congrArg some hsame, Or.inl ⟨c.outcome, rfl, hdeletes, hupdates⟩⟩
  · have herror : t.transact s.now s.tree s.target req = .error e :=
      Transactor.transact_eq_error_iff.mpr (htree ▸ .operations hrun)
    rw [set_of_error ht herror]
    exact ⟨htree, Or.inr ⟨e, rfl, he⟩⟩

namespace Collector

variable {settings : Settings} {given : Option Schema} {files : String → Option String}
  {isFree : Bool} {now : Int64} {c : Collector} {t : Transactor}

/-- A transaction that succeeded is done again, after anything but another transaction: it leaves
the tree as it is, and it succeeds and publishes nothing unless it is refused for a delete of a
path that is not accepted. -/
theorem set_again (hstart : start settings given files isFree now = .ok c)
    (ht : c.service.transactor = some t) (events : ServiceRun) (reading : Int64)
    (req : SetRequest) (outcome : SetOutcome)
    (hset : (((c.service.after events).withClock reading).set req).result = .ok outcome)
    (between : ServiceRun) (hbetween : ∀ event ∈ between, ∀ other, event.2 ≠ .set other)
    (again : Int64) :
    let first := ((c.service.after events).withClock reading).set req
    let second := ((first.service.after between).withClock again).set req
    ∃ place tree, req.RunsAt t.schema.root place ∧
      first.service.tree = some tree ∧ second.service.tree = some tree ∧
      ((∃ repeated, second.result = .ok repeated ∧ repeated.notification.deletes = [] ∧
          repeated.notification.updates = []) ∨
        ∃ e, second.result = .error e ∧ SetRequest.RefusesDelete place req.deletes e) := by
  intro first second
  obtain ⟨before, hbefore, hvalid⟩ := isValid_after hstart ht events
  have hservice : (c.service.after events).transactor = some t :=
    (Service.transactor_after _ _).trans ht
  generalize hs : c.service.after events = s at hset hbefore hservice
  obtain ⟨_, committed, hother, hcommitted, -⟩ := Service.set_eq_ok hset
  cases Option.some.inj (hservice.symm.trans hother)
  change t.transact reading s.tree s.target req = .ok committed at hcommitted
  rw [hbefore] at hcommitted
  have hcommittedValid := Transactor.isValid_transact hvalid hcommitted
  obtain ⟨_, -, hsame, hrun, -⟩ := Transactor.transact_eq_ok hcommitted
  cases hsame
  obtain ⟨place, hat⟩ := SetRequest.runsAt_of_run hvalid.place hrun
  have hfirst : first.service.tree = some committed.tree := by
    have hset := Service.set_of_ok (s := s.withClock reading) hservice (hbefore ▸ hcommitted)
    rw [← hs] at hset
    exact congrArg (fun reply => reply.service.tree) hset
  have htransactor : ((first.service.after between).withClock again).transactor = some t := by
    refine (Service.transactor_after _ _).trans ?_
    exact (Service.sameKind_perform ((c.service.after events).withClock reading)
      (.set req)).1.trans (hs ▸ hservice)
  have htree : ((first.service.after between).withClock again).tree = some committed.tree :=
    (Service.tree_after_of_no_set hbetween).trans hfirst
  refine ⟨place, committed.tree, hat, hfirst, ?_⟩
  exact Service.set_of_run_self htransactor htree hcommittedValid
    (SetRequest.run_again hvalid.place hat hrun)

/-- The size of the packets of an interface is set again after it was removed from the cache. -/
theorem set_again_setMtus :
    let first := (startedInterfaces.service.withClock 1).set (setMtus [("eth0", 1500)])
    let second := ((first.service.after
      [(2, .ingest false [.update ⟨2, none, [], [mtuPath "eth0"], false⟩])]).withClock 3).set
        (setMtus [("eth0", 1500)])
    ∃ tree repeated, first.service.tree = some tree ∧ second.service.tree = some tree ∧
      second.result = .ok repeated ∧ repeated.notification.deletes = [] ∧
      repeated.notification.updates = [] := by
  intro first second
  obtain ⟨outcome, hset⟩ : ∃ outcome, first.result = .ok outcome := ⟨_, rfl⟩
  have hingest : ∀ event ∈ ([(2, .ingest false [.update ⟨2, none, [], [mtuPath "eth0"], false⟩])] :
      ServiceRun), ∀ other, event.2 ≠ .set other := by
    intro event hevent other
    rw [List.mem_singleton.mp hevent]
    intro h
    cases h
  obtain ⟨place, tree, -, hfirst, hsecond, hresult⟩ :=
    set_again start_interfaces rfl [] 1 (setMtus [("eth0", 1500)]) outcome hset _ hingest 3
  rcases hresult with ⟨repeated, hrepeated⟩ | ⟨e, -, path, cause, hpath, -⟩
  · exact ⟨tree, repeated, hfirst, hsecond, hrepeated⟩
  · cases hpath

def deleteUnknownAndSet : SetRequest :=
  ⟨none, [.ofElems [.plain "interfaces", .plain "unknown"]], [], [.of (mtuPath "eth0") (.uint 1)]⟩

/-- It succeeds as long as there are no interfaces, and is refused when it is done again. -/
theorem set_again_is_refused :
    let first := (startedInterfaces.service.withClock 1).set deleteUnknownAndSet
    let second := (first.service.withClock 2).set deleteUnknownAndSet
    start {} (some interfacesSchema) (fun _ => none) true 0 = .ok startedInterfaces ∧
      (∃ outcome, first.result = .ok outcome) ∧ ∃ e, second.result = .error e := by
  intro first second
  exact ⟨start_interfaces, ⟨_, rfl⟩, ⟨_, rfl⟩⟩

end Collector

end Telemetry
