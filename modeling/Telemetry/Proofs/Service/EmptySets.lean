import Telemetry.Proofs.Service.Committed
import Telemetry.Proofs.Transaction.Independence
import Telemetry.Proofs.Tree.Pruned

/-!
Transactions that publish nothing. They change no leaf, but they are committed like any other: the
containers, lists and entries that a request makes on its way, or takes away where they hold no
leaf, are part of the tree from then on.
-/

namespace Telemetry

section Transact

variable {t : Transactor} {now : Int64} {before : Node} {target : CacheTarget} {req : SetRequest}
  {c : Committed}

/-- A notification that is empty once it is extended to the siblings was empty before. -/
theorem Siblings.isEmpty_of_extend {s : Siblings} {n extended : Notification}
    (h : s.extend n = .ok extended) (hempty : extended.isEmpty) : n.isEmpty := by
  obtain ⟨_, _, -, -, rfl⟩ := extend_eq_ok h
  simp only [Notification.isEmpty, Bool.and_eq_true, List.isEmpty_iff,
    List.append_eq_nil_iff] at hempty ⊢
  exact ⟨hempty.1.2, hempty.2.1⟩

/-- A transaction that publishes nothing is committed with the leaves that were there. -/
theorem Transactor.sameLeaves_of_transact (hplace : Node.IsPlace t.schema.root before)
    (h : t.transact now (some before) target req = .ok c)
    (hempty : c.outcome.notification.isEmpty) : before.SameLeaves c.tree := by
  obtain ⟨_, difference, hsame, hrun, hdiff, hextend, -⟩ := transact_eq_ok h
  cases hsame
  have hstamped := Siblings.isEmpty_of_extend hextend hempty
  exact (Notification.isEmpty_ofDiff_iff hplace (SetRequest.run_spec hplace hrun).1 hdiff).mp
    hstamped

end Transact

namespace Collector

variable {settings : Settings} {given : Option Schema} {files : String → Option String}
  {isFree : Bool} {now : Int64} {c : Collector} {t : Transactor}

/-- A transaction that succeeds and publishes nothing is counted as empty. It changes no leaf, and
the trees before and after are equal without what holds no leaf. Something is changed only where
an operation takes place, or it is made on the way. -/
theorem empty_set_changes_no_leaf (hstart : start settings given files isFree now = .ok c)
    (ht : c.service.transactor = some t) (events : ServiceRun) (reading : Int64)
    (req : SetRequest) (outcome : SetOutcome)
    (hset : (((c.service.after events).withClock reading).set req).result = .ok outcome)
    (hempty : outcome.notification.isEmpty) :
    let s := (c.service.after events).withClock reading
    let reply := s.set req
    ∃ before after, s.tree = some before ∧ reply.service.tree = some after ∧
      reply.service.transactions = s.transactions.add "empty" ∧ before.SameLeaves after ∧
      (before.pruned == after.pruned) = true ∧
      ∀ moves, after.contents moves ≠ before.contents moves →
        req.TakesPlaceAt t.schema.root moves ∨ before.contents moves = none ∧
          (∃ content, after.contents moves = some content ∧ content.IsInner) ∧
            req.MakesWayAt t.schema.root moves := by
  intro s reply
  obtain ⟨before, hbefore, hvalid⟩ := isValid_after hstart ht events
  have hservice : s.transactor = some t := (Service.transactor_after _ _).trans ht
  have htree : s.tree = some before := hbefore
  obtain ⟨_, committed, hother, hcommitted, rfl⟩ := Service.set_eq_ok hset
  cases Option.some.inj (hservice.symm.trans hother)
  have hreply := Service.set_of_ok (s := s) hservice hcommitted
  change t.transact s.now s.tree s.target req = .ok committed at hcommitted
  rw [htree] at hcommitted
  obtain ⟨_, _, hsame, hrun, -⟩ := Transactor.transact_eq_ok hcommitted
  cases hsame
  have hplace := (SetRequest.run_spec hvalid.place hrun).1
  have hleaves := Transactor.sameLeaves_of_transact hvalid.place hcommitted hempty
  refine ⟨before, committed.tree, htree, ?_, ?_, hleaves,
    Node.beq_pruned_of_sameLeaves hvalid.place hplace hleaves,
    fun moves => SetRequest.contents_of_run hvalid.place hrun⟩
  · exact congrArg (fun reply => reply.service.tree) hreply
  · have hlabel : Service.outcomeLabel (.ok committed.outcome) = "empty" := by
      rw [Service.outcomeLabel, if_pos hempty]
    rw [← hlabel]
    exact congrArg (fun reply => reply.service.transactions) hreply

def nameInterface (name : String) : SetRequest :=
  ⟨some (interfacePath name), [], [], []⟩

/-- An interface that is named next to another one. -/
theorem empty_set_changes_no_leaf_nameInterface :
    let s := (startedInterfaces.service.after [(1, .set (setMtus [("eth0", 1500)]))]).withClock 2
    let reply := s.set (nameInterface "eth1")
    ∃ before after, s.tree = some before ∧ reply.service.tree = some after ∧
      reply.service.transactions = s.transactions.add "empty" ∧ before.SameLeaves after ∧
      (before.pruned == after.pruned) = true := by
  intro s reply
  have hquiet : (reply.result.toOption.any (·.notification.isEmpty)) = true := by decide +kernel
  obtain ⟨outcome, hset, hempty⟩ := (Option.any_eq_true _ _).mp hquiet
  rw [toOption_eq_some] at hset
  obtain ⟨before, after, hbefore, hafter, hcount, hleaves, hpruned, -⟩ :=
    empty_set_changes_no_leaf start_interfaces rfl [(1, .set (setMtus [("eth0", 1500)]))] 2
      (nameInterface "eth1") outcome hset hempty
  dsimp only [reply, s]
  exact ⟨before, after, hbefore, hafter, hcount, hleaves, hpruned⟩

/-- The first interface that is named is in the tree from then on. -/
theorem empty_set_makes_interface :
    let s := startedInterfaces.service.withClock 1
    let reply := s.set (nameInterface "eth0")
    start {} (some interfacesSchema) (fun _ => none) true 0 = .ok startedInterfaces ∧
      (∃ outcome, reply.result = .ok outcome ∧ outcome.notification.isEmpty) ∧
      reply.service.transactions = s.transactions.add "empty" ∧
      ∃ before after, s.tree = some before ∧ reply.service.tree = some after ∧
        (before == after) = false := by
  intro s reply
  exact ⟨start_interfaces, ⟨_, rfl, rfl⟩, rfl, _, _, rfl, rfl, rfl⟩

end Collector

end Telemetry
