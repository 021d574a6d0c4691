import Telemetry.Proofs.Service.SpelledOut
import Telemetry.Proofs.Transaction.Independence

/-!
Independent transactions. If two of them are committed in either order, then both orders leave the
same tree, whatever the one finds that the other has made or taken away around it.
-/

namespace Telemetry

/-- A transaction that is committed leaves what its request makes of the tree. -/
theorem Service.run_of_set {s : Service} {t : Transactor} {tree : Node} {req : SetRequest}
    {outcome : SetOutcome} (ht : s.transactor = some t) (htree : s.tree = some tree)
    (hvalid : Node.IsValid t.schema.root tree) (h : (s.set req).result = .ok outcome) :
    ∃ after, req.run t.schema.root tree = .ok after ∧ Node.IsValid t.schema.root after ∧
      (s.set req).service.tree = some after ∧ (s.set req).service.transactor = some t := by
  obtain ⟨_, committed, hother, hcommitted, -⟩ := set_eq_ok h
  cases Option.some.inj (ht.symm.trans hother)
  rw [htree] at hcommitted
  obtain ⟨_, -, hsame, hrun, -⟩ := Transactor.transact_eq_ok hcommitted
  cases hsame
  have hset := set_of_ok ht (htree ▸ hcommitted)
  refine ⟨committed.tree, hrun, Transactor.isValid_transact hvalid hcommitted, ?_, ?_⟩
  · exact congrArg (fun reply => reply.service.tree) hset
  · exact (sameKind_perform s (.set req)).1.trans ht

namespace Collector

variable {settings : Settings} {given : Option Schema} {files : String → Option String}
  {isFree : Bool} {now : Int64} {c : Collector} {t : Transactor}

/-- Two independent requests that are committed in both orders leave the same tree. -/
theorem independent_sets_commute (hstart : start settings given files isFree now = .ok c)
    (ht : c.service.transactor = some t) (events : ServiceRun) (req other : SetRequest)
    (hindependent : req.Independent other t.schema.root) (a b a' b' : Int64) :
    let s := c.service.after events
    let first := (s.withClock a).set req
    let second := (first.service.withClock b).set other
    let first' := (s.withClock a').set other
    let second' := (first'.service.withClock b').set req
    (∃ outcome, first.result = .ok outcome) → (∃ outcome, second.result = .ok outcome) →
      (∃ outcome, first'.result = .ok outcome) → (∃ outcome, second'.result = .ok outcome) →
      ∃ tree, second.service.tree = some tree ∧ second'.service.tree = some tree := by
  intro s first second first' second'
  rintro ⟨_, hfirst⟩ ⟨_, hsecond⟩ ⟨_, hfirst'⟩ ⟨_, hsecond'⟩
  obtain ⟨before, hbefore, hvalid⟩ := isValid_after hstart ht events
  have hservice : s.transactor = some t := (Service.transactor_after _ _).trans ht
  obtain ⟨_, hrun, hvalidFirst, htree, hkind⟩ :=
    Service.run_of_set (s := s.withClock a) hservice hbefore hvalid hfirst
  obtain ⟨tree, hthen, -, hresult, -⟩ :=
    Service.run_of_set (s := first.service.withClock b) hkind htree hvalidFirst hsecond
  obtain ⟨_, hrun', hvalidFirst', htree', hkind'⟩ :=
    Service.run_of_set (s := s.withClock a') hservice hbefore hvalid hfirst'
  obtain ⟨tree', hthen', -, hresult', -⟩ :=
    Service.run_of_set (s := first'.service.withClock b') hkind' htree' hvalidFirst' hsecond'
  have hsame := SetRequest.run_comm hvalid.place hindependent hrun hthen hrun' hthen'
  exact ⟨tree, hresult, hsame ▸ hresult'⟩

/-- The only interface is removed, and another one is made by what is set relative to it. -/
theorem independent_sets_commute_interfaces :
    let s := startedInterfaces.service.after [(1, .set (setMtus [("eth0", 1500)]))]
    let first := (s.withClock 2).set (deleteInterface "eth0")
    let second := (first.service.withClock 3).set (setMtuBelow "eth1" 9000)
    let first' := (s.withClock 4).set (setMtuBelow "eth1" 9000)
    let second' := (first'.service.withClock 5).set (deleteInterface "eth0")
    ∃ tree, second.service.tree = some tree ∧ second'.service.tree = some tree := by
  have hindependent : (deleteInterface "eth0").Independent (setMtuBelow "eth1" 9000)
      interfacesSchema.root := by
    have hdeletes : (deleteInterface "eth0").paths = [(interfacePath "eth0").elems] := rfl
    have hsets : (setMtuBelow "eth1" 9000).paths = [(mtuPath "eth1").elems] := rfl
    have hapart : ∀ {path other : List PathElem}, Path.covers path other = false →
        ¬ interfacesSchema.root.AtOrAbove path other := by
      intro path other hcovers h
      rw [h.covers] at hcovers
      cases hcovers
    simp only [SetRequest.Independent, SetRequest.KeepsOff, hdeletes, hsets, List.mem_singleton,
      forall_eq]
    refine ⟨⟨hapart ?_, hapart ?_⟩, hapart ?_, hapart ?_⟩ <;> decide +kernel
  have hok : ∀ {ε α : Type} {result : Except ε α}, result.isOk = true → ∃ a, result = .ok a := by
    intro ε α result h
    cases result with
    | error e => cases h
    | ok a => exact ⟨a, rfl⟩
  refine independent_sets_commute start_interfaces rfl
    [(1, .set (setMtus [("eth0", 1500)]))] (deleteInterface "eth0")
    (setMtuBelow "eth1" 9000) hindependent 2 3 4 5 (hok ?_) (hok ?_) (hok ?_) (hok ?_) <;>
    decide +kernel

end Collector

end Telemetry
