import Telemetry.Proofs.Cache.Viewing
import Telemetry.Proofs.Transaction.Publication

/-!
Where the nodes of a schema have names, transactions publish paths of named elements.
-/

namespace Telemetry

namespace SchemaNode

def Named (schema : SchemaNode) : Prop :=
  ∀ elems, (schema.descend elems).isSome → Path.Named elems

theorem named_iff {schema : SchemaNode} : schema.Named ↔
    ∀ name child, schema.child? name = some child → name ≠ "" ∧ child.Named := by
  constructor
  · intro h name child hchild
    have hdescend := descend_plain hchild
    refine ⟨?_, ?_⟩
    · have hsome : (schema.descend [PathElem.plain name]).isSome := by
        rw [hdescend]
        rfl
      exact h _ hsome (PathElem.plain name) List.mem_cons_self
    · intro elems helems elem helem
      rw [← hdescend] at helems
      exact h _ helems elem (List.mem_cons_of_mem _ helem)
  · intro h elems helems elem helem
    cases elems with
    | nil => cases helem
    | cons first rest =>
      rw [descend] at helems
      obtain ⟨node, hnode⟩ := Option.isSome_iff_exists.mp helems
      obtain ⟨child, hchild, hrest⟩ := Option.bind_eq_some_iff.mp hnode
      obtain ⟨hname, hnamed⟩ := h first.name child hchild
      rcases List.mem_cons.mp helem with rfl | helem
      · exact hname
      · exact hnamed rest (by rw [hrest]; rfl) elem helem

theorem named_leafOf (type : LeafType) : (leafOf type).Named := by
  refine named_iff.mpr ?_
  intro name child hchild
  cases hchild

theorem named_of_field {schema child : SchemaNode} {name : String} (hname : name ≠ "")
    (hfields : schema.fields = [(name, child)]) (h : child.Named) : schema.Named := by
  refine named_iff.mpr ?_
  intro other found hfound
  rw [schema.child?_eq_get?_fields, hfields] at hfound
  obtain ⟨rfl, rfl⟩ := Prod.mk.inj (List.mem_singleton.mp (SortedMap.mem_of_get?_eq_some hfound))
  exact ⟨hname, h⟩

end SchemaNode

theorem Transactor.named_of_transact {t : Transactor} {now : Int64} {before : Node}
    {target : CacheTarget} {req : SetRequest} {c : Committed} (hschema : t.schema.root.Named)
    (hconfig : t.siblings.config ≠ "") (hplace : Node.IsPlace t.schema.root before)
    (h : t.transact now (some before) target req = .ok c) : c.outcome.notification.Named := by
  have hpublishes := publishes_of_transact hplace h
  obtain ⟨_, _, hsame, hrun, -⟩ := transact_eq_ok h
  cases hsame
  have hafter := (SetRequest.run_spec hplace hrun).1
  refine ⟨?_, ?_⟩
  · rw [hpublishes.base]
    intro elem helem
    cases helem
  · intro update hupdate path hpath
    obtain ⟨elems, value, copy, hgained, hcopy, rfl⟩ := (hpublishes.updates update).mp hupdate
    obtain ⟨leafSchema, hdescend⟩ := Node.descend_of_leafAt? hafter hgained.1
    have helems : Path.Named elems := hschema elems (by rw [hdescend]; rfl)
    cases hpath
    exact Siblings.forall_mem_of_mem_copies (fun _ _ => hconfig) helems hcopy

end Telemetry
