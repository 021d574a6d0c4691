import Telemetry.Proofs.Tree.Breaches
import Telemetry.Proofs.Tree.Merges
import Telemetry.Proofs.Tree.Scalars

/-!
The keys of list entries. Entries are made in two ways: at the keys of a path element, which are as
many as the list declares and have each declared name, and from the items of an array, whose keys
have the declared names and no other. Mutators make entries in no other way, and never change the
keys of one.
-/

namespace Telemetry

inductive Mutation where
  | put (path : Path) (value : TypedValue)
  | create (path : Path)

namespace Mutation

def path : Mutation → Path
  | put path _ => path
  | create path => path

def applyTo (schema : SchemaNode) (root : Node) : Mutation → Node
  | put path value => (root.put schema path value).2
  | create path => (root.create schema path).2

def build (schema : SchemaNode) (calls : List Mutation) : Node :=
  calls.foldl (applyTo schema) Node.emptyContainer

end Mutation

def Keys.NamedBy (names : List String) (key : Keys) : Prop :=
  ∀ name, name ∈ SortedMap.keys key ↔ name ∈ names

namespace Node

/-- Some list at or below a node has an entry with some keys, and declares some names. -/
inductive HasEntry : SchemaNode → Node → List String → Keys → Prop
  | own {names : List String} {max : Option UInt64} {schemas : List (String × SchemaNode)}
      {entries : List (Keys × Node)} {key : Keys} {entry : Node} (mem : (key, entry) ∈ entries) :
      HasEntry (.list names max schemas) (.list entries) names key
  | child {schema childSchema : SchemaNode} {children : List (String × Node)} {name : String}
      {child : Node} {names : List String} {key : Keys} (mem : (name, child) ∈ children)
      (known : schema.child? name = some childSchema)
      (below : HasEntry childSchema child names key) :
      HasEntry schema (.container children) names key
  | entry {declared : List String} {max : Option UInt64} {schemas : List (String × SchemaNode)}
      {entries : List (Keys × Node)} {other : Keys} {entry : Node} {names : List String}
      {key : Keys} (mem : (other, entry) ∈ entries)
      (below : HasEntry (.list declared max schemas) entry names key) :
      HasEntry (.list declared max schemas) (.list entries) names key

/-- What holds of the names and keys of each entry at or below a node. -/
def EachEntry (P : List String → Keys → Prop) (schema : SchemaNode) (node : Node) : Prop :=
  ∀ names key, HasEntry schema node names key → P names key

namespace EachEntry

variable {P : List String → Keys → Prop} {schema childSchema : SchemaNode}
  {children : List (String × Node)} {name : String} {sub : Node} {names : List String}
  {max : Option UInt64} {schemas : List (String × SchemaNode)} {entries : List (Keys × Node)}
  {key : Keys}

theorem leaf (schema : SchemaNode) (value : LeafValue) : EachEntry P schema (.leaf value) := by
  rintro names key ⟨⟩

theorem emptyContainer (schema : SchemaNode) : EachEntry P schema emptyContainer := by
  rintro names key (_ | ⟨⟨⟩, _, _⟩)

theorem emptyList (schema : SchemaNode) : EachEntry P schema emptyList := by
  rintro names key (⟨⟨⟩⟩ | _ | ⟨⟨⟩, _⟩)

theorem child (h : EachEntry P schema (.container children))
    (hknown : schema.child? name = some childSchema) {empty : Node}
    (hempty : EachEntry P childSchema empty) :
    EachEntry P childSchema ((SortedMap.get? children name).getD empty) := by
  cases hget : SortedMap.get? children name with
  | none => exact hempty
  | some child =>
    intro names key hbelow
    exact h names key (.child (SortedMap.mem_of_get?_eq_some hget) hknown hbelow)

theorem entry (h : EachEntry P (.list names max schemas) (.list entries)) (key : Keys) :
    EachEntry P (.list names max schemas)
      ((SortedMap.get? entries key).getD Node.emptyContainer) := by
  cases hget : SortedMap.get? entries key with
  | none => exact emptyContainer _
  | some entry =>
    intro declared other hbelow
    exact h declared other (.entry (SortedMap.mem_of_get?_eq_some hget) hbelow)

theorem insertChild (h : EachEntry P schema (.container children))
    (hknown : schema.child? name = some childSchema) (hsub : EachEntry P childSchema sub) :
    EachEntry P schema (.container (SortedMap.insert children name sub)) := by
  rintro declared key (_ | ⟨mem, known, below⟩)
  rcases SortedMap.mem_insert mem with hsame | hmem
  · cases hsame
    cases hknown.symm.trans known
    exact hsub declared key below
  · exact h declared key (.child hmem known below)

theorem insertEntry (h : EachEntry P (.list names max schemas) (.list entries))
    (hkey : P names key) (hsub : EachEntry P (.list names max schemas) sub) :
    EachEntry P (.list names max schemas) (.list (SortedMap.insert entries key sub)) := by
  rintro declared other (mem | _ | ⟨mem, below⟩)
  · rcases SortedMap.mem_insert mem with hsame | hmem
    · cases hsame
      exact hkey
    · exact h names other (.own hmem)
  · rcases SortedMap.mem_insert mem with hsame | hmem
    · cases hsame
      exact hsub declared other below
    · exact h declared other (.entry hmem below)

end EachEntry

section Merging

variable {P : List String → Keys → Prop}

def HoldsOfItems (P : List String → Keys → Prop) : Prop :=
  ∀ place fields names pairs, entryKeys place fields names = .ok pairs →
    P names (SortedMap.ofList pairs)

mutual

theorem ObjectMerge.eachEntry {json : Json} {schema : SchemaNode} {place : String}
    {entry : Option Keys} {node merged : Node} {result : Except TreeError Unit}
    (hitems : HoldsOfItems P)
    (hmerge : ObjectMerge json schema place entry node result merged)
    (h : EachEntry P schema node) : EachEntry P schema merged := by
  match hmerge, h with
  | .fields hfields, h => exact hfields.eachEntry hitems h
  | .notContainer _, h => exact h
  | .notObject _, h => exact h

theorem FieldsMerge.eachEntry {fields : List (String × Json)} {schema : SchemaNode}
    {place : String} {entry : Option Keys} {children merged : List (String × Node)}
    {result : Except TreeError Unit} (hitems : HoldsOfItems P)
    (hmerge : FieldsMerge fields schema place entry children result merged)
    (h : EachEntry P schema (.container children)) : EachEntry P schema (.container merged) := by
  match hmerge, h with
  | .done, h => exact h
  | .stop hfield, h => exact hfield.eachEntry hitems h
  | .next hfield hothers, h => exact hothers.eachEntry hitems (hfield.eachEntry hitems h)

theorem FieldMerge.eachEntry {raw : String} {value : Json} {schema : SchemaNode}
    {place : String} {entry : Option Keys} {children merged : List (String × Node)}
    {result : Except TreeError Unit} (hitems : HoldsOfItems P)
    (hmerge : FieldMerge raw value schema place entry children result merged)
    (h : EachEntry P schema (.container children)) : EachEntry P schema (.container merged) := by
  match hmerge, h with
  | .key _, h => exact h
  | .unknown _ _, h => exact h
  | .noScalar _ _ _, h => exact h
  | .leaf _ hknown _, h => exact h.insertChild hknown (.leaf _ _)
  | .container _ hknown hobject, h =>
    exact h.insertChild hknown (hobject.eachEntry hitems (h.child hknown (.emptyContainer _)))
  | .list _ hknown hlist, h =>
    exact h.insertChild hknown (hlist.eachEntry hitems (h.child hknown (.emptyList _)))

theorem ListMerge.eachEntry {json : Json} {names : List String} {max : Option UInt64}
    {schemas : List (String × SchemaNode)} {place : String} {node merged : Node}
    {result : Except TreeError Unit} (hitems : HoldsOfItems P)
    (hmerge : ListMerge json names max schemas place node result merged)
    (h : EachEntry P (.list names max schemas) node) :
    EachEntry P (.list names max schemas) merged := by
  match hmerge, h with
  | .items harray, h => exact harray.eachEntry hitems h
  | .notList _, h => exact h
  | .notArray _, h => exact h

theorem ItemsMerge.eachEntry {items : List Json} {names : List String} {max : Option UInt64}
    {schemas : List (String × SchemaNode)} {place : String} {entries merged : List (Keys × Node)}
    {result : Except TreeError Unit} (hitems : HoldsOfItems P)
    (hmerge : ItemsMerge items names max schemas place entries result merged)
    (h : EachEntry P (.list names max schemas) (.list entries)) :
    EachEntry P (.list names max schemas) (.list merged) := by
  match hmerge, h with
  | .done, h => exact h
  | .stop hfirst, h => exact hfirst.eachEntry hitems h
  | .next hfirst hothers, h => exact hothers.eachEntry hitems (hfirst.eachEntry hitems h)

theorem ItemMerge.eachEntry {item : Json} {names : List String} {max : Option UInt64}
    {schemas : List (String × SchemaNode)} {place : String} {entries merged : List (Keys × Node)}
    {result : Except TreeError Unit} (hitems : HoldsOfItems P)
    (hmerge : ItemMerge item names max schemas place entries result merged)
    (h : EachEntry P (.list names max schemas) (.list entries)) :
    EachEntry P (.list names max schemas) (.list merged) := by
  match hmerge, h with
  | .notObject _, h => exact h
  | .noKeys _, h => exact h
  | .entry hread hobject, h =>
    exact h.insertEntry (hitems _ _ _ _ hread) (hobject.eachEntry hitems (h.entry _))

end

end Merging

section Editing

variable {P : List String → Keys → Prop} {schema childSchema : SchemaNode} {node sub : Node}
  {path : Path} {elem last : PathElem} {step : Step}

/-- What holds of the keys of an element where they are those that a list asks for. -/
def HoldsOfElem (P : List String → Keys → Prop) (elem : PathElem) : Prop :=
  ∀ names max schemas full, (SchemaNode.list names max schemas).requireKeys full elem = .ok () →
    P names elem.keys

theorem eachEntry_enter (hleads : SchemaNode.Leads schema elem childSchema step)
    (h : EachEntry P schema node) {create : Bool} {full : Path} {depth : Nat}
    (henter : node.enter create full depth step = .ok (some sub)) :
    EachEntry P childSchema sub := by
  have hmade : ∀ {found : Option Node}, found = (if create then some emptyContainer else none) →
      found = some sub → EachEntry P childSchema sub := by
    rintro found rfl hfound
    cases create with
    | false => cases hfound
    | true =>
      cases hfound
      exact .emptyContainer childSchema
  cases node with
  | list entries => cases henter
  | leaf value => cases henter
  | container children =>
    cases hleads with
    | container hchild noKeys =>
      have hbelow := h.child hchild (.emptyContainer _)
      simp only [enter] at henter
      cases hget : SortedMap.get? children elem.name with
      | none =>
        rw [hget] at henter
        exact hmade rfl (Except.ok.inj henter)
      | some child =>
        rw [hget] at henter hbelow
        cases henter
        exact hbelow
    | entry hchild =>
      have hbelow := h.child hchild (.emptyList _)
      simp only [enter] at henter
      cases hget : SortedMap.get? children elem.name with
      | none =>
        rw [hget] at henter
        exact hmade rfl (Except.ok.inj henter)
      | some child =>
        rw [hget] at henter hbelow
        cases child with
        | container children => cases henter
        | leaf value => cases henter
        | list entries =>
          have hentry := EachEntry.entry hbelow elem.keys
          simp only at henter
          cases hfound : SortedMap.get? entries elem.keys with
          | none =>
            rw [hfound] at henter
            exact hmade rfl (Except.ok.inj henter)
          | some entry =>
            rw [hfound] at henter hentry
            cases henter
            exact hentry

theorem eachEntry_store (hleads : SchemaNode.Leads schema elem childSchema step)
    (hkeys : ∀ names max schemas, childSchema = .list names max schemas → P names elem.keys)
    (h : EachEntry P schema node) (hsub : EachEntry P childSchema sub) :
    EachEntry P schema (node.store step sub) := by
  cases node with
  | list entries => exact h
  | leaf value => exact h
  | container children =>
    cases hleads with
    | container hchild noKeys => exact h.insertChild hchild hsub
    | entry hchild =>
      have hbelow := h.child hchild (.emptyList _)
      rw [store]
      refine h.insertChild hchild (EachEntry.insertEntry ?_ (hkeys _ _ _ rfl) hsub)
      cases hget : SortedMap.get? children elem.name with
      | none => exact .emptyList _
      | some child =>
        rw [hget] at hbelow
        cases child with
        | list entries => exact hbelow
        | container children => exact .emptyList _
        | leaf value => exact .emptyList _

/-- Where a path passes through a list it gives the keys that the list asks for. -/
theorem holds_of_stepInto {full : Path} {depth : Nat} (hkeys : HoldsOfElem P elem)
    (hstep : schema.stepInto full depth elem = .ok (childSchema, step)) :
    ∀ names max schemas, childSchema = .list names max schemas → P names elem.keys := by
  rintro names max schemas rfl
  obtain ⟨child, hchild, hstep⟩ := bind_eq_ok.mp hstep
  obtain ⟨_, hpassable, hstep⟩ := bind_eq_ok.mp hstep
  cases hstep
  by_cases hnone : elem.keys = []
  · simp [SchemaNode.requirePassable, hnone] at hpassable
  · refine hkeys names max schemas full ?_
    simpa [SchemaNode.requirePassable, hnone] using hpassable

theorem eachEntry_editBelow {α : Type} {edit : ChildEdit α}
    (hedit : ∀ schema children, EachEntry P schema (.container children) →
      EachEntry P schema (.container (edit schema children).2)) (create : Bool) (full : Path)
    (depth : Nat) {elems : List PathElem} (hkeys : ∀ elem ∈ elems, HoldsOfElem P elem)
    (h : EachEntry P schema node) :
    EachEntry P schema (editBelow create full edit schema node depth elems).2 := by
  induction elems generalizing schema node depth with
  | nil =>
    cases node with
    | container children => exact hedit schema children h
    | list entries => exact h
    | leaf value => exact h
  | cons elem rest ih =>
    unfold editBelow
    cases hstep : schema.stepInto full depth elem with
    | error e => exact h
    | ok target =>
      obtain ⟨childSchema, step⟩ := target
      have hleads := SchemaNode.leads_of_stepInto hstep
      simp only
      cases henter : node.enter create full depth step with
      | error e => exact h
      | ok found =>
        cases found with
        | none => exact h
        | some sub =>
          exact eachEntry_store hleads
            (holds_of_stepInto (hkeys elem List.mem_cons_self) hstep) h
            (ih (depth + 1) (fun other hother => hkeys other (List.mem_cons_of_mem elem hother))
              (eachEntry_enter hleads h henter))

theorem eachEntry_createLast (hkeys : HoldsOfElem P last) (schema : SchemaNode)
    (children : List (String × Node)) (h : EachEntry P schema (.container children)) :
    EachEntry P schema (.container (createLast path last schema children).2) := by
  unfold createLast
  cases hchild : schema.childFor path (path.elems.length - 1) last with
  | error e => exact h
  | ok childSchema =>
    have hget := SchemaNode.childFor_eq_ok.mp hchild
    cases childSchema with
    | leaf leafSchema => exact h
    | container schemas =>
      simp only
      cases SchemaNode.requireNoKeys path last with
      | error e => exact h
      | ok => exact h.insertChild hget (h.child hget (.emptyContainer _))
    | list names max schemas =>
      have hlist := h.child hget (.emptyList _)
      have hlisted := h.insertChild hget hlist
      simp only
      split
      · exact hlisted
      · split
        · exact hlisted
        · rename_i entries hrequire hentries
          rw [hentries] at hlist
          exact h.insertChild hget
            (EachEntry.insertEntry hlist (hkeys _ _ _ _ hrequire) (EachEntry.entry hlist last.keys))
        · exact hlisted

theorem eachEntry_putLast (hitems : HoldsOfItems P) (hkeys : HoldsOfElem P last)
    (value : TypedValue) (schema : SchemaNode) (children : List (String × Node))
    (h : EachEntry P schema (.container children)) :
    EachEntry P schema (.container (putLast path last value schema children).2) := by
  unfold putLast
  cases hchild : schema.childFor path (path.elems.length - 1) last with
  | error e => exact h
  | ok childSchema =>
    have hget := SchemaNode.childFor_eq_ok.mp hchild
    cases childSchema with
    | leaf leafSchema =>
      simp only
      cases SchemaNode.requireNoKeys path last with
      | error e => exact h
      | ok =>
        simp only
        cases LeafValue.ofTyped leafSchema.type value path.text with
        | error e => exact h
        | ok scalar => exact h.insertChild hget (.leaf _ scalar)
    | container schemas =>
      simp only
      cases SchemaNode.requireNoKeys path last with
      | error e => exact h
      | ok =>
        simp only
        cases Json.ofTyped value path.text with
        | error e => exact h
        | ok json =>
          exact h.insertChild hget ((objectMerge_mergeObject json _ _ none _).eachEntry hitems
            (h.child hget (.emptyContainer _)))
    | list names max schemas =>
      have hlist := h.child hget (.emptyList _)
      simp only
      split
      · cases Json.ofTyped value path.text with
        | error e => exact h
        | ok json =>
          exact h.insertChild hget ((listMerge_mergeList json _ _ _ _ _).eachEntry hitems hlist)
      · cases hrequire : (SchemaNode.list names max schemas).requireKeys path last with
        | error e => exact h
        | ok =>
          simp only
          cases Json.ofTyped value path.text with
          | error e => exact h
          | ok json =>
            simp only
            split
            · rename_i entries hentries
              rw [hentries] at hlist
              exact h.insertChild hget (EachEntry.insertEntry hlist (hkeys _ _ _ _ hrequire)
                ((objectMerge_mergeObject json _ _ _ _).eachEntry hitems
                  (EachEntry.entry hlist last.keys)))
            · exact h

end Editing

section Mutators

variable {P : List String → Keys → Prop} {schema : SchemaNode} {node : Node} {path : Path}

private theorem forall_mem_of_getLast? {elems : List PathElem} {last : PathElem}
    {Q : PathElem → Prop} (hlast : elems.getLast? = some last) (h : ∀ elem ∈ elems, Q elem) :
    Q last ∧ ∀ elem ∈ elems.dropLast, Q elem :=
  ⟨h last (List.mem_of_getLast? hlast), fun elem hmem => h elem (List.dropLast_subset elems hmem)⟩

theorem eachEntry_mutate {α : Type} {atRoot : Edited α Node} {edit : PathElem → ChildEdit α}
    (hroot : EachEntry P schema atRoot.2)
    (hedit : ∀ last, HoldsOfElem P last → ∀ schema children,
      EachEntry P schema (.container children) →
        EachEntry P schema (.container (edit last schema children).2))
    (hkeys : ∀ elem ∈ path.elems, HoldsOfElem P elem) (h : EachEntry P schema node) :
    EachEntry P schema (node.mutate schema path atRoot edit).2 := by
  unfold mutate
  cases schema.locate path with
  | error e => exact h
  | ok target =>
    simp only
    cases hlast : path.elems.getLast? with
    | none => exact hroot
    | some last =>
      obtain ⟨hend, hparents⟩ := forall_mem_of_getLast? hlast hkeys
      simp only [requireReached_node]
      exact eachEntry_editBelow (hedit last hend) true path 0 hparents h

theorem eachEntry_putRoot (hitems : HoldsOfItems P) (value : TypedValue)
    (h : EachEntry P schema node) : EachEntry P schema (putRoot schema node path value).2 := by
  unfold putRoot
  cases Json.ofTyped value path.text with
  | error e => exact h
  | ok json => exact (objectMerge_mergeObject json schema "" none node).eachEntry hitems h

/-- What an empty tree has and each call keeps is there after all calls. -/
theorem build_induction {Q : Node → Prop} {calls : List Mutation} (hempty : Q emptyContainer)
    (hput : ∀ node path value, Mutation.put path value ∈ calls → Q node →
      Q (node.put schema path value).2)
    (hcreate : ∀ node path, Mutation.create path ∈ calls → Q node →
      Q (node.create schema path).2) : Q (Mutation.build schema calls) := by
  refine List.foldlRecOn calls (Mutation.applyTo schema) hempty ?_
  intro node h call hcall
  cases call with
  | put path value => exact hput node path value hcall h
  | create path => exact hcreate node path hcall h

/-- What holds of the keys of paths and of array items holds of those of all entries. -/
theorem eachEntry_build (hitems : HoldsOfItems P) {calls : List Mutation}
    (hkeys : ∀ call ∈ calls, ∀ elem ∈ call.path.elems, HoldsOfElem P elem) :
    EachEntry P schema (Mutation.build schema calls) := by
  refine build_induction (.emptyContainer schema) ?_ ?_
  · intro node path value hcall h
    rw [put_eq_mutate]
    exact eachEntry_mutate (eachEntry_putRoot hitems value h)
      (fun _ hlast => eachEntry_putLast hitems hlast value) (hkeys _ hcall) h
  · intro node path hcall h
    rw [create_eq_mutate]
    exact eachEntry_mutate h (fun _ => eachEntry_createLast) (hkeys _ hcall) h

theorem isPlace_build (schema : SchemaNode) (calls : List Mutation) :
    IsPlace schema (Mutation.build schema calls) :=
  build_induction (IsPlace.empty schema) (fun _ path value _ h => (put_spec path value h).1)
    (fun _ _ _ h => isPlace_create h)

end Mutators

end Node

end Telemetry
