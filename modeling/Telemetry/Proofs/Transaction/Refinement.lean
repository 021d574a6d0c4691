import Telemetry.Proofs.Transaction.Outcomes
import Telemetry.Proofs.Tree.Merging

/-!
Requests on leaf maps. The operations of a request denote edits of the leaf map, relative to its
base: every delete removes, every replace removes and then writes, every update writes. A request
that runs on a tree does these edits to the leaves of the tree, in this order.
-/

namespace Telemetry

namespace LeafMap

theorem editAll_append (m : LeafMap) (base : List PathElem) (first second : List LeafEdit) :
    m.editAll base (first ++ second) = (m.editAll base first).editAll base second :=
  List.foldl_append

theorem edit_write_nil (m : LeafMap) (leaves : Assignments) :
    edit [] m (.write leaves) = m.assignAll leaves := by
  rw [edit, Assignments.nest_nil]

end LeafMap

namespace SetRequest

def baseElems (req : SetRequest) : List PathElem :=
  (req.base.getD Path.root).elems

def deleteEdits (path : Path) : List LeafEdit :=
  [.remove path.elems]

def updateEdits? (place : SchemaNode) (update : Update) : Option (List LeafEdit) :=
  ((valueOf update).leaves? place (pathOf update).elems).map fun leaves => [.write leaves]

/-- The edits that a replace denotes: what it writes stands alone afterwards. -/
def replaceEdits? (place : SchemaNode) (update : Update) : Option (List LeafEdit) :=
  (updateEdits? place update).map (.remove (pathOf update).elems :: ·)

/-- The edits that a request denotes below a place of the schema, in the order they are done. -/
def leafEdits? (req : SetRequest) (place : SchemaNode) : Option (List LeafEdit) :=
  (req.replaces.mapM (replaceEdits? place)).bind fun replaces =>
    (req.updates.mapM (updateEdits? place)).map fun updates =>
      (req.deletes.map deleteEdits ++ replaces ++ updates).flatten

section Operations

variable {schema : SchemaNode} {node after : Node}

/-- How a tree changes when edits are done to its leaves. -/
def EditedBy (schema : SchemaNode) (node after : Node) (edits : List LeafEdit) : Prop :=
  Node.IsPlace schema after ∧ after.leafAt? = node.leafAt?.editAll [] edits

theorem runDelete_spec {path : Path} (hplace : Node.IsPlace schema node)
    (h : runDelete schema node path = .ok after) :
    EditedBy schema node after (deleteEdits path) := by
  rw [runDelete_eq] at h
  have hkeeps : Node.IsPlace schema (node.erase schema path).2 := Node.isPlace_erase hplace
  have hleaves : (node.erase schema path).1 = .ok () → _ := Node.leafAt?_erase_eq_remove hplace
  cases herase : node.erase schema path with
  | mk result erased =>
    rw [herase] at h hkeeps hleaves
    cases result with
    | error e => cases h
    | ok =>
      cases h
      exact ⟨hkeeps, hleaves rfl⟩

theorem write_spec {update : Update} (hplace : Node.IsPlace schema node)
    (h : write schema node update = .ok after) :
    ∃ edits, updateEdits? schema update = some edits ∧ EditedBy schema node after edits := by
  rw [write_eq] at h
  have hcreated : Node.IsPlace schema (node.create schema (pathOf update)).2 :=
    Node.isPlace_create hplace
  have hsame := @Node.create_spec schema node (pathOf update) hplace
  cases hcreate : node.create schema (pathOf update) with
  | mk found created =>
    rw [hcreate] at h hcreated hsame
    cases found with
    | error e => cases h
    | ok target =>
      have hput := Node.put_spec (pathOf update) (valueOf update) hcreated
      simp only at h hput
      cases hwrite : created.put schema (pathOf update) (valueOf update) with
      | mk result put =>
        rw [hwrite] at h hput
        cases result with
        | error e => cases h
        | ok =>
          cases h
          obtain ⟨leaves, hleaves, hwritten⟩ := hput.2 rfl
          refine ⟨[.write leaves], by rw [updateEdits?, hleaves]; rfl, hput.1, ?_⟩
          rw [hwritten, (hsame rfl).2.1, ← LeafMap.edit_write_nil]
          rfl

theorem runUpdate_spec {update : Update} (hplace : Node.IsPlace schema node)
    (h : runUpdate schema node update = .ok after) :
    ∃ edits, updateEdits? schema update = some edits ∧ EditedBy schema node after edits :=
  write_spec hplace (mapError_eq_ok.mp ((runUpdate_eq schema node update).symm.trans h))

theorem runReplace_spec {update : Update} (hplace : Node.IsPlace schema node)
    (h : runReplace schema node update = .ok after) :
    ∃ edits, replaceEdits? schema update = some edits ∧ EditedBy schema node after edits := by
  rw [runReplace_eq] at h
  have hkeeps : Node.IsPlace schema (node.erase schema (pathOf update)).2 :=
    Node.isPlace_erase hplace
  have hleaves : (node.erase schema (pathOf update)).1 = .ok () → _ :=
    Node.leafAt?_erase_eq_remove hplace
  cases herase : node.erase schema (pathOf update) with
  | mk result erased =>
    rw [herase] at h hkeeps hleaves
    cases result with
    | error e => cases h
    | ok =>
      obtain ⟨edits, hedits, hwritten⟩ := write_spec hkeeps (mapError_eq_ok.mp h)
      refine ⟨_, by rw [replaceEdits?, hedits]; rfl, hwritten.1, ?_⟩
      rw [hwritten.2, hleaves rfl]
      rfl

/-- Operations in a row do the edits of each in turn. -/
private theorem foldlM_spec {α ε : Type} {run : Node → α → Except ε Node}
    (edits? : α → Option (List LeafEdit))
    (hrun : ∀ node op after, Node.IsPlace schema node → run node op = .ok after →
      ∃ edits, edits? op = some edits ∧ EditedBy schema node after edits)
    {ops : List α} (hplace : Node.IsPlace schema node) (h : ops.foldlM run node = .ok after) :
    ∃ edits, ops.mapM edits? = some edits ∧ EditedBy schema node after edits.flatten := by
  induction ops generalizing node with
  | nil =>
    cases h
    exact ⟨[], rfl, hplace, rfl⟩
  | cons op ops ih =>
    rw [List.foldlM_cons] at h
    obtain ⟨between, hop, h⟩ := bind_eq_ok.mp h
    obtain ⟨first, hfirst, hbetween⟩ := hrun node op between hplace hop
    obtain ⟨others, hothers, hafter⟩ := ih hbetween.1 h
    refine ⟨first :: others, ?_, hafter.1, ?_⟩
    · rw [List.mapM_cons, hfirst, hothers]
      rfl
    · rw [hafter.2, hbetween.2, List.flatten_cons, LeafMap.editAll_append]

theorem runBelow_spec {req : SetRequest} (hplace : Node.IsPlace schema node)
    (h : req.runBelow schema node = .ok after) :
    ∃ edits, req.leafEdits? schema = some edits ∧ EditedBy schema node after edits := by
  obtain ⟨deleted, replaced, hdelete, hreplace, hupdate⟩ := runBelow_eq_ok.mp h
  obtain ⟨deletes, hdeletes, hdeleted⟩ :=
    foldlM_spec (fun path => some (deleteEdits path))
      (fun _ _ _ hplace h => ⟨_, rfl, runDelete_spec hplace h⟩) hplace hdelete
  obtain ⟨replaces, hreplaces, hreplaced⟩ :=
    foldlM_spec (replaceEdits? schema) (fun _ _ _ hplace h => runReplace_spec hplace h)
      hdeleted.1 hreplace
  obtain ⟨updates, hupdates, hupdated⟩ :=
    foldlM_spec (updateEdits? schema) (fun _ _ _ hplace h => runUpdate_spec hplace h)
      hreplaced.1 hupdate
  have hmap : deletes = req.deletes.map deleteEdits :=
    (Option.some.inj ((List.mapM_pure).symm.trans hdeletes)).symm
  refine ⟨_, by rw [leafEdits?, hreplaces, hupdates]; rfl, hupdated.1, ?_⟩
  simp only [hupdated.2, hreplaced.2, hdeleted.2, hmap, List.flatten_append,
    LeafMap.editAll_append]

end Operations

section Run

variable {req : SetRequest} {schema : SchemaNode} {root after : Node}

theorem startsAt_eq_true {base : Path} {place : SchemaNode} :
    startsAt base place = true ↔ Node.EndsAtPlace base place := by
  constructor
  · intro h
    cases place with
    | leaf leafSchema => cases h
    | container schemas => exact Or.inl ⟨schemas, rfl⟩
    | list keys max schemas =>
      cases hlast : base.elems.getLast? with
      | none => simp [startsAt, hlast] at h
      | some last =>
        exact Or.inr ⟨keys, max, schemas, last, rfl, hlast, by simpa [startsAt, hlast] using h⟩
  · rintro (⟨schemas, rfl⟩ | ⟨keys, max, schemas, last, rfl, hlast, hkeys⟩)
    · rfl
    · simp [startsAt, hlast, hkeys]

/-- Operations are run at a container or at an entry of a list only. -/
theorem endsAtPlace_of_eq_ok {base : Path} {place : SchemaNode} {found : Option Node}
    {below : Node → Except SetError Node}
    (h : (match startsAt base place, found with
      | true, some node => below node
      | _, _ => .error (.baseNotContainer base.text)) = .ok after) :
    Node.EndsAtPlace base place ∧ ∃ sub, found = some sub ∧ below sub = .ok after := by
  cases hstarts : startsAt base place with
  | false => simp [hstarts] at h
  | true =>
    cases found with
    | none => simp [hstarts] at h
    | some sub => exact ⟨startsAt_eq_true.mp hstarts, sub, rfl, by simpa [hstarts] using h⟩

/-- A request that runs edits the leaves of the tree, relative to its base. -/
theorem run_spec (hplace : Node.IsPlace schema root) (h : req.run schema root = .ok after) :
    Node.IsPlace schema after ∧ ∃ place edits, schema.descend req.baseElems = some place ∧
      req.leafEdits? place = some edits ∧
      after.leafAt? = root.leafAt?.editAll req.baseElems edits := by
  rw [run_eq] at h
  simp only at h
  generalize hbase : (req.base.getD Path.root).bare = base at h
  have helems : base.elems = req.baseElems := by rw [← hbase]; rfl
  have hcreated : Node.IsPlace schema (root.create schema base).2 := Node.isPlace_create hplace
  have hspec := @Node.create_spec schema root base hplace
  cases hcreate : root.create schema base with
  | mk found created =>
    rw [hcreate] at h hcreated hspec
    rcases found with e | ⟨found, place⟩
    · cases h
    · obtain ⟨hdescend, hsame, hfound⟩ := hspec rfl
      simp only at h hcreated hsame hfound
      obtain ⟨hends, sub, rfl, hbelow⟩ := endsAtPlace_of_eq_ok h
      obtain ⟨other, hother, hsub, hat⟩ := hfound hends
      cases hother
      obtain ⟨new, hnew, hafter⟩ := bind_eq_ok.mp hbelow
      cases hafter
      obtain ⟨edits, hedits, hplaced, hleaves⟩ := runBelow_spec hsub hnew
      obtain ⟨hkept, hfocused⟩ := Node.focused_replaceAt hcreated hdescend hat hsub hplaced
      refine ⟨hkept, place, edits, helems ▸ hdescend, hedits, ?_⟩
      rw [← helems, LeafMap.editAll_eq_under, ← hsame]
      exact hfocused.leaves_eq_under hleaves

end Run

end SetRequest

end Telemetry
