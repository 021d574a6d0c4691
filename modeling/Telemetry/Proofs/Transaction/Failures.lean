import Telemetry.Proofs.Cache.Written
import Telemetry.Proofs.Siblings
import Telemetry.Proofs.Transaction.Commit
import Telemetry.Proofs.Tree.Difference
import Telemetry.Proofs.Tree.Kinds

/-!
How transactions fail. On a tree in the shape of its schema a request fails for its own paths and
values only, and so does its check; the difference from the tree before always exists. What is left
is what the siblings and the cache refuse.
-/

namespace Telemetry

namespace SetError

def cause? : SetError → Option TreeError
  | base _ cause => some cause
  | delete _ cause => some cause
  | replace _ cause => some cause
  | update _ cause => some cause
  | validation cause => some cause
  | diff cause => some cause
  | _ => none

/-- An error that a request is to blame for: there is a schema, the trees before and after can be
compared, no node has another kind than the schema has there, and the cache does not object. -/
def Legitimate : SetError → Prop
  | unsupported | diff _ | publish _ => False
  | base _ cause | delete _ cause | replace _ cause | update _ cause | validation cause =>
    cause.Legitimate
  | _ => True

variable {e : SetError}

theorem Legitimate.supported (h : e.Legitimate) : e ≠ .unsupported := by
  rintro rfl
  exact h

theorem Legitimate.compared (h : e.Legitimate) (cause : TreeError) : e ≠ .diff cause := by
  rintro rfl
  exact h

theorem Legitimate.published (h : e.Legitimate) (cause : CacheError) : e ≠ .publish cause := by
  rintro rfl
  exact h

theorem Legitimate.cause (h : e.Legitimate) {cause : TreeError} (hcause : e.cause? = some cause) :
    cause.Legitimate := by
  cases e with
  | diff => exact h.elim
  | _ => cases hcause <;> exact h

end SetError

theorem Node.sound_validate (schema : SchemaNode) (root : Node) :
    TreeError.Sound (Node.validate schema root) := by
  unfold Node.validate
  split
  · exact TreeError.sound_ok _
  · exact TreeError.sound_error trivial

namespace SetRequest

open TreeError (Sound)

abbrev RunsSoundly (schema : SchemaNode) (result : Except SetError Node) : Prop :=
  Good SetError.Legitimate (Node.IsPlace schema) result

variable {schema : SchemaNode} {node : Node}

theorem sound_write (hplace : Node.IsPlace schema node) (update : Update) :
    Good TreeError.Legitimate (Node.IsPlace schema) (write schema node update) := by
  rw [write_eq]
  have hcreate : Sound (node.create schema (pathOf update)).1 := Node.sound_create hplace
  have hcreated : Node.IsPlace schema (node.create schema (pathOf update)).2 :=
    Node.isPlace_create hplace
  cases hmade : node.create schema (pathOf update) with
  | mk found created =>
    rw [hmade] at hcreate hcreated
    cases found with
    | error e => exact hcreate
    | ok =>
      have hput : Sound (created.put schema (pathOf update) (valueOf update)).1 :=
        Node.sound_put hcreated (valueOf update)
      have hplaced := (Node.put_spec (pathOf update) (valueOf update) hcreated).1
      simp only
      cases hstored : created.put schema (pathOf update) (valueOf update) with
      | mk result stored =>
        rw [hstored] at hput hplaced
        cases result with
        | error e => exact hput
        | ok => exact hplaced

theorem runsSoundly_runDelete (hplace : Node.IsPlace schema node) (path : Path) :
    RunsSoundly schema (runDelete schema node path) := by
  rw [runDelete_eq]
  have herase : Sound (node.erase schema path).1 := Node.sound_erase hplace
  have herased : Node.IsPlace schema (node.erase schema path).2 := Node.isPlace_erase hplace
  cases hgone : node.erase schema path with
  | mk result erased =>
    rw [hgone] at herase herased
    cases result with
    | error e => exact herase
    | ok => exact herased

theorem runsSoundly_runReplace (hplace : Node.IsPlace schema node) (update : Update) :
    RunsSoundly schema (runReplace schema node update) := by
  rw [runReplace_eq]
  have herase : Sound (node.erase schema (pathOf update)).1 := Node.sound_erase hplace
  have herased : Node.IsPlace schema (node.erase schema (pathOf update)).2 :=
    Node.isPlace_erase hplace
  cases hgone : node.erase schema (pathOf update) with
  | mk result erased =>
    rw [hgone] at herase herased
    cases result with
    | error e => exact herase
    | ok => exact (sound_write herased update).mapError fun _ => id

theorem runsSoundly_runUpdate (hplace : Node.IsPlace schema node) (update : Update) :
    RunsSoundly schema (runUpdate schema node update) := by
  rw [runUpdate_eq]
  exact (sound_write hplace update).mapError fun _ => id

theorem runsSoundly_runBelow (req : SetRequest) (hplace : Node.IsPlace schema node) :
    RunsSoundly schema (req.runBelow schema node) := by
  rw [runBelow_eq]
  have hdelete : RunsSoundly schema (req.deletes.foldlM (runDelete schema) node) :=
    Good.foldlM hplace fun _ path h => runsSoundly_runDelete h path
  refine hdelete.bind fun deleted _ hdeleted => ?_
  have hreplace : RunsSoundly schema (req.replaces.foldlM (runReplace schema) deleted) :=
    Good.foldlM hdeleted fun _ update h => runsSoundly_runReplace h update
  refine hreplace.bind fun replaced _ hreplaced => ?_
  exact Good.foldlM hreplaced fun _ update h => runsSoundly_runUpdate h update

/-- Nothing is run where the base is not a place. -/
private theorem runsSoundly_place {place : Bool} {found : Option Node}
    {below : Node → Except SetError Node} {path : String} :
    (place = true → ∀ sub, found = some sub → RunsSoundly schema (below sub)) →
      RunsSoundly schema (match place, found with
        | true, some node => below node
        | _, _ => .error (.baseNotContainer path)) := by
  intro h
  match place, found with
  | true, some sub => exact h rfl sub rfl
  | true, none => trivial
  | false, _ => trivial

/-- The base is created, so the operations run at a place of the schema. -/
theorem runsSoundly_run (req : SetRequest) (hplace : Node.IsPlace schema node) :
    RunsSoundly schema (req.run schema node) := by
  rw [run_eq]
  simp only
  generalize (req.base.getD Path.root).bare = base
  have hcreate : Sound (node.create schema base).1 := Node.sound_create hplace
  have hcreated : Node.IsPlace schema (node.create schema base).2 := Node.isPlace_create hplace
  have hspec := @Node.create_spec schema node base hplace
  cases hmade : node.create schema base with
  | mk found created =>
    rw [hmade] at hcreate hcreated hspec
    rcases found with e | ⟨found, place⟩
    · exact hcreate
    · obtain ⟨hdescend, -, hfound⟩ := hspec rfl
      refine runsSoundly_place ?_
      rintro hends sub rfl
      obtain ⟨_, ⟨⟩, hsub, hat⟩ := hfound (startsAt_eq_true.mp hends)
      refine (runsSoundly_runBelow req hsub).bind fun new _ hnew => ?_
      exact (Node.focused_replaceAt hcreated hdescend hat hsub hnew).1

end SetRequest

/-- A leaf that a transaction updates, or one of its copies, is cached with a later time. -/
structure Overtaken (s : Siblings) (difference : Notification) (cached : CacheTarget)
    (now : Int64) (path : Path) (leaf : CachedLeaf) : Prop where
  copied : ∃ own value, Update.of own value ∈ difference.updates ∧
    ∃ copy ∈ s.copies own.elems, path = Path.ofElems copy
  cached : SortedMap.get? cached.leaves path.text = some leaf
  later : now < leaf.timestamp

/-- Extended updates are refused for an overtaken leaf only. -/
theorem overtaken_of_apply {s : Siblings} {difference n extended : Notification}
    {cached : CacheTarget} {cause : CacheError}
    (hpaths : ∀ own ∈ difference.updates, ∃ elems value, own = Update.of (Path.ofElems elems) value)
    (hupdates : n.updates = difference.updates) (hbase : n.basePath.elems = [])
    (hextend : s.extend n = .ok extended) (h : cached.apply extended = .error cause) :
    ∃ path leaf, Overtaken s difference cached n.timestamp path leaf ∧
      cause = .stale path.text leaf.timestamp n.timestamp := by
  have hown : ∀ own ∈ n.updates, ∃ path value, own = Update.of path value := by
    intro own hmem
    obtain ⟨elems, value, rfl⟩ := hpaths own (hupdates ▸ hmem)
    exact ⟨_, _, rfl⟩
  have hmem := @Siblings.mem_updates_extend s n extended hextend hown
  have hcomplete : ∀ update ∈ extended.updates, ∃ path value, update = Update.of path value := by
    intro update hupdate
    obtain ⟨path, value, -, copy, -, rfl⟩ := hmem.mp hupdate
    exact ⟨_, _, rfl⟩
  obtain ⟨path, value, leaf, hupdate, hleaf, hlater, rfl⟩ := CacheTarget.apply_eq_error hcomplete h
  obtain ⟨own, ownValue, hownMem, copy, hcopy, hsame⟩ := hmem.mp hupdate
  obtain ⟨deletes, updates, -, -, rfl⟩ := Siblings.extend_eq_ok hextend
  have hfull : (n.basePath.join path).bare = Path.ofElems copy := by
    cases hsame
    simp [Path.join, Path.bare, hbase]
  exact ⟨Path.ofElems copy, leaf, ⟨⟨own, ownValue, hupdates ▸ hownMem, copy, hcopy, rfl⟩,
    hfull ▸ hleaf, hlater⟩, by rw [← hfull]; rfl⟩

/-- A transaction fails for its request, for the siblings or for an overtaken leaf. -/
theorem Transactor.legitimate_or_overtaken_of_failsAt {t : Transactor} {now : Int64} {before : Node}
    {cached : CacheTarget} {req : SetRequest} {e : SetError}
    (hplace : Node.IsPlace t.schema.root before)
    (h : t.FailsAt now cached req (some before) e) :
    e.Legitimate ∨ ∃ after difference path leaf, req.run t.schema.root before = .ok after ∧
      Notification.ofDiff before after = .ok difference ∧
      Overtaken t.siblings difference cached now path leaf ∧
      e = .publish (.stale path.text leaf.timestamp now) := by
  have hruns := SetRequest.runsSoundly_run req hplace
  cases h with
  | operations hrun =>
    rw [hrun] at hruns
    exact Or.inl hruns
  | @validation _ after cause _ hvalid =>
    have hsound := Node.sound_validate t.schema.root after
    rw [hvalid] at hsound
    exact Or.inl hsound
  | difference hrun _ hdiff =>
    rw [hrun] at hruns
    obtain ⟨_, hsame⟩ := Notification.exists_ofDiff hplace hruns
    rw [hdiff] at hsame
    cases hsame
  | siblings => exact Or.inl trivial
  | @cache _ after difference _ _ hrun _ hdiff hextend happly =>
    rw [hrun] at hruns
    have hpaths : ∀ own ∈ difference.updates, ∃ elems value,
        own = Update.of (Path.ofElems elems) value := by
      intro own hown
      obtain ⟨elems, value, hsame, -⟩ :=
        (Notification.mem_updates_ofDiff hplace hruns hdiff).mp hown
      exact ⟨elems, _, hsame⟩
    obtain ⟨path, leaf, hovertaken, rfl⟩ := overtaken_of_apply
      (n := difference.stamped now req cached.name) hpaths rfl rfl hextend happly
    exact Or.inr ⟨after, difference, path, leaf, hrun, hdiff, hovertaken, rfl⟩

end Telemetry
