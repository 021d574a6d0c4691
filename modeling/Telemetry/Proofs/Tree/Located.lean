import Telemetry.Proofs.Tree.Faults

/-!
Edits at paths that a schema accepts. In a tree in the shape of the schema such an edit never
fails on its way down: whatever the path names can be created and deleted, and storing a value
there fails for the value only. A leaf takes every value that converts to its type.
-/

namespace Telemetry

namespace SchemaNode

theorem requireKeys_eq_ok {schema : SchemaNode} {full : Path} {elem : PathElem} :
    schema.requireKeys full elem = .ok () ↔ schema.keyNames.length = elem.keys.length ∧
      schema.keyNames.all (SortedMap.contains elem.keys ·) = true := by
  unfold requireKeys
  dsimp only
  split <;> simp_all

/-- A path may pass through an entry of a list that declares keys. -/
theorem requirePassable_entry {names : List String} {max : Option UInt64}
    {schemas : List (String × SchemaNode)} {full : Path} {depth : Nat} {elem : PathElem}
    {isLast : Bool} (hne : names ≠ []) (hlength : names.length = elem.keys.length)
    (hnames : names.all (SortedMap.contains elem.keys ·) = true) :
    (list names max schemas).requirePassable full depth elem isLast = .ok () := by
  have hkeys : elem.keys ≠ [] := by
    intro hnil
    rw [hnil, List.length_nil] at hlength
    exact hne (List.eq_nil_of_length_eq_zero hlength)
  have hrequire : (list names max schemas).requireKeys full elem = .ok () :=
    requireKeys_eq_ok.mpr ⟨hlength, hnames⟩
  simp [requirePassable, hkeys, hrequire]

theorem locateFrom_cons_eq_ok {full : Path} {schema target : SchemaNode} {depth : Nat}
    {elem : PathElem} {rest : List PathElem} :
    locateFrom full schema depth (elem :: rest) = .ok target ↔
      ∃ child, schema.child? elem.name = some child ∧
        child.requirePassable full depth elem rest.isEmpty = .ok () ∧
        locateFrom full child (depth + 1) rest = .ok target := by
  rw [locateFrom]
  simp only [bind_eq_ok, childFor_eq_ok]
  constructor
  · rintro ⟨child, hchild, ⟨⟩, hpassable, hrest⟩
    exact ⟨child, hchild, hpassable, hrest⟩
  · rintro ⟨child, hchild, hpassable, hrest⟩
    exact ⟨child, hchild, (), hpassable, hrest⟩

theorem locateFrom_nil_eq_ok {full : Path} {schema target : SchemaNode} {depth : Nat} :
    locateFrom full schema depth [] = .ok target ↔ schema = target := by
  rw [locateFrom, Except.ok.injEq]

theorem descend_of_locateFrom {full : Path} {schema target : SchemaNode} {depth : Nat}
    {elems : List PathElem} (h : locateFrom full schema depth elems = .ok target) :
    schema.descend elems = some target := by
  induction elems generalizing schema depth with
  | nil => rw [descend, locateFrom_nil_eq_ok.mp h]
  | cons elem rest ih =>
    obtain ⟨child, hchild, -, hrest⟩ := locateFrom_cons_eq_ok.mp h
    rw [descend, hchild, Option.bind_some, ih hrest]

theorem stepInto_of_requirePassable {schema child : SchemaNode} {full : Path} {depth : Nat}
    {elem : PathElem} (hchild : schema.child? elem.name = some child)
    (h : child.requirePassable full depth elem false = .ok ()) :
    schema.stepInto full depth elem = .ok (child, Step.ofElem child elem) := by
  exact bind_eq_ok.mpr ⟨child, childFor_eq_ok.mpr hchild, bind_eq_ok.mpr ⟨(), h, rfl⟩⟩

/-- No leaf path is covered by another one. -/
theorem eq_of_covers {full other : Path} {schema : SchemaNode} {leafSchema otherSchema : LeafSchema}
    {depth : Nat} {elems path : List PathElem}
    (helems : locateFrom full schema depth elems = .ok (.leaf leafSchema))
    (hpath : locateFrom other schema depth path = .ok (.leaf otherSchema)) (hne : path ≠ [])
    (hcovers : Path.covers path elems = true) : elems = path := by
  induction path generalizing schema depth elems with
  | nil => exact absurd rfl hne
  | cons first more ih =>
    cases elems with
    | nil => cases hcovers
    | cons elem rest =>
      obtain ⟨child, hchild, hpassable, hrest⟩ := locateFrom_cons_eq_ok.mp helems
      obtain ⟨found, hfound, hfirst, hmore⟩ := locateFrom_cons_eq_ok.mp hpath
      cases more with
      | nil =>
        simp only [Path.covers, Bool.and_eq_true, beq_iff_eq] at hcovers
        rw [hcovers.1, hchild] at hfound
        cases hfound
        cases locateFrom_nil_eq_ok.mp hmore
        have hnil : rest = [] := by
          cases rest with
          | nil => rfl
          | cons next more => cases hpassable
        subst hnil
        have hkeys : elem.keys = [] := requireNoKeys_eq_ok.mp hpassable
        have hfirstKeys : first.keys = [] := requireNoKeys_eq_ok.mp hfirst
        obtain ⟨name, keys⟩ := elem
        obtain ⟨firstName, firstKeys⟩ := first
        simp_all
      | cons next more =>
        simp only [Path.covers, Bool.and_eq_true, beq_iff_eq] at hcovers
        obtain ⟨rfl, hcovers⟩ := hcovers
        rw [hchild] at hfound
        cases hfound
        rw [ih hrest hmore (List.cons_ne_nil _ _) hcovers]

end SchemaNode

namespace Node

variable {schema : SchemaNode} {node : Node} {path : Path}

/-- An edit at an accepted path gives what it gives at the last element, or nothing where a place
on the way is missing and is not made. -/
theorem editBelow_of_locateFrom {α : Type} (create : Bool) (edit : ChildEdit α) {depth : Nat}
    {parents : List PathElem} {last : PathElem} {target : SchemaNode}
    (hplace : IsPlace schema node)
    (hlocate : SchemaNode.locateFrom path schema depth (parents ++ [last]) = .ok target) :
    (create = false ∧ (editBelow create path edit schema node depth parents).1 = .ok none) ∨
      ∃ place children depth', IsPlace place (.container children) ∧
        place.child? last.name = some target ∧
        target.requirePassable path depth' last true = .ok () ∧
        (editBelow create path edit schema node depth parents).1 =
          (edit place children).1.map some := by
  induction parents generalizing schema node depth with
  | nil =>
    obtain ⟨child, hchild, hpassable, hrest⟩ := SchemaNode.locateFrom_cons_eq_ok.mp hlocate
    cases SchemaNode.locateFrom_nil_eq_ok.mp hrest
    obtain ⟨children, rfl⟩ := hplace.isContainer
    exact Or.inr ⟨schema, children, depth, hplace, hchild, hpassable, rfl⟩
  | cons elem rest ih =>
    obtain ⟨child, hchild, hpassable, hrest⟩ := SchemaNode.locateFrom_cons_eq_ok.mp hlocate
    have hlast : (rest ++ [last]).isEmpty = false := by simp
    change child.requirePassable path depth elem (rest ++ [last]).isEmpty = .ok () at hpassable
    rw [hlast] at hpassable
    have hstep := SchemaNode.stepInto_of_requirePassable hchild hpassable
    rcases enter_cases hplace (SchemaNode.leads_of_stepInto hstep) create path depth with
      ⟨henter, hcreate, -⟩ | ⟨sub, henter, hsub, -⟩
    · exact Or.inl ⟨hcreate, by simp [editBelow, hstep, henter]⟩
    · simpa [editBelow, hstep, henter] using ih hsub hrest

/-- Where places on the way are made, an edit at an accepted path gives what it gives at the last
element. -/
theorem requireReached_of_locate {α : Type} (edit : ChildEdit α) {last : PathElem}
    {target : SchemaNode} (hplace : IsPlace schema node)
    (hlocate : schema.locate path = .ok target) (hlast : path.elems.getLast? = some last) :
    ∃ place children depth, IsPlace place (.container children) ∧
      place.child? last.name = some target ∧
      target.requirePassable path depth last true = .ok () ∧
      (requireReached path (editBelow true path edit schema node 0 path.elems.dropLast)).1 =
        (edit place children).1 := by
  rw [SchemaNode.locate, elems_eq_append_of_getLast? hlast] at hlocate
  rcases editBelow_of_locateFrom true edit hplace hlocate with
    ⟨hcreate, -⟩ | ⟨place, children, depth, hchildren, hchild, hpassable, hresult⟩
  · cases hcreate
  · refine ⟨place, children, depth, hchildren, hchild, hpassable, ?_⟩
    cases hbelow : editBelow true path edit schema node 0 path.elems.dropLast with
    | mk result after =>
      rw [hbelow] at hresult
      simp only at hresult
      rw [hresult]
      cases (edit place children).1 <;> rfl

section Create

private theorem createLast_of_requirePassable {place target : SchemaNode} {last : PathElem}
    {children : List (String × Node)} {depth : Nat} (hplace : IsPlace place (.container children))
    (hchild : place.child? last.name = some target)
    (hpassable : target.requirePassable path depth last true = .ok ()) :
    ∃ found, (createLast path last place children).1 = .ok (found, target) := by
  unfold createLast
  rw [SchemaNode.childFor_eq_ok.mpr hchild]
  cases target with
  | leaf leafSchema =>
    have hnoKeys : SchemaNode.requireNoKeys path last = .ok () := by
      simpa [SchemaNode.requirePassable] using hpassable
    simp [hnoKeys, Except.map]
  | container schemas =>
    have hnoKeys : SchemaNode.requireNoKeys path last = .ok () := hpassable
    simp [hnoKeys]
  | list names max schemas =>
    by_cases hkeys : last.keys = []
    · simp [hkeys]
    · have hrequire : (SchemaNode.list names max schemas).requireKeys path last = .ok () := by
        simpa [SchemaNode.requirePassable, hkeys] using hpassable
      obtain ⟨entries, hlist, -⟩ :=
        select?_of_fits_list (fits_child_getD hplace hchild Fits.emptyList)
      simp [hkeys, hrequire, hlist]

/-- Whatever an accepted path names can be created. -/
theorem create_of_locate (hplace : IsPlace schema node) {target : SchemaNode}
    (hlocate : schema.locate path = .ok target) :
    ∃ found, (node.create schema path).1 = .ok (found, target) := by
  unfold create
  rw [hlocate]
  cases hlast : path.elems.getLast? with
  | none =>
    rw [SchemaNode.locate, List.getLast?_eq_none_iff.mp hlast] at hlocate
    rw [SchemaNode.locateFrom_nil_eq_ok.mp hlocate]
    exact ⟨some node, rfl⟩
  | some last =>
    obtain ⟨place, children, depth, hchildren, hchild, hpassable, hresult⟩ :=
      requireReached_of_locate (createLast path last) hplace hlocate hlast
    simp only [hresult]
    exact createLast_of_requirePassable hchildren hchild hpassable

/-- What can be created is named by an accepted path. -/
theorem locate_of_create (hplace : IsPlace schema node) {found : Option Node}
    {target : SchemaNode} (h : (node.create schema path).1 = .ok (found, target)) :
    schema.locate path = .ok target := by
  cases hlocate : schema.locate path with
  | error e => simp [create, hlocate] at h
  | ok located =>
    obtain ⟨other, hother⟩ := create_of_locate hplace hlocate
    rw [h] at hother
    obtain ⟨-, rfl⟩ := Prod.mk.inj (Except.ok.inj hother)
    rfl

end Create

section Erase

private theorem eraseLast_of_requirePassable {place target : SchemaNode} {last : PathElem}
    {children : List (String × Node)} {depth : Nat} (hplace : IsPlace place (.container children))
    (hchild : place.child? last.name = some target)
    (hpassable : target.requirePassable path depth last true = .ok ()) :
    (eraseLast path last place children).1 = .ok () := by
  unfold eraseLast
  rw [SchemaNode.childFor_eq_ok.mpr hchild]
  cases target with
  | leaf leafSchema =>
    rw [SchemaNode.requirePassable] at hpassable
    simp only [if_true] at hpassable
    simp [hpassable]
  | container schemas =>
    rw [SchemaNode.requirePassable] at hpassable
    simp [hpassable]
  | list names max schemas =>
    by_cases hkeys : last.keys = []
    · simp [hkeys]
    · have hrequire : (SchemaNode.list names max schemas).requireKeys path last = .ok () := by
        simpa [SchemaNode.requirePassable, hkeys] using hpassable
      cases hlist : SortedMap.get? children last.name with
      | none => simp [hkeys, hrequire]
      | some child =>
        obtain ⟨entries, rfl, -⟩ := select?_of_fits_list (hplace.child_fits hlist hchild)
        simp [hkeys, hrequire]

/-- Whatever stands at an accepted path can be deleted. -/
theorem erase_of_locate (hplace : IsPlace schema node) {target : SchemaNode}
    (hlocate : schema.locate path = .ok target) : (node.erase schema path).1 = .ok () := by
  unfold erase
  cases hlast : path.elems.getLast? with
  | none => rfl
  | some last =>
    rw [SchemaNode.locate, elems_eq_append_of_getLast? hlast] at hlocate
    rcases editBelow_of_locateFrom false (eraseLast path last) hplace hlocate with
      ⟨-, hresult⟩ | ⟨place, children, depth, hchildren, hchild, hpassable, hresult⟩
    · simp [hresult, Except.map]
    · rw [eraseLast_of_requirePassable hchildren hchild hpassable] at hresult
      simp [hresult, Except.map]

end Erase

section Faults

def mergePlace (path : Path) : String :=
  if path.isRoot then "" else path.text

def PutFaults (target : SchemaNode) (path : Path) (value : TypedValue) (e : TreeError) : Prop :=
  e.BlamesValue ∨ ∃ json, Json.ofTyped value path.text = .ok json ∧
    json.NamesUnknown target (mergePlace path) e

variable {value : TypedValue} {target : SchemaNode}

private theorem putFaults_of_json {json : Json} (hjson : Json.ofTyped value path.text = .ok json)
    {result : Except TreeError Unit} (h : FailsFor json target (mergePlace path) result) :
    Good (PutFaults target path value) (fun _ => True) result :=
  h.mono fun _ hfaults => hfaults.imp_right fun hunknown => ⟨json, hjson, hunknown⟩

private theorem putFaults_putLast {place : SchemaNode} {last : PathElem}
    {children : List (String × Node)} {depth : Nat} (hplace : IsPlace place (.container children))
    (hmerge : mergePlace path = path.text) (hchild : place.child? last.name = some target)
    (hpassable : target.requirePassable path depth last true = .ok ()) :
    Good (PutFaults target path value) (fun _ => True)
      (putLast path last value place children).1 := by
  unfold putLast
  rw [SchemaNode.childFor_eq_ok.mpr hchild]
  cases target with
  | leaf leafSchema =>
    have hnoKeys : SchemaNode.requireNoKeys path last = .ok () := by
      simpa [SchemaNode.requirePassable] using hpassable
    simp only [hnoKeys]
    cases hscalar : LeafValue.ofTyped leafSchema.type value path.text with
    | error e => exact ((LeafValue.converts_ofTyped _ _ _).mono fun _ => Or.inl).raise hscalar
    | ok scalar => trivial
  | container schemas =>
    have hnoKeys : SchemaNode.requireNoKeys path last = .ok () := hpassable
    simp only [hnoKeys]
    cases hjson : Json.ofTyped value path.text with
    | error e => exact ((Json.converts_ofTyped _ _).mono fun _ => Or.inl).raise hjson
    | ok json =>
      refine putFaults_of_json hjson ?_
      rw [hmerge]
      exact (objectMerge_mergeObject json _ _ _ _).failsFor
        (fits_child_getD hplace hchild (IsPlace.empty (.container schemas)))
  | list names max schemas =>
    have hempty : Fits (.list names max schemas) emptyList := Fits.emptyList
    have hfits := fits_child_getD hplace hchild hempty
    obtain ⟨entries, hlist, -⟩ := select?_of_fits_list hfits
    rw [hlist] at hfits
    simp only [hlist]
    by_cases hkeys : last.keys = []
    · rw [if_pos (List.isEmpty_iff.mpr hkeys)]
      cases hjson : Json.ofTyped value path.text with
      | error e => exact ((Json.converts_ofTyped _ _).mono fun _ => Or.inl).raise hjson
      | ok json =>
        refine putFaults_of_json hjson ?_
        rw [hmerge]
        exact (listMerge_mergeList json _ _ _ _ _).failsFor hfits
    · have hrequire : (SchemaNode.list names max schemas).requireKeys path last = .ok () := by
        simpa [SchemaNode.requirePassable, hkeys] using hpassable
      rw [if_neg (mt List.isEmpty_iff.mp hkeys)]
      simp only [hrequire]
      cases hjson : Json.ofTyped value path.text with
      | error e => exact ((Json.converts_ofTyped _ _).mono fun _ => Or.inl).raise hjson
      | ok json =>
        refine putFaults_of_json hjson ?_
        rw [hmerge]
        exact (objectMerge_mergeObject json _ _ _ _).failsFor (fits_entry_getD hfits last.keys)

/-- Storing a value at an accepted path fails for the value only. -/
theorem putFaults_of_locate (hplace : IsPlace schema node)
    (hlocate : schema.locate path = .ok target) (value : TypedValue) :
    Good (PutFaults target path value) (fun _ => True) (node.put schema path value).1 := by
  unfold put
  rw [hlocate]
  cases hlast : path.elems.getLast? with
  | none =>
    have hnil := List.getLast?_eq_none_iff.mp hlast
    rw [SchemaNode.locate, hnil] at hlocate
    cases SchemaNode.locateFrom_nil_eq_ok.mp hlocate
    simp only
    cases hjson : Json.ofTyped value path.text with
    | error e => exact ((Json.converts_ofTyped _ _).mono fun _ => Or.inl).raise hjson
    | ok json =>
      refine putFaults_of_json hjson ?_
      have hmerge : mergePlace path = "" := by simp [mergePlace, Path.isRoot, hnil]
      rw [hmerge]
      exact (objectMerge_mergeObject json schema "" none node).failsFor hplace
  | some last =>
    obtain ⟨place, children, depth, hchildren, hchild, hpassable, hresult⟩ :=
      requireReached_of_locate (putLast path last value) hplace hlocate hlast
    have hmerge : mergePlace path = path.text := by
      rw [mergePlace, Path.isRoot, elems_eq_append_of_getLast? hlast]
      simp
    simp only [hresult]
    exact putFaults_putLast hchildren hmerge hchild hpassable

end Faults

section Put

variable {leafSchema : LeafSchema} {value : TypedValue} {scalar : LeafValue}

private theorem putLast_of_requirePassable {place : SchemaNode} {last : PathElem}
    {children : List (String × Node)} {depth : Nat}
    (hvalue : LeafValue.ofTyped leafSchema.type value path.text = .ok scalar)
    (hchild : place.child? last.name = some (.leaf leafSchema))
    (hpassable : (SchemaNode.leaf leafSchema).requirePassable path depth last true = .ok ()) :
    (putLast path last value place children).1 = .ok () := by
  rw [SchemaNode.requirePassable, if_pos rfl] at hpassable
  unfold putLast
  rw [SchemaNode.childFor_eq_ok.mpr hchild]
  simp [hpassable, hvalue]

/-- A leaf takes a value that converts to its type, and nothing else changes. -/
theorem put_of_locate_leaf (hplace : IsPlace schema node) (hne : path.elems ≠ [])
    (hlocate : schema.locate path = .ok (.leaf leafSchema))
    (hvalue : LeafValue.ofTyped leafSchema.type value path.text = .ok scalar) :
    (node.put schema path value).1 = .ok () ∧
      (node.put schema path value).2.leafAt? = node.leafAt?.assign path.elems scalar := by
  have hlast := List.getLast?_eq_some_getLast hne
  generalize path.elems.getLast hne = last at hlast
  have helems := elems_eq_append_of_getLast? hlast
  have hok : (node.put schema path value).1 = .ok () := by
    obtain ⟨place, children, depth, -, hchild, hpassable, hresult⟩ :=
      requireReached_of_locate (putLast path last value) hplace hlocate hlast
    unfold put
    simp only [hlocate, hlast, hresult]
    exact putLast_of_requirePassable hvalue hchild hpassable
  refine ⟨hok, ?_⟩
  obtain ⟨leaves, hleaves, hafter⟩ := (put_spec path value hplace).2 hok
  have hscalar : LeafValue.ofTyped? leafSchema.type value = some scalar := by
    rw [← LeafValue.toOption_ofTyped _ _ path.text, hvalue]
    rfl
  rw [TypedValue.leaves?, hlast, SchemaNode.descend_of_locateFrom hlocate] at hleaves
  simp only [Option.bind_some, TypedValue.lastLeaves?, hscalar, Option.map_some,
    Option.some.injEq] at hleaves
  rw [hafter, ← hleaves, Assignments.nest, List.map_singleton, ← helems]
  rfl

/-- A value that a leaf takes converts to its type. -/
theorem exists_ofTyped_of_put (hplace : IsPlace schema node) (hne : path.elems ≠ [])
    (hlocate : schema.locate path = .ok (.leaf leafSchema))
    (h : (node.put schema path value).1 = .ok ()) :
    ∃ scalar, LeafValue.ofTyped leafSchema.type value path.text = .ok scalar := by
  have hlast := List.getLast?_eq_some_getLast hne
  generalize path.elems.getLast hne = last at hlast
  obtain ⟨place, children, depth, -, hchild, -, hresult⟩ :=
    requireReached_of_locate (putLast path last value) hplace hlocate hlast
  unfold put at h
  simp only [hlocate, hlast, hresult] at h
  unfold putLast at h
  rw [SchemaNode.childFor_eq_ok.mpr hchild] at h
  cases hscalar : LeafValue.ofTyped leafSchema.type value path.text with
  | ok scalar => exact ⟨scalar, rfl⟩
  | error e =>
    simp only [hscalar] at h
    cases hkeys : SchemaNode.requireNoKeys path last <;> simp [hkeys] at h

end Put

end Node

end Telemetry
